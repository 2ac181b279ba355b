import BouffaloSdk.Crypto.PkaPowers
import BouffaloSdk.Kit.Runs

/-!
# Runs of modular exponentiations

Calls with one modulus share the caller's helper. The accelerator keeps `-N⁻¹` in it and the
software `R² mod N`, each taking what it finds there for its own.
-/

namespace BouffaloSdk.Bignum
open Kit Kit.Montgomery Kit.Runs Pka

/-- `-N⁻¹` modulo the words of the modulus's register, the constant of the accelerator. -/
def hardConstant (n : Mpi) : Nat :=
  henselInverse n.val (regWords (mpiWordsToRegSize (mpiWords n)) * 32)

theorem lt_two_pow_bitlen (x : Mpi) : x.val.natAbs < 2 ^ x.bitlen := by
  unfold Mpi.bitlen
  split
  · omega
  · exact Nat.lt_log2_self

theorem natAbs_lt_regRadix {x : Mpi} {words : Nat} (hle : mpiWords x ≤ words) (h : words ≤ 128) :
    x.val.natAbs < regRadix (mpiWordsToRegSize words) := by
  have hwords : mpiWords x ≤ regWords (mpiWordsToRegSize words) := hle.trans (le_regWords h)
  calc x.val.natAbs < 2 ^ (32 * mpiWords x) := lt_two_pow_mpiWords x
    _ ≤ 2 ^ (32 * regWords (mpiWordsToRegSize words)) := Nat.pow_le_pow_right (by omega) (by omega)
    _ = regRadix (mpiWordsToRegSize words) := by rw [pow_mul, regRadix]

theorem Modulus.workable {n : Mpi} (h : Modulus n) (hwords : mpiWords n ≤ 128) :
    Workable (mpiWordsToRegSize (mpiWords n)) n.val.natAbs (hardConstant n) := by
  have hradix : 2 ^ (regWords (mpiWordsToRegSize (mpiWords n)) * 32) =
      regRadix (mpiWordsToRegSize (mpiWords n)) := by
    rw [regRadix, ← pow_mul, Nat.mul_comm]
  have hodd : Odd n.val.natAbs := Int.natAbs_odd.mpr (Int.odd_iff.mpr h.odd)
  refine ⟨(natAbs_lt_regRadix (le_refl _) hwords).le, ?_, h.coprime _, ?_⟩
  · rw [← hradix]
    exact henselInverse_lt n.val _
  · have hinverse := henselInverse_negInverse (m := regWords (mpiWordsToRegSize (mpiWords n)) * 32) hodd
    rw [h.natAbs_eq, hradix] at hinverse
    exact hinverse

/-- What the accelerator's path does with the helper when its constant is computed whole. -/
theorem primeHelper_cases {heap : HardHeap} {n : Mpi} {wordsN : Nat} {helper after : Helper}
    {res : Except Int (Option Nat)} (h : Modulus n) (hwords : wordsN ≠ 0) (hstop : heap.stopped = none)
    (hrun : primeHelper heap n wordsN helper = (res, after)) :
    (after = helper ∨ helper = .unused ∧ after = .holds (henselInverse n.val (wordsN * 32))) ∧
      (helper.IsFor (henselInverse n.val (wordsN * 32)) → ∀ prime, res = .ok prime →
        prime = some (henselInverse n.val (wordsN * 32))) := by
  have hodd := h.limb_odd
  have hhensel : mpiHenselQuadModInvPrimeN heap.stopped n (wordsN * 32) =
      (0, some (henselInverse n.val (wordsN * 32))) := by
    unfold mpiHenselQuadModInvPrimeN
    rw [if_neg (by omega), if_neg (by omega), hstop]
  cases helper with
  | null =>
    simp only [primeHelper, hhensel, ne_eq, not_true_eq_false, if_false, Prod.mk.injEq] at hrun
    obtain ⟨rfl, rfl⟩ := hrun
    exact ⟨.inl rfl, fun _ prime hprime => (Except.ok.inj hprime).symm⟩
  | unused =>
    simp only [primeHelper, hhensel, ne_eq, not_true_eq_false, if_false] at hrun
    cases hcopy : heap.copy with
    | true =>
      rw [hcopy, if_pos rfl, Prod.mk.injEq] at hrun
      obtain ⟨rfl, rfl⟩ := hrun
      exact ⟨.inr ⟨rfl, rfl⟩, fun _ prime hprime => (Except.ok.inj hprime).symm⟩
    | false =>
      rw [hcopy, if_neg (by decide), Prod.mk.injEq] at hrun
      obtain ⟨rfl, rfl⟩ := hrun
      exact ⟨.inl rfl, fun _ prime hprime => by cases hprime⟩
  | holds v =>
    simp only [primeHelper, Prod.mk.injEq] at hrun
    obtain ⟨rfl, rfl⟩ := hrun
    refine ⟨.inl rfl, fun hfor prime hprime => ?_⟩
    rw [← Except.ok.inj hprime, hfor v rfl]

/-! ## The calls -/

/-- One call with the shared helper, and what it meets. -/
structure ExpModCall where
  a : Mpi
  e : Mpi
  xIsA : Bool
  heap : HardHeap
  soft : SoftHeap
  ram : Ram

def ExpModCall.regSize (c : ExpModCall) (n : Mpi) : Nat :=
  mpiWordsToRegSize (max (mpiWords c.a) (max (mpiWords c.e) (mpiWords n)))

/-- The operands are too large for the accelerator. -/
def ExpModCall.onSoftware (c : ExpModCall) (n : Mpi) : Bool := decide (regSize256 < c.regSize n)

def ExpModCall.result (c : ExpModCall) (n : Mpi) (helper : Helper) : Except Int Int × Helper :=
  blMpiExpModWoLock c.heap c.soft c.ram c.xIsA c.a c.e n helper

def expModStep (n : Mpi) (helper : Helper) (c : ExpModCall) : Option Helper :=
  some (c.result n helper).2

/-- The call gets as far as the helper. -/
def ExpModCall.Reaches (c : ExpModCall) (n : Mpi) : Prop :=
  if c.onSoftware n then
    0 ≤ c.e.val ∧ c.e.bitlen ≤ mpiMaxBits ∧ n.bitlen ≤ mpiMaxBits ∧ c.soft.temporaries = true
  else
    0 < c.e.val ∧ c.heap.grow = true ∧ c.heap.buffer = true ∧ regWords (c.regSize n) ≠ 0

/-- The base is negative, the exponent odd and the power a multiple of the modulus. -/
def ExpModCall.NegativeMultiple (c : ExpModCall) (n : Mpi) : Prop :=
  c.a.val < 0 ∧ c.e.val.natAbs % 2 = 1 ∧ n.val ∣ c.a.val ^ c.e.val.natAbs

/-- Apart from the helper, nothing the call meets leads it astray. -/
structure ExpModCall.Sound (c : ExpModCall) (n : Mpi) : Prop where
  multiple : ¬ c.NegativeMultiple n
  sign : c.onSoftware n = false → ¬ (c.xIsA = true ∧ c.a.val < 0 ∧ c.e.val.natAbs % 2 = 1)
  whole : c.onSoftware n = false → c.heap.stopped = none
  stored : c.onSoftware n = true → c.soft.stale = none

/-- The constant that the call's path works with. -/
def ExpModCall.constant (c : ExpModCall) (n : Mpi) : Nat :=
  if c.onSoftware n then softConstant n else hardConstant n

/-- A call that returns 0 yields the power. -/
def ExpModCall.Right (c : ExpModCall) (n : Mpi) (helper : Helper) : Prop :=
  ∀ x, (c.result n helper).1 = .ok x → x = c.a.val ^ c.e.val.toNat % n.val ∧ 0 ≤ x ∧ x < n.val

/-- The helper is empty, or the later calls on one of the two paths come out right with it. -/
def Helper.Valid (n : Mpi) (helper : Helper) : Prop :=
  helper = .null ∨ helper = .unused ∨
    ∃ software, ∀ c : ExpModCall, c.onSoftware n = software → (c.Reaches n → c.Sound n) →
      c.Right n helper

/-- What is asked of a call: a right result, or a valid helper after a failure. -/
def ExpModCall.Good (n : Mpi) (helper : Helper) (c : ExpModCall) (after : Helper) : Prop :=
  c.Right n helper ∧ ((∃ err, (c.result n helper).1 = .error err) → after.Valid n)

/-- A call that gets as far as the helper finds none or its own path's constant there. -/
def ExpModCall.Safe (n : Mpi) (helper : Helper) (c : ExpModCall) (_ : Helper) : Prop :=
  c.Reaches n → helper.IsFor (c.constant n) ∧ c.Sound n

/-! ## What one call does -/

variable {n : Mpi} {helper after : Helper} {c : ExpModCall}

/-- The operands of a call that the accelerator has registers for. -/
theorem ExpModCall.sizes (hhw : c.onSoftware n = false) (hwords : regWords (c.regSize n) ≠ 0) :
    max (mpiWords c.a) (max (mpiWords c.e) (mpiWords n)) ≤ 128 ∧
      Sizes (c.regSize n) (mpiWordsToRegSize (mpiWords n)) (mpiWordsToRegSize (mpiWords c.e))
        (mpiWordsToRegSize (regWords (c.regSize n) * 2)) := by
  have hle : max (mpiWords c.a) (max (mpiWords c.e) (mpiWords n)) ≤ 128 := by
    by_contra hlarge
    refine hwords ?_
    unfold ExpModCall.regSize
    rw [mpiWordsToRegSize_large (by omega)]
    rfl
  have hsmall : c.regSize n ≤ regSize256 := by
    have hnot := of_decide_eq_false hhw
    omega
  refine ⟨hle, regWords_mono (by omega) hle, ?_, regWords_pos (by omega)⟩
  rcases regWords_double hsmall with hdouble | hzero
  · exact hdouble
  · exact absurd hzero hwords

/-- A call on the accelerator. -/
theorem hard_cases (h : Modulus n) (hhw : c.onSoftware n = false)
    (hwhole : c.Reaches n → c.heap.stopped = none) :
    ((c.result n helper).2 = helper ∨
      helper = .unused ∧ (c.result n helper).2 = .holds (hardConstant n)) ∧
    ∀ x, (c.result n helper).1 = .ok x → (c.e.val = 0 ∧ x = 1) ∨ c.Reaches n ∧
      (helper.IsFor (hardConstant n) →
        ¬ (c.xIsA = true ∧ c.a.val < 0 ∧ c.e.val.natAbs % 2 = 1) →
        x = compensated n.val c.a.val c.e.val.natAbs) := by
  have hbig := h.big
  have hodd := h.limb_odd
  have hsmall : ¬ regSize256 < c.regSize n := of_decide_eq_false hhw
  unfold ExpModCall.result blMpiExpModWoLock
  dsimp only
  change ¬ regSize256 < mpiWordsToRegSize (max (mpiWords c.a) (max (mpiWords c.e) (mpiWords n)))
    at hsmall
  rw [if_neg hsmall, if_neg (by omega)]
  split
  · exact ⟨.inl rfl, fun x hx => by cases hx⟩
  rename_i hneg
  split
  · rename_i hzero
    split
    · exact ⟨.inl rfl, fun x hx => .inl ⟨hzero, (Except.ok.inj hx).symm⟩⟩
    · exact ⟨.inl rfl, fun x hx => by cases hx⟩
  rename_i hzero
  split
  · exact ⟨.inl rfl, fun x hx => by cases hx⟩
  rename_i hgrow
  rw [mpiRegSizeToWords_eq, mpiRegSizeToWords_eq]
  split
  · exact ⟨.inl rfl, fun x hx => by cases hx⟩
  rename_i hbuffer
  rw [not_or] at hbuffer
  have hreach : c.Reaches n := by
    unfold ExpModCall.Reaches
    rw [hhw]
    exact ⟨by omega, Bool.not_eq_false _ ▸ hgrow, Bool.not_eq_false _ ▸ hbuffer.1, hbuffer.2⟩
  obtain ⟨hle, hsizes⟩ := c.sizes hhw hbuffer.2
  have hwordsN : regWords (mpiWordsToRegSize (mpiWords n)) ≠ 0 := (regWords_pos (by omega)).ne'
  have hworkable := h.workable (by omega)
  cases hprime : primeHelper c.heap n (regWords (mpiWordsToRegSize (mpiWords n))) helper with
  | mk res kept =>
    obtain ⟨hafter, hconst⟩ := primeHelper_cases h hwordsN (hwhole hreach) hprime
    cases res with
    | error err => exact ⟨hafter, fun x hx => by cases hx⟩
    | ok prime =>
      dsimp only
      split
      · exact ⟨hafter, fun x hx => by cases hx⟩
      split
      · exact ⟨hafter, fun x hx => by cases hx⟩
      have hvalue : helper.IsFor (hardConstant n) →
          expOnPka c.ram (c.regSize n) (mpiWordsToRegSize (mpiWords n))
            (mpiWordsToRegSize (mpiWords c.e)) (mpiWordsToRegSize (regWords (c.regSize n) * 2))
            c.e.bitlen n.val.natAbs c.a.val.natAbs (prime.getD 0) c.e.val.natAbs =
          c.a.val.natAbs ^ c.e.val.natAbs % n.val.natAbs := by
        intro hfor
        rw [hconst hfor prime rfl]
        exact expOnPka_eq hsizes hworkable (by omega) (natAbs_lt_regRadix (le_refl _) (by omega))
          (natAbs_lt_regRadix (by omega) hle) (by omega) (lt_two_pow_bitlen c.e)
          (natAbs_lt_regRadix (le_refl _) (by omega))
      unfold ExpModCall.regSize at hvalue
      unfold compensated
      split
      · rename_i hcomp
        split
        · refine ⟨hafter, fun x hx => .inr ⟨hreach, fun hfor hsign => ?_⟩⟩
          rw [if_pos ⟨hcomp.1.1, Mpi.limb_zero_odd.mp hcomp.2⟩, ← hvalue hfor]
          exact (Except.ok.inj hx).symm
        · exact ⟨hafter, fun x hx => by cases hx⟩
      · rename_i hplain
        refine ⟨hafter, fun x hx => .inr ⟨hreach, fun hfor hsign => ?_⟩⟩
        rw [if_neg ?_, ← hvalue hfor]
        · exact (Except.ok.inj hx).symm
        · intro hcomp
          refine hplain ⟨⟨hcomp.1, ?_⟩, Mpi.limb_zero_odd.mpr hcomp.2⟩
          exact Bool.eq_false_iff.mpr fun hsame => hsign ⟨hsame, hcomp.1, hcomp.2⟩

/-- A call on the software. -/
theorem soft_cases (h : Modulus n) (hsw : c.onSoftware n = true) :
    ((c.result n helper).2 = helper ∨
      helper = .unused ∧ (c.result n helper).2 = .holds (softConstant n)) ∧
    ∀ x, (c.result n helper).1 = .ok x → c.Reaches n ∧
      (c.soft.stale = none → helper.IsFor (softConstant n) →
        x = compensated n.val c.a.val c.e.val.natAbs) := by
  have hlarge : regSize256 < c.regSize n := of_decide_eq_true hsw
  have hresult : c.result n helper = mbedtlsMpiExpModOriginal c.soft c.a c.e n helper := by
    unfold ExpModCall.result blMpiExpModWoLock
    exact if_pos hlarge
  rw [hresult]
  obtain ⟨hafter, hright⟩ := @mbedtlsMpiExpModOriginal_cases c.soft c.a c.e n helper h
  refine ⟨hafter, fun x hx => ⟨?_, (hright x hx).2⟩⟩
  unfold ExpModCall.Reaches
  rw [hsw]
  exact (hright x hx).1

theorem right_of_compensated {x : Int} (h : Modulus n) (he : 0 ≤ c.e.val)
    (hmultiple : ¬ c.NegativeMultiple n) (hx : x = compensated n.val c.a.val c.e.val.natAbs) :
    x = c.a.val ^ c.e.val.toNat % n.val ∧ 0 ≤ x ∧ x < n.val := by
  have hbig := h.big
  have hexp : c.e.val.toNat = c.e.val.natAbs := by omega
  have hval : x = c.a.val ^ c.e.val.toNat % n.val := by
    rw [hx, hexp]
    exact compensated_eq (by omega) hmultiple
  refine ⟨hval, ?_, ?_⟩
  · rw [hval]
    exact Int.emod_nonneg _ (by omega)
  · rw [hval]
    exact Int.emod_lt_of_pos _ (by omega)

theorem ExpModCall.Reaches.nonneg (h : c.Reaches n) : 0 ≤ c.e.val := by
  unfold ExpModCall.Reaches at h
  split at h
  · exact h.1
  · exact h.1.le

/-- A sound call that finds no helper, or its path's constant, comes out right. -/
theorem right_of_isFor (h : Modulus n) (hsound : c.Reaches n → c.Sound n)
    (hfor : c.Reaches n → helper.IsFor (c.constant n)) : c.Right n helper := by
  have hbig := h.big
  intro x hx
  cases hside : c.onSoftware n with
  | true =>
    obtain ⟨hreach, hvalue⟩ := (soft_cases h hside).2 x hx
    have hconst : c.constant n = softConstant n := by rw [ExpModCall.constant, hside, if_pos rfl]
    have hright := hfor hreach
    rw [hconst] at hright
    exact right_of_compensated h hreach.nonneg (hsound hreach).multiple
      (hvalue ((hsound hreach).stored hside) hright)
  | false =>
    have hconst : c.constant n = hardConstant n := by
      rw [ExpModCall.constant, hside, if_neg (by decide)]
    rcases (hard_cases h hside fun hreach => (hsound hreach).whole hside).2 x hx with
      ⟨hzero, rfl⟩ | ⟨hreach, hvalue⟩
    · have hexp : c.e.val.toNat = 0 := by omega
      rw [hexp, pow_zero, Int.emod_eq_of_lt (by omega) hbig]
      exact ⟨rfl, by omega, hbig⟩
    · have hright := hfor hreach
      rw [hconst] at hright
      exact right_of_compensated h hreach.nonneg (hsound hreach).multiple
        (hvalue hright ((hsound hreach).sign hside))

/-- A sound call leaves the helper as it is or puts its path's constant there. -/
theorem helper_after (h : Modulus n) (hsound : c.Reaches n → c.Sound n) :
    (c.result n helper).2 = helper ∨
      helper = .unused ∧ (c.result n helper).2 = .holds (c.constant n) := by
  cases hside : c.onSoftware n with
  | true =>
    rw [ExpModCall.constant, hside, if_pos rfl]
    exact (soft_cases h hside).1
  | false =>
    rw [ExpModCall.constant, hside, if_neg (by decide)]
    exact (hard_cases h hside fun hreach => (hsound hreach).whole hside).1

/-- The helper is empty or holds the constant of one of the two paths. -/
def Helper.Kept (n : Mpi) (helper : Helper) : Prop :=
  helper.IsFor (softConstant n) ∨ helper.IsFor (hardConstant n)

theorem Helper.isFor_holds (v : Nat) : Helper.IsFor v (.holds v) := by
  intro w hw
  exact (Helper.holds.inj hw).symm

theorem Helper.Kept.valid (h : Modulus n) (hkept : helper.Kept n) : helper.Valid n := by
  refine .inr (.inr ?_)
  rcases hkept with hsoft | hhard
  · refine ⟨true, fun c hside hsound => right_of_isFor h hsound fun _ => ?_⟩
    rwa [ExpModCall.constant, hside, if_pos rfl]
  · refine ⟨false, fun c hside hsound => right_of_isFor h hsound fun _ => ?_⟩
    rwa [ExpModCall.constant, hside, if_neg (by decide)]

theorem kept_after (h : Modulus n) (hsound : c.Reaches n → c.Sound n) (hkept : helper.Kept n) :
    Helper.Kept n (c.result n helper).2 := by
  rcases helper_after h hsound with hsame | ⟨-, hnew⟩
  · rwa [hsame]
  · rw [hnew, ExpModCall.constant]
    split
    · exact .inl (Helper.isFor_holds _)
    · exact .inr (Helper.isFor_holds _)

theorem exp_mod_step (h : Modulus n) (hkept : helper.Kept n)
    (hstep : expModStep n helper c = some after) (hsafe : c.Safe n helper after) :
    c.Good n helper after ∧ after.Kept n := by
  have hafter : (c.result n helper).2 = after := Option.some.inj hstep
  have hsound : c.Reaches n → c.Sound n := fun hreach => (hsafe hreach).2
  have hkept' := kept_after h hsound hkept
  rw [hafter] at hkept'
  exact ⟨⟨right_of_isFor h hsound fun hreach => (hsafe hreach).1, fun _ => hkept'.valid h⟩, hkept'⟩

/-- Runs of calls with one odd modulus and one helper, empty at first. As long as each call
that gets as far as the helper finds none or the constant of its own path there, is not
asked for an odd power of a negative number that is a multiple of the modulus, has its
result elsewhere than its negative base if it goes to the accelerator with an odd exponent,
and finds memory for the accelerator's constant and for the copy of the software's result:
every call that returns 0 yields the power, and a call that fails leaves a helper that is
empty or right for the later calls on its path. -/
theorem shared_helper {calls : List ExpModCall} (h : Modulus n) (hempty : helper ∈ [.null, .unused])
    (hsafe : Along (expModStep n) (ExpModCall.Safe n) helper calls) :
    Along (expModStep n) (ExpModCall.Good n) helper calls := by
  refine along_of_invariant (fun _ _ _ (hkept : Helper.Kept n _) hstep hsafe =>
    exp_mod_step h hkept hstep hsafe) (.inl fun v hv => ?_) hsafe
  subst hv
  simp at hempty

/-! ## The two paths in turn -/

/-- Memory is found throughout. -/
def plentyHard : HardHeap where
  lset := true
  grow := true
  buffer := true
  stopped := none
  copy := true
  readBack := true
  compensate := true

def plentySoft : SoftHeap where
  temporaries := true
  constant := true
  rest := true
  stale := none

def expModCall (a e : Mpi) : ExpModCall where
  a := a
  e := e
  xIsA := false
  heap := plentyHard
  soft := plentySoft
  ram := fun _ => 0

def mpiOne : Mpi := ⟨1, 1, by decide⟩
def mpiTwo : Mpi := ⟨2, 1, by decide⟩
def mpiFive : Mpi := ⟨5, 1, by decide⟩

/-- A number of 2049 bits. -/
def mpiWide : Mpi := ⟨2 ^ 2048, 65, by decide +kernel⟩

theorem mpiFive_modulus : Modulus mpiFive := ⟨by decide, by decide⟩

/-- After a small call modulo 5 the large one finds the accelerator's constant and returns 4
for the first power of a number that is 1 modulo 5. -/
theorem wide_after_small :
    Modulus mpiFive ∧ ¬ Along (expModStep mpiFive) (ExpModCall.Good mpiFive) .unused
      [expModCall mpiTwo mpiOne, expModCall mpiWide mpiOne] := by
  refine ⟨mpiFive_modulus, fun h => ?_⟩
  have hfirst : expModStep mpiFive .unused (expModCall mpiTwo mpiOne) =
      some (.holds 0x3333333333333333) := by decide +kernel
  have hright := ((h _ hfirst).2 _ rfl).1.1
  have hfour : ((expModCall mpiWide mpiOne).result mpiFive (.holds 0x3333333333333333)).1.toOption =
      some 4 := by decide +kernel
  cases hresult : ((expModCall mpiWide mpiOne).result mpiFive (.holds 0x3333333333333333)).1 with
  | error err =>
    rw [hresult] at hfour
    cases hfour
  | ok x =>
    rw [hresult] at hfour
    obtain rfl : x = 4 := Option.some.inj hfour
    have hvalue : (4 : Int) ≠ (expModCall mpiWide mpiOne).a.val ^
        (expModCall mpiWide mpiOne).e.val.toNat % mpiFive.val := by decide +kernel
    exact hvalue (hright 4 hresult).1

/-- Two small calls modulo 5. -/
theorem shared_helper_small :
    Along (expModStep mpiFive) (ExpModCall.Good mpiFive) .unused
      [expModCall mpiTwo mpiOne, expModCall mpiTwo mpiOne] := by
  have hhard : (expModCall mpiTwo mpiOne).onSoftware mpiFive = false := by decide +kernel
  have hsound : (expModCall mpiTwo mpiOne).Sound mpiFive :=
    ⟨fun hmultiple => absurd hmultiple.1 (by decide), fun _ hsign => absurd hsign.1 (by decide),
      fun _ => rfl, fun hsoft => absurd hsoft (by rw [hhard]; decide)⟩
  have hconst : (expModCall mpiTwo mpiOne).constant mpiFive = 0x3333333333333333 := by decide +kernel
  refine shared_helper mpiFive_modulus (by simp) ?_
  intro t ht
  refine ⟨fun _ => ⟨(fun v hv => by cases hv), hsound⟩, ?_⟩
  have hfirst : expModStep mpiFive .unused (expModCall mpiTwo mpiOne) =
      some (.holds 0x3333333333333333) := by decide +kernel
  rw [hfirst] at ht
  obtain rfl := Option.some.inj ht
  intro u hu
  refine ⟨fun _ => ⟨?_, hsound⟩, along_nil⟩
  rw [hconst]
  exact Helper.isFor_holds _

end BouffaloSdk.Bignum
