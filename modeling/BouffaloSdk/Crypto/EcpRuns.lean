import BouffaloSdk.Crypto.EcpMultiples
import BouffaloSdk.Kit.Runs
import Mathlib.GroupTheory.OrderOfElement

/-!
# Calls on one group

Each call with a scalar below the order yields the multiple of its point, whether it makes
`PrimeN` and the generator's table or finds them.
-/

namespace BouffaloSdk.Ecp
open Kit Kit.Montgomery Kit.ShortWeierstrass Kit.Runs Pka Bignum

section
variable {p n : Nat} [Fact p.Prime] {grp : Group} {b : ZMod p} {caches after : Caches}

/-- A call with a point of order `n` and a scalar below `n`. -/
structure MulCall (grp : Group) (b : ZMod p) (n : Nat) where
  heap : EcpHeap
  ram : Ram
  m : Mpi
  pt : EcpPoint
  q : (curve (coefficient p grp.a) b).toAffine.Point
  named : pt.Names q
  order : addOrderOf q = n
  positive : 0 < m.val
  below : m.val < n

def MulCall.start (c : MulCall grp b n) (caches : Caches) : Except Int MulStart × Caches :=
  ecpMulStart c.heap grp c.ram caches c.m c.pt

def MulCall.result (c : MulCall grp b n) (caches : Caches) : Except Int (Nat × Nat) × Caches :=
  ecpMulSwst c.heap grp c.ram caches c.m c.pt

def mulStep (caches : Caches) (c : MulCall grp b n) : Option Caches := some (c.result caches).2

/-- The coordinates of `q`, reduced. -/
def Affine (q : (curve (coefficient p grp.a) b).toAffine.Point) (r : Nat × Nat) : Prop :=
  r.1 < p ∧ r.2 < p ∧ HasCoords q (r.1 : ZMod p) (r.2 : ZMod p)

/-- What is asked of a call. -/
structure MulCall.Good (caches : Caches) (c : MulCall grp b n) (_ : Caches) : Prop where
  multiple : ∀ r, (c.result caches).1 = .ok r → Affine (c.m.val • c.q) r
  /-- The table holds the odd multiples, and after each digit the registers hold the multiple
  of the digits so far. -/
  steps : ∀ st, (c.start caches).1 = .ok st → OddTable st.s st.t c.q ∧
    ∀ k, k ≤ st.encodingLen →
      Reached st.s (st.digits grp.a k).2 (st.digits grp.a k).1 c.q
        (highValue st.encoding k (st.encodingLen - k))
  same : ∀ c' : MulCall grp b n, c'.m.val = c.m.val → c'.q = c.q → c'.heap.stopped = none →
    ∀ r r', (c.result caches).1 = .ok r → (c'.result ⟨none, none⟩).1 = .ok r' → r = r'

/-- `PrimeN` is there, or its computation finds memory throughout. -/
def MulCall.Safe (caches : Caches) (c : MulCall grp b n) (_ : Caches) : Prop :=
  caches.primeN = none → c.heap.initBuf = true → c.heap.primeBuf = true → c.heap.stopped = none

/-! ## One call -/

/-- What the group keeps is right. -/
structure Caches.Right (grp : Group) (b : ZMod p) (caches : Caches) : Prop where
  primed : caches.Primed grp
  table : ∀ t, caches.table = some t → ∀ q : (curve (coefficient p grp.a) b).toAffine.Point,
    HasCoords q (grp.gx : ZMod p) (grp.gy : ZMod p) → OddTable grp.regSize t q

variable {c : MulCall grp b n}

theorem MulCall.smul_ne_zero (c : MulCall grp b n) {v : Int} (hpos : 0 < v) (hlt : v < n) :
    v • c.q ≠ 0 := by
  rw [ne_eq, ← addOrderOf_dvd_iff_zsmul_eq_zero, c.order]
  intro hdvd
  exact absurd (Int.le_of_dvd hpos hdvd) (by omega)

theorem MulCall.double_ne_zero (c : MulCall grp b n) (hprime : n.Prime) (hlarge : 15 < n) {v : Int}
    (hpos : 0 < v) (hlt : v < n) : (2 * v) • c.q ≠ 0 := by
  rw [ne_eq, ← addOrderOf_dvd_iff_zsmul_eq_zero, c.order]
  intro hdvd
  rcases (Nat.prime_iff_prime_int.mp hprime).dvd_or_dvd hdvd with htwo | hv
  · exact absurd (Int.le_of_dvd (by decide) htwo) (by omega)
  · exact absurd (Int.le_of_dvd hpos hv) (by omega)

theorem MulCall.words_pos (c : MulCall grp b n) : 0 < mpiWords c.m := by
  have hpos := c.positive
  have hlt := lt_two_pow_mpiWords c.m
  apply Nat.pos_of_ne_zero
  intro hzero
  rw [hzero, Nat.mul_zero, pow_zero] at hlt
  omega

/-- The digits of a call's scalar. -/
theorem MulCall.encoding (c : MulCall grp b n) :
    ∃ st : Encoding, mpiScalarEncode c.m.limb (mpiWords c.m) 5 = some (st.output, st.outputLen) ∧
      st.Trimmed ∧ st.valueFrom 0 = c.m.val ∧ (∀ k, 0 ≤ st.valueFrom k) ∧
      (∀ i, Digit 5 (st.output i)) := by
  have hpos := c.positive
  obtain ⟨st, hencode, htrim, hvalue, hnonneg, hdigit, -⟩ := mpiScalarEncode_spec (w := 5)
    (lt_two_pow_mpiWords c.m) c.words_pos (by omega) (by omega)
  have hlen : st.outputLen ≠ 0 := by
    intro hzero
    have hend := Encoding.valueFrom_end (show st.outputLen ≤ 0 by omega)
    omega
  have hmax : max st.outputLen 1 = st.outputLen := by omega
  rw [hmax] at hencode
  exact ⟨st, hencode, htrim, by omega, hnonneg, hdigit⟩

theorem Caches.Right.tableOf (h : caches.Right grp b) (hg : ∀ t, caches.tableOf grp c.pt = some t →
    pEqG grp c.pt = true ∧ caches.table = some t) :
    ∀ t, caches.tableOf grp c.pt = some t → OddTable grp.regSize t c.q := by
  intro t ht
  obtain ⟨heq, htable⟩ := hg t ht
  obtain ⟨hy, hx⟩ := of_decide_eq_true heq
  refine h.table t htable c.q ?_
  rw [← hy, ← hx]
  exact c.named.coords

theorem tableOf_eq {t : Table} {pt : EcpPoint} (h : caches.tableOf grp pt = some t) :
    pEqG grp pt = true ∧ caches.table = some t := by
  unfold Caches.tableOf at h
  split at h
  · rename_i heq
    exact ⟨heq, h⟩
  · cases h

/-- A call on a group that is right finds what the loop needs, and leaves the group right. -/
theorem start_right (h : Supported p grp) (hlarge : 15 < n) (hright : caches.Right grp b)
    (hsafe : c.Safe caches after) {res : Except Int MulStart × Caches} (hres : c.start caches = res) :
    res.2.Right grp b ∧ ∀ st, res.1 = .ok st → st.s = grp.regSize ∧ grp.regSize ≠ 0 ∧
      Prepared st.s p grp.constant (grp.a.getD 0 : Nat) st.ram ∧ OddTable st.s st.t c.q ∧
      mpiScalarEncode c.m.limb (mpiWords c.m) 5 = some (st.encoding, st.encodingLen) := by
  subst hres
  unfold MulCall.start ecpMulStart
  cases hinit : ecpInitSwst c.heap grp c.ram caches with
  | mk first kept =>
    obtain ⟨hprimed, htable, hready⟩ := ecpInit_prepared h hright.primed hsafe hinit
    have hkept : kept.Right grp b := ⟨hprimed, fun t ht => hright.table t (htable.symm.trans ht)⟩
    cases first with
    | error ret => exact ⟨hkept, fun st hst => by cases hst⟩
    | ok ready =>
      obtain ⟨hs, hsize, hprep⟩ := hready ready.1 ready.2 rfl
      dsimp only
      split
      · exact ⟨hkept, fun st hst => by cases hst⟩
      obtain ⟨enc, hencode, -⟩ := c.encoding
      rw [hencode]
      dsimp only
      have hne : ∀ v : Nat, 0 < v → v < 16 → v • c.q ≠ 0 := by
        intro v hpos hlt
        rw [← natCast_zsmul]
        exact c.smul_ne_zero (by omega) (by omega)
      rw [hs] at hprep ⊢
      cases htab : ecpTable c.heap grp grp.regSize ready.2 kept c.pt with
      | mk res last =>
        obtain ⟨hprime, hnew, hodd⟩ := ecpTable_odd h (h.fits hsize) hprep c.named hne
          (hkept.tableOf fun t ht => tableOf_eq ht) htab
        have hlast : last.Right grp b := by
          refine ⟨fun prime hp => hprimed prime (hprime.symm.trans hp), fun t ht q hq => ?_⟩
          rcases hnew with hsame | ⟨heq, t', ht', hodd'⟩
          · exact hkept.table t (hsame.symm.trans ht) q hq
          · obtain ⟨hy, hx⟩ := of_decide_eq_true heq
            rw [← hy, ← hx] at hq
            obtain rfl := hq.congr c.named.coords
            obtain rfl := Option.some.inj (ht'.symm.trans ht)
            exact hodd'
        cases res with
        | error ret => exact ⟨hlast, fun st hst => by cases hst⟩
        | ok r =>
          refine ⟨hlast, fun st hst => ?_⟩
          obtain rfl := Except.ok.inj hst
          obtain ⟨hkeep, htodd⟩ := hodd r rfl
          exact ⟨rfl, hsize, hprep.kept hkeep, htodd, rfl⟩

theorem words_pos (h : Supported p grp) (hsize : grp.regSize ≠ 0) : 0 < regWords grp.regSize := by
  have hlarge := h.large
  have hroom := (h.fits hsize).room
  apply Nat.pos_of_ne_zero
  intro hzero
  rw [regRadix, hzero, pow_zero] at hroom
  omega

/-- After each digit the registers hold the multiple that the digits so far say, and after
the last one the multiple of the scalar. -/
theorem digits_reached {st : MulStart} (h : Supported p grp) (hprime : n.Prime) (hlarge : 15 < n)
    (hsize : grp.regSize ≠ 0) (hs : st.s = grp.regSize)
    (hram : Prepared st.s p grp.constant (grp.a.getD 0 : Nat) st.ram) (htable : OddTable st.s st.t c.q)
    (hencode : mpiScalarEncode c.m.limb (mpiWords c.m) 5 = some (st.encoding, st.encodingLen)) :
    (∀ k, k ≤ st.encodingLen → Reached st.s (st.digits grp.a k).2 (st.digits grp.a k).1 c.q
      (highValue st.encoding k (st.encodingLen - k))) ∧
      highValue st.encoding st.encodingLen 0 = c.m.val := by
  obtain ⟨enc, hsame, htrim, hvalue, hnonneg, hdigit⟩ := c.encoding
  obtain ⟨houtput, hlen⟩ := Prod.mk.inj (Option.some.inj (hsame.symm.trans hencode))
  have hbelow := c.below
  have hlt := htrim.valueFrom_lt hdigit (show 15 < (n : Int) by omega) (by omega)
  have hwords := words_pos h hsize
  have hfits := h.fits hsize
  rw [← hs] at hwords hfits
  constructor
  · intro k hk
    have hreached := mulDigits_reached h hfits hwords hram htable htrim hdigit hnonneg
      (fun i hpos => ⟨c.smul_ne_zero hpos (hlt i), c.double_ne_zero hprime hlarge hpos (hlt i)⟩)
      (show enc.outputLen ≤ st.encodingLen by omega) hk
    have hcount : enc.outputLen - (st.encodingLen - k) = k := by omega
    rw [Encoding.valueFrom, hcount, houtput] at hreached
    exact hreached
  · rw [Encoding.valueFrom, houtput, hlen, Nat.sub_zero] at hvalue
    exact hvalue

/-- The result is read from the registers that hold the multiple. -/
theorem result_affine {s prime : Nat} {ram : Ram} {a : ZMod p}
    {q : (curve (coefficient p grp.a) b).toAffine.Point} (hfits : Field.Fits p s prime)
    (hram : Prepared s p prime a ram) (hq : Carries s ram 17 q) :
    Affine q (pkaRead (runOps s (ecpNormalizeSwst 17 17 ++ [.mmul 17 17 3, .mmul 18 18 3]) ram) ⟨s, 17⟩,
      pkaRead (runOps s (ecpNormalizeSwst 17 17 ++ [.mmul 17 17 3, .mmul 18 18 3]) ram) ⟨s, 18⟩) := by
  have hkept : Kept s ram (runOps s (ecpNormalizeSwst 17 17) ram) := runOps_kept (normalize_dest (by omega))
  obtain ⟨x, y, hcoords, hholds⟩ := normalize_carries hfits hram.loaded (by omega) (show 16 ≤ 17 by omega)
    (by omega) hq
  have hready := hram.kept hkept
  rw [runOps_append]
  generalize runOps s (ecpNormalizeSwst 17 17) ram = normal at *
  have hone := hready.holds_one hfits
  have hlive : ∀ j, j ∈ [3, 17, 18] → ∃ u : ZMod p, Holds s normal j u := by
    simp only [List.mem_cons, List.not_mem_nil, or_false]
    rintro j (rfl | rfl | rfl)
    · exact ⟨_, hone⟩
    · exact ⟨_, hholds.x⟩
    · exact ⟨_, hholds.y⟩
  have hok : OpsOk p [3, 17, 18] [.mmul 17 17 3, .mmul 18 18 3] := by
    simp [OpsOk, PkaOp.Ok, PkaOp.reads, PkaOp.dest]
  have hval := hholds.y.element_eq hfits
  have hx : Holds s (runOps s [.mmul 17 17 3, .mmul 18 18 3] normal) 17 (x * (radix p s)⁻¹) := by
    refine runOps_element hfits hready.loaded hlive hok (.inr (by simp [PkaOp.dest])) ?_
    simp [evalOps_cons, evalOps_nil, PkaOp.dest, PkaOp.value, hholds.x.element_eq hfits,
      hone.element_eq hfits]
  have hy : Holds s (runOps s [.mmul 17 17 3, .mmul 18 18 3] normal) 18 (y * (radix p s)⁻¹) := by
    refine runOps_element hfits hready.loaded hlive hok (.inr (by simp [PkaOp.dest])) ?_
    simp [evalOps_cons, evalOps_nil, PkaOp.dest, PkaOp.value, hval, hone.element_eq hfits]
  have hback : ∀ u : ZMod p, u * (radix p s)⁻¹ * radix p s = u := by
    intro u
    rw [mul_assoc, inv_mul_cancel₀ hfits.radix_ne_zero, mul_one]
  refine ⟨hx.1, hy.1, ?_⟩
  rw [hx.2, hy.2, hback, hback]
  exact hcoords

theorem Affine.unique {q : (curve (coefficient p grp.a) b).toAffine.Point} {r r' : Nat × Nat}
    (h : Affine q r) (h' : Affine q r') : r = r' := by
  obtain ⟨hx, hy⟩ := h.2.2.unique h'.2.2
  have hcast : ∀ {u v : Nat}, u < p → v < p → (u : ZMod p) = v → u = v := by
    intro u v hu hv heq
    have hval := congrArg ZMod.val heq
    rwa [ZMod.val_natCast, ZMod.val_natCast, Nat.mod_eq_of_lt hu, Nat.mod_eq_of_lt hv] at hval
  exact Prod.ext (hcast h.1 h'.1 hx) (hcast h.2.1 h'.2.1 hy)

/-- One call: the multiple, and a group that is still right. -/
theorem result_right (h : Supported p grp) (hprime : n.Prime) (hlarge : 15 < n)
    (hright : caches.Right grp b) (hsafe : c.Safe caches after) :
    (c.result caches).2.Right grp b ∧
      ∀ r, (c.result caches).1 = .ok r → Affine (c.m.val • c.q) r := by
  unfold MulCall.result ecpMulSwst
  cases hstart : c.start caches with
  | mk res kept =>
    obtain ⟨hkept, hst⟩ := start_right h hlarge hright hsafe hstart
    unfold MulCall.start at hstart
    rw [hstart]
    cases res with
    | error ret => exact ⟨hkept, fun r hr => by cases hr⟩
    | ok st =>
      dsimp only
      split
      · exact ⟨hkept, fun r hr => by cases hr⟩
      obtain ⟨hs, hsize, hprep, htable, hencode⟩ := hst st rfl
      obtain ⟨hall, hvalue⟩ := digits_reached h hprime hlarge hsize hs hprep htable hencode
      have hreached := hall st.encodingLen (le_refl _)
      rw [Nat.sub_self, hvalue] at hreached
      have hpos := c.positive
      have hwords := words_pos h hsize
      have hfits := h.fits hsize
      rw [← hs] at hwords hfits
      have hdone : (st.digits grp.a st.encodingLen).1 = false := by
        by_contra hzero
        have hval := hreached.1 (Bool.not_eq_false _ ▸ hzero)
        omega
      have hdigits : Kept st.s st.ram (st.digits grp.a st.encodingLen).2 := mulDigits_kept hwords
      have hready := hprep.kept hdigits
      refine ⟨hkept, fun r hr => ?_⟩
      obtain rfl := Except.ok.inj hr
      exact result_affine hfits hready (hreached.2 hdone).2

/-- A fresh group with memory for its `PrimeN`. -/
theorem fresh_right : Caches.Right grp b ⟨none, none⟩ :=
  ⟨fun prime hprime => (by cases hprime), fun t ht => (by cases ht)⟩

theorem mul_step (h : Supported p grp) (hprime : n.Prime) (hlarge : 15 < n)
    (hright : caches.Right grp b) (hstep : mulStep caches c = some after)
    (hsafe : c.Safe caches after) : c.Good caches after ∧ after.Right grp b := by
  obtain rfl := Option.some.inj hstep
  obtain ⟨hkept, hmultiple⟩ := result_right h hprime hlarge hright hsafe
  refine ⟨⟨hmultiple, fun st hst => ?_, fun c' hm hq hwhole r r' hr hr' => ?_⟩, hkept⟩
  · obtain ⟨hs, hsize, hprep, htable, hencode⟩ := (start_right h hlarge hright hsafe rfl).2 st hst
    exact ⟨htable, (digits_reached h hprime hlarge hsize hs hprep htable hencode).1⟩
  · have hsafe' : c'.Safe ⟨none, none⟩ ⟨none, none⟩ := fun _ _ _ => hwhole
    have hfresh := (result_right h hprime hlarge fresh_right hsafe').2 r' hr'
    rw [hm, hq] at hfresh
    exact (hmultiple r hr).unique hfresh

/-- Runs of calls on one group, in a subgroup of prime order above 15 and over a prime field
above 8. As long as a call that computes `PrimeN` finds memory throughout, every call that
succeeds yields the multiple of its point, with a table of odd multiples and the right
multiple after each digit, and the same result as on a group that keeps nothing. -/
theorem multiples_along {calls : List (MulCall grp b n)} (h : Supported p grp) (hprime : n.Prime)
    (hlarge : 15 < n)
    (hsafe : Along mulStep (fun caches c after => MulCall.Safe caches c after) ⟨none, none⟩ calls) :
    Along mulStep (fun caches c after => MulCall.Good caches c after) ⟨none, none⟩ calls :=
  along_of_invariant (fun _ _ _ (hright : Caches.Right grp b _) hstep hsafe =>
    mul_step h hprime hlarge hright hstep hsafe) fresh_right hsafe

end

/-! ## A small curve

`y² = x³ - 3 x + 1` modulo 11 has 17 points. -/

instance fact_prime_eleven : Fact (Nat.Prime 11) := ⟨by decide⟩

def smallGroup : Group where
  p := ⟨11, 1, by decide⟩
  a := none
  gx := 0
  gy := 1
  pbits := 4

theorem smallGroup_supported : Supported 11 smallGroup := ⟨rfl, by decide, by decide, by decide⟩

theorem small_nonsingular :
    (curve (coefficient 11 smallGroup.a) (1 : ZMod 11)).toAffine.Nonsingular 0 1 := by
  rw [WeierstrassCurve.Affine.nonsingular_iff, WeierstrassCurve.Affine.equation_iff]
  decide

/-- The generator. -/
def smallPoint : (curve (coefficient 11 smallGroup.a) (1 : ZMod 11)).toAffine.Point :=
  .some 0 1 small_nonsingular

theorem smallPoint_coords : HasCoords smallPoint 0 1 := ⟨small_nonsingular, rfl⟩

theorem smallPoint_order : addOrderOf smallPoint = 17 := by
  have htwo : (2 : ZMod 11) ≠ 0 := by decide
  have h2 : HasCoords (smallPoint + smallPoint) 5 1 :=
    smallPoint_coords.double 5 1 htwo (by decide) (by decide) (by decide)
  have h4 := h2.double 10 6 htwo (by decide) (by decide) (by decide)
  have h8 := h4.double 2 5 htwo (by decide) (by decide) (by decide)
  have h16 := h8.double 0 10 htwo (by decide) (by decide) (by decide)
  have hneg : HasCoords (-smallPoint) 0 10 := smallPoint_coords.neg
  have hsum := h16.congr hneg
  have : Fact (Nat.Prime 17) := ⟨by decide⟩
  refine addOrderOf_eq_prime ?_ smallPoint_coords.ne_zero
  have hsplit : (17 : Nat) • smallPoint = smallPoint + smallPoint + (smallPoint + smallPoint) +
      (smallPoint + smallPoint + (smallPoint + smallPoint)) + (smallPoint + smallPoint +
      (smallPoint + smallPoint) + (smallPoint + smallPoint + (smallPoint + smallPoint))) + smallPoint := by
    abel
  rw [hsplit, hsum, neg_add_cancel]

/-- Memory is found throughout. -/
def plentyEcp : EcpHeap where
  initBuf := true
  primeBuf := true
  stopped := none
  tmpBuf := true
  encoding := true
  table := true
  tableZ := true
  products := true
  readX := true
  readY := true
  lset := true

theorem small_names : (⟨0, 1, 1⟩ : EcpPoint).Names smallPoint :=
  ⟨by decide, by decide, rfl, by simpa using smallPoint_coords⟩

/-- A call with the generator and the scalar 1. -/
def smallCall (heap : EcpHeap) : MulCall smallGroup (1 : ZMod 11) 17 where
  heap := heap
  ram := fun _ => 0
  m := Bignum.mpiOne
  pt := ⟨0, 1, 1⟩
  q := smallPoint
  named := small_names
  order := smallPoint_order
  positive := by decide
  below := by decide

/-- Two calls, one that builds the table and one that finds it. -/
theorem multiples_along_small :
    Along mulStep (fun caches c after => MulCall.Good caches c after) ⟨none, none⟩
      [smallCall plentyEcp, smallCall plentyEcp] := by
  refine multiples_along smallGroup_supported (by decide) (by decide) ?_
  intro t _
  refine ⟨fun _ _ _ => rfl, fun u _ => ⟨fun _ _ _ => rfl, along_nil⟩⟩

/-- No memory for `PrimeN`, and memory for all the rest. -/
def cutShort : EcpHeap := { plentyEcp with stopped := some none }

/-- The call reports success, and the multiple by 1 of `(0, 1)` is `(0, 0)`. -/
theorem prime_cut_short :
    ¬ Along mulStep (fun caches c after => MulCall.Good caches c after) ⟨none, none⟩
      [smallCall cutShort] := by
  intro h
  have hgood := (h _ rfl).1
  have hresult : ((smallCall cutShort).result ⟨none, none⟩).1.toOption = some (0, 0) := by decide +kernel
  cases hr : ((smallCall cutShort).result ⟨none, none⟩).1 with
  | error ret =>
    rw [hr] at hresult
    cases hresult
  | ok r =>
    rw [hr] at hresult
    obtain rfl : r = (0, 0) := Option.some.inj hresult
    have hcoords := (hgood.multiple _ hr).2.2
    have hone : (smallCall cutShort).m.val • (smallCall cutShort).q = smallPoint := one_smul Int smallPoint
    rw [hone] at hcoords
    exact absurd (hcoords.unique smallPoint_coords).2 (by decide)

end BouffaloSdk.Ecp
