import BouffaloSdk.Crypto.EcpTables
import BouffaloSdk.Crypto.ExpModRuns

/-!
# The group's registers and the digits of the scalar

What `ecp_init_swst` leaves in the registers, the table of a point, and the loop over the
digits: the point in register 17 is the multiple that the digits so far say.
-/

namespace BouffaloSdk.Ecp
open Kit Kit.Montgomery Kit.ShortWeierstrass Pka Bignum

section
variable {s r2s i n prime a : Nat} {ram : Ram}

theorem loadC_eq {v : Nat} (hwords : 0 < regWords s) (h : v < 2 ^ 32) :
    loadC s i v ram = pkaWrite ram ⟨s, i⟩ v :=
  WordMemory.store_low h hwords

theorem loadC_wrote {v : Nat} (hwords : 0 < regWords s) (h : v < 2 ^ 32) :
    Wrote s i v ram (loadC s i v ram) := by
  rw [loadC_eq hwords h]
  exact wrote_pkaWrite (h.trans_le (Nat.le_self_pow hwords.ne' _))

/-- The registers of the size for `R²`. -/
structure Wide (s r2s : Nat) : Prop where
  words : 0 < regWords s
  room : 2 * regWords s < regWords r2s

theorem loadModulus_loaded (hsize : Wide s r2s) (hpos : 0 < n) (hn : n < regRadix s)
    (hprime : prime < regRadix s) :
    Loaded s n prime (loadModulus s r2s n prime ram) ∧
      pkaRead (loadModulus s r2s n prime ram) ⟨s, 2⟩ = regRadix s * regRadix s % n := by
  have hwords := hsize.words
  have hroom := hsize.room
  have hfirst : Wrote s 0 n ram (pkaWrite ram ⟨s, 0⟩ n) := wrote_pkaWrite hn
  have hsecond : Wrote s 1 prime (pkaWrite ram ⟨s, 0⟩ n) (pkaWrite (pkaWrite ram ⟨s, 0⟩ n) ⟨s, 1⟩ prime) :=
    wrote_pkaWrite hprime
  have hapart : ∀ j, j < 2 → Reg.Apart ⟨s, j⟩ ⟨r2s, 2⟩ := by
    intro j hj
    refine .inl ?_
    simp only [Reg.words]
    calc j * regWords s + regWords s = (j + 1) * regWords s := by ring
      _ ≤ 2 * regWords s := Nat.mul_le_mul_right _ (by omega)
      _ ≤ 2 * regWords r2s := by omega
  unfold loadModulus pkaMrem pkaLmul2n
  dsimp only
  rw [loadC_eq (by omega) (by decide)]
  generalize pkaWrite (pkaWrite ram ⟨s, 0⟩ n) ⟨s, 1⟩ prime = start at *
  have hone : pkaRead (pkaWrite start ⟨r2s, 2⟩ 1) ⟨r2s, 2⟩ = 1 :=
    read_write (Nat.one_lt_pow (by simp only [Reg.words]; omega) (by decide))
  have hradix : 2 ^ (mpiRegSizeToWords s * 32 * 2) = regRadix s * regRadix s := by
    rw [mpiRegSizeToWords_eq, regRadix, ← pow_add, ← pow_mul]
    congr 1
    ring
  have hlt : regRadix s * regRadix s < Reg.bound ⟨r2s, 2⟩ := by
    rw [regRadix, ← pow_add]
    exact Nat.pow_lt_pow_right (by decide) (by simp only [Reg.words]; omega)
  rw [hone, one_mul, hradix]
  have hkeep : ∀ j, j < 2 → pkaRead (pkaWrite (pkaWrite start ⟨r2s, 2⟩ 1) ⟨r2s, 2⟩
      (regRadix s * regRadix s)) ⟨s, j⟩ = pkaRead start ⟨s, j⟩ :=
    fun j hj => (read_write_apart (hapart j hj)).trans (read_write_apart (hapart j hj))
  have hmod : pkaRead start ⟨s, 0⟩ = n := (hsecond.others 0 (by omega)).trans hfirst.value
  rw [read_write hlt, hkeep 0 (by omega), hmod]
  generalize pkaWrite (pkaWrite start ⟨r2s, 2⟩ 1) ⟨r2s, 2⟩ (regRadix s * regRadix s) = squared at *
  have hlast : Wrote s 2 (regRadix s * regRadix s % n) squared
      (pkaWrite squared ⟨s, 2⟩ (regRadix s * regRadix s % n)) :=
    wrote_pkaWrite ((Nat.mod_lt _ hpos).trans hn)
  refine ⟨⟨(hlast.others 0 (by omega)).trans ((hkeep 0 (by omega)).trans hmod),
    (hlast.others 1 (by omega)).trans ((hkeep 1 (by omega)).trans hsecond.value)⟩, hlast.value⟩

/-- The constants, before they are brought into Montgomery form. -/
def plainConstants (s : Nat) (ram : Ram) : Ram :=
  loadC s 7 8 (loadC s 6 4 (loadC s 5 3 (loadC s 4 2 (loadC s 3 1 ram))))

theorem plainConstants_read (hwords : 0 < regWords s) :
    (∀ i, i < 3 → pkaRead (plainConstants s ram) ⟨s, i⟩ = pkaRead ram ⟨s, i⟩) ∧
      pkaRead (plainConstants s ram) ⟨s, 3⟩ = 1 ∧ pkaRead (plainConstants s ram) ⟨s, 4⟩ = 2 ∧
      pkaRead (plainConstants s ram) ⟨s, 5⟩ = 3 ∧ pkaRead (plainConstants s ram) ⟨s, 6⟩ = 4 ∧
      pkaRead (plainConstants s ram) ⟨s, 7⟩ = 8 := by
  have h3 := @loadC_wrote s 3 ram 1 hwords (by decide)
  have h4 := @loadC_wrote s 4 (loadC s 3 1 ram) 2 hwords (by decide)
  have h5 := @loadC_wrote s 5 (loadC s 4 2 (loadC s 3 1 ram)) 3 hwords (by decide)
  have h6 := @loadC_wrote s 6 (loadC s 5 3 (loadC s 4 2 (loadC s 3 1 ram))) 4 hwords (by decide)
  have h7 := @loadC_wrote s 7 (loadC s 6 4 (loadC s 5 3 (loadC s 4 2 (loadC s 3 1 ram)))) 8 hwords
    (by decide)
  unfold plainConstants
  refine ⟨fun i hi => ?_, ?_, ?_, ?_, ?_, h7.value⟩
  · rw [h7.others i (by omega), h6.others i (by omega), h5.others i (by omega), h4.others i (by omega),
      h3.others i (by omega)]
  · rw [h7.others 3 (by omega), h6.others 3 (by omega), h5.others 3 (by omega), h4.others 3 (by omega),
      h3.value]
  · rw [h7.others 4 (by omega), h6.others 4 (by omega), h5.others 4 (by omega), h4.value]
  · rw [h7.others 5 (by omega), h6.others 5 (by omega), h5.value]
  · rw [h7.others 6 (by omega), h6.value]

/-- What is in place whatever `PrimeN` is. -/
theorem loadConstants_read (hwords : 0 < regWords s) :
    (∀ i, i < 3 → pkaRead (loadConstants s a ram) ⟨s, i⟩ = pkaRead ram ⟨s, i⟩) ∧
      pkaRead (loadConstants s a ram) ⟨s, 3⟩ = 1 := by
  obtain ⟨hlow, hone, -⟩ := @plainConstants_read s ram hwords
  constructor
  · intro i hi
    refine (runOps_read ?_).trans (hlow i hi)
    simp [PkaOp.dest]
    omega
  · exact (runOps_read (by simp [PkaOp.dest])).trans hone

end

section
variable {p s r2s prime a : Nat} [Fact p.Prime] {ram : Ram}

/-- The registers are prepared when `PrimeN` is right. -/
theorem load_prepared (hfits : Field.Fits p s prime) (hsize : Wide s r2s) (hlarge : 8 < p) (ha : a < p) :
    Prepared s p prime (a : ZMod p) (loadConstants s a (loadModulus s r2s p prime ram)) := by
  have hpos : 0 < p := by omega
  obtain ⟨hloaded, hsquare⟩ := loadModulus_loaded hsize hpos hfits.room hfits.work.fits
  generalize loadModulus s r2s p prime ram = start at *
  obtain ⟨hlow, hone⟩ := @loadConstants_read s a start hsize.words
  have hscale : Holds s start 2 (radix p s) := by
    unfold Holds
    rw [hsquare]
    refine ⟨Nat.mod_lt _ hpos, ?_⟩
    rw [ZMod.natCast_mod, Nat.cast_mul]
    rfl
  obtain ⟨hplain, hplain3, hplain4, hplain5, hplain6, hplain7⟩ := @plainConstants_read s start hsize.words
  have hkept : Loaded s p prime (plainConstants s start) :=
    ⟨(hplain 0 (by omega)).trans hloaded.modulus, (hplain 1 (by omega)).trans hloaded.inverse⟩
  have hnumber : ∀ {i v : Nat}, v ≤ 8 → pkaRead (plainConstants s start) ⟨s, i⟩ = v →
      Holds s (plainConstants s start) i ((v : ZMod p) * (radix p s)⁻¹) := by
    intro i v hv hread
    refine ⟨by omega, ?_⟩
    rw [hread, mul_assoc, inv_mul_cancel₀ hfits.radix_ne_zero, mul_one]
  have h2 : Holds s (plainConstants s start) 2 (radix p s) := hscale.congr (hplain 2 (by omega))
  have h4 := hnumber (by decide) hplain4
  have h5 := hnumber (by decide) hplain5
  have h6 := hnumber (by decide) hplain6
  have h7 := hnumber (by decide) hplain7
  have hlive : ∀ j, j ∈ [2, 4, 5, 6, 7] → ∃ u : ZMod p, Holds s (plainConstants s start) j u := by
    simp only [List.mem_cons, List.not_mem_nil, or_false]
    rintro j (rfl | rfl | rfl | rfl | rfl)
    · exact ⟨_, h2⟩
    · exact ⟨_, h4⟩
    · exact ⟨_, h5⟩
    · exact ⟨_, h6⟩
    · exact ⟨_, h7⟩
  have hok : OpsOk p [2, 4, 5, 6, 7] [.regw 8 a, .mmul 4 4 2, .mmul 5 5 2, .mmul 6 6 2, .mmul 7 7 2,
      .mmul 8 8 2] := by
    simp [OpsOk, PkaOp.Ok, PkaOp.reads, PkaOp.dest, ha]
  have hrun : ∀ {i : Nat} {u : ZMod p}, i ∈ [2, 4, 5, 8] →
      evalOps s [.regw 8 a, .mmul 4 4 2, .mmul 5 5 2, .mmul 6 6 2, .mmul 7 7 2, .mmul 8 8 2]
        (element p s (plainConstants s start)) i = u →
      Holds s (loadConstants s a start) i u := fun {i u} hi hu =>
    runOps_element hfits hkept hlive hok (by
      simp only [List.mem_cons, List.not_mem_nil, or_false] at hi
      rcases hi with rfl | rfl | rfl | rfl <;> simp [PkaOp.dest]) hu
  have hr := hfits.radix_ne_zero
  refine ⟨⟨(hlow 0 (by omega)).trans hloaded.modulus, (hlow 1 (by omega)).trans hloaded.inverse⟩,
    hscale.congr (hlow 2 (by omega)), hone, hrun (by simp) ?_, hrun (by simp) ?_, hrun (by simp) ?_⟩
  · simp [evalOps_cons, evalOps_nil, PkaOp.dest, PkaOp.value, h2.element_eq hfits, h4.element_eq hfits]
    field_simp
  · simp [evalOps_cons, evalOps_nil, PkaOp.dest, PkaOp.value, h2.element_eq hfits, h5.element_eq hfits]
    field_simp
  · simp [evalOps_cons, evalOps_nil, PkaOp.dest, PkaOp.value, h2.element_eq hfits]
    field_simp

/-! ## The group -/

/-- `-P⁻¹` modulo the radix of the registers. -/
def Group.constant (grp : Group) : Nat := henselInverse grp.p.val (regWords grp.regSize * 4 * 8)

/-- The field of a group as it is loaded. -/
structure Supported (p : Nat) [Fact p.Prime] (grp : Group) : Prop where
  modulus : grp.p.val = p
  bits : grp.pbits = grp.p.bitlen
  large : 8 < p
  coeff : grp.a.getD 0 < p

variable {grp : Group} {heap : EcpHeap} {caches caches' : Caches}

theorem Supported.odd (h : Supported p grp) : Odd p :=
  (Fact.out : p.Prime).odd_of_ne_two (by have hlarge := h.large; omega)

theorem Supported.two_ne_zero (h : Supported p grp) : (2 : ZMod p) ≠ 0 := by
  have hlarge := h.large
  intro htwo
  have hdvd : p ∣ 2 := (ZMod.natCast_eq_zero_iff 2 p).mp (by exact_mod_cast htwo)
  exact absurd (Nat.le_of_dvd (by omega) hdvd) (by omega)

theorem Supported.fits (h : Supported p grp) (hsize : grp.regSize ≠ 0) :
    Field.Fits p grp.regSize grp.constant := by
  have hwords : ((grp.pbits + 7) / 8 + 3) / 4 ≤ 128 := by
    by_contra hlarge
    exact hsize (mpiWordsToRegSize_large (by omega))
  have hle := le_regWords hwords
  have hmodulus : grp.p.val.natAbs = p := by rw [h.modulus, Int.natAbs_natCast]
  have hradix : 2 ^ (regWords grp.regSize * 4 * 8) = regRadix grp.regSize := by
    rw [regRadix, ← pow_mul]
    congr 1
    ring
  have hroom : p < regRadix grp.regSize := by
    have hbits := lt_two_pow_bitlen grp.p
    rw [hmodulus, ← h.bits] at hbits
    refine hbits.trans_le ?_
    rw [regRadix, ← pow_mul]
    refine Nat.pow_le_pow_right (by omega) ?_
    change _ ≤ regWords grp.regSize at hle
    omega
  have hinverse := henselInverse_negInverse (m := regWords grp.regSize * 4 * 8) h.odd
  rw [← h.modulus, hradix] at hinverse
  refine ⟨⟨hroom.le, ?_, ?_, hinverse⟩, hroom⟩
  · rw [← hradix]
    exact henselInverse_lt _ _
  · rw [← hradix]
    exact (Nat.coprime_two_right.mpr h.odd).pow_right _

/-- `PrimeN` is not there yet, or right. -/
def Caches.Primed (grp : Group) (caches : Caches) : Prop :=
  ∀ prime, caches.primeN = some prime → prime = grp.constant

theorem initPrimeN_constant {primeN : Option Nat} {res : Except Int Nat × Option Nat}
    (h : Supported p grp) (hsize : grp.regSize ≠ 0)
    (hprimed : ∀ prime, primeN = some prime → prime = grp.constant)
    (hwhole : primeN = none → heap.primeBuf = true → heap.stopped = none)
    (hres : initPrimeN heap grp (regWords grp.regSize) primeN = res) :
    (∀ prime, res.2 = some prime → prime = grp.constant) ∧
      ∀ prime, res.1 = .ok prime → prime = grp.constant := by
  subst hres
  cases primeN with
  | some prime =>
    have heq := hprimed prime rfl
    exact ⟨fun v hv => (Option.some.inj hv).symm.trans heq, fun v hv => (Except.ok.inj hv).symm.trans heq⟩
  | none =>
    unfold initPrimeN
    by_cases hbuf : heap.primeBuf = false
    · rw [if_pos hbuf]
      exact ⟨fun v hv => (by cases hv), fun v hv => (by cases hv)⟩
    have hfits := h.fits hsize
    have hwords : regWords grp.regSize ≠ 0 := by
      intro hzero
      have hroom := hfits.room
      rw [regRadix, hzero, pow_zero] at hroom
      have hlarge := h.large
      omega
    have hodd : grp.p.limb 0 % 2 = 1 := by
      rw [Mpi.limb, h.modulus, Int.natAbs_natCast, Nat.mul_zero, pow_zero, Nat.div_one,
        Nat.mod_mod_of_dvd _ (by decide)]
      exact Nat.odd_iff.mp h.odd
    have hhensel : mpiHenselQuadModInvPrimeN heap.stopped grp.p (regWords grp.regSize * 4 * 8) =
        (0, some grp.constant) := by
      unfold mpiHenselQuadModInvPrimeN
      rw [if_neg (by omega), if_neg (by omega), hwhole rfl (Bool.not_eq_false _ ▸ hbuf)]
      rfl
    have hlt : ¬ 2 ^ (32 * regWords grp.regSize) ≤ grp.constant := by
      have hconst := hfits.work.fits
      rw [regRadix, ← pow_mul] at hconst
      omega
    rw [if_neg hbuf, hhensel]
    dsimp only
    rw [if_neg (by omega), Option.getD_some, if_neg hlt]
    exact ⟨fun v hv => (Option.some.inj hv).symm, fun v hv => (Except.ok.inj hv).symm⟩

/-- A call that gets through `ecp_init_swst` finds its registers prepared. -/
theorem ecpInit_prepared {res : Except Int (Nat × Ram) × Caches} (h : Supported p grp)
    (hprimed : caches.Primed grp)
    (hwhole : caches.primeN = none → heap.initBuf = true → heap.primeBuf = true → heap.stopped = none)
    (hres : ecpInitSwst heap grp ram caches = res) :
    res.2.Primed grp ∧ res.2.table = caches.table ∧
      ∀ s ram', res.1 = .ok (s, ram') → s = grp.regSize ∧ grp.regSize ≠ 0 ∧
        Prepared s p grp.constant (grp.a.getD 0 : Nat) ram' := by
  subst hres
  have hmodulus : grp.p.val.natAbs = p := by rw [h.modulus, Int.natAbs_natCast]
  have hlarge := h.large
  unfold ecpInitSwst
  dsimp only
  rw [mpiRegSizeToWords_eq, hmodulus]
  split
  · exact ⟨hprimed, rfl, fun s ram' hok => by cases hok⟩
  rename_i hsize
  split
  · exact ⟨hprimed, rfl, fun s ram' hok => by cases hok⟩
  rename_i hr2s
  split
  · exact ⟨hprimed, rfl, fun s ram' hok => by cases hok⟩
  rename_i hbuf
  have hfits := h.fits hsize
  cases hprime : initPrimeN heap grp (regWords grp.regSize) caches.primeN with
  | mk res primeN =>
    obtain ⟨hkeep, hconst⟩ := initPrimeN_constant h hsize hprimed
      (fun hnone => hwhole hnone (Bool.not_eq_false _ ▸ hbuf)) hprime
    cases res with
    | error ret => exact ⟨hkeep, rfl, fun s ram' hok => by cases hok⟩
    | ok prime =>
      dsimp only
      obtain rfl := hconst prime rfl
      split
      · exact ⟨hkeep, rfl, fun s ram' hok => by cases hok⟩
      split
      · exact ⟨hkeep, rfl, fun s ram' hok => by cases hok⟩
      refine ⟨hkeep, rfl, fun s ram' hok => ?_⟩
      obtain ⟨rfl, rfl⟩ := Prod.mk.inj (Except.ok.inj hok)
      have hwords : 0 < regWords grp.regSize := by
        apply Nat.pos_of_ne_zero
        intro hzero
        have hroom := hfits.room
        rw [regRadix, hzero, pow_zero] at hroom
        omega
      have hcount : regWords grp.regSize * 2 + 1 ≤ 128 := by
        by_contra hover
        exact hr2s (mpiWordsToRegSize_large (by omega))
      have hwide := le_regWords hcount
      exact ⟨rfl, hsize, load_prepared hfits ⟨hwords, by omega⟩ hlarge h.coeff⟩

end

end BouffaloSdk.Ecp
