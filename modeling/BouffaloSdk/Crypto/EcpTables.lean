import BouffaloSdk.Crypto.EcpRegisters

/-!
# The table of odd multiples

A sum or a double that is not infinity comes out right. So do the table's entries, as long
as none of the multiples of the point that it takes is infinity.
-/

namespace BouffaloSdk.Ecp
open Kit Kit.Montgomery Kit.ShortWeierstrass Pka Bignum

section
variable {p s prime i dst src src1 src2 : Nat} [Fact p.Prime] {ram ram' : Ram} {A : Option Nat}
variable {x y z b : ZMod p} {q r : (curve (coefficient p A) b).toAffine.Point}

/-! ## Points of the curve in the registers -/

/-- Registers `i` to `i + 2` hold Jacobian coordinates of `q`. -/
def Carries (s : Nat) (ram : Ram) (i : Nat) (q : (curve (coefficient p A) b).toAffine.Point) : Prop :=
  ∃ j, Represents q j ∧ HoldsPoint s ram i j

/-- Registers `i` and `i + 1` hold the coordinates of `q`. -/
def CarriesAffine (s : Nat) (ram : Ram) (i : Nat)
    (q : (curve (coefficient p A) b).toAffine.Point) : Prop :=
  ∃ x y, HasCoords q x y ∧ HoldsAffine s ram i x y

theorem Carries.congr (h : Carries s ram i q)
    (hread : ∀ j, i ≤ j → j < i + 3 → pkaRead ram' ⟨s, j⟩ = pkaRead ram ⟨s, j⟩) :
    Carries s ram' i q := by
  obtain ⟨j, hrep, hholds⟩ := h
  exact ⟨j, hrep, hholds.congr hread⟩

theorem CarriesAffine.congr (h : CarriesAffine s ram i q)
    (hread : ∀ j, i ≤ j → j < i + 2 → pkaRead ram' ⟨s, j⟩ = pkaRead ram ⟨s, j⟩) :
    CarriesAffine s ram' i q := by
  obtain ⟨x, y, hcoords, hholds⟩ := h
  exact ⟨x, y, hcoords, hholds.congr hread⟩

theorem double_carries (hfits : Field.Fits p s prime) (htwo : (2 : ZMod p) ≠ 0)
    (hram : Prepared s p prime (A.getD 0 : Nat) ram) (hsrc : 16 ≤ src) (hdst : 16 ≤ dst)
    (hq : Carries s ram src q) (hne : q + q ≠ 0) :
    Carries s (runOps s (ecpDoubleSwst A dst src) ram) dst (q + q) := by
  obtain ⟨j, hrep, hholds⟩ := hq
  exact ⟨_, hrep.double htwo hne, double_holds hfits hram hsrc hdst hholds⟩

theorem normalize_carries (hfits : Field.Fits p s prime) (hram : Loaded s p prime ram)
    (hsrc : 16 ≤ src) (hdst : 16 ≤ dst) (hne : src + 1 ≠ dst) (hq : Carries s ram src q) :
    CarriesAffine s (runOps s (ecpNormalizeSwst dst src) ram) dst q := by
  obtain ⟨j, hrep, hholds⟩ := hq
  exact ⟨_, _, hrep.coords, normalize_holds hfits hram hsrc hdst hne hholds⟩

/-- A sum that is not infinity is written, also where both points are the same. -/
theorem addMixed_carries (hfits : Field.Fits p s prime) (htwo : (2 : ZMod p) ≠ 0)
    (hram : Prepared s p prime (A.getD 0 : Nat) ram) (hsrc1 : 16 ≤ src1) (hsrc2 : 16 ≤ src2)
    (hdst : 16 ≤ dst) (hq : Carries s ram src1 q) (hr : CarriesAffine s ram src2 r)
    (hne : q + r ≠ 0) :
    (ecpAddMixedSwst A s dst src1 src2 ram).2 = 0 ∧
      Carries s (ecpAddMixedSwst A s dst src1 src2 ram).1 dst (q + r) := by
  obtain ⟨j, hrep, hj⟩ := hq
  obtain ⟨x, y, hcoords, hxy⟩ := hr
  have hkept := @addDistances_kept s ram src1 src2
  have hready := hram.kept hkept
  have hpoint : HoldsPoint s (runOps s (addDistances src1 src2) ram) src1 j :=
    hj.congr fun k hk _ => runOps_read (addDistances_apart (by omega))
  obtain ⟨hdx, hdy⟩ := distances_hold hfits hram.loaded hsrc1 hsrc2 hj hxy
  unfold ecpAddMixedSwst
  dsimp only
  by_cases hx : j.dx x = 0
  · rw [if_pos ((lcmp_one hfits hdx hready.one).mpr hx)]
    by_cases hy : j.dy y = 0
    · rw [if_pos ((lcmp_one hfits hdy hready.one).mpr hy)]
      obtain rfl := hrep.eq_of_dx_dy hcoords hx hy
      exact ⟨rfl, double_carries hfits htwo hready hsrc1 hdst ⟨j, hrep, hpoint⟩ hne⟩
    · exact absurd (hrep.add_eq_zero hcoords hx hy) hne
  · rw [if_neg fun hlt => hx ((lcmp_one hfits hdx hready.one).mp hlt)]
    exact ⟨rfl, _, hrep.addAffine hcoords hx, addRest_holds hfits hready hsrc1 hdst hpoint hdx hdy⟩

/-- Opposite points: the function returns 1. -/
theorem addMixed_opposite (hfits : Field.Fits p s prime)
    (hram : Prepared s p prime (A.getD 0 : Nat) ram) (hsrc1 : 16 ≤ src1) (hsrc2 : 16 ≤ src2)
    (hq : Carries s ram src1 q) (hr : CarriesAffine s ram src2 r) (hq2 : q + q ≠ 0)
    (hzero : q + r = 0) : (ecpAddMixedSwst A s dst src1 src2 ram).2 = 1 := by
  obtain ⟨j, hrep, hj⟩ := hq
  obtain ⟨x, y, hcoords, hxy⟩ := hr
  have hready := hram.kept (@addDistances_kept s ram src1 src2)
  obtain ⟨hdx, hdy⟩ := distances_hold hfits hram.loaded hsrc1 hsrc2 hj hxy
  have hx : j.dx x = 0 := by
    by_contra hx
    have hsum := hrep.addAffine hcoords hx
    rw [hzero] at hsum
    exact hsum.coords.ne_zero rfl
  have hy : j.dy y ≠ 0 := by
    intro hy
    obtain rfl := hrep.eq_of_dx_dy hcoords hx hy
    exact hq2 hzero
  unfold ecpAddMixedSwst
  dsimp only
  rw [if_pos ((lcmp_one hfits hdx hready.one).mpr hx),
    if_neg fun hlt => hy ((lcmp_one hfits hdy hready.one).mp hlt)]

/-! ## The loops keep the group's registers -/

variable {t : Table} {tz c : Nat → Nat} {fx fy fz : Nat → ZMod p} {k size : Nat}

omit [Fact p.Prime]

theorem productsLoop_kept : Kept s ram (productsLoop s tz k i ram c).1 := by
  induction k generalizing i ram c with
  | zero => exact fun _ _ => rfl
  | succ k ih => exact (runOps_kept (by simp [PkaOp.dest])).trans ih

theorem normalizeEntry_kept : Kept s ram (normalizeEntry s i ram t).1 :=
  runOps_kept (by simp [PkaOp.dest])

theorem normalizeLoop_kept : Kept s ram (normalizeLoop s c tz i ram t).1 := by
  induction i generalizing ram t with
  | zero => exact (runOps_kept (by simp [PkaOp.dest])).trans normalizeEntry_kept
  | succ i ih => exact ((runOps_kept (by simp [PkaOp.dest])).trans normalizeEntry_kept).trans ih

theorem normalizeMany_kept {heap : EcpHeap} {res : Ram × Table}
    (hres : ecpNormalizeManySwst heap s t tz size ram = .ok res) : Kept s ram res.1 := by
  unfold ecpNormalizeManySwst at hres
  split at hres
  · cases hres
  obtain rfl := Except.ok.inj hres
  exact (productsLoop_kept.trans (runOps_kept (by simp [PkaOp.dest]))).trans normalizeLoop_kept

theorem oddMultiples_kept : Kept s ram (oddMultiples A s 24 k i ram t tz).1 := by
  induction k generalizing i ram t tz with
  | zero => exact fun _ _ => rfl
  | succ k ih => exact (addMixed_kept (by omega)).trans ih

end

section
variable {p s prime i : Nat} [Fact p.Prime] {ram : Ram} {A : Option Nat} {x y z b : ZMod p}
variable {q : (curve (coefficient p A) b).toAffine.Point}
variable {t : Table} {tz c : Nat → Nat} {fx fy fz : Nat → ZMod p} {k size : Nat}

/-! ## One inverse for all entries -/

/-- The number stands for the element. -/
def Stored (p s : Nat) [Fact p.Prime] (v : Nat) (x : ZMod p) : Prop :=
  v < p ∧ (v : ZMod p) = x * radix p s

theorem Holds.stored {x : ZMod p} (h : Holds s ram i x) : Stored p s (pkaRead ram ⟨s, i⟩) x := h

theorem Stored.value {v : Nat} (hfits : Field.Fits p s prime) (h : Stored p s v x) :
    (v : ZMod p) * (radix p s)⁻¹ = x := by
  rw [h.2, mul_assoc, mul_inv_cancel₀ hfits.radix_ne_zero, mul_one]

/-- The product of the first `i + 1` elements. -/
def productTo (f : Nat → ZMod p) (i : Nat) : ZMod p := ∏ l ∈ Finset.range (i + 1), f l

theorem productTo_succ (f : Nat → ZMod p) (i : Nat) :
    productTo f (i + 1) = productTo f i * f (i + 1) := Finset.prod_range_succ ..

theorem productTo_ne_zero {f : Nat → ZMod p} {k : Nat} (h : ∀ l, l < k → f l ≠ 0) (hi : i < k) :
    productTo f i ≠ 0 := by
  rw [productTo, Finset.prod_ne_zero_iff]
  intro l hl
  exact h l (by rw [Finset.mem_range] at hl; omega)

/-- One product, into register 11. -/
theorem product_holds {v w : Nat} (hfits : Field.Fits p s prime) (hram : Loaded s p prime ram)
    (hv : Stored p s v x) (hw : Stored p s w y) :
    Holds s (runOps s [.regw 9 v, .regw 10 w, .mmul 11 9 10] ram) 11 (x * y) := by
  refine runOps_fresh hfits hram ?_ (by simp [PkaOp.dest]) ?_
  · simp [OpsOk, PkaOp.Ok, PkaOp.reads, PkaOp.dest, hv.1, hw.1]
  · simp [evalOps_cons, evalOps_nil, PkaOp.dest, PkaOp.value, hv.value hfits, hw.value hfits]

theorem productsLoop_stored (hfits : Field.Fits p s prime) (hram : Loaded s p prime ram)
    (hz : ∀ l, l < i + k → Stored p s (tz l) (fz l)) (hpos : 0 < i)
    (hc : ∀ l, l < i → Stored p s (c l) (productTo fz l)) :
    ∀ l, l < i + k → Stored p s ((productsLoop s tz k i ram c).2 l) (productTo fz l) := by
  induction k generalizing i ram c with
  | zero => exact hc
  | succ k ih =>
    obtain ⟨j, rfl⟩ : ∃ j, i = j + 1 := ⟨i - 1, by omega⟩
    have hkept : Kept s ram (runOps s [.regw 9 (c (j + 1 - 1)), .regw 10 (tz (j + 1)), .mmul 11 9 10] ram) :=
      runOps_kept (by simp [PkaOp.dest])
    have hproduct := product_holds hfits hram (hc j (by omega)) (hz (j + 1) (by omega))
    rw [← productTo_succ] at hproduct
    have hnext : ∀ l, l < j + 1 + 1 → Stored p s (Function.update c (j + 1) (pkaRead
        (runOps s [.regw 9 (c (j + 1 - 1)), .regw 10 (tz (j + 1)), .mmul 11 9 10] ram) ⟨s, 11⟩) l)
        (productTo fz l) := by
      intro l hl
      rcases Nat.lt_succ_iff_lt_or_eq.mp hl with hlt | rfl
      · rw [Function.update_of_ne hlt.ne]
        exact hc l hlt
      · rw [Function.update_self]
        exact hproduct.stored
    intro l hl
    exact ih (hkept.loaded hram) (fun l hl => hz l (by omega)) (by omega) hnext l (by omega)

/-- An entry, with the inverse of its third coordinate in register 10. -/
theorem normalizeEntry_stored (hfits : Field.Fits p s prime) (hram : Loaded s p prime ram)
    (hinv : Holds s ram 10 z⁻¹) (hx : Stored p s (t i).1 x) (hy : Stored p s (t i).2 y) :
    Stored p s ((normalizeEntry s i ram t).2 i).1 (x / z ^ 2) ∧
      Stored p s ((normalizeEntry s i ram t).2 i).2 (y / z ^ 3) := by
  have hlive : ∀ j, j ∈ [10] → ∃ u : ZMod p, Holds s ram j u := by
    intro j hj
    rw [List.mem_singleton.mp hj]
    exact ⟨_, hinv⟩
  have hok : OpsOk p [10] [.msqr 11 10, .regw 12 (t i).1, .regw 13 (t i).2, .mmul 12 12 11,
      .mmul 13 13 11, .mmul 13 13 10] := by
    simp [OpsOk, PkaOp.Ok, PkaOp.reads, PkaOp.dest, hx.1, hy.1]
  unfold normalizeEntry
  dsimp only
  rw [Function.update_self]
  constructor
  · refine (runOps_element hfits hram hlive hok (.inr (by simp [PkaOp.dest])) ?_).stored
    simp [evalOps_cons, evalOps_nil, PkaOp.dest, PkaOp.value, hx.value hfits, hinv.element_eq hfits]
    ring
  · refine (runOps_element hfits hram hlive hok (.inr (by simp [PkaOp.dest])) ?_).stored
    simp [evalOps_cons, evalOps_nil, PkaOp.dest, PkaOp.value, hy.value hfits, hinv.element_eq hfits]
    ring

theorem normalizeEntry_read : pkaRead (normalizeEntry s i ram t).1 ⟨s, 9⟩ = pkaRead ram ⟨s, 9⟩ :=
  runOps_read (by simp [PkaOp.dest])

theorem normalizeEntry_others {l : Nat} (hl : l ≠ i) : (normalizeEntry s i ram t).2 l = t l :=
  Function.update_of_ne hl _ _

/-- The programs of the loop before an entry. -/
def stepDown (c tz : Nat → Nat) (i : Nat) : List PkaOp :=
  [.regw 12 (c i), .regw 13 (tz (i + 1)), .mmul 10 9 12, .mmul 9 9 13]

theorem stepDown_holds (hfits : Field.Fits p s prime) (hram : Loaded s p prime ram)
    (hne : ∀ l, l ≤ i + 1 → fz l ≠ 0) (hinv : Holds s ram 9 (productTo fz (i + 1))⁻¹)
    (hc : Stored p s (c i) (productTo fz i)) (hz : Stored p s (tz (i + 1)) (fz (i + 1))) :
    Holds s (runOps s (stepDown c tz i) ram) 9 (productTo fz i)⁻¹ ∧
      Holds s (runOps s (stepDown c tz i) ram) 10 (fz (i + 1))⁻¹ := by
  have hlast := hne (i + 1) (le_refl _)
  have hrest : productTo fz i ≠ 0 := productTo_ne_zero (k := i + 1) (fun l hl => hne l (by omega)) (by omega)
  have hlive : ∀ j, j ∈ [9] → ∃ u : ZMod p, Holds s ram j u := by
    intro j hj
    rw [List.mem_singleton.mp hj]
    exact ⟨_, hinv⟩
  have hok : OpsOk p [9] (stepDown c tz i) := by
    simp [stepDown, OpsOk, PkaOp.Ok, PkaOp.reads, PkaOp.dest, hc.1, hz.1]
  constructor
  · refine runOps_element hfits hram hlive hok (.inr (by simp [stepDown, PkaOp.dest])) ?_
    simp [stepDown, evalOps_cons, evalOps_nil, PkaOp.dest, PkaOp.value, hz.value hfits,
      hinv.element_eq hfits, productTo_succ]
    field_simp
  · refine runOps_element hfits hram hlive hok (.inr (by simp [stepDown, PkaOp.dest])) ?_
    simp [stepDown, evalOps_cons, evalOps_nil, PkaOp.dest, PkaOp.value, hc.value hfits,
      hinv.element_eq hfits, productTo_succ]
    field_simp

/-- The loop down from `i` finds the inverse of the product up to `i` in register 9. -/
theorem normalizeLoop_stored (hfits : Field.Fits p s prime) (hram : Loaded s p prime ram)
    (hne : ∀ l, l ≤ i → fz l ≠ 0) (hinv : Holds s ram 9 (productTo fz i)⁻¹)
    (hc : ∀ l, l < i → Stored p s (c l) (productTo fz l))
    (hz : ∀ l, l ≤ i → Stored p s (tz l) (fz l))
    (hx : ∀ l, l ≤ i → Stored p s (t l).1 (fx l)) (hy : ∀ l, l ≤ i → Stored p s (t l).2 (fy l)) :
    (∀ l, i < l → (normalizeLoop s c tz i ram t).2 l = t l) ∧
      ∀ l, l ≤ i → Stored p s ((normalizeLoop s c tz i ram t).2 l).1 (fx l / fz l ^ 2) ∧
        Stored p s ((normalizeLoop s c tz i ram t).2 l).2 (fy l / fz l ^ 3) := by
  induction i generalizing ram t with
  | zero =>
    have hfirst : productTo fz 0 = fz 0 := by simp [productTo]
    rw [hfirst] at hinv
    have hmove : Holds s (runOps s [.move 10 9] ram) 10 (fz 0)⁻¹ := move_holds hfits hinv
    have hkept : Kept s ram (runOps s [.move 10 9] ram) := runOps_kept (by simp [PkaOp.dest])
    refine ⟨fun l hl => normalizeEntry_others (by omega), fun l hl => ?_⟩
    obtain rfl : l = 0 := by omega
    exact normalizeEntry_stored hfits (hkept.loaded hram) hmove (hx 0 (le_refl _)) (hy 0 (le_refl _))
  | succ i ih =>
    obtain ⟨hnine, hten⟩ := stepDown_holds hfits hram hne hinv (hc i (by omega)) (hz (i + 1) (le_refl _))
    have hkept : Kept s ram (runOps s (stepDown c tz i) ram) := runOps_kept (by simp [stepDown, PkaOp.dest])
    have hentry := normalizeEntry_stored (i := i + 1) hfits (hkept.loaded hram) hten (hx _ (le_refl _))
      (hy _ (le_refl _))
    have hothers : ∀ l, l ≤ i →
        (normalizeEntry s (i + 1) (runOps s (stepDown c tz i) ram) t).2 l = t l :=
      fun l hl => normalizeEntry_others (by omega)
    obtain ⟨hhigh, hall⟩ := ih ((hkept.trans normalizeEntry_kept).loaded hram)
      (fun l hl => hne l (by omega)) (hnine.congr normalizeEntry_read) (fun l hl => hc l (by omega))
      (fun l hl => hz l (by omega)) (fun l hl => (hothers l hl).symm ▸ hx l (by omega))
      (fun l hl => (hothers l hl).symm ▸ hy l (by omega))
    refine ⟨fun l hl => (hhigh l (by omega)).trans (normalizeEntry_others (by omega)), fun l hl => ?_⟩
    rcases Nat.lt_or_eq_of_le hl with hlt | rfl
    · exact hall l (by omega)
    · have hlast := hhigh (i + 1) (by omega)
      rw [← hlast] at hentry
      exact hentry

/-- All entries from one inverse. -/
theorem normalizeMany_stored {heap : EcpHeap} {res : Ram × Table} (fx fy fz : Nat → ZMod p)
    (hfits : Field.Fits p s prime) (hram : Loaded s p prime ram) (hne : ∀ l, l < size + 1 → fz l ≠ 0)
    (hz : ∀ l, l < size + 1 → Stored p s (tz l) (fz l))
    (hx : ∀ l, l < size + 1 → Stored p s (t l).1 (fx l))
    (hy : ∀ l, l < size + 1 → Stored p s (t l).2 (fy l))
    (hres : ecpNormalizeManySwst heap s t tz (size + 1) ram = .ok res) :
    ∀ l, l < size + 1 → Stored p s (res.2 l).1 (fx l / fz l ^ 2) ∧
      Stored p s (res.2 l).2 (fy l / fz l ^ 3) := by
  unfold ecpNormalizeManySwst at hres
  split at hres
  · cases hres
  obtain rfl := Except.ok.inj hres
  rw [Nat.add_sub_cancel]
  have hfirst : ∀ l, l < 1 → Stored p s (Function.update (fun _ => 0) 0 (tz 0) l) (productTo fz l) := by
    intro l hl
    obtain rfl : l = 0 := by omega
    rw [Function.update_self]
    simpa [productTo] using hz 0 (by omega)
  have hkept := @productsLoop_kept s 1 ram tz (Function.update (fun _ => 0) 0 (tz 0)) size
  have hc := productsLoop_stored (k := size) hfits hram (fun l hl => hz l (by omega))
    Nat.one_pos hfirst
  generalize productsLoop s tz size 1 ram (Function.update (fun _ => 0) 0 (tz 0)) = products at *
  have hlast := hc size (by omega)
  have hkept' : Kept s products.1 (runOps s [.regw 10 (products.2 size), .minv 9 10] products.1) :=
    runOps_kept (by simp [PkaOp.dest])
  have hinv : Holds s (runOps s [.regw 10 (products.2 size), .minv 9 10] products.1) 9
      (productTo fz size)⁻¹ := by
    refine runOps_fresh hfits (hkept.loaded hram) ?_ (by simp [PkaOp.dest]) ?_
    · simp [OpsOk, PkaOp.Ok, PkaOp.reads, PkaOp.dest, hlast.1]
    · simp [evalOps_cons, evalOps_nil, PkaOp.dest, PkaOp.value, hlast.value hfits]
  intro l hl
  exact (normalizeLoop_stored (t := t) hfits ((hkept.trans hkept').loaded hram)
    (fun l hl => hne l (by omega)) hinv (fun l hl => hc l (by omega)) (fun l hl => hz l (by omega))
    (fun l hl => hx l (by omega)) (fun l hl => hy l (by omega))).2 l (by omega)

/-! ## The table -/

/-- The numbers are the coordinates of `q` in Montgomery form. -/
def Entry (s : Nat) (v : Nat × Nat) (q : (curve (coefficient p A) b).toAffine.Point) : Prop :=
  ∃ x y, HasCoords q x y ∧ Stored p s v.1 x ∧ Stored p s v.2 y

/-- The table holds the odd multiples. -/
def OddTable (s : Nat) (t : Table) (q : (curve (coefficient p A) b).toAffine.Point) : Prop :=
  ∀ i, i < 8 → Entry s (t i) ((2 * i + 1) • q)

/-- Entry `i + 1` before it is normalized. -/
def Unscaled (s : Nat) (t : Table) (tz : Nat → Nat) (i : Nat)
    (q : (curve (coefficient p A) b).toAffine.Point) : Prop :=
  ∃ j : Jacobian (ZMod p), Represents ((2 * (i + 1) + 1) • q) j ∧ Stored p s (t (i + 1)).1 j.x ∧
    Stored p s (t (i + 1)).2 j.y ∧ Stored p s (tz i) j.z

theorem oddMultiples_unscaled (hfits : Field.Fits p s prime) (htwo : (2 : ZMod p) ≠ 0)
    (hram : Prepared s p prime (A.getD 0 : Nat) ram) (hq : Carries s ram 17 ((2 * i + 1) • q))
    (hdouble : CarriesAffine s ram 24 (2 • q)) (hne : ∀ l, l ≤ i + k → (2 * l + 1) • q ≠ 0)
    (ht : ∀ l, l < i → Unscaled s t tz l q) :
    (oddMultiples A s 24 k (i + 1) ram t tz).2.1 0 = t 0 ∧
      ∀ l, l < i + k → Unscaled s (oddMultiples A s 24 k (i + 1) ram t tz).2.1
        (oddMultiples A s 24 k (i + 1) ram t tz).2.2 l q := by
  induction k generalizing i ram t tz with
  | zero => exact ⟨rfl, ht⟩
  | succ k ih =>
    have hsum : (2 * i + 1) • q + 2 • q = (2 * (i + 1) + 1) • q := by
      rw [← add_smul]
      congr 1
    have hadd := (addMixed_carries hfits htwo hram (by omega) (by omega) (show 16 ≤ 17 by omega) hq hdouble
      (by rw [hsum]; exact hne (i + 1) (by omega))).2
    rw [hsum] at hadd
    have hkept := @addMixed_kept s 17 ram 17 24 A (by omega)
    have hdouble' := hdouble.congr fun j hj _ =>
      @addMixed_read s j 17 ram 17 24 A (by omega) (by omega)
    unfold oddMultiples
    dsimp only
    generalize (ecpAddMixedSwst A s 17 17 24 ram).1 = next at *
    have hnext : ∀ l, l < i + 1 → Unscaled s
        (Function.update t (i + 1) (pkaRead next ⟨s, 17⟩, pkaRead next ⟨s, 18⟩))
        (Function.update tz (i + 1 - 1) (pkaRead next ⟨s, 19⟩)) l q := by
      intro l hl
      rcases Nat.lt_succ_iff_lt_or_eq.mp hl with hlt | rfl
      · obtain ⟨j, hrep, hx, hy, hz⟩ := ht l hlt
        refine ⟨j, hrep, ?_⟩
        rw [Function.update_of_ne (by omega), Function.update_of_ne (by omega)]
        exact ⟨hx, hy, hz⟩
      · obtain ⟨j, hrep, hholds⟩ := hadd
        refine ⟨j, hrep, ?_⟩
        rw [Function.update_self, Nat.add_sub_cancel, Function.update_self]
        exact ⟨hholds.x.stored, hholds.y.stored, hholds.z.stored⟩
    obtain ⟨hzero, hall⟩ := ih (hram.kept hkept) hadd hdouble' (fun l hl => hne l (by omega)) hnext
    exact ⟨hzero.trans (Function.update_of_ne (by omega) _ _), fun l hl => hall l (by omega)⟩

end

end BouffaloSdk.Ecp
