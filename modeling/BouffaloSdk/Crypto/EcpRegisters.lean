import BouffaloSdk.Crypto.EcpAlt
import BouffaloSdk.Kit.ShortWeierstrass

/-!
# Points in the registers

The programs of `ecp_alt.c` compute the double and the sum of the points that the registers
hold, in Jacobian coordinates.
-/

namespace BouffaloSdk.Ecp
open Kit Kit.Montgomery Kit.ShortWeierstrass Pka Bignum

variable {s i dst src : Nat} {ram ram' : Ram} {ops ops' : List PkaOp}

/-! ## Registers that stay -/

/-- The registers below 9 are as they were. -/
def Kept (s : Nat) (ram ram' : Ram) : Prop := ∀ i, i < 9 → pkaRead ram' ⟨s, i⟩ = pkaRead ram ⟨s, i⟩

theorem Kept.trans {ram'' : Ram} (h : Kept s ram ram') (h' : Kept s ram' ram'') : Kept s ram ram'' :=
  fun i hi => (h' i hi).trans (h i hi)

theorem Kept.loaded {n prime : Nat} (h : Kept s ram ram') (hram : Loaded s n prime ram) :
    Loaded s n prime ram' :=
  ⟨(h 0 (by omega)).trans hram.modulus, (h 1 (by omega)).trans hram.inverse⟩

theorem runOps_append : runOps s (ops ++ ops') ram = runOps s ops' (runOps s ops ram) :=
  List.foldl_append ..

theorem runOps_read (h : i ∉ ops.map PkaOp.dest) :
    pkaRead (runOps s ops ram) ⟨s, i⟩ = pkaRead ram ⟨s, i⟩ := by
  induction ops generalizing ram with
  | nil => rfl
  | cons op ops ih =>
    rw [List.map_cons, List.mem_cons, not_or] at h
    obtain ⟨v, hwrote⟩ := op.run_wrote (s := s) ram
    exact (ih h.2).trans (hwrote.others i h.1)

theorem runOps_kept (h : ∀ op ∈ ops, 9 ≤ op.dest) : Kept s ram (runOps s ops ram) := by
  intro i hi
  refine runOps_read fun hmem => ?_
  obtain ⟨op, hop, rfl⟩ := List.mem_map.mp hmem
  exact absurd (h op hop) (by omega)

theorem normalize_dest (h : 9 ≤ dst) : ∀ op ∈ ecpNormalizeSwst dst src, 9 ≤ op.dest := by
  simp [ecpNormalizeSwst, PkaOp.dest]
  omega

theorem double_dest {a : Option Nat} (h : 9 ≤ dst) : ∀ op ∈ ecpDoubleSwst a dst src, 9 ≤ op.dest := by
  cases a with
  | none =>
    simp [ecpDoubleSwst, doubleSlope, doubleRest, PkaOp.dest]
    omega
  | some a =>
    by_cases ha : a = 0 <;> simp [ecpDoubleSwst, doubleSlope, doubleRest, PkaOp.dest, ha] <;> omega

/-! ## The registers of a group -/

section
variable {p prime : Nat} [Fact p.Prime] {a x y : ZMod p} {q : Jacobian (ZMod p)} {f : Nat → ZMod p}
variable {live : List Nat}

/-- What `ecp_init_swst` leaves in the registers 0 to 8. -/
structure Prepared (s p prime : Nat) [Fact p.Prime] (a : ZMod p) (ram : Ram) : Prop where
  loaded : Loaded s p prime ram
  scale : Holds s ram 2 (radix p s)
  one : pkaRead ram ⟨s, 3⟩ = 1
  two : Holds s ram 4 (2 : ZMod p)
  three : Holds s ram 5 (3 : ZMod p)
  coeff : Holds s ram 8 a

theorem Prepared.kept (h : Prepared s p prime a ram) (hkept : Kept s ram ram') :
    Prepared s p prime a ram' where
  loaded := hkept.loaded h.loaded
  scale := h.scale.congr (hkept 2 (by omega))
  one := (hkept 3 (by omega)).trans h.one
  two := h.two.congr (hkept 4 (by omega))
  three := h.three.congr (hkept 5 (by omega))
  coeff := h.coeff.congr (hkept 8 (by omega))

/-- The element that the number in register `i` stands for. -/
def element (p s : Nat) [Fact p.Prime] (ram : Ram) (i : Nat) : ZMod p :=
  pkaRead ram ⟨s, i⟩ * (radix p s)⁻¹

theorem Holds.element_eq (hfits : Field.Fits p s prime) (h : Holds s ram i x) :
    element p s ram i = x := by
  rw [element, h.2, mul_assoc, mul_inv_cancel₀ hfits.radix_ne_zero, mul_one]

theorem Prepared.holds_one (hfits : Field.Fits p s prime) (h : Prepared s p prime a ram) :
    Holds s ram 3 (radix p s)⁻¹ := by
  have hone : (1 : Nat) < p := (Fact.out : p.Prime).one_lt
  refine ⟨by rw [h.one]; exact hone, ?_⟩
  rw [h.one, Nat.cast_one, inv_mul_cancel₀ hfits.radix_ne_zero]

/-- Register `i` and the next two hold the coordinates of `q`. -/
structure HoldsPoint (s : Nat) (ram : Ram) (i : Nat) (q : Jacobian (ZMod p)) : Prop where
  x : Holds s ram i q.x
  y : Holds s ram (i + 1) q.y
  z : Holds s ram (i + 2) q.z

/-- Register `i` and the next one hold the coordinates of an affine point. -/
structure HoldsAffine (s : Nat) (ram : Ram) (i : Nat) (x y : ZMod p) : Prop where
  x : Holds s ram i x
  y : Holds s ram (i + 1) y

theorem HoldsPoint.congr (h : HoldsPoint s ram i q)
    (hread : ∀ j, i ≤ j → j < i + 3 → pkaRead ram' ⟨s, j⟩ = pkaRead ram ⟨s, j⟩) :
    HoldsPoint s ram' i q :=
  ⟨h.x.congr (hread _ (by omega) (by omega)), h.y.congr (hread _ (by omega) (by omega)),
    h.z.congr (hread _ (by omega) (by omega))⟩

theorem HoldsAffine.congr (h : HoldsAffine s ram i x y)
    (hread : ∀ j, i ≤ j → j < i + 2 → pkaRead ram' ⟨s, j⟩ = pkaRead ram ⟨s, j⟩) :
    HoldsAffine s ram' i x y :=
  ⟨h.x.congr (hread _ (by omega) (by omega)), h.y.congr (hread _ (by omega) (by omega))⟩

/-- A program leaves in a register what it computes from the elements of the live ones. -/
theorem runOps_element (hfits : Field.Fits p s prime) (hram : Loaded s p prime ram)
    (hlive : ∀ i, i ∈ live → ∃ x : ZMod p, Holds s ram i x) (hok : OpsOk p live ops)
    (hi : i ∈ live ∨ i ∈ ops.map PkaOp.dest) (hx : evalOps s ops (element p s ram) i = x) :
    Holds s (runOps s ops ram) i x := by
  subst hx
  refine (runOps_holds hfits hram hok fun j hj => ?_).2 i (mem_liveAfter.mpr hi)
  obtain ⟨x, hx⟩ := hlive j hj
  rwa [hx.element_eq hfits]

/-- Operations that read only what they wrote. -/
theorem runOps_fresh (hfits : Field.Fits p s prime) (hram : Loaded s p prime ram)
    (hok : OpsOk p [] ops) (hi : i ∈ ops.map PkaOp.dest)
    (hx : evalOps s ops (element p s ram) i = x) : Holds s (runOps s ops ram) i x :=
  runOps_element hfits hram (fun _ h => absurd h List.not_mem_nil) hok (.inr hi) hx

theorem evalOps_cons (op : PkaOp) (ops : List PkaOp) (f : Nat → ZMod p) :
    evalOps s (op :: ops) f = evalOps s ops (Function.update f op.dest (op.value s f)) := rfl

theorem evalOps_nil (f : Nat → ZMod p) : evalOps s [] f = f := rfl

theorem evalOps_append (f : Nat → ZMod p) :
    evalOps s (ops ++ ops') f = evalOps s ops' (evalOps s ops f) := List.foldl_append ..

/-! ## Doubling -/

theorem evalOps_doubleRest (hsrc : 16 ≤ src) (hdst : 16 ≤ dst) (htwo : f 4 = 2) :
    evalOps s (doubleRest dst src) f dst =
        f 9 ^ 2 - 2 * (4 * f src * f (src + 1) ^ 2) ∧
      evalOps s (doubleRest dst src) f (dst + 1) =
        f 9 * (4 * f src * f (src + 1) ^ 2 - (f 9 ^ 2 - 2 * (4 * f src * f (src + 1) ^ 2))) -
          8 * f (src + 1) ^ 4 ∧
      evalOps s (doubleRest dst src) f (dst + 2) = 2 * f (src + 1) * f (src + 2) := by
  simp (disch := omega) only [doubleRest, evalOps_cons, evalOps_nil, PkaOp.dest, PkaOp.value,
    Function.update_self, Function.update_of_ne, htwo]
  refine ⟨?_, ?_, ?_⟩ <;> ring

/-- The `A` of the curve: none stands for -3. -/
def coefficient (p : Nat) : Option Nat → ZMod p
  | none => (-3 : Int)
  | some a => a

theorem evalOps_doubleSlope {A : Option Nat} (hsrc : 16 ≤ src) (hthree : f 5 = 3)
    (hcoeff : f 8 = (A.getD 0 : Nat)) :
    evalOps s (doubleSlope src A) f 9 = 3 * f src ^ 2 + coefficient p A * f (src + 2) ^ 4 := by
  cases A with
  | none =>
    simp (disch := omega) only [doubleSlope, evalOps_cons, evalOps_nil, PkaOp.dest, PkaOp.value,
      Function.update_self, Function.update_of_ne, hthree, coefficient]
    ring
  | some A =>
    rw [Option.getD_some] at hcoeff
    by_cases hA : A = 0
    · subst hA
      simp (disch := omega) only [doubleSlope, evalOps_cons, evalOps_nil, PkaOp.dest, PkaOp.value,
        Function.update_self, Function.update_of_ne, hthree, coefficient, ne_eq, not_true_eq_false,
        if_false, List.append_nil, Nat.cast_zero]
      ring
    · simp (disch := omega) only [doubleSlope, evalOps_cons, evalOps_nil, PkaOp.dest, PkaOp.value,
        Function.update_self, Function.update_of_ne, hthree, hcoeff, coefficient, ne_eq, hA,
        not_false_eq_true, if_true, List.cons_append, List.nil_append]
      ring

/-- The slope leaves the registers of points and constants alone. -/
theorem doubleSlope_apart {A : Option Nat} (hi : i < 9 ∨ 16 ≤ i) :
    i ∉ (doubleSlope src A).map PkaOp.dest := by
  cases A with
  | none =>
    simp [doubleSlope, PkaOp.dest]
    omega
  | some A => by_cases hA : A = 0 <;> simp [doubleSlope, PkaOp.dest, hA] <;> omega

omit [Fact p.Prime] in
theorem double_ok {A : Option Nat} (hdst : 16 ≤ dst) :
    OpsOk p [4, 5, 8, src, src + 1, src + 2] (ecpDoubleSwst A dst src) := by
  cases A with
  | none =>
    simp [ecpDoubleSwst, doubleSlope, doubleRest, OpsOk, PkaOp.Ok, PkaOp.reads, PkaOp.dest]
    omega
  | some A =>
    by_cases hA : A = 0 <;>
      simp [ecpDoubleSwst, doubleSlope, doubleRest, OpsOk, PkaOp.Ok, PkaOp.reads, PkaOp.dest, hA] <;>
      omega

theorem double_holds {A : Option Nat} (hfits : Field.Fits p s prime)
    (hram : Prepared s p prime (A.getD 0 : Nat) ram) (hsrc : 16 ≤ src) (hdst : 16 ≤ dst)
    (hq : HoldsPoint s ram src q) :
    HoldsPoint s (runOps s (ecpDoubleSwst A dst src) ram) dst (q.double (coefficient p A)) := by
  have hlive : ∀ i, i ∈ [4, 5, 8, src, src + 1, src + 2] → ∃ x : ZMod p, Holds s ram i x := by
    simp only [List.mem_cons, List.not_mem_nil, or_false]
    rintro i (rfl | rfl | rfl | rfl | rfl | rfl)
    · exact ⟨_, hram.two⟩
    · exact ⟨_, hram.three⟩
    · exact ⟨_, hram.coeff⟩
    · exact ⟨_, hq.x⟩
    · exact ⟨_, hq.y⟩
    · exact ⟨_, hq.z⟩
  have hrun : ∀ {i x}, i ∈ [dst, dst + 1, dst + 2] →
      evalOps s (ecpDoubleSwst A dst src) (element p s ram) i = x →
      Holds s (runOps s (ecpDoubleSwst A dst src) ram) i x := by
    intro i x hi hx
    refine runOps_element hfits hram.loaded hlive (double_ok hdst) (.inr ?_) hx
    rw [ecpDoubleSwst, List.map_append, List.mem_append]
    right
    simp only [List.mem_cons, List.not_mem_nil, or_false] at hi
    rcases hi with rfl | rfl | rfl <;> simp [doubleRest, PkaOp.dest]
  have hsame : ∀ i, i < 9 ∨ 16 ≤ i →
      evalOps s (doubleSlope src A) (element p s ram) i = element p s ram i :=
    fun i hi => evalOps_of_notMem (doubleSlope_apart hi)
  have hslope := evalOps_doubleSlope (s := s) hsrc (hram.three.element_eq hfits)
    (hram.coeff.element_eq hfits)
  rw [hq.x.element_eq hfits, hq.z.element_eq hfits] at hslope
  have hX := (hsame src (by omega)).trans (hq.x.element_eq hfits)
  have hY := (hsame (src + 1) (by omega)).trans (hq.y.element_eq hfits)
  have hZ := (hsame (src + 2) (by omega)).trans (hq.z.element_eq hfits)
  obtain ⟨hx, hy, hz⟩ := evalOps_doubleRest (s := s) hsrc hdst
    ((hsame 4 (by omega)).trans (hram.two.element_eq hfits))
  simp only [← evalOps_append, hslope, hX, hY, hZ] at hx hy hz
  exact ⟨hrun (by simp) hx, hrun (by simp) hy, hrun (by simp) hz⟩

/-! ## Normalizing -/

theorem evalOps_normalize (hsrc : 16 ≤ src) (hdst : 16 ≤ dst) (hne : src + 1 ≠ dst) :
    evalOps s (ecpNormalizeSwst dst src) f dst = f src / f (src + 2) ^ 2 ∧
      evalOps s (ecpNormalizeSwst dst src) f (dst + 1) = f (src + 1) / f (src + 2) ^ 3 := by
  simp (disch := omega) only [ecpNormalizeSwst, evalOps_cons, evalOps_nil, PkaOp.dest, PkaOp.value,
    Function.update_self, Function.update_of_ne]
  refine ⟨?_, ?_⟩ <;> ring

omit [Fact p.Prime] in
theorem normalize_ok (hdst : 16 ≤ dst) :
    OpsOk p [src, src + 1, src + 2] (ecpNormalizeSwst dst src) := by
  simp [ecpNormalizeSwst, OpsOk, PkaOp.Ok, PkaOp.reads, PkaOp.dest]
  omega

theorem HoldsPoint.exists (h : HoldsPoint s ram src q) :
    ∀ i, i ∈ [src, src + 1, src + 2] → ∃ x : ZMod p, Holds s ram i x := by
  simp only [List.mem_cons, List.not_mem_nil, or_false]
  rintro i (rfl | rfl | rfl)
  · exact ⟨_, h.x⟩
  · exact ⟨_, h.y⟩
  · exact ⟨_, h.z⟩

theorem normalize_holds (hfits : Field.Fits p s prime) (hram : Loaded s p prime ram)
    (hsrc : 16 ≤ src) (hdst : 16 ≤ dst) (hne : src + 1 ≠ dst) (hq : HoldsPoint s ram src q) :
    HoldsAffine s (runOps s (ecpNormalizeSwst dst src) ram) dst (q.x / q.z ^ 2) (q.y / q.z ^ 3) := by
  obtain ⟨hx, hy⟩ := evalOps_normalize (s := s) (f := element p s ram) hsrc hdst hne
  rw [hq.x.element_eq hfits, hq.z.element_eq hfits] at hx
  rw [hq.y.element_eq hfits, hq.z.element_eq hfits] at hy
  constructor
  · exact runOps_element hfits hram hq.exists (normalize_ok hdst)
      (.inr (by simp [ecpNormalizeSwst, PkaOp.dest])) hx
  · exact runOps_element hfits hram hq.exists (normalize_ok hdst)
      (.inr (by simp [ecpNormalizeSwst, PkaOp.dest])) hy

/-! ## Adding -/

variable {src1 src2 : Nat}

theorem evalOps_addDistances (hsrc1 : 16 ≤ src1) (hsrc2 : 16 ≤ src2) :
    evalOps s (addDistances src1 src2) f 9 = f src2 * f (src1 + 2) ^ 2 - f src1 ∧
      evalOps s (addDistances src1 src2) f 10 = f (src2 + 1) * f (src1 + 2) ^ 3 - f (src1 + 1) := by
  simp (disch := omega) only [addDistances, evalOps_cons, evalOps_nil, PkaOp.dest, PkaOp.value,
    Function.update_self, Function.update_of_ne]
  refine ⟨?_, ?_⟩ <;> ring

theorem evalOps_addRest (hsrc1 : 16 ≤ src1) (hdst : 16 ≤ dst) (htwo : f 4 = 2) :
    evalOps s (addRest dst src1) f dst = f 10 ^ 2 - 2 * (f src1 * f 9 ^ 2) - f 9 ^ 3 ∧
      evalOps s (addRest dst src1) f (dst + 1) =
        f 10 * (f src1 * f 9 ^ 2 - (f 10 ^ 2 - 2 * (f src1 * f 9 ^ 2) - f 9 ^ 3)) -
          f (src1 + 1) * f 9 ^ 3 ∧
      evalOps s (addRest dst src1) f (dst + 2) = f (src1 + 2) * f 9 := by
  simp (disch := omega) only [addRest, evalOps_cons, evalOps_nil, PkaOp.dest, PkaOp.value,
    Function.update_self, Function.update_of_ne, htwo, and_true]
  refine ⟨?_, ?_⟩ <;> ring

omit [Fact p.Prime] in
theorem addDistances_ok :
    OpsOk p [src1, src1 + 1, src1 + 2, src2, src2 + 1] (addDistances src1 src2) := by
  simp [addDistances, OpsOk, PkaOp.Ok, PkaOp.reads, PkaOp.dest]

omit [Fact p.Prime] in
theorem addRest_ok (hdst : 16 ≤ dst) :
    OpsOk p [4, 9, 10, src1, src1 + 1, src1 + 2] (addRest dst src1) := by
  simp [addRest, OpsOk, PkaOp.Ok, PkaOp.reads, PkaOp.dest]
  omega

theorem addDistances_apart (hi : i < 9 ∨ 11 ≤ i) : i ∉ (addDistances src1 src2).map PkaOp.dest := by
  simp [addDistances, PkaOp.dest]
  omega

/-- The distances in the registers. -/
theorem distances_hold (hfits : Field.Fits p s prime) (hram : Loaded s p prime ram)
    (hsrc1 : 16 ≤ src1) (hsrc2 : 16 ≤ src2) (hq : HoldsPoint s ram src1 q)
    (hr : HoldsAffine s ram src2 x y) :
    Holds s (runOps s (addDistances src1 src2) ram) 9 (q.dx x) ∧
      Holds s (runOps s (addDistances src1 src2) ram) 10 (q.dy y) := by
  have hlive : ∀ i, i ∈ [src1, src1 + 1, src1 + 2, src2, src2 + 1] → ∃ x : ZMod p, Holds s ram i x := by
    simp only [List.mem_cons, List.not_mem_nil, or_false]
    rintro i (rfl | rfl | rfl | rfl | rfl)
    · exact ⟨_, hq.x⟩
    · exact ⟨_, hq.y⟩
    · exact ⟨_, hq.z⟩
    · exact ⟨_, hr.x⟩
    · exact ⟨_, hr.y⟩
  obtain ⟨hdx, hdy⟩ := evalOps_addDistances (s := s) (f := element p s ram) hsrc1 hsrc2
  rw [hq.x.element_eq hfits, hq.z.element_eq hfits, hr.x.element_eq hfits] at hdx
  rw [hq.y.element_eq hfits, hq.z.element_eq hfits, hr.y.element_eq hfits] at hdy
  constructor
  · exact runOps_element hfits hram hlive addDistances_ok (.inr (by simp [addDistances, PkaOp.dest])) hdx
  · exact runOps_element hfits hram hlive addDistances_ok (.inr (by simp [addDistances, PkaOp.dest])) hdy

/-- The sum of points whose first coordinates differ. -/
theorem addRest_holds {coeff : ZMod p} (hfits : Field.Fits p s prime)
    (hram : Prepared s p prime coeff ram) (hsrc1 : 16 ≤ src1) (hdst : 16 ≤ dst)
    (hq : HoldsPoint s ram src1 q) (hdx : Holds s ram 9 (q.dx x)) (hdy : Holds s ram 10 (q.dy y)) :
    HoldsPoint s (runOps s (addRest dst src1) ram) dst (q.addAffine x y) := by
  have hlive : ∀ i, i ∈ [4, 9, 10, src1, src1 + 1, src1 + 2] → ∃ x : ZMod p, Holds s ram i x := by
    simp only [List.mem_cons, List.not_mem_nil, or_false]
    rintro i (rfl | rfl | rfl | rfl | rfl | rfl)
    · exact ⟨_, hram.two⟩
    · exact ⟨_, hdx⟩
    · exact ⟨_, hdy⟩
    · exact ⟨_, hq.x⟩
    · exact ⟨_, hq.y⟩
    · exact ⟨_, hq.z⟩
  have hrun : ∀ {i x}, i ∈ [dst, dst + 1, dst + 2] →
      evalOps s (addRest dst src1) (element p s ram) i = x →
      Holds s (runOps s (addRest dst src1) ram) i x := by
    intro i x hi hx
    refine runOps_element hfits hram.loaded hlive (addRest_ok hdst) (.inr ?_) hx
    simp only [List.mem_cons, List.not_mem_nil, or_false] at hi
    rcases hi with rfl | rfl | rfl <;> simp [addRest, PkaOp.dest]
  obtain ⟨hx, hy, hz⟩ := evalOps_addRest (s := s) hsrc1 hdst (hram.two.element_eq hfits)
  rw [hq.x.element_eq hfits, hdx.element_eq hfits, hdy.element_eq hfits] at hx
  rw [hq.x.element_eq hfits, hq.y.element_eq hfits, hdx.element_eq hfits, hdy.element_eq hfits] at hy
  rw [hq.z.element_eq hfits, hdx.element_eq hfits] at hz
  exact ⟨hrun (by simp) hx, hrun (by simp) hy, hrun (by simp) hz⟩

theorem addRest_dest (h : 9 ≤ dst) : ∀ op ∈ addRest dst src1, 9 ≤ op.dest := by
  simp [addRest, PkaOp.dest]
  omega

theorem addDistances_kept : Kept s ram (runOps s (addDistances src1 src2) ram) :=
  runOps_kept (by simp [addDistances, PkaOp.dest])

theorem addMixed_kept {A : Option Nat} (h : 9 ≤ dst) :
    Kept s ram (ecpAddMixedSwst A s dst src1 src2 ram).1 := by
  unfold ecpAddMixedSwst
  dsimp only
  split
  · split
    · exact addDistances_kept.trans (runOps_kept (double_dest h))
    · exact addDistances_kept
  · exact addDistances_kept.trans (runOps_kept (addRest_dest h))

/-- Points elsewhere stay in their registers. -/
theorem double_read {A : Option Nat} (hi : 16 ≤ i) (hdst : i < dst ∨ dst + 3 ≤ i) :
    pkaRead (runOps s (ecpDoubleSwst A dst src) ram) ⟨s, i⟩ = pkaRead ram ⟨s, i⟩ := by
  refine runOps_read fun hmem => ?_
  rw [ecpDoubleSwst, List.map_append, List.mem_append] at hmem
  rcases hmem with hslope | hrest
  · exact doubleSlope_apart (.inr hi) hslope
  · simp [doubleRest, PkaOp.dest] at hrest
    omega

theorem addMixed_read {A : Option Nat} (hi : 16 ≤ i) (hdst : i < dst ∨ dst + 3 ≤ i) :
    pkaRead (ecpAddMixedSwst A s dst src1 src2 ram).1 ⟨s, i⟩ = pkaRead ram ⟨s, i⟩ := by
  have hdistances : pkaRead (runOps s (addDistances src1 src2) ram) ⟨s, i⟩ = pkaRead ram ⟨s, i⟩ :=
    runOps_read (addDistances_apart (.inr (by omega)))
  have hrest : pkaRead (runOps s (addRest dst src1) (runOps s (addDistances src1 src2) ram)) ⟨s, i⟩ =
      pkaRead (runOps s (addDistances src1 src2) ram) ⟨s, i⟩ := by
    refine runOps_read ?_
    simp [addRest, PkaOp.dest]
    omega
  unfold ecpAddMixedSwst
  dsimp only
  split
  · split
    · exact (double_read hi hdst).trans hdistances
    · exact hdistances
  · exact hrest.trans hdistances

end

end BouffaloSdk.Ecp
