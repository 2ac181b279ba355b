import Mathlib.AlgebraicGeometry.EllipticCurve.Affine.Point
import Mathlib.Tactic.FieldSimp
import Mathlib.Tactic.LinearCombination

/-!
# Points of a short Weierstrass curve in Jacobian coordinates

The doubling and the addition of an affine point, which are right wherever they are not
asked for the point at infinity.
-/

namespace Kit.ShortWeierstrass

open WeierstrassCurve.Affine

variable {F : Type*} [Field F]

/-- `y² = x³ + a x + b`. -/
def curve (a b : F) : WeierstrassCurve F := ⟨0, 0, 0, a, b⟩

/-- The point `(x / z², y / z³)`. -/
structure Jacobian (F : Type*) where
  x : F
  y : F
  z : F

/-- Twice a point. -/
def Jacobian.double (a : F) (p : Jacobian F) : Jacobian F :=
  let m := 3 * p.x ^ 2 + a * p.z ^ 4
  let s := 4 * p.x * p.y ^ 2
  let x := m ^ 2 - 2 * s
  ⟨x, m * (s - x) - 8 * p.y ^ 4, 2 * p.y * p.z⟩

/-- How far the affine point `(x, y)` is from `p`, in each coordinate. -/
def Jacobian.dx (p : Jacobian F) (x : F) : F := x * p.z ^ 2 - p.x

def Jacobian.dy (p : Jacobian F) (y : F) : F := y * p.z ^ 3 - p.y

/-- The sum with the affine point `(x, y)`. -/
def Jacobian.addAffine (p : Jacobian F) (x y : F) : Jacobian F :=
  let h := p.dx x
  let r := p.dy y
  let x' := r ^ 2 - 2 * (p.x * h ^ 2) - h ^ 3
  ⟨x', r * (p.x * h ^ 2 - x') - p.y * h ^ 3, p.z * h⟩

variable {a b x y x' y' : F} {p : Jacobian F} {q r : (curve a b).toAffine.Point}

/-- `q` has the coordinates `(x, y)`. -/
def HasCoords (q : (curve a b).toAffine.Point) (x y : F) : Prop :=
  ∃ h : (curve a b).toAffine.Nonsingular x y, q = .some x y h

theorem HasCoords.unique (h : HasCoords q x y) (h' : HasCoords q x' y') : x = x' ∧ y = y' := by
  obtain ⟨hxy, rfl⟩ := h
  obtain ⟨hxy', heq⟩ := h'
  exact Point.some.inj heq

theorem HasCoords.congr (h : HasCoords q x y) (h' : HasCoords r x y) : q = r := by
  obtain ⟨hxy, rfl⟩ := h
  obtain ⟨hxy', rfl⟩ := h'
  rfl

theorem HasCoords.ne_zero (h : HasCoords q x y) : q ≠ 0 := by
  obtain ⟨hxy, rfl⟩ := h
  exact Point.some_ne_zero hxy

theorem negY_eq (x y : F) : (curve a b).toAffine.negY x y = -y := by
  simp [negY, curve]

theorem HasCoords.neg (h : HasCoords q x y) : HasCoords (-q) x (-y) := by
  obtain ⟨hxy, rfl⟩ := h
  rw [Point.neg_some, ← negY_eq (a := a) (b := b) x y]
  exact ⟨_, rfl⟩

/-- The triple stands for the affine point `q`. -/
structure Represents (q : (curve a b).toAffine.Point) (p : Jacobian F) : Prop where
  nonzero : p.z ≠ 0
  coords : HasCoords q (p.x / p.z ^ 2) (p.y / p.z ^ 3)

theorem represents_affine (h : HasCoords q x y) : Represents q ⟨x, y, 1⟩ := by
  refine ⟨one_ne_zero, ?_⟩
  simpa using h

/-- No distance in either coordinate: the same point. -/
theorem Represents.eq_of_dx_dy (h : Represents q p) (h' : HasCoords r x y) (hx : p.dx x = 0)
    (hy : p.dy y = 0) : q = r := by
  have hz := h.nonzero
  have hxe : p.x / p.z ^ 2 = x := by
    rw [div_eq_iff (pow_ne_zero 2 hz)]
    exact (sub_eq_zero.mp hx).symm
  have hye : p.y / p.z ^ 3 = y := by
    rw [div_eq_iff (pow_ne_zero 3 hz)]
    exact (sub_eq_zero.mp hy).symm
  have hcoords := h.coords
  rw [hxe, hye] at hcoords
  exact hcoords.congr h'

variable [DecidableEq F]

/-- A point whose double is not infinity has a second coordinate. -/
theorem Represents.y_ne_zero (h : Represents q p) (hq : q + q ≠ 0) : p.y ≠ 0 := by
  intro hy
  obtain ⟨hxy, rfl⟩ := h.coords
  refine hq (Point.add_self_of_Y_eq ?_)
  rw [negY_eq, hy, zero_div, neg_zero]

theorem Represents.double (htwo : (2 : F) ≠ 0) (h : Represents q p) (hq : q + q ≠ 0) :
    Represents (q + q) (p.double a) := by
  have hy := h.y_ne_zero hq
  have hz := h.nonzero
  obtain ⟨hxy, rfl⟩ := h.coords
  have hne : p.y / p.z ^ 3 ≠ (curve a b).toAffine.negY (p.x / p.z ^ 2) (p.y / p.z ^ 3) := by
    rw [negY_eq]
    intro heq
    refine mul_ne_zero htwo (div_ne_zero hy (pow_ne_zero 3 hz)) ?_
    linear_combination heq
  refine ⟨mul_ne_zero (mul_ne_zero htwo hy) hz, ?_⟩
  rw [Point.add_self_of_Y_ne hne]
  have hslope : (curve a b).toAffine.slope (p.x / p.z ^ 2) (p.x / p.z ^ 2) (p.y / p.z ^ 3)
      (p.y / p.z ^ 3) = (3 * p.x ^ 2 + a * p.z ^ 4) / (2 * p.y * p.z) := by
    have htwice : p.y / p.z ^ 3 - -(p.y / p.z ^ 3) = 2 * (p.y / p.z ^ 3) := by ring
    rw [slope_of_Y_ne rfl hne, negY_eq, htwice]
    simp only [curve]
    field_simp
    ring
  have hX : (p.double a).x / (p.double a).z ^ 2 = (curve a b).toAffine.addX (p.x / p.z ^ 2)
      (p.x / p.z ^ 2) ((3 * p.x ^ 2 + a * p.z ^ 4) / (2 * p.y * p.z)) := by
    simp only [addX, curve, Jacobian.double]
    field_simp
    ring
  have hY : (p.double a).y / (p.double a).z ^ 3 = (curve a b).toAffine.addY (p.x / p.z ^ 2)
      (p.x / p.z ^ 2) (p.y / p.z ^ 3) ((3 * p.x ^ 2 + a * p.z ^ 4) / (2 * p.y * p.z)) := by
    simp only [addY, negAddY, addX, negY, curve, Jacobian.double]
    field_simp
    ring
  rw [hX, hY, ← hslope]
  exact ⟨_, rfl⟩

/-- Twice an affine point, without a division. -/
theorem HasCoords.double (x' y' : F) (htwo : (2 : F) ≠ 0) (h : HasCoords q x y) (hy : y ≠ 0)
    (hx' : x' * (2 * y) ^ 2 = (3 * x ^ 2 + a) ^ 2 - 2 * (4 * x * y ^ 2))
    (hy' : y' * (2 * y) ^ 3 = (3 * x ^ 2 + a) * (4 * x * y ^ 2 - x' * (2 * y) ^ 2) - 8 * y ^ 4) :
    HasCoords (q + q) x' y' := by
  have hz : 2 * y ≠ 0 := mul_ne_zero htwo hy
  have hne : q + q ≠ 0 := by
    intro hzero
    have hneg := h.neg
    rw [← eq_neg_of_add_eq_zero_left hzero] at hneg
    refine hz ?_
    linear_combination (h.unique hneg).2
  have hdouble := ((represents_affine h).double htwo hne).coords
  have hX : (Jacobian.double a ⟨x, y, 1⟩).x / (Jacobian.double a ⟨x, y, 1⟩).z ^ 2 = x' := by
    simp only [Jacobian.double, mul_one, one_pow]
    rw [div_eq_iff (pow_ne_zero 2 hz)]
    exact hx'.symm
  have hY : (Jacobian.double a ⟨x, y, 1⟩).y / (Jacobian.double a ⟨x, y, 1⟩).z ^ 3 = y' := by
    simp only [Jacobian.double, mul_one, one_pow]
    rw [div_eq_iff (pow_ne_zero 3 hz), hy', hx']
  rwa [hX, hY] at hdouble

/-- A distance in the second coordinate alone: opposite points. -/
theorem Represents.add_eq_zero (h : Represents q p) (h' : HasCoords r x y) (hx : p.dx x = 0)
    (hy : p.dy y ≠ 0) : q + r = 0 := by
  have hz := h.nonzero
  have hxe : p.x / p.z ^ 2 = x := by
    rw [div_eq_iff (pow_ne_zero 2 hz)]
    exact (sub_eq_zero.mp hx).symm
  obtain ⟨hxy, rfl⟩ := h.coords
  obtain ⟨hxy', rfl⟩ := h'
  rcases Point.X_eq_iff.mp hxe with hsame | hopposite
  · refine absurd ?_ hy
    have hye : p.y / p.z ^ 3 = y := (Point.some.inj hsame).2
    rw [Jacobian.dy, ← hye, div_mul_cancel₀ _ (pow_ne_zero 3 hz), sub_self]
  · rw [hopposite, neg_add_cancel]

theorem Represents.addAffine (h : Represents q p) (h' : HasCoords r x y) (hx : p.dx x ≠ 0) :
    Represents (q + r) (p.addAffine x y) := by
  have hz := h.nonzero
  obtain ⟨hxy, rfl⟩ := h.coords
  obtain ⟨hxy', rfl⟩ := h'
  have hne : p.x / p.z ^ 2 ≠ x := by
    intro heq
    refine hx ?_
    rw [Jacobian.dx, ← heq, div_mul_cancel₀ _ (pow_ne_zero 2 hz), sub_self]
  refine ⟨mul_ne_zero hz hx, ?_⟩
  rw [Point.add_of_X_ne hne]
  have hslope : (curve a b).toAffine.slope (p.x / p.z ^ 2) x (p.y / p.z ^ 3) y =
      p.dy y / (p.z * p.dx x) := by
    rw [slope_of_X_ne hne, div_eq_div_iff (sub_ne_zero.mpr hne) (mul_ne_zero hz hx)]
    simp only [Jacobian.dx, Jacobian.dy]
    field_simp
    ring
  have hxval : x = (p.dx x + p.x) / p.z ^ 2 := by
    rw [eq_div_iff (pow_ne_zero 2 hz), Jacobian.dx]
    ring
  have hX : (p.addAffine x y).x / (p.addAffine x y).z ^ 2 = (curve a b).toAffine.addX (p.x / p.z ^ 2)
      x (p.dy y / (p.z * p.dx x)) := by
    simp only [addX, curve, Jacobian.addAffine]
    generalize p.dx x = h at *
    rw [hxval]
    field_simp
    ring
  have hY : (p.addAffine x y).y / (p.addAffine x y).z ^ 3 = (curve a b).toAffine.addY (p.x / p.z ^ 2)
      x (p.y / p.z ^ 3) (p.dy y / (p.z * p.dx x)) := by
    simp only [addY, negAddY, addX, negY, curve, Jacobian.addAffine]
    generalize p.dx x = h at *
    rw [hxval]
    field_simp
    ring
  rw [hX, hY, ← hslope]
  exact ⟨_, rfl⟩

end Kit.ShortWeierstrass
