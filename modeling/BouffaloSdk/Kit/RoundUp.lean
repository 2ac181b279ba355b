import Mathlib.Algebra.Order.Group.Nat

/-!
# Rounding up to a multiple
-/

namespace Kit

/-- The least multiple of `a` from `x` on. -/
def roundUp (x a : ℕ) : ℕ := (x + (a - 1)) / a * a

variable {x y a : ℕ}

theorem dvd_roundUp (x a : ℕ) : a ∣ roundUp x a := Nat.dvd_mul_left a _

theorem le_roundUp (ha : 0 < a) : x ≤ roundUp x a := by
  have hdiv := Nat.div_add_mod (x + (a - 1)) a
  have hmod := Nat.mod_lt (x + (a - 1)) ha
  unfold roundUp
  rw [Nat.mul_comm]
  omega

theorem roundUp_lt (ha : 0 < a) : roundUp x a < x + a := by
  have hle := Nat.div_mul_le_self (x + (a - 1)) a
  unfold roundUp
  omega

theorem roundUp_le (ha : 0 < a) (hxy : x ≤ y) (hy : a ∣ y) : roundUp x a ≤ y := by
  obtain ⟨m, rfl⟩ := hy
  obtain ⟨k, hk⟩ := dvd_roundUp x a
  have hlt := @roundUp_lt x a ha
  rw [hk] at hlt ⊢
  have hstep : a * k < a * (m + 1) := by
    rw [Nat.mul_succ]
    omega
  exact Nat.mul_le_mul_left a (Nat.le_of_lt_succ (Nat.lt_of_mul_lt_mul_left hstep))

theorem roundUp_of_dvd (ha : 0 < a) (hx : a ∣ x) : roundUp x a = x :=
  Nat.le_antisymm (roundUp_le ha (Nat.le_refl x) hx) (le_roundUp ha)

theorem roundUp_of_not_dvd (ha : 0 < a) (hx : ¬ a ∣ x) : roundUp x a = x - x % a + a := by
  have hdiv := Nat.div_add_mod x a
  have hmod := Nat.mod_lt x ha
  have hrem : x % a ≠ 0 := fun h => hx (Nat.dvd_of_mod_eq_zero h)
  have hbase : x - x % a + a = a * (x / a + 1) := by
    rw [Nat.mul_succ]
    omega
  apply Nat.le_antisymm
  · exact roundUp_le ha (by omega) ⟨_, hbase⟩
  · obtain ⟨k, hk⟩ := dvd_roundUp x a
    have hge := @le_roundUp x a ha
    rw [hbase, hk]
    rw [hk] at hge
    have hstep : a * (x / a) < a * k := by omega
    exact Nat.mul_le_mul_left a (Nat.lt_of_mul_lt_mul_left hstep)

end Kit
