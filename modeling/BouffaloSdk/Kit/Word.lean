import Mathlib.Data.Nat.Bitwise

/-!
# Fixed-width arithmetic on natural numbers

Machine words are naturals below a power of two. The operations wrap as the
hardware does; the lemmas say when they agree with the plain ones.
-/

namespace Kit.Word

/-- `a + b` on 32-bit words. -/
@[irreducible] def add32 (a b : ℕ) : ℕ := (a + b) % 2 ^ 32

/-- `a - b` on 32-bit words. Without a sum that exceeds the modulus, so that
the kernel never counts down from it. -/
@[irreducible] def sub32 (a b : ℕ) : ℕ :=
  if b ≤ a then (a - b) % 2 ^ 32 else (2 ^ 32 - (b - a) % 2 ^ 32) % 2 ^ 32

/-- `a * b` on 32-bit words. -/
@[irreducible] def mul32 (a b : ℕ) : ℕ := a * b % 2 ^ 32

/-- `a + b` on 16-bit words. -/
@[irreducible] def add16 (a b : ℕ) : ℕ := (a + b) % 2 ^ 16

/-- `a - b` on 16-bit words. -/
@[irreducible] def sub16 (a b : ℕ) : ℕ :=
  if b ≤ a then (a - b) % 2 ^ 16 else (2 ^ 16 - (b - a) % 2 ^ 16) % 2 ^ 16

/-- A 32-bit word read as a signed one. -/
@[irreducible] def int32 (n : ℕ) : ℤ := if n % 2 ^ 32 < 2 ^ 31 then n % 2 ^ 32 else n % 2 ^ 32 - 2 ^ 32

theorem int32_eq {n : ℕ} (h : n < 2 ^ 31) : int32 n = n := by
  unfold int32
  have hmod : n % 2 ^ 32 = n := Nat.mod_eq_of_lt (by omega)
  have hsame : (n : ℤ) % 2 ^ 32 = n := by exact_mod_cast hmod
  rw [hmod, if_pos h, hsame]

theorem add16_eq {a b : ℕ} (h : a + b < 2 ^ 16) : add16 a b = a + b := by
  unfold add16
  exact Nat.mod_eq_of_lt h

theorem sub16_eq {a b : ℕ} (hb : b ≤ a) (ha : a < 2 ^ 16) : sub16 a b = a - b := by
  unfold sub16
  rw [if_pos hb, Nat.mod_eq_of_lt (by omega)]

theorem add32_eq {a b : ℕ} (h : a + b < 2 ^ 32) : add32 a b = a + b := by
  unfold add32
  exact Nat.mod_eq_of_lt h

theorem mul32_eq {a b : ℕ} (h : a * b < 2 ^ 32) : mul32 a b = a * b := by
  unfold mul32
  exact Nat.mod_eq_of_lt h

theorem add32_mod_left (a b : ℕ) : add32 (a % 2 ^ 32) b = add32 a b := by
  unfold add32
  rw [Nat.mod_add_mod]

theorem add32_mod_right (a b : ℕ) : add32 a (b % 2 ^ 32) = add32 a b := by
  unfold add32
  rw [Nat.add_mod_mod]

theorem add32_add32 (a b c : ℕ) : add32 a (add32 b c) = add32 a (b + c) := by
  conv_lhs => arg 2; unfold add32
  exact add32_mod_right a (b + c)

theorem add32_mul32 (a b c : ℕ) : add32 a (mul32 b c) = add32 a (b * c) := by
  unfold mul32
  exact add32_mod_right a (b * c)

theorem mul32_mod_left (a b : ℕ) : mul32 (a % 2 ^ 32) b = mul32 a b := by
  unfold mul32
  rw [Nat.mod_mul_mod]

theorem mul32_add32 (a b c : ℕ) : mul32 (add32 a b) c = mul32 (a + b) c := by
  conv_lhs => arg 1; unfold add32
  exact mul32_mod_left (a + b) c

theorem mod32_of_add32 (a b : ℕ) : add32 a b % 2 ^ 32 = add32 a b := by
  unfold add32
  rw [Nat.mod_mod]

theorem add32_assoc (a b c : ℕ) : add32 (add32 a b) c = add32 a (b + c) := by
  unfold add32
  rw [Nat.mod_add_mod, Nat.add_assoc]

theorem add32_comm (a b : ℕ) : add32 a b = add32 b a := by
  unfold add32
  rw [Nat.add_comm]

theorem sub32_eq {a b : ℕ} (hb : b ≤ a) (ha : a < 2 ^ 32) : sub32 a b = a - b := by
  unfold sub32
  rw [if_pos hb, Nat.mod_eq_of_lt (by omega)]

end Kit.Word
