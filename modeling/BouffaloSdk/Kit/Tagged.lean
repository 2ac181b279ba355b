import Mathlib.Data.Nat.Bitwise

/-!
# Words with tags in their low bits

A multiple of a power of two leaves the bits below it free. What is done to the tags does
nothing to the multiple, and the other way round.
-/

namespace Kit.Tagged

variable {i a b r q : ℕ}

theorem testBit_tagged (hr : r < 2 ^ i) (j : ℕ) :
    (2 ^ i * a + r).testBit j = if j < i then r.testBit j else a.testBit (j - i) :=
  Nat.testBit_two_pow_mul_add a hr j

/-- The two parts of a conjunction. -/
theorem and_tagged (hr : r < 2 ^ i) (hq : q < 2 ^ i) :
    (2 ^ i * a + r) &&& (2 ^ i * b + q) = 2 ^ i * (a &&& b) + (r &&& q) := by
  apply Nat.eq_of_testBit_eq
  intro j
  rw [Nat.testBit_and, testBit_tagged hr, testBit_tagged hq, testBit_tagged (Nat.and_lt_two_pow _ hq)]
  split <;> rw [Nat.testBit_and]

theorem or_tagged (hr : r < 2 ^ i) (hq : q < 2 ^ i) :
    (2 ^ i * a + r) ||| (2 ^ i * b + q) = 2 ^ i * (a ||| b) + (r ||| q) := by
  apply Nat.eq_of_testBit_eq
  intro j
  rw [Nat.testBit_or, testBit_tagged hr, testBit_tagged hq, testBit_tagged (Nat.or_lt_two_pow hr hq)]
  split <;> rw [Nat.testBit_or]

/-- A mask that is all ones above the tags leaves the multiple. -/
theorem and_mask {n : ℕ} (ha : a < 2 ^ n) (hr : r < 2 ^ i) (hq : q < 2 ^ i) :
    (2 ^ i * a + r) &&& (2 ^ i * (2 ^ n - 1) + q) = 2 ^ i * a + (r &&& q) := by
  rw [and_tagged hr hq, Nat.and_two_pow_sub_one_eq_mod, Nat.mod_eq_of_lt ha]

/-- A mask of tags leaves nothing of the multiple. -/
theorem and_tag (hr : r < 2 ^ i) (hq : q < 2 ^ i) : (2 ^ i * a + r) &&& q = r &&& q := by
  have h := and_tagged (a := a) (b := 0) hr hq
  rwa [Nat.mul_zero, Nat.zero_add, Nat.and_zero, Nat.mul_zero, Nat.zero_add] at h

/-- Tags that are added. -/
theorem or_tag (hr : r < 2 ^ i) (hq : q < 2 ^ i) :
    (2 ^ i * a + r) ||| q = 2 ^ i * a + (r ||| q) := by
  have h := or_tagged (a := a) (b := 0) hr hq
  rwa [Nat.mul_zero, Nat.zero_add, Nat.or_zero] at h

end Kit.Tagged
