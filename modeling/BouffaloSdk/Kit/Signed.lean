import Mathlib.Algebra.Order.Ring.Nat

/-!
# Signed words as integers

What a conversion between words gives, as an integer, and when it gives the integer it was
meant for.
-/

namespace Kit.Signed

/-- The integers of 32 bits. -/
def InInt32 (x : ℤ) : Prop := -2 ^ 31 ≤ x ∧ x < 2 ^ 31

theorem bmod32_eq_iff (x : ℤ) : x.bmod (2 ^ 32) = x ↔ InInt32 x := by
  rw [InInt32, Int.bmod_eq_emod]
  split <;> omega

theorem bmod64_eq {x : ℤ} (hlo : -2 ^ 63 ≤ x) (hhi : x < 2 ^ 63) : x.bmod (2 ^ 64) = x := by
  rw [Int.bmod_eq_emod]
  split <;> omega

theorem toInt_toInt64 {u : UInt64} (h : u.toNat < 2 ^ 63) : u.toInt64.toInt = u.toNat := by
  have hbmod : u.toInt64.toInt = (u.toNat : ℤ).bmod (2 ^ 64) := BitVec.toInt_eq_toNat_bmod u.toBitVec
  rw [hbmod, bmod64_eq (by omega) (by omega)]

theorem toNat_toUInt64 (x : Int64) : (x.toUInt64.toNat : ℤ) = x.toInt % 2 ^ 64 := by
  have hlt := x.toBitVec.isLt
  change (x.toBitVec.toNat : ℤ) = x.toBitVec.toInt % _
  rw [BitVec.toInt_eq_toNat_cond]
  split <;> omega

theorem toNat_toUInt32 (x : Int32) : (x.toUInt32.toNat : ℤ) = x.toInt % 2 ^ 32 := by
  have hlt := x.toBitVec.isLt
  change (x.toBitVec.toNat : ℤ) = x.toBitVec.toInt % _
  rw [BitVec.toInt_eq_toNat_cond]
  split <;> omega

/-- A quotient that is cut off towards zero, for either sign. -/
theorem tdiv_million (a : ℤ) :
    a.tdiv 1000000 = if 0 ≤ a then a / 1000000 else -(-a / 1000000) := by
  by_cases h : 0 ≤ a
  · rw [if_pos h, Int.tdiv_eq_ediv_of_nonneg h]
  · rw [if_neg h, ← Int.tdiv_eq_ediv_of_nonneg (by omega), Int.neg_tdiv, Int.neg_neg]

/-- Two parts that are cut off one by one are a unit more than their sum at most. -/
theorem tdiv_add_le (a b : ℤ) :
    a.tdiv 1000000 + b.tdiv 1000000 ≤ (a + b).tdiv 1000000 + 1 := by
  rw [tdiv_million, tdiv_million, tdiv_million]
  split <;> split <;> split <;> omega

end Kit.Signed
