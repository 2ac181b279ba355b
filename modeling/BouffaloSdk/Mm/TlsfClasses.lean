import BouffaloSdk.Kit.RoundUp
import BouffaloSdk.Kit.Tagged
import BouffaloSdk.Mm.Tlsf
import Mathlib.Algebra.Order.Ring.Nat

/-!
# Size classes

A class is the sizes from one bound to the next. A free block is kept in the class
its size is in, and a request asks for the first class that has no block too small
for it.
-/

namespace BouffaloSdk.Mm

open Tlsf

variable {size k x fl sl : ℕ}

/-! ## Rounding -/

theorem alignUp_eq (hk : k ≤ 32) (hx : x + (2 ^ k - 1) < 2 ^ 32) :
    alignUp x (2 ^ k) = Kit.roundUp x (2 ^ k) := by
  have hpow : 2 ^ k * 2 ^ (32 - k) = 2 ^ 32 := by rw [← Nat.pow_add, Nat.add_sub_cancel' hk]
  have hpos : 0 < 2 ^ k := Nat.two_pow_pos k
  have hmask : 2 ^ 32 - 1 - (2 ^ k - 1) = 2 ^ k * (2 ^ (32 - k) - 1) + 0 := by
    rw [Nat.mul_sub, hpow]
    omega
  have hdiv : (x + (2 ^ k - 1)) / 2 ^ k < 2 ^ (32 - k) := by
    rw [Nat.div_lt_iff_lt_mul hpos, Nat.mul_comm, hpow]
    exact hx
  rw [alignUp, add32, Nat.mod_eq_of_lt hx, hmask]
  nth_rewrite 1 [← Nat.div_add_mod (x + (2 ^ k - 1)) (2 ^ k)]
  rw [Kit.Tagged.and_mask hdiv (Nat.mod_lt _ hpos) hpos, Nat.and_zero, Nat.add_zero, Nat.mul_comm]
  rfl

theorem alignDown_eq : alignDown x (2 ^ k) = x - x % 2 ^ k := by
  rw [alignDown, Nat.and_two_pow_sub_one_eq_mod]

theorem adjustRequestSize_eq (hk : k ≤ 31) (hsize : size < 2 ^ 32) :
    adjustRequestSize size (2 ^ k) =
      if 0 < size ∧ Kit.roundUp size (2 ^ k) < 2 ^ 30 then max (Kit.roundUp size (2 ^ k)) 12
      else 0 := by
  have hpos : 0 < 2 ^ k := Nat.two_pow_pos k
  have hle : 2 ^ k ≤ 2 ^ 31 := Nat.pow_le_pow_right (by decide) hk
  have hround : size ≤ Kit.roundUp size (2 ^ k) := Kit.le_roundUp hpos
  unfold adjustRequestSize
  by_cases hwrap : 2 ^ 32 - 1 - size < 2 ^ k
  · rw [if_pos hwrap, if_neg]
    rintro ⟨-, hlt⟩
    omega
  · rw [if_neg hwrap, alignUp_eq (by omega) (by omega)]
    by_cases hzero : size = 0
    · simp [hzero]
    · have hsize' : 0 < size := Nat.pos_of_ne_zero hzero
      simp only [hzero, hsize', ne_eq, not_false_eq_true, ↓reduceIte, true_and]
      rfl

/-- A size that a block is asked for. -/
structure RequestSize (size : ℕ) : Prop where
  aligned : 4 ∣ size
  min : 12 ≤ size
  max : size < 2 ^ 30

theorem adjustRequestSize_spec (hsize : size < 2 ^ 32) (hne : adjustRequestSize size 4 ≠ 0) :
    RequestSize (adjustRequestSize size 4) ∧ size ≤ adjustRequestSize size 4 ∧ 0 < size ∧
      size ≤ 2 ^ 30 - 4 := by
  have heq := adjustRequestSize_eq (k := 2) (by decide) hsize
  have hle : size ≤ Kit.roundUp size (2 ^ 2) := Kit.le_roundUp (by decide)
  have hdvd := Kit.dvd_roundUp size (2 ^ 2)
  change adjustRequestSize size 4 = _ at heq
  split at heq
  · next hcond =>
    have hdvd' : 4 ∣ max (Kit.roundUp size (2 ^ 2)) 12 := by
      cases Nat.le_total (Kit.roundUp size (2 ^ 2)) 12 with
      | inl hsmall => exact (Nat.max_eq_right hsmall).symm ▸ (by decide)
      | inr hlarge => exact (Nat.max_eq_left hlarge).symm ▸ hdvd
    rw [heq]
    exact ⟨⟨hdvd', by omega, by omega⟩, by omega, hcond.1, by omega⟩
  · exact absurd heq hne

theorem adjustRequestSize_pos_iff (hsize : size < 2 ^ 32) :
    adjustRequestSize size 4 ≠ 0 ↔ 0 < size ∧ size ≤ 2 ^ 30 - 4 := by
  constructor
  · exact fun hne => (adjustRequestSize_spec hsize hne).2.2
  · rintro ⟨hpos, hle⟩
    have hround : Kit.roundUp size (2 ^ 2) ≤ 2 ^ 30 - 4 :=
      Kit.roundUp_le (by decide) hle (by decide)
    have heq := adjustRequestSize_eq (k := 2) (by decide) hsize
    rw [if_pos ⟨hpos, by omega⟩] at heq
    change adjustRequestSize size 4 = _ at heq
    omega

/-! ## Classes -/

/-- The least size of a class. -/
def classMin (fl sl : ℕ) : ℕ := if fl = 0 then 4 * sl else (32 + sl) * 2 ^ (fl + 1)

theorem mappingInsert_small (h : size < 128) : mappingInsert size = (0, size / 4) := if_pos h

theorem xor_slIndexCount : ∀ y < 64, 32 ≤ y → y ^^^ (1 <<< slIndexCountLog2) = y - 32 := by
  decide

theorem log2_bounds (h : 128 ≤ size) :
    7 ≤ size.log2 ∧ 32 * 2 ^ (size.log2 - 5) ≤ size ∧ size < 64 * 2 ^ (size.log2 - 5) := by
  have hlog : 7 ≤ size.log2 := (Nat.le_log2 (by omega)).mpr h
  have hlow := Nat.log2_self_le (n := size) (by omega)
  have hhigh := Nat.lt_log2_self (n := size)
  have hsplit : 2 ^ size.log2 = 32 * 2 ^ (size.log2 - 5) := by
    rw [show 32 = 2 ^ 5 from rfl, ← Nat.pow_add, Nat.add_sub_cancel' (by omega)]
  rw [Nat.pow_succ, hsplit] at hhigh
  omega

theorem mappingInsert_large (h : 128 ≤ size) :
    mappingInsert size = (size.log2 - 6, size / 2 ^ (size.log2 - 5) - 32) := by
  obtain ⟨-, hlow, hhigh⟩ := log2_bounds h
  have hpos := Nat.two_pow_pos (size.log2 - 5)
  have hge : 32 ≤ size / 2 ^ (size.log2 - 5) := (Nat.le_div_iff_mul_le hpos).mpr hlow
  have hlt : size / 2 ^ (size.log2 - 5) < 64 := (Nat.div_lt_iff_lt_mul hpos).mpr hhigh
  rw [mappingInsert, if_neg (by simp only [smallBlockSize]; omega)]
  simp only [tlsfFls, flIndexShift]
  rw [Nat.shiftRight_eq_div_pow]
  exact congrArg _ (xor_slIndexCount _ hlt hge)

theorem mappingInsert_sl_lt (size : ℕ) : (mappingInsert size).2 < 32 := by
  by_cases h : size < 128
  · rw [mappingInsert_small h]
    simp only
    omega
  · have hlarge : 128 ≤ size := by omega
    obtain ⟨-, -, hhigh⟩ := log2_bounds hlarge
    have hlt : size / 2 ^ (size.log2 - 5) < 64 :=
      (Nat.div_lt_iff_lt_mul (Nat.two_pow_pos _)).mpr hhigh
    rw [mappingInsert_large hlarge]
    simp only
    omega

theorem mappingInsert_fl_lt_iff : (mappingInsert size).1 < 24 ↔ size < 2 ^ 30 := by
  by_cases h : size < 128
  · rw [mappingInsert_small h]
    exact iff_of_true (by simp) (by omega)
  · have hlog : size.log2 < 30 ↔ size < 2 ^ 30 := Nat.log2_lt (by omega)
    have hmin := (log2_bounds (show 128 ≤ size by omega)).1
    rw [mappingInsert_large (by omega), ← hlog]
    simp only
    omega

/-- The first index decides between sizes of its own power of two and others. -/
theorem classMin_bounds (hfl : 0 < fl) (hsl : sl < 32) :
    2 ^ (fl + 6) ≤ classMin fl sl ∧ classMin fl sl < 2 ^ (fl + 7) := by
  have hpos := Nat.two_pow_pos (fl + 1)
  have h₁ : 2 ^ (fl + 6) = 32 * 2 ^ (fl + 1) := by
    rw [show 32 = 2 ^ 5 from rfl, ← Nat.pow_add]
    congr 1
    omega
  have h₂ : 2 ^ (fl + 7) = 64 * 2 ^ (fl + 1) := by
    rw [show 64 = 2 ^ 6 from rfl, ← Nat.pow_add]
    congr 1
    omega
  rw [classMin, if_neg (by omega), h₁, h₂]
  exact ⟨Nat.mul_le_mul_right _ (by omega), Nat.mul_lt_mul_of_pos_right (by omega) hpos⟩

/-- The classes from one on are those of the sizes from its least on. -/
theorem mapping_le_iff (hsl : sl < 32) :
    (fl < (mappingInsert size).1 ∨ fl = (mappingInsert size).1 ∧ sl ≤ (mappingInsert size).2) ↔
      classMin fl sl ≤ size := by
  have h128 : fl ≠ 0 → 128 ≤ classMin fl sl := by
    intro hfl
    have hbound := (classMin_bounds (Nat.pos_of_ne_zero hfl) hsl).1
    have hpow : 2 ^ 7 ≤ 2 ^ (fl + 6) := Nat.pow_le_pow_right (by decide) (by omega)
    omega
  have hsmall : fl = 0 → classMin fl sl = 4 * sl := fun hfl => if_pos hfl
  by_cases h : size < 128
  · rw [mappingInsert_small h]
    simp only
    omega
  · have hlarge : 128 ≤ size := by omega
    obtain ⟨hlog, hlow, hhigh⟩ := log2_bounds hlarge
    rw [mappingInsert_large hlarge]
    simp only
    by_cases hfl : fl = 0
    · have := hsmall hfl
      omega
    have hbounds := classMin_bounds (Nat.pos_of_ne_zero hfl) hsl
    have hself := Nat.log2_self_le (n := size) (by omega)
    have hnext := Nat.lt_log2_self (n := size)
    rcases Nat.lt_trichotomy fl (size.log2 - 6) with hlt | heq | hgt
    · have hpow : 2 ^ (fl + 7) ≤ 2 ^ size.log2 := Nat.pow_le_pow_right (by decide) (by omega)
      omega
    · have hmin : classMin fl sl = (32 + sl) * 2 ^ (size.log2 - 5) := by
        rw [classMin, if_neg hfl, heq]
        congr 2
        omega
      have hpos := Nat.two_pow_pos (size.log2 - 5)
      have hge : 32 ≤ size / 2 ^ (size.log2 - 5) := (Nat.le_div_iff_mul_le hpos).mpr hlow
      have hdiv := Nat.le_div_iff_mul_le (x := 32 + sl) (y := size) hpos
      omega
    · have hpow : 2 ^ (size.log2 + 1) ≤ 2 ^ (fl + 6) := Nat.pow_le_pow_right (by decide) (by omega)
      omega

theorem classMin_mappingInsert_le (size : ℕ) :
    classMin (mappingInsert size).1 (mappingInsert size).2 ≤ size :=
  (mapping_le_iff (mappingInsert_sl_lt size)).mp (.inr ⟨rfl, Nat.le_refl _⟩)

/-- What is added to a request before its class is looked up. -/
def searchRound (size : ℕ) : ℕ := if 128 ≤ size then 2 ^ (size.log2 - 5) - 1 else 0

theorem searchRound_le (size : ℕ) : 32 * searchRound size ≤ size := by
  unfold searchRound
  split
  · next h =>
    have hlow := (log2_bounds h).2.1
    omega
  · exact Nat.zero_le size

theorem mappingSearch_eq (hmax : size < 2 ^ 30) :
    mappingSearch size = mappingInsert (size + searchRound size) := by
  have hround := searchRound_le size
  unfold mappingSearch searchRound at *
  simp only [smallBlockSize, ge_iff_le, tlsfFls, slIndexCountLog2, Nat.one_shiftLeft] at *
  split
  · next h =>
    rw [if_pos h] at hround
    rw [add32, Nat.mod_eq_of_lt (by omega)]
  · rfl

/-- The class that is asked for has no smaller block, and is the first such class but for less
than one part in 32. -/
theorem le_classMin_mappingSearch (hmax : size < 2 ^ 30) (hdvd : 4 ∣ size) :
    size ≤ classMin (mappingSearch size).1 (mappingSearch size).2 := by
  rw [mappingSearch_eq hmax]
  by_cases h : size < 128
  · rw [searchRound, if_neg (by omega), Nat.add_zero, mappingInsert_small h]
    simp only [classMin, ↓reduceIte]
    omega
  · have hlarge : 128 ≤ size := by omega
    obtain ⟨hlog, hlow, hhigh⟩ := log2_bounds hlarge
    rw [searchRound, if_pos hlarge]
    have hpos := Nat.two_pow_pos (size.log2 - 5)
    generalize hround : size + (2 ^ (size.log2 - 5) - 1) = round
    obtain ⟨-, hlow', hhigh'⟩ := log2_bounds (show 128 ≤ round by omega)
    have hpos' := Nat.two_pow_pos (round.log2 - 5)
    have hlog' : size.log2 ≤ round.log2 := by
      apply (Nat.le_log2 (by omega)).mpr
      exact (Nat.log2_self_le (by omega)).trans (by omega)
    have hge : 32 ≤ round / 2 ^ (round.log2 - 5) := (Nat.le_div_iff_mul_le hpos').mpr hlow'
    have hmin : classMin (round.log2 - 6) (round / 2 ^ (round.log2 - 5) - 32) =
        round / 2 ^ (round.log2 - 5) * 2 ^ (round.log2 - 5) := by
      rw [classMin, if_neg (by omega), Nat.add_sub_cancel' hge]
      congr 2
      omega
    rw [mappingInsert_large (by omega)]
    simp only
    rw [hmin]
    cases Nat.eq_or_lt_of_le hlog' with
    | inl heq =>
      have hdiv := Nat.div_add_mod' round (2 ^ (round.log2 - 5))
      have hmod := Nat.mod_lt round hpos'
      rw [heq] at hround
      omega
    | inr hlt =>
      have hnext := Nat.lt_log2_self (n := size)
      have hpow : 2 ^ (size.log2 + 1) ≤ 2 ^ round.log2 := Nat.pow_le_pow_right (by decide) hlt
      have hsplit : 2 ^ round.log2 = 32 * 2 ^ (round.log2 - 5) := by
        rw [show 32 = 2 ^ 5 from rfl, ← Nat.pow_add, Nat.add_sub_cancel' (by omega)]
      have hmul : 32 * 2 ^ (round.log2 - 5) ≤
          round / 2 ^ (round.log2 - 5) * 2 ^ (round.log2 - 5) := Nat.mul_le_mul_right _ hge
      omega

end BouffaloSdk.Mm
