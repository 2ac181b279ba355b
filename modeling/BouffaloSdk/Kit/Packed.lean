import Mathlib.Algebra.Order.Ring.Nat
import Mathlib.Data.Nat.Bitwise

/-!
# Fields packed into a word

Fields of one width, the first in the lowest bits.
-/

namespace Kit

/-- The first `n` fields put together by OR. -/
def packed (bits : Nat) (f : Nat → Nat) : Nat → Nat
  | 0 => 0
  | n + 1 => packed bits f n ||| f n <<< (bits * n)

def fieldOf (bits word j : Nat) : Nat := word >>> (bits * j) % 2 ^ bits

variable {bits n : Nat} {f : Nat → Nat}

theorem packed_lt (h : ∀ j, j < n → f j < 2 ^ bits) : packed bits f n < 2 ^ (bits * n) := by
  induction n with
  | zero => exact Nat.two_pow_pos _
  | succ n ih =>
    have hlow : packed bits f n < 2 ^ (bits * (n + 1)) :=
      (ih fun j hj => h j (Nat.lt_succ_of_lt hj)).trans_le
        (Nat.pow_le_pow_right (by decide) (Nat.mul_le_mul_left bits (Nat.le_succ n)))
    have hhigh : f n <<< (bits * n) < 2 ^ (bits * (n + 1)) := by
      rw [Nat.shiftLeft_eq, Nat.mul_succ, Nat.pow_add, Nat.mul_comm (2 ^ (bits * n))]
      exact Nat.mul_lt_mul_of_pos_right (h n (Nat.lt_succ_self n)) (Nat.two_pow_pos _)
    exact Nat.or_lt_two_pow hlow hhigh

/-- Each field comes out as it went in, and what lies behind them is zero. -/
theorem fieldOf_packed (h : ∀ j, j < n → f j < 2 ^ bits) (j : Nat) :
    fieldOf bits (packed bits f n) j = if j < n then f j else 0 := by
  induction n with
  | zero =>
    rw [if_neg (Nat.not_lt_zero j)]
    simp [packed, fieldOf]
  | succ n ih =>
    have hbelow : ∀ j, j < n → f j < 2 ^ bits := fun j hj => h j (Nat.lt_succ_of_lt hj)
    have hlow := packed_lt hbelow
    have hn := h n (Nat.lt_succ_self n)
    have hrest := ih hbelow
    unfold fieldOf at hrest ⊢
    rw [packed, Nat.shiftRight_or_distrib, Nat.or_mod_two_pow, hrest]
    rcases Nat.lt_trichotomy j n with hlt | rfl | hgt
    · have habove : bits * (j + 1) ≤ bits * n := Nat.mul_le_mul_left bits hlt
      have hshift : f n <<< (bits * n) >>> (bits * j) % 2 ^ bits = 0 := by
        refine Nat.eq_of_testBit_eq fun i => ?_
        rw [Nat.testBit_mod_two_pow, Nat.testBit_shiftRight, Nat.testBit_shiftLeft, Nat.zero_testBit]
        by_cases hi : i < bits
        · rw [Nat.mul_succ] at habove
          have hout : ¬ bits * j + i ≥ bits * n := by omega
          simp [hout]
        · simp [hi]
      rw [hshift, Nat.or_zero, if_pos hlt, if_pos (Nat.lt_succ_of_lt hlt)]
    · rw [Nat.shiftLeft_shiftRight, Nat.mod_eq_of_lt hn, if_neg (Nat.lt_irrefl _), Nat.zero_or,
        if_pos (Nat.lt_succ_self _)]
    · have hbelow' : f n <<< (bits * n) < 2 ^ (bits * j) :=
        calc f n <<< (bits * n) < 2 ^ (bits * (n + 1)) := by
              rw [Nat.shiftLeft_eq, Nat.mul_succ, Nat.pow_add, Nat.mul_comm (2 ^ (bits * n))]
              exact Nat.mul_lt_mul_of_pos_right hn (Nat.two_pow_pos _)
          _ ≤ 2 ^ (bits * j) := Nat.pow_le_pow_right (by decide) (Nat.mul_le_mul_left bits hgt)
      rw [Nat.shiftRight_eq_div_pow, Nat.div_eq_of_lt hbelow', Nat.zero_mod, if_neg (by omega),
        if_neg (by omega)]
      rfl

end Kit
