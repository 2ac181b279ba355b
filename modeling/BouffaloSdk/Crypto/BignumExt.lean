import BouffaloSdk.Lhal.BflbSecPka
import Mathlib.Algebra.Order.Ring.Int
import Mathlib.Tactic.Positivity
import Mathlib.Tactic.Zify

/-!
# Numbers for the accelerator

`mbedtls_mpi` and `mbedtls/port/hw_acc/bignum_ext.c`. The library's sums, products and
shifts are exact on the values.
-/

namespace BouffaloSdk.Bignum
open Kit Kit.Montgomery Pka

/-- `mbedtls_mpi`: the signed value in `n` limbs of 32 bits. -/
structure Mpi where
  val : Int
  n : Nat
  fits : val.natAbs < 2 ^ (32 * n)

def Mpi.limb (x : Mpi) (i : Nat) : Nat := x.val.natAbs / 2 ^ (32 * i) % 2 ^ 32

/-- `mbedtls_mpi_bitlen`. -/
def Mpi.bitlen (x : Mpi) : Nat := if x.val.natAbs = 0 then 0 else x.val.natAbs.log2 + 1

/-- The scan of `mpi_words` below limb `i`. -/
def mpiWordsBelow (x : Mpi) : Nat → Nat
  | 0 => 0
  | i + 1 => if x.limb i ≠ 0 then i + 1 else mpiWordsBelow x i

def mpiWords (x : Mpi) : Nat := mpiWordsBelow x x.n

def mpiWordsToRegSize (words : Nat) : Nat :=
  let bytes := words * 4
  if bytes ≤ 8 then regSize8
  else if bytes ≤ 16 then regSize16
  else if bytes ≤ 32 then regSize32
  else if bytes ≤ 64 then regSize64
  else if bytes ≤ 96 then regSize96
  else if bytes ≤ 128 then regSize128
  else if bytes ≤ 192 then regSize192
  else if bytes ≤ 256 then regSize256
  else if bytes ≤ 384 then regSize384
  else if bytes ≤ 512 then regSize512
  else 0

def mpiRegSizeToWords (regSize : Nat) : Nat :=
  if regSize = regSize8 then 8 / 4
  else if regSize = regSize16 then 16 / 4
  else if regSize = regSize32 then 32 / 4
  else if regSize = regSize64 then 64 / 4
  else if regSize = regSize96 then 96 / 4
  else if regSize = regSize128 then 128 / 4
  else if regSize = regSize192 then 192 / 4
  else if regSize = regSize256 then 256 / 4
  else if regSize = regSize384 then 384 / 4
  else if regSize = regSize512 then 512 / 4
  else 0

/-- The magnitude loses its bits from `bit` on, the sign stays. -/
def mpiClearUpperBits (x : Int) (bit : Nat) : Int := x.sign * (x.natAbs % 2 ^ bit : Nat)

/-- `mbedtls_mpi_set_bit(X, n, 0)` on a number that is not negative. -/
def mpiClearBit (x : Int) (n : Nat) : Int := if x.natAbs.testBit n then x - 2 ^ n else x

def mpiMod2n (x : Int) (n : Nat) : Int :=
  let low := mpiClearUpperBits x n
  if x < 0 then mpiClearBit (low + 2 ^ n) n else low

/-- One pass of the loop of `mpi_hensel_quad_mod_inv_prime_n`. -/
def henselStep (a : Int) (i : Nat) (u : Int) : Int :=
  2 * u - mpiMod2n (mpiMod2n (u * u) i * a) i

/-- The loop, while `i` is below `m`; `fuel` is the passes left to it. -/
def henselLoop (a : Int) (m : Nat) : Nat → Nat → Int → Int
  | 0, _, u => u
  | fuel + 1, i, u => if i < m then henselLoop a m fuel (i * 2) (henselStep a i u) else u

/-- What `mpi_hensel_quad_mod_inv_prime_n` puts into `U` when no allocation fails. -/
def henselInverse (a : Int) (m : Nat) : Nat :=
  let u := mpiMod2n (henselStep a m (henselLoop a m m 2 1)) m
  (mpiMod2n (0 - u) m).natAbs

/-- The status and the content of `U`, `none` for no limbs. An allocation that fails ends
the computation with `U` as it is then, and the function returns 0. -/
def mpiHenselQuadModInvPrimeN (stopped : Option (Option Nat)) (a : Mpi) (m : Nat) :
    Int × Option Nat :=
  if m = 0 then (-1, none)
  else if a.limb 0 % 2 = 0 then (-1, none)
  else match stopped with
    | some left => (0, left)
    | none => (0, some (henselInverse a.val m))

/-! ## Sizes -/

theorem mpiRegSizeToWords_eq (size : Nat) : mpiRegSizeToWords size = regWords size := by
  rcases size with _ | _ | _ | _ | _ | _ | _ | _ | _ | _ | _ | size <;> rfl

theorem mpiWordsBelow_le (x : Mpi) (i : Nat) : mpiWordsBelow x i ≤ i := by
  induction i with
  | zero => exact Nat.le_refl 0
  | succ i ih =>
    unfold mpiWordsBelow
    split
    · exact Nat.le_refl _
    · exact ih.trans (Nat.le_succ i)

theorem lt_of_limb_eq_zero {x : Mpi} {i : Nat} (h : x.val.natAbs < 2 ^ (32 * (i + 1)))
    (hlimb : x.limb i = 0) : x.val.natAbs < 2 ^ (32 * i) := by
  have hpos : 0 < 2 ^ (32 * i) := Nat.two_pow_pos _
  have hdiv : x.val.natAbs / 2 ^ (32 * i) < 2 ^ 32 := by
    refine Nat.div_lt_of_lt_mul ?_
    calc x.val.natAbs < 2 ^ (32 * (i + 1)) := h
      _ = 2 ^ (32 * i) * 2 ^ 32 := by rw [← pow_add, Nat.mul_succ]
  have hzero : x.val.natAbs / 2 ^ (32 * i) = 0 := by
    rwa [Mpi.limb, Nat.mod_eq_of_lt hdiv] at hlimb
  exact (Nat.div_eq_zero_iff_lt hpos).mp hzero

theorem lt_of_mpiWordsBelow {x : Mpi} {i : Nat} (h : x.val.natAbs < 2 ^ (32 * i)) :
    x.val.natAbs < 2 ^ (32 * mpiWordsBelow x i) := by
  induction i with
  | zero => exact h
  | succ i ih =>
    unfold mpiWordsBelow
    split
    · exact h
    · rename_i hlimb
      exact ih (lt_of_limb_eq_zero h (not_not.mp hlimb))

theorem lt_two_pow_mpiWords (x : Mpi) : x.val.natAbs < 2 ^ (32 * mpiWords x) :=
  lt_of_mpiWordsBelow x.fits

/-- A size that is found holds the words it was asked for. -/
theorem le_regWords {words : Nat} (h : words ≤ 128) : words ≤ regWords (mpiWordsToRegSize words) := by
  have hall : ∀ w ≤ 128, w ≤ regWords (mpiWordsToRegSize w) := by decide
  exact hall words h

theorem regWords_pos {words : Nat} (h : words ≤ 128) : 0 < regWords (mpiWordsToRegSize words) := by
  have hall : ∀ w ≤ 128, 0 < regWords (mpiWordsToRegSize w) := by decide
  exact hall words h

theorem mpiWordsToRegSize_large {words : Nat} (h : 128 < words) : mpiWordsToRegSize words = 0 := by
  unfold mpiWordsToRegSize
  simp only
  repeat rw [if_neg (by omega)]

theorem regWords_mono {small large : Nat} (h : small ≤ large) (hlarge : large ≤ 128) :
    regWords (mpiWordsToRegSize small) ≤ regWords (mpiWordsToRegSize large) := by
  have hstep : ∀ w < 128, regWords (mpiWordsToRegSize w) ≤ regWords (mpiWordsToRegSize (w + 1)) := by
    decide
  induction large, h using Nat.le_induction with
  | base => exact Nat.le_refl _
  | succ large h ih => exact Nat.le_trans (ih (by omega)) (hstep large (by omega))

/-- The register of twice the size. -/
theorem regWords_double {words : Nat} (h : mpiWordsToRegSize words ≤ regSize256) :
    regWords (mpiWordsToRegSize (regWords (mpiWordsToRegSize words) * 2)) =
      regWords (mpiWordsToRegSize words) * 2 ∨ regWords (mpiWordsToRegSize words) = 0 := by
  have hall : ∀ s ≤ 8, regWords (mpiWordsToRegSize (regWords s * 2)) = regWords s * 2 ∨
      regWords s = 0 := by decide
  exact hall _ h

/-! ## The inverse -/

theorem mpiClearUpperBits_of_nonneg {x : Int} (h : 0 ≤ x) (n : Nat) :
    mpiClearUpperBits x n = x % 2 ^ n := by
  obtain ⟨k, rfl⟩ := Int.eq_ofNat_of_zero_le h
  rcases Nat.eq_zero_or_pos k with rfl | hk
  · simp [mpiClearUpperBits]
  · have hsign : (k : Int).sign = 1 := Int.sign_eq_one_of_pos (by omega)
    simp [mpiClearUpperBits, hsign]

theorem mpiClearBit_of_lt {x : Int} {n : Nat} (hx : 0 ≤ x) (h : x < 2 ^ n) : mpiClearBit x n = x := by
  obtain ⟨k, rfl⟩ := Int.eq_ofNat_of_zero_le hx
  have hk : k < 2 ^ n := by exact_mod_cast h
  simp [mpiClearBit, Nat.testBit_lt_two_pow hk]

theorem mpiClearBit_two_pow (n : Nat) : mpiClearBit (2 ^ n) n = 0 := by
  have hbit : ((2 : Int) ^ n).natAbs.testBit n = true := by
    rw [Int.natAbs_pow]
    exact Nat.testBit_two_pow_self
  rw [mpiClearBit, if_pos hbit, sub_self]

theorem mpiMod2n_eq (x : Int) (n : Nat) : mpiMod2n x n = x % 2 ^ n := by
  unfold mpiMod2n
  by_cases hx : x < 0
  · rw [if_pos hx]
    obtain ⟨k, rfl⟩ : ∃ k : Nat, x = -k := ⟨x.natAbs, by omega⟩
    have hlow : mpiClearUpperBits (-k) n = -((k % 2 ^ n : Nat) : Int) := by
      have hsign : (-(k : Int)).sign = -1 := Int.sign_eq_neg_one_of_neg hx
      rw [mpiClearUpperBits, hsign, Int.natAbs_neg, Int.natAbs_natCast, neg_one_mul]
    have hmod : (-(k : Int)) % 2 ^ n = (-((k % 2 ^ n : Nat) : Int) + 2 ^ n) % 2 ^ n := by
      rw [Int.add_emod_right, Int.natCast_mod, Int.natCast_pow, Nat.cast_ofNat]
      exact ((Int.mod_modEq (k : Int) (2 ^ n)).neg).symm
    have hlt : k % 2 ^ n < 2 ^ n := Nat.mod_lt _ (Nat.two_pow_pos n)
    rw [hlow, hmod]
    rcases Nat.eq_zero_or_pos (k % 2 ^ n) with hzero | hpos
    · rw [hzero]
      simp [mpiClearBit_two_pow]
    · have hbound : ((k % 2 ^ n : Nat) : Int) < 2 ^ n := by exact_mod_cast hlt
      rw [mpiClearBit_of_lt (by omega) (by omega), Int.emod_eq_of_lt (by omega) (by omega)]
  · rw [if_neg hx]
    exact mpiClearUpperBits_of_nonneg (by omega) n

/-- `u` inverts `a` modulo `2 ^ k`. -/
def InverseTo (a u : Int) (k : Nat) : Prop := 2 ^ k ∣ u * a - 1

theorem henselStep_inverse {a u : Int} {i k : Nat} (h : InverseTo a u k) (hi : i ≤ k + k) :
    InverseTo a (henselStep a i u) i := by
  have hlift : (2 : Int) ^ i ∣ (2 * u - u * u * a) * a - 1 :=
    (pow_dvd_pow 2 hi).trans (by rw [pow_add]; exact inverse_lift h)
  have hmod : henselStep a i u ≡ 2 * u - u * u * a [ZMOD 2 ^ i] := by
    unfold henselStep
    rw [mpiMod2n_eq, mpiMod2n_eq]
    exact Int.ModEq.sub_left _ ((Int.mod_modEq _ _).trans ((Int.mod_modEq _ _).mul_right a))
  have hsame : henselStep a i u * a - 1 ≡ (2 * u - u * u * a) * a - 1 [ZMOD 2 ^ i] :=
    Int.ModEq.sub_right 1 (hmod.mul_right a)
  exact (Int.ModEq.dvd_iff hsame).mpr hlift

/-- The loop leaves an inverse to at least half of `m` bits. -/
theorem henselLoop_inverse {a u : Int} {m fuel i k : Nat} (hk : InverseTo a u k) (hi : i ≤ k + k)
    (hpos : 0 < i) (hfuel : m ≤ i + fuel) :
    ∃ k', m ≤ k' + k' ∧ InverseTo a (henselLoop a m fuel i u) k' := by
  induction fuel generalizing i k u with
  | zero => exact ⟨k, by omega, hk⟩
  | succ fuel ih =>
    unfold henselLoop
    split
    · exact ih (henselStep_inverse hk hi) (by omega) (by omega) (by omega)
    · exact ⟨k, by omega, hk⟩

theorem odd_inverse {a : Int} (h : Odd a) : InverseTo a 1 1 := by
  obtain ⟨c, rfl⟩ := h
  exact ⟨c, by ring⟩

theorem henselInverse_lt (a : Int) (m : Nat) : henselInverse a m < 2 ^ m := by
  have hlt : mpiMod2n (0 - mpiMod2n (henselStep a m (henselLoop a m m 2 1)) m) m < 2 ^ m := by
    rw [mpiMod2n_eq]
    exact Int.emod_lt_of_pos _ (by positivity)
  have hnonneg : 0 ≤ mpiMod2n (0 - mpiMod2n (henselStep a m (henselLoop a m m 2 1)) m) m := by
    rw [mpiMod2n_eq]
    exact Int.emod_nonneg _ (by positivity)
  unfold henselInverse
  zify
  rwa [abs_of_nonneg hnonneg]

/-- The computation that is not cut short gives `-a⁻¹` modulo `2 ^ m`. -/
theorem henselInverse_negInverse {a m : Nat} (h : Odd a) :
    NegInverse (2 ^ m) a (henselInverse a m) := by
  have hodd : Odd (a : Int) := by exact_mod_cast h
  obtain ⟨k, hk, hhalf⟩ := @henselLoop_inverse _ _ m m 2 _ (odd_inverse hodd)
    (by omega) (by omega) (by omega)
  have hfull := henselStep_inverse hhalf hk
  set u := henselStep a m (henselLoop a m m 2 1) with hu
  have hcast : ((henselInverse a m : Nat) : Int) = (0 - u % 2 ^ m) % 2 ^ m := by
    have hnonneg : 0 ≤ (0 - u % 2 ^ m) % 2 ^ m := Int.emod_nonneg _ (by positivity)
    rw [henselInverse, ← hu, mpiMod2n_eq, mpiMod2n_eq, Int.natAbs_of_nonneg hnonneg]
  have hneg : ((henselInverse a m : Nat) : Int) ≡ 0 - u [ZMOD 2 ^ m] := by
    rw [hcast]
    exact (Int.mod_modEq _ _).trans (Int.ModEq.sub_left 0 (Int.mod_modEq _ _))
  have hsum : (a : Int) * (henselInverse a m : Nat) + 1 ≡ a * (0 - u) + 1 [ZMOD 2 ^ m] :=
    Int.ModEq.add_right 1 (hneg.mul_left a)
  have hdvd : (2 : Int) ^ m ∣ a * (0 - u) + 1 := by
    obtain ⟨c, hc⟩ := hfull
    exact ⟨-c, by linear_combination (-1 : Int) * hc⟩
  have hresult := (Int.ModEq.dvd_iff hsum).mpr hdvd
  unfold NegInverse
  exact_mod_cast hresult

end BouffaloSdk.Bignum
