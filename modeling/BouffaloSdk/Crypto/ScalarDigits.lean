import BouffaloSdk.Crypto.ScalarEncode
import Mathlib.Data.Nat.Digits.Defs
import Mathlib.Algebra.BigOperators.Ring.Finset

/-!
# The output array of the encoder

`mpi_scalar_encode` on the words of a scalar and an array of one entry more than their bits:
what stands in the array afterwards and behind it.
-/

namespace BouffaloSdk.Ecp
open Bignum

/-- `mpi_scalar_encode` where the output array lies in `mem`: the entries it clears, and
those behind them. -/
def mpiScalarEncodeInto (scalar : Nat → Nat) (scalarLen w : Nat) (mem : Nat → Int) :
    Option ((Nat → Int) × Nat) :=
  if scalarLen = 0 then none
  else if ¬ (2 ≤ w ∧ w ≤ 8) then none
  else
    let bits := scalarLen * 32
    let st := finishEncoding
      (encodeLoop scalar scalarLen w bits ⟨0, 0, 0, fun i => if i < bits + 1 then 0 else mem i⟩)
    some (st.output, if 0 < st.outputLen then st.outputLen else 1)

def scalarWord (words : List UInt32) (i : Nat) : Nat := (words.getD i 0).toNat

def scalarValue (words : List UInt32) : Nat := Nat.ofDigits (2 ^ 32) (words.map UInt32.toNat)

/-- In front of clear memory the array is what the multiplication reads. -/
theorem mpiScalarEncodeInto_clear (scalar : Nat → Nat) (scalarLen w : Nat) :
    mpiScalarEncodeInto scalar scalarLen w (fun _ => 0) = mpiScalarEncode scalar scalarLen w := by
  simp only [mpiScalarEncodeInto, mpiScalarEncode, ite_self]

/-! ## The words of a scalar -/

theorem scalarValue_lt (words : List UInt32) : scalarValue words < 2 ^ (32 * words.length) := by
  have hwords : ∀ d ∈ words.map UInt32.toNat, d < 2 ^ 32 := by
    intro d hd
    obtain ⟨word, -, rfl⟩ := List.mem_map.mp hd
    exact word.toNat_lt
  have hlt := Nat.ofDigits_lt_base_pow_length (by decide) hwords
  rwa [List.length_map, ← pow_mul] at hlt

/-- The words are the limbs of the value. -/
theorem limbsOf_scalarValue (words : List UInt32) : limbsOf (scalarValue words) = scalarWord words := by
  funext i
  induction words generalizing i with
  | nil => simp [limbsOf, scalarValue, scalarWord]
  | cons word words ih =>
    have hword := word.toNat_lt
    have hcons : scalarValue (word :: words) = word.toNat + 2 ^ 32 * scalarValue words :=
      Nat.ofDigits_cons
    cases i with
    | zero =>
      rw [limbsOf, hcons, Nat.mul_zero, pow_zero, Nat.div_one, Nat.add_mul_mod_self_left]
      exact Nat.mod_eq_of_lt hword
    | succ i =>
      have hrest : (word.toNat + 2 ^ 32 * scalarValue words) / 2 ^ 32 = scalarValue words := by
        omega
      have hnext := ih i
      rw [limbsOf] at hnext
      rw [limbsOf, hcons, Nat.mul_succ, Nat.add_comm (32 * i), pow_add, ← Nat.div_div_eq_div_mul,
        hrest, hnext]
      rfl

/-- The digits, each at its weight. -/
theorem highValue_sum (d : Nat → Int) (count k : Nat) :
    highValue d count k = ∑ i ∈ Finset.range count, d (k + i) * 2 ^ i := by
  induction count generalizing k with
  | zero => rfl
  | succ count ih =>
    rw [highValue, ih, Finset.sum_range_succ', Finset.mul_sum, add_comm]
    congr 1
    · apply Finset.sum_congr rfl
      intro i _
      rw [pow_succ, Nat.add_assoc, Nat.add_comm 1 i]
      ring
    · simp

/-- Clear digits add nothing. -/
theorem Encoding.Trimmed.sum_range {st : Encoding} (h : st.Trimmed) {count : Nat}
    (hcount : st.outputLen ≤ count) :
    ∑ i ∈ Finset.range count, st.output i * 2 ^ i = st.valueFrom 0 := by
  have hsum := highValue_sum st.output st.outputLen 0
  simp only [Nat.zero_add] at hsum
  rw [Encoding.valueFrom, Nat.sub_zero, hsum]
  symm
  apply Finset.sum_subset (Finset.range_mono hcount)
  intro i _ hout
  have hclear := h.clear i (Nat.le_of_not_lt fun hlt => hout (Finset.mem_range.mpr hlt))
  rw [hclear, zero_mul]

/-! ## What lies behind the array -/

/-- The encoder's output in front of what lies in memory. -/
def Encoding.over (st : Encoding) (bits : Nat) (mem : Nat → Int) : Encoding :=
  { st with output := fun i => if i < bits + 1 then st.output i else mem i }

theorem update_over {bits pos : Nat} (o mem : Nat → Int) (d : Int) (h : pos < bits + 1) :
    Function.update (fun i => if i < bits + 1 then o i else mem i) pos d =
      fun i => if i < bits + 1 then Function.update o pos d i else mem i := by
  funext i
  rcases eq_or_ne i pos with rfl | hne
  · rw [Function.update_self, if_pos h, Function.update_self]
  · rw [Function.update_of_ne hne, Function.update_of_ne hne]

/-- The passes write below the number of bits. -/
theorem encodeLoop_over (scalar : Nat → Nat) (scalarLen w fuel : Nat) (st : Encoding)
    (mem : Nat → Int) :
    encodeLoop scalar scalarLen w fuel (st.over (scalarLen * 32) mem) =
      (encodeLoop scalar scalarLen w fuel st).over (scalarLen * 32) mem := by
  induction fuel generalizing st with
  | zero => rfl
  | succ fuel ih =>
    by_cases hpos : st.pos < scalarLen * 32
    swap
    · rw [encodeLoop, encodeLoop, if_neg hpos, if_neg (show ¬ (st.over _ mem).pos < _ from hpos)]
    have hin : st.pos < scalarLen * 32 + 1 := Nat.lt_succ_of_lt hpos
    rw [encodeLoop, encodeLoop, if_pos hpos, if_pos (show (st.over _ mem).pos < _ from hpos)]
    dsimp only [Encoding.over]
    rw [update_over _ _ _ hin, update_over _ _ _ hin]
    split
    · exact ih { st with pos := st.pos + 1 }
    split
    · exact ih ⟨st.pos + w, 0, st.pos + 1, Function.update st.output st.pos _⟩
    · exact ih ⟨st.pos + w, 1, st.pos + 1, Function.update st.output st.pos _⟩

/-- The digit of the carry is the last entry at most. -/
theorem finishEncoding_over {st : Encoding} {bits : Nat} (h : st.Ready bits) (mem : Nat → Int) :
    finishEncoding (st.over bits mem) = (finishEncoding st).over bits mem := by
  have hcarry := h.carry
  by_cases hzero : st.carry = 0
  · rw [finishEncoding, finishEncoding, if_neg (not_not.mpr hzero),
      if_neg (not_not.mpr (show (st.over bits mem).carry = 0 from hzero))]
  · have hroom := h.room (by omega)
    rw [finishEncoding, finishEncoding, if_pos hzero,
      if_pos (show (st.over bits mem).carry ≠ 0 from hzero)]
    dsimp only [Encoding.over]
    rw [update_over _ _ _ (Nat.lt_succ_of_le hroom)]

/-- The passes leave a carry inside the array. -/
theorem encodeLoop_ready {m scalarLen w fuel : Nat} {st : Encoding} (hm : m < 2 ^ (32 * scalarLen))
    (hw2 : 2 ≤ w) (hw : w ≤ 8) (h : st.Ready (scalarLen * 32)) :
    (encodeLoop (limbsOf m) scalarLen w fuel st).Ready (scalarLen * 32) := by
  induction fuel generalizing st with
  | zero => exact h
  | succ fuel ih =>
    by_cases hpos : st.pos < scalarLen * 32
    swap
    · rw [encodeLoop, if_neg hpos]
      exact h
    rcases Nat.mod_two_eq_zero_or_one (m / 2 ^ st.pos + st.carry) with heven | hodd
    · rw [encodeLoop_even hm hw hpos hw2 heven]
      exact ih (h.even hpos)
    · obtain ⟨c, d, -, hc, hroom, hdodd, -, hloop⟩ := encodeLoop_odd hm hw hpos hw2 h hodd
      rw [hloop]
      exact ih (h.odd hpos (by omega) (by omega) hc hroom)

/-! ## The digits of every scalar -/

/-- The digits add up to the scalar; those that are not 0 are odd, below half the window and
`w` places apart; nothing behind the array changes, and the length ends at the highest digit
that is not 0. -/
theorem mpi_scalar_encode_digits (words : List UInt32) (w : Nat) (mem : Nat → Int)
    (hwords : words ≠ []) (hw2 : 2 ≤ w) (hw : w ≤ 8) :
    ∃ output len,
      mpiScalarEncodeInto (scalarWord words) words.length w mem = some (output, len) ∧
      ∑ i ∈ Finset.range (32 * words.length + 1), output i * 2 ^ i = scalarValue words ∧
      (∀ i ≤ 32 * words.length, output i ≠ 0 → output i % 2 = 1 ∧ (output i).natAbs < 2 ^ (w - 1)) ∧
      (∀ i j, i < j → j ≤ 32 * words.length → output i ≠ 0 → output j ≠ 0 → i + w ≤ j) ∧
      (∀ i, 32 * words.length < i → output i = mem i) ∧
      0 < len ∧ len ≤ 32 * words.length + 1 ∧
      (∀ i, len ≤ i → i ≤ 32 * words.length → output i = 0) ∧
      (output (len - 1) ≠ 0 ∨ len = 1 ∧ scalarValue words = 0) := by
  have hlen : words.length ≠ 0 := fun h => hwords (List.length_eq_zero_iff.mp h)
  have hm := scalarValue_lt words
  set m := scalarValue words with hvalue
  set bits := words.length * 32 with hbits
  have hready : Encoding.Ready bits ⟨0, 0, 0, fun _ => 0⟩ :=
    ⟨⟨fun _ _ => rfl, fun hne => absurd rfl hne⟩, le_refl _, Nat.zero_le _, by simp, by simp⟩
  have hfuel : bits ≤ 0 + bits := by simp
  have hencodes := encodeLoop_encodes hm hw2 hw hready hfuel
  have hapart := @encodeLoop_apart m words.length w bits _ hm hw2 hw hready hfuel
  have hover := finishEncoding_over
    (encodeLoop_ready hm hw2 hw hready : (encodeLoop (limbsOf m) words.length w bits _).Ready _) mem
  rw [← encodeLoop_over, limbsOf_scalarValue words] at hover
  rw [limbsOf_scalarValue words] at hencodes hapart
  set fin := finishEncoding (encodeLoop (scalarWord words) words.length w bits ⟨0, 0, 0, fun _ => 0⟩)
    with hfin
  have hin : ∀ i, i ≤ bits → (fin.over bits mem).output i = fin.output i :=
    fun i hi => if_pos (Nat.lt_succ_of_le hi)
  have hcomm : 32 * words.length = bits := Nat.mul_comm _ _
  have hshort : fin.outputLen ≤ bits + 1 := hencodes.short
  have hfrom : fin.valueFrom 0 = m := by simpa using hencodes.value
  have hsum := hencodes.trimmed.sum_range hshort
  rw [hcomm]
  refine ⟨(fin.over bits mem).output, max fin.outputLen 1, ?_, ?_, ?_, ?_, ?_, by omega, by omega,
    ?_, ?_⟩
  · rw [mpiScalarEncodeInto, if_neg hlen, if_neg (by omega)]
    have hstart : (⟨0, 0, 0, fun i => if i < bits + 1 then 0 else mem i⟩ : Encoding) =
        Encoding.over ⟨0, 0, 0, fun _ => 0⟩ bits mem := rfl
    dsimp only
    rw [hstart, hover]
    congr 2
    change (if 0 < fin.outputLen then fin.outputLen else 1) = _
    split <;> omega
  · rw [← hfrom, ← hsum]
    apply Finset.sum_congr rfl
    intro i hi
    rw [hin i (Nat.le_of_lt_succ (Finset.mem_range.mp hi))]
  · intro i hi hne
    rw [hin i hi] at hne ⊢
    rcases hencodes.digit i (Nat.zero_le i) with hzero | hodd
    · exact absurd hzero hne
    · exact hodd
  · intro i j hij hj hdi hdj
    rw [hin i (by omega)] at hdi
    rw [hin j hj] at hdj
    exact hapart (Nat.zero_le i) hij hdi hdj
  · intro i hi
    exact if_neg (by omega)
  · intro i hi hle
    rw [hin i hle]
    exact hencodes.trimmed.clear i (by omega)
  · by_cases hempty : fin.outputLen = 0
    · refine .inr ⟨by omega, ?_⟩
      have hend : fin.valueFrom 0 = 0 := Encoding.valueFrom_end (by omega)
      omega
    · left
      rw [hin _ (by omega), show max fin.outputLen 1 - 1 = fin.outputLen - 1 by omega]
      exact hencodes.trimmed.last hempty

/-- Two words of ones: the carry is the digit behind the last word. -/
theorem mpi_scalar_encode_digits_ones : ∃ output len,
    mpiScalarEncodeInto (scalarWord [0xFFFFFFFF, 0xFFFFFFFF]) 2 5 (fun _ => 7) = some (output, len) ∧
    ∑ i ∈ Finset.range (32 * 2 + 1), output i * 2 ^ i = scalarValue [0xFFFFFFFF, 0xFFFFFFFF] ∧
    (∀ i ≤ 32 * 2, output i ≠ 0 → output i % 2 = 1 ∧ (output i).natAbs < 2 ^ (5 - 1)) ∧
    (∀ i j, i < j → j ≤ 32 * 2 → output i ≠ 0 → output j ≠ 0 → i + 5 ≤ j) ∧
    (∀ i, 32 * 2 < i → output i = 7) ∧ 0 < len ∧ len ≤ 32 * 2 + 1 ∧
    (∀ i, len ≤ i → i ≤ 32 * 2 → output i = 0) ∧
    (output (len - 1) ≠ 0 ∨ len = 1 ∧ scalarValue [0xFFFFFFFF, 0xFFFFFFFF] = 0) :=
  mpi_scalar_encode_digits [0xFFFFFFFF, 0xFFFFFFFF] 5 (fun _ => 7) (by decide) (by decide) (by decide)

end BouffaloSdk.Ecp
