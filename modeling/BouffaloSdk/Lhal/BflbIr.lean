import BouffaloSdk.Kit.Packed
import BouffaloSdk.Kit.Word
import Mathlib.Data.Rat.Floor
import Mathlib.Algebra.Order.Round

/-!
# Pulses of the infrared sender

`bflb_ir_swm_send` of `drivers/lhal/src/bflb_ir.c`: pulse widths as multiples of the smallest
one, packed into words. BL602 and BL702 write eight of them to a register, the others four
to the FIFO.
-/

namespace BouffaloSdk.Ir
open Kit Kit.Word

/-- How many widths a word takes, and the bits of each. -/
structure SwmForm where
  group : Nat
  bits : Nat
  group_pos : 0 < group
  whole : group * bits = 32

/-- `IRTX_SWM_PW_0_OFFSET` and the registers behind it. -/
def registerForm : SwmForm := ⟨8, 4, by decide, rfl⟩

/-- `IR_FIFO_WDATA_OFFSET`. -/
def fifoForm : SwmForm := ⟨4, 8, by decide, rfl⟩

def divideRound (a b : Nat) : Nat := (2 * a + b) / (2 * b)

/-- The search for the smallest width, which passes over zeros, up to `data[n]`. -/
def searchMin (data : Nat → UInt16) : Nat → Nat
  | 0 => (data 0).toNat
  | n + 1 =>
    let minData := searchMin data n
    if minData > (data (n + 1)).toNat ∧ (data (n + 1)).toNat ≠ 0 then (data (n + 1)).toNat
    else minData

/-- A width as the field holds it. -/
def widthField (f : SwmForm) (minData : Nat) (width : UInt16) : Nat :=
  sub32 (divideRound width.toNat minData) 1 &&& (2 ^ f.bits - 1)

/-- A word of `n` widths from `start` on, `none` for a division by zero. -/
def swmWord (f : SwmForm) (minData : Nat) (data : Nat → UInt16) (start n : Nat) : Option Nat :=
  if n ≠ 0 ∧ minData = 0 then none
  else some (packed f.bits (fun j => widthField f minData (data (j + start))) n)

/-- The number of widths in word `i` of `count`. -/
def widthsIn (f : SwmForm) (length count i : Nat) : Nat :=
  if i < count - 1 then f.group else length % f.group

/-- The first `i` words of `count`. -/
def swmWords (f : SwmForm) (minData : Nat) (data : Nat → UInt16) (length count : Nat) :
    Nat → Option (List Nat)
  | 0 => some []
  | i + 1 => do
    let words ← swmWords f minData data length count i
    let pwval ← swmWord f minData data (i * f.group) (widthsIn f length count i)
    some (words ++ [pwval])

/-- What is sent: the unit of the widths, the number of them less one, and the words. -/
structure SwmSend where
  pwUnit : Nat
  dataNum : Nat
  words : List Nat
  deriving DecidableEq, Repr

/-- `bflb_ir_swm_send`, `none` for a division by zero. -/
def bflbIrSwmSend (f : SwmForm) (data : Nat → UInt16) (length : Nat) : Option SwmSend :=
  let length := if length > 128 then 128 else length
  let count := (length + (f.group - 1)) / f.group
  let minData := searchMin data (length - 1)
  (swmWords f minData data length count count).map fun words =>
    ⟨minData, sub32 length 1, words⟩

/-! ## What is meant -/

/-- A width in units of `m`, to the nearest. -/
def units (m : Nat) (width : UInt16) : Int := round ((width.toNat : Rat) / m)

/-- Field `i` of the words. -/
def fieldAt (f : SwmForm) (words : List Nat) (i : Nat) : Nat :=
  fieldOf f.bits (words.getD (i / f.group) 0) (i % f.group)

def IsMin (data : Nat → UInt16) (length m : Nat) : Prop :=
  IsLeast {width | ∃ i, i < length ∧ (data i).toNat = width} m

/-- The words have a field for each width, which holds its units less one where these fit,
and zeros in the others. -/
structure Encodes (f : SwmForm) (data : Nat → UInt16) (length : Nat) (words : List Nat) : Prop where
  room : length ≤ words.length * f.group
  width : ∀ m, IsMin data length m → ∀ i, i < length → ∀ v : Nat, v < 2 ^ f.bits →
    units m (data i) - 1 = v → fieldAt f words i = v
  unused : ∀ i, length ≤ i → i < words.length * f.group → fieldAt f words i = 0

/-- Nothing is divided by zero, and widths that are not zero are encoded. -/
def SentRight (f : SwmForm) (data : Nat → UInt16) (length : Nat) : Prop :=
  ∃ out, bflbIrSwmSend f data length = some out ∧
    ((∀ i, i < length → data i ≠ 0) → Encodes f data length out.words)

/-- With a zero among the widths, the first one is not zero or there is one whole word of
them; without zeros, the last word is not whole, or each of its widths is one unit or too
long for its field. -/
def Sendable (f : SwmForm) (data : Nat → UInt16) (length : Nat) : Prop :=
  ((∃ i, i < length ∧ data i = 0) → data 0 ≠ 0 ∨ length = f.group) ∧
  ((∀ i, i < length → data i ≠ 0) → length % f.group ≠ 0 ∨
    ∀ m, IsMin data length m → ∀ i, length ≤ i + f.group → i < length →
      units m (data i) = 1 ∨ 2 ^ f.bits < units m (data i))

/-! ## The smallest width -/

section Search
variable {data : Nat → UInt16} {n length : Nat}

theorem searchMin_zero (h : data 0 = 0) (n : Nat) : searchMin data n = 0 := by
  induction n with
  | zero => rw [searchMin, h]; rfl
  | succ n ih =>
    unfold searchMin
    dsimp only
    rw [ih, if_neg fun h => Nat.not_lt_zero _ h.1]

theorem searchMin_pos (h : data 0 ≠ 0) (n : Nat) : searchMin data n ≠ 0 := by
  induction n with
  | zero => exact fun hzero => h (UInt16.toNat_inj.1 hzero)
  | succ n ih =>
    unfold searchMin
    dsimp only
    split
    next h => exact h.2
    next => exact ih

theorem searchMin_isMin (h : ∀ i, i ≤ n → data i ≠ 0) : IsMin data (n + 1) (searchMin data n) := by
  induction n with
  | zero =>
    refine ⟨⟨0, Nat.one_pos, rfl⟩, ?_⟩
    rintro width ⟨i, hi, rfl⟩
    rw [Nat.lt_one_iff.1 hi]
    exact Nat.le_refl _
  | succ n ih =>
    obtain ⟨⟨i, hi, hmin⟩, hleast⟩ := ih fun i hi => h i (Nat.le_succ_of_le hi)
    have hnext : (data (n + 1)).toNat ≠ 0 := fun hzero => h (n + 1) (Nat.le_refl _)
      (UInt16.toNat_inj.1 hzero)
    have hbelow : ∀ j, j < n + 1 → searchMin data n ≤ (data j).toNat :=
      fun j hj => hleast ⟨j, hj, rfl⟩
    unfold searchMin
    dsimp only
    split
    next hless =>
      refine ⟨⟨n + 1, Nat.lt_succ_self _, rfl⟩, ?_⟩
      rintro width ⟨j, hj, rfl⟩
      rcases Nat.lt_succ_iff_lt_or_eq.1 hj with hj | rfl
      · exact (hless.1.trans_le (hbelow j hj)).le
      · exact Nat.le_refl _
    next hless =>
      refine ⟨⟨i, Nat.lt_succ_of_lt hi, hmin⟩, ?_⟩
      rintro width ⟨j, hj, rfl⟩
      rcases Nat.lt_succ_iff_lt_or_eq.1 hj with hj | rfl
      · exact hbelow j hj
      · exact Nat.le_of_not_lt fun hlt => hless ⟨hlt, hnext⟩

theorem IsMin.unique {m k : Nat} (hm : IsMin data length m) (hk : IsMin data length k) : m = k :=
  IsLeast.unique hm hk

theorem divideRound_eq {a m : Nat} (hm : m ≠ 0) :
    round ((a : Rat) / m) = (divideRound a m : Int) := by
  have hm' : (m : Rat) ≠ 0 := Nat.cast_ne_zero.2 hm
  have hsum : (a : Rat) / m + 1 / 2 = ((2 * a + m : Nat) : Rat) / (2 * m : Nat) := by
    push_cast
    field_simp
  rw [round_eq, hsum, Rat.floor_natCast_div_natCast, divideRound]
  push_cast
  rfl

end Search

/-! ## The words -/

section Words
variable {f : SwmForm} {data : Nat → UInt16} {minData length count c i : Nat}

theorem widthField_lt (f : SwmForm) (minData : Nat) (width : UInt16) :
    widthField f minData width < 2 ^ f.bits :=
  Nat.and_lt_two_pow _ (Nat.sub_lt (Nat.two_pow_pos _) Nat.one_pos)

/-- A width that is not below the unit and fits its field. -/
theorem widthField_eq {m v : Nat} {width : UInt16} (hm : m ≠ 0) (hv : v < 2 ^ f.bits)
    (hunits : units m width - 1 = v) : widthField f m width = v := by
  have hround : (divideRound width.toNat m : Int) = v + 1 := by
    rw [← divideRound_eq hm]
    change units m width = v + 1
    omega
  have hsucc : divideRound width.toNat m = v + 1 := by exact_mod_cast hround
  have hbits : 2 ^ f.bits ≤ 2 ^ 32 := by
    refine Nat.pow_le_pow_right (by decide) ?_
    calc f.bits = 1 * f.bits := (Nat.one_mul _).symm
      _ ≤ f.group * f.bits := Nat.mul_le_mul_right _ f.group_pos
      _ = 32 := f.whole
  have hsub : sub32 (v + 1) 1 = v := by
    unfold sub32
    rw [if_pos (by omega), Nat.add_sub_cancel, Nat.mod_eq_of_lt (by omega)]
  rw [widthField, hsucc, hsub, Nat.and_two_pow_sub_one_eq_mod, Nat.mod_eq_of_lt hv]

/-- Without a division by zero all words are written. -/
theorem swmWords_some (h : ∀ i, i < count → widthsIn f length c i = 0 ∨ minData ≠ 0) :
    swmWords f minData data length c count = some ((List.range count).map fun i =>
      packed f.bits (fun j => widthField f minData (data (j + i * f.group)))
        (widthsIn f length c i)) := by
  induction count with
  | zero => rfl
  | succ i ih =>
    have hword : ¬ (widthsIn f length c i ≠ 0 ∧ minData = 0) := by
      have hi := h i (Nat.lt_succ_self i)
      tauto
    rw [swmWords, ih fun j hj => h j (Nat.lt_succ_of_lt hj), swmWord, if_neg hword,
      List.range_succ, List.map_append]
    rfl

theorem swmWords_none (hmin : minData = 0) (hi : i < count) (hwidths : widthsIn f length c i ≠ 0) :
    swmWords f minData data length c count = none := by
  induction count with
  | zero => exact absurd hi (Nat.not_lt_zero i)
  | succ k ih =>
    rw [swmWords]
    rcases Nat.lt_succ_iff_lt_or_eq.1 hi with hlt | rfl
    · rw [ih hlt]
      rfl
    · rw [swmWord, if_pos ⟨hwidths, hmin⟩]
      cases swmWords f minData data length c i with
      | none => rfl
      | some words => rfl

/-- The words needed: all but the last are whole. -/
theorem count_spec (f : SwmForm) (hlength : 1 ≤ length) :
    ∃ c, (length + (f.group - 1)) / f.group = c + 1 ∧ c * f.group < length ∧
      length ≤ c * f.group + f.group := by
  have hpos := f.group_pos
  have hmod := Nat.mod_lt (length + (f.group - 1)) hpos
  have hdiv := Nat.div_add_mod' (length + (f.group - 1)) f.group
  have hone : 1 ≤ (length + (f.group - 1)) / f.group :=
    (Nat.one_le_div_iff hpos).2 (by omega)
  refine ⟨(length + (f.group - 1)) / f.group - 1, (Nat.sub_add_cancel hone).symm, ?_, ?_⟩
  · rw [Nat.sub_mul, Nat.one_mul]
    omega
  · rw [Nat.sub_mul, Nat.one_mul]
    omega

theorem last_widths (hlow : c * f.group < length) (hhigh : length ≤ c * f.group + f.group) :
    length % f.group = if length = c * f.group + f.group then 0 else length - c * f.group := by
  split
  next h =>
    rw [h, Nat.add_mod_right, Nat.mul_mod_left]
  next h =>
    have hsum : length = (length - c * f.group) + f.group * c := by
      rw [Nat.mul_comm f.group]
      omega
    rw [hsum, Nat.add_mul_mod_self_left, Nat.mod_eq_of_lt (by omega),
      Nat.mul_comm f.group, Nat.add_sub_cancel]

/-- The words that are written when nothing is divided by zero. -/
def written (f : SwmForm) (minData : Nat) (data : Nat → UInt16) (length c : Nat) : List Nat :=
  (List.range (c + 1)).map fun i =>
    packed f.bits (fun j => widthField f minData (data (j + i * f.group)))
      (widthsIn f length (c + 1) i)

/-- A field of a word is its width's, or zero where the loop stopped before it. -/
theorem fieldAt_written (hi : i / f.group < c + 1) :
    fieldAt f (written f minData data length c) i =
      if i % f.group < widthsIn f length (c + 1) (i / f.group) then
        widthField f minData (data i) else 0 := by
  have hword : (written f minData data length c).getD (i / f.group) 0 =
      packed f.bits (fun j => widthField f minData (data (j + i / f.group * f.group)))
        (widthsIn f length (c + 1) (i / f.group)) := by
    rw [written, List.getD_eq_getElem?_getD, List.getElem?_map, List.getElem?_range hi]
    rfl
  rw [fieldAt, hword, fieldOf_packed fun j _ => widthField_lt f minData _, Nat.add_comm (i % f.group),
    Nat.div_add_mod']

/-- Widths in whole words and, in the last one, up to the length. -/
theorem fieldAt_inside (hlow : c * f.group < length) (hhigh : length ≤ c * f.group + f.group)
    (hi : i < length) :
    fieldAt f (written f minData data length c) i =
      if length % f.group = 0 ∧ length ≤ i + f.group then 0 else widthField f minData (data i) := by
  have hpos := f.group_pos
  have hmod := Nat.mod_lt i hpos
  have hdiv := Nat.div_add_mod' i f.group
  have hword : i / f.group < c + 1 := by
    rw [Nat.div_lt_iff_lt_mul hpos, Nat.succ_mul]
    omega
  rw [fieldAt_written hword]
  have hlast := last_widths hlow hhigh
  unfold widthsIn
  rw [Nat.add_sub_cancel]
  rcases Nat.lt_or_ge (i / f.group) c with hbefore | hend
  · have hle : (i / f.group + 1) * f.group ≤ c * f.group := Nat.mul_le_mul_right _ hbefore
    rw [Nat.succ_mul] at hle
    rw [if_pos hbefore, if_pos hmod, if_neg]
    rintro ⟨hzero, hover⟩
    rw [hzero] at hlast
    split at hlast <;> omega
  · have heq : i / f.group = c := by omega
    rw [heq] at hdiv
    rw [if_neg (show ¬ i / f.group < c by omega)]
    split at hlast
    next hwhole =>
      rw [hlast, if_neg (Nat.not_lt_zero _), if_pos ⟨rfl, by omega⟩]
    next hpart =>
      rw [if_pos (by omega), if_neg (by omega)]

/-- Behind the length the fields of the last word are zero. -/
theorem fieldAt_behind (hlow : c * f.group < length) (hhigh : length ≤ c * f.group + f.group)
    (hi : length ≤ i) (hend : i < (c + 1) * f.group) :
    fieldAt f (written f minData data length c) i = 0 := by
  have hpos := f.group_pos
  have hmod := Nat.mod_lt i hpos
  have hdiv := Nat.div_add_mod' i f.group
  have hword : i / f.group < c + 1 := (Nat.div_lt_iff_lt_mul hpos).2 hend
  have hge : c ≤ i / f.group := (Nat.le_div_iff_mul_le hpos).2 (by omega)
  have heq : i / f.group = c := by omega
  have hlast := last_widths hlow hhigh
  rw [heq] at hdiv
  rw [fieldAt_written hword, widthsIn, Nat.add_sub_cancel, if_neg (show ¬ i / f.group < c by omega)]
  refine if_neg ?_
  split at hlast <;> omega

/-- The call, up to the words. -/
theorem bflbIrSwmSend_eq (hlength : 1 ≤ length) (hmax : length ≤ 128)
    (hc : (length + (f.group - 1)) / f.group = c + 1) :
    bflbIrSwmSend f data length =
      (swmWords f (searchMin data (length - 1)) data length (c + 1) (c + 1)).map fun words =>
        ⟨searchMin data (length - 1), sub32 length 1, words⟩ := by
  unfold bflbIrSwmSend
  rw [if_neg (by omega)]
  dsimp only
  rw [hc]

/-- Nothing is divided by zero unless the first width is zero, and then only for a single whole
word, of which no width is looked at. -/
theorem bflbIrSwmSend_isSome_iff (hlength : 1 ≤ length) (hmax : length ≤ 128)
    (hc : (length + (f.group - 1)) / f.group = c + 1) (hlow : c * f.group < length)
    (hhigh : length ≤ c * f.group + f.group) :
    (∃ out, bflbIrSwmSend f data length = some out) ↔ data 0 ≠ 0 ∨ length = f.group := by
  have hpos := f.group_pos
  have hlast := last_widths hlow hhigh
  rw [bflbIrSwmSend_eq hlength hmax hc]
  by_cases hzero : data 0 = 0
  · by_cases hone : length = f.group
    · have hc0 : c = 0 := by
        rcases Nat.eq_zero_or_pos c with h | h
        · exact h
        · have hle := Nat.mul_le_mul_right f.group h
          omega
      subst hc0
      have hnone : ∀ i, i < 0 + 1 →
          widthsIn f length (0 + 1) i = 0 ∨ searchMin data (length - 1) ≠ 0 := by
        intro i hi
        left
        rw [widthsIn, if_neg (by omega), hone, Nat.mod_self]
      rw [swmWords_some hnone]
      exact iff_of_true ⟨_, rfl⟩ (.inr hone)
    · refine iff_of_false ?_ fun h => h.elim (fun hne => hne hzero) hone
      rintro ⟨out, hout⟩
      have hnone : swmWords f (searchMin data (length - 1)) data length (c + 1) (c + 1) = none := by
        rcases Nat.eq_zero_or_pos c with rfl | hmore
        · refine swmWords_none (searchMin_zero hzero _) (Nat.zero_lt_one) ?_
          rw [widthsIn, if_neg (by omega)]
          split at hlast <;> omega
        · refine swmWords_none (searchMin_zero hzero _) (Nat.succ_pos c) ?_
          rw [widthsIn, if_pos (by omega)]
          omega
      rw [hnone] at hout
      cases hout
  · refine iff_of_true ?_ (.inl hzero)
    rw [swmWords_some fun i _ => .inr (searchMin_pos hzero _)]
    exact ⟨_, rfl⟩

/-- What comes out of a call that does not divide by zero. -/
theorem bflbIrSwmSend_words {out : SwmSend} (hlength : 1 ≤ length) (hmax : length ≤ 128)
    (hc : (length + (f.group - 1)) / f.group = c + 1) (hfirst : data 0 ≠ 0)
    (hout : bflbIrSwmSend f data length = some out) :
    out.words = written f (searchMin data (length - 1)) data length c := by
  rw [bflbIrSwmSend_eq hlength hmax hc,
    swmWords_some fun i _ => .inr (searchMin_pos hfirst _)] at hout
  rw [← Option.some.inj hout]
  rfl

/-- Widths that are not zero are encoded where the last word is not whole, or its fields are to
be zero or cannot hold the widths. -/
theorem encodes_iff (hlength : 1 ≤ length) (hlow : c * f.group < length)
    (hhigh : length ≤ c * f.group + f.group) (hdata : ∀ i, i < length → data i ≠ 0) :
    Encodes f data length (written f (searchMin data (length - 1)) data length c) ↔
      length % f.group ≠ 0 ∨ ∀ m, IsMin data length m → ∀ i, length ≤ i + f.group → i < length →
        units m (data i) = 1 ∨ 2 ^ f.bits < units m (data i) := by
  have hmin : IsMin data length (searchMin data (length - 1)) := by
    have hsum : length - 1 + 1 = length := Nat.sub_add_cancel hlength
    have hsearch := searchMin_isMin (n := length - 1) fun i hi => hdata i (by omega)
    rwa [hsum] at hsearch
  have hmin0 : searchMin data (length - 1) ≠ 0 := searchMin_pos (hdata 0 hlength) _
  have hwords : (written f (searchMin data (length - 1)) data length c).length = c + 1 := by
    rw [written, List.length_map, List.length_range]
  constructor
  · intro hencodes
    by_cases hwhole : length % f.group = 0
    swap
    · exact .inl hwhole
    refine .inr fun m hm i hlast hi => ?_
    obtain rfl := hm.unique hmin
    have hfield : fieldAt f (written f (searchMin data (length - 1)) data length c) i =
        if length % f.group = 0 ∧ length ≤ i + f.group then 0
        else widthField f (searchMin data (length - 1)) (data i) := fieldAt_inside hlow hhigh hi
    rw [if_pos ⟨hwhole, hlast⟩] at hfield
    by_contra hnot
    obtain ⟨hone, hfits⟩ := not_or.1 hnot
    have hpositive : 1 ≤ units (searchMin data (length - 1)) (data i) := by
      have hle : searchMin data (length - 1) ≤ (data i).toNat := hmin.2 ⟨i, hi, rfl⟩
      have hdiv : 1 ≤ divideRound (data i).toNat (searchMin data (length - 1)) :=
        (Nat.one_le_div_iff (by omega)).2 (by omega)
      rw [units, divideRound_eq hmin0]
      exact_mod_cast hdiv
    obtain ⟨v, hv⟩ := Int.eq_ofNat_of_zero_le (Int.sub_nonneg.2 hpositive)
    have hlt : v < 2 ^ f.bits := by
      have hlt : (v : Int) < 2 ^ f.bits := by omega
      exact_mod_cast hlt
    have hzero := hencodes.width _ hmin i hi v hlt hv
    omega
  · intro hcond
    refine ⟨?_, fun m hm i hi v hv hunits => ?_, fun i hi hend => ?_⟩
    · rw [hwords, Nat.succ_mul]
      exact hhigh
    · obtain rfl := hm.unique hmin
      rw [fieldAt_inside hlow hhigh hi]
      split
      next hlast =>
        have hone := (hcond.resolve_left fun h => h hlast.1) _ hm i hlast.2 hi
        have hlt : (v : Int) < 2 ^ f.bits := by exact_mod_cast hv
        omega
      next => exact widthField_eq hmin0 hv hunits
    · rw [hwords] at hend
      exact fieldAt_behind hlow hhigh hi hend

end Words

/-- A call is right for the widths that are sendable. -/
theorem swm_send_right_iff (f : SwmForm) (data : Nat → UInt16) (length : Nat) (hlength : 1 ≤ length)
    (hmax : length ≤ 128) : SentRight f data length ↔ Sendable f data length := by
  obtain ⟨c, hc, hlow, hhigh⟩ := count_spec f hlength
  have hsome : (∃ out, bflbIrSwmSend f data length = some out) ↔ data 0 ≠ 0 ∨ length = f.group :=
    bflbIrSwmSend_isSome_iff hlength hmax hc hlow hhigh
  constructor
  · rintro ⟨out, hout, hencodes⟩
    refine ⟨fun _ => hsome.1 ⟨out, hout⟩, fun hdata => ?_⟩
    rw [← encodes_iff hlength hlow hhigh hdata,
      ← bflbIrSwmSend_words hlength hmax hc (hdata 0 hlength) hout]
    exact hencodes hdata
  · rintro ⟨hzero, hdata⟩
    by_cases hall : ∀ i, i < length → data i ≠ 0
    · obtain ⟨out, hout⟩ := hsome.2 (.inl (hall 0 hlength))
      refine ⟨out, hout, fun _ => ?_⟩
      rw [bflbIrSwmSend_words hlength hmax hc (hall 0 hlength) hout]
      exact (encodes_iff hlength hlow hhigh hall).2 (hdata hall)
    · push Not at hall
      obtain ⟨out, hout⟩ := hsome.2 (hzero hall)
      exact ⟨out, hout, fun h => absurd hall (by push Not; exact h)⟩

theorem swm_send_right_iff_three : SentRight fifoForm (fun i => [560, 560, 1690].getD i 0) 3 ↔
    Sendable fifoForm (fun i => [560, 560, 1690].getD i 0) 3 :=
  swm_send_right_iff fifoForm _ 3 (by decide) (by decide)

/-- Four widths of which the last is three units: the word that is written is 0. -/
theorem whole_word_lost : ¬ SentRight fifoForm (fun i => [560, 560, 560, 1680].getD i 0) 4 := by
  rintro ⟨out, hout, hencodes⟩
  have hsend : bflbIrSwmSend fifoForm (fun i => [560, 560, 560, 1680].getD i 0) 4 =
      some ⟨560, 3, [0]⟩ := by
    decide +kernel
  obtain rfl := Option.some.inj (hsend.symm.trans hout)
  have hmin : IsMin (fun i => [560, 560, 560, 1680].getD i 0) 4 560 := by
    have hall : ∀ i, i < 4 →
        560 ≤ ((fun i => [560, 560, 560, 1680].getD i 0) i : UInt16).toNat := by decide
    refine ⟨⟨0, by decide, rfl⟩, ?_⟩
    rintro width ⟨i, hi, rfl⟩
    exact hall i hi
  have hunits : units 560 1680 - 1 = 2 := by
    have hdiv : divideRound 1680 560 = 3 := rfl
    have hround : units 560 1680 = (divideRound 1680 560 : Int) := divideRound_eq (by decide)
    rw [hround, hdiv]
    rfl
  have hfield := (hencodes (by decide)).width 560 hmin 3 (by decide) 2 (by decide) hunits
  exact absurd hfield (by decide)

end BouffaloSdk.Ir
