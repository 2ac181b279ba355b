import BouffaloSdk.Lhal.EfuseDirect
import Mathlib.Data.List.Basic

/-!
# Writing a trim and reading it back

The bits that a trim should set, word by word, and the bits that
`bflb_ef_ctrl_write_common_trim` sets. They differ only where a value reaches into a second
word: that word is made from the first one plus four.
-/

namespace BouffaloSdk

/-- A bit of a row of words. -/
def bitAt (m : Nat → BitVec 32) (b : Nat) : Bool := (m (b / 32)).getLsbD (b % 32)

namespace EfTrimCfg

/-- The bits of an entry's three fields. -/
def Field (e : EfTrimCfg) (b : Nat) : Prop :=
  b = e.enAddr ∨ b = e.parityAddr ∨ e.valueAddr ≤ b ∧ b < e.valueAddr + e.valueLen

/-- Three separate fields within the fuses, the value at most a word long. -/
structure WellFormed (chip : EfChip) (e : EfTrimCfg) : Prop where
  en_parity : e.enAddr ≠ e.parityAddr
  en_value : e.enAddr < e.valueAddr ∨ e.valueAddr + e.valueLen ≤ e.enAddr
  parity_value : e.parityAddr < e.valueAddr ∨ e.valueAddr + e.valueLen ≤ e.parityAddr
  len_le : e.valueLen ≤ 32
  inside : ∀ b, e.Field b → b < 8 * chip.totalSize

/-- What the words of an entry should hold, given the value and its parity. -/
def image (e : EfTrimCfg) (value : BitVec 32) (w : Nat) : BitVec 32 :=
  (if w = e.enAddr / 32 then 1#32 <<< (e.enAddr % 32) else 0#32) |||
    (if EfCtrl.getTrimParity value e.valueLen ∧ w = e.parityAddr / 32 then
      1#32 <<< (e.parityAddr % 32) else 0#32) |||
    (if w = e.valueAddr / 32 then value <<< (e.valueAddr % 32) else 0#32) |||
    (if e.Straddles ∧ w = e.valueAddr / 32 + 1 then value >>> (32 - e.valueAddr % 32) else 0#32)

/-- What the second word of a value that straddles is given. -/
def carried (e : EfTrimCfg) (value : BitVec 32) : BitVec 32 :=
  (e.image value (e.valueAddr / 32) + 4) ||| value >>> (32 - e.valueAddr % 32)

/-- What the words of an entry are given. -/
def stored (e : EfTrimCfg) (value : BitVec 32) (w : Nat) : BitVec 32 :=
  if e.Straddles ∧ w = e.valueAddr / 32 + 1 then e.carried value else e.image value w

/-- The words that programming an entry burns. -/
def Burnt (chip : EfChip) (e : EfTrimCfg) (w : Nat) : Prop :=
  if e.enAddr < chip.r0Size * 8 then chip.inR0 w else chip.inR1 w

instance (chip : EfChip) (e : EfTrimCfg) (w : Nat) : Decidable (e.Burnt chip w) := by
  unfold Burnt
  infer_instance

end EfTrimCfg

namespace EfCtrl

section Write
variable {chip : EfChip} {trimList : List EfTrimCfg} {name : String} {e : EfTrimCfg}
variable {value : BitVec 32}

theorem orReg_data (s : EfCtrl) (w : Nat) (bits : BitVec 32) (k : Nat) :
    (s.orReg w bits).data k = s.data k ||| if k = w then bits else 0#32 := by
  unfold orReg
  by_cases h : k = w
  · subst h
    simp
  · simp [h]

theorem getTrimParity_len (hlen : e.valueLen ≤ 32) :
    getTrimParity value (e.valueLen % 2 ^ 8) = getTrimParity value e.valueLen := by
  rw [Nat.mod_eq_of_lt (by omega)]

/-- The registers with the enable and the parity bit set. -/
theorem enable_parity_data (value : BitVec 32) (e : EfTrimCfg) (k : Nat) :
    (if getTrimParity value e.valueLen then
        (blank.orReg (e.enAddr / 32) (1#32 <<< (e.enAddr % 32))).orReg (e.parityAddr / 32)
          (1#32 <<< (e.parityAddr % 32))
      else blank.orReg (e.enAddr / 32) (1#32 <<< (e.enAddr % 32))).data k =
      (if k = e.enAddr / 32 then 1#32 <<< (e.enAddr % 32) else 0#32) |||
        (if getTrimParity value e.valueLen ∧ k = e.parityAddr / 32 then
          1#32 <<< (e.parityAddr % 32) else 0#32) := by
  have hblank : ∀ x : BitVec 32, blank.data k ||| x = x := fun x => BitVec.zero_or
  by_cases hp : getTrimParity value e.valueLen
  · simp only [hp, if_true, true_and, orReg_data, hblank]
  · simp only [hp, if_false, false_and, orReg_data, hblank, Bool.false_eq_true]
    exact BitVec.or_zero.symm

/-- The registers after the value as well. -/
theorem value_data {s : EfCtrl} (hs : ∀ k, s.data k =
      (if k = e.enAddr / 32 then 1#32 <<< (e.enAddr % 32) else 0#32) |||
        (if getTrimParity value e.valueLen ∧ k = e.parityAddr / 32 then
          1#32 <<< (e.parityAddr % 32) else 0#32)) :
    (if e.Straddles then
        { s.orReg (e.valueAddr / 32) (value <<< (e.valueAddr % 32)) with
          data := Function.update
            (s.orReg (e.valueAddr / 32) (value <<< (e.valueAddr % 32))).data (e.valueAddr / 32 + 1)
            (((s.orReg (e.valueAddr / 32) (value <<< (e.valueAddr % 32))).data (e.valueAddr / 32)
              + 4) ||| value >>> (32 - e.valueAddr % 32)) }
      else s.orReg (e.valueAddr / 32) (value <<< (e.valueAddr % 32))).data = e.stored value := by
  have himage : ∀ k, ¬ (e.Straddles ∧ k = e.valueAddr / 32 + 1) →
      (s.orReg (e.valueAddr / 32) (value <<< (e.valueAddr % 32))).data k = e.image value k := by
    intro k hk
    rw [orReg_data, hs, EfTrimCfg.image, if_neg hk]
    exact BitVec.or_zero.symm
  funext k
  unfold EfTrimCfg.stored
  by_cases hstraddle : e.Straddles
  · rw [if_pos hstraddle]
    by_cases hk : k = e.valueAddr / 32 + 1
    · rw [if_pos ⟨hstraddle, hk⟩, hk, EfTrimCfg.carried, ← himage _ (by simp)]
      exact Function.update_self _ _ _
    · rw [if_neg fun h => hk h.2, ← himage k fun h => hk h.2]
      exact Function.update_of_ne hk _ _
  · rw [if_neg hstraddle, if_neg fun h => hstraddle h.1]
    exact himage k fun h => hstraddle h.1

theorem orReg_fuses (s : EfCtrl) (w : Nat) (bits : BitVec 32) : (s.orReg w bits).fuses = s.fuses :=
  rfl

/-- Programming burns what the registers of the enable bit's region hold. -/
theorem burn_entry (hwf : e.WellFormed chip) {s : EfCtrl} (hfuses : s.fuses = fun _ => 0) :
    (let s' := if e.enAddr < chip.r0Size * 8 then s.programEfuseR0 chip else s
      if chip.r1Size.isSome ∧ chip.r0Size * 8 ≤ e.enAddr then s'.programEfuseR1 chip else s') =
      ⟨fun w => if e.Burnt chip w then s.data w else 0, s.data⟩ := by
  have hen : e.enAddr < 8 * chip.totalSize := hwf.inside _ (Or.inl rfl)
  unfold EfTrimCfg.Burnt
  by_cases hlow : e.enAddr < chip.r0Size * 8
  · simp only [hlow, if_true]
    rw [if_neg (by omega), programEfuseR0, hfuses]
    congr 1
    funext w
    split
    · exact BitVec.zero_or
    · rfl
  · have hsome : chip.r1Size.isSome := by
      cases hr1 : chip.r1Size with
      | none =>
        rw [EfChip.totalSize, hr1] at hen
        simp only [Option.getD_none] at hen
        omega
      | some n => rfl
    simp only [hlow, if_false]
    rw [if_pos ⟨hsome, by omega⟩, programEfuseR1, hfuses]
    congr 1
    funext w
    split
    · exact BitVec.zero_or
    · rfl

/-- What a write leaves in blank registers, and burns. -/
theorem writeCommonTrim_blank (hfind : trimList.find? (·.matches name) = some e)
    (hwf : e.WellFormed chip) :
    writeCommonTrim chip trimList name value true blank =
      ⟨fun w => if e.Burnt chip w then e.stored value w else 0, e.stored value⟩ := by
  unfold writeCommonTrim
  rw [hfind]
  simp only [getTrimParity_len hwf.len_le, if_true]
  have hdata := value_data (enable_parity_data value e)
  have hfuses : (if getTrimParity value e.valueLen then
        (blank.orReg (e.enAddr / 32) (1#32 <<< (e.enAddr % 32))).orReg (e.parityAddr / 32)
          (1#32 <<< (e.parityAddr % 32))
      else blank.orReg (e.enAddr / 32) (1#32 <<< (e.enAddr % 32))).fuses = fun _ => 0 := by
    split <;> rfl
  rw [burn_entry hwf]
  · rw [hdata]
  · split
    · exact hfuses
    · exact hfuses

end Write

/-! ## Bits -/

section Bits
variable {chip : EfChip} {e : EfTrimCfg} {value : BitVec 32}

theorem bitAt_one {b c : Nat} :
    (if b / 32 = c / 32 then 1#32 <<< (c % 32) else 0#32).getLsbD (b % 32) = decide (b = c) := by
  by_cases h : b / 32 = c / 32
  · rw [if_pos h, BitVec.getLsbD_shiftLeft, BitVec.getLsbD_one]
    have hb := Nat.mod_lt b (show 0 < 32 by decide)
    by_cases hbc : b = c
    · subst hbc
      simp [hb]
    · have hne : b % 32 ≠ c % 32 := by omega
      simp only [hbc, decide_false]
      by_cases hlt : b % 32 < c % 32
      · simp [hlt]
      · have : ¬ b % 32 - c % 32 = 0 := by omega
        simp [this]
  · rw [if_neg h]
    have hbc : b ≠ c := fun hbc => h (by rw [hbc])
    simp [hbc]

/-- A value's bits end with its width. -/
theorem getLsbD_of_le {n i : Nat} (hvalue : value.toNat < 2 ^ n) (hi : n ≤ i) :
    value.getLsbD i = false :=
  Nat.testBit_lt_two_pow (Nat.lt_of_lt_of_le hvalue (Nat.pow_le_pow_right (by decide) hi))

/-- The value as it lies in the words of the image. -/
theorem bitAt_value {b : Nat} (hlen : e.valueLen ≤ 32) (hvalue : value.toNat < 2 ^ e.valueLen) :
    ((if b / 32 = e.valueAddr / 32 then value <<< (e.valueAddr % 32) else 0#32) |||
      (if e.Straddles ∧ b / 32 = e.valueAddr / 32 + 1 then
        value >>> (32 - e.valueAddr % 32) else 0#32)).getLsbD (b % 32) =
      (decide (e.valueAddr ≤ b) && value.getLsbD (b - e.valueAddr)) := by
  have hb := Nat.mod_lt b (show 0 < 32 by decide)
  have hv := Nat.mod_lt e.valueAddr (show 0 < 32 by decide)
  rw [BitVec.getLsbD_or]
  by_cases hfirst : b / 32 = e.valueAddr / 32
  · rw [if_pos hfirst, if_neg (by omega), BitVec.getLsbD_shiftLeft]
    by_cases hle : e.valueAddr ≤ b
    · have hsub : b - e.valueAddr = b % 32 - e.valueAddr % 32 := by omega
      have hlt : ¬ b % 32 < e.valueAddr % 32 := by omega
      simp [hle, hsub, hlt, hb]
    · have hlt : b % 32 < e.valueAddr % 32 := by omega
      simp [hle, hlt]
  · rw [if_neg hfirst]
    by_cases hsecond : e.Straddles ∧ b / 32 = e.valueAddr / 32 + 1
    · rw [if_pos hsecond, BitVec.getLsbD_ushiftRight]
      have hle : e.valueAddr ≤ b := by omega
      have hsub : 32 - e.valueAddr % 32 + b % 32 = b - e.valueAddr := by omega
      simp [hle, hsub]
    · rw [if_neg hsecond]
      by_cases hle : e.valueAddr ≤ b
      · have hbig : e.valueLen ≤ b - e.valueAddr := by
          unfold EfTrimCfg.Straddles at hsecond
          omega
        simp [getLsbD_of_le hvalue hbig]
      · simp [hle]

/-- The bits of the image. -/
theorem bitAt_image {b : Nat} (hlen : e.valueLen ≤ 32) (hvalue : value.toNat < 2 ^ e.valueLen) :
    bitAt (e.image value) b =
      (decide (b = e.enAddr) ||
        (getTrimParity value e.valueLen && decide (b = e.parityAddr)) ||
        (decide (e.valueAddr ≤ b) && value.getLsbD (b - e.valueAddr))) := by
  rw [bitAt, EfTrimCfg.image, BitVec.or_assoc, BitVec.getLsbD_or, BitVec.getLsbD_or,
    bitAt_value hlen hvalue, bitAt_one]
  congr 2
  cases getTrimParity value e.valueLen with
  | false => simp
  | true => simpa using bitAt_one

theorem getLsbD_mask {w n i : Nat} (hn : n < w) :
    ((1#w <<< n) - 1).getLsbD i = decide (i < n) := by
  have hpow : 2 ^ n < 2 ^ w := Nat.pow_lt_pow_right (by decide) hn
  have hone : 0 < 2 ^ n := Nat.pow_pos (by decide)
  have hnat : ((1#w <<< n) - 1).toNat = 2 ^ n - 1 := by
    have hlt : 1 < 2 ^ w := by omega
    have hshift : (1#w <<< n).toNat = 2 ^ n := by
      rw [BitVec.toNat_shiftLeft, BitVec.toNat_ofNat, Nat.mod_eq_of_lt hlt, Nat.shiftLeft_eq,
        Nat.one_mul, Nat.mod_eq_of_lt hpow]
    have hone' : (1 : BitVec w).toNat = 1 := by
      rw [BitVec.ofNat_eq_ofNat, BitVec.toNat_ofNat, Nat.mod_eq_of_lt hlt]
    rw [BitVec.toNat_sub, hshift, hone', show 2 ^ w - 1 + 2 ^ n = 2 ^ n - 1 + 2 ^ w by omega,
      Nat.add_mod_right, Nat.mod_eq_of_lt (by omega)]
  rw [BitVec.getLsbD, hnat, Nat.testBit_two_pow_sub_one]

/-- The bits of the value that is read. -/
theorem getLsbD_trimValue {s : EfCtrl} {i : Nat} (hlen : e.valueLen ≤ 32)
    (hmask : e.Straddles ∨ e.valueLen < 32) (hi : i < 32) :
    (s.trimValue e).getLsbD i = (decide (i < e.valueLen) && bitAt s.data (e.valueAddr + i)) := by
  have hv := Nat.mod_lt e.valueAddr (show 0 < 32 by decide)
  unfold trimValue bitAt
  by_cases hstraddle : e.Straddles
  · rw [if_pos hstraddle]
    simp only [BitVec.getLsbD_setWidth, BitVec.getLsbD_and, BitVec.getLsbD_ushiftRight,
      BitVec.getLsbD_or, BitVec.getLsbD_shiftLeft]
    rw [getLsbD_mask (by omega)]
    by_cases hlow : e.valueAddr % 32 + i < 32
    · have hdiv : (e.valueAddr + i) / 32 = e.valueAddr / 32 := by omega
      have hmod : (e.valueAddr + i) % 32 = e.valueAddr % 32 + i := by omega
      have h64 : e.valueAddr % 32 + i < 64 := by omega
      rw [hdiv, hmod]
      simp [hi, hlow, h64, Bool.and_comm]
    · have hdiv : (e.valueAddr + i) / 32 = e.valueAddr / 32 + 1 := by omega
      have hmod : (e.valueAddr + i) % 32 = e.valueAddr % 32 + i - 32 := by omega
      have h64 : e.valueAddr % 32 + i < 64 := by omega
      have hout : 32 ≤ e.valueAddr % 32 + i := by omega
      have hin : e.valueAddr % 32 + i - 32 < 64 := by omega
      rw [hdiv, hmod]
      simp [hi, hlow, h64, hin, BitVec.getLsbD_of_ge _ _ hout, Bool.and_comm]
  · rw [if_neg hstraddle]
    have hshort : e.valueLen < 32 := hmask.resolve_left hstraddle
    rw [Nat.mod_eq_of_lt hshort, BitVec.getLsbD_and, BitVec.getLsbD_ushiftRight,
      getLsbD_mask hshort]
    by_cases hin : i < e.valueLen
    · have hfit : e.valueAddr % 32 + i < 32 := by
        unfold EfTrimCfg.Straddles at hstraddle
        omega
      have hdiv : (e.valueAddr + i) / 32 = e.valueAddr / 32 := by omega
      have hmod : (e.valueAddr + i) % 32 = e.valueAddr % 32 + i := by omega
      rw [hdiv, hmod, Bool.and_comm]
    · simp [hin]

/-- The value is read back if its bits are there. -/
theorem trimValue_eq_iff {s : EfCtrl} (hlen : e.valueLen ≤ 32)
    (hvalue : value.toNat < 2 ^ e.valueLen) (hmask : e.Straddles ∨ e.valueLen < 32) :
    s.trimValue e = value ↔
      ∀ i < e.valueLen, bitAt s.data (e.valueAddr + i) = value.getLsbD i := by
  constructor
  · intro h i hi
    have hbit := getLsbD_trimValue (s := s) hlen hmask (show i < 32 by omega)
    rw [h] at hbit
    simp [hbit, hi]
  · intro h
    apply BitVec.eq_of_getLsbD_eq
    intro i hi
    rw [getLsbD_trimValue hlen hmask hi]
    by_cases hin : i < e.valueLen
    · simp [hin, h i hin]
    · simp [hin, getLsbD_of_le hvalue (Nat.le_of_not_lt hin)]

/-- A whole word is masked with nothing. -/
theorem trimValue_word {s : EfCtrl} (hstraddle : ¬ e.Straddles) (hlen : e.valueLen = 32) :
    s.trimValue e = 0 := by
  rw [trimValue, if_neg hstraddle, hlen]
  exact BitVec.and_zero

theorem and_bit_ne_zero {x : BitVec 32} {n : Nat} (hn : n < 32) :
    x &&& (1#32 <<< n) ≠ 0 ↔ x.getLsbD n = true := by
  have hpow : BitVec.twoPow 32 n ≠ 0 := by
    intro hzero
    have hnat := congrArg BitVec.toNat hzero
    rw [BitVec.toNat_twoPow_of_lt hn] at hnat
    exact absurd hnat (Nat.ne_of_gt (Nat.pow_pos (by decide)))
  rw [← BitVec.twoPow_eq, BitVec.and_twoPow]
  cases x.getLsbD n with
  | false => simp
  | true => simpa using hpow

/-- The image holds the three fields. -/
structure ImageFields (e : EfTrimCfg) (value : BitVec 32) : Prop where
  en : bitAt (e.image value) e.enAddr = true
  parity : bitAt (e.image value) e.parityAddr = getTrimParity value e.valueLen
  bits : ∀ i < e.valueLen, bitAt (e.image value) (e.valueAddr + i) = value.getLsbD i
  outside : ∀ b, ¬ e.Field b → bitAt (e.image value) b = false

theorem imageFields (hwf : e.WellFormed chip) (hvalue : value.toNat < 2 ^ e.valueLen) :
    ImageFields e value where
  en := by
    rw [bitAt_image hwf.len_le hvalue]
    simp
  parity := by
    have hne := hwf.en_parity.symm
    rw [bitAt_image hwf.len_le hvalue]
    rcases hwf.parity_value with hlt | hge
    · simp [hne, Nat.not_le_of_lt hlt]
    · have hzero : value.getLsbD (e.parityAddr - e.valueAddr) = false :=
        getLsbD_of_le hvalue (by omega)
      simp [hne, hzero]
  bits i hi := by
    have hen : e.valueAddr + i ≠ e.enAddr := by
      have := hwf.en_value
      omega
    have hparity : e.valueAddr + i ≠ e.parityAddr := by
      have := hwf.parity_value
      omega
    rw [bitAt_image hwf.len_le hvalue]
    simp [hen, hparity]
  outside b hb := by
    unfold EfTrimCfg.Field at hb
    rw [bitAt_image hwf.len_le hvalue]
    have hen : b ≠ e.enAddr := fun h => hb (Or.inl h)
    have hparity : b ≠ e.parityAddr := fun h => hb (Or.inr (Or.inl h))
    by_cases hle : e.valueAddr ≤ b
    · have hzero : value.getLsbD (b - e.valueAddr) = false :=
        getLsbD_of_le hvalue (by omega)
      simp [hen, hparity, hzero]
    · simp [hen, hparity, hle]

/-- Two words that agree in every bit of a row. -/
theorem word_eq {x : BitVec 32} {m : Nat → BitVec 32} {w : Nat}
    (h : ∀ b, b / 32 = w → x.getLsbD (b % 32) = bitAt m b) : x = m w := by
  apply BitVec.eq_of_getLsbD_eq
  intro j hj
  have hdiv : (32 * w + j) / 32 = w := by omega
  have hmod : (32 * w + j) % 32 = j := by omega
  have hbit := h (32 * w + j) hdiv
  rw [bitAt, hdiv, hmod] at hbit
  exact hbit

end Bits

/-! ## Reading back -/

section RoundTrip
variable {chip : EfChip} {trimList : List EfTrimCfg} {name : String} {e : EfTrimCfg}
variable {value : BitVec 32} {reload : Bool}

/-- The registers that a read looks at. -/
def viewed (chip : EfChip) (reload : Bool) (s : EfCtrl) : EfCtrl :=
  if reload then
    if chip.r1Size.isSome then (s.loadEfuseR0 chip).loadEfuseR1 chip else s.loadEfuseR0 chip
  else s

theorem viewed_fuses (s : EfCtrl) : (viewed chip reload s).fuses = s.fuses := by
  unfold viewed
  split
  · split <;> rfl
  · rfl

theorem viewed_data (s : EfCtrl) {w : Nat} (hw : w < chip.totalSize / 4) :
    (viewed chip reload s).data w = if reload then s.fuses w else s.data w := by
  unfold viewed
  cases reload with
  | false => rfl
  | true =>
    simp only [if_true]
    have hin : chip.inR0 w ∨ chip.r1Size.isSome ∧ chip.inR1 w := by
      unfold EfChip.inR0 EfChip.inR1
      cases chip with
      | bl808 =>
        simp [EfChip.totalSize, EfChip.r0Size, EfChip.r1Size] at *
        omega
      | bl602 | bl702 | bl702l | bl616 => exact Or.inl hw
    by_cases hr1 : chip.r1Size.isSome
    · rw [if_pos hr1]
      show (if chip.inR1 w then s.fuses w else if chip.inR0 w then s.fuses w else s.data w) = _
      by_cases h1 : chip.inR1 w
      · rw [if_pos h1]
      · rw [if_neg h1, if_pos (hin.resolve_right fun h => h1 h.2)]
    · rw [if_neg hr1]
      exact if_pos (hin.resolve_right fun h => hr1 h.1)

/-- A read says what the fields of the viewed registers hold. -/
theorem readCommonTrim_found (hfind : trimList.find? (·.matches name) = some e) (trim : EfTrim)
    (s : EfCtrl) :
    (readCommonTrim chip trimList name trim reload s).1.en =
        bitAt (viewed chip reload s).data e.enAddr ∧
      (readCommonTrim chip trimList name trim reload s).1.parity =
        bitAt (viewed chip reload s).data e.parityAddr ∧
      (readCommonTrim chip trimList name trim reload s).1.value =
        (viewed chip reload s).trimValue e ∧
      (readCommonTrim chip trimList name trim reload s).2 = viewed chip reload s := by
  have hbit : ∀ (m : Nat → BitVec 32) (b : Nat),
      decide ((m (b / 32)) &&& (1#32 <<< (b % 32)) ≠ 0) = bitAt m b := by
    intro m b
    rw [Bool.eq_iff_iff, decide_eq_true_iff, and_bit_ne_zero (Nat.mod_lt b (by decide))]
    rfl
  unfold readCommonTrim
  rw [hfind]
  refine ⟨?_, ?_, rfl, rfl⟩
  · exact hbit _ _
  · exact hbit _ _

/-- The trim is read back as written, and no other bit is burnt. -/
def TrimKept (chip : EfChip) (trimList : List EfTrimCfg) (name : String) (e : EfTrimCfg)
    (value : BitVec 32) (reload : Bool) (trim : EfTrim) : Prop :=
  let result := readCommonTrim chip trimList name trim reload
    (writeCommonTrim chip trimList name value true blank)
  result.1.en = true ∧ result.1.value = value ∧
    result.1.parity = getTrimParity value e.valueLen ∧
    ∀ b, ¬ e.Field b → bitAt result.2.fuses b = false

/-- When the driver gets a trim right. Its mask for a whole aligned word is empty; the
second word of a value must come out right from the first one plus four, in every bit
where it is burnt and in the bits of the entry's fields where it is only read back; and
what a reload brings back must lie in the region of the enable bit. -/
structure TrimFits (chip : EfChip) (e : EfTrimCfg) (value : BitVec 32) (reload : Bool) : Prop where
  narrow : e.valueLen = 32 → e.valueAddr % 32 = 0 → value = 0
  carry : e.Straddles → e.Burnt chip (e.valueAddr / 32 + 1) →
    e.carried value = e.image value (e.valueAddr / 32 + 1)
  spill : e.Straddles → ¬ e.Burnt chip (e.valueAddr / 32 + 1) → reload = false →
    ∀ b, e.Field b → b / 32 = e.valueAddr / 32 + 1 →
      (e.carried value).getLsbD (b % 32) = bitAt (e.image value) b
  region : reload = true → ∀ w, ¬ e.Burnt chip w → e.image value w = 0

/-- The word of a bit that lies in one of the fields. -/
theorem field_word (hwf : e.WellFormed chip) {b : Nat} (hb : e.Field b) :
    b / 32 < chip.totalSize / 4 := by
  have := hwf.inside b hb
  have htotal : chip.totalSize % 4 = 0 := by cases chip <;> rfl
  omega

/-- What a read sees at a bit of the fields after a write into blank fuses. -/
theorem viewed_field (value : BitVec 32) (reload : Bool)
    (hfind : trimList.find? (·.matches name) = some e)
    (hwf : e.WellFormed chip) {b : Nat} (hb : e.Field b) :
    bitAt (viewed chip reload (writeCommonTrim chip trimList name value true blank)).data b =
      if reload ∧ ¬ e.Burnt chip (b / 32) then false else bitAt (e.stored value) b := by
  rw [writeCommonTrim_blank hfind hwf, bitAt, viewed_data _ (field_word hwf hb)]
  cases reload with
  | false => simp [bitAt]
  | true =>
    by_cases hburnt : e.Burnt chip (b / 32)
    · simp [hburnt, bitAt]
    · simp [hburnt]

theorem stored_of_carried {w : Nat} (h : e.Straddles → w = e.valueAddr / 32 + 1 →
    e.carried value = e.image value (e.valueAddr / 32 + 1)) :
    e.stored value w = e.image value w := by
  unfold EfTrimCfg.stored
  split
  · obtain ⟨hstraddle, rfl⟩ := ‹_›
    exact h hstraddle rfl
  · rfl

/-- Where the entry fits, a read sees the image in the fields. -/
theorem TrimFits.viewed_image (h : TrimFits chip e value reload)
    (hfind : trimList.find? (·.matches name) = some e) (hwf : e.WellFormed chip) {b : Nat}
    (hb : e.Field b) :
    bitAt (viewed chip reload (writeCommonTrim chip trimList name value true blank)).data b =
      bitAt (e.image value) b := by
  rw [viewed_field value reload hfind hwf hb]
  by_cases hburnt : e.Burnt chip (b / 32)
  · rw [if_neg (fun hr => hr.2 hburnt), bitAt,
      stored_of_carried fun hstraddle hw => h.carry hstraddle (hw ▸ hburnt)]
    rfl
  · cases hreload : reload with
    | true =>
      rw [if_pos ⟨rfl, hburnt⟩, bitAt, h.region hreload _ hburnt]
      simp
    | false =>
      rw [if_neg (by simp), bitAt, EfTrimCfg.stored]
      split
      · obtain ⟨hstraddle, hw⟩ := ‹_›
        exact h.spill hstraddle (hw ▸ hburnt) hreload b hb hw
      · rfl

/-- Outside the fields nothing is burnt. -/
theorem TrimFits.outside (h : TrimFits chip e value reload)
    (hwf : e.WellFormed chip) (hvalue : value.toNat < 2 ^ e.valueLen) {b : Nat}
    (hb : ¬ e.Field b) :
    bitAt (fun w => if e.Burnt chip w then e.stored value w else 0) b = false := by
  rw [bitAt]
  split
  · rw [stored_of_carried fun hstraddle hw => h.carry hstraddle (hw ▸ ‹_›)]
    exact (imageFields hwf hvalue).outside b hb
  · simp

/-- A trim that was kept is seen in its fields, or a whole word is missing. -/
theorem TrimKept.viewed_image {trim : EfTrim}
    (h : TrimKept chip trimList name e value reload trim)
    (hfind : trimList.find? (·.matches name) = some e) (hwf : e.WellFormed chip)
    (hvalue : value.toNat < 2 ^ e.valueLen) {b : Nat} (hb : e.Field b) :
    bitAt (viewed chip reload (writeCommonTrim chip trimList name value true blank)).data b =
        bitAt (e.image value) b ∨
      ¬ e.Straddles ∧ bitAt (e.image value) b = false := by
  have hfields := imageFields hwf hvalue
  obtain ⟨hen, hval, hpar, -⟩ := h
  obtain ⟨hen', hpar', hval', -⟩ := readCommonTrim_found hfind trim
    (writeCommonTrim chip trimList name value true blank)
  rcases hb with rfl | rfl | ⟨hlo, hhi⟩
  · exact Or.inl (by rw [← hen', hen, hfields.en])
  · exact Or.inl (by rw [← hpar', hpar, hfields.parity])
  · obtain ⟨i, rfl⟩ := Nat.exists_eq_add_of_le hlo
    have hi : i < e.valueLen := by omega
    rw [hfields.bits i hi]
    rw [hval'] at hval
    by_cases hmask : e.Straddles ∨ e.valueLen < 32
    · exact Or.inl ((trimValue_eq_iff hwf.len_le hvalue hmask).mp hval i hi)
    · have hlen : e.valueLen = 32 := by
        have := hwf.len_le
        omega
      rw [trimValue_word (fun hs => hmask (Or.inl hs)) hlen] at hval
      refine Or.inr ⟨fun hs => hmask (Or.inl hs), ?_⟩
      rw [← hval]
      simp

theorem bitAt_stored_second {b : Nat} (hstraddle : e.Straddles)
    (hb : b / 32 = e.valueAddr / 32 + 1) :
    bitAt (e.stored value) b = (e.carried value).getLsbD (b % 32) := by
  rw [bitAt, EfTrimCfg.stored, if_pos ⟨hstraddle, hb⟩]

theorem TrimFits.kept (h : TrimFits chip e value reload)
    (hfind : trimList.find? (·.matches name) = some e) (hwf : e.WellFormed chip)
    (hvalue : value.toNat < 2 ^ e.valueLen) (trim : EfTrim) :
    TrimKept chip trimList name e value reload trim := by
  have hfields := imageFields hwf hvalue
  obtain ⟨hen, hpar, hval, hstate⟩ := readCommonTrim_found hfind
    trim (writeCommonTrim chip trimList name value true blank)
  refine ⟨?_, ?_, ?_, fun b hb => ?_⟩
  · rw [hen, h.viewed_image hfind hwf (Or.inl rfl)]
    exact hfields.en
  · rw [hval]
    by_cases hmask : e.Straddles ∨ e.valueLen < 32
    · refine (trimValue_eq_iff hwf.len_le hvalue hmask).mpr fun i hi => ?_
      rw [h.viewed_image hfind hwf (Or.inr (Or.inr ⟨by omega, by omega⟩))]
      exact hfields.bits i hi
    · have hstraddle : ¬ e.Straddles := fun hs => hmask (Or.inl hs)
      have hlen : e.valueLen = 32 := by
        have := hwf.len_le
        omega
      have haligned : e.valueAddr % 32 = 0 := by
        unfold EfTrimCfg.Straddles at hstraddle
        omega
      rw [trimValue_word hstraddle hlen]
      exact (h.narrow hlen haligned).symm
  · rw [hpar, h.viewed_image hfind hwf (Or.inr (Or.inl rfl))]
    exact hfields.parity
  · rw [hstate, viewed_fuses, writeCommonTrim_blank hfind hwf]
    exact h.outside hwf hvalue hb

theorem TrimKept.fits {trim : EfTrim} (h : TrimKept chip trimList name e value reload trim)
    (hfind : trimList.find? (·.matches name) = some e) (hwf : e.WellFormed chip)
    (hvalue : value.toNat < 2 ^ e.valueLen) : TrimFits chip e value reload := by
  have hfields := imageFields hwf hvalue
  have hseen := fun b (hb : e.Field b) => h.viewed_image hfind hwf hvalue hb
  have hfield := fun b (hb : e.Field b) =>
    viewed_field value reload hfind hwf hb
  obtain ⟨-, hval, -, hout⟩ := h
  obtain ⟨-, -, hval', hstate⟩ := readCommonTrim_found hfind
    trim (writeCommonTrim chip trimList name value true blank)
  constructor
  · intro hlen haligned
    have hstraddle : ¬ e.Straddles := by
      unfold EfTrimCfg.Straddles
      omega
    rw [← hval, hval', trimValue_word hstraddle hlen]
  · intro hstraddle hburnt
    refine word_eq fun b hb => ?_
    rw [← bitAt_stored_second hstraddle hb]
    by_cases hin : e.Field b
    · have hview := hfield b hin
      rw [if_neg fun hr => hr.2 (hb ▸ hburnt)] at hview
      rw [← hview]
      exact (hseen b hin).resolve_right fun hs => hs.1 hstraddle
    · have hclear := hout b hin
      rw [hstate, viewed_fuses, writeCommonTrim_blank hfind hwf] at hclear
      simp only [bitAt, hb, hburnt, if_true] at hclear
      rw [hfields.outside b hin, bitAt, hb]
      exact hclear
  · intro hstraddle _ hreload b hin hb
    have hview := hfield b hin
    rw [hreload, if_neg (by simp), bitAt_stored_second hstraddle hb] at hview
    rw [← hview, ← hreload]
    exact (hseen b hin).resolve_right fun hs => hs.1 hstraddle
  · intro hreload w hburnt
    refine (word_eq fun b hb => ?_).symm
    rw [BitVec.ofNat_eq_ofNat, BitVec.getLsbD_zero]
    by_cases hin : e.Field b
    · have hview := hfield b hin
      rw [if_pos ⟨hreload, hb ▸ hburnt⟩] at hview
      rcases hseen b hin with hsame | ⟨-, hzero⟩
      · rw [← hsame, hview]
      · exact hzero.symm
    · exact (hfields.outside b hin).symm

end RoundTrip

/-! ## The lists of the chips -/

section Lists
variable {chip : EfChip} {e : EfTrimCfg} {value : BitVec 32}

/-- Separate fields in one region, the value within one word and shorter than it. -/
def Plain (chip : EfChip) (e : EfTrimCfg) : Prop :=
  e.enAddr ≠ e.parityAddr ∧
    (e.enAddr < e.valueAddr ∨ e.valueAddr + e.valueLen ≤ e.enAddr) ∧
    (e.parityAddr < e.valueAddr ∨ e.valueAddr + e.valueLen ≤ e.parityAddr) ∧
    e.valueLen < 32 ∧ ¬ e.Straddles ∧
    ((e.enAddr < 8 * chip.r0Size ∧ e.parityAddr < 8 * chip.r0Size ∧
        e.valueAddr + e.valueLen ≤ 8 * chip.r0Size) ∨
      (8 * chip.r0Size ≤ e.enAddr ∧ 8 * chip.r0Size ≤ e.parityAddr ∧ 8 * chip.r0Size ≤ e.valueAddr ∧
        e.enAddr < 8 * chip.totalSize ∧ e.parityAddr < 8 * chip.totalSize ∧
        e.valueAddr + e.valueLen ≤ 8 * chip.totalSize))

instance (chip : EfChip) (e : EfTrimCfg) : Decidable (Plain chip e) :=
  inferInstanceAs (Decidable (_ ∧ _))

theorem Plain.wellFormed (h : Plain chip e) : e.WellFormed chip := by
  obtain ⟨hne, hen, hpar, hlen, -, hside⟩ := h
  have hle : chip.r0Size ≤ chip.totalSize := Nat.le_add_right _ _
  refine ⟨hne, hen, hpar, Nat.le_of_lt hlen, fun b hb => ?_⟩
  unfold EfTrimCfg.Field at hb
  omega

theorem Plain.burnt (h : Plain chip e) {b : Nat} (hb : e.Field b) : e.Burnt chip (b / 32) := by
  obtain ⟨-, -, -, -, -, hside⟩ := h
  have h0 : chip.r0Size % 4 = 0 := by cases chip <;> rfl
  have htotal : chip.totalSize % 4 = 0 := by cases chip <;> rfl
  unfold EfTrimCfg.Field at hb
  unfold EfTrimCfg.Burnt EfChip.inR0 EfChip.inR1
  rcases hside with hlow | hhigh
  · rw [if_pos (by omega)]
    omega
  · rw [if_neg (by omega)]
    omega

theorem Plain.fits (h : Plain chip e) (hvalue : value.toNat < 2 ^ e.valueLen) (reload : Bool) :
    TrimFits chip e value reload := by
  have hword : ¬ e.Straddles := h.2.2.2.2.1
  refine ⟨fun hlen _ => ?_, fun hs => absurd hs hword, fun hs => absurd hs hword,
    fun _ w hw => (word_eq fun b hb => ?_).symm⟩
  · have hshort : e.valueLen < 32 := h.2.2.2.1
    omega
  · have hout : ¬ e.Field b := fun hin => hw (hb ▸ h.burnt hin)
    rw [(imageFields h.wellFormed hvalue).outside b hout]
    simp

theorem commonTrimList_plain (chip : EfChip) : ∀ e ∈ commonTrimList chip,
    (commonTrimList chip).find? (·.matches e.name) = some e ∧ Plain chip e := by
  cases chip with
  | bl602 => decide
  | bl702 => decide
  | bl702l => decide
  | bl616 => decide
  | bl808 => decide

/-- Every trim of every chip is kept. -/
theorem common_trims_kept {chip : EfChip} {e : EfTrimCfg} (he : e ∈ commonTrimList chip)
    {value : BitVec 32} (hvalue : value.toNat < 2 ^ e.valueLen) (reload : Bool) (trim : EfTrim) :
    TrimKept chip (commonTrimList chip) e.name e value reload trim := by
  obtain ⟨hfind, hplain⟩ := commonTrimList_plain chip e he
  exact (hplain.fits hvalue reload).kept hfind hplain.wellFormed hvalue trim

end Lists

/-- Eight bits from bit 28 on, with the other two fields in the first word. -/
def acrossWords : EfTrimCfg := ⟨"x", 0, 1, 28, 8⟩

end EfCtrl
end BouffaloSdk
