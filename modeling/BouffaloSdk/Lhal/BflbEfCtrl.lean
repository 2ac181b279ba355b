import BouffaloSdk.Kit.Word
import Mathlib.Data.List.Basic
import Mathlib.Logic.Function.Basic

/-!
# The eFuse controller

`drivers/lhal/src/bflb_ef_ctrl.c`. The fuses are words of one-way bits behind a window of
data registers: loading copies fuses into the registers, programming burns every bit that
is set in them. The words form one region, on the BL808 two. An operation of the controller
runs to its end before the driver goes on.
-/

namespace BouffaloSdk
open Kit.Word

inductive EfChip
  | bl602
  | bl702
  | bl702l
  | bl616
  | bl808
  deriving DecidableEq, Repr

/-- `EF_CTRL_EFUSE_R0_SIZE` in bytes. -/
def EfChip.r0Size : EfChip → Nat
  | .bl616 => 512
  | _ => 128

/-- `EF_CTRL_EFUSE_R1_SIZE`, where the chip has a second region. -/
def EfChip.r1Size : EfChip → Option Nat
  | .bl808 => some 128
  | _ => none

def EfChip.totalSize (chip : EfChip) : Nat := chip.r0Size + chip.r1Size.getD 0

structure EfCtrl where
  fuses : Nat → BitVec 32
  data : Nat → BitVec 32

/-- The words of the regions, the first from 0 on. -/
def EfChip.inR0 (chip : EfChip) (w : Nat) : Prop := w < chip.r0Size / 4

def EfChip.inR1 (chip : EfChip) (w : Nat) : Prop :=
  chip.r0Size / 4 ≤ w ∧ w < chip.totalSize / 4

instance (chip : EfChip) (w : Nat) : Decidable (chip.inR0 w) :=
  inferInstanceAs (Decidable (_ < _))

instance (chip : EfChip) (w : Nat) : Decidable (chip.inR1 w) :=
  inferInstanceAs (Decidable (_ ∧ _))

namespace EfCtrl

/-- `bflb_ef_ctrl_program_efuse_r0`. -/
def programEfuseR0 (chip : EfChip) (s : EfCtrl) : EfCtrl :=
  { s with fuses := fun w => if chip.inR0 w then s.fuses w ||| s.data w else s.fuses w }

/-- `bflb_ef_ctrl_program_efuse_r1`. -/
def programEfuseR1 (chip : EfChip) (s : EfCtrl) : EfCtrl :=
  { s with fuses := fun w => if chip.inR1 w then s.fuses w ||| s.data w else s.fuses w }

/-- `bflb_ef_ctrl_load_efuse_r0`. -/
def loadEfuseR0 (chip : EfChip) (s : EfCtrl) : EfCtrl :=
  { s with data := fun w => if chip.inR0 w then s.fuses w else s.data w }

/-- `bflb_ef_ctrl_load_efuse_r1`. -/
def loadEfuseR1 (chip : EfChip) (s : EfCtrl) : EfCtrl :=
  { s with data := fun w => if chip.inR1 w then s.fuses w else s.data w }

/-- `arch_memcpy4` of `words` into the data registers. -/
def store (s : EfCtrl) (start : Nat) (words : List (BitVec 32)) : EfCtrl :=
  { s with data := fun w =>
      if start ≤ w then words.getD (w - start) (s.data w) else s.data w }

/-- `arch_memcpy4` of `count` words out of the data registers. -/
def fetch (s : EfCtrl) (start count : Nat) : List (BitVec 32) :=
  (List.range' start count).map s.data

/-! ## Direct access -/

/-- The range check that both routines make. -/
def refused (chip : EfChip) (offset count : Nat) : Prop :=
  chip.totalSize < offset ∨ chip.totalSize < add32 offset (mul32 count 4)

instance (chip : EfChip) (offset count : Nat) : Decidable (refused chip offset count) :=
  inferInstanceAs (Decidable (_ ∨ _))

/-- `region0_count`. -/
def region0Count (chip : EfChip) (offset count : Nat) : Nat :=
  if offset < chip.r0Size then
    if add32 offset (mul32 count 4) ≤ chip.r0Size then count else (chip.r0Size - offset) / 4
  else 0

/-- `region1_count`. -/
def region1Count (chip : EfChip) (offset count : Nat) : Nat :=
  if offset < chip.r0Size then
    if add32 offset (mul32 count 4) ≤ chip.r0Size then 0
    else (add32 offset (mul32 count 4) - chip.r0Size) / 4
  else count

/-- `bflb_ef_ctrl_write_direct` at a word offset. -/
def writeDirect (chip : EfChip) (offset : Nat) (pword : List (BitVec 32)) (program : Bool)
    (s : EfCtrl) : EfCtrl :=
  if refused chip offset pword.length then
    if program then
      let s := s.programEfuseR0 chip
      if chip.r1Size.isSome then s.programEfuseR1 chip else s
    else s
  else
    let count0 := region0Count chip offset pword.length
    let count1 := region1Count chip offset pword.length
    let s :=
      if 0 < count0 then
        let s := s.store (offset / 4) (pword.take count0)
        if program then s.programEfuseR0 chip else s
      else s
    if chip.r1Size.isSome ∧ 0 < count1 then
      let s := s.store (offset / 4 + count0) ((pword.drop count0).take count1)
      if program then s.programEfuseR1 chip else s
    else s

/-- `bflb_ef_ctrl_read_direct` at a word offset: the words stored from `pword` on. -/
def readDirect (chip : EfChip) (offset count : Nat) (reload : Bool) (s : EfCtrl) :
    List (BitVec 32) × EfCtrl :=
  if refused chip offset count then
    if reload then
      let s := s.loadEfuseR0 chip
      ([], if chip.r1Size.isSome then s.loadEfuseR1 chip else s)
    else ([], s)
  else
    let count0 := region0Count chip offset count
    let count1 := region1Count chip offset count
    let (words0, s) :=
      if 0 < count0 then
        let s := if reload then s.loadEfuseR0 chip else s
        (s.fetch (offset / 4) count0, s)
      else ([], s)
    if chip.r1Size.isSome ∧ 0 < count1 then
      let s := if reload then s.loadEfuseR1 chip else s
      -- the count of the first region once more
      (words0 ++ s.fetch (offset / 4 + count0) count0, s)
    else (words0, s)

/-! ## Trim values -/

end EfCtrl

/-- Where the fields of a trim lie, in bits. -/
structure EfTrimCfg where
  name : String
  enAddr : Nat
  parityAddr : Nat
  valueAddr : Nat
  valueLen : Nat
  deriving DecidableEq, Repr

structure EfTrim where
  en : Bool
  parity : Bool
  empty : Bool
  len : Nat
  value : BitVec 32
  deriving DecidableEq, Repr

/-- `bflb_ef_ctrl_get_common_trim_list`: the list of each chip. -/
def commonTrimList : EfChip → List EfTrimCfg
  | .bl602 => [
      ⟨"rc32m", 0x0C * 8 + 19, 0x0C * 8 + 18, 0x0C * 8 + 10, 8⟩,
      ⟨"rc32k", 0x0C * 8 + 31, 0x0C * 8 + 30, 0x0C * 8 + 20, 10⟩,
      ⟨"gpadc_gain", 0x78 * 8 + 14, 0x78 * 8 + 13, 0x78 * 8 + 1, 12⟩,
      ⟨"tsen", 0x78 * 8 + 0, 0x7C * 8 + 12, 0x7C * 8 + 0, 12⟩,
      ⟨"xtal0", 0x0C * 8 + 9, 0x0C * 8 + 8, 0x0C * 8 + 2, 6⟩,
      ⟨"xtal1", 0x70 * 8 + 29, 0x70 * 8 + 28, 0x70 * 8 + 22, 6⟩,
      ⟨"xtal2", 0x08 * 8 + 29, 0x08 * 8 + 28, 0x08 * 8 + 22, 6⟩,
      ⟨"key_enable_dac_dvdd", 0x58 * 8 + 16, 0x58 * 8 + 15, 0x58 * 8 + 13, 2⟩,
      ⟨"key_enable_ldo11", 0x58 * 8 + 12, 0x58 * 8 + 11, 0x58 * 8 + 7, 4⟩,
      ⟨"key_enable_tx_power_res", 0x58 * 8 + 6, 0x58 * 8 + 5, 0x58 * 8 + 0, 5⟩,
      ⟨"key_disable_dac_dvdd", 0x68 * 8 + 16, 0x68 * 8 + 15, 0x68 * 8 + 13, 2⟩,
      ⟨"key_disable_ldo11", 0x68 * 8 + 12, 0x68 * 8 + 11, 0x68 * 8 + 7, 4⟩,
      ⟨"key_disable_tx_power_res", 0x68 * 8 + 6, 0x68 * 8 + 5, 0x68 * 8 + 0, 5⟩]
  | .bl702 => [
      ⟨"rc32m", 0x0C * 8 + 19, 0x0C * 8 + 18, 0x0C * 8 + 10, 8⟩,
      ⟨"rc32k", 0x0C * 8 + 31, 0x0C * 8 + 30, 0x0C * 8 + 20, 10⟩,
      ⟨"gpadc_gain", 0x78 * 8 + 14, 0x78 * 8 + 13, 0x78 * 8 + 1, 12⟩,
      ⟨"tsen", 0x78 * 8 + 0, 0x7C * 8 + 12, 0x7C * 8 + 0, 12⟩]
  | .bl702l => [
      ⟨"rc32m", 0x0C * 8 + 19, 0x0C * 8 + 18, 0x0C * 8 + 10, 8⟩,
      ⟨"rc32k", 0x0C * 8 + 31, 0x0C * 8 + 30, 0x0C * 8 + 20, 10⟩,
      ⟨"ldo14_trim", 0x0C * 8 + 31, 0x0C * 8 + 30, 0x0C * 8 + 26, 4⟩,
      ⟨"xtal", 0x58 * 8 + 9, 0x58 * 8 + 8, 0x58 * 8 + 0, 8⟩,
      ⟨"xtal_2", 0x58 * 8 + 19, 0x58 * 8 + 18, 0x58 * 8 + 10, 8⟩,
      ⟨"xtal_3", 0x58 * 8 + 29, 0x58 * 8 + 28, 0x58 * 8 + 20, 8⟩,
      ⟨"ldo11_trim", 0x78 * 8 + 20, 0x78 * 8 + 19, 0x78 * 8 + 15, 4⟩,
      ⟨"gpadc_gain", 0x78 * 8 + 14, 0x78 * 8 + 13, 0x78 * 8 + 1, 12⟩,
      ⟨"tsen", 0x78 * 8 + 0, 0x7C * 8 + 12, 0x7C * 8 + 0, 12⟩]
  | .bl616 => [
      ⟨"ldo15", 0x68 * 8 + 31, 0x68 * 8 + 30, 0x68 * 8 + 27, 3⟩,
      ⟨"iptat", 0x74 * 8 + 31, 0x74 * 8 + 30, 0x68 * 8 + 22, 5⟩,
      ⟨"icx", 0x74 * 8 + 29, 0x74 * 8 + 28, 0x74 * 8 + 22, 6⟩,
      ⟨"dcdc_trim", 0x78 * 8 + 31, 0x78 * 8 + 30, 0x78 * 8 + 26, 4⟩,
      ⟨"ldo18_sel", 0x78 * 8 + 25, 0x78 * 8 + 24, 0x78 * 8 + 20, 4⟩,
      ⟨"ldo18_trim", 0x78 * 8 + 19, 0x78 * 8 + 18, 0x78 * 8 + 14, 4⟩,
      ⟨"ldo33_trim", 0x78 * 8 + 13, 0x78 * 8 + 12, 0x78 * 8 + 8, 4⟩,
      ⟨"ldo11_tirm", 0x78 * 8 + 7, 0x78 * 8 + 6, 0x78 * 8 + 2, 4⟩,
      ⟨"rc32m", 0x78 * 8 + 1, 0x78 * 8 + 0, 0x7C * 8 + 4, 8⟩,
      ⟨"hp_poffset0", 0xCC * 8 + 26, 0xC0 * 8 + 15, 0xC0 * 8 + 0, 15⟩,
      ⟨"hp_poffset1", 0xCC * 8 + 27, 0xC0 * 8 + 31, 0xC0 * 8 + 16, 15⟩,
      ⟨"hp_poffset2", 0xCC * 8 + 28, 0xC4 * 8 + 15, 0xC4 * 8 + 0, 15⟩,
      ⟨"lp_poffset0", 0xCC * 8 + 29, 0xC4 * 8 + 31, 0xC4 * 8 + 16, 15⟩,
      ⟨"lp_poffset1", 0xCC * 8 + 30, 0xC8 * 8 + 15, 0xC8 * 8 + 0, 15⟩,
      ⟨"lp_poffset2", 0xCC * 8 + 31, 0xC8 * 8 + 31, 0xC8 * 8 + 16, 15⟩,
      ⟨"bz_poffset0", 0xD0 * 8 + 26, 0xCC * 8 + 25, 0xCC * 8 + 0, 25⟩,
      ⟨"bz_poffset1", 0xD0 * 8 + 27, 0xD0 * 8 + 25, 0xD0 * 8 + 0, 25⟩,
      ⟨"bz_poffset2", 0xD0 * 8 + 28, 0xD4 * 8 + 25, 0xD4 * 8 + 0, 25⟩,
      ⟨"tmp_mp0", 0xD8 * 8 + 9, 0xD8 * 8 + 8, 0xD8 * 8 + 0, 8⟩,
      ⟨"tmp_mp1", 0xD8 * 8 + 19, 0xD8 * 8 + 18, 0xD8 * 8 + 10, 8⟩,
      ⟨"tmp_mp2", 0xD8 * 8 + 29, 0xD8 * 8 + 28, 0xD8 * 8 + 20, 8⟩,
      ⟨"auadc_gain", 0xDC * 8 + 25, 0xDC * 8 + 24, 0xDC * 8 + 0, 24⟩,
      ⟨"auadc_offset", 0xE0 * 8 + 25, 0xE0 * 8 + 24, 0xE0 * 8 + 0, 24⟩,
      ⟨"psram_trim", 0xE8 * 8 + 12, 0xE8 * 8 + 11, 0xE8 * 8 + 0, 11⟩,
      ⟨"rc32k", 0xEC * 8 + 19, 0xEC * 8 + 18, 0xEC * 8 + 8, 10⟩,
      ⟨"xtal0", 0xEC * 8 + 7, 0xEC * 8 + 6, 0xEC * 8 + 0, 6⟩,
      ⟨"xtal1", 0xF0 * 8 + 31, 0xF0 * 8 + 30, 0xF4 * 8 + 26, 6⟩,
      ⟨"xtal2", 0xF0 * 8 + 29, 0xF0 * 8 + 28, 0xF4 * 8 + 20, 6⟩,
      ⟨"gpadc_gain", 0xF0 * 8 + 27, 0xF0 * 8 + 26, 0xF0 * 8 + 14, 12⟩,
      ⟨"tsen", 0xF0 * 8 + 13, 0xF0 * 8 + 12, 0xF0 * 8 + 0, 12⟩,
      ⟨"dcdc_dis", 0xF4 * 8 + 19, 0xF4 * 8 + 18, 0xF4 * 8 + 17, 1⟩,
      ⟨"dcdc_vout", 0xF4 * 8 + 16, 0xF4 * 8 + 15, 0xF4 * 8 + 10, 5⟩,
      ⟨"ldo18_bypass", 0xF4 * 8 + 9, 0xF4 * 8 + 8, 0xF4 * 8 + 4, 1⟩,
      ⟨"usb20", 0xF8 * 8 + 15, 0xF8 * 8 + 14, 0xF8 * 8 + 8, 6⟩]
  | .bl808 => [
      ⟨"rc32m", 0x78 * 8 + 1, 0x78 * 8 + 0, 0x7C * 8 + 4, 8⟩,
      ⟨"rc32k", 0xEC * 8 + 19, 0xEC * 8 + 18, 0xEC * 8 + 8, 10⟩,
      ⟨"gpadc_gain", 0xF0 * 8 + 27, 0xF0 * 8 + 26, 0xF0 * 8 + 14, 12⟩,
      ⟨"tsen", 0xF0 * 8 + 13, 0xF0 * 8 + 12, 0xF0 * 8 + 0, 12⟩,
      ⟨"usb20", 0xF8 * 8 + 15, 0xF8 * 8 + 14, 0xF8 * 8 + 8, 6⟩,
      ⟨"dcdc11_trim", 0x78 * 8 + 31, 0x78 * 8 + 30, 0x78 * 8 + 26, 4⟩,
      ⟨"dcdc18_trim", 0x78 * 8 + 25, 0x78 * 8 + 24, 0x78 * 8 + 20, 4⟩,
      ⟨"ldo28cis_trim", 0x78 * 8 + 13, 0x78 * 8 + 12, 0x78 * 8 + 8, 4⟩,
      ⟨"ldo15cis_trim", 0x78 * 8 + 13, 0x78 * 8 + 12, 0x78 * 8 + 8, 4⟩,
      ⟨"ldo18flash_trim", 0xEC * 8 + 31, 0xEC * 8 + 30, 0xEC * 8 + 26, 4⟩,
      ⟨"ldo12uhs_trim", 0xEC * 8 + 25, 0xEC * 8 + 24, 0xEC * 8 + 20, 4⟩]

/-- Whether `arch_memcmp` finds no difference over the length of `name`. -/
def EfTrimCfg.matches (e : EfTrimCfg) (name : String) : Bool :=
  name.toList.isPrefixOf e.name.toList

/-- The value reaches into the next word. -/
def EfTrimCfg.Straddles (e : EfTrimCfg) : Prop := 32 < e.valueAddr % 32 + e.valueLen

instance (e : EfTrimCfg) : Decidable e.Straddles := inferInstanceAs (Decidable (_ < _))

namespace EfCtrl

/-- `bflb_ef_ctrl_get_trim_parity`. -/
def getTrimParity (val : BitVec 32) (len : Nat) : Bool :=
  ((List.range len).countP fun i => val &&& (1#32 <<< i) ≠ 0) % 2 = 1

/-- A register with further bits set. -/
def orReg (s : EfCtrl) (w : Nat) (bits : BitVec 32) : EfCtrl :=
  { s with data := Function.update s.data w (s.data w ||| bits) }

/-- The value that the registers hold for an entry. A shift count of a word is taken
modulo 32. -/
def trimValue (s : EfCtrl) (e : EfTrimCfg) : BitVec 32 :=
  let w := e.valueAddr / 32
  if e.Straddles then
    let tmpval64 := (s.data w).setWidth 64 ||| (s.data (w + 1)).setWidth 64 <<< 32
    let tmpval64 := tmpval64 >>> (e.valueAddr % 32)
    (tmpval64 &&& ((1#64 <<< e.valueLen) - 1)).setWidth 32
  else
    let regVal := s.data w >>> (e.valueAddr % 32)
    regVal &&& ((1#32 <<< (e.valueLen % 32)) - 1)

/-- `bflb_ef_ctrl_read_common_trim` into `trim`. -/
def readCommonTrim (chip : EfChip) (trimList : List EfTrimCfg) (name : String) (trim : EfTrim)
    (reload : Bool) (s : EfCtrl) : EfTrim × EfCtrl :=
  let s :=
    if reload then
      let s := s.loadEfuseR0 chip
      if chip.r1Size.isSome then s.loadEfuseR1 chip else s
    else s
  let trim := { trim with en := false, parity := false, empty := true, len := 0 }
  match trimList.find? (·.matches name) with
  | none => (trim, s)
  | some e =>
    let en := (s.data (e.enAddr / 32)) &&& (1#32 <<< (e.enAddr % 32)) ≠ 0
    let parity := (s.data (e.parityAddr / 32)) &&& (1#32 <<< (e.parityAddr % 32)) ≠ 0
    let value := s.trimValue e
    ({ en := en
       parity := parity
       empty := !en && !parity && value = 0
       len := e.valueLen % 2 ^ 8
       value := value }, s)

/-- `bflb_ef_ctrl_write_common_trim`. -/
def writeCommonTrim (chip : EfChip) (trimList : List EfTrimCfg) (name : String) (value : BitVec 32)
    (program : Bool) (s : EfCtrl) : EfCtrl :=
  match trimList.find? (·.matches name) with
  | none => s
  | some e =>
    let s := s.orReg (e.enAddr / 32) (1#32 <<< (e.enAddr % 32))
    let s :=
      if getTrimParity value (e.valueLen % 2 ^ 8) then
        s.orReg (e.parityAddr / 32) (1#32 <<< (e.parityAddr % 32))
      else s
    let w := e.valueAddr / 32
    let s :=
      if e.Straddles then
        let s := s.orReg w (value <<< (e.valueAddr % 32))
        -- the first word plus four, where the second one is meant
        let regVal := s.data w + 4
        let regVal := regVal ||| value >>> (32 - e.valueAddr % 32)
        { s with data := Function.update s.data (w + 1) regVal }
      else s.orReg w (value <<< (e.valueAddr % 32))
    if program then
      let s := if e.enAddr < chip.r0Size * 8 then s.programEfuseR0 chip else s
      if chip.r1Size.isSome ∧ chip.r0Size * 8 ≤ e.enAddr then s.programEfuseR1 chip else s
    else s

end EfCtrl
end BouffaloSdk
