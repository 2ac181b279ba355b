import BouffaloSdk.Lhal.EfuseDirect

/-!
# Versions burnt into fuses

The anti-rollback part of `drivers/lhal/src/bflb_common.c`. A version is the number of the
highest bit that is burnt in a row of words, on the BL616 kept twice; other chips than the
BL616 and the BL702L have none.
-/

namespace BouffaloSdk
open Kit.Word

inductive EfImage
  | app
  | boot2
  deriving DecidableEq, Repr

/-- Where a version lies: `words` words from byte `offset` on, then perhaps a copy. -/
structure VersionArea where
  offset : Nat
  words : Nat
  redundant : Bool
  deriving DecidableEq, Repr

/-- `ANTI_ROLLBACK_APP_VERSION_OFFSET` and `ANTI_ROLLBACK_BOOT2_VERSION_OFFSET`. -/
def EfImage.area : EfImage → EfChip → Option VersionArea
  | .app, .bl616 => some ⟨0x180, 4, true⟩
  | .boot2, .bl616 => some ⟨0x170, 2, true⟩
  | .app, .bl702l => some ⟨0x04, 2, false⟩
  | .boot2, .bl702l => some ⟨0x4C, 1, false⟩
  | _, _ => none

/-- The bits that an image's version has on the BL616. -/
def EfImage.capacity : EfImage → Nat
  | .app => 128
  | .boot2 => 64

def EfChip.antiRollbackEnableOffset : EfChip → Nat
  | .bl616 => 0x7C
  | _ => 0x74

def EfChip.antiRollbackEnablePos : EfChip → Nat
  | .bl616 => 12
  | _ => 13

namespace VersionArea

def total (a : VersionArea) : Nat := if a.redundant then 2 * a.words else a.words

/-- The word that both copies of word `i` make up. -/
def combined (a : VersionArea) (value : Nat → BitVec 32) (i : Nat) : BitVec 32 :=
  if a.redundant then value i ||| value (a.words + i) else value i

end VersionArea

namespace EfCtrl

/-- `__builtin_clz` of a word that is not zero. -/
def builtinClz (x : BitVec 32) : Nat := 31 - x.toNat.log2

/-- The cases of a `get_version`, from the highest word down. -/
def scanVersion (word : Nat → BitVec 32) : Nat → Nat
  | 0 => 0
  | n + 1 => if word n ≠ 0 then 32 * (n + 1) - builtinClz (word n) else scanVersion word n

/-- The words of `set_version`: one bit of the word that holds it, nothing past the last. -/
def versionWord (version i : Nat) : BitVec 32 :=
  if 32 * i < version ∧ version ≤ 32 * (i + 1) then 1#32 <<< (version - 32 * i - 1) else 0

/-- What `get_app_version` and `get_boot2_version` share; none where they return 1. -/
def getVersionFromEfuse (chip : EfChip) (area : Option VersionArea) (s : EfCtrl) :
    Option Nat × EfCtrl :=
  match area with
  | none => (none, s)
  | some a =>
    let (tmpVal, s) := readDirect chip chip.antiRollbackEnableOffset 1 true s
    if (tmpVal.getD 0 0 >>> chip.antiRollbackEnablePos) &&& 1 = 0 then (none, s)
    else
      let (value, s) := readDirect chip a.offset a.total true s
      (some (scanVersion (a.combined fun i => value.getD i 0) a.words), s)

/-- What `set_app_version` and `set_boot2_version` share, with their result. Only the BL702L
looks whether the version has a bit. -/
def setVersionToEfuse (chip : EfChip) (area : Option VersionArea) (version : Nat) (s : EfCtrl) :
    Nat × EfCtrl :=
  match area with
  | none => (1, s)
  | some a =>
    let (tmpVal, s) := readDirect chip chip.antiRollbackEnableOffset 1 true s
    let tmpVal := tmpVal.getD 0 0 ||| (1#32 <<< chip.antiRollbackEnablePos)
    let s := writeDirect chip chip.antiRollbackEnableOffset [tmpVal] true s
    match getVersionFromEfuse chip area s with
    | (none, s) => (1, s)
    | (some versionOld, s) =>
      if version < versionOld then (1, s)
      else if versionOld = version then (0, s)
      else if chip = .bl702l ∧ 32 * a.words < version then (1, s)
      else
        let value := (List.range a.words).map (versionWord version)
        let value := if a.redundant then value ++ value else value
        (0, writeDirect chip a.offset value true s)

def getAppVersionFromEfuse (chip : EfChip) : EfCtrl → Option Nat × EfCtrl :=
  getVersionFromEfuse chip (EfImage.app.area chip)

def getBoot2VersionFromEfuse (chip : EfChip) : EfCtrl → Option Nat × EfCtrl :=
  getVersionFromEfuse chip (EfImage.boot2.area chip)

def setAppVersionToEfuse (chip : EfChip) : Nat → EfCtrl → Nat × EfCtrl :=
  setVersionToEfuse chip (EfImage.app.area chip)

def setBoot2VersionToEfuse (chip : EfChip) : Nat → EfCtrl → Nat × EfCtrl :=
  setVersionToEfuse chip (EfImage.boot2.area chip)

/-- The function that reads the version of an image. -/
def getVersion : EfImage → EfChip → EfCtrl → Option Nat × EfCtrl
  | .app => getAppVersionFromEfuse
  | .boot2 => getBoot2VersionFromEfuse

/-- The function that burns the version of an image. -/
def setVersion : EfImage → EfChip → Nat → EfCtrl → Nat × EfCtrl
  | .app => setAppVersionToEfuse
  | .boot2 => setBoot2VersionToEfuse

theorem getVersion_eq (img : EfImage) (chip : EfChip) :
    getVersion img chip = getVersionFromEfuse chip (img.area chip) := by
  cases img <;> rfl

theorem setVersion_eq (img : EfImage) (chip : EfChip) :
    setVersion img chip = setVersionToEfuse chip (img.area chip) := by
  cases img <;> rfl

/-! ## The highest bit -/

section Scan
variable {word word' : Nat → BitVec 32} {n v : Nat}

/-- Bit `b` of a row of words. -/
def rowBit (word : Nat → BitVec 32) (b : Nat) : Bool := (word (b / 32)).getLsbD (b % 32)

/-- `v` is the number of the highest of the first `32 * n` bits that is set. -/
structure Highest (word : Nat → BitVec 32) (n v : Nat) : Prop where
  le : v ≤ 32 * n
  top : 0 < v → rowBit word (v - 1) = true
  above : ∀ b, v ≤ b → b < 32 * n → rowBit word b = false

theorem highest_scanVersion (word : Nat → BitVec 32) (n : Nat) :
    Highest word n (scanVersion word n) := by
  induction n with
  | zero => exact ⟨Nat.le_refl _, fun h => absurd h (Nat.lt_irrefl 0), fun b _ h => by omega⟩
  | succ n ih =>
    unfold scanVersion
    by_cases hzero : word n = 0
    · rw [if_neg (not_not_intro hzero)]
      refine ⟨by have := ih.le; omega, ih.top, fun b hb hn => ?_⟩
      rcases Nat.lt_or_ge b (32 * n) with hlt | hge
      · exact ih.above b hb hlt
      · rw [rowBit, show b / 32 = n by omega, hzero]
        simp
    · rw [if_pos hzero]
      have hne : (word n).toNat ≠ 0 := by
        intro h
        exact hzero (BitVec.eq_of_toNat_eq h)
      have hlog : (word n).toNat.log2 < 32 := (Nat.log2_lt hne).mpr (word n).isLt
      have hv : 32 * (n + 1) - builtinClz (word n) = 32 * n + (word n).toNat.log2 + 1 := by
        unfold builtinClz
        omega
      rw [hv]
      refine ⟨by omega, fun _ => ?_, fun b hb hn => ?_⟩
      · rw [rowBit, show (32 * n + (word n).toNat.log2 + 1 - 1) / 32 = n by omega,
          show (32 * n + (word n).toNat.log2 + 1 - 1) % 32 = (word n).toNat.log2 by omega]
        exact Nat.testBit_log2 hne
      · rw [rowBit, show b / 32 = n by omega]
        exact Nat.testBit_lt_two_pow (Nat.lt_of_lt_of_le (Nat.lt_log2_self)
          (Nat.pow_le_pow_right (by decide) (by omega)))

theorem Highest.unique {v' : Nat} (h : Highest word n v) (h' : Highest word n v') : v = v' := by
  rcases Nat.lt_trichotomy v v' with hlt | heq | hgt
  · have hset := h'.top (by omega)
    rw [h.above (v' - 1) (by omega) (by have := h'.le; omega)] at hset
    exact absurd hset (by decide)
  · exact heq
  · have hset := h.top (by omega)
    rw [h'.above (v - 1) (by omega) (by have := h.le; omega)] at hset
    exact absurd hset (by decide)

/-- More bits do not lower the highest one. -/
theorem scanVersion_mono (h : ∀ b < 32 * n, rowBit word b = true → rowBit word' b = true) :
    scanVersion word n ≤ scanVersion word' n := by
  have hold := highest_scanVersion word n
  have hnew := highest_scanVersion word' n
  by_contra hlt
  have hset := h (scanVersion word n - 1) (by have := hold.le; omega) (hold.top (by omega))
  rw [hnew.above _ (by omega) (by have := hold.le; omega)] at hset
  exact absurd hset (by decide)

end Scan

/-! ## Fuses of a single region -/

section Single
variable {chip : EfChip} {offset n : Nat} {s : EfCtrl}

theorem totalSize_of_single (h : chip.r1Size = none) : chip.totalSize = chip.r0Size := by
  rw [EfChip.totalSize, h]
  rfl

theorem r0Size_le (chip : EfChip) : chip.r0Size ≤ 512 := by
  cases chip <;> decide

/-- A range within the only region is taken as one piece. -/
theorem single_counts (h : chip.r1Size = none) (hin : offset + 4 * n ≤ chip.r0Size) (hn : 0 < n) :
    ¬ refused chip offset n ∧ region0Count chip offset n = n := by
  have hsize := r0Size_le chip
  have hend : add32 offset (mul32 n 4) = offset + 4 * n := by
    rw [mul32_eq (by omega), add32_eq (by omega), Nat.mul_comm]
  constructor
  · unfold refused
    rw [hend, totalSize_of_single h]
    omega
  · rw [region0Count, hend, if_pos (by omega), if_pos hin]

theorem readDirect_single (h : chip.r1Size = none) (hin : offset + 4 * n ≤ chip.r0Size)
    (haligned : offset % 4 = 0) (hr0 : chip.r0Size % 4 = 0) (hn : 0 < n) :
    readDirect chip offset n true s =
      ((List.range' (offset / 4) n).map s.fuses, s.loadEfuseR0 chip) := by
  obtain ⟨haccepted, hcount⟩ := single_counts h hin hn
  unfold readDirect
  rw [if_neg haccepted]
  simp only [hcount, hn, if_true, h, Option.isSome_none, Bool.false_eq_true, false_and, if_false]
  congr 1
  refine List.map_congr_left fun w hw => if_pos ?_
  rw [List.mem_range'_1] at hw
  unfold EfChip.inR0
  omega

theorem writeDirect_single {words : List (BitVec 32)} (h : chip.r1Size = none)
    (hin : offset + 4 * words.length ≤ chip.r0Size) (hn : 0 < words.length) :
    writeDirect chip offset words true s =
      (s.store (offset / 4) words).programEfuseR0 chip := by
  obtain ⟨haccepted, hcount⟩ := single_counts h hin hn
  unfold writeDirect
  rw [if_neg haccepted]
  simp only [hcount, hn, if_true, h, Option.isSome_none, Bool.false_eq_true, false_and, if_false,
    List.take_length]

/-- Words burnt over what the registers mirror. -/
theorem fuses_burn {start : Nat} {words : List (BitVec 32)}
    (hin : start + words.length ≤ chip.r0Size / 4) :
    (((s.loadEfuseR0 chip).store start words).programEfuseR0 chip).fuses =
      fun w => s.fuses w ||| wordsAt start words w := by
  funext w
  show (if chip.inR0 w then s.fuses w ||| (if start ≤ w then
      words.getD (w - start) (if chip.inR0 w then s.fuses w else s.data w)
    else if chip.inR0 w then s.fuses w else s.data w) else s.fuses w) = _
  by_cases hw : start ≤ w ∧ w < start + words.length
  · have hr0 : chip.inR0 w := Nat.lt_of_lt_of_le hw.2 hin
    rw [if_pos hr0, if_pos hw.1, wordsAt, if_pos hw.1, List.getD_eq_getElem _ _ (by omega),
      List.getD_eq_getElem _ _ (by omega)]
  · have hsame : (if start ≤ w then
          words.getD (w - start) (if chip.inR0 w then s.fuses w else s.data w)
        else if chip.inR0 w then s.fuses w else s.data w) =
          if chip.inR0 w then s.fuses w else s.data w := by
      split
      · exact List.getD_eq_default _ _ (by omega)
      · rfl
    rw [hsame, wordsAt_outside (by omega)]
    split
    · rw [BitVec.or_self]
      exact BitVec.or_zero.symm
    · exact BitVec.or_zero.symm

end Single

/-! ## What the calls do to the fuses -/

/-- The version that the fuses hold. -/
def versionOf (a : VersionArea) (f : Nat → BitVec 32) : Nat :=
  scanVersion (a.combined fun i => f (a.offset / 4 + i)) a.words

def antiRollbackEnabled (chip : EfChip) (f : Nat → BitVec 32) : Bool :=
  (f (chip.antiRollbackEnableOffset / 4)).getLsbD chip.antiRollbackEnablePos

/-- An area within the only region, apart from the enable word. -/
structure AreaFits (chip : EfChip) (a : VersionArea) : Prop where
  single : chip.r1Size = none
  r0 : chip.r0Size % 4 = 0
  aligned : a.offset % 4 = 0
  words : 0 < a.words
  inside : a.offset + 4 * a.total ≤ chip.r0Size
  apart : chip.antiRollbackEnableOffset / 4 < a.offset / 4 ∨
    a.offset / 4 + a.total ≤ chip.antiRollbackEnableOffset / 4
  enable : chip.antiRollbackEnableOffset + 4 ≤ chip.r0Size
  enable_aligned : chip.antiRollbackEnableOffset % 4 = 0
  pos : chip.antiRollbackEnablePos < 32

theorem area_fits {img : EfImage} {chip : EfChip} {a : VersionArea} (h : img.area chip = some a) :
    AreaFits chip a := by
  cases img <;> cases chip <;> cases h <;>
    exact ⟨by decide, by decide, by decide, by decide, by decide, by decide, by decide, by decide,
      by decide⟩

section Calls
variable {chip : EfChip} {a : VersionArea} {s : EfCtrl} {version : Nat}

theorem scanVersion_congr {word word' : Nat → BitVec 32} {n : Nat}
    (h : ∀ i < n, word i = word' i) : scanVersion word n = scanVersion word' n := by
  induction n with
  | zero => rfl
  | succ n ih =>
    rw [scanVersion, scanVersion, h n (Nat.lt_succ_self n), ih fun i hi => h i (by omega)]

theorem combined_congr {value value' : Nat → BitVec 32} {i : Nat} (hi : i < a.words)
    (h : ∀ k < a.total, value k = value' k) : a.combined value i = a.combined value' i := by
  unfold VersionArea.combined
  unfold VersionArea.total at h
  cases hr : a.redundant with
  | false => exact h i (by simpa [hr] using hi)
  | true =>
    rw [hr] at h
    simp only [if_true] at h ⊢
    rw [h i (by omega), h (a.words + i) (by omega)]

theorem and_one_eq_zero (x : BitVec 32) (n : Nat) : (x >>> n) &&& 1 = 0 ↔ x.getLsbD n = false := by
  have hbit : (x >>> n) &&& 1 = (if x.getLsbD n then 1 else 0) := by
    rw [BitVec.ofNat_eq_ofNat, BitVec.and_one_eq_setWidth_ofBool_getLsbD]
    rw [BitVec.getLsbD_ushiftRight, Nat.add_zero]
    cases x.getLsbD n <;> rfl
  rw [hbit]
  cases x.getLsbD n with
  | false => simp
  | true => simp

/-- `get_version` returns what the fuses hold, if anti-rollback is enabled. -/
theorem getVersionFromEfuse_eq (h : AreaFits chip a) :
    getVersionFromEfuse chip (some a) s =
      (if antiRollbackEnabled chip s.fuses then some (versionOf a s.fuses) else none,
        s.loadEfuseR0 chip) := by
  have htotal : 0 < a.total := by
    have := h.words
    unfold VersionArea.total
    split <;> omega
  have hload : ((s.loadEfuseR0 chip).loadEfuseR0 chip) = s.loadEfuseR0 chip := by
    unfold loadEfuseR0
    congr 1
    funext w
    simp only
    split <;> simp_all
  unfold getVersionFromEfuse
  simp only
  rw [readDirect_single h.single (by have := h.enable; omega) h.enable_aligned h.r0 Nat.one_pos,
    readDirect_single h.single h.inside h.aligned h.r0 htotal]
  simp only [List.range'_one, List.map_cons, List.map_nil, List.getD_cons_zero, hload]
  have hfuses : (s.loadEfuseR0 chip).fuses = s.fuses := rfl
  rw [hfuses]
  by_cases hon : antiRollbackEnabled chip s.fuses
  · have hbit : ¬ (s.fuses (chip.antiRollbackEnableOffset / 4) >>> chip.antiRollbackEnablePos) &&& 1
        = 0 := by
      rw [and_one_eq_zero]
      unfold antiRollbackEnabled at hon
      simp [hon]
    have hscan : scanVersion (a.combined fun i =>
        ((List.range' (a.offset / 4) a.total).map s.fuses).getD i 0) a.words =
          versionOf a s.fuses := by
      refine scanVersion_congr fun i hi => combined_congr hi fun k hk => ?_
      rw [List.getD_eq_getElem _ _ (by simpa using hk)]
      simp
    rw [if_neg hbit, if_pos hon, hscan]
  · have hbit : (s.fuses (chip.antiRollbackEnableOffset / 4) >>> chip.antiRollbackEnablePos) &&& 1
        = 0 := by
      rw [and_one_eq_zero]
      unfold antiRollbackEnabled at hon
      simpa using hon
    rw [if_pos hbit, if_neg hon]

/-- The fuses with the enable bit burnt. -/
def enabledFuses (chip : EfChip) (f : Nat → BitVec 32) (w : Nat) : BitVec 32 :=
  f w ||| wordsAt (chip.antiRollbackEnableOffset / 4)
    [f (chip.antiRollbackEnableOffset / 4) ||| (1#32 <<< chip.antiRollbackEnablePos)] w

theorem enabledFuses_enabled (hpos : chip.antiRollbackEnablePos < 32) (f : Nat → BitVec 32) :
    antiRollbackEnabled chip (enabledFuses chip f) = true := by
  simp [antiRollbackEnabled, enabledFuses, wordsAt, hpos]

theorem enabledFuses_apart {f : Nat → BitVec 32} {w : Nat}
    (hw : w ≠ chip.antiRollbackEnableOffset / 4) : enabledFuses chip f w = f w := by
  rw [enabledFuses, wordsAt_outside (by simp; omega)]
  exact BitVec.or_zero

theorem versionOf_congr {f f' : Nat → BitVec 32}
    (h : ∀ k < a.total, f (a.offset / 4 + k) = f' (a.offset / 4 + k)) :
    versionOf a f = versionOf a f' :=
  scanVersion_congr fun _ hi => combined_congr hi h

theorem versionOf_enabled (h : AreaFits chip a) (f : Nat → BitVec 32) :
    versionOf a (enabledFuses chip f) = versionOf a f :=
  versionOf_congr fun k hk => enabledFuses_apart (by have := h.apart; omega)

/-- The words of a version, with their copy. -/
def versionWords (a : VersionArea) (version : Nat) : List (BitVec 32) :=
  let value := (List.range a.words).map (versionWord version)
  if a.redundant then value ++ value else value

theorem length_versionWords (a : VersionArea) (version : Nat) :
    (versionWords a version).length = a.total := by
  unfold versionWords VersionArea.total
  cases a.redundant with
  | false => simp
  | true =>
    simp
    omega

/-- The fuses with the bit of a version burnt as well. -/
def versionedFuses (a : VersionArea) (version : Nat) (f : Nat → BitVec 32) (w : Nat) : BitVec 32 :=
  f w ||| wordsAt (a.offset / 4) (versionWords a version) w

/-- The state with the enable bit burnt, as `set_version` leaves it first. -/
theorem burn_enable (h : AreaFits chip a) :
    (writeDirect chip chip.antiRollbackEnableOffset
      [s.fuses (chip.antiRollbackEnableOffset / 4) ||| (1#32 <<< chip.antiRollbackEnablePos)] true
      (s.loadEfuseR0 chip)).fuses = enabledFuses chip s.fuses := by
  have henable := h.enable
  have hwrite := @writeDirect_single chip chip.antiRollbackEnableOffset (s.loadEfuseR0 chip)
    [s.fuses (chip.antiRollbackEnableOffset / 4) ||| (1#32 <<< chip.antiRollbackEnablePos)]
    h.single (by simpa using henable) Nat.one_pos
  rw [hwrite, fuses_burn]
  · rfl
  · simp only [List.length_cons, List.length_nil]
    omega

theorem burn_version (h : AreaFits chip a) :
    (writeDirect chip a.offset (versionWords a version) true (s.loadEfuseR0 chip)).fuses =
      versionedFuses a version s.fuses := by
  have hinside := h.inside
  have hwords : 0 < a.total := by
    have := h.words
    unfold VersionArea.total
    split <;> omega
  have haligned := h.aligned
  rw [writeDirect_single h.single (by rw [length_versionWords]; exact hinside)
    (by rw [length_versionWords]; exact hwords), fuses_burn]
  · rfl
  · rw [length_versionWords]
    omega

/-- What `set_version` returns and leaves in the fuses. -/
theorem setVersionToEfuse_eq (h : AreaFits chip a) :
    (setVersionToEfuse chip (some a) version s).1 =
        (if version < versionOf a s.fuses then 1
          else if versionOf a s.fuses = version then 0
          else if chip = .bl702l ∧ 32 * a.words < version then 1 else 0) ∧
      (setVersionToEfuse chip (some a) version s).2.fuses =
        if version ≤ versionOf a s.fuses ∨ chip = .bl702l ∧ 32 * a.words < version then
          enabledFuses chip s.fuses
        else versionedFuses a version (enabledFuses chip s.fuses) := by
  have hburn := burn_enable (s := s) h
  unfold setVersionToEfuse
  simp only
  rw [readDirect_single h.single (by have := h.enable; omega) h.enable_aligned h.r0 Nat.one_pos]
  simp only [List.range'_one, List.map_cons, List.map_nil, List.getD_cons_zero]
  rw [getVersionFromEfuse_eq h, hburn, enabledFuses_enabled h.pos, versionOf_enabled h, if_pos rfl]
  generalize writeDirect chip chip.antiRollbackEnableOffset
    [s.fuses (chip.antiRollbackEnableOffset / 4) ||| (1#32 <<< chip.antiRollbackEnablePos)] true
      (s.loadEfuseR0 chip) = u at hburn ⊢
  simp only
  by_cases hlt : version < versionOf a s.fuses
  · rw [if_pos hlt, if_pos hlt, if_pos (Or.inl (Nat.le_of_lt hlt))]
    exact ⟨rfl, hburn⟩
  by_cases heq : versionOf a s.fuses = version
  · rw [if_neg hlt, if_neg hlt, if_pos heq, if_pos heq, if_pos (Or.inl (Nat.le_of_eq heq.symm))]
    exact ⟨rfl, hburn⟩
  by_cases hbig : chip = .bl702l ∧ 32 * a.words < version
  · rw [if_neg hlt, if_neg hlt, if_neg heq, if_neg heq, if_pos hbig, if_pos hbig,
      if_pos (Or.inr hbig)]
    exact ⟨rfl, hburn⟩
  · have hburns : ¬ (version ≤ versionOf a s.fuses ∨ chip = .bl702l ∧ 32 * a.words < version) := by
      rintro (hle | h702l)
      · omega
      · exact hbig h702l
    rw [if_neg hlt, if_neg hlt, if_neg heq, if_neg heq, if_neg hbig, if_neg hbig, if_neg hburns]
    refine ⟨rfl, ?_⟩
    rw [← hburn]
    exact burn_version h

/-- Fuses that were burnt stay so. -/
theorem versionOf_mono {f f' : Nat → BitVec 32}
    (h : ∀ w j, (f w).getLsbD j = true → (f' w).getLsbD j = true) :
    versionOf a f ≤ versionOf a f' := by
  refine scanVersion_mono fun b _ hb => ?_
  unfold rowBit VersionArea.combined at hb ⊢
  cases hr : a.redundant with
  | false =>
    rw [hr] at hb
    exact h _ _ hb
  | true =>
    rw [hr] at hb
    simp only [if_true, BitVec.getLsbD_or, Bool.or_eq_true] at hb ⊢
    exact hb.imp (h _ _) (h _ _)

theorem rowBit_versionWord (version b : Nat) :
    rowBit (versionWord version) b = decide (b + 1 = version) := by
  have hb := Nat.mod_lt b (show 0 < 32 by decide)
  unfold rowBit versionWord
  by_cases hin : 32 * (b / 32) < version ∧ version ≤ 32 * (b / 32 + 1)
  · rw [if_pos hin, BitVec.getLsbD_shiftLeft, BitVec.getLsbD_one]
    by_cases htop : b + 1 = version
    · have heq : version - 32 * (b / 32) - 1 = b % 32 := by omega
      simp [htop, heq, hb]
    · simp only [htop, decide_false]
      by_cases hlt : b % 32 < version - 32 * (b / 32) - 1
      · simp [hlt]
      · have : ¬ b % 32 - (version - 32 * (b / 32) - 1) = 0 := by omega
        simp [this]
  · rw [if_neg hin]
    have htop : b + 1 ≠ version := by omega
    simp [htop]

theorem combined_versionWords {i : Nat} (hi : i < a.words) :
    (a.combined fun k => (versionWords a version).getD k 0) i = versionWord version i := by
  unfold VersionArea.combined versionWords
  cases a.redundant with
  | false => simp [List.getD_eq_getElem?_getD, hi]
  | true => simp [List.getD_eq_getElem?_getD, List.getElem?_append, hi]

/-- The version after its bit is burnt. -/
theorem versionOf_versioned {f : Nat → BitVec 32} (hlt : versionOf a f < version) :
    versionOf a (versionedFuses a version f) =
      if version ≤ 32 * a.words then version else versionOf a f := by
  have hwords : ∀ i < a.words,
      (a.combined fun i => versionedFuses a version f (a.offset / 4 + i)) i =
        (a.combined fun i => f (a.offset / 4 + i)) i ||| versionWord version i := by
    intro i hi
    rw [← combined_versionWords hi]
    unfold VersionArea.combined versionedFuses wordsAt
    cases a.redundant with
    | false => simp
    | true =>
      simp only [if_true, Nat.le_add_right, Nat.add_sub_cancel_left]
      ac_rfl
  have hold : Highest (a.combined fun i => f (a.offset / 4 + i)) a.words (versionOf a f) :=
    highest_scanVersion _ _
  have hrow : ∀ b < 32 * a.words,
      rowBit (a.combined fun i => versionedFuses a version f (a.offset / 4 + i)) b =
        (rowBit (a.combined fun i => f (a.offset / 4 + i)) b || decide (b + 1 = version)) := by
    intro b hb
    rw [rowBit, hwords _ (by omega), BitVec.getLsbD_or, ← rowBit_versionWord]
    rfl
  refine (highest_scanVersion _ _).unique ?_
  by_cases hfits : version ≤ 32 * a.words
  · rw [if_pos hfits]
    refine ⟨hfits, fun hpos => ?_, fun b hb hn => ?_⟩
    · rw [hrow _ (by omega), show version - 1 + 1 = version by omega]
      simp
    · rw [hrow b hn, hold.above b (by omega) hn]
      simp
      omega
  · rw [if_neg hfits]
    refine ⟨hold.le, fun hpos => ?_, fun b hb hn => ?_⟩
    · rw [hrow _ (by have := hold.le; omega), hold.top hpos]
      rfl
    · rw [hrow b hn, hold.above b hb hn]
      simp
      omega

end Calls

/-! ## The versions only grow -/

/-- The call grows every version that can be read; it reports success only if the version is
then the larger of the old and the requested one, and a version without a bit as an error. -/
structure Truthful (chip : EfChip) (img : EfImage) (version : Nat) (s : EfCtrl) : Prop where
  grows : ∀ img' v, (getVersion img' chip s).1 = some v →
    ∃ v', (getVersion img' chip (setVersion img chip version s).2).1 = some v' ∧ v ≤ v'
  success : (setVersion img chip version s).1 = 0 → ∀ a, img.area chip = some a →
    (getVersion img chip (setVersion img chip version s).2).1 =
      some (max (versionOf a s.fuses) version)
  capacity : ∀ a, img.area chip = some a → 32 * a.words < version →
    (setVersion img chip version s).1 ≠ 0

/-- Bits that were burnt stay burnt. -/
theorem setVersion_burns {img : EfImage} {chip : EfChip} {a : VersionArea} {version : Nat}
    {s : EfCtrl} (h : img.area chip = some a) (w j : Nat)
    (hbit : (s.fuses w).getLsbD j = true) :
    ((setVersion img chip version s).2.fuses w).getLsbD j = true := by
  rw [setVersion_eq, h, (setVersionToEfuse_eq (area_fits h)).2]
  split
  · rw [enabledFuses, BitVec.getLsbD_or, hbit, Bool.true_or]
  · rw [versionedFuses, enabledFuses, BitVec.getLsbD_or, BitVec.getLsbD_or, hbit, Bool.true_or,
      Bool.true_or]

theorem setVersion_enables {img : EfImage} {chip : EfChip} {a : VersionArea} {version : Nat}
    {s : EfCtrl} (h : img.area chip = some a) :
    antiRollbackEnabled chip (setVersion img chip version s).2.fuses = true := by
  have hon := enabledFuses_enabled (area_fits h).pos s.fuses
  rw [setVersion_eq, h, (setVersionToEfuse_eq (area_fits h)).2]
  split
  · exact hon
  · unfold antiRollbackEnabled at hon ⊢
    rw [versionedFuses, BitVec.getLsbD_or, hon, Bool.true_or]

theorem area_cases {img : EfImage} {chip : EfChip} {a : VersionArea} (h : img.area chip = some a) :
    (chip = .bl616 ∧ 32 * a.words = img.capacity) ∨ chip = .bl702l := by
  cases img <;> cases chip <;> cases h
  · exact Or.inr rfl
  · exact Or.inl ⟨rfl, rfl⟩
  · exact Or.inr rfl
  · exact Or.inl ⟨rfl, rfl⟩

theorem versionOf_le (a : VersionArea) (f : Nat → BitVec 32) : versionOf a f ≤ 32 * a.words :=
  (highest_scanVersion _ _).le

/-- What `get_version` reads after a call. -/
theorem getVersion_after {img img' : EfImage} {chip : EfChip} {a a' : VersionArea} {version : Nat}
    {s : EfCtrl} (h : img.area chip = some a) (h' : img'.area chip = some a') :
    (getVersion img' chip (setVersion img chip version s).2).1 =
      some (versionOf a' (setVersion img chip version s).2.fuses) := by
  rw [getVersion_eq, h', getVersionFromEfuse_eq (area_fits h'), setVersion_enables h, if_pos rfl]

theorem setVersion_grows {img : EfImage} {chip : EfChip} {a : VersionArea} {version : Nat}
    {s : EfCtrl} (h : img.area chip = some a) (img' : EfImage) (v : Nat)
    (hget : (getVersion img' chip s).1 = some v) :
    ∃ v', (getVersion img' chip (setVersion img chip version s).2).1 = some v' ∧ v ≤ v' := by
  rw [getVersion_eq] at hget
  cases ha' : img'.area chip with
  | none =>
    rw [ha'] at hget
    simp [getVersionFromEfuse] at hget
  | some a' =>
    rw [ha', getVersionFromEfuse_eq (area_fits ha')] at hget
    refine ⟨_, getVersion_after h ha', ?_⟩
    simp only at hget
    split at hget
    · cases hget
      exact versionOf_mono fun w j hbit => setVersion_burns h w j hbit
    · cases hget

/-- On the BL616 a version past the last bit burns nothing and is reported as burnt; apart
from that the calls are truthful. -/
theorem set_version_truthful_iff (chip : EfChip) (img : EfImage) (version : Nat) (s : EfCtrl) :
    Truthful chip img version s ↔ (chip = .bl616 → version ≤ img.capacity) := by
  cases harea : img.area chip with
  | none =>
    have hset : setVersion img chip version s = (1, s) := by
      rw [setVersion_eq, harea]
      rfl
    constructor
    · intro _ hchip
      rw [hchip] at harea
      cases img <;> cases harea
    · intro _
      refine ⟨fun img' v hget => ⟨v, ?_, Nat.le_refl v⟩, fun h0 => ?_, fun a ha => ?_⟩
      · rw [hset]
        exact hget
      · rw [hset] at h0
        cases h0
      · rw [harea] at ha
        cases ha
  | some a =>
    have hle := versionOf_le a s.fuses
    obtain ⟨hret, hfuses⟩ := setVersionToEfuse_eq (s := s) (area_fits harea)
    rw [← harea, ← setVersion_eq] at hret hfuses
    constructor
    · rintro h rfl
      have hcap : 32 * a.words = img.capacity := by
        rcases area_cases harea with hcap | h702l
        · exact hcap.2
        · cases h702l
      by_contra hbig
      refine h.capacity a harea (by omega) ?_
      rw [hret, if_neg (by omega), if_neg (by omega), if_neg fun hc => by cases hc.1]
    · intro h
      have hbits : chip ≠ .bl702l → version ≤ 32 * a.words := by
        intro hne
        rcases area_cases harea with ⟨h616, hcap⟩ | h702l
        · rw [hcap]
          exact h h616
        · exact absurd h702l hne
      refine ⟨fun img' v => setVersion_grows harea img' v, fun h0 a' ha' => ?_, fun a' ha' hbig => ?_⟩
      · obtain rfl : a = a' := Option.some.inj (harea.symm.trans ha')
        rw [getVersion_after harea harea, hfuses]
        rw [hret] at h0
        by_cases hlt : version < versionOf a s.fuses
        · rw [if_pos hlt] at h0
          cases h0
        by_cases heq : versionOf a s.fuses = version
        · rw [if_pos (Or.inl (Nat.le_of_eq heq.symm)), versionOf_enabled (area_fits harea), heq,
            Nat.max_self]
        · rw [if_neg hlt, if_neg heq] at h0
          have hfits : ¬ (chip = .bl702l ∧ 32 * a.words < version) := by
            intro hc
            rw [if_pos hc] at h0
            cases h0
          have hburns : ¬ (version ≤ versionOf a s.fuses ∨
              chip = .bl702l ∧ 32 * a.words < version) := by
            rintro (hc | hc)
            · omega
            · exact hfits hc
          have hcap : version ≤ 32 * a.words := by
            by_cases h702l : chip = .bl702l
            · exact Nat.le_of_not_lt fun hc => hfits ⟨h702l, hc⟩
            · exact hbits h702l
          rw [if_neg hburns, versionOf_versioned (by rw [versionOf_enabled (area_fits harea)]; omega),
            if_pos hcap, Nat.max_eq_right (by omega)]
      · obtain rfl : a = a' := Option.some.inj (harea.symm.trans ha')
        have h702l : chip = .bl702l := by
          by_contra hne
          have := hbits hne
          omega
        rw [hret, if_neg (by omega), if_neg (by omega), if_pos ⟨h702l, hbig⟩]
        decide

/-- Version 200 of the application on blank fuses is reported as burnt. -/
theorem app_version_lost : ¬ Truthful .bl616 .app 200 blank := by
  intro h
  exact h.capacity ⟨0x180, 4, true⟩ rfl (by decide) (by decide +kernel)

end EfCtrl
end BouffaloSdk
