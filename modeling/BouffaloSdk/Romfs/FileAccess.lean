import BouffaloSdk.Kit.Runs
import BouffaloSdk.Romfs.Lookup

/-!
# Reading and seeking in a file

A read and a seek work on 32-bit sums. A file is read right exactly as long as
no sum wraps to a place inside the file.
-/

namespace BouffaloSdk.Romfs
open Kit Kit.Runs Kit.Word

/-- A file of the tree: its place, name and bytes. -/
inductive Holds : List Entry → Nat → List UInt8 → List UInt8 → Prop
  | here {off : Nat} {name data : List UInt8} {es : List Entry} :
    Holds (.file off name data :: es) off name data
  | beside {off : Nat} {name data : List UInt8} {e : Entry} {es : List Entry} :
    Holds es off name data → Holds (e :: es) off name data
  | inside {off dirOff : Nat} {name data dirName : List UInt8} {children es : List Entry} :
    Holds children off name data → Holds (.dir dirOff dirName children :: es) off name data

inductive FileOp
  | read (length : UInt32)
  | lseek (off : Int32) (whence : RomfsWhence)
  deriving DecidableEq

def fileStep (img : Image) (fp : RomfsFile) : FileOp → Option RomfsFile
  | .read length => some (romfsRead img fp length.toNat).1
  | .lseek off whence => some (romfsLseek img fp off.toInt whence).1

/-- The position a seek asks for in a file of `size` bytes. -/
def requested (size : Nat) (fp : RomfsFile) (off : Int) : RomfsWhence → Option Int
  | .romfsSeekSet => some off
  | .romfsSeekCur => some (fp.offset + off)
  | .romfsSeekEnd => some (size + off)
  | .unnamed => none

def seekErrors : List Nat := [sizeT (-2), sizeT (-3), sizeT (-4), sizeT (-5)]

/-- A seek goes to a position of the file, or it fails and changes nothing. -/
def SeeksRight (img : Image) (size : Nat) (fp : RomfsFile) (off : Int) (whence : RomfsWhence) :
    Prop :=
  (∃ pos : Nat, pos ≤ size ∧ requested size fp off whence = some (pos : Int) ∧
      romfsLseek img fp off whence = ({ fp with offset := pos }, pos)) ∨
    (∀ pos : Nat, pos ≤ size → requested size fp off whence ≠ some (pos : Int)) ∧
      (romfsLseek img fp off whence).1 = fp ∧ (romfsLseek img fp off whence).2 ∈ seekErrors

/-- A read hands out what the file has from the offset on and moves behind it. -/
def ReadsRight (img : Image) (data : List UInt8) (fp : RomfsFile) (length : Nat) : Prop :=
  romfsRead img fp length =
    ({ fp with offset := fp.offset + min length (data.length - fp.offset) },
      (data.drop fp.offset).take length, min length (data.length - fp.offset))

def AccessRight (img : Image) (data : List UInt8) (fp : RomfsFile) (op : FileOp)
    (fp' : RomfsFile) : Prop :=
  fp'.offset ≤ data.length ∧
    match op with
    | .read length => ReadsRight img data fp length.toNat
    | .lseek off whence => SeeksRight img data.length fp off.toInt whence

/-- No sum of the call wraps into the file. -/
def NoWrap (size : Nat) (fp : RomfsFile) : FileOp → Prop
  | .read length => fp.offset < size → fp.offset + length.toNat < 2 ^ 32
  | .lseek off .romfsSeekCur =>
    fp.offset + off.toInt < 2 ^ 32 ∧
      (fp.offset + off.toInt < 0 → size < fp.offset + off.toInt + 2 ^ 32)
  | _ => True

/-! ## A stored file -/

/-- What the header at `off` says of the file `data`. -/
structure Stored (img : Image) (off : Nat) (data : List UInt8) : Prop where
  size : direntSize img off = data.length
  bytes : bytesAt img (payload img off) data.length = data
  small : data.length < 2 ^ 32

variable {img : Image} {stop off : Nat} {name data volume : List UInt8} {es entries : List Entry}

theorem Laid.boundary_le (hlaid : Laid img stop es) : boundary stop es ≤ stop := by
  cases es with
  | nil => exact Nat.le_refl stop
  | cons e es => exact Nat.le_of_lt hlaid.off_lt

theorem payload_eq {next : Nat} {type : Romfh} (header : Header img off next type name)
    (hname : NameOk name) : payload img off = headerEnd off name := by
  have hshort : name.length ≤ 2 ^ 32 := Nat.le_trans hname.short (by decide)
  rw [payload, cstr_eq header.chars header.ended hname.nonzero hshort, headerEnd]
  omega

theorem Laid.stored (hlaid : Laid img stop es) (hstop : stop ≤ 2 ^ 32)
    (hfile : Holds es off name data) : Stored img off data := by
  induction hfile generalizing stop with
  | here =>
    cases hlaid with
    | file header hname _ pos room _ size bytes rest =>
      have hend := rest.boundary_le
      unfold headerEnd at room
      exact ⟨size, by rw [payload_eq header hname]; exact bytes, by omega⟩
  | beside _ ih => exact ih hlaid.cons.2.2.2.2 hstop
  | inside _ ih =>
    obtain ⟨child, rest, -, -, -, hinside⟩ := hlaid.children rfl
    exact ih hinside (Nat.le_trans hlaid.cons.2.2.2.2.boundary_le hstop)

theorem bytesAt_drop_take (haddr : bytesAt img off data.length = data) {i n : Nat}
    (hn : i + n ≤ data.length) : bytesAt img (off + i) n = (data.drop i).take n := by
  apply List.ext_getElem
  · rw [length_bytesAt, List.length_take, List.length_drop]
    omega
  · intro j hj _
    rw [length_bytesAt] at hj
    rw [List.getElem_take, List.getElem_drop, ← getElem_of_bytesAt haddr (by omega)]
    simp only [bytesAt, List.getElem_map, List.getElem_range, Nat.add_assoc]

/-! ## One call -/

variable {fp : RomfsFile}

/-- What the calls of a run keep. -/
structure Within (off : Nat) (data : List UInt8) (fp : RomfsFile) : Prop where
  file : fp.fArg = off
  offset : fp.offset ≤ data.length

theorem Stored.readsRight_iff (h : Stored img off data) (hfp : Within off data fp) {length : Nat}
    (hlength : length < 2 ^ 32) :
    ReadsRight img data fp length ↔
      (fp.offset < data.length → fp.offset + length < 2 ^ 32) := by
  obtain ⟨hfile, hoffset⟩ := hfp
  obtain ⟨fArg, offset⟩ := fp
  simp only at hfile hoffset
  subst hfile
  have hsmall := h.small
  unfold ReadsRight romfsRead
  simp only [h.size]
  by_cases hend : offset ≥ data.length
  · have hnone : data.drop offset = [] := List.drop_of_length_le hend
    have hmin : min length (data.length - offset) = 0 := by omega
    rw [if_pos hend, hnone, hmin, Nat.add_zero, List.take_nil]
    exact ⟨fun _ hlt => absurd hlt (Nat.not_lt.mpr hend), fun _ => rfl⟩
  · rw [if_neg hend]
    by_cases hwrap : offset + length < 2 ^ 32
    · rw [add32_eq hwrap]
      refine ⟨fun _ _ => hwrap, fun _ => ?_⟩
      by_cases hpart : offset + length < data.length
      · have hmin : min length (data.length - offset) = length := by omega
        rw [if_pos hpart, hmin, bytesAt_drop_take h.bytes (by omega)]
      · have hmin : min length (data.length - offset) = data.length - offset := by omega
        have htake : (data.drop offset).take length = (data.drop offset).take (data.length - offset) := by
          rw [List.take_of_length_le (by rw [List.length_drop]; omega),
            List.take_of_length_le (by rw [List.length_drop])]
        have hsum : offset + (data.length - offset) = data.length := by omega
        rw [if_neg hpart, hmin, htake, hsum, bytesAt_drop_take h.bytes (by omega)]
    · -- the sum is below the offset, so all of `length` is taken to be there
      have hsum : add32 offset length < data.length := by
        rw [add32]
        omega
      have hmin : min length (data.length - offset) ≠ length := by omega
      rw [if_pos hsum]
      refine ⟨fun hread => ?_, fun hclear => absurd (hclear (by omega)) hwrap⟩
      exact absurd (Prod.mk.inj (Prod.mk.inj hread).2).2.symm hmin

theorem sizeT_of_nonneg {n : Int} (hlow : 0 ≤ n) (hhigh : n < 2 ^ 32) : (sizeT n : Int) = n := by
  unfold sizeT
  omega

/-- A seek that only takes the position it is asked for. -/
theorem seeksRight_of_seek {size : Nat} {off : Int} {whence : RomfsWhence} {pos : Int}
    (hpos : requested size fp off whence = some pos)
    (hseek : romfsLseek img fp off whence =
      if sizeT pos > size then (fp, sizeT (-5)) else ({ fp with offset := sizeT pos }, sizeT pos))
    (hclear : pos < 2 ^ 32 ∧ (pos < 0 → size < sizeT pos)) :
    SeeksRight img size fp off whence := by
  obtain ⟨hhigh, hneg⟩ := hclear
  unfold SeeksRight
  rw [hpos, hseek]
  by_cases hover : sizeT pos > size
  · rw [if_pos hover]
    refine .inr ⟨fun p hp heq => ?_, rfl, by simp [seekErrors]⟩
    obtain rfl := Option.some.inj heq
    have := sizeT_of_nonneg (Int.natCast_nonneg p) hhigh
    omega
  · rw [if_neg hover]
    have hlow : 0 ≤ pos := by
      by_contra hlt
      exact hover (hneg (by omega))
    exact .inl ⟨sizeT pos, by omega, by rw [sizeT_of_nonneg hlow hhigh], rfl⟩

/-- A refusal is right when no position of the file was asked for. -/
theorem seeksRight_of_refusal {size : Nat} {off : Int} {whence : RomfsWhence} {code : Nat}
    (hcode : code ∈ seekErrors) (hseek : romfsLseek img fp off whence = (fp, code))
    (hout : ∀ pos : Nat, pos ≤ size → requested size fp off whence ≠ some (pos : Int)) :
    SeeksRight img size fp off whence := by
  unfold SeeksRight
  rw [hseek]
  exact .inr ⟨hout, rfl, hcode⟩

theorem Stored.seeksRight_iff (h : Stored img off data) (hfp : Within off data fp) (d : Int32)
    (whence : RomfsWhence) :
    SeeksRight img data.length fp d.toInt whence ↔ NoWrap data.length fp (.lseek d whence) := by
  have hsmall := h.small
  have hlow := d.le_toInt
  have hhigh := d.toInt_lt
  have hsize : direntSize img fp.fArg = data.length := by rw [hfp.file, h.size]
  have hoffset := hfp.offset
  cases whence with
  | romfsSeekSet =>
    refine iff_of_true ?_ trivial
    by_cases hneg : d.toInt < 0
    · refine seeksRight_of_refusal (by simp [seekErrors]) (if_pos hneg) fun pos _ heq => ?_
      have := Option.some.inj heq
      omega
    · refine seeksRight_of_seek rfl ?_ ⟨by omega, fun h => absurd h hneg⟩
      unfold romfsLseek
      simp only [hsize]
      rw [if_neg hneg]
  | romfsSeekEnd =>
    refine iff_of_true ?_ trivial
    by_cases hpos : d.toInt > 0
    · refine seeksRight_of_refusal (by simp [seekErrors]) (if_pos hpos) fun pos _ heq => ?_
      have := Option.some.inj heq
      omega
    · refine seeksRight_of_seek rfl ?_ ⟨by omega, fun h => ?_⟩
      · unfold romfsLseek
        simp only [hsize]
        rw [if_neg hpos, Int.add_comm]
      · unfold sizeT
        omega
  | romfsSeekCur =>
    have hseek : romfsLseek img fp d.toInt .romfsSeekCur =
        if sizeT (fp.offset + d.toInt) > data.length then (fp, sizeT (-5))
        else ({ fp with offset := sizeT (fp.offset + d.toInt) }, sizeT (fp.offset + d.toInt)) := by
      unfold romfsLseek
      simp only [hsize]
      rw [Int.add_comm]
    change _ ↔ fp.offset + d.toInt < 2 ^ 32 ∧
      (fp.offset + d.toInt < 0 → data.length < fp.offset + d.toInt + 2 ^ 32)
    constructor
    · rintro (⟨pos, hle, hpos, -⟩ | ⟨-, hstay, -⟩)
      · have := Option.some.inj hpos
        omega
      · -- a wrapped position inside the file would be taken, and it is not the old one
        rw [hseek] at hstay
        have hout : sizeT (fp.offset + d.toInt) > data.length ∨
            sizeT (fp.offset + d.toInt) = fp.offset := by
          by_cases hover : sizeT (fp.offset + d.toInt) > data.length
          · exact .inl hover
          · rw [if_neg hover] at hstay
            exact .inr (congrArg RomfsFile.offset hstay)
        unfold sizeT at hout
        omega
    · rintro ⟨hbelow, hneg⟩
      refine seeksRight_of_seek rfl hseek ⟨hbelow, fun h => ?_⟩
      have := hneg h
      unfold sizeT
      omega
  | unnamed =>
    refine iff_of_true ?_ trivial
    exact seeksRight_of_refusal (by simp [seekErrors]) rfl fun pos _ heq => by cases heq

theorem SeeksRight.within {whence : RomfsWhence} {n : Int}
    (h : SeeksRight img data.length fp n whence) (hfp : Within off data fp) :
    Within off data (romfsLseek img fp n whence).1 := by
  rcases h with ⟨pos, hle, -, hseek⟩ | ⟨-, hstay, -⟩
  · rw [hseek]
    exact ⟨hfp.file, hle⟩
  · rw [hstay]
    exact hfp

theorem ReadsRight.within {length : Nat} (h : ReadsRight img data fp length)
    (hfp : Within off data fp) : Within off data (romfsRead img fp length).1 := by
  have hoffset := hfp.offset
  rw [h]
  exact ⟨hfp.file, by change fp.offset + min length (data.length - fp.offset) ≤ _; omega⟩

theorem Stored.step_iff (h : Stored img off data) (hfp : Within off data fp) {op : FileOp}
    {fp' : RomfsFile} (hstep : fileStep img fp op = some fp') :
    (AccessRight img data fp op fp' ↔ NoWrap data.length fp op) ∧
      (NoWrap data.length fp op → Within off data fp') := by
  cases op with
  | read length =>
    obtain rfl := Option.some.inj hstep
    have hiff := h.readsRight_iff hfp length.toNat_lt
    have hkeep : NoWrap data.length fp (.read length) →
        Within off data (romfsRead img fp length.toNat).1 :=
      fun hclear => (hiff.mpr hclear).within hfp
    exact ⟨⟨fun hright => hiff.mp hright.2, fun hclear => ⟨(hkeep hclear).offset, hiff.mpr hclear⟩⟩,
      hkeep⟩
  | lseek d whence =>
    obtain rfl := Option.some.inj hstep
    have hiff := h.seeksRight_iff hfp d whence
    have hkeep : NoWrap data.length fp (.lseek d whence) →
        Within off data (romfsLseek img fp d.toInt whence).1 :=
      fun hclear => (hiff.mpr hclear).within hfp
    exact ⟨⟨fun hright => hiff.mp hright.2, fun hclear => ⟨(hkeep hclear).offset, hiff.mpr hclear⟩⟩,
      hkeep⟩

/-! ## Runs -/

theorem Stored.along_iff (h : Stored img off data) (ops : List FileOp) :
    Along (fileStep img) (AccessRight img data) ⟨off, 0⟩ ops ↔
      Along (fileStep img) (fun fp op _ => NoWrap data.length fp op) ⟨off, 0⟩ ops :=
  @along_iff_of_invariant _ _ _ _ _ (Within off data) _ _
    (fun _ _ _ hfp hstep => (h.step_iff hfp hstep).1)
    (fun _ _ _ hfp hstep => (h.step_iff hfp hstep).2) ⟨rfl, Nat.zero_le _⟩

/-- Every file of a well-formed image is read and positioned right by exactly
the runs in which no sum wraps into the file. -/
theorem file_access_iff_noWrap (img : Image) (volume : List UInt8) (entries : List Entry)
    (h : WellFormed img volume entries) (off : Nat) (name data : List UInt8)
    (hfile : Holds entries off name data) (ops : List FileOp) :
    Along (fileStep img) (AccessRight img data) ⟨off, 0⟩ ops ↔
      Along (fileStep img) (fun fp op _ => NoWrap data.length fp op) ⟨off, 0⟩ ops :=
  (h.laid.stored (Nat.le_of_lt (word_lt img 8)) hfile).along_iff ops

/-- The sample image with a second byte in the file `a`. -/
def twoByteImage : Image := fun addr =>
  if addr = 107 then 2 else if addr = 129 then 0x69 else sampleImage addr

def twoByteEntries : List Entry :=
  [.file 96 [0x61] [0x68, 0x69],
    .dir 144 [0x64] [.link 176 dot, .link 208 dotDot, .file 240 [0x62] [0x69]]]

theorem twoByte_wellFormed : WellFormed twoByteImage [0x72] twoByteEntries := by
  obtain ⟨ha, hb, hd, hdot, hdotDot⟩ := nameOk_sample
  have hchildren : Laid twoByteImage 288
      [.link 176 dot, .link 208 dotDot, .file 240 [0x62] [0x69]] := by
    refine .link ⟨⟨0, ?_⟩, ?_, ?_, ?_⟩ hdot ?_ ?_ (.link ⟨⟨0, ?_⟩, ?_, ?_, ?_⟩ hdotDot ?_ ?_
      (.file ⟨⟨0, ?_⟩, ?_, ?_, ?_⟩ hb ?_ ?_ ?_ ?_ ?_ ?_ .nil)) <;> decide +kernel
  have hentries : Laid twoByteImage 288 twoByteEntries := by
    refine .file ⟨⟨0, ?_⟩, ?_, ?_, ?_⟩ ha ?_ ?_ ?_ ?_ ?_ ?_
      (.dir ⟨⟨1, ?_⟩, ?_, ?_, ?_⟩ hd ?_ ?_ ?_ ?_ ?_ ?_ hchildren .nil) <;> decide +kernel
  have hend : romfsEndaddr twoByteImage = 288 := by decide +kernel
  refine ⟨?_, ?_, ?_, ?_, ?_, ⟨⟨1, ?_⟩, ?_, ?_, ?_⟩, ⟨⟨0, ?_⟩, ?_, ?_, ?_⟩, ?_, .inl ⟨_, rfl, ?_⟩,
    hend ▸ hentries⟩ <;> decide +kernel

theorem file_access_sample :
    Along (fileStep twoByteImage) (AccessRight twoByteImage [0x68, 0x69]) ⟨96, 0⟩
        [.read 1, .lseek (-1) .romfsSeekCur, .read 7] ↔
      Along (fileStep twoByteImage) (fun fp op _ => NoWrap 2 fp op) ⟨96, 0⟩
        [.read 1, .lseek (-1) .romfsSeekCur, .read 7] :=
  file_access_iff_noWrap _ _ _ twoByte_wellFormed 96 [0x61] [0x68, 0x69] .here _

/-- A read of the largest length behind the first byte takes its own length for
what the file has. -/
theorem largest_read_past_end :
    WellFormed twoByteImage [0x72] twoByteEntries ∧
      Holds twoByteEntries 96 [0x61] [0x68, 0x69] ∧
      ¬ Along (fileStep twoByteImage) (AccessRight twoByteImage [0x68, 0x69]) ⟨96, 0⟩
        [.read 1, .read 0xFFFFFFFF] := by
  refine ⟨twoByte_wellFormed, .here, fun h => ?_⟩
  have hstored : Stored twoByteImage 96 [0x68, 0x69] :=
    twoByte_wellFormed.laid.stored (Nat.le_of_lt (word_lt _ 8)) .here
  have hclear := (((hstored.along_iff _).mp h) _ rfl).2 _ rfl
  have hone : (romfsRead twoByteImage ⟨96, 0⟩ (1 : UInt32).toNat).1.offset = 1 := by decide +kernel
  have hwrap : (romfsRead twoByteImage ⟨96, 0⟩ (1 : UInt32).toNat).1.offset < 2 →
      (romfsRead twoByteImage ⟨96, 0⟩ (1 : UInt32).toNat).1.offset + 0xFFFFFFFF < 2 ^ 32 := hclear.1
  rw [hone] at hwrap
  exact absurd (hwrap (by decide)) (by decide)

end BouffaloSdk.Romfs
