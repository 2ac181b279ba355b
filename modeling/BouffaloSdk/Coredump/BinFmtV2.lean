import BouffaloSdk.Kit.LittleEndian
import BouffaloSdk.Kit.Word
import BouffaloSdk.Lhal.BflbFlash

/-!
# The core dump in flash

`coredump.c` with `bin_fmt_v2.c`: the memory sections written to the dump
partition as an ELF file. The file-scope statics are the fields of `CoreBin`;
the text that `bl_coredump_run` prints meanwhile is left out. `written` and
`progHeaders` record what the calls did, for the statements about them.
-/

namespace BouffaloSdk.Coredump
open Kit Kit.Word

structure DumpSection where
  addr : UInt32
  len : UInt32
  deriving DecidableEq, Repr

structure Elf32Ehdr where
  eIdent : List UInt8
  eType : Nat
  eMachine : Nat
  eVersion : Nat
  eEntry : Nat
  ePhoff : Nat
  eShoff : Nat
  eFlags : Nat
  eEhsize : Nat
  ePhentsize : Nat
  ePhnum : Nat
  eShentsize : Nat
  eShnum : Nat
  eShstrndx : Nat
  deriving DecidableEq, Repr

structure Elf32Phdr where
  pType : Nat
  pOffset : Nat
  pVaddr : Nat
  pPaddr : Nat
  pFilesz : Nat
  pMemsz : Nat
  pFlags : Nat
  pAlign : Nat
  deriving DecidableEq, Repr

structure Elf32Shdr where
  shName : Nat
  shType : Nat
  shFlags : Nat
  shAddr : Nat
  shOffset : Nat
  shSize : Nat
  shLink : Nat
  shInfo : Nat
  shAddralign : Nat
  shEntsize : Nat
  deriving DecidableEq, Repr

def sizeofEhdr : Nat := 52
def sizeofPhdr : Nat := 32
def sizeofShdr : Nat := 40

def Elf32Ehdr.toBytes (h : Elf32Ehdr) : List UInt8 :=
  h.eIdent ++ toLE 2 h.eType ++ toLE 2 h.eMachine ++ toLE 4 h.eVersion ++ toLE 4 h.eEntry ++
    toLE 4 h.ePhoff ++ toLE 4 h.eShoff ++ toLE 4 h.eFlags ++ toLE 2 h.eEhsize ++
    toLE 2 h.ePhentsize ++ toLE 2 h.ePhnum ++ toLE 2 h.eShentsize ++ toLE 2 h.eShnum ++
    toLE 2 h.eShstrndx

def Elf32Phdr.toBytes (h : Elf32Phdr) : List UInt8 :=
  toLE 4 h.pType ++ toLE 4 h.pOffset ++ toLE 4 h.pVaddr ++ toLE 4 h.pPaddr ++ toLE 4 h.pFilesz ++
    toLE 4 h.pMemsz ++ toLE 4 h.pFlags ++ toLE 4 h.pAlign

def Elf32Shdr.toBytes (h : Elf32Shdr) : List UInt8 :=
  toLE 4 h.shName ++ toLE 4 h.shType ++ toLE 4 h.shFlags ++ toLE 4 h.shAddr ++
    toLE 4 h.shOffset ++ toLE 4 h.shSize ++ toLE 4 h.shLink ++ toLE 4 h.shInfo ++
    toLE 4 h.shAddralign ++ toLE 4 h.shEntsize

/-- `"section"` with its end mark. -/
def symbolTable : List UInt8 := [0x73, 0x65, 0x63, 0x74, 0x69, 0x6F, 0x6E, 0]

def symbolTableSize : Nat := 8

/-- What a write to the partition is for; headers and data are numbered. -/
inductive Part
  | elfHeader
  | progHeader (i : Nat)
  | sectionName
  | sectionData (i : Nat)
  | sectionHeader (i : Nat)
  deriving DecidableEq, Repr

/-- A call of `coredump_xip_flash_write` and its result. -/
structure Written where
  part : Part
  start : Nat
  length : Nat
  ret : Int
  deriving DecidableEq, Repr

structure CoreBin where
  flash : Flash
  elfHeader : Elf32Ehdr
  flashAddrStart : Nat
  offsetLen : Nat
  segNum : Nat
  written : List Written
  progHeaders : List Elf32Phdr

/-- The partition handed to `core_partition_init`, which lies in the address space. -/
structure CorePartition where
  flashAddr : Nat
  flashSize : Nat
  addr_lt : flashAddr < 2 ^ 32
  size_lt : flashSize < 2 ^ 32
  in_flash : flashAddr + flashSize ≤ 2 ^ 32

def endAddr : UInt32 := 0xFFFFFFFF

def getSizeOfSections : List DumpSection → Nat
  | [] => 0
  | s :: table => if s.addr = endAddr then 0 else add32 s.len.toNat (getSizeOfSections table)

/-- Pieces go out one by one until one fails. -/
def coredumpXipFlashWrite (flash : Flash) (lma : Nat) (data : List UInt8) : Flash × Int :=
  if data = [] then (flash, 0)
  else
    let (flash, ret) := bflbFlashWrite flash lma (data.take 32)
    if ret ≠ 0 then (flash, ret)
    else coredumpXipFlashWrite flash (add32 lma 32) (data.drop 32)
  termination_by data.length
  decreasing_by
    rw [List.length_drop]
    have := List.length_pos_iff.mpr ‹data ≠ []›
    omega

def CoreBin.write (c : CoreBin) (part : Part) (lma : Nat) (data : List UInt8) : CoreBin × Int :=
  let (flash, ret) := coredumpXipFlashWrite c.flash lma data
  ({ c with flash := flash, written := c.written ++ [⟨part, lma, data.length, ret⟩] }, ret)

def createElfHeader (sectionNum sectionSize : Nat) : Elf32Ehdr where
  eIdent := [0x7F, 0x45, 0x4C, 0x46, 1, 1, 1, 0, 0, 0, 0, 0, 0, 0, 0, 0]
  eType := 2
  eMachine := 0xF3
  eVersion := 1
  eEntry := 0
  ePhoff := sizeofEhdr
  eShoff := add32 (add32 (add32 sizeofEhdr (mul32 sectionNum sizeofPhdr)) symbolTableSize)
    sectionSize
  eFlags := 0
  eEhsize := 0
  ePhentsize := sizeofPhdr
  ePhnum := sectionNum % 2 ^ 16
  eShentsize := sizeofShdr
  eShnum := (sectionNum + 2) % 2 ^ 16
  eShstrndx := 1

/-- Where the section data begin, from the start of the file. -/
def Elf32Ehdr.dataOffset (h : Elf32Ehdr) : Nat :=
  add32 (add32 h.ePhoff (mul32 h.ePhnum h.ePhentsize)) symbolTableSize

def createElfSection (h : Elf32Ehdr) (vma len offset : Nat) : Elf32Phdr × Elf32Shdr :=
  ({ pType := 1, pOffset := add32 h.dataOffset offset, pVaddr := vma, pPaddr := vma,
     pFilesz := len, pMemsz := len, pFlags := 5, pAlign := 1 },
   { shName := 0, shType := 1, shFlags := 6, shAddr := vma, shOffset := add32 h.dataOffset offset,
     shSize := len, shLink := 1, shInfo := 0, shAddralign := 1, shEntsize := 0 })

/-- The counting loop of the start hook: sections and bytes. -/
def countSections : List DumpSection → Nat × Nat
  | [] => (0, 0)
  | s :: table =>
    if s.addr = endAddr then (0, 0)
    else if s.addr = 0 then (0, 0)
    else if s.len = 0 then countSections table
    else (add32 (countSections table).1 1, add32 s.len.toNat (countSections table).2)

def coreBinStartHook (flash : Flash) (lma : Nat) (table : List DumpSection) : CoreBin × Nat :=
  let (segCnt, size) := countSections table
  let h := createElfHeader segCnt size
  ({ flash := flash, elfHeader := h, flashAddrStart := lma, offsetLen := 0, segNum := 0,
     written := [], progHeaders := [] }, add32 lma h.dataOffset)

def coreBinSectionsHook (c : CoreBin) (mem : Nat → UInt8) (lma : Nat) (s : DumpSection) :
    CoreBin × Nat :=
  let h := c.elfHeader
  let (progHdr, secHdr) := createElfSection h s.addr.toNat s.len.toNat c.offsetLen
  let index := c.progHeaders.length
  let (c, _) := c.write (.progHeader index)
    (add32 (add32 c.flashAddrStart h.ePhoff) (mul32 c.segNum h.ePhentsize)) progHdr.toBytes
  let (c, _) := c.write (.sectionHeader (index + 2))
    (add32 (add32 c.flashAddrStart h.eShoff) (mul32 (add32 c.segNum 2) h.eShentsize)) secHdr.toBytes
  let c := { c with
    offsetLen := add32 c.offsetLen s.len.toNat
    segNum := add32 c.segNum 1
    progHeaders := c.progHeaders ++ [progHdr] }
  let (c, ret) := c.write (.sectionData index) lma
    ((List.range s.len.toNat).map fun i => mem (add32 s.addr.toNat i))
  (c, if ret = 0 then add32 lma s.len.toNat else lma)

def coreBinEndHook (c : CoreBin) (headerLma : Nat) : CoreBin :=
  let h := c.elfHeader
  let nullHdr : Elf32Shdr := ⟨0, 0, 0, 0, 0, 0, 0, 0, 0, 0⟩
  let nameOffset := add32 h.ePhoff (mul32 h.ePhnum h.ePhentsize)
  let nameHdr := { nullHdr with
    shName := 7, shType := 3, shOffset := nameOffset, shSize := symbolTableSize, shAddralign := 1 }
  let (c, _) := c.write .elfHeader headerLma h.toBytes
  let (c, _) := c.write (.sectionHeader 0) (add32 headerLma h.eShoff) nullHdr.toBytes
  let (c, _) := c.write (.sectionHeader 1) (add32 (add32 headerLma h.eShoff) h.eShentsize)
    nameHdr.toBytes
  (c.write .sectionName (add32 headerLma nameOffset) symbolTable).1

/-- The loop of `bl_coredump_run`. -/
def dumpSections (c : CoreBin) (mem : Nat → UInt8) (lma : Nat) : List DumpSection → CoreBin
  | [] => c
  | s :: table =>
    if s.addr = endAddr then c
    else if s.addr = 0 then c
    else if s.len = 0 then dumpSections c mem lma table
    else
      let (c, lma) := coreBinSectionsHook c mem lma s
      dumpSections c mem lma table

/-- Without room for the sections and a page nothing is written. -/
def blCoredumpRun (flash : Flash) (partition : CorePartition) (mem : Nat → UInt8)
    (table : List DumpSection) : Option CoreBin :=
  let lma := partition.flashAddr
  if partition.flashSize < add32 (getSizeOfSections table) 4096 then none
  else
    let (flash, _) := bflbFlashErase flash lma partition.flashSize
    let (c, lma) := coreBinStartHook flash lma table
    some (coreBinEndHook (dumpSections c mem lma table) partition.flashAddr)

end BouffaloSdk.Coredump
