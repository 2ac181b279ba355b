import BouffaloSdk.Kit.Record
import BouffaloSdk.Kit.Upsert
import BouffaloSdk.Kit.Word
import BouffaloSdk.Lhal.BflbCommon
import BouffaloSdk.Lhal.BflbFlash

/-!
# Partition tables

`components/utils/partition/partition.c`. A table occupies 596 bytes of one
of two flash slots: a 16-byte header, up to 16 entries of 36 bytes and a CRC
word directly behind the last entry in use, so that it overlays the first
unused entry, or the structure's own `crc32` when all 16 are in use.
-/

namespace BouffaloSdk.Partition
open Kit Kit.Word

inductive PtTableErrorType
  | ptErrorSuccess
  | ptErrorTableNotValid
  | ptErrorEntryNotFound
  | ptErrorEntryUpdateFail
  | ptErrorCrc32
  | ptErrorParameter
  | ptErrorFalshRead
  | ptErrorFalshWrite
  | ptErrorFalshErase
  deriving DecidableEq, Repr

inductive PtTableIdType
  | ptTableId0
  | ptTableId1
  | ptTableIdInvalid
  deriving DecidableEq, Repr

/-- `!id` of the C code, with the enumeration's values. -/
def PtTableIdType.lnot : PtTableIdType → PtTableIdType
  | .ptTableId0 => .ptTableId1
  | .ptTableId1 => .ptTableId0
  | .ptTableIdInvalid => .ptTableId0

def bflbPtTable0Address : Nat := 0xE000
def bflbPtTable1Address : Nat := 0xF000
def bflbPtMagicCode : Nat := 0x54504642
def ptEntryMax : Nat := 16

/-- `!x` of the C code. -/
def lnot (x : Nat) : Nat := if x = 0 then 1 else 0

abbrev PtTableEntryConfig := Record 36

namespace PtTableEntryConfig

def type (e : PtTableEntryConfig) : Nat := e.word 0 1
def device (e : PtTableEntryConfig) : Nat := e.word 1 1
def activeIndex (e : PtTableEntryConfig) : Nat := e.word 2 1
def name (e : PtTableEntryConfig) : List UInt8 := e.get 3 9
def startAddress (e : PtTableEntryConfig) (i : Nat) : Nat := e.word (12 + 4 * i) 4
def maxLen (e : PtTableEntryConfig) (i : Nat) : Nat := e.word (20 + 4 * i) 4
def len (e : PtTableEntryConfig) : Nat := e.word 28 4
def age (e : PtTableEntryConfig) : Nat := e.word 32 4

def setActiveIndex (e : PtTableEntryConfig) (v : Nat) : PtTableEntryConfig := e.putWord 2 1 v
def setName (e : PtTableEntryConfig) (v : List UInt8) : PtTableEntryConfig := e.put 3 v
def setLen (e : PtTableEntryConfig) (v : Nat) : PtTableEntryConfig := e.putWord 28 4 v
def setAge (e : PtTableEntryConfig) (v : Nat) : PtTableEntryConfig := e.putWord 32 4 v

end PtTableEntryConfig

/-- The string that starts a character array. -/
def cString (chars : List UInt8) : List UInt8 := chars.takeWhile (· ≠ 0)

abbrev PtTableStuffConfig := Record 596

namespace PtTableStuffConfig

def magicCode (t : PtTableStuffConfig) : Nat := t.word 0 4
def version (t : PtTableStuffConfig) : Nat := t.word 4 2
def entryCnt (t : PtTableStuffConfig) : Nat := t.word 6 2
def age (t : PtTableStuffConfig) : Nat := t.word 8 4
def crc32 (t : PtTableStuffConfig) : Nat := t.word 12 4
def ptEntry (t : PtTableStuffConfig) (i : Nat) : PtTableEntryConfig := t.sub (16 + 36 * i) 36
def entriesLen (t : PtTableStuffConfig) : Nat := 36 * t.entryCnt
def entriesCrc32 (t : PtTableStuffConfig) : Nat := t.word (16 + t.entriesLen) 4

def setEntryCnt (t : PtTableStuffConfig) (v : Nat) : PtTableStuffConfig := t.putWord 6 2 v
def setAge (t : PtTableStuffConfig) (v : Nat) : PtTableStuffConfig := t.putWord 8 4 v
def setCrc32 (t : PtTableStuffConfig) (v : Nat) : PtTableStuffConfig := t.putWord 12 4 v
def setEntriesCrc32 (t : PtTableStuffConfig) (v : Nat) : PtTableStuffConfig :=
  t.putWord (16 + t.entriesLen) 4 v
def setEntry (t : PtTableStuffConfig) (i : Nat) (e : PtTableEntryConfig) : PtTableStuffConfig :=
  t.put (16 + 36 * i) e.bytes

/-- The entries in use, in order. -/
def entries (t : PtTableStuffConfig) : List PtTableEntryConfig :=
  (List.range t.entryCnt).map t.ptEntry

/-- The CRC that belongs into the header: the one of the header before it. -/
def headerCrc (t : PtTableStuffConfig) : Nat := bflbSoftCrc32 (t.get 0 12)

/-- The CRC that belongs behind the entries in use. -/
def bodyCrc (t : PtTableStuffConfig) : Nat := bflbSoftCrc32 (t.get 16 t.entriesLen)

end PtTableStuffConfig

def ptTableValid (ptStuff : PtTableStuffConfig) : Bool :=
  if ptStuff.magicCode = bflbPtMagicCode then
    if ptStuff.entryCnt > ptEntryMax then false
    else if ptStuff.crc32 ≠ ptStuff.headerCrc then false
    else if ptStuff.entriesCrc32 ≠ ptStuff.bodyCrc then false
    else true
  else false

def PtTableIdType.address : PtTableIdType → Nat
  | .ptTableId0 => bflbPtTable0Address
  | _ => bflbPtTable1Address

def readTableMem (mem : Nor.Mem) (id : PtTableIdType) : PtTableStuffConfig :=
  ⟨Nor.read mem id.address 596, Nor.length_read _ _ _⟩

theorem bytes_readTableMem (mem : Nor.Mem) (id : PtTableIdType) :
    (readTableMem mem id).bytes = Nor.read mem id.address 596 := by
  rw [readTableMem]

-- Keeps the unifier from reading tables byte by byte.
attribute [irreducible] readTableMem

def readTable (flash : Flash) (id : PtTableIdType) : PtTableStuffConfig :=
  readTableMem flash.mem id

/-- The choice that `pt_table_get_active_partition_need_lock` makes between
the two tables it has read. -/
def ptTableSelect (stuff0 stuff1 : PtTableStuffConfig) : PtTableIdType :=
  if ptTableValid stuff0 = true ∧ ptTableValid stuff1 = true then
    if stuff0.age ≥ stuff1.age then .ptTableId0 else .ptTableId1
  else if ptTableValid stuff0 = true then .ptTableId0
  else if ptTableValid stuff1 = true then .ptTableId1
  else .ptTableIdInvalid

def ptTableGetActivePartitionNeedLock (flash : Flash) : PtTableIdType :=
  ptTableSelect (readTable flash .ptTableId0) (readTable flash .ptTableId1)

def ptTableGetActiveEntriesById (ptStuff : PtTableStuffConfig) (type : Nat) :
    Option PtTableEntryConfig :=
  Keyed.lookup PtTableEntryConfig.type ptStuff.entries type

def ptTableGetActiveEntriesByName (ptStuff : PtTableStuffConfig) (name : List UInt8) :
    Option PtTableEntryConfig :=
  ptStuff.entries.find? fun e => cString e.name = name

/-- The entry is stored over the first one of its type, or behind the last
one; a full table takes no new type. -/
def storeEntry (ptStuff : PtTableStuffConfig) (ptEntry : PtTableEntryConfig) :
    Option PtTableStuffConfig :=
  let i := ptStuff.entries.findIdx fun e => e.type = ptEntry.type
  if i = ptStuff.entryCnt then
    if ptStuff.entryCnt < ptEntryMax then
      some ((ptStuff.setEntry i ptEntry).setEntryCnt (ptStuff.entryCnt + 1))
    else none
  else some (ptStuff.setEntry i ptEntry)

/-- Both CRCs are recomputed, the header's first. -/
def sealTable (ptStuff : PtTableStuffConfig) : PtTableStuffConfig :=
  let ptStuff := ptStuff.setCrc32 ptStuff.headerCrc
  ptStuff.setEntriesCrc32 ptStuff.bodyCrc

def ptTableUpdateEntry (flash : Flash) (targetTableId : PtTableIdType)
    (ptStuff : PtTableStuffConfig) (ptEntry : PtTableEntryConfig) :
    Flash × PtTableStuffConfig × PtTableErrorType :=
  if targetTableId = .ptTableIdInvalid then (flash, ptStuff, .ptErrorTableNotValid)
  else
    let writeAddr := targetTableId.address
    match storeEntry ptStuff ptEntry with
    | none => (flash, ptStuff, .ptErrorEntryUpdateFail)
    | some ptStuff =>
      let ptStuff := sealTable (ptStuff.setAge (add32 ptStuff.age 1))
      let (flash, ret) := bflbFlashErase flash writeAddr (16 + ptStuff.entriesLen + 4)
      if ret ≠ 0 then (flash, ptStuff, .ptErrorFalshWrite)
      else
        let (flash, ret) := bflbFlashWrite flash writeAddr ptStuff.bytes
        if ret ≠ 0 then (flash, ptStuff, .ptErrorFalshWrite)
        else (flash, ptStuff, .ptErrorSuccess)

abbrev PtTableConfig := Record 16

/-- The header of a table without entries. -/
def emptyTable : PtTableConfig :=
  let ptTable := (Record.zero 16).putWord 0 4 bflbPtMagicCode
  let ptTable := ((ptTable.putWord 4 2 0).putWord 6 2 0).putWord 8 4 0
  ptTable.putWord 12 4 (bflbSoftCrc32 (ptTable.get 0 12))

def ptTableCreate (flash : Flash) (ptId : PtTableIdType) : Flash × PtTableErrorType :=
  if ptId = .ptTableIdInvalid then (flash, .ptErrorTableNotValid)
  else
    let writeAddr := ptId.address
    let (flash, ret) := bflbFlashErase flash writeAddr 16
    if ret ≠ 0 then (flash, .ptErrorFalshErase)
    else
      let (flash, ret) := bflbFlashWrite flash writeAddr emptyTable.bytes
      if ret ≠ 0 then (flash, .ptErrorFalshWrite) else (flash, .ptErrorSuccess)

structure PtTableIapParamType where
  iapStartAddr : Nat
  iapWriteAddr : Nat
  iapImgLen : Nat
  inactiveIndex : Nat
  inactiveTableIndex : Nat
  deriving DecidableEq, Repr

/-- The parameters that each branch of `pt_table_get_iap_para` derives from
the table it takes for the active one. -/
def iapParaOf (para : PtTableIapParamType) (ptStuff : PtTableStuffConfig)
    (inactiveTableIndex : Nat) : PtTableIapParamType :=
  let activeIndex := (ptStuff.ptEntry 0).activeIndex
  let inactiveIndex := lnot (activeIndex &&& 1)
  { para with
    iapStartAddr := (ptStuff.ptEntry 0).startAddress inactiveIndex
    iapWriteAddr := (ptStuff.ptEntry 0).startAddress inactiveIndex
    inactiveIndex := inactiveIndex
    inactiveTableIndex := inactiveTableIndex }

def ptTableGetIapPara (flash : Flash) (para : PtTableIapParamType) :
    PtTableIapParamType × PtTableErrorType :=
  let stuff0 := readTable flash .ptTableId0
  let stuff1 := readTable flash .ptTableId1
  if ptTableValid stuff0 = true ∧ ptTableValid stuff1 = true then
    if stuff0.age ≥ stuff1.age then (iapParaOf para stuff0 1, .ptErrorSuccess)
    else (iapParaOf para stuff1 0, .ptErrorSuccess)
  else if ptTableValid stuff1 = true then (iapParaOf para stuff1 0, .ptErrorSuccess)
  else if ptTableValid stuff0 = true then (iapParaOf para stuff0 1, .ptErrorSuccess)
  else (para, .ptErrorTableNotValid)

/-- The table that `pt_table_set_iap_para` writes back. -/
def iapTable (ptStuff : PtTableStuffConfig) : PtTableStuffConfig :=
  let ptStuff := ptStuff.setAge (add32 ptStuff.age 1)
  let entry := ptStuff.ptEntry 0
  sealTable (ptStuff.setEntry 0 (entry.setActiveIndex (lnot (entry.activeIndex &&& 1))))

def writeIapTable (flash : Flash) (target : PtTableIdType) (ptStuff : PtTableStuffConfig) :
    Flash × PtTableErrorType :=
  let (flash, ret) := bflbFlashErase flash target.address 596
  if ret ≠ 0 then (flash, .ptErrorFalshErase)
  else
    let (flash, ret) := bflbFlashWrite flash target.address ptStuff.bytes
    if ret ≠ 0 then (flash, .ptErrorFalshWrite) else (flash, .ptErrorSuccess)

def ptTableSetIapPara (flash : Flash) (para : PtTableIapParamType) : Flash × PtTableErrorType :=
  if para.inactiveTableIndex = 1 then
    writeIapTable flash .ptTableId1 (iapTable (readTable flash .ptTableId0))
  else if para.inactiveTableIndex = 0 then
    writeIapTable flash .ptTableId0 (iapTable (readTable flash .ptTableId1))
  else (flash, .ptErrorSuccess)

end BouffaloSdk.Partition
