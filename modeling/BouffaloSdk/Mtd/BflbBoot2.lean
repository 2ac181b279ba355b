import BouffaloSdk.Partition.Partition

/-!
# The partition table in RAM

`components/utils/bflb_mtd/bflb_boot2.c`. `bflb_boot2_init` copies the active
table and its slot number into RAM once; everything below works from that
copy.
-/

namespace BouffaloSdk.Mtd
open Kit Kit.Word BouffaloSdk.Partition

structure Boot2PartitionTable where
  partitionActiveIdx : PtTableIdType
  table : PtTableStuffConfig
  deriving DecidableEq

def EIO : Int := 5
def ENOENT : Int := 2

/-- `"FW"`. -/
def partitionFwPartName : List UInt8 := [0x46, 0x57]

/-- `"FW"`, the name that `bflb_update_mfg_ptable` looks up. -/
def ptOtaTypeName : List UInt8 := [0x46, 0x57]

/-- `"mfg"`. -/
def ptMediaTypeName : List UInt8 := [0x6D, 0x66, 0x67]

def bflbBoot2Init (flash : Flash) : Option Boot2PartitionTable :=
  match ptTableGetActivePartitionNeedLock flash with
  | .ptTableIdInvalid => none
  | activeId => some { partitionActiveIdx := activeId, table := readTable flash activeId }

/-- The caller's entry with its index toggled and its age increased. -/
def toggled (ptEntry : PtTableEntryConfig) : PtTableEntryConfig :=
  let ptEntry := ptEntry.setActiveIndex (lnot ptEntry.activeIndex)
  ptEntry.setAge (add32 ptEntry.age 1)

/-- The update works on a copy of the RAM table, which stays as it is. -/
def bflbBoot2UpdatePtable (flash : Flash) (boot2PartitionTable : Boot2PartitionTable)
    (ptEntry : PtTableEntryConfig) : Flash × PtTableEntryConfig × PtTableErrorType :=
  let result := ptTableUpdateEntry flash boot2PartitionTable.partitionActiveIdx.lnot
    boot2PartitionTable.table (toggled ptEntry)
  (result.1, toggled ptEntry, result.2.2)

structure PartitionAddr where
  addr0 : Nat
  addr1 : Nat
  size0 : Nat
  size1 : Nat
  active : Nat
  deriving DecidableEq, Repr

def bflbBoot2PartitionAddr (boot2PartitionTable : Boot2PartitionTable) (name : List UInt8) :
    Except Int PartitionAddr :=
  if boot2PartitionTable.table.magicCode ≠ bflbPtMagicCode then .error (- EIO)
  else
    match ptTableGetActiveEntriesByName boot2PartitionTable.table name with
    | none => .error (- ENOENT)
    | some entry => .ok
      { addr0 := entry.startAddress 0
        addr1 := entry.startAddress 1
        size0 := entry.maxLen 0
        size1 := entry.maxLen 1
        active := entry.activeIndex }

def bflbBoot2PartitionAddrActive (boot2PartitionTable : Boot2PartitionTable) (name : List UInt8) :
    Except Int (Nat × Nat) := do
  let p ← bflbBoot2PartitionAddr boot2PartitionTable name
  .ok (if p.active ≠ 0 then p.addr1 else p.addr0, if p.active ≠ 0 then p.size1 else p.size0)

def bflbBoot2PartitionAddrInactive (boot2PartitionTable : Boot2PartitionTable)
    (name : List UInt8) : Except Int (Nat × Nat) := do
  let p ← bflbBoot2PartitionAddr boot2PartitionTable name
  .ok (if p.active ≠ 0 then p.addr0 else p.addr1, if p.active ≠ 0 then p.size0 else p.size1)

def bflbBoot2GetActiveEntriesByname (boot2PartitionTable : Boot2PartitionTable)
    (name : List UInt8) : Option PtTableEntryConfig :=
  ptTableGetActiveEntriesByName boot2PartitionTable.table name

/-- The entry that `bflb_update_mfg_ptable` writes, when the backup bank of
the firmware starts where the `mfg` partition does. -/
def mfgEntry (boot2PartitionTable : Boot2PartitionTable) : Option PtTableEntryConfig :=
  match bflbBoot2GetActiveEntriesByname boot2PartitionTable ptOtaTypeName with
  | none => none
  | some ptEntryFw =>
    match bflbBoot2GetActiveEntriesByname boot2PartitionTable ptMediaTypeName with
    | none => none
    | some ptEntryMedia =>
      if ptEntryFw.startAddress 1 = ptEntryMedia.startAddress 0 then
        some (ptEntryMedia.setName (List.replicate 9 0))
      else none

/-- This update works on the RAM table itself and so changes it; the slot
number stays. -/
def bflbUpdateMfgPtable (flash : Flash) (boot2PartitionTable : Boot2PartitionTable) :
    Flash × Boot2PartitionTable × Option PtTableErrorType :=
  match mfgEntry boot2PartitionTable with
  | none => (flash, boot2PartitionTable, none)
  | some ptEntryMedia =>
    let result := ptTableUpdateEntry flash boot2PartitionTable.partitionActiveIdx.lnot
      boot2PartitionTable.table ptEntryMedia
    (result.1, { boot2PartitionTable with table := result.2.1 }, some result.2.2)

end BouffaloSdk.Mtd
