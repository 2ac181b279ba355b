import BouffaloSdk.Mtd.BflbBoot2

/-!
# Memory technology devices

The part of `components/utils/bflb_mtd/bflb_mtd.c` that the firmware update
goes through. A handle keeps the base and the size that the RAM table gave
when it was opened; the results of the flash driver are dropped.
-/

namespace BouffaloSdk.Mtd
open Kit Kit.Word

structure BflbMtdHandle where
  name : List UInt8
  offset : Nat
  size : Nat
  deriving DecidableEq, Repr

/-- Opening fails without memory and never returns without a partition. -/
inductive MtdOpen
  | noMemory
  | deadLoop
  | opened (handle : BflbMtdHandle)

/-- `bflb_mtd_open` with `BFLB_MTD_OPEN_FLAG_BACKUP` set or not, and without
`BFLB_MTD_OPEN_FLAG_BUSADDR`. -/
def bflbMtdOpen (boot2PartitionTable : Boot2PartitionTable) (memory : Bool) (name : List UInt8)
    (backup : Bool) : MtdOpen :=
  if memory = false then .noMemory
  else
    let found :=
      if backup then bflbBoot2PartitionAddrInactive boot2PartitionTable name
      else bflbBoot2PartitionAddrActive boot2PartitionTable name
    match found with
    | .error _ => .deadLoop
    | .ok (addr, size) =>
      if addr = 0 then .deadLoop
      else .opened { name := name.take 15, offset := addr, size := size }

def bflbMtdErase (flash : Flash) (handle : BflbMtdHandle) (addr size : Nat) : Flash × Int :=
  ((bflbFlashErase flash (add32 handle.offset addr) size).1, 0)

/-- Data that lies in flash itself is written in pieces of at most 64 bytes. -/
def mtdWriteCopy2ram (flash : Flash) (addr : Nat) (src : List UInt8) : Flash :=
  if src.length = 0 then flash
  else
    let piece := src.take 64
    mtdWriteCopy2ram (bflbFlashWrite flash addr piece).1 (add32 addr piece.length) (src.drop 64)
termination_by src.length
decreasing_by
  rw [List.length_drop]
  omega

def bflbMtdWrite (flash : Flash) (handle : BflbMtdHandle) (addr : Nat) (data : List UInt8)
    (xip : Bool) : Flash × Int :=
  let realAddr := add32 handle.offset addr
  if xip then (mtdWriteCopy2ram flash realAddr data, 0)
  else ((bflbFlashWrite flash realAddr data).1, 0)

def bflbMtdRead (flash : Flash) (handle : BflbMtdHandle) (addr size : Nat) : List UInt8 :=
  bflbFlashRead flash (add32 handle.offset addr) size

end BouffaloSdk.Mtd
