import BouffaloSdk.Kit.Linked
import BouffaloSdk.Kit.Word

/-!
# Block pools

`components/utils/bflb_block_pool/bflb_block_pool.c`. A pool starts with one
link word for each block; the free list is threaded through these words. The
mutex and the semaphore are the caller's: `locked` and `count` stand for them,
and a wait may time out.
-/

namespace BouffaloSdk.BlockPool
open Kit Kit.Word

structure BflbBlockPool where
  freeList : Nat
  poolAddr : Nat
  blkAddr : Nat
  blkSize : Nat
  blkAlign : Nat
  blkTotal : Nat
  blkFree : Nat
  /-- `mtx_get` and `mtx_put` are registered. -/
  mtx : Bool
  /-- `sem_get` and `sem_put` are registered. -/
  sem : Bool
  deriving DecidableEq, Repr

/-- The link words, by address. -/
abbrev Memory := Nat → Nat

/-- A pool with the memory and the objects that its functions work on. -/
structure Sys where
  pool : BflbBlockPool
  mem : Memory
  locked : Bool
  count : Nat

/-- A call through a null pointer. -/
inductive Halt
  | nullCall
  deriving DecidableEq, Repr

def mul32 (a b : Nat) : Nat := a * b % 2 ^ 32

/-- The division instruction: without a trap, all ones by zero. -/
def divu32 (a b : Nat) : Nat := if b = 0 then 2 ^ 32 - 1 else a / b

/-- `x` rounded up to the alignment, `x & ~bitmask` written as a difference. -/
def alignUp (x blkAlign : Nat) : Nat :=
  let bitmask := (1 <<< blkAlign) - 1
  if x &&& bitmask ≠ 0 then add32 (x - (x &&& bitmask)) (1 <<< blkAlign) else x

/-- Each of the `n` link words gets the address of the next, the last one null. -/
def buildList (mem : Memory) (poolAddr n : Nat) : Memory :=
  Function.update
    ((List.range n).foldl
      (fun mem i => Function.update mem (poolAddr + 4 * i) (poolAddr + 4 * (i + 1))) mem)
    (poolAddr + 4 * (n - 1)) 0

def newPool (poolAddr address blkSize blkAlign blkCount : Nat) : BflbBlockPool :=
  { freeList := poolAddr
    poolAddr := poolAddr
    blkAddr := address
    blkSize := blkSize
    blkAlign := blkAlign
    blkTotal := blkCount
    blkFree := blkCount
    mtx := false
    sem := false }

def bflbBlockPoolCreate (mem : Memory) (blkSize blkAlign poolAddr poolSize : Nat) :
    Option (BflbBlockPool × Memory) :=
  let blkSize := alignUp blkSize blkAlign
  let blkCount := divu32 poolSize (add32 4 blkSize)
  if blkCount = 0 then none
  else
    let address := alignUp (add32 poolAddr (mul32 4 blkCount)) blkAlign
    if add32 address (mul32 blkCount blkSize) > add32 poolAddr poolSize then
      let blkCount := blkCount - 1
      if blkCount = 0 then none
      else
        let address := alignUp (add32 poolAddr (mul32 4 blkCount)) blkAlign
        some (newPool poolAddr address blkSize blkAlign blkCount, buildList mem poolAddr blkCount)
    else some (newPool poolAddr address blkSize blkAlign blkCount, buildList mem poolAddr blkCount)

/-- The pool after `bflb_block_pool_add_mtx` and `bflb_block_pool_add_sem`,
each called or not; the semaphore counts the blocks. -/
def Sys.ofPool (pool : BflbBlockPool) (mem : Memory) (mtx sem : Bool) : Sys :=
  { pool := { pool with mtx := mtx, sem := sem }
    mem := mem
    locked := false
    count := if sem then pool.blkTotal else 0 }

/-- `mtx_get`, if it is registered; `none` when it fails. -/
def Sys.mtxGet (sys : Sys) (timeout : Bool) : Option Sys :=
  if sys.pool.mtx then if timeout || sys.locked then none else some { sys with locked := true }
  else some sys

def Sys.mtxPut (sys : Sys) : Sys := if sys.pool.mtx then { sys with locked := false } else sys

/-- `sem_get`, if it is registered. -/
def Sys.semGet (sys : Sys) (timeout : Bool) : Option Sys :=
  if sys.pool.sem then
    if timeout = true ∨ sys.count = 0 then none else some { sys with count := sys.count - 1 }
  else some sys

/-- `sem_put`, if it is registered. -/
def Sys.semPut (sys : Sys) : Sys :=
  if sys.pool.sem then { sys with count := sys.count + 1 } else sys

/-- `*addr`, or `none` for the result -1. -/
def bflbBlockPoolAlloc (sys : Sys) (semTimeout mtxTimeout : Bool) :
    Except Halt (Sys × Option Nat) :=
  match sys.semGet semTimeout with
  | none => .ok (sys, none)
  | some sys =>
    if sys.pool.blkFree = 0 then .ok (sys, none)
    else
      match sys.mtxGet mtxTimeout with
      | none =>
        -- sem_put is called whether it is registered or not
        if sys.pool.sem then .ok (sys.semPut, none) else .error .nullCall
      | some sys =>
        let node := sys.pool.freeList
        let index := sub32 node sys.pool.poolAddr / 4
        let addr := add32 sys.pool.blkAddr (mul32 index sys.pool.blkSize)
        let pool :=
          { sys.pool with freeList := sys.mem node, blkFree := sub32 sys.pool.blkFree 1 }
        .ok ({ sys with pool := pool }.mtxPut, some addr)

def bflbBlockPoolFree (sys : Sys) (addr : Nat) (mtxTimeout : Bool) : Sys × Int :=
  match sys.mtxGet mtxTimeout with
  | none => (sys, -1)
  | some sys =>
    if sys.pool.blkTotal = sys.pool.blkFree then (sys, -1)
    else
      let index := sub32 addr sys.pool.blkAddr / sys.pool.blkSize
      if index > sys.pool.blkTotal then (sys, -1)
      else
        let node := add32 sys.pool.poolAddr (mul32 index 4)
        let mem := Function.update sys.mem node sys.pool.freeList
        let pool := { sys.pool with freeList := node, blkFree := add32 sys.pool.blkFree 1 }
        ({ sys with pool := pool, mem := mem }.mtxPut.semPut, 0)

end BouffaloSdk.BlockPool
