import BouffaloSdk.Kit.WordMemory
import Mathlib.Data.Nat.Bitwise
import Mathlib.Logic.Function.Basic

/-!
# The two-level segregated fit allocator

The pool is a row of blocks, each with its size and two flags in one word, and
the free ones are threaded onto lists by size class through links in their own
storage. Memory is bytes and a pointer is its address, on 32 bits.
-/

namespace BouffaloSdk.Mm

open Kit.WordMemory

structure Heap where
  mem : ℕ → ℕ
  flBitmap : BitVec 32
  slBitmap : ℕ → BitVec 32
  blocks : ℕ → ℕ → ℕ
  /-- `&control->block_null`, which is also the address of the control structure. -/
  blockNull : ℕ

/-- The meaning of `ptrdiff_t` and `size_t` sums. -/
def add32 (a b : ℕ) : ℕ := (a + b) % 2 ^ 32

def sub32 (a b : ℕ) : ℕ := (a + (2 ^ 32 - b)) % 2 ^ 32

namespace Tlsf

def slIndexCountLog2 : ℕ := 5
def alignSizeLog2 : ℕ := 2
def alignSize : ℕ := 4
def flIndexMax : ℕ := 30
def slIndexCount : ℕ := 32
def flIndexShift : ℕ := 7
def flIndexCount : ℕ := 24
def smallBlockSize : ℕ := 128

def blockHeaderOverhead : ℕ := 4
def blockStartOffset : ℕ := 8
def sizeofBlockHeader : ℕ := 16
def blockSizeMin : ℕ := 12
def blockSizeMax : ℕ := 2 ^ 30

/-- `sizeof(control_t)`: the null block, the bitmaps and the list heads. -/
def tlsfSize : ℕ := 3188

def tlsfPoolOverhead : ℕ := 8

/-- The number of the lowest bit set. For the empty word C has `-1`, and no caller asks. -/
def tlsfFfs (word : BitVec 32) : ℕ := ((List.range 32).find? word.getLsbD).getD 32

/-- The number of the highest bit set, of a word that has one. -/
def tlsfFls (word : ℕ) : ℕ := Nat.log2 word

end Tlsf

open Tlsf

namespace Heap

variable (h : Heap)

/-! ## Header fields -/

def word (a : ℕ) : ℕ := load 256 h.mem a 4

def setWord (a v : ℕ) : Heap := { h with mem := store 256 h.mem a 4 v }

def prevPhysBlock (block : ℕ) : ℕ := h.word block
def size (block : ℕ) : ℕ := h.word (block + 4)
def nextFree (block : ℕ) : ℕ := h.word (block + 8)
def prevFree (block : ℕ) : ℕ := h.word (block + 12)

def setPrevPhysBlock (block v : ℕ) : Heap := h.setWord block v
def setSize (block v : ℕ) : Heap := h.setWord (block + 4) v
def setNextFree (block v : ℕ) : Heap := h.setWord (block + 8) v
def setPrevFreeLink (block v : ℕ) : Heap := h.setWord (block + 12) v

/-! ## Members of a block -/

/-- `~(block_header_free_bit | block_header_prev_free_bit)` -/
def sizeMask : ℕ := 0xFFFFFFFC

def blockSize (block : ℕ) : ℕ := h.size block &&& sizeMask

def blockSetSize (block size : ℕ) : Heap := h.setSize block (size ||| (h.size block &&& 3))

def blockIsLast (block : ℕ) : Bool := h.blockSize block == 0

def blockIsFree (block : ℕ) : Bool := h.size block &&& 1 != 0

def blockSetFree (block : ℕ) : Heap := h.setSize block (h.size block ||| 1)

def blockSetUsed (block : ℕ) : Heap := h.setSize block (h.size block &&& 0xFFFFFFFE)

def blockIsPrevFree (block : ℕ) : Bool := h.size block &&& 2 != 0

def blockSetPrevFree (block : ℕ) : Heap := h.setSize block (h.size block ||| 2)

def blockSetPrevUsed (block : ℕ) : Heap := h.setSize block (h.size block &&& 0xFFFFFFFD)

end Heap

namespace Tlsf

def blockFromPtr (ptr : ℕ) : ℕ := sub32 ptr blockStartOffset

def blockToPtr (block : ℕ) : ℕ := add32 block blockStartOffset

def offsetToBlock (ptr size : ℕ) : ℕ := add32 ptr size

end Tlsf

namespace Heap

variable (h : Heap)

def blockPrev (block : ℕ) : ℕ := h.prevPhysBlock block

def blockNext (block : ℕ) : ℕ :=
  offsetToBlock (blockToPtr block) (sub32 (h.blockSize block) blockHeaderOverhead)

def blockLinkNext (block : ℕ) : Heap × ℕ :=
  let next := h.blockNext block
  (h.setPrevPhysBlock next block, next)

def blockMarkAsFree (block : ℕ) : Heap :=
  let (h, next) := h.blockLinkNext block
  (h.blockSetPrevFree next).blockSetFree block

def blockMarkAsUsed (block : ℕ) : Heap :=
  (h.blockSetPrevUsed (h.blockNext block)).blockSetUsed block

end Heap

/-! ## Sizes and classes -/

namespace Tlsf

/-- Also `align_ptr`. -/
def alignUp (x align : ℕ) : ℕ := add32 x (align - 1) &&& (2 ^ 32 - 1 - (align - 1))

def alignDown (x align : ℕ) : ℕ := x - (x &&& (align - 1))

def adjustRequestSize (size align : ℕ) : ℕ :=
  let adjust :=
    if size ≠ 0 then
      let aligned := alignUp size align
      if aligned < blockSizeMax then max aligned blockSizeMin else 0
    else 0
  if 2 ^ 32 - 1 - size < align then 0 else adjust

def mappingInsert (size : ℕ) : ℕ × ℕ :=
  if size < smallBlockSize then
    (0, size / (smallBlockSize / slIndexCount))
  else
    let fl := tlsfFls size
    (fl - (flIndexShift - 1), (size >>> (fl - slIndexCountLog2)) ^^^ (1 <<< slIndexCountLog2))

def mappingSearch (size : ℕ) : ℕ × ℕ :=
  if size ≥ smallBlockSize then
    mappingInsert (add32 size (1 <<< (tlsfFls size - slIndexCountLog2) - 1))
  else mappingInsert size

end Tlsf

/-! ## Free lists -/

namespace Heap

variable (h : Heap)

/-- The block, `0` when there is none, with the list it heads. -/
def searchSuitableBlock (fl sl : ℕ) : ℕ × ℕ × ℕ :=
  let slMap := h.slBitmap fl &&& (BitVec.allOnes 32 <<< sl)
  if slMap = 0 then
    let flMap := h.flBitmap &&& (BitVec.allOnes 32 <<< (fl + 1))
    if flMap = 0 then (0, fl, sl)
    else
      let fl := tlsfFfs flMap
      let sl := tlsfFfs (h.slBitmap fl)
      (h.blocks fl sl, fl, sl)
  else
    let sl := tlsfFfs slMap
    (h.blocks fl sl, fl, sl)

def setBlocks (fl sl v : ℕ) : Heap :=
  { h with blocks := Function.update h.blocks fl (Function.update (h.blocks fl) sl v) }

def clearSl (fl sl : ℕ) : Heap :=
  { h with slBitmap := Function.update h.slBitmap fl (h.slBitmap fl &&& ~~~(1#32 <<< sl)) }

def clearFl (fl : ℕ) : Heap := { h with flBitmap := h.flBitmap &&& ~~~(1#32 <<< fl) }

def setBits (fl sl : ℕ) : Heap :=
  { h with
    flBitmap := h.flBitmap ||| (1#32 <<< fl)
    slBitmap := Function.update h.slBitmap fl (h.slBitmap fl ||| (1#32 <<< sl)) }

def removeFreeBlock (block fl sl : ℕ) : Heap :=
  let prev := h.prevFree block
  let next := h.nextFree block
  let h := (h.setPrevFreeLink next prev).setNextFree prev next
  if h.blocks fl sl = block then
    let h := h.setBlocks fl sl next
    if next = h.blockNull then
      let h := h.clearSl fl sl
      if h.slBitmap fl = 0 then h.clearFl fl else h
    else h
  else h

def insertFreeBlock (block fl sl : ℕ) : Heap :=
  let current := h.blocks fl sl
  let h := ((h.setNextFree block current).setPrevFreeLink block h.blockNull).setPrevFreeLink
    current block
  (h.setBlocks fl sl block).setBits fl sl

def blockRemove (block : ℕ) : Heap :=
  let (fl, sl) := mappingInsert (h.blockSize block)
  h.removeFreeBlock block fl sl

def blockInsert (block : ℕ) : Heap :=
  let (fl, sl) := mappingInsert (h.blockSize block)
  h.insertFreeBlock block fl sl

/-! ## Splitting and merging -/

def blockCanSplit (block size : ℕ) : Bool := h.blockSize block ≥ add32 sizeofBlockHeader size

def blockSplit (block size : ℕ) : Heap × ℕ :=
  let remaining := offsetToBlock (blockToPtr block) (sub32 size blockHeaderOverhead)
  let remainSize := sub32 (h.blockSize block) (add32 size blockHeaderOverhead)
  let h := h.blockSetSize remaining remainSize
  let h := h.blockSetSize block size
  (h.blockMarkAsFree remaining, remaining)

def blockAbsorb (prev block : ℕ) : Heap × ℕ :=
  let h := h.setSize prev
    (add32 (h.size prev) (add32 (h.blockSize block) blockHeaderOverhead))
  ((h.blockLinkNext prev).1, prev)

def blockMergePrev (block : ℕ) : Heap × ℕ :=
  if h.blockIsPrevFree block then
    let prev := h.blockPrev block
    (h.blockRemove prev).blockAbsorb prev block
  else (h, block)

def blockMergeNext (block : ℕ) : Heap × ℕ :=
  let next := h.blockNext block
  if h.blockIsFree next then (h.blockRemove next).blockAbsorb block next else (h, block)

def blockTrimFree (block size : ℕ) : Heap :=
  if h.blockCanSplit block size then
    let (h, remaining) := h.blockSplit block size
    let (h, _) := h.blockLinkNext block
    (h.blockSetPrevFree remaining).blockInsert remaining
  else h

def blockTrimUsed (block size : ℕ) : Heap :=
  if h.blockCanSplit block size then
    let (h, remaining) := h.blockSplit block size
    let h := h.blockSetPrevUsed remaining
    let (h, remaining) := h.blockMergeNext remaining
    h.blockInsert remaining
  else h

def blockTrimFreeLeading (block size : ℕ) : Heap × ℕ :=
  if h.blockCanSplit block size then
    let (h, remaining) := h.blockSplit block (sub32 size blockHeaderOverhead)
    let h := h.blockSetPrevFree remaining
    let (h, _) := h.blockLinkNext block
    (h.blockInsert block, remaining)
  else (h, block)

def blockLocateFree (size : ℕ) : Heap × ℕ :=
  if size ≠ 0 then
    let (fl, sl) := mappingSearch size
    if fl < flIndexCount then
      let (block, fl, sl) := h.searchSuitableBlock fl sl
      if block ≠ 0 then (h.removeFreeBlock block fl sl, block) else (h, 0)
    else (h, 0)
  else (h, 0)

def blockPrepareUsed (block size : ℕ) : Heap × ℕ :=
  if block ≠ 0 then
    let h := h.blockTrimFree block size
    (h.blockMarkAsUsed block, blockToPtr block)
  else (h, 0)

end Heap

/-! ## The interface -/

/-- The control structure in memory that holds anything. -/
def controlConstruct (mem : ℕ → ℕ) (control : ℕ) : Heap :=
  let h : Heap :=
    { mem, flBitmap := 0, slBitmap := fun _ => 0, blocks := fun _ _ => control,
      blockNull := control }
  (h.setNextFree control control).setPrevFreeLink control control

namespace Heap

variable (h : Heap)

/-- The heap with the pool, or with none of it where C returns `NULL`. -/
def tlsfAddPool (mem bytes : ℕ) : Heap × ℕ :=
  let poolBytes := alignDown (sub32 bytes tlsfPoolOverhead) alignSize
  if mem % alignSize ≠ 0 then (h, 0)
  else if poolBytes < blockSizeMin ∨ poolBytes > blockSizeMax then (h, 0)
  else
    let block := sub32 mem blockHeaderOverhead
    let h := h.blockSetSize block poolBytes
    let h := (h.blockSetFree block).blockSetPrevUsed block
    let h := h.blockInsert block
    let (h, next) := h.blockLinkNext block
    let h := h.blockSetSize next 0
    ((h.blockSetUsed next).blockSetPrevFree next, mem)

def tlsfMalloc (size : ℕ) : Heap × ℕ :=
  let adjust := adjustRequestSize size alignSize
  if adjust = 0 then (h, 0)
  else
    let (h, block) := h.blockLocateFree adjust
    h.blockPrepareUsed block adjust

/-- The gap in front of the aligned address, none of it or a whole block. -/
def alignmentGap (ptr align : ℕ) : ℕ :=
  let aligned := alignUp ptr align
  let gap := sub32 aligned ptr
  if gap ≠ 0 ∧ gap < sizeofBlockHeader then
    let gapRemain := sizeofBlockHeader - gap
    let offset := max gapRemain align
    sub32 (alignUp (add32 aligned offset) align) ptr
  else gap

def tlsfMemalign (align size : ℕ) : Heap × ℕ :=
  let adjust := adjustRequestSize size alignSize
  if adjust = 0 then (h, 0)
  else
    let gapMinimum := sizeofBlockHeader
    let sizeWithGap := adjustRequestSize (add32 (add32 adjust align) gapMinimum) align
    if sizeWithGap = 0 then (h, 0)
    else
      let alignedSize := if adjust ≠ 0 ∧ align > alignSize then sizeWithGap else adjust
      let (h, block) := h.blockLocateFree alignedSize
      if block ≠ 0 then
        let gap := alignmentGap (blockToPtr block) align
        if gap ≠ 0 then
          let (h, block) := h.blockTrimFreeLeading block gap
          h.blockPrepareUsed block adjust
        else h.blockPrepareUsed block adjust
      else h.blockPrepareUsed block adjust

def tlsfFree (ptr : ℕ) : Heap :=
  if ptr ≠ 0 then
    let block := blockFromPtr ptr
    let h := h.blockMarkAsFree block
    let (h, block) := h.blockMergePrev block
    let (h, block) := h.blockMergeNext block
    h.blockInsert block
  else h

def memcpy (dst src n : ℕ) : Heap :=
  { h with mem := fun a => if dst ≤ a ∧ a < dst + n then h.mem (src + (a - dst)) else h.mem a }

def memset (dst c n : ℕ) : Heap :=
  { h with mem := fun a => if dst ≤ a ∧ a < dst + n then c else h.mem a }

def tlsfRealloc (ptr size : ℕ) : Heap × ℕ :=
  if ptr ≠ 0 ∧ size = 0 then (h.tlsfFree ptr, 0)
  else if ptr = 0 then h.tlsfMalloc size
  else
    let block := blockFromPtr ptr
    let next := h.blockNext block
    let cursize := h.blockSize block
    let combined := add32 (add32 cursize (h.blockSize next)) blockHeaderOverhead
    let adjust := adjustRequestSize size alignSize
    if adjust > cursize ∧ (!h.blockIsFree next ∨ adjust > combined) then
      let (h, p) := h.tlsfMalloc size
      if p ≠ 0 then ((h.memcpy p ptr (min cursize size)).tlsfFree ptr, p) else (h, 0)
    else
      let h := if adjust > cursize then (h.blockMergeNext block).1.blockMarkAsUsed block else h
      (h.blockTrimUsed block adjust, ptr)

/-! ## Walking the pool -/

/-- What `walker` is called with on each block in turn, from `block` on; `none` when the walk
has not ended after `fuel` blocks. -/
def walkFrom : ℕ → ℕ → Option (List (ℕ × ℕ × Bool))
  | 0, _ => none
  | fuel + 1, block =>
    if block = 0 ∨ h.blockIsLast block then some []
    else (walkFrom fuel (h.blockNext block)).map
      ((blockToPtr block, h.blockSize block, !h.blockIsFree block) :: ·)

def tlsfWalkPool (fuel pool : ℕ) : Option (List (ℕ × ℕ × Bool)) :=
  h.walkFrom fuel (offsetToBlock pool (sub32 0 blockHeaderOverhead))

structure Integrity where
  prevStatus : Bool
  status : ℤ

/-- `tlsf_insist` -/
def insist (status : ℤ) (x : Bool) : ℤ := if x then status else status - 1

def integrityWalker (integ : Integrity) (call : ℕ × ℕ × Bool) : Integrity :=
  let block := blockFromPtr call.1
  let status := insist 0 (integ.prevStatus == h.blockIsPrevFree block)
  let status := insist status (call.2.1 == h.blockSize block)
  { prevStatus := h.blockIsFree block, status := integ.status + status }

def tlsfCheckPool (fuel pool : ℕ) : Option ℤ :=
  (h.tlsfWalkPool fuel pool).map fun calls =>
    (calls.foldl h.integrityWalker ⟨false, 0⟩).status

/-- The inner loop of `tlsf_check`, along one list. -/
def checkList (i j : ℕ) : ℕ → ℕ → ℤ → Option ℤ
  | 0, _, _ => none
  | fuel + 1, block, status =>
    if block = h.blockNull then some status
    else
      let next := h.blockNext block
      let status := insist status (h.blockIsFree block)
      let status := insist status (!h.blockIsPrevFree block)
      let status := insist status (!h.blockIsFree next)
      let status := insist status (h.blockIsPrevFree next)
      let status := insist status (h.blockSize block ≥ blockSizeMin)
      let status := insist status (mappingInsert (h.blockSize block) == (i, j))
      checkList i j fuel (h.nextFree block) status

def checkClass (fuel : ℕ) (status : ℤ) (i j : ℕ) : Option ℤ :=
  let flMap := h.flBitmap &&& (1#32 <<< i)
  let slList := h.slBitmap i
  let slMap := slList &&& (1#32 <<< j)
  let block := h.blocks i j
  let status := if flMap = 0 then insist status (slMap == 0) else status
  if slMap = 0 then some (insist status (block == h.blockNull))
  else
    let status := insist status (slList != 0)
    let status := insist status (block != h.blockNull)
    h.checkList i j fuel block status

def tlsfCheck (fuel : ℕ) : Option ℤ :=
  (List.range (flIndexCount * slIndexCount)).foldlM
    (fun status k => h.checkClass fuel status (k / slIndexCount) (k % slIndexCount)) 0

end Heap

/-- `tlsf_create`, with the first pool. A start that is not aligned makes C return `NULL`. -/
def tlsfCreateWithPool (mem : ℕ → ℕ) (start bytes : ℕ) : Option Heap :=
  if start % alignSize ≠ 0 then none
  else some ((controlConstruct mem start).tlsfAddPool (add32 start tlsfSize)
    (sub32 bytes tlsfSize)).1

end BouffaloSdk.Mm
