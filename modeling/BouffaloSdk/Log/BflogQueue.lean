import BouffaloSdk.Kit.Record
import BouffaloSdk.Kit.Word
import BouffaloSdk.Log.BflogFilter

/-!
# The message queue of a recorder

`queue_put`, `queue_free` and `queue_get` of `bflog.c`, and the record that
`bflog` puts. Messages follow each other in a byte ring of `size` bytes, each
with its size first. To read or write outside the pool or the message area has
no result.
-/

namespace BouffaloSdk.Bflog
open Kit Kit.Word

def bflogLineBufferSize : Nat := 256
def sizeofBflogMsg : Nat := 40
def bflogFlagTag : Nat := 0x02
def bflogFlagFunc : Nat := 0x04
def bflogFlagLine : Nat := 0x08
def bflogFlagFile : Nat := 0x10
def bflogFlagClk : Nat := 0x20
def bflogFlagTime : Nat := 0x40
def bflogFlagThread : Nat := 0x80
def bflogDummyString : Nat := 0x1000

/-- The message area on the stack of `bflog` and `bflog_flush`. -/
abbrev Msg := Record 296

namespace Msg

def size (msg : Msg) : Nat := msg.word 0 2
def level (msg : Msg) : Nat := msg.word 2 1
def zero (msg : Msg) : Nat := msg.word 3 1

/-- The bytes of the message itself. -/
def message (msg : Msg) : List UInt8 := msg.bytes.take msg.size

end Msg

/-- What `bflog` is given and asks for; `written` and `ret` are what
`vsnprintf` stores and returns. -/
structure LogCall where
  flags : Nat
  level : Nat
  tag : Nat
  file : Nat
  func : Nat
  line : Nat
  clk : Nat
  time : Nat
  thread : Nat
  written : List UInt8
  ret : Int

/-- The bytes of the record, before they are aligned. -/
def LogCall.trueSize (call : LogCall) : Nat :=
  if 0 ≤ call.ret ∧ call.ret ≤ bflogLineBufferSize then sizeofBflogMsg + call.ret.toNat
  else sizeofBflogMsg + bflogLineBufferSize

def alignedSize (size : Nat) : Nat := if size % 4 ≠ 0 then size / 4 * 4 + 4 else size

/-- The record that `bflog` builds in its message area. -/
def bflogMsg (call : LogCall) (msg : Msg) : Msg :=
  let field (flag value dummy : Nat) : Nat := if call.flags &&& flag ≠ 0 then value else dummy
  let msg := msg.putWord 8 8 (field bflogFlagClk call.clk 0)
  let msg := msg.putWord 4 4 (field bflogFlagTime call.time 0)
  let msg := msg.putWord 2 1 call.level
  let msg := msg.putWord 28 4 (field bflogFlagTag call.tag 0)
  let msg := msg.putWord 20 4 (field bflogFlagFunc call.func bflogDummyString)
  let msg := msg.putWord 16 4 (field bflogFlagLine call.line 0)
  let msg := msg.putWord 24 4 (field bflogFlagFile call.file bflogDummyString)
  let msg := msg.putWord 32 4 (field bflogFlagThread call.thread bflogDummyString)
  let msg := msg.putWord 3 1 0
  let msg := msg.put 36 call.written
  msg.putWord 0 2 (alignedSize call.trueSize)

/-- `_msg_t(pool + rpos)->size`. -/
def msgSizeAt (pool : List UInt8) (rpos : Nat) : Option Nat :=
  if rpos + 2 ≤ pool.length then some (ofLE (slice pool rpos 2)) else none

/-- The loop of `queue_free`; `none` also when it does not end. -/
def queueFreeLoop (q : Queue) (pool : List UInt8) (free : Nat) : Nat → Nat → Nat → Option (Nat × Nat)
  | 0, _, _ => none
  | fuel + 1, rpos, space =>
    if space < free then
      (msgSizeAt pool rpos).bind fun size =>
        let rpos :=
          if rpos + size ≥ q.size then (rpos + size - q.size) % 2 ^ 16 else add16 rpos size
        queueFreeLoop q pool free fuel rpos (add16 space size)
    else some (rpos, space)

def queueFree (q : Queue) (pool : List UInt8) (free : Nat) : Option Queue :=
  (queueFreeLoop q pool free (2 ^ 16) q.rpos 0).map fun (rpos, space) =>
    { q with rpos := rpos, free := add16 q.free space }

/-- Stores the message at `wpos`, with one wrap. -/
def queueStore (q : Queue) (pool : List UInt8) (msg : Msg) : Queue × List UInt8 :=
  let remain := sub16 q.size q.wpos
  if msg.size ≥ remain then
    let wpos := sub16 msg.size remain
    let pool := blit pool q.wpos (slice msg.bytes 0 remain)
    ({ q with wpos := wpos, free := sub16 q.free msg.size },
      blit pool 0 (slice msg.bytes remain wpos))
  else
    ({ q with wpos := add16 q.wpos msg.size, free := sub16 q.free msg.size },
      blit pool q.wpos (slice msg.bytes 0 msg.size))

/-- A message larger than the pool is cut to it. -/
def clampMsg (size : Nat) (msg : Msg) : Msg :=
  if msg.size > size then msg.putWord 0 2 size else msg

def queuePut (q : Queue) (pool : List UInt8) (msg : Msg) : Option (Queue × List UInt8) :=
  let msg := clampMsg q.size msg
  let room := if q.free < msg.size then queueFree q pool (sub16 msg.size q.free) else some q
  room.map fun q => queueStore q pool msg

/-- Loads `size` bytes from `rpos`, with one wrap. -/
def queueLoad (q : Queue) (pool : List UInt8) (size : Nat) (msg : Msg) : Nat × Msg :=
  let remain := sub16 q.size q.rpos
  if size ≥ remain then
    let rpos := sub16 size remain
    (rpos, (msg.put 0 (slice pool q.rpos remain)).put remain (slice pool 0 rpos))
  else (add16 q.rpos size, msg.put 0 (slice pool q.rpos size))

/-- The terminator goes behind the message, also where the area ends there. -/
def queueGet (q : Queue) (pool : List UInt8) (msg : Msg) : Option (Queue × Msg) :=
  if q.free = q.size then some (q, msg.putWord 3 1 0xbd)
  else
    (msgSizeAt pool q.rpos).bind fun size =>
      let (rpos, msg) := queueLoad q pool size msg
      if size ≤ 296 ∧ msg.size < 296 then
        some ({ q with rpos := rpos, free := add16 q.free size }, msg.put msg.size [0])
      else none

/-- The queue that `bflog_create` sets up. -/
def newQueue (size : Nat) : Queue := { free := size, size := size, wpos := 0, rpos := 0 }

end BouffaloSdk.Bflog
