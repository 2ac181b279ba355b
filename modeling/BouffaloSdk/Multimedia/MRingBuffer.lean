import BouffaloSdk.Kit.Circular
import BouffaloSdk.Kit.Word

/-!
# The media ring buffer of `components/multimedia/xutils`

The mirror bits share a word with 31-bit indices. Every copying call has an
index-only form, reached with a null pointer: it moves the index over bytes
that a peripheral has put into, or taken from, the pool itself. Pointers are
options; a pointer into the pool is its offset.
-/

namespace BouffaloSdk.MRingBuffer
open Kit Kit.Circular Kit.Word

inductive MringbufferState
  | mringbufferEmpty
  | mringbufferFull
  | mringbufferHalffull
  deriving DecidableEq, Repr

structure Mringbuffer where
  bufferPtr : List UInt8
  readMirror : Bool
  readIndex : Nat
  writeMirror : Bool
  writeIndex : Nat
  bufferSize : Nat
  deriving DecidableEq, Repr

/-- A value stored in one of the 31-bit index fields. -/
@[irreducible] def index31 (n : Nat) : Nat := n % 2 ^ 31

def mspAlignSize : Nat := 8

def mspAlignDown (size align : Nat) : Nat := size - size % align

def mringbufferStatus (rb : Mringbuffer) : MringbufferState :=
  if rb.readIndex = rb.writeIndex then
    if rb.readMirror = rb.writeMirror then .mringbufferEmpty else .mringbufferFull
  else .mringbufferHalffull

def mringbufferInit (pool : List UInt8) (size : Nat) : Mringbuffer :=
  { bufferPtr := pool, readMirror := false, readIndex := 0, writeMirror := false, writeIndex := 0,
    bufferSize := mspAlignDown size mspAlignSize }

def mringbufferReset (rb : Mringbuffer) : Mringbuffer :=
  { rb with readMirror := false, readIndex := 0, writeMirror := false, writeIndex := 0 }

def mringbufferDataLen (rb : Mringbuffer) : Nat :=
  match mringbufferStatus rb with
  | .mringbufferEmpty => 0
  | .mringbufferFull => rb.bufferSize
  | .mringbufferHalffull =>
    let wi := rb.writeIndex
    let ri := rb.readIndex
    if wi > ri then sub32 wi ri else sub32 rb.bufferSize (sub32 ri wi)

def mringbufferGetSize (rb : Mringbuffer) : Nat := rb.bufferSize

def mringbufferSpaceLen (rb : Mringbuffer) : Nat :=
  sub32 rb.bufferSize (mringbufferDataLen rb)

/-- `memcpy` from a source that may be null. -/
def memcpyFrom (pool : List UInt8) (i : Nat) (ptr : Option (List UInt8)) (length : Nat) :
    List UInt8 :=
  (ptr.map fun bytes => blit pool i (bytes.take length)).getD pool

def mringbufferPut (rb : Mringbuffer) (ptr : Option (List UInt8)) (length : Nat) :
    Mringbuffer × Nat :=
  let size := mringbufferSpaceLen rb
  if size = 0 then (rb, 0)
  else
    let length := if size < length then size else length
    let remained := sub32 rb.bufferSize rb.writeIndex
    if remained > length then
      ({ rb with
          bufferPtr := memcpyFrom rb.bufferPtr rb.writeIndex ptr length
          writeIndex := index31 (rb.writeIndex + length) }, length)
    else
      let pool := memcpyFrom rb.bufferPtr rb.writeIndex ptr remained
      ({ rb with
          bufferPtr := memcpyFrom pool 0 (ptr.map (·.drop remained)) (sub32 length remained)
          writeMirror := !rb.writeMirror
          writeIndex := index31 (sub32 length remained) }, length)

/-- Also returns the stretches of the pool handed to the cache callback. -/
def mringbufferPutFflushCache (rb : Mringbuffer) (ptr : Option (List UInt8)) (length : Nat)
    (fflushCache : Bool) : Mringbuffer × Nat × List (Nat × Nat) :=
  let size := mringbufferSpaceLen rb
  if size = 0 then (rb, 0, [])
  else
    let length := if size < length then size else length
    let remained := sub32 rb.bufferSize rb.writeIndex
    if remained > length then
      let flushed := if ptr.isSome ∧ fflushCache then [(rb.writeIndex, length)] else []
      ({ rb with
          bufferPtr := memcpyFrom rb.bufferPtr rb.writeIndex ptr length
          writeIndex := index31 (rb.writeIndex + length) }, length, flushed)
    else
      let pool := memcpyFrom rb.bufferPtr rb.writeIndex ptr remained
      let flushed := if ptr.isSome ∧ fflushCache then
        [(rb.writeIndex, remained), (0, sub32 length remained)] else []
      ({ rb with
          bufferPtr := memcpyFrom pool 0 (ptr.map (·.drop remained)) (sub32 length remained)
          writeMirror := !rb.writeMirror
          writeIndex := index31 (sub32 length remained) }, length, flushed)

def mringbufferPutIndex (rb : Mringbuffer) (wIndex : Nat) : Mringbuffer × Int :=
  let spaceLen := mringbufferSpaceLen rb
  if spaceLen = 0 then (rb, -1)
  else
    let wi := rb.writeIndex
    let ri := rb.readIndex
    let aw := wIndex
    let move (putSize : Nat) : Mringbuffer × Int :=
      (if putSize = 0 then rb else (mringbufferPut rb none putSize).1, int32 putSize)
    if wi ≥ ri then
      if aw > wi then move (sub32 aw wi)
      else if aw ≤ ri then move (sub32 rb.bufferSize (sub32 wi aw))
      else (rb, -2)
    else if aw > wi ∧ aw ≤ ri then move (sub32 aw wi)
    else (rb, -3)

/-- The returned bytes are those copied to the caller's buffer. -/
def mringbufferGet (rb : Mringbuffer) (ptr : Bool) (length : Nat) :
    Mringbuffer × Nat × List UInt8 :=
  let size := mringbufferDataLen rb
  if size = 0 then (rb, 0, [])
  else
    let length := if size < length then size else length
    let remained := sub32 rb.bufferSize rb.readIndex
    if remained > length then
      ({ rb with readIndex := index31 (rb.readIndex + length) }, length,
        if ptr then (rb.bufferPtr.drop rb.readIndex).take length else [])
    else
      ({ rb with
          readMirror := !rb.readMirror
          readIndex := index31 (sub32 length remained) }, length,
        if ptr then
          (rb.bufferPtr.drop rb.readIndex).take remained ++
            rb.bufferPtr.take (sub32 length remained)
        else [])

def mringbufferGetInvalidCache (rb : Mringbuffer) (ptr : Bool) (length : Nat)
    (removeCache : Bool) : Mringbuffer × Nat × List UInt8 × List (Nat × Nat) :=
  let size := mringbufferDataLen rb
  if size = 0 then (rb, 0, [], [])
  else
    let length := if size < length then size else length
    let remained := sub32 rb.bufferSize rb.readIndex
    if remained > length then
      ({ rb with readIndex := index31 (rb.readIndex + length) }, length,
        if ptr then (rb.bufferPtr.drop rb.readIndex).take length else [],
        if ptr ∧ removeCache then [(rb.readIndex, length)] else [])
    else
      ({ rb with
          readMirror := !rb.readMirror
          readIndex := index31 (sub32 length remained) }, length,
        (if ptr then
          (rb.bufferPtr.drop rb.readIndex).take remained ++
            rb.bufferPtr.take (sub32 length remained)
        else []),
        if ptr ∧ removeCache then [(rb.readIndex, remained), (0, sub32 length remained)] else [])

def mringbufferGetIndex (rb : Mringbuffer) (rIndex : Nat) : Mringbuffer × Nat :=
  let dataLen := mringbufferDataLen rb
  if dataLen = 0 then (rb, sub32 0 1)
  else
    let wi := rb.writeIndex
    let ri := rb.readIndex
    let ar := rIndex
    let getSize :=
      if ri ≥ wi then
        if ar > ri then sub32 ar ri
        else if ar ≤ wi then sub32 rb.bufferSize (sub32 ri ar)
        else sub32 rb.bufferSize (sub32 ri wi)
      else if ar > ri ∧ ar ≤ wi then sub32 ar ri
      else sub32 wi ri
    (if getSize = 0 then rb else (mringbufferGet rb false getSize).1, getSize)

/-- The pointer handed out is an offset into the pool. -/
def mringbufferPeek (rb : Mringbuffer) : Mringbuffer × Nat × Option Nat :=
  let size := mringbufferDataLen rb
  if size = 0 then (rb, 0, none)
  else
    let ptr := some rb.readIndex
    if sub32 rb.bufferSize rb.readIndex > size then
      ({ rb with readIndex := index31 (rb.readIndex + size) }, size, ptr)
    else
      ({ rb with readMirror := !rb.readMirror, readIndex := 0 },
        sub32 rb.bufferSize rb.readIndex, ptr)

def mringbufferPutchar (rb : Mringbuffer) (ch : UInt8) : Mringbuffer × Nat :=
  if mringbufferSpaceLen rb = 0 then (rb, 0)
  else
    let pool := blit rb.bufferPtr rb.writeIndex [ch]
    if rb.writeIndex = sub32 rb.bufferSize 1 then
      ({ rb with bufferPtr := pool, writeMirror := !rb.writeMirror, writeIndex := 0 }, 1)
    else ({ rb with bufferPtr := pool, writeIndex := index31 (rb.writeIndex + 1) }, 1)

def mringbufferGetchar (rb : Mringbuffer) (ch : Bool) : Mringbuffer × Nat × List UInt8 :=
  if mringbufferDataLen rb = 0 then (rb, 0, [])
  else
    let byte := if ch then (rb.bufferPtr.drop rb.readIndex).take 1 else []
    if rb.readIndex = sub32 rb.bufferSize 1 then
      ({ rb with readMirror := !rb.readMirror, readIndex := 0 }, 1, byte)
    else ({ rb with readIndex := index31 (rb.readIndex + 1) }, 1, byte)

end BouffaloSdk.MRingBuffer
