import BouffaloSdk.Kit.Circular
import BouffaloSdk.Kit.Word

/-!
# The ring buffer of `components/utils/ring_buffer`

A byte ring addressed by a read and a write index, each with a mirror byte
that is complemented on every wrap: equal indices mean an empty ring when the
mirrors agree and a full one when they differ. Each operation below is one C
function, with the lock callbacks left out: operations do not interleave.
-/

namespace BouffaloSdk.RingBuffer
open Kit Kit.Circular Kit.Word

inductive RingBufferStatusType
  | ringBufferEmpty
  | ringBufferPartial
  | ringBufferFull
  deriving DecidableEq, Repr

structure RingBufferType where
  pointer : List UInt8
  readMirror : UInt8
  readIndex : Nat
  writeMirror : UInt8
  writeIndex : Nat
  size : Nat
  deriving DecidableEq, Repr

def ringBufferInit (buffer : List UInt8) (size : Nat) : RingBufferType :=
  { pointer := buffer, readMirror := 0, readIndex := 0, writeMirror := 0, writeIndex := 0,
    size := size }

def ringBufferReset (rb : RingBufferType) : RingBufferType :=
  { rb with readMirror := 0, readIndex := 0, writeMirror := 0, writeIndex := 0 }

def ringBufferGetLength (rb : RingBufferType) : Nat :=
  if rb.readMirror = rb.writeMirror then sub32 rb.writeIndex rb.readIndex
  else sub32 rb.size (sub32 rb.readIndex rb.writeIndex)

def ringBufferGetEmptyLength (rb : RingBufferType) : Nat :=
  sub32 rb.size (ringBufferGetLength rb)

def ringBufferGetStatus (rb : RingBufferType) : RingBufferStatusType :=
  if rb.readIndex = rb.writeIndex then
    if rb.readMirror = rb.writeMirror then .ringBufferEmpty else .ringBufferFull
  else .ringBufferPartial

/-- A write callback hands over the next `n` bytes of its parameter. -/
abbrev WriteCallback (σ : Type) := σ → Nat → List UInt8 × σ

/-- A read callback takes the bytes that the buffer holds next. -/
abbrev ReadCallback (σ : Type) := σ → List UInt8 → σ

def ringBufferWriteCallback {σ : Type} (rb : RingBufferType) (length : Nat)
    (writeCb : WriteCallback σ) (parameter : σ) : RingBufferType × Nat :=
  let sizeRemained := ringBufferGetEmptyLength rb
  if sizeRemained = 0 then (rb, 0)
  else
    let length := if length > sizeRemained then sizeRemained else length
    let sizeRemained := sub32 rb.size rb.writeIndex
    if sizeRemained > length then
      let (bytes, _) := writeCb parameter length
      ({ rb with
          pointer := blit rb.pointer rb.writeIndex bytes
          writeIndex := add32 rb.writeIndex length }, length)
    else
      let (bytes₁, parameter) := writeCb parameter sizeRemained
      let (bytes₂, _) := writeCb parameter (sub32 length sizeRemained)
      ({ rb with
          pointer := blit (blit rb.pointer rb.writeIndex bytes₁) 0 bytes₂
          writeIndex := sub32 length sizeRemained
          writeMirror := ~~~rb.writeMirror }, length)

def ringBufferWriteCopy : WriteCallback (List UInt8) :=
  fun src length => (src.take length, src.drop length)

def ringBufferWrite (rb : RingBufferType) (data : List UInt8) : RingBufferType × Nat :=
  ringBufferWriteCallback rb data.length ringBufferWriteCopy data

def ringBufferWriteByte (rb : RingBufferType) (data : UInt8) : RingBufferType × Nat :=
  if ringBufferGetEmptyLength rb = 0 then (rb, 0)
  else
    let pointer := blit rb.pointer rb.writeIndex [data]
    if rb.writeIndex ≠ sub32 rb.size 1 then
      ({ rb with pointer := pointer, writeIndex := add32 rb.writeIndex 1 }, 1)
    else
      ({ rb with pointer := pointer, writeIndex := 0, writeMirror := ~~~rb.writeMirror }, 1)

def ringBufferWriteForce (rb : RingBufferType) (data : List UInt8) : RingBufferType × Nat :=
  let sizeRemained := ringBufferGetEmptyLength rb
  let indexRemained := sub32 rb.size rb.writeIndex
  let data := if data.length > rb.size then data.drop (data.length - rb.size) else data
  let length := data.length
  if indexRemained > length then
    let rb := { rb with
      pointer := blit rb.pointer rb.writeIndex data
      writeIndex := add32 rb.writeIndex length }
    (if length > sizeRemained then { rb with readIndex := rb.writeIndex } else rb, length)
  else
    let rb := { rb with
      pointer := blit (blit rb.pointer rb.writeIndex (data.take indexRemained)) 0
        (data.drop indexRemained)
      writeIndex := sub32 length indexRemained
      writeMirror := ~~~rb.writeMirror }
    (if length > sizeRemained then
      { rb with readIndex := rb.writeIndex, readMirror := ~~~rb.readMirror }
     else rb, length)

def ringBufferWriteByteForce (rb : RingBufferType) (data : UInt8) : RingBufferType × Nat :=
  let status := ringBufferGetStatus rb
  let rb := { rb with pointer := blit rb.pointer rb.writeIndex [data] }
  if rb.writeIndex = sub32 rb.size 1 then
    let rb := { rb with writeIndex := 0, writeMirror := ~~~rb.writeMirror }
    (if status = .ringBufferFull then
      { rb with readIndex := rb.writeIndex, readMirror := ~~~rb.readMirror }
     else rb, 1)
  else
    let rb := { rb with writeIndex := add32 rb.writeIndex 1 }
    (if status = .ringBufferFull then { rb with readIndex := rb.writeIndex } else rb, 1)

def ringBufferReadCallback {σ : Type} (rb : RingBufferType) (length : Nat)
    (readCb : ReadCallback σ) (parameter : σ) : RingBufferType × Nat × σ :=
  let size := ringBufferGetLength rb
  if size = 0 then (rb, 0, parameter)
  else
    let length := if size < length then size else length
    let size := sub32 rb.size rb.readIndex
    if size > length then
      let parameter := readCb parameter ((rb.pointer.drop rb.readIndex).take length)
      ({ rb with readIndex := add32 rb.readIndex length }, length, parameter)
    else
      let parameter := readCb parameter ((rb.pointer.drop rb.readIndex).take size)
      let parameter := readCb parameter (rb.pointer.take (sub32 length size))
      ({ rb with readIndex := sub32 length size, readMirror := ~~~rb.readMirror }, length,
        parameter)

def ringBufferReadCopy : ReadCallback (List UInt8) :=
  fun dest data => dest ++ data

/-- The returned bytes are those copied to the caller's buffer. -/
def ringBufferRead (rb : RingBufferType) (length : Nat) :
    RingBufferType × Nat × List UInt8 :=
  ringBufferReadCallback rb length ringBufferReadCopy []

def ringBufferReadByte (rb : RingBufferType) : RingBufferType × Nat × List UInt8 :=
  if ringBufferGetLength rb = 0 then (rb, 0, [])
  else
    let data := (rb.pointer.drop rb.readIndex).take 1
    if rb.readIndex = sub32 rb.size 1 then
      ({ rb with readIndex := 0, readMirror := ~~~rb.readMirror }, 1, data)
    else
      ({ rb with readIndex := add32 rb.readIndex 1 }, 1, data)

def ringBufferPeek (rb : RingBufferType) (length : Nat) : Nat × List UInt8 :=
  let size := ringBufferGetLength rb
  if size = 0 then (0, [])
  else
    let length := if size < length then size else length
    let size := sub32 rb.size rb.readIndex
    if size > length then (length, (rb.pointer.drop rb.readIndex).take length)
    else
      (length, (rb.pointer.drop rb.readIndex).take size ++ rb.pointer.take (sub32 length size))

def ringBufferPeekByte (rb : RingBufferType) : Nat × List UInt8 :=
  if ringBufferGetLength rb = 0 then (0, [])
  else (1, (rb.pointer.drop rb.readIndex).take 1)

end BouffaloSdk.RingBuffer
