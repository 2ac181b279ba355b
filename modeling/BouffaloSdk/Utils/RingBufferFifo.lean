import BouffaloSdk.Kit.Fifo
import BouffaloSdk.Utils.RingBuffer

/-!
# The ring buffer as a bounded queue

`Represents` ties indices and mirrors to the queue they stand for. Every
operation moves the two positions and writes one block, so `Represents.shift`
is the only place where the representation is rebuilt; the operations differ
in which moves their branches make.
-/

namespace BouffaloSdk.RingBuffer
open Kit Kit.Circular Kit.Word

/-- The mirrors agree as long as the queue does not reach past the end of the
buffer, and are complements of each other once it does. -/
structure Represents (size : Nat) (rb : RingBufferType) (items : List UInt8) : Prop where
  small : size < 2 ^ 32
  size_eq : rb.size = size
  buffer : rb.pointer.length = size
  fits : items.length ≤ size
  read_lt : rb.readIndex < size
  write_eq : rb.writeIndex = wrap size (rb.readIndex + items.length)
  mirror : rb.writeMirror =
    if rb.readIndex + items.length < size then rb.readMirror else ~~~rb.readMirror
  contents : window rb.pointer rb.readIndex items.length = items

variable {size : Nat} {rb : RingBufferType} {items : List UInt8}

theorem Represents.write_lt (h : Represents size rb items) : rb.writeIndex < size := by
  rw [h.write_eq]
  have := h.read_lt
  have := h.fits
  exact wrap_lt (by omega)

theorem Represents.mirrors_eq_iff (h : Represents size rb items) :
    rb.readMirror = rb.writeMirror ↔ rb.readIndex + items.length < size := by
  rw [h.mirror]
  split
  · simp [*]
  · simp [*]

theorem Represents.getLength (h : Represents size rb items) :
    ringBufferGetLength rb = items.length := by
  have := h.read_lt
  have := h.fits
  have := h.small
  unfold ringBufferGetLength
  simp only [h.mirrors_eq_iff, h.write_eq, h.size_eq, wrap]
  split
  · rw [sub32_eq (by omega) (by omega)]
    omega
  · have hback : sub32 rb.readIndex (rb.readIndex + items.length - size) = size - items.length := by
      rw [sub32_eq (by omega) (by omega)]
      omega
    rw [hback, sub32_eq (by omega) (by omega)]
    omega

theorem Represents.getEmptyLength (h : Represents size rb items) :
    ringBufferGetEmptyLength rb = size - items.length := by
  rw [ringBufferGetEmptyLength, h.getLength, h.size_eq, sub32_eq h.fits h.small]

theorem Represents.getStatus (h : Represents size rb items) :
    ringBufferGetStatus rb =
      if items.length = 0 then .ringBufferEmpty
      else if items.length = size then .ringBufferFull else .ringBufferPartial := by
  have := h.read_lt
  have := h.fits
  unfold ringBufferGetStatus
  simp only [h.mirrors_eq_iff, h.write_eq, wrap]
  grind

theorem represents_init {buffer : List UInt8} (hb : buffer.length = size) (pos : 0 < size)
    (small : size < 2 ^ 32) : Represents size (ringBufferInit buffer size) [] :=
  ⟨small, rfl, hb, Nat.zero_le _, pos, by simp [ringBufferInit, wrap, pos],
    by simp [ringBufferInit, pos], by simp [window]⟩

theorem Represents.reset (h : Represents size rb items) (pos : 0 < size) :
    Represents size (ringBufferReset rb) [] :=
  ⟨h.small, h.size_eq, h.buffer, Nat.zero_le _, pos, by simp [ringBufferReset, wrap, pos],
    by simp [ringBufferReset, pos], by simp [window]⟩

/-- The read position moves `k` cells, the write position over `data`, each
complementing its mirror exactly when it wraps. -/
theorem Represents.shift (h : Represents size rb items) (rb' : RingBufferType)
    (data : List UInt8) (k : Nat) (hd : data.length ≤ size) (hk : k ≤ items.length)
    (hfit : items.length + data.length ≤ size + k)
    (hs : rb'.size = size)
    (hp : rb'.pointer = putWrap rb.pointer rb.writeIndex data)
    (hw : rb'.writeIndex = wrap size (rb.writeIndex + data.length))
    (hwm : rb'.writeMirror =
      if rb.writeIndex + data.length < size then rb.writeMirror else ~~~rb.writeMirror)
    (hr : rb'.readIndex = wrap size (rb.readIndex + k))
    (hrm : rb'.readMirror = if rb.readIndex + k < size then rb.readMirror else ~~~rb.readMirror) :
    Represents size rb' ((items ++ data).drop k) := by
  have hread := h.read_lt
  have hfits := h.fits
  have hbuf := h.buffer
  have hlen : ((items ++ data).drop k).length = items.length + data.length - k := by
    rw [List.length_drop, List.length_append]
  have hwidx := h.write_eq
  refine ⟨h.small, hs, ?_, by omega, ?_, ?_, ?_, ?_⟩
  · rw [hp, length_putWrap (by rw [hbuf]; exact h.write_lt) (by omega), hbuf]
  · rw [hr]
    exact wrap_lt (by omega)
  · rw [hw, hr, hlen, hwidx]
    unfold wrap
    grind
  · rw [hwm, hr, hrm, hlen, h.mirror, hwidx]
    unfold wrap
    grind [UInt8.not_not]
  · have := window_putWrap rb.pointer data rb.readIndex items.length k
      (by omega) (by omega) (by omega) hk (by omega)
    rw [hbuf, ← hwidx, ← hp, ← hr, h.contents] at this
    rw [hlen]
    exact this

/-! ## The two moves -/

/-- The state after `data` was written behind the queue. -/
def moveWrite (rb : RingBufferType) (data : List UInt8) : RingBufferType :=
  { rb with
    pointer := putWrap rb.pointer rb.writeIndex data
    writeIndex := wrap rb.size (rb.writeIndex + data.length)
    writeMirror :=
      if rb.writeIndex + data.length < rb.size then rb.writeMirror else ~~~rb.writeMirror }

/-- The state after the oldest `k` bytes were given up. -/
def moveRead (rb : RingBufferType) (k : Nat) : RingBufferType :=
  { rb with
    readIndex := wrap rb.size (rb.readIndex + k)
    readMirror := if rb.readIndex + k < rb.size then rb.readMirror else ~~~rb.readMirror }

theorem Represents.moveWrite (h : Represents size rb items) {data : List UInt8}
    (hd : data.length ≤ size - items.length) :
    Represents size (moveWrite rb data) (items ++ data) := by
  have hread := h.read_lt
  have hfits := h.fits
  refine h.shift (RingBuffer.moveWrite rb data) data 0 (by omega) (by omega) (by omega) h.size_eq rfl
    (by simp only [RingBuffer.moveWrite, h.size_eq])
    (by simp only [RingBuffer.moveWrite, h.size_eq]) ?_ ?_
  · simp [RingBuffer.moveWrite, wrap, hread]
  · simp [RingBuffer.moveWrite, hread]

theorem putWrap_nil (buf : List UInt8) (i : Nat) : putWrap buf i [] = buf := by
  unfold putWrap
  split <;> simp [blit]

theorem Represents.moveRead (h : Represents size rb items) {k : Nat} (hk : k ≤ items.length) :
    Represents size (moveRead rb k) (items.drop k) := by
  have hw := h.write_lt
  have hfits := h.fits
  have hs := h.shift (RingBuffer.moveRead rb k) [] k (by simp) hk
    (by simp; omega) h.size_eq (putWrap_nil _ _).symm
    (by simp [RingBuffer.moveRead, wrap, hw]) (by simp [RingBuffer.moveRead, hw])
    (by simp only [RingBuffer.moveRead, h.size_eq]) (by simp only [RingBuffer.moveRead, h.size_eq])
  simpa using hs

/-- Writing more than fits gives up as many of the oldest bytes. -/
theorem Represents.overwrite (h : Represents size rb items) (data : List UInt8)
    (hd : data.length ≤ size) :
    Represents size (RingBuffer.moveRead (RingBuffer.moveWrite rb data)
        (items.length + data.length - size))
      ((items ++ data).drop (items.length + data.length - size)) := by
  have hfits := h.fits
  refine h.shift _ data _ hd (by omega) (by omega) h.size_eq rfl ?_ ?_ ?_ ?_ <;>
    simp only [RingBuffer.moveRead, RingBuffer.moveWrite, h.size_eq]

/-! ## One operation at a time -/

/-- The block copies of the C code are one write with a wrap. -/
theorem Represents.putWrap_eq (h : Represents size rb items) {data : List UInt8} :
    putWrap rb.pointer rb.writeIndex data =
      if size - rb.writeIndex > data.length then blit rb.pointer rb.writeIndex data
      else blit (blit rb.pointer rb.writeIndex (data.take (size - rb.writeIndex))) 0
        (data.drop (size - rb.writeIndex)) := by
  rw [putWrap, h.buffer]

theorem Represents.moveWrite_eq (h : Represents size rb items) {data : List UInt8}
    (hd : data.length ≤ size) :
    RingBuffer.moveWrite rb data =
      if size - rb.writeIndex > data.length then
        { rb with
          pointer := blit rb.pointer rb.writeIndex data
          writeIndex := add32 rb.writeIndex data.length }
      else
        { rb with
          pointer := blit (blit rb.pointer rb.writeIndex (data.take (size - rb.writeIndex))) 0
            (data.drop (size - rb.writeIndex))
          writeIndex := sub32 data.length (size - rb.writeIndex)
          writeMirror := ~~~rb.writeMirror } := by
  have hw := h.write_lt
  have hs := h.small
  unfold RingBuffer.moveWrite
  rw [h.putWrap_eq, h.size_eq]
  split
  · rw [add32_eq (by omega), wrap, if_pos (by omega), if_pos (by omega)]
  · rw [sub32_eq (by omega) (by omega), wrap, if_neg (by omega), if_neg (by omega)]
    congr 1
    omega

theorem Represents.write_eq_moveWrite (h : Represents size rb items) (data : List UInt8) :
    ringBufferWrite rb data =
      if size - items.length = 0 then (rb, 0)
      else (RingBuffer.moveWrite rb (data.take (size - items.length)),
        (data.take (size - items.length)).length) := by
  have hw := h.write_lt
  have hs := h.small
  have hlen : (if data.length > size - items.length then size - items.length
      else data.length) = (data.take (size - items.length)).length := by
    rw [List.length_take]
    split <;> omega
  unfold ringBufferWrite ringBufferWriteCallback
  simp only [h.getEmptyLength, h.size_eq, sub32_eq (Nat.le_of_lt hw) hs, ringBufferWriteCopy, hlen]
  split
  · rfl
  · have hk : (data.take (size - items.length)).length ≤ size := by
      rw [List.length_take]
      omega
    have htake : data.take (data.take (size - items.length)).length =
        data.take (size - items.length) := by
      rw [List.length_take, ← List.take_eq_take_min]
    rw [h.moveWrite_eq hk]
    split
    · rw [htake, h.size_eq]
    · have hcut : data.take (size - rb.writeIndex) =
          (data.take (size - items.length)).take (size - rb.writeIndex) := by
        rw [← htake, List.take_take, Nat.min_eq_left (by omega)]
      rw [hcut, sub32_eq (by omega) (by omega), ← List.drop_take, htake, h.size_eq]

theorem Represents.moveWrite_singleton (h : Represents size rb items) (data : UInt8) :
    RingBuffer.moveWrite rb [data] =
      if rb.writeIndex = size - 1 then
        { rb with
          pointer := blit rb.pointer rb.writeIndex [data]
          writeIndex := 0
          writeMirror := ~~~rb.writeMirror }
      else
        { rb with
          pointer := blit rb.pointer rb.writeIndex [data]
          writeIndex := add32 rb.writeIndex 1 } := by
  have hw := h.write_lt
  rw [h.moveWrite_eq (by simp; omega)]
  simp only [List.length_singleton]
  split
  · rw [if_neg (by omega)]
  · rw [if_pos (by omega), show size - rb.writeIndex = 1 by omega,
      sub32_eq (Nat.le_refl 1) (by decide)]
    simp [blit]

theorem Represents.writeByte_eq_moveWrite (h : Represents size rb items) (data : UInt8) :
    ringBufferWriteByte rb data =
      if size - items.length = 0 then (rb, 0) else (RingBuffer.moveWrite rb [data], 1) := by
  have hw := h.write_lt
  unfold ringBufferWriteByte
  rw [h.getEmptyLength, h.moveWrite_singleton, h.size_eq, sub32_eq (by omega) h.small]
  split
  · rfl
  · split
    · rfl
    · rw [if_pos (by omega)]

theorem Represents.moveRead_eq (h : Represents size rb items) {k : Nat} (hk : k ≤ size) :
    RingBuffer.moveRead rb k =
      if size - rb.readIndex > k then { rb with readIndex := add32 rb.readIndex k }
      else
        { rb with
          readIndex := sub32 k (size - rb.readIndex)
          readMirror := ~~~rb.readMirror } := by
  have hr := h.read_lt
  have hs := h.small
  unfold RingBuffer.moveRead
  rw [h.size_eq]
  split
  · rw [add32_eq (by omega), wrap, if_pos (by omega), if_pos (by omega)]
  · rw [sub32_eq (by omega) (by omega), wrap, if_neg (by omega), if_neg (by omega)]
    congr 1
    omega

/-- The oldest bytes as the C code collects them: one piece or two. -/
theorem Represents.take_eq (h : Represents size rb items) {k : Nat} (hk : k ≤ items.length) :
    items.take k =
      if size - rb.readIndex > k then (rb.pointer.drop rb.readIndex).take k
      else (rb.pointer.drop rb.readIndex).take (size - rb.readIndex) ++
        rb.pointer.take (sub32 k (size - rb.readIndex)) := by
  have hr := h.read_lt
  have hs := h.small
  have hf := h.fits
  have hb := h.buffer
  have ht : items.take k = window rb.pointer rb.readIndex k := by
    conv_lhs => rw [← h.contents, window_take hk]
  split
  · rw [ht, window_eq_take (by omega)]
  · rw [ht, window_eq_append (by omega) (by omega), hb, sub32_eq (by omega) (by omega)]

theorem Represents.read_eq_moveRead (h : Represents size rb items) (length : Nat) :
    ringBufferRead rb length =
      if items.length = 0 then (rb, 0, [])
      else (RingBuffer.moveRead rb (min items.length length), min items.length length,
        items.take (min items.length length)) := by
  have hr := h.read_lt
  have hs := h.small
  have hf := h.fits
  have hmin : (if items.length < length then items.length else length) =
      min items.length length := by
    split <;> omega
  unfold ringBufferRead ringBufferReadCallback
  simp only [h.getLength, hmin]
  rw [h.moveRead_eq (by omega), h.take_eq (Nat.min_le_left _ _), h.size_eq,
    sub32_eq (by omega) hs]
  split
  · rfl
  · split <;> simp [ringBufferReadCopy]

theorem Represents.peek_eq (h : Represents size rb items) (length : Nat) :
    ringBufferPeek rb length =
      if items.length = 0 then (0, [])
      else (min items.length length, items.take (min items.length length)) := by
  have hr := h.read_lt
  have hmin : (if items.length < length then items.length else length) =
      min items.length length := by
    split <;> omega
  unfold ringBufferPeek
  simp only [h.getLength, hmin]
  rw [h.take_eq (Nat.min_le_left _ _), h.size_eq, sub32_eq (by omega) h.small]
  split
  · rfl
  · split <;> rfl

theorem Represents.readByte_eq_read (h : Represents size rb items) :
    ringBufferReadByte rb = ringBufferRead rb 1 := by
  have hr := h.read_lt
  have hs := h.small
  have hf := h.fits
  rw [h.read_eq_moveRead]
  unfold ringBufferReadByte
  rw [h.getLength]
  split
  · rfl
  · rw [Nat.min_eq_right (by omega), h.moveRead_eq (by omega), h.take_eq (by omega), h.size_eq,
      sub32_eq (by omega) hs]
    split
    · rw [if_neg (by omega), if_neg (by omega), show size - rb.readIndex = 1 by omega,
        sub32_eq (Nat.le_refl 1) (by decide)]
      simp
    · rw [if_pos (by omega), if_pos (by omega)]

theorem Represents.peekByte_eq_peek (h : Represents size rb items) :
    ringBufferPeekByte rb = ringBufferPeek rb 1 := by
  have hrb := h.readByte_eq_read
  rw [h.read_eq_moveRead] at hrb
  rw [h.peek_eq]
  unfold ringBufferPeekByte
  unfold ringBufferReadByte at hrb
  rw [h.getLength] at hrb ⊢
  split
  · rfl
  · rename_i hne
    rw [if_neg hne, if_neg hne] at hrb
    rw [Nat.min_eq_right (by omega)] at hrb ⊢
    split at hrb <;> exact congrArg Prod.snd hrb

/-! ## Forced writes -/

/-- The part of `data` a forced write keeps. -/
def newest (size : Nat) (data : List UInt8) : List UInt8 :=
  if data.length > size then data.drop (data.length - size) else data

theorem length_newest (size : Nat) (data : List UInt8) :
    (newest size data).length = min data.length size := by
  unfold newest
  split
  · rw [List.length_drop]
    omega
  · omega

/-- A forced write loses nothing when it fits, or when the mirrors differ
before it: then the wrap of the write position is the wrap of the read
position too. -/
theorem Represents.writeForce_eq (h : Represents size rb items) (data : List UInt8)
    (safe : rb.readMirror = rb.writeMirror → (newest size data).length ≤ size - items.length) :
    ringBufferWriteForce rb data =
      (RingBuffer.moveRead (RingBuffer.moveWrite rb (newest size data))
        (items.length + (newest size data).length - size), (newest size data).length) := by
  have hr := h.read_lt
  have hw := h.write_lt
  have hs := h.small
  have hf := h.fits
  have hd : (newest size data).length ≤ size := by
    rw [length_newest]
    omega
  rw [h.mirrors_eq_iff] at safe
  have hwidx := h.write_eq
  have hnew : (if data.length > size then data.drop (data.length - size) else data) =
      newest size data := rfl
  unfold ringBufferWriteForce
  simp only [h.getEmptyLength, h.size_eq, hnew, sub32_eq (Nat.le_of_lt hw) hs]
  rw [h.moveWrite_eq hd]
  generalize newest size data = bytes at *
  have hsize := h.size_eq
  unfold wrap at hwidx
  unfold RingBuffer.moveRead wrap
  split
  · rw [add32_eq (by omega)]
    split <;> grind
  · rw [sub32_eq (by omega) (by omega)]
    split <;> grind

/-- Otherwise the write position wraps past the read position, which does
not wrap; both mirrors are complemented and the full ring reads as empty. -/
theorem Represents.writeForce_lost (h : Represents size rb items) (data : List UInt8)
    (same : rb.readMirror = rb.writeMirror)
    (overflow : size - items.length < (newest size data).length) :
    ringBufferGetLength (ringBufferWriteForce rb data).1 = 0 := by
  have hw := h.write_lt
  have hs := h.small
  have hf := h.fits
  have hd : (newest size data).length ≤ size := by
    rw [length_newest]
    omega
  have hwidx := h.write_eq
  rw [wrap, if_pos (h.mirrors_eq_iff.mp same)] at hwidx
  have hnew : (if data.length > size then data.drop (data.length - size) else data) =
      newest size data := rfl
  unfold ringBufferWriteForce
  simp only [h.getEmptyLength, h.size_eq, hnew, sub32_eq (Nat.le_of_lt hw) hs]
  rw [if_neg (by omega), if_pos (by omega), sub32_eq (by omega) (by omega)]
  simp only [ringBufferGetLength, same, if_true]
  rw [sub32_eq (Nat.le_refl _) (by omega), Nat.sub_self]

/-- A full ring has different mirrors, so the byte it gives up wraps the read
position exactly when the new byte wraps the write position. -/
theorem Represents.writeByteForce_eq (h : Represents size rb items) (data : UInt8) :
    ringBufferWriteByteForce rb data =
      (RingBuffer.moveRead (RingBuffer.moveWrite rb [data]) (items.length + 1 - size), 1) := by
  have hr := h.read_lt
  have hw := h.write_lt
  have hs := h.small
  have hf := h.fits
  have hwidx := h.write_eq
  have hsize := h.size_eq
  have hfull : (if items.length = 0 then RingBufferStatusType.ringBufferEmpty
      else if items.length = size then .ringBufferFull else .ringBufferPartial) = .ringBufferFull ↔
      items.length = size := by
    grind
  unfold ringBufferWriteByteForce
  simp only [h.getStatus, h.size_eq, sub32_eq (show 1 ≤ size by omega) hs, hfull]
  rw [h.moveWrite_singleton]
  unfold wrap at hwidx
  unfold RingBuffer.moveRead wrap
  split
  · split <;> grind
  · rw [add32_eq (by omega)]
    split <;> grind

/-! ## Runs -/

inductive Op
  | write (data : List UInt8)
  | writeByte (data : UInt8)
  | writeForce (data : List UInt8)
  | writeByteForce (data : UInt8)
  | read (length : Nat)
  | readByte
  | peek (length : Nat)
  | peekByte
  | reset

/-- A write call hands out no bytes. -/
def wrote {σ : Type} (result : σ × Nat) : σ × Nat × List UInt8 :=
  (result.1, result.2, [])

/-- The state after one call, its return value and the bytes handed out. -/
def step (rb : RingBufferType) : Op → RingBufferType × Nat × List UInt8
  | .write data => wrote (ringBufferWrite rb data)
  | .writeByte data => wrote (ringBufferWriteByte rb data)
  | .writeForce data => wrote (ringBufferWriteForce rb data)
  | .writeByteForce data => wrote (ringBufferWriteByteForce rb data)
  | .read length => ringBufferRead rb length
  | .readByte => ringBufferReadByte rb
  | .peek length => (rb, ringBufferPeek rb length)
  | .peekByte => (rb, ringBufferPeekByte rb)
  | .reset => (ringBufferReset rb, 0, [])

-- Proved by cases, so that simp keeps a proof term and the kernel never
-- compares a call with the pair built from it.
@[simp] theorem wrote_fst {σ : Type} (result : σ × Nat) : (wrote result).1 = result.1 := by
  cases result
  rfl

@[simp] theorem wrote_snd {σ : Type} (result : σ × Nat) :
    (wrote result).2 = (result.2, []) := by
  cases result
  rfl

/-- The same call on the queue. -/
def fifoStep (q : Fifo UInt8 size) : Op → Fifo UInt8 size × Nat × List UInt8
  | .write data => wrote (q.push data)
  | .writeByte data => wrote (q.push [data])
  | .writeForce data => (q.force data, min data.length size, [])
  | .writeByteForce data => (q.force [data], 1, [])
  | .read length => (q.pop length, (q.peek length).length, q.peek length)
  | .readByte => (q.pop 1, (q.peek 1).length, q.peek 1)
  | .peek length => (q, (q.peek length).length, q.peek length)
  | .peekByte => (q, (q.peek 1).length, q.peek 1)
  | .reset => (Fifo.empty, 0, [])

def fifoStatus (q : Fifo UInt8 size) : RingBufferStatusType :=
  if q.length = 0 then .ringBufferEmpty
  else if q.free = 0 then .ringBufferFull else .ringBufferPartial

/-- What the three observers of the C interface report. -/
def Agrees (rb : RingBufferType) (q : Fifo UInt8 size) : Prop :=
  ringBufferGetLength rb = q.length ∧ ringBufferGetEmptyLength rb = q.free ∧
    ringBufferGetStatus rb = fifoStatus q

instance (rb : RingBufferType) (q : Fifo UInt8 size) : Decidable (Agrees rb q) :=
  inferInstanceAs (Decidable (_ ∧ _ ∧ _))

/-- Every call of the run returns what the queue returns, and the observers
agree with the queue before, between and after the calls. -/
def RefinesRun : RingBufferType → Fifo UInt8 size → List Op → Prop
  | rb, q, [] => Agrees rb q
  | rb, q, op :: ops =>
    Agrees rb q ∧ (step rb op).2 = (fifoStep q op).2 ∧
      RefinesRun (step rb op).1 (fifoStep q op).1 ops

instance decidableRefinesRun : (rb : RingBufferType) → (q : Fifo UInt8 size) → (ops : List Op) →
    Decidable (RefinesRun rb q ops)
  | rb, q, [] => inferInstanceAs (Decidable (Agrees rb q))
  | rb, q, op :: ops =>
    have := decidableRefinesRun (step rb op).1 (fifoStep q op).1 ops
    inferInstanceAs (Decidable (_ ∧ _ ∧ _))

/-- A forced write that overflows while the mirrors agree. -/
def LosesRing (rb : RingBufferType) : Op → Prop
  | .writeForce data =>
    rb.readMirror = rb.writeMirror ∧ ringBufferGetEmptyLength rb < min data.length rb.size
  | _ => False

def SparedRun : RingBufferType → List Op → Prop
  | _, [] => True
  | rb, op :: ops => ¬ LosesRing rb op ∧ SparedRun (step rb op).1 ops

theorem Represents.agrees {q : Fifo UInt8 size} (h : Represents size rb q.items) :
    Agrees rb q := by
  have hr := h.read_lt
  have hf := q.bounded
  refine ⟨h.getLength, h.getEmptyLength, ?_⟩
  rw [h.getStatus, fifoStatus]
  simp only [Fifo.free, Fifo.length]
  grind

theorem Represents.push_represents {q : Fifo UInt8 size} (h : Represents size rb q.items)
    (data : List UInt8) :
    Represents size (ringBufferWrite rb data).1 (q.push data).1.items ∧
      (ringBufferWrite rb data).2 = (q.push data).2 := by
  have hfree : q.free = size - q.items.length := rfl
  rw [h.write_eq_moveWrite]
  simp only [Fifo.push, hfree]
  split
  · rename_i hfull
    rw [hfull]
    simpa using h
  · refine ⟨h.moveWrite (List.length_take_le _ _), ?_⟩
    rw [List.length_take, Nat.min_comm]

theorem Represents.pop_represents {q : Fifo UInt8 size} (h : Represents size rb q.items)
    (length : Nat) :
    Represents size (ringBufferRead rb length).1 (q.pop length).items ∧
      (ringBufferRead rb length).2 = ((q.peek length).length, q.peek length) := by
  rw [h.read_eq_moveRead]
  simp only [Fifo.pop, Fifo.peek]
  split
  · rename_i hempty
    rw [List.length_eq_zero_iff] at hempty
    rw [hempty] at h ⊢
    simpa using h
  · have hdrop : q.items.drop length = q.items.drop (min q.items.length length) := by
      rw [List.drop_eq_drop_iff]
      omega
    rw [hdrop, List.length_take, Nat.min_comm q.items.length, ← List.take_eq_take_min]
    exact ⟨h.moveRead (Nat.min_le_right _ _), rfl⟩

theorem Represents.peek_eq_fifo {q : Fifo UInt8 size} (h : Represents size rb q.items)
    (length : Nat) :
    ringBufferPeek rb length = ((q.peek length).length, q.peek length) := by
  rw [← h.pop_represents length |>.2, h.peek_eq, h.read_eq_moveRead]
  split <;> rfl

/-- What remains of a forced write, dropped to its newest bytes first. -/
theorem drop_newest (size : Nat) (items data : List UInt8) :
    (items ++ newest size data).drop (items.length + (newest size data).length - size) =
      (items ++ data).drop ((items ++ data).length - size) := by
  unfold newest
  split
  · have hkept : (items ++ data).length - size = items.length + (data.length - size) := by
      rw [List.length_append]
      omega
    have hnew : items.length + (data.length - (data.length - size)) - size = items.length := by
      omega
    rw [hkept, List.drop_length_add_append, List.length_drop, hnew, List.drop_append_length]
  · rw [List.length_append]

theorem Represents.step_represents {q : Fifo UInt8 size} (h : Represents size rb q.items) (op : Op)
    (safe : ¬ LosesRing rb op) :
    Represents size (step rb op).1 (fifoStep q op).1.items ∧ (step rb op).2 = (fifoStep q op).2 := by
  have hr := h.read_lt
  have hf := q.bounded
  cases op with
  | write data =>
    obtain ⟨hrep, hret⟩ := h.push_represents data
    simp only [step, fifoStep, wrote_fst, wrote_snd, hret]
    exact ⟨hrep, trivial⟩
  | writeByte data =>
    have hbyte : ringBufferWriteByte rb data = ringBufferWrite rb [data] := by
      rw [h.writeByte_eq_moveWrite, h.write_eq_moveWrite]
      split
      · rfl
      · rw [List.take_of_length_le (by simp; omega)]
        rfl
    obtain ⟨hrep, hret⟩ := h.push_represents [data]
    simp only [step, fifoStep, hbyte, wrote_fst, wrote_snd, hret]
    exact ⟨hrep, trivial⟩
  | writeForce data =>
    simp only [LosesRing, h.getEmptyLength, h.size_eq, ← length_newest, not_and, Nat.not_lt] at safe
    have hd : (newest size data).length ≤ size := by
      rw [length_newest]
      omega
    simp only [step, fifoStep, wrote_fst, wrote_snd, h.writeForce_eq data safe, length_newest,
      and_true]
    have hover := h.overwrite _ hd
    rw [drop_newest, length_newest] at hover
    exact hover
  | writeByteForce data =>
    have hover := h.overwrite [data] (by simp; omega)
    simp only [step, fifoStep, wrote_fst, wrote_snd, h.writeByteForce_eq, and_true]
    simpa only [Fifo.force, List.length_append, List.length_singleton] using hover
  | read length => exact h.pop_represents length
  | readByte =>
    rw [step, h.readByte_eq_read]
    exact h.pop_represents 1
  | peek length => exact ⟨h, h.peek_eq_fifo length⟩
  | peekByte =>
    rw [step, h.peekByte_eq_peek]
    exact ⟨h, h.peek_eq_fifo 1⟩
  | reset => exact ⟨h.reset (by omega), rfl⟩

/-- After a lost ring no queue of this history has length zero. -/
theorem Represents.not_agrees {q : Fifo UInt8 size} (h : Represents size rb q.items) {op : Op}
    (lost : LosesRing rb op) : ¬ Agrees (step rb op).1 (fifoStep q op).1 := by
  have hr := h.read_lt
  have hf := q.bounded
  cases op with
  | writeForce data =>
    simp only [LosesRing, h.getEmptyLength, h.size_eq, ← length_newest] at lost
    intro hagree
    have hlen := hagree.1
    rw [step, wrote_fst, h.writeForce_lost data lost.1 lost.2] at hlen
    simp only [fifoStep, Fifo.length, Fifo.force, List.length_drop, List.length_append] at hlen
    have hover := lost.2
    rw [length_newest] at hover
    omega
  | _ => exact lost.elim

theorem RefinesRun.head {q : Fifo UInt8 size} {ops : List Op} (h : RefinesRun rb q ops) :
    Agrees rb q := by
  cases ops with
  | nil => exact h
  | cons op ops => exact h.1

theorem Represents.refinesRun_iff {q : Fifo UInt8 size} (h : Represents size rb q.items)
    (ops : List Op) : RefinesRun rb q ops ↔ SparedRun rb ops := by
  induction ops generalizing rb q with
  | nil => exact ⟨fun _ => trivial, fun _ => h.agrees⟩
  | cons op ops ih =>
    by_cases lost : LosesRing rb op
    · constructor
      · rintro ⟨-, -, hrest⟩
        exact absurd hrest.head (h.not_agrees lost)
      · rintro ⟨hspared, -⟩
        exact absurd lost hspared
    · obtain ⟨hrep, hret⟩ := h.step_represents op lost
      simp only [RefinesRun, SparedRun, ih hrep, hret, h.agrees, lost, true_and,
        not_false_eq_true]

/-- A ring buffer behaves as a bounded queue over exactly the runs in which no
`Ring_Buffer_Write_Force` overflows while the mirrors agree. -/
theorem refinesRun_iff_sparedRun (size : Nat) (pos : 0 < size) (small : size < 2 ^ 32)
    (buffer : List UInt8) (hbuffer : buffer.length = size) (ops : List Op) :
    RefinesRun (ringBufferInit buffer size) (Fifo.empty : Fifo UInt8 size) ops ↔
      SparedRun (ringBufferInit buffer size) ops :=
  Represents.refinesRun_iff (represents_init hbuffer pos small) ops

theorem refinesRun_of_small_ring :
    RefinesRun (ringBufferInit [0, 0, 0, 0] 4) (Fifo.empty : Fifo UInt8 4)
        [.write [1, 2, 3], .readByte, .write [4, 5], .writeForce [6], .read 9] ↔
      SparedRun (ringBufferInit [0, 0, 0, 0] 4)
        [.write [1, 2, 3], .readByte, .write [4, 5], .writeForce [6], .read 9] :=
  refinesRun_iff_sparedRun 4 (by decide) (by decide) [0, 0, 0, 0] rfl _

/-- Three bytes forced over two in a ring of four: the ring then reads as empty. -/
theorem writeForce_empties_ring :
    ¬ RefinesRun (ringBufferInit [0, 0, 0, 0] 4) (Fifo.empty : Fifo UInt8 4)
      [.write [1, 2], .writeForce [3, 4, 5]] := by
  decide +kernel

end BouffaloSdk.RingBuffer
