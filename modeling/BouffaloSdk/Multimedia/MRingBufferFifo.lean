import BouffaloSdk.Kit.Fifo
import BouffaloSdk.Multimedia.MRingBuffer

/-!
# The media ring buffer as a bounded queue

The index-only calls take over what the pool already holds behind the queue,
so the queue comes with the cells ahead of it and with the slot of its oldest
byte, which the index calls name. A put is then two moves: `fill` writes cells
ahead of the queue, `advance` takes them into it.
-/

namespace BouffaloSdk.MRingBuffer
open Kit Kit.Circular Kit.Word

/-- A queue of at most `cap` bytes whose oldest byte lies in slot `start`;
`ahead` are the cells behind its newest byte, in slot order. -/
structure Belt (cap : Nat) where
  start : Nat
  fifo : Fifo UInt8 cap
  ahead : List UInt8
  ahead_length : ahead.length = fifo.free

namespace Belt

variable {cap : Nat}

def empty (cells : List UInt8) (h : cells.length = cap) : Belt cap :=
  ⟨0, Fifo.empty, cells, by rw [h]; rfl⟩

/-- The slot behind the newest byte. -/
def tail (b : Belt cap) : Nat := wrap cap (b.start + b.fifo.length)

def fill (b : Belt cap) (data : List UInt8) (h : data.length ≤ b.fifo.free) : Belt cap :=
  { b with
    ahead := data ++ b.ahead.drop data.length
    ahead_length := by
      have := b.ahead_length
      rw [List.length_append, List.length_drop]
      omega }

theorem length_drop_pushed (b : Belt cap) (data : List UInt8) :
    (b.ahead.drop (b.fifo.push data).2).length = (b.fifo.push data).1.free := by
  have := b.ahead_length
  have := b.fifo.length_add_free
  simp only [Fifo.push, Fifo.free, Fifo.length, List.length_drop, List.length_append,
    List.length_take] at *
  omega

/-- Appends what fits of `data` over the cells ahead. -/
def put (b : Belt cap) (data : List UInt8) : Belt cap × Nat :=
  (⟨b.start, (b.fifo.push data).1, b.ahead.drop (b.fifo.push data).2, b.length_drop_pushed data⟩,
    (b.fifo.push data).2)

/-- Takes the next `n` cells ahead into the queue, as many as there are. -/
def advance (b : Belt cap) (n : Nat) : Belt cap × Nat := b.put (b.ahead.take n)

def get (b : Belt cap) (n : Nat) : Belt cap × List UInt8 :=
  (⟨wrap cap (b.start + min n b.fifo.length), b.fifo.pop n, b.ahead ++ b.fifo.peek n, by
      have := b.ahead_length
      have := b.fifo.length_add_free
      simp only [Fifo.pop, Fifo.peek, Fifo.free, Fifo.length, List.length_drop, List.length_append,
        List.length_take] at *
      omega⟩, b.fifo.peek n)

/-- The cells turned to slot order. -/
def reset (b : Belt cap) : Belt cap :=
  ⟨0, Fifo.empty,
    (b.fifo.items ++ b.ahead).drop (cap - b.start) ++ (b.fifo.items ++ b.ahead).take (cap - b.start),
    by
      have := b.ahead_length
      have := b.fifo.length_add_free
      simp only [Fifo.empty, Fifo.free, Fifo.length, List.length_drop, List.length_append,
        List.length_take, List.length_nil] at *
      omega⟩

end Belt

namespace Belt

variable {cap : Nat} {b b' : Belt cap}

theorem eq_of (hs : b.start = b'.start) (hi : b.fifo.items = b'.fifo.items)
    (ha : b.ahead = b'.ahead) : b = b' := by
  obtain ⟨start, ⟨items, _⟩, ahead, _⟩ := b
  obtain ⟨start', ⟨items', _⟩, ahead', _⟩ := b'
  cases hs
  cases hi
  cases ha
  rfl

theorem length_le (b : Belt cap) : b.fifo.length ≤ cap := b.fifo.bounded

/-- The slot behind the newest byte is past the oldest one by the length, or by
a lap less. -/
theorem tail_cases (b : Belt cap) :
    b.start + b.fifo.length < cap ∧ b.tail = b.start + b.fifo.length ∨
      cap ≤ b.start + b.fifo.length ∧ b.tail + cap = b.start + b.fifo.length := by
  unfold tail wrap
  split
  · exact .inl ⟨by omega, rfl⟩
  · exact .inr ⟨by omega, by omega⟩

theorem put_full (b : Belt cap) (hfull : b.fifo.free = 0) (data : List UInt8) :
    b.put data = (b, 0) := by
  have hnone : min data.length b.fifo.free = 0 := by omega
  refine Prod.ext (eq_of rfl ?_ ?_) hnone
  · simp only [put, Fifo.push, hfull, List.take_zero, List.append_nil]
  · simp only [put, Fifo.push, hnone, List.drop_zero]

/-- A put that fits fills the cells ahead and takes them in. -/
theorem put_eq_fill_advance (b : Belt cap) (data : List UInt8)
    (hfits : (data.take b.fifo.free).length ≤ b.fifo.free) :
    b.put data = (((b.fill (data.take b.fifo.free) hfits).advance
      (min data.length b.fifo.free)).1, min data.length b.fifo.free) := by
  have hlen : (data.take b.fifo.free).length = min data.length b.fifo.free := by
    rw [List.length_take, Nat.min_comm]
  have htake : ((data.take b.fifo.free) ++ b.ahead.drop (data.take b.fifo.free).length).take
      (min data.length b.fifo.free) = data.take b.fifo.free := by
    rw [← hlen, List.take_left]
  refine Prod.ext (eq_of rfl ?_ ?_) rfl
  · simp only [put, advance, fill, Fifo.push, htake]
    congr 1
    rw [List.take_take, Nat.min_self]
  · simp only [put, advance, fill, Fifo.push, htake, Nat.min_eq_left hfits]
    rw [List.drop_left, hlen]

theorem advance_min (b : Belt cap) (n : Nat) : b.advance n = b.advance (min n b.fifo.free) := by
  unfold advance
  rw [← b.ahead_length, ← List.take_eq_take_min]

theorem get_min (b : Belt cap) (n : Nat) : b.get n = b.get (min n b.fifo.length) := by
  have htake : b.fifo.items.take n = b.fifo.items.take (min n b.fifo.length) := by
    rw [Fifo.length, ← List.take_eq_take_min]
  have hmin : min (min n b.fifo.length) b.fifo.length = min n b.fifo.length := by omega
  refine Prod.ext (eq_of ?_ ?_ ?_) htake
  · simp only [get, hmin]
  · simp only [get, Fifo.pop]
    rcases Nat.le_total n b.fifo.length with hle | hle
    · rw [Nat.min_eq_left hle]
    · rw [Nat.min_eq_right hle, List.drop_of_length_le hle, Fifo.length, List.drop_length]
  · simp only [get, Fifo.peek, htake]

theorem get_empty (b : Belt cap) (hs : b.start < max cap 1) (hempty : b.fifo.length = 0) (n : Nat) :
    b.get n = (b, []) := by
  have hnil : b.fifo.items = [] := List.eq_nil_of_length_eq_zero hempty
  have hmin : min n b.fifo.length = 0 := by omega
  refine Prod.ext (eq_of ?_ ?_ ?_) ?_
  · simp only [get, hmin, wrap]
    split <;> omega
  · simp only [get, Fifo.pop, hnil, List.drop_nil]
  · simp only [get, Fifo.peek, hnil, List.take_nil, List.append_nil]
  · simp only [get, Fifo.peek, hnil, List.take_nil]

theorem length_get (b : Belt cap) (n : Nat) : (b.get n).2.length = min n b.fifo.length := by
  simp only [get, Fifo.peek, List.length_take, Fifo.length]

end Belt

/-- The distance from slot `i` forward to slot `j`; a whole lap to itself. -/
def lap (cap i j : Nat) : Nat := if i < j then j - i else cap - (i - j)

/-- Indices and mirrors stand for the queue and the pool holds its cells. An
empty pool is covered: it is a queue of capacity zero. -/
structure Represents (cap : Nat) (rb : Mringbuffer) (b : Belt cap) : Prop where
  small : cap < 2 ^ 31
  size_eq : rb.bufferSize = cap
  pool : cap ≤ rb.bufferPtr.length
  start_lt : b.start < max cap 1
  read_eq : rb.readIndex = b.start
  write_eq : rb.writeIndex = b.tail
  mirror : rb.writeMirror =
    if b.start + b.fifo.length < cap ∨ b.fifo.length = 0 then rb.readMirror else !rb.readMirror
  cells : window (rb.bufferPtr.take cap) rb.writeIndex cap = b.ahead ++ b.fifo.items

variable {cap : Nat} {rb : Mringbuffer} {b : Belt cap}

theorem index31_eq {n : Nat} (h : n < 2 ^ 31) : index31 n = n := by
  unfold index31
  exact Nat.mod_eq_of_lt h

theorem Represents.write_lt (h : Represents cap rb b) (pos : 0 < cap) : rb.writeIndex < cap := by
  have hs := h.start_lt
  have hl := b.length_le
  rw [h.write_eq]
  exact wrap_lt (by omega)

theorem Represents.mirrors_eq_iff (h : Represents cap rb b) :
    rb.readMirror = rb.writeMirror ↔ b.start + b.fifo.length < cap ∨ b.fifo.length = 0 := by
  rw [h.mirror]
  split
  · simp [*]
  · simp [*]

theorem Represents.status (h : Represents cap rb b) :
    mringbufferStatus rb =
      if b.fifo.length = 0 then .mringbufferEmpty
      else if b.fifo.length = cap then .mringbufferFull else .mringbufferHalffull := by
  have hs := h.start_lt
  have hl := b.length_le
  unfold mringbufferStatus
  simp only [h.mirrors_eq_iff, h.read_eq, h.write_eq, Belt.tail, wrap]
  grind

theorem Represents.dataLen (h : Represents cap rb b) : mringbufferDataLen rb = b.fifo.length := by
  have hs := h.start_lt
  have hl := b.length_le
  have hc := h.small
  unfold mringbufferDataLen
  rw [h.status]
  split
  · split at * <;> grind
  · split at * <;> grind [h.size_eq]
  · simp only [h.read_eq, h.write_eq, h.size_eq, Belt.tail, wrap]
    split <;> split
    · rw [sub32_eq (by omega) (by omega)]
      omega
    · grind
    · grind
    · have hback : sub32 b.start (b.start + b.fifo.length - cap) = cap - b.fifo.length := by
        rw [sub32_eq (by omega) (by omega)]
        omega
      rw [hback, sub32_eq (by omega) (by omega)]
      omega

theorem Represents.spaceLen (h : Represents cap rb b) : mringbufferSpaceLen rb = b.fifo.free := by
  have hl := b.length_le
  have hc := h.small
  rw [mringbufferSpaceLen, h.dataLen, h.size_eq, sub32_eq hl (by omega), Fifo.free]

theorem represents_init {pool : List UInt8} {size : Nat} (hp : pool.length = size)
    (small : size < 2 ^ 31) :
    Represents (mspAlignDown size mspAlignSize) (mringbufferInit pool size)
      (Belt.empty (pool.take (mspAlignDown size mspAlignSize)) (by
        rw [List.length_take, hp]
        exact Nat.min_eq_left (Nat.sub_le _ _))) := by
  have hle : mspAlignDown size mspAlignSize ≤ size := Nat.sub_le _ _
  have hlen : (pool.take (mspAlignDown size mspAlignSize)).length =
      mspAlignDown size mspAlignSize := by
    rw [List.length_take]
    omega
  refine ⟨by omega, rfl, by simp only [mringbufferInit]; omega, ?_, rfl, ?_, ?_, ?_⟩
  · simp only [Belt.empty]
    omega
  · simp [mringbufferInit, Belt.tail, Belt.empty, Fifo.empty, Fifo.length, wrap]
  · simp [mringbufferInit, Belt.empty, Fifo.empty, Fifo.length]
  · simp only [mringbufferInit, Belt.empty, Fifo.empty, List.append_nil]
    rw [window_eq_take (by omega), List.drop_zero, List.take_of_length_le (by omega)]

/-! ## The moves -/

/-- `data` written into the cells ahead of the queue. -/
def fillAhead (rb : Mringbuffer) (data : List UInt8) : Mringbuffer :=
  { rb with
    bufferPtr := putWrap (rb.bufferPtr.take rb.bufferSize) rb.writeIndex data ++
      rb.bufferPtr.drop rb.bufferSize }

def moveWrite (rb : Mringbuffer) (n : Nat) : Mringbuffer :=
  { rb with
    writeIndex := wrap rb.bufferSize (rb.writeIndex + n)
    writeMirror := if rb.writeIndex + n < rb.bufferSize then rb.writeMirror else !rb.writeMirror }

def moveRead (rb : Mringbuffer) (n : Nat) : Mringbuffer :=
  { rb with
    readIndex := wrap rb.bufferSize (rb.readIndex + n)
    readMirror := if rb.readIndex + n < rb.bufferSize then rb.readMirror else !rb.readMirror }

theorem Represents.length_cells (h : Represents cap rb b) :
    (rb.bufferPtr.take cap).length = cap := by
  have := h.pool
  rw [List.length_take]
  omega

theorem Represents.fill (h : Represents cap rb b) {data : List UInt8}
    (hd : data.length ≤ b.fifo.free) (pos : 0 < cap) :
    Represents cap (fillAhead rb data) (b.fill data hd) := by
  have hcells := h.length_cells
  have hw := h.write_lt pos
  have hdc : data.length ≤ cap := Nat.le_trans hd (Nat.sub_le _ _)
  have hp := @length_putWrap _ _ data _ (by omega : rb.writeIndex < (rb.bufferPtr.take cap).length)
    (by omega)
  rw [hcells] at hp
  have htake : (fillAhead rb data).bufferPtr.take cap =
      putWrap (rb.bufferPtr.take cap) rb.writeIndex data := by
    simp only [fillAhead, h.size_eq]
    rw [List.take_append_of_le_length (by omega), List.take_of_length_le (by omega)]
  refine ⟨h.small, h.size_eq, ?_, h.start_lt, h.read_eq, h.write_eq, h.mirror, ?_⟩
  · simp only [fillAhead, h.size_eq, List.length_append, hp]
    omega
  · have hsame := @window_putWrap_same _ _ data _
      (by omega : rb.writeIndex < (rb.bufferPtr.take cap).length) (by omega)
    rw [hcells, h.cells, List.drop_append_of_le_length (by rw [b.ahead_length]; exact hd)] at hsame
    have hidx : (fillAhead rb data).writeIndex = rb.writeIndex := rfl
    rw [htake, hidx]
    simpa only [Belt.fill, List.append_assoc] using hsame

theorem Belt.advance_eq (b : Belt cap) {n : Nat} (hn : n ≤ b.fifo.free) :
    (b.advance n).1.start = b.start ∧ (b.advance n).2 = n ∧
      (b.advance n).1.fifo.items = b.fifo.items ++ b.ahead.take n ∧
      (b.advance n).1.ahead = b.ahead.drop n := by
  have ha := b.ahead_length
  have htake : (b.ahead.take n).length = n := by
    rw [List.length_take]
    omega
  refine ⟨rfl, ?_, ?_, ?_⟩
  · simp only [Belt.advance, Belt.put, Fifo.push, htake]
    omega
  · exact b.fifo.push_of_fits (by omega)
  · simp only [Belt.advance, Belt.put, Fifo.push, htake]
    congr 1
    omega

theorem Represents.advance (h : Represents cap rb b) {n : Nat} (hn : n ≤ b.fifo.free)
    (pos : 0 < cap) : Represents cap (moveWrite rb n) (b.advance n).1 := by
  obtain ⟨hstart, -, hitems, hahead⟩ := b.advance_eq hn
  have hcells := h.length_cells
  have hw := h.write_lt pos
  have ha := b.ahead_length
  have hs := h.start_lt
  have hfree := b.fifo.length_add_free
  have hlen : (b.advance n).1.fifo.length = b.fifo.length + n := by
    rw [Fifo.length, hitems, List.length_append, List.length_take, Fifo.length]
    omega
  have htail : rb.writeIndex = wrap cap (b.start + b.fifo.length) := h.write_eq
  refine ⟨h.small, h.size_eq, h.pool, by omega, ?_, ?_, ?_, ?_⟩
  · rw [hstart]
    exact h.read_eq
  · simp only [moveWrite, Belt.tail, h.size_eq, hlen, hstart, htail]
    unfold wrap
    split <;> split <;> split <;> omega
  · simp only [moveWrite, h.size_eq, hlen, hstart, h.mirror, htail]
    unfold wrap
    grind
  · have hrot := @window_rotate _ _ rb.writeIndex n
      (by omega : rb.writeIndex < (rb.bufferPtr.take cap).length) (by omega)
    rw [hcells, h.cells, List.drop_append_of_le_length (by omega),
      List.take_append_of_le_length (by omega)] at hrot
    simp only [moveWrite, h.size_eq, hitems, hahead]
    rw [hrot, List.append_assoc]

theorem Represents.get (h : Represents cap rb b) {n : Nat} (hn : n ≤ b.fifo.length)
    (pos : 0 < cap) : Represents cap (moveRead rb n) (b.get n).1 := by
  have hs := h.start_lt
  have hfree := b.fifo.length_add_free
  have hlen : (b.get n).1.fifo.length = b.fifo.length - n := by
    simp only [Belt.get, Fifo.pop, Fifo.length, List.length_drop]
  have hstart : (b.get n).1.start = wrap cap (b.start + n) := by
    simp only [Belt.get, Nat.min_eq_left hn]
  have hlt : wrap cap (b.start + n) < cap := wrap_lt (by omega)
  refine ⟨h.small, h.size_eq, h.pool, by omega, ?_, ?_, ?_, ?_⟩
  · rw [hstart, ← h.read_eq]
    simp only [moveRead, h.size_eq]
  · simp only [moveRead, Belt.tail, hlen, hstart, h.write_eq]
    unfold wrap
    split <;> split <;> split <;> omega
  · simp only [moveRead, h.size_eq, hlen, hstart, h.mirror, h.read_eq]
    unfold wrap
    grind
  · simp only [moveRead, Belt.get, Fifo.pop, Fifo.peek, h.cells]
    rw [List.append_assoc, List.take_append_drop]

/-! ## The calls as moves -/

theorem Represents.moveWrite_eq (h : Represents cap rb b) {n : Nat} (hn : n ≤ b.fifo.free)
    (pos : 0 < cap) :
    moveWrite rb n =
      if sub32 rb.bufferSize rb.writeIndex > n then
        { rb with writeIndex := index31 (rb.writeIndex + n) }
      else
        { rb with
          writeMirror := !rb.writeMirror
          writeIndex := index31 (sub32 n (sub32 rb.bufferSize rb.writeIndex)) } := by
  have hw := h.write_lt pos
  have hc := h.small
  have hfree := b.fifo.length_add_free
  unfold moveWrite
  rw [h.size_eq, sub32_eq (by omega) (by omega), wrap]
  by_cases hroom : cap - rb.writeIndex > n
  · rw [if_pos hroom, index31_eq (by omega), if_pos (by omega), if_pos (by omega)]
  · rw [if_neg hroom, sub32_eq (by omega) (by omega), index31_eq (by omega), if_neg (by omega),
      if_neg (by omega)]
    congr 1
    omega

/-- The one or two copies of a put, on the whole pool. -/
theorem Represents.fillAhead_eq (h : Represents cap rb b) {data : List UInt8}
    (hd : data.length ≤ b.fifo.free) (pos : 0 < cap) :
    fillAhead rb data =
      { rb with
        bufferPtr :=
          if sub32 rb.bufferSize rb.writeIndex > data.length then
            blit rb.bufferPtr rb.writeIndex data
          else
            blit (blit rb.bufferPtr rb.writeIndex (data.take (sub32 rb.bufferSize rb.writeIndex))) 0
              (data.drop (sub32 rb.bufferSize rb.writeIndex)) } := by
  have hw := h.write_lt pos
  have hc := h.small
  have hcells := h.length_cells
  have hfree := b.fifo.length_add_free
  unfold fillAhead putWrap
  rw [h.size_eq, hcells, sub32_eq (by omega) (by omega)]
  congr 1
  split
  · rw [← blit_append (by omega), List.take_append_drop]
  · have hfirst : rb.writeIndex + (data.take (cap - rb.writeIndex)).length ≤
        (rb.bufferPtr.take cap).length := by
      rw [List.length_take]
      omega
    have hsecond : 0 + (data.drop (cap - rb.writeIndex)).length ≤
        (blit (rb.bufferPtr.take cap) rb.writeIndex (data.take (cap - rb.writeIndex))).length := by
      rw [length_blit hfirst, List.length_drop]
      omega
    rw [← blit_append hsecond, ← blit_append hfirst, List.take_append_drop]

theorem min_length_of_clip (n free : Nat) : (if free < n then free else n) = min n free := by
  split <;> omega

theorem Represents.put_null (h : Represents cap rb b) (n : Nat) :
    mringbufferPut rb none n =
      if b.fifo.free = 0 then (rb, 0)
      else (moveWrite rb (min n b.fifo.free), min n b.fifo.free) := by
  unfold mringbufferPut
  simp only [h.spaceLen, min_length_of_clip, memcpyFrom, Option.map_none, Option.getD_none]
  split
  · rfl
  · have hfree := b.fifo.length_add_free
    rw [h.moveWrite_eq (Nat.min_le_right _ _) (by omega)]
    split <;> rfl

theorem Represents.put_some (h : Represents cap rb b) (data : List UInt8) :
    mringbufferPut rb (some data) data.length =
      if b.fifo.free = 0 then (rb, 0)
      else (moveWrite (fillAhead rb (data.take b.fifo.free)) (min data.length b.fifo.free),
        min data.length b.fifo.free) := by
  have hlen : (data.take b.fifo.free).length = min data.length b.fifo.free := by
    rw [List.length_take, Nat.min_comm]
  have htake : data.take (min data.length b.fifo.free) = data.take b.fifo.free := by
    rw [Nat.min_comm, ← List.take_eq_take_min]
  unfold mringbufferPut
  simp only [h.spaceLen, min_length_of_clip, memcpyFrom, Option.map_some, Option.getD_some]
  split
  · rfl
  · have hfree := b.fifo.length_add_free
    have hfits : (data.take b.fifo.free).length ≤ b.fifo.free := by omega
    have pos : 0 < cap := by omega
    have hw := h.write_lt pos
    have hc := h.small
    have hfill := h.fill hfits pos
    have hn : min data.length b.fifo.free ≤ (b.fill _ hfits).fifo.free := Nat.min_le_right _ _
    have hrem : sub32 rb.bufferSize rb.writeIndex = cap - rb.writeIndex := by
      rw [h.size_eq, sub32_eq (by omega) (by omega)]
    rw [hfill.moveWrite_eq hn pos, h.fillAhead_eq hfits pos, hlen]
    dsimp only
    rw [hrem]
    by_cases hroom : cap - rb.writeIndex > min data.length b.fifo.free
    · simp only [if_pos hroom, htake]
    · have hcut : data.take (cap - rb.writeIndex) =
          (data.take b.fifo.free).take (cap - rb.writeIndex) := by
        rw [← htake, List.take_take, Nat.min_eq_left (by omega)]
      have hsub : sub32 (min data.length b.fifo.free) (cap - rb.writeIndex) =
          min data.length b.fifo.free - (cap - rb.writeIndex) := sub32_eq (by omega) (by omega)
      simp only [if_neg hroom, hcut, hsub, ← List.drop_take, htake]

/-- The cache callback changes nothing that the ring sees. -/
theorem putFflushCache_eq_put (rb : Mringbuffer) (ptr : Option (List UInt8)) (n : Nat)
    (fflushCache : Bool) :
    ((mringbufferPutFflushCache rb ptr n fflushCache).1,
      (mringbufferPutFflushCache rb ptr n fflushCache).2.1) = mringbufferPut rb ptr n := by
  unfold mringbufferPutFflushCache mringbufferPut
  dsimp only
  split
  · rfl
  · split <;> split <;> rfl

theorem getInvalidCache_eq_get (rb : Mringbuffer) (ptr : Bool) (n : Nat) (removeCache : Bool) :
    ((mringbufferGetInvalidCache rb ptr n removeCache).1,
      (mringbufferGetInvalidCache rb ptr n removeCache).2.1,
      (mringbufferGetInvalidCache rb ptr n removeCache).2.2.1) = mringbufferGet rb ptr n := by
  unfold mringbufferGetInvalidCache mringbufferGet
  dsimp only
  split
  · rfl
  · split <;> split <;> rfl

theorem Represents.moveRead_eq (h : Represents cap rb b) {n : Nat} (hn : n ≤ b.fifo.length)
    (pos : 0 < cap) :
    moveRead rb n =
      if sub32 rb.bufferSize rb.readIndex > n then
        { rb with readIndex := index31 (rb.readIndex + n) }
      else
        { rb with
          readMirror := !rb.readMirror
          readIndex := index31 (sub32 n (sub32 rb.bufferSize rb.readIndex)) } := by
  have hs := h.start_lt
  have hr := h.read_eq
  have hc := h.small
  have hl := b.length_le
  unfold moveRead
  rw [h.size_eq, sub32_eq (by omega) (by omega), wrap]
  by_cases hroom : cap - rb.readIndex > n
  · rw [if_pos hroom, index31_eq (by omega), if_pos (by omega), if_pos (by omega)]
  · rw [if_neg hroom, sub32_eq (by omega) (by omega), index31_eq (by omega), if_neg (by omega),
      if_neg (by omega)]
    congr 1
    omega

theorem Represents.oldest (h : Represents cap rb b) (pos : 0 < cap) :
    window (rb.bufferPtr.take cap) rb.readIndex b.fifo.length = b.fifo.items := by
  have hcells := h.length_cells
  have hw := h.write_lt pos
  have hs := h.start_lt
  have hfree := b.fifo.length_add_free
  have hturn : wrap cap (rb.writeIndex + b.fifo.free) = rb.readIndex := by
    rw [h.write_eq, h.read_eq, Belt.tail]
    unfold wrap
    split <;> split <;> omega
  have hdrop := @window_drop _ _ rb.writeIndex cap b.fifo.free
    (by omega : rb.writeIndex < (rb.bufferPtr.take cap).length) (by omega) (by omega)
  rw [hcells, hturn, h.cells, ← b.ahead_length, List.drop_left] at hdrop
  rw [hdrop]
  congr 1
  have := b.ahead_length
  omega

/-- The oldest bytes as a get collects them: one piece or two. -/
theorem Represents.peek_eq (h : Represents cap rb b) {n : Nat} (hn : n ≤ b.fifo.length)
    (pos : 0 < cap) :
    b.fifo.peek n =
      if sub32 rb.bufferSize rb.readIndex > n then (rb.bufferPtr.drop rb.readIndex).take n
      else
        (rb.bufferPtr.drop rb.readIndex).take (sub32 rb.bufferSize rb.readIndex) ++
          rb.bufferPtr.take (sub32 n (sub32 rb.bufferSize rb.readIndex)) := by
  have hs := h.start_lt
  have hr := h.read_eq
  have hc := h.small
  have hl := b.length_le
  have hcells := h.length_cells
  have hpeek : b.fifo.peek n = window (rb.bufferPtr.take cap) rb.readIndex n := by
    rw [Fifo.peek, ← h.oldest pos, window_take hn]
  rw [hpeek, h.size_eq, sub32_eq (by omega) (by omega)]
  split
  · rw [window_eq_take (by omega), List.drop_take, List.take_take, Nat.min_eq_left (by omega)]
  · rw [window_eq_append (by omega) (by omega), hcells, sub32_eq (by omega) (by omega),
      List.take_take, List.drop_take, List.take_take, Nat.min_self, Nat.min_eq_left (by omega)]

theorem Represents.get_eq (h : Represents cap rb b) (ptr : Bool) (n : Nat) :
    mringbufferGet rb ptr n =
      if b.fifo.length = 0 then (rb, 0, [])
      else (moveRead rb (min n b.fifo.length), min n b.fifo.length,
        if ptr then b.fifo.peek (min n b.fifo.length) else []) := by
  unfold mringbufferGet
  simp only [h.dataLen, min_length_of_clip]
  by_cases hempty : b.fifo.length = 0
  · rw [if_pos hempty, if_pos hempty]
  · have hl := b.length_le
    rw [if_neg hempty, if_neg hempty, h.moveRead_eq (Nat.min_le_right _ _) (by omega),
      h.peek_eq (Nat.min_le_right _ _) (by omega)]
    split <;> rfl

theorem Represents.getchar_eq_get (h : Represents cap rb b) (ch : Bool) :
    mringbufferGetchar rb ch = mringbufferGet rb ch 1 := by
  have hs := h.start_lt
  have hr := h.read_eq
  have hc := h.small
  have hl := b.length_le
  rw [h.get_eq]
  unfold mringbufferGetchar
  rw [h.dataLen]
  by_cases hempty : b.fifo.length = 0
  · rw [if_pos hempty, if_pos hempty]
  · have hone : min 1 b.fifo.length = 1 := by omega
    have hlast : sub32 cap 1 = cap - 1 := sub32_eq (by omega) (by omega)
    have hrem : sub32 cap rb.readIndex = cap - rb.readIndex := sub32_eq (by omega) (by omega)
    rw [if_neg hempty, if_neg hempty, hone, h.moveRead_eq (by omega) (by omega),
      h.peek_eq (by omega) (by omega), h.size_eq, hlast, hrem]
    by_cases hend : rb.readIndex = cap - 1
    · have hwrap : cap - rb.readIndex = 1 := by omega
      have hnone : sub32 1 1 = 0 := sub32_eq (by omega) (by omega)
      have hzero : index31 0 = 0 := index31_eq (by omega)
      simp only [if_pos hend, hwrap, hnone, hzero, gt_iff_lt, Nat.lt_irrefl, if_false,
        List.take_zero, List.append_nil]
    · simp only [if_neg hend, if_pos (by omega : cap - rb.readIndex > 1)]

theorem Represents.putchar_eq_put (h : Represents cap rb b) (ch : UInt8) :
    mringbufferPutchar rb ch = mringbufferPut rb (some [ch]) [ch].length := by
  have hc := h.small
  rw [h.put_some [ch]]
  unfold mringbufferPutchar
  rw [h.spaceLen]
  have hfree := b.fifo.length_add_free
  by_cases hfull : b.fifo.free = 0
  · rw [if_pos hfull, if_pos hfull]
  · have hone : min [ch].length b.fifo.free = 1 := by
      rw [List.length_singleton]
      omega
    have htake : [ch].take b.fifo.free = [ch] := List.take_of_length_le (by
      rw [List.length_singleton]
      omega)
    have hfits : [ch].length ≤ b.fifo.free := by
      rw [List.length_singleton]
      omega
    have pos : 0 < cap := by omega
    have hw := h.write_lt pos
    have hn : 1 ≤ (b.fill [ch] hfits).fifo.free := hfits
    have hlast : sub32 cap 1 = cap - 1 := sub32_eq (by omega) (by omega)
    have hrem : sub32 cap rb.writeIndex = cap - rb.writeIndex := sub32_eq (by omega) (by omega)
    rw [if_neg hfull, if_neg hfull, htake, hone, (h.fill hfits pos).moveWrite_eq hn pos,
      h.fillAhead_eq hfits pos, h.size_eq, hlast, hrem, List.length_singleton]
    by_cases hend : rb.writeIndex = cap - 1
    · have hwrap : cap - rb.writeIndex = 1 := by omega
      have hnone : sub32 1 1 = 0 := sub32_eq (by omega) (by omega)
      have hzero : index31 0 = 0 := index31_eq (by omega)
      have hnil : blit (blit rb.bufferPtr rb.writeIndex [ch]) 0 [] =
          blit rb.bufferPtr rb.writeIndex [ch] := by simp [blit]
      simp only [if_pos hend, hwrap, gt_iff_lt, Nat.lt_irrefl, if_false, hnone, hzero,
        List.take_succ_cons, List.take_zero, List.drop_succ_cons, List.drop_zero, hnil]
    · simp only [if_neg hend, if_pos (by omega : cap - rb.writeIndex > 1)]

theorem Represents.peek_eq_get (h : Represents cap rb b) :
    mringbufferPeek rb =
      if b.fifo.length = 0 then (rb, 0, none)
      else (moveRead rb (min (cap - b.start) b.fifo.length), min (cap - b.start) b.fifo.length,
        some b.start) := by
  have hs := h.start_lt
  have hr := h.read_eq
  have hc := h.small
  have hl := b.length_le
  unfold mringbufferPeek
  simp only [h.dataLen]
  by_cases hempty : b.fifo.length = 0
  · rw [if_pos hempty, if_pos hempty]
  · have hrem : sub32 cap rb.readIndex = cap - rb.readIndex := sub32_eq (by omega) (by omega)
    rw [if_neg hempty, if_neg hempty, h.moveRead_eq (Nat.min_le_right _ _) (by omega), h.size_eq,
      hrem, hr]
    by_cases hroom : cap - b.start > b.fifo.length
    · have hmin : min (cap - b.start) b.fifo.length = b.fifo.length := by omega
      rw [hmin, if_pos hroom, if_pos hroom]
    · have hmin : min (cap - b.start) b.fifo.length = cap - b.start := by omega
      have hnone : sub32 (cap - b.start) (cap - b.start) = 0 := by
        rw [sub32_eq (by omega) (by omega)]
        omega
      have hzero : index31 0 = 0 := index31_eq (by omega)
      rw [hmin, if_neg hroom, if_neg (by omega), hnone, hzero]

theorem Represents.reset (h : Represents cap rb b) :
    Represents cap (mringbufferReset rb) b.reset := by
  have hs := h.start_lt
  have hfree := b.fifo.length_add_free
  have hcells := h.length_cells
  refine ⟨h.small, h.size_eq, h.pool, by simp only [Belt.reset]; omega, rfl, ?_, ?_, ?_⟩
  · simp [mringbufferReset, Belt.tail, Belt.reset, Fifo.empty, Fifo.length, wrap]
  · simp [mringbufferReset, Belt.reset, Fifo.empty, Fifo.length]
  · rcases Nat.eq_zero_or_pos cap with rfl | pos
    · have hnone : (b.fifo.items ++ b.ahead).length = 0 := by
        have := b.ahead_length
        rw [List.length_append, ← Fifo.length]
        omega
      have hnil := List.eq_nil_of_length_eq_zero hnone
      simp [Belt.reset, Fifo.empty, window, hnil]
    · -- from the newest byte's end round to slot 0
      have hw := h.write_lt pos
      have hback := @window_rotate _ _ rb.writeIndex b.fifo.free
        (by omega : rb.writeIndex < (rb.bufferPtr.take cap).length) (by omega)
      have hturn : wrap cap (rb.writeIndex + b.fifo.free) = b.start := by
        rw [h.write_eq, Belt.tail]
        unfold wrap
        split <;> split <;> omega
      rw [hcells, hturn, h.cells, ← b.ahead_length, List.drop_left, List.take_left] at hback
      have hzero := @window_rotate _ _ b.start (cap - b.start)
        (by omega : b.start < (rb.bufferPtr.take cap).length) (by omega)
      have hend : wrap cap (b.start + (cap - b.start)) = 0 := by
        unfold wrap
        split <;> omega
      rw [hcells, hend, hback] at hzero
      simp only [mringbufferReset, Belt.reset, Fifo.empty, List.append_nil]
      exact hzero

/-! ## Whole runs -/

/-- The calls of the header. `cache` tells which of the two variants is called
and, for the one with a callback, whether the callback is given. -/
inductive Op
  | put (data : List UInt8) (cache : Option Bool)
  | putNull (length : Nat) (cache : Option Bool)
  | putIndex (wIndex : UInt32)
  | putchar (ch : UInt8)
  | get (ptr : Bool) (length : Nat) (cache : Option Bool)
  | getIndex (rIndex : UInt32)
  | getchar (ch : Bool)
  | peek
  | reset

/-- The value returned and the bytes handed out: copied to the caller, or seen
through the pointer of a peek. -/
structure Reply where
  value : Int
  bytes : List UInt8
  deriving DecidableEq, Repr

def putWith (rb : Mringbuffer) (ptr : Option (List UInt8)) (length : Nat) (cache : Option Bool) :
    Mringbuffer × Nat :=
  match cache with
  | none => mringbufferPut rb ptr length
  | some callback =>
    ((mringbufferPutFflushCache rb ptr length callback).1,
      (mringbufferPutFflushCache rb ptr length callback).2.1)

def getWith (rb : Mringbuffer) (ptr : Bool) (length : Nat) (cache : Option Bool) :
    Mringbuffer × Nat × List UInt8 :=
  match cache with
  | none => mringbufferGet rb ptr length
  | some callback =>
    ((mringbufferGetInvalidCache rb ptr length callback).1,
      (mringbufferGetInvalidCache rb ptr length callback).2.1,
      (mringbufferGetInvalidCache rb ptr length callback).2.2.1)

def wrote (r : Mringbuffer × Nat) : Mringbuffer × Reply := (r.1, ⟨r.2, []⟩)

def handed (r : Mringbuffer × Nat × List UInt8) : Mringbuffer × Reply := (r.1, ⟨r.2.1, r.2.2⟩)

def step (rb : Mringbuffer) : Op → Mringbuffer × Reply
  | .put data cache => wrote (putWith rb (some data) data.length cache)
  | .putNull length cache => wrote (putWith rb none length cache)
  | .putIndex wIndex =>
    let (rb', putSize) := mringbufferPutIndex rb wIndex.toNat
    (rb', ⟨putSize, []⟩)
  | .putchar ch => wrote (mringbufferPutchar rb ch)
  | .get ptr length cache => handed (getWith rb ptr length cache)
  | .getIndex rIndex => wrote (mringbufferGetIndex rb rIndex.toNat)
  | .getchar ch => handed (mringbufferGetchar rb ch)
  | .peek =>
    let (rb', size, ptr) := mringbufferPeek rb
    (rb', ⟨size, (ptr.map fun i => (rb.bufferPtr.drop i).take size).getD []⟩)
  | .reset => (mringbufferReset rb, ⟨0, []⟩)

/-- The slot to move to must be one that the cells ahead reach. Past the end of
the pool the distance is taken as if it were a slot. -/
def beltPutIndex (b : Belt cap) (slot : Nat) : Belt cap × Int :=
  if b.fifo.free = 0 then (b, -1)
  else if slot < cap ∧ lap cap b.tail slot ≤ b.fifo.free then
    ((b.advance (lap cap b.tail slot)).1, lap cap b.tail slot)
  else if b.tail < b.start then (b, -3)
  else if slot < cap then (b, -2)
  else ((b.advance (slot - b.tail)).1, int32 (slot - b.tail))

/-- A slot that the queue does not reach takes everything. -/
def beltGetIndex (b : Belt cap) (slot : Nat) : Belt cap × Nat :=
  if b.fifo.length = 0 then (b, 2 ^ 32 - 1)
  else if slot < cap ∧ lap cap b.start slot ≤ b.fifo.length then
    ((b.get (lap cap b.start slot)).1, lap cap b.start slot)
  else if slot < cap ∨ b.start < b.tail then ((b.get b.fifo.length).1, b.fifo.length)
  else ((b.get (slot - b.start)).1, slot - b.start)

def beltStep (b : Belt cap) : Op → Belt cap × Reply
  | .put data _ => ((b.put data).1, ⟨(b.put data).2, []⟩)
  | .putNull length _ => ((b.advance length).1, ⟨(b.advance length).2, []⟩)
  | .putIndex wIndex => ((beltPutIndex b wIndex.toNat).1, ⟨(beltPutIndex b wIndex.toNat).2, []⟩)
  | .putchar ch => ((b.put [ch]).1, ⟨(b.put [ch]).2, []⟩)
  | .get ptr length _ =>
    ((b.get length).1, ⟨(b.get length).2.length, if ptr then (b.get length).2 else []⟩)
  | .getIndex rIndex => ((beltGetIndex b rIndex.toNat).1, ⟨(beltGetIndex b rIndex.toNat).2, []⟩)
  | .getchar ch => ((b.get 1).1, ⟨(b.get 1).2.length, if ch then (b.get 1).2 else []⟩)
  | .peek =>
    ((b.get (cap - b.start)).1, ⟨(b.get (cap - b.start)).2.length, (b.get (cap - b.start)).2⟩)
  | .reset => (b.reset, ⟨0, []⟩)

/-- What the queries report in a state, and the rule that ties the indices and
the mirror bits to the queue. -/
structure Agrees (rb : Mringbuffer) (b : Belt cap) : Prop where
  data_len : mringbufferDataLen rb = b.fifo.length
  space_len : mringbufferSpaceLen rb = b.fifo.free
  total : mringbufferDataLen rb + mringbufferSpaceLen rb = cap
  status : mringbufferStatus rb =
    if b.fifo.length = 0 then .mringbufferEmpty
    else if b.fifo.length = cap then .mringbufferFull else .mringbufferHalffull
  read_index : rb.readIndex = b.start
  write_index : rb.writeIndex = b.tail
  mirrors : rb.readMirror = rb.writeMirror ↔ b.start + b.fifo.length < cap ∨ b.fifo.length = 0

/-- Along the run every call replies as the queue does and every state agrees with it. -/
def RefinesRun (rb : Mringbuffer) (b : Belt cap) : List Op → Prop
  | [] => Agrees rb b
  | op :: ops =>
    Agrees rb b ∧ (step rb op).2 = (beltStep b op).2 ∧
      RefinesRun (step rb op).1 (beltStep b op).1 ops

theorem Represents.agrees (h : Represents cap rb b) : Agrees rb b := by
  have hfree := b.fifo.length_add_free
  refine ⟨h.dataLen, h.spaceLen, ?_, h.status, h.read_eq, h.write_eq, h.mirrors_eq_iff⟩
  rw [h.dataLen, h.spaceLen, hfree]

theorem Represents.put_none_represents (h : Represents cap rb b) (n : Nat) :
    Represents cap (mringbufferPut rb none n).1 (b.advance n).1 ∧
      (mringbufferPut rb none n).2 = (b.advance n).2 := by
  rw [h.put_null]
  by_cases hfull : b.fifo.free = 0
  · rw [if_pos hfull, Belt.advance, b.put_full hfull]
    exact ⟨h, rfl⟩
  · have hfree := b.fifo.length_add_free
    have hn : min n b.fifo.free ≤ b.fifo.free := Nat.min_le_right _ _
    rw [if_neg hfull, b.advance_min]
    exact ⟨h.advance hn (by omega), (b.advance_eq hn).2.1.symm⟩

theorem Represents.put_some_represents (h : Represents cap rb b) (data : List UInt8) :
    Represents cap (mringbufferPut rb (some data) data.length).1 (b.put data).1 ∧
      (mringbufferPut rb (some data) data.length).2 = (b.put data).2 := by
  rw [h.put_some]
  by_cases hfull : b.fifo.free = 0
  · rw [if_pos hfull, b.put_full hfull]
    exact ⟨h, rfl⟩
  · have hfree := b.fifo.length_add_free
    have hfits : (data.take b.fifo.free).length ≤ b.fifo.free := List.length_take_le _ _
    have hn : min data.length b.fifo.free ≤ (b.fill _ hfits).fifo.free := Nat.min_le_right _ _
    rw [if_neg hfull, b.put_eq_fill_advance data hfits]
    exact ⟨(h.fill hfits (by omega)).advance hn (by omega), rfl⟩

theorem Represents.get_represents (h : Represents cap rb b) (ptr : Bool) (n : Nat) :
    Represents cap (mringbufferGet rb ptr n).1 (b.get n).1 ∧
      (mringbufferGet rb ptr n).2 = ((b.get n).2.length, if ptr then (b.get n).2 else []) := by
  rw [h.get_eq]
  by_cases hempty : b.fifo.length = 0
  · rw [if_pos hempty, b.get_empty h.start_lt hempty]
    exact ⟨h, by simp⟩
  · have hl := b.length_le
    rw [if_neg hempty, Belt.length_get, b.get_min]
    exact ⟨h.get (Nat.min_le_right _ _) (by omega), rfl⟩

theorem Represents.peek_represents (h : Represents cap rb b) :
    Represents cap (step rb .peek).1 (b.get (cap - b.start)).1 ∧
      (step rb .peek).2 = ⟨(b.get (cap - b.start)).2.length, (b.get (cap - b.start)).2⟩ := by
  unfold step
  rw [h.peek_eq_get]
  by_cases hempty : b.fifo.length = 0
  · rw [if_pos hempty, b.get_empty h.start_lt hempty]
    exact ⟨h, rfl⟩
  · have hl := b.length_le
    have hs := h.start_lt
    have hc := h.small
    rw [if_neg hempty, Belt.length_get, b.get_min]
    refine ⟨h.get (Nat.min_le_right _ _) (by omega), ?_⟩
    -- the run ends at the pool's end at the latest, so it is one piece
    have hbytes := h.peek_eq (Nat.min_le_right (cap - b.start) b.fifo.length) (by omega)
    have hrem : sub32 rb.bufferSize rb.readIndex = cap - b.start := by
      rw [h.size_eq, h.read_eq, sub32_eq (by omega) (by omega)]
    rw [hrem, h.read_eq] at hbytes
    simp only [Option.map_some, Option.getD_some, Belt.get]
    rw [hbytes]
    split
    · rfl
    · have hmin : min (cap - b.start) b.fifo.length = cap - b.start := by omega
      rw [hmin, sub32_eq (Nat.le_refl _) (by omega), Nat.sub_self, List.take_zero, List.append_nil]

theorem putWith_eq (rb : Mringbuffer) (ptr : Option (List UInt8)) (n : Nat) (cache : Option Bool) :
    putWith rb ptr n cache = mringbufferPut rb ptr n := by
  cases cache with
  | none => rfl
  | some callback => exact putFflushCache_eq_put rb ptr n callback

theorem getWith_eq (rb : Mringbuffer) (ptr : Bool) (n : Nat) (cache : Option Bool) :
    getWith rb ptr n cache = mringbufferGet rb ptr n := by
  cases cache with
  | none => rfl
  | some callback => exact getInvalidCache_eq_get rb ptr n callback

theorem Represents.putIndex_represents (h : Represents cap rb b) {slot : Nat}
    (hslot : slot < 2 ^ 32) :
    Represents cap (mringbufferPutIndex rb slot).1 (beltPutIndex b slot).1 ∧
      (mringbufferPutIndex rb slot).2 = (beltPutIndex b slot).2 := by
  have hs := h.start_lt
  have hc := h.small
  have hfree := b.fifo.length_add_free
  have htail := b.tail_cases
  have hmove : ∀ k, k ≠ 0 →
      Represents cap (if k = 0 then rb else (mringbufferPut rb none k).1) (b.advance k).1 := by
    intro k hk
    rw [if_neg hk]
    exact (h.put_none_represents k).1
  unfold mringbufferPutIndex beltPutIndex
  simp only [h.spaceLen, h.write_eq, h.read_eq, h.size_eq]
  by_cases hfull : b.fifo.free = 0
  · rw [if_pos hfull, if_pos hfull]
    exact ⟨h, rfl⟩
  rw [if_neg hfull, if_neg hfull]
  by_cases hturned : b.tail < b.start
  · -- the free slots are those from the tail up to the oldest byte
    have hback : b.tail + cap = b.start + b.fifo.length := by omega
    rw [if_neg (by omega)]
    by_cases hreach : slot > b.tail ∧ slot ≤ b.start
    · have hlap : lap cap b.tail slot = slot - b.tail := if_pos hreach.1
      have haccept : slot < cap ∧ slot - b.tail ≤ b.fifo.free := by omega
      rw [if_pos hreach, hlap, if_pos haccept, sub32_eq (by omega) hslot]
      exact ⟨hmove _ (by omega), int32_eq (by omega)⟩
    · have hlap : ¬(slot < cap ∧ lap cap b.tail slot ≤ b.fifo.free) := by
        unfold lap
        split <;> omega
      rw [if_neg hreach, if_neg hlap, if_pos hturned]
      exact ⟨h, rfl⟩
  · have hahead : b.tail = b.start + b.fifo.length := by omega
    rw [if_pos (by omega : b.tail ≥ b.start)]
    by_cases hup : slot > b.tail
    · have hlap : lap cap b.tail slot = slot - b.tail := if_pos hup
      rw [if_pos hup, sub32_eq (by omega) hslot, hlap]
      by_cases hin : slot < cap
      · have haccept : slot < cap ∧ slot - b.tail ≤ b.fifo.free := by omega
        rw [if_pos haccept]
        exact ⟨hmove _ (by omega), int32_eq (by omega)⟩
      · have hout : ¬(slot < cap ∧ slot - b.tail ≤ b.fifo.free) := by omega
        rw [if_neg hout, if_neg hturned, if_neg hin]
        exact ⟨hmove _ (by omega), rfl⟩
    · have hlap : lap cap b.tail slot = cap - (b.tail - slot) := if_neg hup
      rw [if_neg hup, hlap]
      by_cases hlow : slot ≤ b.start
      · have haccept : slot < cap ∧ cap - (b.tail - slot) ≤ b.fifo.free := by omega
        have hgap : sub32 b.tail slot = b.tail - slot := sub32_eq (by omega) (by omega)
        have hsize : sub32 cap (sub32 b.tail slot) = cap - (b.tail - slot) := by
          rw [hgap, sub32_eq (by omega) (by omega)]
        rw [if_pos hlow, if_pos haccept, hsize]
        exact ⟨hmove _ (by omega), int32_eq (by omega)⟩
      · have hrefuse : ¬(slot < cap ∧ cap - (b.tail - slot) ≤ b.fifo.free) := by omega
        rw [if_neg hlow, if_neg hrefuse, if_neg hturned, if_pos (by omega)]
        exact ⟨h, rfl⟩

theorem Represents.getIndex_represents (h : Represents cap rb b) {slot : Nat}
    (hslot : slot < 2 ^ 32) :
    Represents cap (mringbufferGetIndex rb slot).1 (beltGetIndex b slot).1 ∧
      (mringbufferGetIndex rb slot).2 = (beltGetIndex b slot).2 := by
  have hs := h.start_lt
  have hc := h.small
  have hl := b.length_le
  have htail := b.tail_cases
  have hmove : ∀ k, k ≠ 0 →
      Represents cap (if k = 0 then rb else (mringbufferGet rb false k).1) (b.get k).1 := by
    intro k hk
    rw [if_neg hk]
    exact (h.get_represents false k).1
  unfold mringbufferGetIndex beltGetIndex
  simp only [h.dataLen, h.write_eq, h.read_eq, h.size_eq]
  by_cases hempty : b.fifo.length = 0
  · rw [if_pos hempty, if_pos hempty]
    exact ⟨h, by simp [sub32]⟩
  rw [if_neg hempty, if_neg hempty]
  by_cases hahead : b.start < b.tail
  · -- the queue fills the slots from the oldest byte up to the tail
    have hall : sub32 b.tail b.start = b.fifo.length := by
      rw [sub32_eq (by omega) (by omega)]
      omega
    rw [if_neg (by omega : ¬ b.start ≥ b.tail)]
    by_cases hreach : slot > b.start ∧ slot ≤ b.tail
    · have hlap : lap cap b.start slot = slot - b.start := if_pos hreach.1
      have haccept : slot < cap ∧ slot - b.start ≤ b.fifo.length := by omega
      rw [if_pos hreach, sub32_eq (by omega) hslot, hlap, if_pos haccept]
      exact ⟨hmove _ (by omega), rfl⟩
    · have hrefuse : ¬(slot < cap ∧ lap cap b.start slot ≤ b.fifo.length) := by
        unfold lap
        split <;> omega
      have hclip : slot < cap ∨ b.start < b.tail := .inr hahead
      rw [if_neg hreach, hall, if_neg hrefuse, if_pos hclip]
      exact ⟨hmove _ hempty, rfl⟩
  · have hback : b.tail + cap = b.start + b.fifo.length := by omega
    rw [if_pos (by omega : b.start ≥ b.tail)]
    by_cases hup : slot > b.start
    · have hlap : lap cap b.start slot = slot - b.start := if_pos hup
      rw [if_pos hup, sub32_eq (by omega) hslot, hlap]
      by_cases hin : slot < cap
      · have haccept : slot < cap ∧ slot - b.start ≤ b.fifo.length := by omega
        rw [if_pos haccept]
        exact ⟨hmove _ (by omega), rfl⟩
      · have hrefuse : ¬(slot < cap ∧ slot - b.start ≤ b.fifo.length) := by omega
        have hbeyond : ¬(slot < cap ∨ b.start < b.tail) := by omega
        rw [if_neg hrefuse, if_neg hbeyond]
        exact ⟨hmove _ (by omega), rfl⟩
    · have hlap : lap cap b.start slot = cap - (b.start - slot) := if_neg hup
      rw [if_neg hup, hlap]
      by_cases hlow : slot ≤ b.tail
      · have haccept : slot < cap ∧ cap - (b.start - slot) ≤ b.fifo.length := by omega
        have hgap : sub32 b.start slot = b.start - slot := sub32_eq (by omega) (by omega)
        have hsize : sub32 cap (sub32 b.start slot) = cap - (b.start - slot) := by
          rw [hgap, sub32_eq (by omega) (by omega)]
        rw [if_pos hlow, if_pos haccept, hsize]
        exact ⟨hmove _ (by omega), rfl⟩
      · have hgap : sub32 b.start b.tail = b.start - b.tail := sub32_eq (by omega) (by omega)
        have hall : sub32 cap (sub32 b.start b.tail) = b.fifo.length := by
          rw [hgap, sub32_eq (by omega) (by omega)]
          omega
        have hrefuse : ¬(slot < cap ∧ cap - (b.start - slot) ≤ b.fifo.length) := by omega
        have hclip : slot < cap ∨ b.start < b.tail := by omega
        rw [if_neg hlow, hall, if_neg hrefuse, if_pos hclip]
        exact ⟨hmove _ hempty, rfl⟩

theorem Represents.step_represents (h : Represents cap rb b) (op : Op) :
    Represents cap (step rb op).1 (beltStep b op).1 ∧ (step rb op).2 = (beltStep b op).2 := by
  cases op with
  | put data cache =>
    obtain ⟨hrep, hret⟩ := h.put_some_represents data
    simp only [step, beltStep, wrote, putWith_eq, hret]
    exact ⟨hrep, trivial⟩
  | putNull length cache =>
    obtain ⟨hrep, hret⟩ := h.put_none_represents length
    simp only [step, beltStep, wrote, putWith_eq, hret]
    exact ⟨hrep, trivial⟩
  | putIndex wIndex =>
    obtain ⟨hrep, hret⟩ := h.putIndex_represents wIndex.toNat_lt
    simp only [step, beltStep, hret]
    exact ⟨hrep, trivial⟩
  | putchar ch =>
    obtain ⟨hrep, hret⟩ := h.put_some_represents [ch]
    simp only [step, beltStep, wrote, h.putchar_eq_put, hret]
    exact ⟨hrep, trivial⟩
  | get ptr length cache =>
    obtain ⟨hrep, hret⟩ := h.get_represents ptr length
    simp only [step, beltStep, handed, getWith_eq, hret]
    exact ⟨hrep, trivial⟩
  | getIndex rIndex =>
    obtain ⟨hrep, hret⟩ := h.getIndex_represents rIndex.toNat_lt
    simp only [step, beltStep, wrote, hret]
    exact ⟨hrep, trivial⟩
  | getchar ch =>
    obtain ⟨hrep, hret⟩ := h.get_represents ch 1
    simp only [step, beltStep, handed, h.getchar_eq_get, hret]
    exact ⟨hrep, trivial⟩
  | peek => exact h.peek_represents
  | reset => exact ⟨h.reset, rfl⟩

theorem Represents.refinesRun (h : Represents cap rb b) (ops : List Op) : RefinesRun rb b ops := by
  induction ops generalizing rb b with
  | nil => exact h.agrees
  | cons op ops ih =>
    obtain ⟨hrep, hret⟩ := h.step_represents op
    exact ⟨h.agrees, hret, ih hrep⟩

/-- Every run of a ring made over a pool is a run of the queue of its size,
which is rounded down to whole alignment units. -/
theorem refinesRun_aligned (size : Nat) (small : size < 2 ^ 31) (pool : List UInt8)
    (hpool : pool.length = size) (ops : List Op) :
    ∃ cells : (pool.take (mspAlignDown size mspAlignSize)).length =
        mspAlignDown size mspAlignSize,
      RefinesRun (mringbufferInit pool size)
        (Belt.empty (pool.take (mspAlignDown size mspAlignSize)) cells) ops :=
  ⟨_, (represents_init hpool small).refinesRun ops⟩

theorem refinesRun_of_thirteen :
    ∃ cells : ((List.replicate 13 0).take (mspAlignDown 13 mspAlignSize)).length =
        mspAlignDown 13 mspAlignSize,
      RefinesRun (mringbufferInit (List.replicate 13 0) 13)
        (Belt.empty ((List.replicate 13 0).take (mspAlignDown 13 mspAlignSize)) cells)
        [.put [1, 2, 3, 4, 5, 6, 7] none, .get true 5 none, .putNull 2 none, .peek, .putIndex 2] :=
  refinesRun_aligned 13 (by decide) (List.replicate 13 0) rfl _

/-- A ring of thirteen bytes takes eight of them. -/
theorem thirteen_bytes_not_kept :
    ¬ RefinesRun (mringbufferInit (List.replicate 13 0) 13)
      (Belt.empty (List.replicate 13 0) rfl : Belt 13) [.put (List.replicate 13 7) none] := by
  intro h
  have hvalue := congrArg Reply.value h.2.1
  exact absurd hvalue (by decide +kernel)

end BouffaloSdk.MRingBuffer
