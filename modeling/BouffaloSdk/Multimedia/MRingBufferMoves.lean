import BouffaloSdk.Multimedia.MRingBufferFifo

/-!
# Moving an index by a distance

The index calls take a slot and infer the distance. Here the slot is made from
a distance of one byte up to a whole lap, and the inferred distance is shown to
be that one wherever the bytes are there.
-/

namespace BouffaloSdk.MRingBuffer
open Kit Kit.Circular Kit.Word

def runOps (rb : Mringbuffer) (ops : List Op) : Mringbuffer :=
  ops.foldl (fun rb op => (step rb op).1) rb

/-- What is left of a put when its bytes are not written. -/
def putUncopied (rb : Mringbuffer) (ptr : Option (List UInt8)) (length : Nat) : Mringbuffer :=
  { (mringbufferPut rb ptr length).1 with bufferPtr := rb.bufferPtr }

/-- The slot `d` bytes past the write index. -/
def putSlot (rb : Mringbuffer) (d : Nat) : Nat := (rb.writeIndex + d) % rb.bufferSize

/-- The slot `d` bytes past the read index. -/
def getSlot (rb : Mringbuffer) (d : Nat) : Nat := (rb.readIndex + d) % rb.bufferSize

structure MovesBy (rb : Mringbuffer) (d : Nat) : Prop where
  put_fits : d ≤ mringbufferSpaceLen rb →
    (mringbufferPutIndex rb (putSlot rb d)).2 = d ∧
      mringbufferDataLen (mringbufferPutIndex rb (putSlot rb d)).1 = mringbufferDataLen rb + d
  put_same : d ≤ mringbufferSpaceLen rb → ∀ ptr,
    (mringbufferPutIndex rb (putSlot rb d)).1 = putUncopied rb ptr d ∧
      (mringbufferPut rb ptr d).2 = d
  put_refused : mringbufferSpaceLen rb < d →
    (mringbufferPutIndex rb (putSlot rb d)).1 = rb ∧
      (mringbufferPutIndex rb (putSlot rb d)).2 < 0
  get_fits : d ≤ mringbufferDataLen rb →
    (mringbufferGetIndex rb (getSlot rb d)).2 = d ∧
      mringbufferDataLen (mringbufferGetIndex rb (getSlot rb d)).1 + d = mringbufferDataLen rb
  get_same : d ≤ mringbufferDataLen rb → ∀ ptr,
    (mringbufferGetIndex rb (getSlot rb d)).1 = (mringbufferGet rb ptr d).1 ∧
      (mringbufferGet rb ptr d).2.1 = d
  get_short : mringbufferDataLen rb < d →
    mringbufferDataLen (mringbufferGetIndex rb (getSlot rb d)).1 = 0 ∧
      ∀ ptr, (mringbufferGetIndex rb (getSlot rb d)).1 =
        (mringbufferGet rb ptr (mringbufferDataLen rb)).1

variable {cap : Nat} {rb : Mringbuffer} {b : Belt cap}

/-! ## The distance from the slot -/

theorem mod_add_eq_wrap {i d : Nat} (hi : i < cap) (hd : d ≤ cap) :
    (i + d) % cap = wrap cap (i + d) := by
  unfold wrap
  split
  case isTrue h => exact Nat.mod_eq_of_lt h
  case isFalse h => rw [Nat.mod_eq_sub_mod (by omega), Nat.mod_eq_of_lt (by omega)]

/-- Going `d` slots on and measuring the way gives `d` back, the whole lap too. -/
theorem lap_mod {i d : Nat} (hi : i < cap) (pos : 1 ≤ d) (hd : d ≤ cap) :
    lap cap i ((i + d) % cap) = d := by
  rw [mod_add_eq_wrap hi hd]
  unfold lap wrap
  split <;> split <;> omega

theorem beltPutIndex_of_fits {d : Nat} (ht : b.tail < cap) (pos : 1 ≤ d)
    (hd : d ≤ b.fifo.free) :
    beltPutIndex b ((b.tail + d) % cap) = ((b.advance d).1, (d : Int)) := by
  have hfree := b.fifo.length_add_free
  have hlap := @lap_mod cap b.tail d ht pos (by omega)
  have hslot : (b.tail + d) % cap < cap := Nat.mod_lt _ (by omega)
  unfold beltPutIndex
  rw [if_neg (by omega), hlap, if_pos ⟨hslot, hd⟩]

theorem beltPutIndex_of_full {d : Nat} (ht : b.tail < cap) (pos : 1 ≤ d) (hd : d ≤ cap)
    (hover : b.fifo.free < d) :
    (beltPutIndex b ((b.tail + d) % cap)).1 = b ∧
      (beltPutIndex b ((b.tail + d) % cap)).2 < 0 := by
  have hlap := @lap_mod cap b.tail d ht pos hd
  have hslot : (b.tail + d) % cap < cap := Nat.mod_lt _ (by omega)
  unfold beltPutIndex
  by_cases hfull : b.fifo.free = 0
  · rw [if_pos hfull]
    exact ⟨rfl, Int.negSucc_lt_zero _⟩
  · rw [if_neg hfull, hlap, if_neg (by omega)]
    by_cases hturned : b.tail < b.start
    · rw [if_pos hturned]
      exact ⟨rfl, Int.negSucc_lt_zero _⟩
    · rw [if_neg hturned, if_pos hslot]
      exact ⟨rfl, Int.negSucc_lt_zero _⟩

theorem beltGetIndex_of_fits {d : Nat} (hs : b.start < cap) (pos : 1 ≤ d)
    (hd : d ≤ b.fifo.length) :
    beltGetIndex b ((b.start + d) % cap) = ((b.get d).1, d) := by
  have hl := b.length_le
  have hlap := @lap_mod cap b.start d hs pos (by omega)
  have hslot : (b.start + d) % cap < cap := Nat.mod_lt _ (by omega)
  unfold beltGetIndex
  rw [if_neg (by omega), hlap, if_pos ⟨hslot, hd⟩]

theorem beltGetIndex_of_short {d : Nat} (hs : b.start < cap) (pos : 1 ≤ d) (hd : d ≤ cap)
    (hover : b.fifo.length < d) :
    (beltGetIndex b ((b.start + d) % cap)).1 = (b.get b.fifo.length).1 := by
  have hlap := @lap_mod cap b.start d hs pos hd
  have hslot : (b.start + d) % cap < cap := Nat.mod_lt _ (by omega)
  unfold beltGetIndex
  by_cases hempty : b.fifo.length = 0
  · rw [if_pos hempty, b.get_empty (by omega) hempty]
  · rw [if_neg hempty, hlap, if_neg (by omega), if_pos (.inl hslot)]

/-! ## The calls -/

/-- The queue, the pool and one mirror bit leave one state. -/
theorem Represents.unique {rb' : Mringbuffer} (h : Represents cap rb b)
    (h' : Represents cap rb' b) (hpool : rb.bufferPtr = rb'.bufferPtr)
    (hone : rb.readMirror = rb'.readMirror ∨ rb.writeMirror = rb'.writeMirror) : rb = rb' := by
  have hri : rb.readIndex = rb'.readIndex := h.read_eq.trans h'.read_eq.symm
  have hwi : rb.writeIndex = rb'.writeIndex := h.write_eq.trans h'.write_eq.symm
  have hsize : rb.bufferSize = rb'.bufferSize := h.size_eq.trans h'.size_eq.symm
  have hm := h.mirror
  have hm' := h'.mirror
  have hboth : rb.readMirror = rb'.readMirror ∧ rb.writeMirror = rb'.writeMirror := by
    cases hone with
    | inl hr =>
      exact ⟨hr, by rw [hm, hm', hr]⟩
    | inr hw =>
      refine ⟨?_, hw⟩
      rw [hm, hm'] at hw
      by_cases hsame : b.start + b.fifo.length < cap ∨ b.fifo.length = 0
      · rwa [if_pos hsame, if_pos hsame] at hw
      · rw [if_neg hsame, if_neg hsame] at hw
        exact Bool.not_inj hw
  cases rb
  cases rb'
  simp_all only

theorem put_none_keeps (rb : Mringbuffer) (n : Nat) :
    (mringbufferPut rb none n).1.bufferPtr = rb.bufferPtr ∧
      (mringbufferPut rb none n).1.readMirror = rb.readMirror := by
  unfold mringbufferPut
  dsimp only
  split
  · exact ⟨rfl, rfl⟩
  · split <;> split <;> exact ⟨rfl, rfl⟩

theorem putIndex_keeps (rb : Mringbuffer) (slot : Nat) :
    (mringbufferPutIndex rb slot).1.bufferPtr = rb.bufferPtr ∧
      (mringbufferPutIndex rb slot).1.readMirror = rb.readMirror := by
  have hmove : ∀ k, (if k = 0 then rb else (mringbufferPut rb none k).1).bufferPtr = rb.bufferPtr ∧
      (if k = 0 then rb else (mringbufferPut rb none k).1).readMirror = rb.readMirror := by
    intro k
    split
    · exact ⟨rfl, rfl⟩
    · exact put_none_keeps rb k
  unfold mringbufferPutIndex
  dsimp only
  split
  · exact ⟨rfl, rfl⟩
  · split
    · split
      · exact hmove _
      · split
        · exact hmove _
        · exact ⟨rfl, rfl⟩
    · split
      · exact hmove _
      · exact ⟨rfl, rfl⟩

theorem get_keeps (rb : Mringbuffer) (ptr : Bool) (n : Nat) :
    (mringbufferGet rb ptr n).1.bufferPtr = rb.bufferPtr ∧
      (mringbufferGet rb ptr n).1.writeMirror = rb.writeMirror := by
  unfold mringbufferGet
  dsimp only
  split
  · exact ⟨rfl, rfl⟩
  · split <;> split <;> exact ⟨rfl, rfl⟩

theorem getIndex_keeps (rb : Mringbuffer) (slot : Nat) :
    (mringbufferGetIndex rb slot).1.bufferPtr = rb.bufferPtr ∧
      (mringbufferGetIndex rb slot).1.writeMirror = rb.writeMirror := by
  have hmove : ∀ k, (if k = 0 then rb else (mringbufferGet rb false k).1).bufferPtr =
        rb.bufferPtr ∧
      (if k = 0 then rb else (mringbufferGet rb false k).1).writeMirror = rb.writeMirror := by
    intro k
    split
    · exact ⟨rfl, rfl⟩
    · exact get_keeps rb false k
  unfold mringbufferGetIndex
  dsimp only
  by_cases hempty : mringbufferDataLen rb = 0
  · rw [if_pos hempty]
    exact ⟨rfl, rfl⟩
  · rw [if_neg hempty]
    exact hmove _

/-- Where the bytes come from does not show in the indices. -/
theorem putUncopied_eq (rb : Mringbuffer) (ptr : Option (List UInt8)) (n : Nat) :
    putUncopied rb ptr n = (mringbufferPut rb none n).1 ∧
      (mringbufferPut rb ptr n).2 = (mringbufferPut rb none n).2 := by
  unfold putUncopied mringbufferPut memcpyFrom
  dsimp only
  split
  · exact ⟨rfl, rfl⟩
  · split <;> split <;> exact ⟨rfl, rfl⟩

theorem Represents.putIndex_slot (h : Represents cap rb b) {d : Nat} (pos : 1 ≤ d)
    (hd : d ≤ b.fifo.free) :
    mringbufferPutIndex rb (putSlot rb d) = ((mringbufferPut rb none d).1, (d : Int)) := by
  have hfree := b.fifo.length_add_free
  have hc := h.small
  have ht := h.write_lt (by omega)
  have hslot : putSlot rb d < 2 ^ 32 := by
    have hlt : (rb.writeIndex + d) % rb.bufferSize < rb.bufferSize :=
      Nat.mod_lt _ (by rw [h.size_eq]; omega)
    have hsize := h.size_eq
    unfold putSlot
    omega
  obtain ⟨hrep, hval⟩ := h.putIndex_represents hslot
  have hbelt : beltPutIndex b (putSlot rb d) = ((b.advance d).1, (d : Int)) := by
    rw [putSlot, h.size_eq, h.write_eq]
    rw [h.write_eq] at ht
    exact beltPutIndex_of_fits ht pos hd
  rw [hbelt] at hrep hval
  obtain ⟨hpool, hread⟩ := putIndex_keeps rb (putSlot rb d)
  obtain ⟨hpool', hread'⟩ := put_none_keeps rb d
  have hstate := hrep.unique (h.put_none_represents d).1 (hpool.trans hpool'.symm)
    (.inl (hread.trans hread'.symm))
  exact Prod.ext hstate hval

theorem Represents.getIndex_slot (h : Represents cap rb b) {d : Nat} (pos : 1 ≤ d)
    (hd : d ≤ cap) :
    (mringbufferGetIndex rb (getSlot rb d)).1 =
        (mringbufferGet rb false (min d b.fifo.length)).1 ∧
      (d ≤ b.fifo.length → (mringbufferGetIndex rb (getSlot rb d)).2 = d) := by
  have hs := h.start_lt
  have hc := h.small
  have hslot : getSlot rb d < 2 ^ 32 := by
    have hlt : (rb.readIndex + d) % rb.bufferSize < rb.bufferSize :=
      Nat.mod_lt _ (by rw [h.size_eq]; omega)
    have hsize := h.size_eq
    unfold getSlot
    omega
  obtain ⟨hrep, hval⟩ := h.getIndex_represents hslot
  obtain ⟨hpool, hwrite⟩ := getIndex_keeps rb (getSlot rb d)
  obtain ⟨hpool', hwrite'⟩ := get_keeps rb false (min d b.fifo.length)
  have hmirror := hwrite.trans hwrite'.symm
  have hslot_eq : getSlot rb d = (b.start + d) % cap := by rw [getSlot, h.size_eq, h.read_eq]
  rw [hslot_eq] at hrep hval hpool hmirror ⊢
  by_cases hfits : d ≤ b.fifo.length
  · have hbelt := beltGetIndex_of_fits (by omega) pos hfits
    rw [Nat.min_eq_left hfits] at hpool' hmirror ⊢
    rw [hbelt] at hrep hval
    exact ⟨hrep.unique (h.get_represents false d).1 (hpool.trans hpool'.symm) (.inr hmirror),
      fun _ => hval⟩
  · have hover : b.fifo.length < d := Nat.lt_of_not_le hfits
    have hbelt := beltGetIndex_of_short (by omega) pos hd hover
    rw [Nat.min_eq_right (by omega)] at hpool' hmirror ⊢
    rw [hbelt] at hrep
    exact ⟨hrep.unique (h.get_represents false _).1 (hpool.trans hpool'.symm) (.inr hmirror),
      fun hle => absurd hle hfits⟩

/-- The bytes handed out do not show in the indices. -/
theorem get_state_eq (rb : Mringbuffer) (ptr : Bool) (n : Nat) :
    (mringbufferGet rb ptr n).1 = (mringbufferGet rb false n).1 ∧
      (mringbufferGet rb ptr n).2.1 = (mringbufferGet rb false n).2.1 := by
  unfold mringbufferGet
  dsimp only
  split
  · exact ⟨rfl, rfl⟩
  · split <;> split <;> exact ⟨rfl, rfl⟩

theorem Represents.movesBy (h : Represents cap rb b) {d : Nat} (pos : 1 ≤ d) (hd : d ≤ cap) :
    MovesBy rb d := by
  have hfree := b.fifo.length_add_free
  have hspace := h.spaceLen
  have hdata := h.dataLen
  constructor
  case put_fits =>
    intro hfits
    rw [h.putIndex_slot pos (by omega)]
    refine ⟨rfl, ?_⟩
    rw [(h.put_none_represents d).1.dataLen, hdata, Fifo.length,
      (b.advance_eq (by omega)).2.2.1, List.length_append, List.length_take, b.ahead_length,
      Nat.min_eq_left (by omega), Fifo.length]
  case put_same =>
    intro hfits ptr
    obtain ⟨hstate, hret⟩ := putUncopied_eq rb ptr d
    rw [h.putIndex_slot pos (by omega), hstate, hret]
    exact ⟨rfl, (h.put_none_represents d).2.trans (b.advance_eq (by omega)).2.1⟩
  case put_refused =>
    intro hover
    have hc := h.small
    have ht := h.write_lt (by omega)
    have hslot_eq : putSlot rb d = (b.tail + d) % cap := by rw [putSlot, h.size_eq, h.write_eq]
    have hslot : (b.tail + d) % cap < cap := Nat.mod_lt _ (by omega)
    rw [h.write_eq] at ht
    obtain ⟨hstay, hneg⟩ := beltPutIndex_of_full ht pos hd (by omega)
    obtain ⟨hrep, hval⟩ := h.putIndex_represents (by omega : (b.tail + d) % cap < 2 ^ 32)
    obtain ⟨hpool, hread⟩ := putIndex_keeps rb ((b.tail + d) % cap)
    rw [hstay] at hrep
    rw [hslot_eq, hval]
    exact ⟨hrep.unique h hpool (.inl hread), hneg⟩
  case get_fits =>
    intro hfits
    obtain ⟨hstate, hret⟩ := h.getIndex_slot pos hd
    refine ⟨hret (by omega), ?_⟩
    rw [hstate, (h.get_represents false _).1.dataLen, hdata]
    simp only [Belt.get, Fifo.pop, Fifo.length, List.length_drop] at hdata ⊢
    omega
  case get_same =>
    intro hfits ptr
    obtain ⟨hstate, hret⟩ := get_state_eq rb ptr d
    have hmin : min d b.fifo.length = d := by omega
    rw [(h.getIndex_slot pos hd).1, hstate, hret, hmin, (h.get_represents false d).2,
      Belt.length_get]
    exact ⟨rfl, hmin⟩
  case get_short =>
    intro hover
    have hmin : min d b.fifo.length = b.fifo.length := by omega
    rw [(h.getIndex_slot pos hd).1, hmin]
    constructor
    · rw [(h.get_represents false _).1.dataLen]
      simp only [Belt.get, Fifo.pop, Fifo.length, List.length_drop]
      omega
    · intro ptr
      rw [hdata, (get_state_eq rb ptr _).1]

/-! ## Reachable states -/

theorem Represents.runOps (h : Represents cap rb b) (ops : List Op) :
    ∃ b' : Belt cap, Represents cap (runOps rb ops) b' := by
  induction ops generalizing rb b with
  | nil => exact ⟨b, h⟩
  | cons op ops ih => exact ih (h.step_represents op).1

/-- In every reachable state an index move over at most a lap is a put or a get
of that many bytes without the copy, or is refused, or takes all the data. -/
theorem index_moves_by (size : Nat) (small : size < 2 ^ 31) (pool : List UInt8)
    (hpool : pool.length = size) (ops : List Op) (d : Nat) (pos : 1 ≤ d)
    (hd : d ≤ mringbufferGetSize (runOps (mringbufferInit pool size) ops)) :
    MovesBy (runOps (mringbufferInit pool size) ops) d := by
  obtain ⟨b, hb⟩ := (represents_init hpool small).runOps ops
  have hsize : mringbufferGetSize (runOps (mringbufferInit pool size) ops) = _ := hb.size_eq
  rw [hsize] at hd
  exact hb.movesBy pos hd

theorem index_moves_by_whole_lap :
    MovesBy (runOps (mringbufferInit (List.replicate 8 0) 8)
      [.put [1, 2, 3, 4, 5] none, .get true 5 none]) 8 :=
  index_moves_by 8 (by decide) (List.replicate 8 0) rfl _ 8 (by decide) (by decide +kernel)

end BouffaloSdk.MRingBuffer
