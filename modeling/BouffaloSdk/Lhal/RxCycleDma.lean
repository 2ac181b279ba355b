import BouffaloSdk.Kit.Circular
import BouffaloSdk.Kit.Runs
import BouffaloSdk.Lhal.DmaChains
import Mathlib.Algebra.BigOperators.Ring.List

/-!
# Cyclic receive over a DMA ring

`bflb_rx_cycle_dma_init` of `drivers/lhal/src/bflb_dma.c` chains the two halves of a
buffer into a ring, and `bflb_rx_cycle_dma_process` hands on what came in since its last
call. It knows how far the engine is from the engine's write pointer and its count of
finished nodes. The length of the first piece is held in 16 bits.
-/

namespace BouffaloSdk
open Kit Kit.Circular Kit.Runs

/-- A buffer does not reach round the end of the address space, so its pointers are naturals. -/
structure RxCycleDma where
  dstBuf : Nat
  dstBufSize : Nat
  readPtr : Nat
  dmaLastLliCount : Nat
  deriving DecidableEq, Repr

/-- A ring at work. `nodeBytes` are the sizes of its nodes, `ring` is the buffer, `received`
all that came in and `copied` all that the copy callback was given. -/
structure RxCycle where
  rx : RxCycleDma
  nodeBytes : List Nat
  ring : List UInt8
  received : List UInt8
  copied : List UInt8

namespace RxCycleDma

/-- `bflb_rx_cycle_dma_process` on what the two channel registers hold. The second result
lists the calls of `copy` with their address and length. -/
def process (rx : RxCycleDma) (writePtr dmaLliCount : Nat) : RxCycleDma × List (Nat × Nat) :=
  let calls :=
    if rx.readPtr < writePtr then [(rx.readPtr, (writePtr - rx.readPtr) % 2 ^ 16)]
    else if writePtr ≠ rx.readPtr ∨ dmaLliCount ≠ rx.dmaLastLliCount then
      [(rx.readPtr, (rx.dstBuf + rx.dstBufSize - rx.readPtr) % 2 ^ 16),
        (rx.dstBuf, writePtr - rx.dstBuf)]
    else []
  ({ rx with readPtr := writePtr, dmaLastLliCount := dmaLliCount }, calls)

end RxCycleDma

namespace RxCycle

/-- Nodes finished within the first `r` bytes of a turn. -/
def nodesWithin : List Nat → Nat → Nat
  | [], _ => 0
  | n :: nodes, r => if n ≤ r then 1 + nodesWithin nodes (r - n) else 0

/-- The engine's 10-bit count of finished nodes after `total` bytes. -/
def lliCount (nodes : List Nat) (total : Nat) : Nat :=
  (total / nodes.sum * nodes.length + nodesWithin nodes (total % nodes.sum)) % 2 ^ 10

/-- `bflb_rx_cycle_dma_init` over a buffer that holds `ring`. -/
def init (c : DmaChannel) (base : BitVec 32) (rxLlipoolSize : BitVec 8)
    (srcAddr dstBuf dstBufSize : BitVec 32) (ring : List UInt8) : Option (RxCycle × DmaChannel) :=
  match Dma.lliReload base rxLlipoolSize.toNat
      [⟨srcAddr, dstBuf, dstBufSize / 2⟩, ⟨srcAddr, dstBuf + dstBufSize / 2, dstBufSize / 2⟩] c with
  | (.error _, _) => none
  | (.ok usedCount, c) =>
    let c := Dma.lliLinkHead base usedCount c
    some ({
      rx := ⟨dstBuf.toNat, dstBufSize.toNat, dstBuf.toNat, 0⟩
      nodeBytes := (List.range' 0 usedCount).map fun k =>
        (c.pool.lli k).control.transferSize.toNat * Dma.unitBytes c.regs.control.sWidth
      ring := ring
      received := []
      copied := [] }, c)

/-- The bytes that a list of `copy` calls is given. -/
def copiedBy (w : RxCycle) (calls : List (Nat × Nat)) : List UInt8 :=
  calls.flatMap fun call => slice w.ring (call.1 - w.rx.dstBuf) call.2

/-- The engine stores `bytes` round the ring. -/
def arrive (w : RxCycle) (bytes : List UInt8) : RxCycle where
  rx := w.rx
  nodeBytes := w.nodeBytes
  ring := putWrap w.ring (w.received.length % w.rx.dstBufSize) bytes
  received := w.received ++ bytes
  copied := w.copied

/-- At most a turn of bytes comes in, then the driver is called. -/
def step (w : RxCycle) (bytes : List UInt8) : Option RxCycle :=
  if w.rx.dstBufSize < bytes.length then none
  else
    let w := w.arrive bytes
    let writePtr := w.rx.dstBuf + w.received.length % w.rx.dstBufSize
    let (rx, calls) := w.rx.process writePtr (lliCount w.nodeBytes w.received.length)
    some { w with rx := rx, copied := w.copied ++ w.copiedBy calls }

/-- Everything received was handed on, in order. -/
def Lossless (_ : RxCycle) (_ : List UInt8) (w : RxCycle) : Prop := w.copied = w.received

/-- The bytes up to the write pointer or the end of the buffer count in 16 bits. -/
def ShortPiece (w : RxCycle) (bytes : List UInt8) (_ : RxCycle) : Prop :=
  min bytes.length (w.rx.dstBufSize - w.received.length % w.rx.dstBufSize) < 2 ^ 16

/-! ## One call -/

/-- The driver is level with the engine. -/
structure Synced (w : RxCycle) : Prop where
  ring : w.ring.length = w.rx.dstBufSize
  nodes : w.nodeBytes.sum = w.rx.dstBufSize
  some_node : 0 < w.nodeBytes.length
  few_nodes : w.nodeBytes.length < 2 ^ 10
  readPtr : w.rx.readPtr = w.rx.dstBuf + w.received.length % w.rx.dstBufSize
  count : 0 < w.rx.dstBufSize →
    w.rx.dmaLastLliCount = lliCount w.nodeBytes w.received.length
  started : w.rx.dstBufSize = 0 → w.received = []
  copied : w.copied = w.received

section Process
variable {w u : RxCycle} {bytes : List UInt8}

theorem lliCount_turn {nodes : List Nat} {total : Nat} (hsum : 0 < nodes.sum)
    (hpos : 0 < nodes.length) (hfew : nodes.length < 2 ^ 10) :
    lliCount nodes (total + nodes.sum) ≠ lliCount nodes total := by
  unfold lliCount
  rw [Nat.add_div_right _ hsum, Nat.add_mod_right, Nat.succ_mul]
  omega

/-- The write pointer after `a` more bytes, at most a turn. -/
theorem pos_add {size total a : Nat} (hsize : 0 < size) (ha : a ≤ size) :
    (total + a) % size =
      if total % size + a < size then total % size + a else total % size + a - size := by
  have hr := Nat.mod_lt total hsize
  rw [Nat.add_mod, ← Nat.mod_add_mod, Nat.add_mod_mod]
  split
  · rw [Nat.mod_mod, Nat.mod_eq_of_lt ‹_›]
  · rw [Nat.mod_mod, Nat.mod_eq_sub_mod (by omega), Nat.mod_eq_of_lt (by omega)]

/-- What a call hands on, by how the new bytes lie in the ring. -/
theorem Synced.calls (h : Synced w) (hsize : 0 < w.rx.dstBufSize)
    (ha : bytes.length ≤ w.rx.dstBufSize) :
    (w.rx.process (w.rx.dstBuf + (w.received ++ bytes).length % w.rx.dstBufSize)
        (lliCount w.nodeBytes (w.received ++ bytes).length)).2 =
      let r := w.received.length % w.rx.dstBufSize
      if bytes.length = 0 then []
      else if r + bytes.length < w.rx.dstBufSize then
        [(w.rx.dstBuf + r, bytes.length % 2 ^ 16)]
      else [(w.rx.dstBuf + r, (w.rx.dstBufSize - r) % 2 ^ 16),
        (w.rx.dstBuf, r + bytes.length - w.rx.dstBufSize)] := by
  have hr := Nat.mod_lt w.received.length hsize
  rw [List.length_append, pos_add hsize ha]
  simp only [RxCycleDma.process, h.readPtr, h.count hsize]
  by_cases hnone : bytes.length = 0
  · simp [hnone, hr]
  rw [if_neg hnone]
  by_cases hwrap : w.received.length % w.rx.dstBufSize + bytes.length < w.rx.dstBufSize
  · rw [if_pos hwrap, if_pos (by omega), if_pos hwrap, Nat.add_sub_add_left, Nat.add_sub_cancel_left]
  · have hmoved : w.rx.dstBuf + (w.received.length % w.rx.dstBufSize + bytes.length
          - w.rx.dstBufSize) ≠ w.rx.dstBuf + w.received.length % w.rx.dstBufSize ∨
        lliCount w.nodeBytes (w.received.length + bytes.length) ≠
          lliCount w.nodeBytes w.received.length := by
      by_cases hturn : bytes.length = w.rx.dstBufSize
      · have hsum : 0 < w.nodeBytes.sum := by
          rw [h.nodes]
          exact hsize
        have hcount := @lliCount_turn _ w.received.length hsum h.some_node h.few_nodes
        rw [h.nodes, ← hturn] at hcount
        exact Or.inr hcount
      · exact Or.inl (by omega)
    rw [if_neg hwrap, if_neg (by omega), if_pos hmoved, if_neg hwrap, Nat.add_sub_add_left,
      Nat.add_sub_cancel_left]

/-- The new bytes lie behind the read position. -/
theorem window_arrive (h : Synced w) (hsize : 0 < w.rx.dstBufSize)
    (ha : bytes.length ≤ w.rx.dstBufSize) :
    window (w.arrive bytes).ring (w.received.length % w.rx.dstBufSize) bytes.length = bytes := by
  have hr := Nat.mod_lt w.received.length hsize
  rw [← h.ring] at hr ha ⊢
  have hsame := window_putWrap_same hr ha
  have hpart := congrArg (List.take bytes.length) hsame
  rw [window_take ha, List.take_left' rfl] at hpart
  rw [arrive, ← h.ring]
  exact hpart

/-- The bytes handed on, where the first piece is not cut short. -/
theorem Synced.copiedBy (h : Synced w) (hsize : 0 < w.rx.dstBufSize)
    (ha : bytes.length ≤ w.rx.dstBufSize)
    (hshort : min bytes.length (w.rx.dstBufSize - w.received.length % w.rx.dstBufSize) < 2 ^ 16) :
    (w.arrive bytes).copiedBy
      (w.rx.process (w.rx.dstBuf + (w.received ++ bytes).length % w.rx.dstBufSize)
        (lliCount w.nodeBytes (w.received ++ bytes).length)).2 = bytes := by
  have hr := Nat.mod_lt w.received.length hsize
  have hwin := window_arrive h hsize ha
  have hring : (w.arrive bytes).ring.length = w.rx.dstBufSize := by
    rw [← h.ring] at hr ha ⊢
    rw [arrive, ← h.ring]
    exact length_putWrap hr ha
  rw [h.calls hsize ha]
  simp only
  by_cases hnone : bytes.length = 0
  · rw [if_pos hnone, List.length_eq_zero_iff.mp hnone]
    rfl
  rw [if_neg hnone]
  by_cases hwrap : w.received.length % w.rx.dstBufSize + bytes.length < w.rx.dstBufSize
  · have hmod : bytes.length % 2 ^ 16 = bytes.length := Nat.mod_eq_of_lt (by omega)
    rw [window_eq_take (by omega)] at hwin
    rw [if_pos hwrap, hmod]
    simp only [RxCycle.copiedBy, List.flatMap_cons, List.flatMap_nil, List.append_nil]
    rw [show (w.arrive bytes).rx = w.rx from rfl, Nat.add_sub_cancel_left]
    exact hwin
  · have hmod : (w.rx.dstBufSize - w.received.length % w.rx.dstBufSize) % 2 ^ 16 =
        w.rx.dstBufSize - w.received.length % w.rx.dstBufSize := Nat.mod_eq_of_lt (by omega)
    have hrest : w.received.length % w.rx.dstBufSize + bytes.length - w.rx.dstBufSize =
        bytes.length - (w.rx.dstBufSize - w.received.length % w.rx.dstBufSize) := by omega
    rw [window_eq_append (by omega) (by omega), hring] at hwin
    rw [if_neg hwrap, hmod, hrest]
    simp only [RxCycle.copiedBy, List.flatMap_cons, List.flatMap_nil, List.append_nil]
    rw [show (w.arrive bytes).rx = w.rx from rfl, Nat.add_sub_cancel_left, Nat.sub_self]
    exact hwin

/-- A first piece that is cut short leaves bytes behind. -/
theorem Synced.copiedBy_lt (h : Synced w) (hsize : 0 < w.rx.dstBufSize)
    (ha : bytes.length ≤ w.rx.dstBufSize)
    (hlong : 2 ^ 16 ≤ min bytes.length (w.rx.dstBufSize - w.received.length % w.rx.dstBufSize)) :
    ((w.arrive bytes).copiedBy
      (w.rx.process (w.rx.dstBuf + (w.received ++ bytes).length % w.rx.dstBufSize)
        (lliCount w.nodeBytes (w.received ++ bytes).length)).2).length < bytes.length := by
  have hr := Nat.mod_lt w.received.length hsize
  rw [h.calls hsize ha]
  simp only
  rw [if_neg (by omega)]
  by_cases hwrap : w.received.length % w.rx.dstBufSize + bytes.length < w.rx.dstBufSize
  · rw [if_pos hwrap]
    simp only [RxCycle.copiedBy, List.flatMap_cons, List.flatMap_nil, List.append_nil, slice,
      List.length_take]
    omega
  · rw [if_neg hwrap]
    simp only [RxCycle.copiedBy, List.flatMap_cons, List.flatMap_nil, List.append_nil, slice,
      List.length_take, List.length_append]
    omega

theorem step_eq_some (h : step w bytes = some u) : bytes.length ≤ w.rx.dstBufSize ∧
    u = { w.arrive bytes with
      rx := (w.rx.process (w.rx.dstBuf + (w.received ++ bytes).length % w.rx.dstBufSize)
        (lliCount w.nodeBytes (w.received ++ bytes).length)).1
      copied := w.copied ++ (w.arrive bytes).copiedBy
        (w.rx.process (w.rx.dstBuf + (w.received ++ bytes).length % w.rx.dstBufSize)
          (lliCount w.nodeBytes (w.received ++ bytes).length)).2 } := by
  unfold step at h
  split at h
  · cases h
  · exact ⟨by omega, (Option.some.inj h).symm⟩

theorem Synced.copiedBy_nil (h : Synced w) (v : RxCycle) :
    v.copiedBy (w.rx.process (w.rx.dstBuf + w.received.length % w.rx.dstBufSize)
      (lliCount w.nodeBytes w.received.length)).2 = [] := by
  simp only [RxCycleDma.process, h.readPtr]
  rcases Nat.eq_zero_or_pos w.rx.dstBufSize with hzero | hsize
  · -- an empty ring: whatever the count says, the pieces are empty
    rw [h.started hzero, hzero]
    split
    · simp at *
    · split <;> simp [RxCycle.copiedBy, slice]
  · simp [h.count hsize, RxCycle.copiedBy]

theorem Synced.lossless_iff (h : Synced w) (hstep : step w bytes = some u) :
    Lossless w bytes u ↔ ShortPiece w bytes u := by
  obtain ⟨ha, rfl⟩ := step_eq_some hstep
  unfold Lossless ShortPiece
  simp only [arrive, h.copied, List.append_cancel_left_eq]
  cases bytes with
  | nil =>
    rw [List.append_nil, h.copiedBy_nil]
    simp
  | cons b bytes =>
    have hsize : 0 < w.rx.dstBufSize := by
      rw [List.length_cons] at ha
      omega
    constructor
    · intro hall
      by_contra hlong
      have hlt := h.copiedBy_lt hsize ha (by omega)
      have hlen := congrArg List.length hall
      exact absurd hlen (Nat.ne_of_lt hlt)
    · exact h.copiedBy hsize ha

theorem Synced.keep (h : Synced w) (hstep : step w bytes = some u)
    (hshort : ShortPiece w bytes u) : Synced u := by
  have hall : Lossless w bytes u := (h.lossless_iff hstep).mpr hshort
  obtain ⟨ha, rfl⟩ := step_eq_some hstep
  constructor
  · cases bytes with
    | nil =>
      have hnil : putWrap w.ring (w.received.length % w.rx.dstBufSize) [] = w.ring := by
        unfold putWrap
        split <;> simp [blit]
      simp only [arrive, hnil]
      exact h.ring
    | cons b bytes =>
      have hr := Nat.mod_lt w.received.length (show 0 < w.rx.dstBufSize by
        rw [List.length_cons] at ha
        omega)
      simp only [arrive, RxCycleDma.process]
      rw [length_putWrap (by rw [h.ring]; exact hr) (by rw [h.ring]; exact ha)]
      exact h.ring
  · exact h.nodes
  · exact h.some_node
  · exact h.few_nodes
  · rfl
  · exact fun _ => rfl
  · intro hzero
    have hbytes : bytes = [] := List.eq_nil_of_length_eq_zero (by
      change w.rx.dstBufSize = 0 at hzero
      omega)
    have hnone : w.received = [] := h.started hzero
    simp [arrive, hbytes, hnone]
  · exact hall

end Process

/-! ## Runs -/

/-- The nodes of the two halves cover the ring. -/
theorem init_synced {c d : DmaChannel} {base : BitVec 32} {rxLlipoolSize : BitVec 8}
    {srcAddr dstBuf dstBufSize : BitVec 32} {ring : List UInt8} {w : RxCycle}
    (hwidth : c.regs.control.sWidth ≠ 3) (heven : dstBufSize.toNat % 2 = 0)
    (hring : ring.length = dstBufSize.toNat)
    (hinit : init c base rxLlipoolSize srcAddr dstBuf dstBufSize ring = some (w, d)) :
    Synced w := by
  unfold init at hinit
  cases hreload : Dma.lliReload base rxLlipoolSize.toNat
      [⟨srcAddr, dstBuf, dstBufSize / 2⟩, ⟨srcAddr, dstBuf + dstBufSize / 2, dstBufSize / 2⟩] c with
  | mk ret c' =>
    rw [hreload] at hinit
    cases ret with
    | error e => simp at hinit
    | ok used =>
      have hpool := rxLlipoolSize.isLt
      obtain ⟨hall, -, hle, hregs⟩ := Dma.lliReload_ok (by omega) hreload
      have hused := hall.pos (by simp)
      have hcontrol : ∀ k, ((Dma.lliLinkHead base used c').pool.lli k).control =
          (c'.pool.lli k).control := by
        intro k
        unfold Dma.lliLinkHead DmaPool.store
        simp only
        split
        · subst k
          rfl
        · rfl
      have hw : (Dma.lliLinkHead base used c').regs.control.sWidth = c.regs.control.sWidth := by
        show c'.regs.control.sWidth = _
        rw [hregs]
        exact hall.sWidth (Nat.zero_le _) hused
      have hsum := hall.bytes hwidth
      have hhalf : (dstBufSize / 2).toNat = dstBufSize.toNat / 2 := BitVec.toNat_udiv
      obtain ⟨rfl, -⟩ : _ = w ∧ _ = d := by simpa using hinit
      constructor
      · exact hring
      · simp only [hcontrol, hw, List.sum_map_mul_right]
        rw [Dma.unitsOf, List.map_map] at hsum
        simp only [Nat.sub_zero, List.map_cons, List.map_nil, List.sum_cons, List.sum_nil,
          hhalf] at hsum
        simp only [Function.comp_def] at hsum
        omega
      · simpa using hused
      · simp
        omega
      · simp
      · intro hsize
        obtain ⟨len, hlen, hcut, -⟩ := hall
        have hbytes := Dma.actualTransferLen_mul hwidth hlen
        have hlen0 : 0 < len := by
          rcases Nat.eq_zero_or_pos len with rfl | hpos
          · simp only [hhalf, Nat.zero_mul] at hbytes
            simp only at hsize
            omega
          · exact hpos
        have hfirst := hcut.size_pos hlen0 (Dma.lliNodes_pos len)
        have hunit : 0 < Dma.unitBytes c.regs.control.sWidth := Nat.pow_pos (by decide)
        obtain ⟨m, rfl⟩ : ∃ m, used = m + 1 := ⟨used - 1, by omega⟩
        have hnode : ¬ (c'.pool.lli 0).control.transferSize.toNat *
            Dma.unitBytes c.regs.control.sWidth ≤ 0 := by
          have := Nat.mul_pos hfirst hunit
          rw [Nat.add_zero] at this
          omega
        simp only [hcontrol, hw, lliCount, List.length_nil, Nat.zero_div, Nat.zero_mul, Nat.zero_mod,
          List.range'_succ, List.map_cons, nodesWithin, hnode, if_false]
        rfl
      · exact fun _ => rfl
      · rfl

/-- A ring that was accepted hands on all it receives exactly as long as no call finds
65536 bytes or more up to the write pointer or the end of the buffer. -/
theorem rx_cycle_lossless_iff {c d : DmaChannel} {base : BitVec 32} {rxLlipoolSize : BitVec 8}
    {srcAddr dstBuf dstBufSize : BitVec 32} {ring : List UInt8} {w : RxCycle}
    (hwidth : c.regs.control.sWidth ≠ 3) (heven : dstBufSize.toNat % 2 = 0)
    (hring : ring.length = dstBufSize.toNat)
    (hinit : init c base rxLlipoolSize srcAddr dstBuf dstBufSize ring = some (w, d))
    (arrivals : List (List UInt8)) :
    Along step Lossless w arrivals ↔ Along step ShortPiece w arrivals :=
  along_iff_of_invariant (fun _ _ _ h hstep => h.lossless_iff hstep)
    (fun _ _ _ h hstep hshort => h.keep hstep hshort) (init_synced hwidth heven hring hinit)

/-- A ring of 80 bytes in 16 nodes' room. -/
def smallRing : Option (RxCycle × DmaChannel) :=
  init Dma.idleChannel 0x22020000 16 0x2000a08c 0x22030000 80 (List.replicate 80 0)

/-- Half a megabyte in 255 nodes' room. -/
def largeRing : Option (RxCycle × DmaChannel) :=
  init Dma.idleChannel 0x22020000 255 0x2000a08c 0x22030000 0x80000 (List.replicate 0x80000 0)

theorem rx_cycle_lossless_iff_small :
    Along step Lossless (smallRing.get (by decide +kernel)).1 [List.replicate 50 1] ↔
      Along step ShortPiece (smallRing.get (by decide +kernel)).1 [List.replicate 50 1] :=
  rx_cycle_lossless_iff (by decide) (by decide) (by decide) (Option.some_get _).symm _

/-- 65536 bytes since the last call: the length of the piece is zero. -/
theorem rx_cycle_loses :
    ¬ Along step Lossless (largeRing.get (by decide +kernel)).1 [List.replicate 0x10000 1] := by
  have hsync : Synced (largeRing.get (by decide +kernel)).1 :=
    init_synced (by decide) (by decide) (List.length_replicate) (Option.some_get _).symm
  have hsize : (largeRing.get (by decide +kernel)).1.rx.dstBufSize = 0x80000 := by decide +kernel
  have hnone : (largeRing.get (by decide +kernel)).1.received = [] := by decide +kernel
  generalize (largeRing.get (by decide +kernel)).1 = w at hsync hsize hnone
  intro h
  have hstep : ¬ w.rx.dstBufSize < (List.replicate 0x10000 (1 : UInt8)).length := by
    rw [hsize, List.length_replicate]
    decide
  have hgood := (h _ (if_neg hstep)).1
  have hshort := (hsync.lossless_iff (if_neg hstep)).mp hgood
  rw [ShortPiece, hsize, hnone, List.length_replicate] at hshort
  exact absurd hshort (by decide)

end RxCycle
end BouffaloSdk
