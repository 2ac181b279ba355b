import BouffaloSdk.Kit.DescRing
import BouffaloSdk.Kit.Runs
import BouffaloSdk.Lhal.BflbEmac

/-!
# Every buffer comes back, once and in order

Each ring is a window of the buffers pushed so far. What a run leaves owned by the engine
decides whether the driver may be cleaned: cleaning covers the sending half of the
descriptor memory only.
-/

namespace BouffaloSdk.Emac
open Kit Kit.Word Kit.Runs

variable {sizes : EmacSizes} {em em' : Emac} {side other : EmacSide} {mem : Nat → BitVec 32}
  {head index : Nat} {desc : BflbEmacTransDesc}

/-! ## What is asked of a step -/

/-- A descriptor of a ring: attributes and address. -/
def slotsOf (mem : Nat → BitVec 32) (side : EmacSide) (index : Nat) : BitVec 32 × BitVec 32 :=
  if index < 64 then (mem (bdWord side index), mem (bdWord side index + 1)) else (0, 0)

def Owned (slot : BitVec 32 × BitVec 32) : Prop := slot.1.getLsbD emacBdOwnedShift = true

def wantsIrq (desc : BflbEmacTransDesc) : Bool := !desc.attrFlag.getLsbD emacFlagNoInt

def sideOf : EmacIrqEvent → Option EmacSide
  | .rxBusy => none
  | .rxFrame | .rxCtrlFrame | .rxErrFrame => some .rx
  | .txFrame | .txErrFrame => some .tx

/-- The buffers that the callback was told of, oldest first. -/
def reported (em : Emac) (side : EmacSide) : List (BitVec 32) :=
  em.reports.filterMap fun report =>
    if sideOf report.1 = some side then report.2.map (·.buffAddr) else none

/-- What holds of every step: the counters stay within the ring, reports follow the pushes
in order, only the engine touches what it owns, and once the handler is idle and nothing
asks for it every buffer that is back and wants an interrupt has been reported. -/
structure RingsKept (sizes : EmacSizes) (em : Emac) (e : Event) (em' : Emac) : Prop where
  bounded : ∀ side, sub32 (em'.emacCtrl side).tail (em'.emacCtrl side).head ≤ sizes.bdNumMax side
  inOrder : ∀ side, em'.reported side <+: (em'.pushed side).map (·.buffAddr)
  untouched : (∀ side status, e ≠ .complete side status) → ∀ side index,
    Owned (slotsOf em.mem side index) → slotsOf em'.mem side index = slotsOf em.mem side index
  allReported : em'.isr = .idle → ∀ side, em'.source side = false →
    ∀ k desc, k < em'.done side → (em'.pushed side)[k]? = some desc → wantsIrq desc = true →
      k < (em'.reported side).length

/-- The engine owns no descriptor of either ring. -/
def NoneOwned (sizes : EmacSizes) (em : Emac) : Prop :=
  ∀ side index, index < sizes.bdNumMax side → ¬ Owned (slotsOf em.mem side index)

/-! ## Attribute bits -/

theorem getLsbD_bit (set : Bool) (shift i : Nat) :
    (bit set shift).getLsbD i = (set && decide (i < 32) && i == shift) := by
  cases set with
  | false => simp [bit]
  | true =>
    rw [bit, if_pos rfl, BitVec.getLsbD_shiftLeft]
    by_cases hlt : i < shift
    · simp [hlt, hlt.ne]
    · by_cases heq : i = shift
      · simp [heq]
      · have hone : i - shift ≠ 0 := by omega
        simp [hlt, heq, BitVec.getLsbD_one, hone]

def attrOf (sizes : EmacSizes) : EmacSide → Nat → BflbEmacTransDesc → BitVec 32
  | .tx => txAttribute sizes
  | .rx => rxAttribute sizes

theorem getLsbD_length (len : BitVec 16) {i : Nat} (hi : i < 16) :
    (len.setWidth 32 <<< emacBdLenShift).getLsbD i = false := by
  rw [BitVec.getLsbD_shiftLeft, emacBdLenShift]
  simp [hi]

/-- The bits 13 to 15 of what a push writes. -/
theorem attrOf_bits (sizes : EmacSizes) (side : EmacSide) (index : Nat)
    (desc : BflbEmacTransDesc) {i : Nat} (hi : i = 13 ∨ i = 14 ∨ i = 15) :
    (attrOf sizes side index desc).getLsbD i =
      (i == emacBdOwnedShift || i == emacBdIrqShift && wantsIrq desc ||
        i == emacBdWrShift && index == sizes.bdNumMask side) := by
  have hlen : (desc.dataLen.setWidth 32 <<< emacBdLenShift).getLsbD i = false :=
    getLsbD_length _ (by omega)
  cases side <;>
    simp only [attrOf, txAttribute, rxAttribute, BitVec.getLsbD_or, getLsbD_bit, hlen] <;>
    rcases hi with rfl | rfl | rfl <;>
    simp [wantsIrq, emacBdOwnedShift, emacBdIrqShift, emacBdWrShift, emacBdTxEofShift,
      emacBdTxCrcShift, emacBdTxPadShift]

theorem attrOf_owned : (attrOf sizes side index desc).getLsbD emacBdOwnedShift = true :=
  attrOf_bits sizes side index desc (.inr (.inr rfl))

theorem attrOf_irq : (attrOf sizes side index desc).getLsbD emacBdIrqShift = wantsIrq desc :=
  (attrOf_bits sizes side index desc (.inr (.inl rfl))).trans (Bool.or_false _)

theorem attrOf_wrap : (attrOf sizes side index desc).getLsbD emacBdWrShift =
    (index == sizes.bdNumMask side) :=
  attrOf_bits sizes side index desc (.inl rfl)

/-! ## The descriptor memory -/

theorem bdWord_inj {side' : EmacSide} {index' : Nat} (h : index < 64) (h' : index' < 64)
    (heq : bdWord side index = bdWord side' index') : side = side' ∧ index = index' := by
  cases side <;> cases side' <;> simp only [bdWord] at heq <;>
    first | exact ⟨rfl, by omega⟩ | omega

theorem bdWord_ne_succ {side' : EmacSide} {index' : Nat} :
    bdWord side index ≠ bdWord side' index' + 1 := by
  cases side <;> cases side' <;> simp only [bdWord] <;> omega

theorem slotsOf_eq (h : index < 64) :
    slotsOf mem side index = (mem (bdWord side index), mem (bdWord side index + 1)) := by
  unfold slotsOf
  rw [if_pos h]

/-- Writing one descriptor changes one slot of one ring. -/
theorem slotsOf_putBd (hindex : index < 64) (attr address : BitVec 32) (other : EmacSide) :
    slotsOf (putBd mem (bdWord side index) attr address) other =
      if other = side then Function.update (slotsOf mem side) index (attr, address)
      else slotsOf mem other := by
  funext i
  by_cases hi : i < 64
  · rw [slotsOf_eq hi]
    unfold putBd
    by_cases hside : other = side
    · subst hside
      rw [if_pos rfl]
      by_cases heq : i = index
      · subst heq
        rw [Function.update_self, Function.update_self, Function.update_of_ne (by omega),
          Function.update_self]
      · have hne : bdWord other i ≠ bdWord other index := fun h => heq (bdWord_inj hi hindex h).2
        rw [Function.update_of_ne heq, slotsOf_eq hi, Function.update_of_ne hne,
          Function.update_of_ne bdWord_ne_succ, Function.update_of_ne bdWord_ne_succ.symm,
          Function.update_of_ne (by omega)]
    · have hne : bdWord other i ≠ bdWord side index := fun h => hside (bdWord_inj hi hindex h).1
      rw [if_neg hside, slotsOf_eq hi, Function.update_of_ne hne,
        Function.update_of_ne bdWord_ne_succ, Function.update_of_ne bdWord_ne_succ.symm,
        Function.update_of_ne (by omega)]
  · have hne : i ≠ index := by omega
    split
    · next heq =>
      subst heq
      rw [Function.update_of_ne hne]
      simp only [slotsOf, if_neg hi]
    · simp only [slotsOf, if_neg hi]

theorem putBd_address (mem : Nat → BitVec 32) (word : Nat) (attr : BitVec 32) :
    putBd mem word attr (mem (word + 1)) = Function.update mem word attr := by
  unfold putBd
  rw [Function.update_eq_self]

/-! ## The window of one ring -/

theorem EmacSizes.bdNumMax_pos (sizes : EmacSizes) (side : EmacSide) : 0 < sizes.bdNumMax side :=
  Nat.two_pow_pos _

theorem EmacSizes.bdNumMax_le (sizes : EmacSizes) (side : EmacSide) :
    sizes.bdNumMax side ≤ 64 :=
  Nat.pow_le_pow_right (by omega) (sizes.log_le side)

/-- A free-running counter picks its descriptor as if it never wrapped. -/
theorem mask_mod (sizes : EmacSizes) (side : EmacSide) (k : Nat) :
    k % 2 ^ 32 &&& sizes.bdNumMask side = k % sizes.bdNumMax side := by
  unfold EmacSizes.bdNumMask EmacSizes.bdNumMax
  rw [Nat.and_two_pow_sub_one_eq_mod]
  exact Nat.mod_mod_of_dvd k (Nat.pow_dvd_pow 2 ((sizes.log_le side).trans (by omega)))

theorem sub32_counters {tail : Nat} (hle : head ≤ tail) (hsmall : tail - head < 2 ^ 32) :
    sub32 (tail % 2 ^ 32) (head % 2 ^ 32) = tail - head := by
  unfold sub32
  split <;> omega

theorem add32_counter (k : Nat) : add32 (k % 2 ^ 32) 1 = (k + 1) % 2 ^ 32 := by
  unfold add32
  omega

def layout (n : Nat) : DescLayout BflbEmacTransDesc (BitVec 32 × BitVec 32) where
  Owned := Owned
  Waits index desc slot := slot.1.getLsbD emacBdOwnedShift = true ∧
    slot.1.getLsbD emacBdWrShift = (index == n - 1) ∧
    slot.1.getLsbD emacBdIrqShift = wantsIrq desc ∧ slot.2 = desc.buffAddr
  Back desc slot := slot.1.getLsbD emacBdOwnedShift = false ∧ slot.2 = desc.buffAddr
  owned_of_waits h := h.1
  not_owned_of_back h howned := Bool.false_ne_true (h.1.symm.trans howned)

/-- The rounds that a loop over one side's ring has left. -/
def roundsLeft : EmacIsr → EmacSide → Nat
  | .rx left _, .rx => left
  | .tx left, .tx => left
  | _, _ => 0

/-- The ring of one side, `head` buffers of which have been reported. -/
structure RingInv (sizes : EmacSizes) (em : Emac) (side : EmacSide) (head : Nat) : Prop where
  ring : DescRing (layout (sizes.bdNumMax side)) (sizes.bdNumMax side) (slotsOf em.mem side)
    (em.pushed side) head (em.done side)
  ctrl : em.emacCtrl side =
    { head := head % 2 ^ 32, tail := (em.pushed side).length % 2 ^ 32 }
  next : em.next side = em.done side % sizes.bdNumMax side
  reported : em.reported side = ((em.pushed side).take head).map (·.buffAddr)
  left_le : head + roundsLeft em.isr side ≤ (em.pushed side).length
  covered : em.source side = false → ∀ k desc, k < em.done side → (em.pushed side)[k]? = some desc →
    wantsIrq desc = true → k < head + roundsLeft em.isr side

theorem RingInv.congr (h : RingInv sizes em side head)
    (hslots : slotsOf em'.mem side = slotsOf em.mem side) (hpushed : em'.pushed side = em.pushed side)
    (hdone : em'.done side = em.done side) (hctrl : em'.emacCtrl side = em.emacCtrl side)
    (hnext : em'.next side = em.next side) (hreported : em'.reported side = em.reported side)
    (hleft : roundsLeft em'.isr side = roundsLeft em.isr side) (hsource : em'.source side = em.source side) :
    RingInv sizes em' side head where
  ring := by
    rw [hslots, hpushed, hdone]
    exact h.ring
  ctrl := by
    rw [hctrl, hpushed]
    exact h.ctrl
  next := by
    rw [hnext, hdone]
    exact h.next
  reported := by
    rw [hreported, hpushed]
    exact h.reported
  left_le := by
    rw [hleft, hpushed]
    exact h.left_le
  covered := by
    rw [hleft, hpushed, hdone, hsource]
    exact h.covered

/-- The driver's counters are those of the window. -/
theorem RingInv.used (h : RingInv sizes em side head) :
    sub32 (em.emacCtrl side).tail (em.emacCtrl side).head = (em.pushed side).length - head := by
  have hroom := h.ring.room
  have hle := h.ring.head_le.trans h.ring.done_le
  have hmax := EmacSizes.bdNumMax_le sizes side
  rw [h.ctrl]
  exact sub32_counters hle (by omega)

theorem RingInv.initial (sizes : EmacSizes) (side : EmacSide) :
    RingInv sizes bflbEmacInit.bflbEmacIrqAttach side 0 where
  ring := by
    refine DescRing.initial (EmacSizes.bdNumMax_pos sizes side) fun index hindex howned => ?_
    have hzero : slotsOf (fun _ => 0) side index = (0, 0) := by
      unfold slotsOf
      exact ite_self _
    have hbit : (slotsOf (fun _ => 0) side index).1.getLsbD emacBdOwnedShift = true := howned
    rw [hzero] at hbit
    cases hbit
  ctrl := rfl
  next := (Nat.zero_mod _).symm
  reported := rfl
  left_le := Nat.le_refl _
  covered _ k _ hk := absurd hk (Nat.not_lt_zero k)

/-! ## Pushing -/

/-- A push that finds room writes one descriptor that the engine does not own. -/
theorem queuePush_cases (h : RingInv sizes em side head) (desc : BflbEmacTransDesc)
    (attr : Nat → BitVec 32) :
    (queuePush sizes em side desc attr).1 = em ∨
      (em.pushed side).length < head + sizes.bdNumMax side ∧
      (queuePush sizes em side desc attr).1 =
        { em with
          mem := putBd em.mem (bdWord side ((em.pushed side).length % sizes.bdNumMax side))
            (attr ((em.pushed side).length % sizes.bdNumMax side)) desc.buffAddr
          emacCtrl := Function.update em.emacCtrl side
            { head := head % 2 ^ 32, tail := ((em.pushed side).length + 1) % 2 ^ 32 }
          pushed := Function.update em.pushed side (em.pushed side ++ [desc]) } := by
  unfold queuePush
  dsimp only
  rw [h.used]
  by_cases hfull : sizes.bdNumMax side ≤ (em.pushed side).length - head
  · exact .inl (by rw [if_pos hfull])
  · refine .inr ⟨by omega, ?_⟩
    rw [if_neg hfull, h.ctrl]
    dsimp only
    rw [mask_mod, add32_counter]

theorem RingInv.push (h : RingInv sizes em side head) (desc : BflbEmacTransDesc) :
    RingInv sizes (queuePush sizes em side desc (attrOf sizes side · desc)).1 side head := by
  rcases queuePush_cases h desc (attrOf sizes side · desc) with heq | ⟨hroom, heq⟩
  · rw [heq]
    exact h
  · have hslot : (em.pushed side).length % sizes.bdNumMax side < 64 :=
      (Nat.mod_lt _ (EmacSizes.bdNumMax_pos sizes side)).trans_le (EmacSizes.bdNumMax_le sizes side)
    have hlen : (em.pushed side ++ [desc]).length = (em.pushed side).length + 1 :=
      List.length_append
    rw [heq]
    refine ⟨?_, ?_, h.next, ?_, ?_, ?_⟩
    · dsimp only
      rw [slotsOf_putBd hslot, if_pos rfl, Function.update_self]
      exact h.ring.push hroom ⟨attrOf_owned, attrOf_wrap, attrOf_irq, rfl⟩
    · dsimp only
      rw [Function.update_self, Function.update_self, hlen]
    · have hle : head ≤ (em.pushed side).length := h.ring.head_le.trans h.ring.done_le
      dsimp only
      rw [Function.update_self, List.take_append_of_le_length hle]
      exact h.reported
    · have hleft := h.left_le
      dsimp only
      rw [Function.update_self, hlen]
      exact hleft.trans (Nat.le_succ _)
    · intro hsource k d hk hitem hwants
      dsimp only at hitem
      rw [Function.update_self] at hitem
      have hold : k < (em.pushed side).length := Nat.lt_of_lt_of_le hk h.ring.done_le
      rw [List.getElem?_append_left hold] at hitem
      exact h.covered hsource k d hk hitem hwants

theorem RingInv.push_other (h : RingInv sizes em side head) {otherHead : Nat}
    (hother : RingInv sizes em other otherHead) (hne : other ≠ side) (desc : BflbEmacTransDesc)
    (attr : Nat → BitVec 32) :
    RingInv sizes (queuePush sizes em side desc attr).1 other otherHead := by
  rcases queuePush_cases h desc attr with heq | ⟨hroom, heq⟩
  · rw [heq]
    exact hother
  · have hslot : (em.pushed side).length % sizes.bdNumMax side < 64 :=
      (Nat.mod_lt _ (EmacSizes.bdNumMax_pos sizes side)).trans_le (EmacSizes.bdNumMax_le sizes side)
    rw [heq]
    refine hother.congr ?_ (Function.update_of_ne hne _ _) rfl (Function.update_of_ne hne _ _) rfl
      rfl rfl rfl
    dsimp only
    rw [slotsOf_putBd hslot, if_neg hne]

/-! ## The engine -/

theorem next_index {n done : Nat} (hn : 0 < n) :
    (if done % n = n - 1 then 0 else done % n + 1) = (done + 1) % n := by
  have hlt := Nat.mod_lt done hn
  have hmod : (done % n + 1) % n = (done + 1) % n := Nat.mod_add_mod done n 1
  rw [← hmod]
  by_cases hlast : done % n = n - 1
  · have hfull : done % n + 1 = n := by omega
    rw [if_pos hlast, hfull, Nat.mod_self]
  · have hnext : (done % n + 1) % n = done % n + 1 := Nat.mod_eq_of_lt (by omega)
    rw [if_neg hlast, hnext]

theorem complete_spec {status : BitVec 32} (h : RingInv sizes em side head)
    (hstep : em.complete side status = some em') :
    ∃ desc, (em.pushed side)[em.done side]? = some desc ∧
      status.getLsbD emacBdOwnedShift = false ∧
      em' = { em with
        mem := putBd em.mem (bdWord side (em.done side % sizes.bdNumMax side)) status desc.buffAddr
        next := Function.update em.next side ((em.done side + 1) % sizes.bdNumMax side)
        source := Function.update em.source side (em.source side || wantsIrq desc)
        done := Function.update em.done side (em.done side + 1) } := by
  have hpos := EmacSizes.bdNumMax_pos sizes side
  have hslot : em.done side % sizes.bdNumMax side < 64 :=
    (Nat.mod_lt _ hpos).trans_le (EmacSizes.bdNumMax_le sizes side)
  unfold complete at hstep
  dsimp only at hstep
  rw [h.next] at hstep
  split at hstep
  · next hcond =>
    obtain ⟨howned, hstatus⟩ := hcond
    have hslots : slotsOf em.mem side _ = _ := slotsOf_eq hslot
    have hslotOwned : (layout (sizes.bdNumMax side)).Owned
        (slotsOf em.mem side (em.done side % sizes.bdNumMax side)) := by
      rw [hslots]
      exact howned
    obtain ⟨k, hk, hlt, -⟩ := h.ring.taken _ (Nat.mod_lt _ hpos) hslotOwned
    obtain ⟨desc, hitem⟩ : ∃ desc, (em.pushed side)[em.done side]? = some desc :=
      ⟨_, List.getElem?_eq_getElem (by omega)⟩
    obtain ⟨-, hwrap, hirq, haddr⟩ := h.ring.waits _ _ (Nat.le_refl _) hitem
    rw [hslots] at hwrap hirq haddr
    dsimp only at hwrap hirq haddr
    refine ⟨_, hitem, by simpa using hstatus, ?_⟩
    cases hstep
    rw [← haddr, putBd_address, hwrap, hirq, ← next_index hpos]
    simp only [beq_iff_eq]
  · cases hstep

theorem RingInv.complete {status : BitVec 32} (h : RingInv sizes em side head)
    (hitem : (em.pushed side)[em.done side]? = some desc)
    (hstatus : status.getLsbD emacBdOwnedShift = false) :
    RingInv sizes { em with
        mem := putBd em.mem (bdWord side (em.done side % sizes.bdNumMax side)) status desc.buffAddr
        next := Function.update em.next side ((em.done side + 1) % sizes.bdNumMax side)
        source := Function.update em.source side (em.source side || wantsIrq desc)
        done := Function.update em.done side (em.done side + 1) } side head := by
  have hslot : em.done side % sizes.bdNumMax side < 64 :=
    (Nat.mod_lt _ (EmacSizes.bdNumMax_pos sizes side)).trans_le (EmacSizes.bdNumMax_le sizes side)
  refine ⟨?_, h.ctrl, ?_, h.reported, h.left_le, ?_⟩
  · dsimp only
    rw [slotsOf_putBd hslot, if_pos rfl, Function.update_self]
    exact h.ring.complete hitem ⟨hstatus, rfl⟩
  · dsimp only
    rw [Function.update_self, Function.update_self]
  · intro hsource k d hk hd hwants
    dsimp only at hsource hk hd
    rw [Function.update_self] at hsource hk
    obtain ⟨hquiet, hnone⟩ := Bool.or_eq_false_iff.mp hsource
    rcases Nat.lt_or_ge k (em.done side) with hlt | hge
    · exact h.covered hquiet k d hlt hd hwants
    · have hlast : k = em.done side := by omega
      rw [hlast, hitem] at hd
      cases hd
      exact absurd hwants (by rw [hnone]; exact Bool.false_ne_true)

theorem RingInv.complete_other {status : BitVec 32} {next source done} {index : Nat}
    {address : BitVec 32} (hother : RingInv sizes em other head) (hne : other ≠ side)
    (hindex : index < 64) :
    RingInv sizes { em with
        mem := putBd em.mem (bdWord side index) status address
        next := Function.update em.next side next
        source := Function.update em.source side source
        done := Function.update em.done side done } other head := by
  refine hother.congr ?_ rfl (Function.update_of_ne hne _ _) rfl (Function.update_of_ne hne _ _)
    rfl rfl (Function.update_of_ne hne _ _)
  dsimp only
  rw [slotsOf_putBd hindex, if_neg hne]

/-! ## The handler -/

/-- A loop ends where the engine owns the next descriptor, and only there or at its bound. -/
theorem isrRound_cases (h : RingInv sizes em side head) (hattached : em.attached = true)
    (hin : head < (em.pushed side).length) :
    em.isrRound sizes side = none ∧ head = em.done side ∨
      ∃ desc event report, (em.pushed side)[head]? = some desc ∧ head < em.done side ∧
        sideOf event = some side ∧ report.buffAddr = desc.buffAddr ∧
        em.isrRound sizes side = some { em with
          emacCtrl := Function.update em.emacCtrl side
            { head := (head + 1) % 2 ^ 32, tail := (em.pushed side).length % 2 ^ 32 }
          reports := em.reports ++ [(event, some report)] } := by
  have hslot : head % sizes.bdNumMax side < 64 :=
    (Nat.mod_lt _ (EmacSizes.bdNumMax_pos sizes side)).trans_le (EmacSizes.bdNumMax_le sizes side)
  have hslots : slotsOf em.mem side _ = _ := slotsOf_eq hslot
  have howned := h.ring.owned_head_iff hin
  unfold isrRound
  rw [h.ctrl]
  dsimp only
  rw [mask_mod, add32_counter]
  by_cases hhead : head = em.done side
  · refine .inl ⟨?_, hhead⟩
    have hbit : (slotsOf em.mem side (head % sizes.bdNumMax side)).1.getLsbD
      emacBdOwnedShift = true := howned.mpr hhead
    rw [hslots] at hbit
    rw [if_pos hbit]
  · right
    have hlt : head < em.done side := Nat.lt_of_le_of_ne h.ring.head_le hhead
    obtain ⟨desc, hitem⟩ : ∃ desc, (em.pushed side)[head]? = some desc :=
      ⟨_, List.getElem?_eq_getElem hin⟩
    obtain ⟨hback, haddr⟩ := h.ring.back head desc (Nat.le_refl _) hlt hitem
    rw [hslots] at hback haddr
    dsimp only at hback haddr
    rw [hback, if_neg Bool.false_ne_true, if_pos hattached]
    cases side with
    | rx =>
      refine ⟨desc, _, _, hitem, hlt, ?_, haddr, rfl⟩
      unfold rxReport
      split
      · rfl
      · split <;> rfl
    | tx =>
      refine ⟨desc, _, _, hitem, hlt, ?_, haddr, rfl⟩
      unfold txReport
      split <;> rfl

theorem reported_append {event : EmacIrqEvent} {report : BflbEmacTransDesc} (hevent : sideOf event = some side)
    (hreports : em'.reports = em.reports ++ [(event, some report)]) :
    em'.reported other = em.reported other ++ if other = side then [report.buffAddr] else [] := by
  unfold reported
  rw [hreports, List.filterMap_append]
  by_cases heq : other = side
  · simp [heq, hevent]
  · have hne : ¬ side = other := fun h => heq h.symm
    simp [heq, hne, hevent]

/-- One buffer more is reported. -/
theorem RingInv.round {event : EmacIrqEvent} {report : BflbEmacTransDesc}
    (h : RingInv sizes em side head) (hitem : (em.pushed side)[head]? = some desc)
    (hback : head < em.done side) (hevent : sideOf event = some side)
    (haddr : report.buffAddr = desc.buffAddr) (hmem : em'.mem = em.mem)
    (hpushed : em'.pushed = em.pushed) (hdone : em'.done = em.done) (hnext : em'.next = em.next)
    (hsource : em'.source = em.source)
    (hctrl : em'.emacCtrl = Function.update em.emacCtrl side
      { head := (head + 1) % 2 ^ 32, tail := (em.pushed side).length % 2 ^ 32 })
    (hreports : em'.reports = em.reports ++ [(event, some report)])
    (hleft : roundsLeft em'.isr side + 1 = roundsLeft em.isr side) :
    RingInv sizes em' side (head + 1) where
  ring := by
    rw [hmem, hpushed, hdone]
    exact h.ring.reclaim hback
  ctrl := by
    rw [hctrl, hpushed, Function.update_self]
  next := by
    rw [hnext, hdone]
    exact h.next
  reported := by
    rw [reported_append hevent hreports, if_pos rfl, h.reported, hpushed, List.take_add_one, hitem,
      List.map_append, haddr]
    rfl
  left_le := by
    have hle := h.left_le
    rw [hpushed]
    omega
  covered := by
    rw [hsource, hdone, hpushed]
    intro hquiet k d hk hd hwants
    have hlt := h.covered hquiet k d hk hd hwants
    omega

/-- The loop may end once it has seen every buffer that wants it. -/
theorem RingInv.leave (h : RingInv sizes em side head)
    (hend : roundsLeft em.isr side = 0 ∨ head = em.done side) (isr : EmacIsr)
    (hleft : roundsLeft isr side = 0) :
    RingInv sizes { em with isr := isr } side head := by
  refine ⟨h.ring, h.ctrl, h.next, h.reported, ?_, ?_⟩
  · rw [hleft]
    exact h.ring.head_le.trans h.ring.done_le
  · intro hquiet k d hk hd hwants
    rw [hleft]
    rcases hend with hzero | hdone
    · have hlt := h.covered hquiet k d hk hd hwants
      omega
    · exact hdone.symm ▸ hk

theorem RingInv.enter (h : RingInv sizes em side head) {isr : Nat → EmacIsr}
    (hleft : ∀ n, roundsLeft (isr n) side = n) :
    RingInv sizes (em.enter side isr) side head := by
  have hle : head ≤ (em.pushed side).length := h.ring.head_le.trans h.ring.done_le
  have hrounds : roundsLeft (em.enter side isr).isr side = (em.pushed side).length - head :=
    (hleft _).trans h.used
  refine ⟨h.ring, h.ctrl, h.next, h.reported, ?_, ?_⟩
  · rw [hrounds]
    exact (Nat.add_sub_of_le hle).le
  · intro _ k d hk _ _
    rw [hrounds, Nat.add_sub_of_le hle]
    exact hk.trans_le h.ring.done_le

theorem RingInv.enter_other (h : RingInv sizes em other head) {isr : Nat → EmacIsr}
    (hne : other ≠ side) (hwas : roundsLeft em.isr other = 0)
    (hleft : ∀ n, roundsLeft (isr n) other = 0) :
    RingInv sizes (em.enter side isr) other head :=
  h.congr rfl rfl rfl rfl rfl rfl ((hleft _).trans hwas.symm) (Function.update_of_ne hne _ _)

/-! ## Every step -/

/-- Both rings are windows of what was pushed. -/
structure Inv (sizes : EmacSizes) (em : Emac) : Prop where
  attached : em.attached = true
  rings : ∀ side, ∃ head, RingInv sizes em side head

theorem inv_init (sizes : EmacSizes) : Inv sizes bflbEmacInit.bflbEmacIrqAttach :=
  ⟨rfl, fun side => ⟨0, RingInv.initial sizes side⟩⟩

theorem queuePush_attached (desc : BflbEmacTransDesc) (attr : Nat → BitVec 32) :
    (queuePush sizes em side desc attr).1.attached = em.attached := by
  unfold queuePush
  dsimp only
  split <;> rfl

theorem Inv.push (h : Inv sizes em) (side : EmacSide) (desc : BflbEmacTransDesc) :
    Inv sizes (queuePush sizes em side desc (attrOf sizes side · desc)).1 := by
  refine ⟨(queuePush_attached _ _).trans h.attached, fun other => ?_⟩
  obtain ⟨head, hring⟩ := h.rings side
  by_cases heq : other = side
  · subst heq
    exact ⟨head, hring.push desc⟩
  · obtain ⟨otherHead, hother⟩ := h.rings other
    exact ⟨otherHead, hring.push_other hother heq desc _⟩

theorem Inv.complete {status : BitVec 32} (h : Inv sizes em)
    (hstep : em.complete side status = some em') : Inv sizes em' := by
  obtain ⟨head, hring⟩ := h.rings side
  obtain ⟨desc, hitem, hstatus, rfl⟩ := complete_spec hring hstep
  refine ⟨h.attached, fun other => ?_⟩
  by_cases heq : other = side
  · subst heq
    exact ⟨head, hring.complete hitem hstatus⟩
  · obtain ⟨otherHead, hother⟩ := h.rings other
    refine ⟨otherHead, hother.complete_other heq ?_⟩
    exact (Nat.mod_lt _ (EmacSizes.bdNumMax_pos sizes side)).trans_le
      (EmacSizes.bdNumMax_le sizes side)

/-- The handler goes on to the sending side, or is done. -/
theorem Inv.enterTx (hattached : em.attached = true)
    (hrings : ∀ side, ∃ head, RingInv sizes { em with isr := .idle } side head) (thenTx : Bool) :
    Inv sizes (em.enterTx thenTx) := by
  refine ⟨by cases thenTx <;> exact hattached, fun side => ?_⟩
  obtain ⟨head, hring⟩ := hrings side
  refine ⟨head, ?_⟩
  cases thenTx with
  | false => exact hring
  | true =>
    cases side with
    | tx => exact hring.enter fun _ => rfl
    | rx => exact hring.enter_other (by decide) rfl fun _ => rfl

/-- Being told that the receiver was busy concerns no buffer. -/
theorem Inv.reportBusy (h : Inv sizes em) : Inv sizes em.reportBusy := by
  unfold Emac.reportBusy
  split
  · refine ⟨h.attached, fun side => ?_⟩
    obtain ⟨head, hring⟩ := h.rings side
    refine ⟨head, hring.congr rfl rfl rfl rfl rfl ?_ rfl rfl⟩
    rw [if_pos h.attached]
    unfold reported
    rw [List.filterMap_append]
    exact List.append_nil _
  · exact h

theorem Inv.isr (h : Inv sizes em) (hidle : em.isr = .idle) : Inv sizes em.bflbEmacIsr := by
  have htold := h.reportBusy
  have hidle' : em.reportBusy.isr = .idle := by
    unfold Emac.reportBusy
    split <;> exact hidle
  have hnone : ∀ side, roundsLeft em.reportBusy.isr side = 0 := by
    rw [hidle']
    exact fun side => by cases side <;> rfl
  unfold bflbEmacIsr
  split
  · refine ⟨htold.attached, fun side => ?_⟩
    obtain ⟨head, hring⟩ := htold.rings side
    cases side with
    | rx => exact ⟨head, hring.enter fun _ => rfl⟩
    | tx => exact ⟨head, hring.enter_other (by decide) (hnone .tx) fun _ => rfl⟩
  · refine Inv.enterTx htold.attached (fun side => ?_) _
    obtain ⟨head, hring⟩ := htold.rings side
    exact ⟨head, hring.leave (.inl (hnone side)) .idle (by cases side <;> rfl)⟩

/-- While one side's loop runs the other has none. -/
theorem roundsLeft_other {isr : EmacIsr} (hne : other ≠ side) (hleft : roundsLeft isr side ≠ 0) :
    roundsLeft isr other = 0 := by
  cases isr <;> cases side <;> cases other <;>
    first | rfl | exact absurd rfl hne | exact absurd rfl hleft

/-- A round of one side's loop, after which one round fewer is left. -/
theorem Inv.round (h : Inv sizes em) {em₁ : Emac} {isr : EmacIsr}
    (hleft : roundsLeft em.isr side = roundsLeft isr side + 1)
    (hround : em.isrRound sizes side = some em₁)
    (hother : ∀ other, other ≠ side → roundsLeft isr other = 0) :
    Inv sizes { em₁ with isr := isr } := by
  obtain ⟨head, hring⟩ := h.rings side
  have hle := hring.left_le
  rcases isrRound_cases hring h.attached (by omega) with ⟨hnone, -⟩ |
    ⟨desc, event, report, hitem, hback, hevent, haddr, hsome⟩
  · cases hnone.symm.trans hround
  · cases hsome.symm.trans hround
    refine ⟨h.attached, fun other => ?_⟩
    by_cases heq : other = side
    · subst heq
      exact ⟨head + 1,
        hring.round hitem hback hevent haddr rfl rfl rfl rfl rfl rfl rfl hleft.symm⟩
    · obtain ⟨otherHead, hring'⟩ := h.rings other
      refine ⟨otherHead, hring'.congr rfl rfl rfl (Function.update_of_ne heq _ _) rfl ?_ ?_ rfl⟩
      · rw [reported_append hevent rfl, if_neg heq, List.append_nil]
      · exact (hother other heq).trans (roundsLeft_other heq (by omega)).symm

/-- The loop of one side ends at its bound or at a descriptor the engine owns. -/
theorem Inv.leave (h : Inv sizes em) (side : EmacSide)
    (hend : roundsLeft em.isr side = 0 ∨
      roundsLeft em.isr side ≠ 0 ∧ em.isrRound sizes side = none)
    (hother : ∀ other, other ≠ side → roundsLeft em.isr other = 0) :
    ∀ other, ∃ head, RingInv sizes { em with isr := .idle } other head := by
  intro other
  obtain ⟨head, hring⟩ := h.rings other
  refine ⟨head, hring.leave ?_ .idle (by cases other <;> rfl)⟩
  by_cases heq : other = side
  · subst heq
    rcases hend with hzero | ⟨hleft, hnone⟩
    · exact .inl hzero
    · have hle := hring.left_le
      rcases isrRound_cases hring h.attached (by omega) with ⟨-, hdone⟩ |
        ⟨_, _, _, _, _, _, _, hsome⟩
      · exact .inr hdone
      · cases hnone.symm.trans hsome
  · exact .inl (hother other heq)

theorem Inv.isrNext (h : Inv sizes em) (hstep : em.isrNext sizes = some em') : Inv sizes em' := by
  unfold Emac.isrNext at hstep
  have hrx : ∀ left thenTx other, other ≠ .rx → roundsLeft (.rx left thenTx) other = 0 := by
    rintro left thenTx (_ | _) hne
    · rfl
    · exact absurd rfl hne
  have htx : ∀ left other, other ≠ .tx → roundsLeft (.tx left) other = 0 := by
    rintro left (_ | _) hne
    · exact absurd rfl hne
    · rfl
  split at hstep
  · cases hstep
  · next thenTx hisr =>
    cases hstep
    exact Inv.enterTx h.attached
      (h.leave .rx (.inl (by rw [hisr]; rfl)) (by rw [hisr]; exact hrx _ _)) thenTx
  · next left thenTx hisr =>
    split at hstep
    · next em₁ hround =>
      cases hstep
      exact h.round (by rw [hisr]; rfl) hround (hrx _ _)
    · next hround =>
      cases hstep
      have hleft : roundsLeft em.isr .rx ≠ 0 := by
        rw [hisr]
        exact Nat.succ_ne_zero left
      exact Inv.enterTx h.attached
        (h.leave .rx (.inr ⟨hleft, hround⟩) (by rw [hisr]; exact hrx _ _)) thenTx
  · next hisr =>
    cases hstep
    exact ⟨h.attached, h.leave .tx (.inl (by rw [hisr]; rfl)) (by rw [hisr]; exact htx _)⟩
  · next left hisr =>
    split at hstep
    · next em₁ hround =>
      cases hstep
      exact h.round (by rw [hisr]; rfl) hround (htx _)
    · next hround =>
      cases hstep
      have hleft : roundsLeft em.isr .tx ≠ 0 := by
        rw [hisr]
        exact Nat.succ_ne_zero left
      exact ⟨h.attached, h.leave .tx (.inr ⟨hleft, hround⟩) (by rw [hisr]; exact htx _)⟩

theorem Inv.step {e : Event} (h : Inv sizes em) (hstep : em.step sizes e = some em') :
    Inv sizes em' := by
  cases e with
  | txPush desc =>
    cases hstep
    exact h.push .tx desc
  | rxPush desc =>
    cases hstep
    exact h.push .rx desc
  | complete side status => exact h.complete hstep
  | rxBusy =>
    cases hstep
    refine ⟨h.attached, fun side => ?_⟩
    obtain ⟨head, hring⟩ := h.rings side
    exact ⟨head, hring.congr rfl rfl rfl rfl rfl rfl rfl rfl⟩
  | isr =>
    simp only [Emac.step] at hstep
    split at hstep
    · next hcond =>
      cases hstep
      exact h.isr hcond.1
    · cases hstep
  | isrNext => exact h.isrNext hstep

/-! ## Who writes descriptors -/

theorem isrRound_mem (h : em.isrRound sizes side = some em') : em'.mem = em.mem := by
  unfold isrRound at h
  dsimp only at h
  split at h
  · cases h
  · split at h <;> cases h <;> rfl

theorem enterTx_mem (thenTx : Bool) : (em.enterTx thenTx).mem = em.mem := by
  cases thenTx <;> rfl

theorem bflbEmacIsr_mem : em.bflbEmacIsr.mem = em.mem := by
  have htold : em.reportBusy.mem = em.mem := by
    unfold reportBusy
    split <;> rfl
  unfold bflbEmacIsr
  split
  · exact htold
  · exact (enterTx_mem _).trans htold

theorem isrNext_mem (h : em.isrNext sizes = some em') : em'.mem = em.mem := by
  unfold isrNext at h
  split at h
  · cases h
  · cases h
    exact enterTx_mem _
  · split at h
    · next em₁ hround =>
      cases h
      have hmem : em₁.mem = em.mem := isrRound_mem hround
      exact hmem
    · cases h
      exact enterTx_mem _
  · cases h
    rfl
  · split at h
    · next em₁ hround =>
      cases h
      have hmem : em₁.mem = em.mem := isrRound_mem hround
      exact hmem
    · cases h
      rfl

/-- A push leaves alone what the engine owns. -/
theorem push_untouched (h : RingInv sizes em side head) (desc : BflbEmacTransDesc)
    (attr : Nat → BitVec 32) (howned : Owned (slotsOf em.mem other index)) :
    slotsOf (queuePush sizes em side desc attr).1.mem other index = slotsOf em.mem other index := by
  rcases queuePush_cases h desc attr with heq | ⟨hroom, heq⟩
  · rw [heq]
  · have hslot : (em.pushed side).length % sizes.bdNumMax side < 64 :=
      (Nat.mod_lt _ (EmacSizes.bdNumMax_pos sizes side)).trans_le (EmacSizes.bdNumMax_le sizes side)
    rw [heq]
    dsimp only
    rw [slotsOf_putBd hslot]
    by_cases hside : other = side
    · subst hside
      rw [if_pos rfl]
      by_cases hindex : index = (em.pushed other).length % sizes.bdNumMax other
      · subst hindex
        exact absurd howned (h.ring.not_owned_next hroom)
      · rw [Function.update_of_ne hindex]
    · rw [if_neg hside]

theorem ringsKept_step {e : Event} (h : Inv sizes em) (hstep : em.step sizes e = some em') :
    RingsKept sizes em e em' := by
  have hnext := h.step hstep
  refine ⟨fun side => ?_, fun side => ?_, fun hdriver side index howned => ?_, ?_⟩
  · obtain ⟨head, hring⟩ := hnext.rings side
    have hroom := hring.ring.room
    rw [hring.used]
    omega
  · obtain ⟨head, hring⟩ := hnext.rings side
    rw [hring.reported]
    exact (List.take_prefix _ _).map _
  · cases e with
    | txPush desc =>
      cases hstep
      obtain ⟨head, hring⟩ := h.rings .tx
      exact push_untouched hring desc _ howned
    | rxPush desc =>
      cases hstep
      obtain ⟨head, hring⟩ := h.rings .rx
      exact push_untouched hring desc _ howned
    | complete side status => exact absurd rfl (hdriver side status)
    | rxBusy =>
      cases hstep
      rfl
    | isr =>
      simp only [step] at hstep
      split at hstep
      · cases hstep
        rw [bflbEmacIsr_mem]
      · cases hstep
    | isrNext =>
      have hmem : em'.mem = em.mem := isrNext_mem hstep
      rw [hmem]
  · intro hidle side hquiet k desc hk hitem hwants
    obtain ⟨head, hring⟩ := hnext.rings side
    have hlt := hring.covered hquiet k desc hk hitem hwants
    have hhead : head ≤ (em'.pushed side).length := hring.ring.head_le.trans hring.ring.done_le
    have hzero : roundsLeft em'.isr side = 0 := by
      rw [hidle]
      cases side <;> rfl
    rw [hring.reported, List.length_map, List.length_take_of_le hhead]
    omega

/-! ## The ring as a queue -/

/-- What is pushed and not reported yet, oldest first. -/
def window (em : Emac) (side : EmacSide) : List (BitVec 32) :=
  ((em.pushed side).drop (em.reported side).length).map (·.buffAddr)

theorem RingInv.window (h : RingInv sizes em side head) :
    em.window side = ((em.pushed side).drop head).map (·.buffAddr) := by
  have hle : head ≤ (em.pushed side).length := h.ring.head_le.trans h.ring.done_le
  unfold Emac.window
  rw [h.reported, List.length_map, List.length_take_of_le hle]

/-- A push appends unless the ring is full. -/
theorem window_push (h : Inv sizes em) (side : EmacSide) (desc : BflbEmacTransDesc) :
    (queuePush sizes em side desc (attrOf sizes side · desc)).1.window side =
      if (em.window side).length < sizes.bdNumMax side then em.window side ++ [desc.buffAddr]
      else em.window side := by
  obtain ⟨head, hring⟩ := h.rings side
  have hle : head ≤ (em.pushed side).length := hring.ring.head_le.trans hring.ring.done_le
  rw [(hring.push desc).window, hring.window, List.length_map, List.length_drop]
  unfold queuePush
  dsimp only
  rw [hring.used]
  by_cases hfull : sizes.bdNumMax side ≤ (em.pushed side).length - head
  · rw [if_pos hfull, if_neg (Nat.not_lt.mpr hfull)]
  · rw [if_neg hfull, if_pos (Nat.not_le.mp hfull)]
    dsimp only
    rw [Function.update_self, List.drop_append_of_le_length hle, List.map_append]
    rfl

/-- A round of the handler takes the oldest one off and reports it. -/
theorem window_round (h : Inv sizes em) (hwindow : em.window side ≠ [])
    (hround : em.isrRound sizes side = some em') :
    ∃ event report, em'.reports = em.reports ++ [(event, some report)] ∧
      sideOf event = some side ∧ em.window side = report.buffAddr :: em'.window side := by
  obtain ⟨head, hring⟩ := h.rings side
  rw [hring.window] at hwindow
  have hin : head < (em.pushed side).length := by
    rcases Nat.lt_or_ge head (em.pushed side).length with hlt | hge
    · exact hlt
    · rw [List.drop_of_length_le hge] at hwindow
      exact absurd rfl hwindow
  rcases isrRound_cases hring h.attached hin with ⟨hnone, -⟩ |
    ⟨desc, event, report, hitem, hback, hevent, haddr, hsome⟩
  · cases hnone.symm.trans hround
  · have hem := Option.some.inj (hround.symm.trans hsome)
    have hreports : em'.reports = em.reports ++ [(event, some report)] := by rw [hem]
    have hpushed : em'.pushed = em.pushed := by rw [hem]
    refine ⟨event, report, hreports, hevent, ?_⟩
    obtain ⟨hin', heq⟩ := List.getElem?_eq_some_iff.mp hitem
    unfold window
    rw [reported_append hevent hreports, if_pos rfl, List.length_append, List.length_singleton,
      hring.reported, List.length_map, List.length_take_of_le hin.le, hpushed,
      List.drop_eq_getElem_cons hin, heq, List.map_cons, haddr]

/-! ## Cleaning -/

/-- Cleaning clears the sending ring only. -/
theorem slotsOf_cleanBd (mem : Nat → BitVec 32) (side : EmacSide) :
    slotsOf (cleanBd mem) side = match side with
      | .tx => fun _ => (0, 0)
      | .rx => slotsOf mem .rx := by
  funext index
  unfold slotsOf
  by_cases hindex : index < 64
  · cases side with
    | tx =>
      have hword : bdWord .tx index = 2 * index := rfl
      have hlow : bdWord .tx index + 1 < 128 := by omega
      simp [hindex, cleanBd, hlow, Nat.lt_of_succ_lt hlow]
    | rx =>
      have hword : bdWord .rx index = 2 * (index + 64) := rfl
      have hhigh : ¬ bdWord .rx index < 128 := by omega
      have hhigh' : ¬ bdWord .rx index + 1 < 128 := by omega
      simp [hindex, cleanBd, hhigh, hhigh']
  · cases side <;> simp [hindex]

theorem noneOwned_clean_iff (h : Inv sizes em) (hmem : em'.mem = cleanBd em.mem) :
    NoneOwned sizes em' ↔ em.done .rx = (em.pushed .rx).length := by
  obtain ⟨head, hring⟩ := h.rings .rx
  rw [← hring.ring.none_owned_iff]
  unfold NoneOwned
  rw [hmem]
  constructor
  · intro hnone index hindex howned
    refine hnone .rx index hindex ?_
    rw [slotsOf_cleanBd]
    exact howned
  · intro hnone side index hindex howned
    rw [slotsOf_cleanBd] at howned
    cases side with
    | tx =>
      have hzero : (0 : BitVec 32).getLsbD emacBdOwnedShift = true := howned
      exact absurd hzero (by decide)
    | rx => exact hnone index hindex howned

/-- Every run keeps the rings, and cleaning or shutting down afterwards leaves the engine
nothing exactly if it has given back every receive buffer before. -/
theorem descriptor_rings (sizes : EmacSizes) (events : List Event) :
    (Along (step sizes) (RingsKept sizes) bflbEmacInit.bflbEmacIrqAttach events ∧
      ∀ em, run (step sizes) bflbEmacInit.bflbEmacIrqAttach events = some em →
        NoneOwned sizes em.bflbEmacBdCtrlClean ∧ NoneOwned sizes em.bflbEmacDeinit) ↔
    ∀ em, run (step sizes) bflbEmacInit.bflbEmacIrqAttach events = some em →
      em.done .rx = (em.pushed .rx).length := by
  have hkeep : ∀ em e em', Inv sizes em → step sizes em e = some em' → True →
      RingsKept sizes em e em' ∧ Inv sizes em' :=
    fun em e em' h hstep _ => ⟨ringsKept_step h hstep, h.step hstep⟩
  have hinv : ∀ em, run (step sizes) bflbEmacInit.bflbEmacIrqAttach events = some em →
      Inv sizes em := fun em hrun =>
    inv_of_run (fun _ _ _ h hstep => h.step hstep) (inv_init sizes) hrun
  constructor
  · rintro ⟨-, hclean⟩ em hrun
    exact (noneOwned_clean_iff (hinv em hrun) rfl).mp (hclean em hrun).1
  · intro hback
    refine ⟨along_of_invariant hkeep (inv_init sizes) (along_true events), fun em hrun => ?_⟩
    have hiff := hback em hrun
    exact ⟨(noneOwned_clean_iff (hinv em hrun) rfl).mpr hiff,
      (noneOwned_clean_iff (hinv em hrun) rfl).mpr hiff⟩

/-- The rings of the driver as it is built by default. -/
def fullSizes : EmacSizes where
  log _ := 6
  log_le _ := Nat.le_refl 6

/-- One receive buffer that the engine still waits to fill. -/
theorem receive_buffer_survives_clean :
    ¬ ∀ (sizes : EmacSizes) (events : List Event),
      Along (step sizes) (RingsKept sizes) bflbEmacInit.bflbEmacIrqAttach events ∧
        ∀ em, run (step sizes) bflbEmacInit.bflbEmacIrqAttach events = some em →
          NoneOwned sizes em.bflbEmacBdCtrlClean ∧ NoneOwned sizes em.bflbEmacDeinit := by
  intro h
  have hclean := (h fullSizes [.rxPush ⟨0x1000, 0, 0, 0⟩]).2 _ rfl
  exact hclean.1 .rx 0 (by decide) (by unfold Owned; decide +kernel)

end BouffaloSdk.Emac
