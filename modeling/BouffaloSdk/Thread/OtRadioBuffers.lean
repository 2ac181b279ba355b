import BouffaloSdk.Kit.Bitmap
import BouffaloSdk.Thread.OtRadio

/-!
# Where the receive buffers are

Every buffer is free, received or with the stack's task, and the frames reach
OpenThread in the order they arrived, as long as nobody asks whether the stack
is idle while a frame waits: the question takes the frame's buffer away.
-/

namespace BouffaloSdk.OtRadio
open Kit Kit.Runs

def cells (bufs : List Nat) : List Addr := bufs.map .buff

/-- Each buffer is in one place. -/
def Placed (n : Nat) (s : State) : Prop :=
  ∃ free received, Dlist s.dlist .frameList (cells free) ∧
    Dlist s.dlist .rxFrameList (cells received) ∧
    (free ++ received ++ delivering s.pc).Perm (List.range n)

/-- The task alone can hand over what has arrived. -/
def Deliverable (s : State) : Prop :=
  ∃ k t, run step s (List.replicate k .task) = some t ∧ delivered t = s.arrived

structure Good (n : Nat) (_ : State) (_ : Event) (t : State) : Prop where
  placed : Placed n t
  inOrder : delivered t <+: t.arrived
  deliverable : Deliverable t

/-- Nobody asks whether the stack is idle while a frame waits. -/
def Safe (s : State) (e : Event) (_ : State) : Prop :=
  ∀ radioState, e = .isStackIdle radioState → s.dlist.isEmpty .rxFrameList = true

/-- The frame of a buffer that the task has yet to deliver. -/
def undelivered (s : State) : List Frame :=
  match s.pc with
  | .deliver buf => [s.frame buf]
  | .idle | .start _ | .release _ | .check => []

/-- The task will look for a received frame. -/
def Awake (s : State) : Prop :=
  s.systemEvent &&& radioRxDone ≠ 0 ∨
    match s.pc with
    | .idle => False
    | .start trxEvent => trxEvent &&& radioRxDone ≠ 0
    | .deliver _ | .release _ | .check => True

structure Holds (n : Nat) (s : State) (free received : List Nat) : Prop where
  freeList : Dlist s.dlist .frameList (cells free)
  rxList : Dlist s.dlist .rxFrameList (cells received)
  pool : (free ++ received ++ delivering s.pc).Perm (List.range n)
  order : s.arrived = delivered s ++ undelivered s ++ received.map s.frame

def Inv (n : Nat) (s : State) : Prop :=
  ∃ free received, Holds n s free received ∧ (received ≠ [] → Awake s)

variable {n i : Nat} {s t : State} {free received bufs : List Nat} {frame : Frame} {e : Event}

/-! ## Lists and flags -/

theorem buff_mem_cells : Addr.buff i ∈ cells bufs ↔ i ∈ bufs := by
  simp [cells]

theorem cells_disjoint (h : List.Disjoint free received) :
    List.Disjoint (.frameList :: cells free) (.rxFrameList :: cells received) := by
  intro x hfree hrx
  cases x with
  | frameList => simp [cells] at hrx
  | rxFrameList => simp [cells] at hfree
  | buff i =>
    have hi : i ∈ free := by simpa [cells] using hfree
    exact h hi (by simpa [cells] using hrx)

theorem cells_injective {bufs' : List Nat} (h : cells bufs = cells bufs') : bufs = bufs' :=
  List.map_injective_iff.mpr (fun _ _ heq => Addr.buff.inj heq) h

theorem rxDone_set (v : BitVec 32) : (v ||| radioRxDone) &&& radioRxDone ≠ 0 := by
  have hmask : radioRxDone = Bitmap.mask 13 := by decide
  rw [hmask, Ne, Bitmap.and_mask_eq_zero]
  simp [Bitmap.mask]

theorem rxDone_kept {v : BitVec 32} (h : v &&& radioRxDone ≠ 0) (more : BitVec 32) :
    (v ||| more) &&& radioRxDone ≠ 0 := by
  have hmask : radioRxDone = Bitmap.mask 13 := by decide
  rw [hmask, Ne, Bitmap.and_mask_eq_zero] at h ⊢
  rw [BitVec.getLsbD_or]
  intro hor
  exact h (Bool.or_eq_false_iff.mp hor).1

theorem rxDone_of_mask {v : BitVec 32} (h : v &&& radioRxDone ≠ 0) : v &&& radioAllMask ≠ 0 := by
  intro hall
  apply h
  have hsub : radioRxDone = radioAllMask &&& radioRxDone := by decide
  rw [hsub, ← BitVec.and_assoc, hall]
  exact BitVec.zero_and

/-! ## The parts of a step -/

namespace Holds

theorem nodup (h : Holds n s free received) : (free ++ received ++ delivering s.pc).Nodup :=
  h.pool.nodup_iff.mpr List.nodup_range

theorem disjoint (h : Holds n s free received) : List.Disjoint free received :=
  (List.nodup_append'.mp (List.nodup_append'.mp h.nodup).1).2.2

theorem isEmpty_iff (h : Holds n s free received) :
    s.dlist.isEmpty .rxFrameList = true ↔ received = [] := by
  rw [h.rxList.isEmpty_iff, cells, List.map_eq_nil_iff]

theorem takeReceived_nil (h : Holds n s free []) : takeReceived s = (none, s) := by
  rw [takeReceived, if_pos (h.isEmpty_iff.mpr rfl)]

theorem takeReceived_cons (h : Holds n s free (i :: received)) :
    takeReceived s = (some i, { s with dlist := s.dlist.del (.buff i) }) := by
  have hfull : ¬ s.dlist.isEmpty .rxFrameList = true := fun hempty => by
    cases h.isEmpty_iff.mp hempty
  have hnext : s.dlist.next .rxFrameList = .buff i := h.rxList.next_head
  rw [takeReceived, if_neg hfull, hnext]

theorem del (h : Holds n s free (i :: received)) :
    Dlist (s.dlist.del (.buff i)) .frameList (cells free) ∧
      Dlist (s.dlist.del (.buff i)) .rxFrameList (cells received) :=
  ⟨h.freeList.del_head_other h.rxList (cells_disjoint h.disjoint), h.rxList.del_head⟩

theorem placed (h : Holds n s free received) : Placed n s :=
  ⟨free, received, h.freeList, h.rxList, h.pool⟩

theorem inOrder (h : Holds n s free received) : delivered s <+: s.arrived := by
  rw [h.order, List.append_assoc]
  exact List.prefix_append _ _

theorem idle_pc (h : Holds n s free received) (hnone : delivering s.pc = [])
    (hsaid : undelivered s = []) : Holds n { s with pc := .idle } free received := by
  refine ⟨h.freeList, h.rxList, ?_, ?_⟩
  · have hpool := h.pool
    rw [hnone] at hpool
    exact hpool
  · have horder := h.order
    rw [hsaid] at horder
    exact horder

/-- What the task does with OpenThread's transmissions changes nothing here. -/
theorem otRadioTaskTx (h : Holds n s free received) (trxEvent : BitVec 32) :
    Holds n (otRadioTaskTx s trxEvent) free received ∧
      (OtRadio.otRadioTaskTx s trxEvent).pc = s.pc ∧
      (OtRadio.otRadioTaskTx s trxEvent).systemEvent = s.systemEvent ∧
      (OtRadio.otRadioTaskTx s trxEvent).arrived = s.arrived := by
  unfold OtRadio.otRadioTaskTx
  split
  · split
    · split
      · rename_i frame _ _ _ ack err _
        refine ⟨⟨h.freeList, h.rxList, h.pool, ?_⟩, rfl, rfl, rfl⟩
        have htold : delivered { s with
            pTxFrame := none, calls := s.calls ++ [.txDone frame ack err] } = delivered s := by
          simp [delivered]
        rw [htold]
        exact h.order
      · exact ⟨⟨h.freeList, h.rxList, h.pool, h.order⟩, rfl, rfl, rfl⟩
    · exact ⟨h, rfl, rfl, rfl⟩
  · exact ⟨h, rfl, rfl, rfl⟩

theorem otrNotifyEvent (h : Holds n s free received) (sevent : BitVec 32) :
    Holds n (otrNotifyEvent s sevent) free received :=
  ⟨h.freeList, h.rxList, h.pool, h.order⟩

/-- The first received buffer is taken out to be delivered. -/
theorem take (h : Holds n s free (i :: received)) (hidle : s.pc = .idle) :
    Holds n { s with dlist := s.dlist.del (.buff i), pc := .deliver i } free received := by
  obtain ⟨hfree, hrx⟩ := h.del
  refine ⟨hfree, hrx, ?_, ?_⟩
  · have hpool := h.pool
    rw [hidle] at hpool
    refine List.Perm.trans ?_ hpool
    simp only [delivering, List.append_nil, List.append_assoc]
    exact (List.perm_append_singleton i received).append_left free
  · have horder := h.order
    simp only [undelivered, hidle, List.append_nil, List.map_cons] at horder ⊢
    rw [horder, List.append_assoc]
    rfl

/-- The task starts on an event: it takes the first received buffer if there is one
and the event says so. -/
theorem otRadioTask (h : Holds n s free received) (hidle : s.pc = .idle) (trxEvent : BitVec 32) :
    (OtRadio.otRadioTask s trxEvent).arrived = s.arrived ∧
      (OtRadio.otRadioTask s trxEvent).systemEvent = s.systemEvent ∧
      ((trxEvent &&& radioRxDone = 0 ∨ received = []) ∧
          Holds n (otRadioTask s trxEvent) free received ∧
          (OtRadio.otRadioTask s trxEvent).pc = .idle ∨
        ∃ i received', received = i :: received' ∧
          Holds n (otRadioTask s trxEvent) free received' ∧
          (OtRadio.otRadioTask s trxEvent).pc = .deliver i) := by
  have hpc : { s with pc := Pc.idle } = s := by
    rw [← hidle]
  unfold OtRadio.otRadioTask
  simp only [hpc]
  obtain ⟨htx, hkept, hevent, harrived⟩ := h.otRadioTaskTx trxEvent
  rw [hidle] at hkept
  by_cases hmask : trxEvent &&& radioAllMask = 0
  · have hquiet : trxEvent &&& radioRxDone = 0 := by
      by_contra hset
      exact rxDone_of_mask hset hmask
    rw [if_pos hmask]
    exact ⟨rfl, rfl, .inl ⟨.inl hquiet, h, hidle⟩⟩
  · rw [if_neg hmask]
    by_cases hdone : trxEvent &&& radioRxDone = 0
    · rw [if_neg (not_not.mpr hdone)]
      split
      · refine ⟨harrived, hevent, .inl ⟨.inl hdone, ?_, hkept⟩⟩
        refine ⟨htx.freeList, htx.rxList, htx.pool, ?_⟩
        have htold : delivered { OtRadio.otRadioTaskTx s trxEvent with
            calls := (OtRadio.otRadioTaskTx s trxEvent).calls ++
              [.receiveDone none .otErrorNoBufs] } =
            delivered (OtRadio.otRadioTaskTx s trxEvent) := by
          simp [delivered]
        rw [htold]
        exact htx.order
      · exact ⟨harrived, hevent, .inl ⟨.inl hdone, htx, hkept⟩⟩
    · rw [if_pos hdone]
      cases received with
      | nil =>
        rw [htx.takeReceived_nil]
        exact ⟨harrived, hevent, .inl ⟨.inr rfl, htx, hkept⟩⟩
      | cons i received =>
        rw [htx.takeReceived_cons]
        exact ⟨harrived, hevent, .inr ⟨i, received, rfl, htx.take hkept, rfl⟩⟩

/-- OpenThread is told of the frame. -/
theorem deliver (h : Holds n s free received) (hpc : s.pc = .deliver i) :
    Holds n { s with
      calls := s.calls ++ [.receiveDone (some (s.frame i)) .otErrorNone]
      pc := .release i } free received := by
  refine ⟨h.freeList, h.rxList, ?_, ?_⟩
  · have hpool := h.pool
    rw [hpc] at hpool
    exact hpool
  · have horder := h.order
    simp only [undelivered, hpc] at horder ⊢
    rw [horder]
    simp [delivered]

/-- The buffer is free again. -/
theorem release (h : Holds n s free received) (hpc : s.pc = .release i) :
    Holds n { s with dlist := s.dlist.addTail (.buff i) .frameList, pc := .check }
      (free ++ [i]) received := by
  have hnodup := h.nodup
  rw [hpc] at hnodup
  have hout : i ∉ free ++ received := fun hmem =>
    (List.nodup_append'.mp hnodup).2.2 hmem (List.mem_singleton.mpr rfl)
  rw [List.mem_append, not_or] at hout
  have hrx : Addr.buff i ∉ Addr.rxFrameList :: cells received := by
    rw [List.mem_cons, buff_mem_cells, not_or]
    exact ⟨nofun, hout.2⟩
  refine ⟨?_, ?_, ?_, ?_⟩
  · rw [cells, List.map_append]
    exact h.freeList.addTail nofun (buff_mem_cells.not.mpr hout.1)
  · exact h.rxList.addTail_other h.freeList hrx (List.disjoint_symm (cells_disjoint h.disjoint))
  · have hpool := h.pool
    rw [hpc] at hpool
    refine List.Perm.trans ?_ hpool
    simp only [delivering, List.append_nil, List.append_assoc]
    exact List.perm_append_comm.append_left free
  · have horder := h.order
    simp only [undelivered, hpc] at horder ⊢
    exact horder

/-- A frame comes into the first free buffer. -/
theorem receive (h : Holds n s (i :: free) received) (frame : Frame) :
    Holds n { s with
      dlist := (s.dlist.del (.buff i)).addTail (.buff i) .rxFrameList
      frame := Function.update s.frame i frame
      arrived := s.arrived ++ [frame] } free (received ++ [i]) := by
  have hnodup := h.nodup
  rw [List.append_assoc, List.cons_append, List.nodup_cons, List.mem_append, List.mem_append,
    not_or, not_or] at hnodup
  obtain ⟨⟨hfree, hrx, htask⟩, hrest⟩ := hnodup
  have hdel : Dlist (s.dlist.del (.buff i)) .frameList (cells free) := h.freeList.del_head
  have hdel' : Dlist (s.dlist.del (.buff i)) .rxFrameList (cells received) :=
    h.rxList.del_head_other h.freeList (List.disjoint_symm (cells_disjoint h.disjoint))
  have hother : Addr.buff i ∉ Addr.frameList :: cells free := by
    rw [List.mem_cons, buff_mem_cells, not_or]
    exact ⟨nofun, hfree⟩
  have hapart : List.Disjoint free received := (List.disjoint_cons_left.mp h.disjoint).2
  refine ⟨?_, ?_, ?_, ?_⟩
  · exact hdel.addTail_other hdel' hother (cells_disjoint hapart)
  · rw [cells, List.map_append]
    exact hdel'.addTail nofun (buff_mem_cells.not.mpr hrx)
  · refine List.Perm.trans ?_ h.pool
    simp only [List.append_assoc, List.cons_append, List.nil_append]
    exact (List.perm_middle.append_left free).trans List.perm_middle
  · have hsame : ∀ bufs : List Nat, i ∉ bufs →
        bufs.map (Function.update s.frame i frame) = bufs.map s.frame := by
      intro bufs hout
      refine List.map_congr_left fun b hb => Function.update_of_ne ?_ _ _
      intro heq
      exact hout (heq ▸ hb)
    have hsaid : undelivered { s with
        dlist := (s.dlist.del (.buff i)).addTail (.buff i) .rxFrameList
        frame := Function.update s.frame i frame
        arrived := s.arrived ++ [frame] } = undelivered s := by
      unfold undelivered
      cases hpc : s.pc with
      | deliver b =>
        have hb : i ∉ [b] := by
          rw [hpc] at htask
          exact htask
        exact hsame [b] hb
      | idle | start _ | release _ | check => rfl
    have hnew : [i].map (Function.update s.frame i frame) = [frame] := by
      rw [List.map_singleton, Function.update_self]
    simp only [hsaid]
    rw [List.map_append, hsame received hrx, hnew, h.order]
    simp only [List.append_assoc]
    rfl

end Holds

/-! ## Steps and runs -/

/-- How much the task has left to do. -/
def work (pc : Pc) (received : List Nat) : Nat :=
  5 * received.length + match pc with
    | .idle => 2
    | .start trxEvent => if trxEvent &&& radioRxDone = 0 then 3 else 1
    | .deliver _ => 5
    | .release _ => 4
    | .check => 3

/-- The task keeps the buffers together and gets on with what there is. -/
theorem Holds.taskStep (h : Holds n s free received) (awake : received ≠ [] → Awake s) :
    (taskStep s).arrived = s.arrived ∧
      ∃ free' received', Holds n (OtRadio.taskStep s) free' received' ∧
        (received' ≠ [] → Awake (OtRadio.taskStep s)) ∧
        (received ≠ [] ∨ undelivered s ≠ [] →
          work (OtRadio.taskStep s).pc received' < work s.pc received) := by
  unfold OtRadio.taskStep
  cases hpc : s.pc with
  | idle =>
    have hset : received ≠ [] → s.systemEvent &&& radioRxDone ≠ 0 := by
      intro hfull
      simpa [Awake, hpc] using awake hfull
    refine ⟨rfl, free, received, ⟨h.freeList, h.rxList, ?_, ?_⟩, fun hfull => .inr (hset hfull), ?_⟩
    · have hpool := h.pool
      rw [hpc] at hpool
      exact hpool
    · have horder := h.order
      simp only [undelivered, hpc] at horder ⊢
      exact horder
    · intro hsome
      have hfull : received ≠ [] := by
        simpa [undelivered, hpc] using hsome
      simp only [work, if_neg (hset hfull)]
      omega
  | start trxEvent =>
    have hstart : Holds n { s with pc := .idle } free received :=
      h.idle_pc (by rw [hpc]; rfl) (by rw [undelivered, hpc])
    obtain ⟨harrived, hevent, hnext⟩ := hstart.otRadioTask rfl trxEvent
    have hsame : OtRadio.otRadioTask { s with pc := .idle } trxEvent =
        OtRadio.otRadioTask s trxEvent := rfl
    rw [hsame] at harrived hevent hnext
    refine ⟨harrived, ?_⟩
    cases hnext with
    | inl hstay =>
      obtain ⟨hwhy, hholds, hidle⟩ := hstay
      refine ⟨free, received, hholds, ?_, ?_⟩
      · intro hfull
        have hquiet := hwhy.resolve_right hfull
        cases awake hfull with
        | inl hset =>
          left
          rw [hevent]
          exact hset
        | inr hset =>
          rw [hpc] at hset
          exact absurd hquiet hset
      · intro hsome
        have hfull : received ≠ [] := by
          simpa [undelivered, hpc] using hsome
        simp only [work, hidle, if_pos (hwhy.resolve_right hfull)]
        omega
    | inr htake =>
      obtain ⟨i, received', rfl, hholds, hdeliver⟩ := htake
      refine ⟨free, received', hholds, fun _ => .inr ?_, fun _ => ?_⟩
      · rw [hdeliver]
        trivial
      · have hweight : 0 < if trxEvent &&& radioRxDone = 0 then 3 else 1 := by
          split <;> decide
        rw [hdeliver, work, work, List.length_cons]
        omega
  | deliver i =>
    refine ⟨rfl, free, received, h.deliver hpc, fun _ => .inr trivial, fun _ => ?_⟩
    simp only [work]
    omega
  | release i =>
    refine ⟨rfl, free ++ [i], received, h.release hpc, fun _ => .inr trivial, fun _ => ?_⟩
    simp only [work]
    omega
  | check =>
    have hidle : Holds n { s with pc := .idle } free received :=
      h.idle_pc (by rw [hpc]; rfl) (by rw [undelivered, hpc])
    simp only
    split
    · rename_i hempty
      have hnil := hidle.isEmpty_iff.mp hempty
      refine ⟨rfl, free, received, hidle, fun hfull => absurd hnil hfull, fun _ => ?_⟩
      simp only [work]
      omega
    · refine ⟨rfl, free, received, hidle.otrNotifyEvent _, fun _ => .inl (rxDone_set _), fun _ => ?_⟩
      simp only [work, OtRadio.otrNotifyEvent]
      omega

/-- The task alone hands over what has arrived, in order. -/
theorem Inv.deliverable (h : Inv n s) : Deliverable s := by
  obtain ⟨free, received, h, awake⟩ := h
  induction hwork : work s.pc received using Nat.strongRecOn generalizing s free received with
  | ind m ih =>
    by_cases hsome : received ≠ [] ∨ undelivered s ≠ []
    · obtain ⟨harrived, free', received', hnext, hawake, hless⟩ := h.taskStep awake
      obtain ⟨k, t, hrun, hall⟩ := ih _ (hwork ▸ hless hsome) _ _ hnext hawake rfl
      refine ⟨k + 1, t, ?_, hall.trans harrived⟩
      rw [List.replicate_succ]
      exact hrun
    · obtain ⟨hnil, hsaid⟩ := not_or.mp hsome
      refine ⟨0, s, rfl, ?_⟩
      have horder := h.order
      rw [not_not.mp hnil, not_not.mp hsaid] at horder
      rw [horder]
      simp

theorem Inv.good (h : Inv n t) : Good n s e t := by
  have hdeliverable := h.deliverable
  obtain ⟨free, received, h, -⟩ := h
  exact ⟨h.placed, h.inOrder, hdeliverable⟩

theorem Holds.receive_eq (h : Holds n s free received) (hs : OtRadio.receive s frame = some t) :
    ∃ i free', free = i :: free' ∧ t = OtRadio.otrNotifyEvent { s with
      dlist := (s.dlist.del (.buff i)).addTail (.buff i) .rxFrameList
      frame := Function.update s.frame i frame
      arrived := s.arrived ++ [frame] } radioRxDone := by
  cases free with
  | nil =>
    have hnext : s.dlist.next .frameList = .frameList := h.freeList.next_head
    rw [OtRadio.receive, hnext] at hs
    cases hs
  | cons i free =>
    have hnext : s.dlist.next .frameList = .buff i := h.freeList.next_head
    rw [OtRadio.receive, hnext] at hs
    cases hs
    exact ⟨i, free, rfl, rfl⟩

theorem Inv.step (h : Inv n s) (hs : step s e = some t) (safe : Safe s e t) : Inv n t := by
  obtain ⟨free, received, h, awake⟩ := h
  cases e with
  | receive frame =>
    obtain ⟨i, free', rfl, rfl⟩ := h.receive_eq hs
    exact ⟨free', received ++ [i], (h.receive frame).otrNotifyEvent _, fun _ => .inl (rxDone_set _)⟩
  | notify sevent =>
    cases hs
    refine ⟨free, received, h.otrNotifyEvent sevent, fun hfull => ?_⟩
    cases awake hfull with
    | inl hset => exact .inl (rxDone_kept hset sevent)
    | inr hpc => exact .inr hpc
  | transmit frame =>
    simp only [OtRadio.step] at hs
    split at hs
    · cases hs
      exact ⟨free, received, ⟨h.freeList, h.rxList, h.pool, h.order⟩, awake⟩
    · cases hs
  | task =>
    cases hs
    obtain ⟨-, free', received', hnext, hawake, -⟩ := h.taskStep awake
    exact ⟨free', received', hnext, hawake⟩
  | isStackIdle radioState =>
    cases hs
    have hnil := h.isEmpty_iff.mp (safe radioState rfl)
    subst hnil
    rw [otrIsStackIdle, h.takeReceived_nil]
    exact ⟨free, [], h, awake⟩

/-- The question takes a waiting frame's buffer away. -/
theorem Inv.lost {radioState : RadioState} (h : Inv n s)
    (hwaits : ¬ s.dlist.isEmpty .rxFrameList = true) :
    ¬ Placed n (otrIsStackIdle s radioState).2 := by
  obtain ⟨free, received, h, -⟩ := h
  cases received with
  | nil => exact absurd (h.isEmpty_iff.mpr rfl) hwaits
  | cons i received =>
    rw [otrIsStackIdle, h.takeReceived_cons]
    rintro ⟨free', received', hfree', hrx', hpool'⟩
    obtain ⟨hfree, hrx⟩ := h.del
    have hsameFree := cells_injective (hfree'.unique hfree)
    have hsameRx := cells_injective (hrx'.unique hrx)
    subst hsameFree hsameRx
    have hlength := hpool'.length_eq.trans h.pool.length_eq.symm
    simp only [List.length_append, List.length_cons] at hlength
    omega

theorem good_iff_safe (h : Inv n s) (hs : step s e = some t) : Good n s e t ↔ Safe s e t := by
  constructor
  · intro hgood radioState heq
    subst heq
    cases hs
    by_contra hwaits
    exact h.lost hwaits hgood.placed
  · intro hsafe
    exact (h.step hs hsafe).good

theorem addBuffers_lists {m : Links Addr} (hfree : Dlist m .frameList [])
    (hrx : Dlist m .rxFrameList []) (n : Nat) :
    Dlist (addBuffers m n) .frameList (cells (List.range n)) ∧
      Dlist (addBuffers m n) .rxFrameList (cells []) := by
  induction n with
  | zero => exact ⟨hfree, hrx⟩
  | succ n ih =>
    obtain ⟨hfree, hrx⟩ := ih
    have hapart : List.Disjoint (.frameList :: cells (List.range n)) (.rxFrameList :: cells []) :=
      cells_disjoint (List.disjoint_nil_right _)
    refine ⟨?_, hrx.addTail_other hfree (by simp [cells]) (List.disjoint_symm hapart)⟩
    rw [List.range_succ, cells, List.map_append]
    exact hfree.addTail nofun (buff_mem_cells.not.mpr (by simp))

theorem inv_init (n : Nat) (m : Links Addr) : Inv n (otRadioInit n m) := by
  have hrx : Dlist ((m.init .frameList).init .rxFrameList) .rxFrameList [] := Dlist.init _ _
  have hfree : Dlist ((m.init .frameList).init .rxFrameList) Addr.frameList [] := by
    have hother : ∀ f : Addr → Addr,
        Function.update f .rxFrameList .rxFrameList Addr.frameList = f .frameList := fun f =>
      Function.update_of_ne (by decide) _ _
    refine (Dlist.init m Addr.frameList).congr ?_ ?_
    · intro x hx
      rw [List.mem_singleton.mp hx]
      exact hother _
    · intro x hx
      rw [List.mem_singleton.mp hx]
      exact hother _
  obtain ⟨hfree, hrx⟩ := addBuffers_lists hfree hrx n
  refine ⟨List.range n, [], ⟨hfree, hrx, ?_, rfl⟩, fun hfull => absurd rfl hfull⟩
  simp [otRadioInit, delivering]

/-- From the start of the radio on, the buffers stay together and the frames get through
exactly as long as nobody asks for the stack's idleness while a frame waits. -/
theorem received_iff_not_asked (n : Nat) (m : Links Addr) (events : List Event) :
    Along step (Good n) (otRadioInit n m) events ↔ Along step Safe (otRadioInit n m) events :=
  along_iff_of_invariant (fun _ _ _ h hs => good_iff_safe h hs)
    (fun _ _ _ h hs hsafe => h.step hs hsafe) (inv_init n m)

/-- A frame arrives and somebody asks before the task runs. -/
theorem buffer_lost_when_asked : ¬ ∀ (n : Nat) (m : Links Addr) (events : List Event),
    Along step (Good n) (otRadioInit n m) events := by
  intro hall
  have hgood := hall 1 ⟨id, id⟩ [.receive [], .isStackIdle .sleep] _ rfl
  have hinv : Inv 1 _ := (inv_init 1 ⟨id, id⟩).step (e := .receive []) rfl nofun
  exact hinv.lost (by decide) (hgood.2 _ rfl).1.placed

end BouffaloSdk.OtRadio
