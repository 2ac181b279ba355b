import BouffaloSdk.HostRouter.RnmClient

/-!
# Runs of the network manager's client

Which runs keep every call to its own slot, its own acknowledgement and its own
buffer.
-/

namespace BouffaloSdk.HostRouter.RnmClient

open Kit.Runs

variable {more : Nat} {w t : World} {e : Event} {c : Nat} {i : Fin rnmcCmdRpcWaitSlotCnt}
  {session : UInt16} {cmd : Option Packet} {nomem : Bool} {events : List Event}

/-- The slot and the session id of a call that has taken a slot and not returned. -/
def CallState.on : CallState → Option (Fin rnmcCmdRpcWaitSlotCnt × UInt16)
  | .waiting i session | .expired i session => some (i, session)
  | .idle | .returned _ => none

/-- The slot belongs to call `c`. -/
def World.Holds (w : World) (c : Nat) (i : Fin rnmcCmdRpcWaitSlotCnt) : Prop :=
  (w.rnm.waitSlots i).used = true ∧ (w.rnm.waitSlots i).resp = some c

/-- The buffer holds an acknowledgement with this session id. -/
def Answered (buffer : Option RnmMsg) (session : UInt16) : Prop :=
  ∃ msg, buffer = some msg ∧ isAck msg = true ∧ msg.cmd.sessionId = session

/-- The task is about to handle an acknowledgement with the session id of call `c`. -/
def World.AckNext (w : World) (e : Event) (c : Nat) : Prop :=
  e = .task ∧ ∃ msg i, w.rnm.cmdMsgQueue.head? = some msg ∧ isAck msg = true ∧
    (w.calls c).on = some (i, msg.cmd.sessionId)

/-- What one step may do to the calls. -/
structure Correlated (w : World) (e : Event) (t : World) : Prop where
  /-- A call returns `RNMC_OK` only with an answer to its own session. -/
  returns : ∀ c, w.calls c ≠ .returned .ok → t.calls c = .returned .ok →
    ∃ i session, (w.calls c).on = some (i, session) ∧ Answered (t.resp c) session
  /-- Only its own call and its own acknowledgement touch a slot. -/
  slots : ∀ c i, w.Holds c i →
    t.rnm.waitSlots i = w.rnm.waitSlots i ∨ e = .relock c ∨ w.AckNext e c
  /-- Only its own acknowledgement writes a buffer. -/
  buffers : ∀ c, t.resp c = w.resp c ∨ w.AckNext e c

/-- No signal is left on the slot that a call is about to take. -/
def SlotQuiet (w : World) (e : Event) (_ : World) : Prop :=
  ∀ c cmd nomem, e = .send c cmd nomem → reachesSlots cmd nomem = true →
    ∀ i, w.rnm.freeSlot = some i → (w.rnm.waitSlots i).sem = 0

/-- The call has the slot and no signal yet. -/
def Pending (slot : WaitSlot) (c : Nat) (session : UInt16) : Prop :=
  slot = ⟨true, session, 0, some c⟩

/-- The slot was given back for a call that has its answer but not yet its signal. -/
def Released (slot : WaitSlot) (answered : Prop) : Prop :=
  slot.used = false ∧ 0 < slot.sem ∧ answered

structure CallsOk (calls : Nat → CallState) (slots : Fin rnmcCmdRpcWaitSlotCnt → WaitSlot)
    (resp : Nat → Option RnmMsg) : Prop where
  live : ∀ c i session, (calls c).on = some (i, session) →
    Pending (slots i) c session ∨ Released (slots i) (Answered (resp c) session)
  owned : ∀ i, (slots i).used = true → ∃ c session,
    (calls c).on = some (i, session) ∧ Pending (slots i) c session
  alone : ∀ c c' i session session', (calls c).on = some (i, session) →
    (calls c').on = some (i, session') → c = c'
  fresh : ∀ c, calls c = .idle → resp c = none

/-! ## Slots and calls -/

theorem findSlot_some {rnm : Rnmc} {p : WaitSlot → Bool} (h : rnm.findSlot p = some i) :
    p (rnm.waitSlots i) = true := by
  have hfound := List.find?_some h
  exact hfound

@[simp] theorem setSlot_same (rnm : Rnmc) (slot : WaitSlot) :
    (rnm.setSlot i slot).waitSlots i = slot := Function.update_self ..

theorem setSlot_other (rnm : Rnmc) (slot : WaitSlot) {j : Fin rnmcCmdRpcWaitSlotCnt}
    (h : j ≠ i) : (rnm.setSlot i slot).waitSlots j = rnm.waitSlots j :=
  Function.update_of_ne h ..

@[simp] theorem setCall_same (state : CallState) : (w.setCall c state).calls c = state :=
  Function.update_self ..

theorem setCall_other (state : CallState) {c' : Nat} (h : c' ≠ c) :
    (w.setCall c state).calls c' = w.calls c' := Function.update_of_ne h ..

/-! ## What a step does to calls, slots and buffers -/

/-- The calls, the slots and the buffers of `t`. -/
structure World.Is (t : World) (calls : Nat → CallState)
    (slots : Fin rnmcCmdRpcWaitSlotCnt → WaitSlot) (resp : Nat → Option RnmMsg) : Prop where
  calls_eq : t.calls = calls
  slots_eq : t.rnm.waitSlots = slots
  resp_eq : t.resp = resp

inductive Effect (w : World) : Event → World → Prop where
  | refused {c : Nat} {cmd : Option Packet} {nomem : Bool} {t : World} (ret : RnmcRet)
      (hidle : w.calls c = .idle) (hret : ret ≠ .ok)
      (hrefused : reachesSlots cmd nomem = true → w.rnm.freeSlot = none)
      (ht : t.Is (Function.update w.calls c (.returned ret)) w.rnm.waitSlots w.resp) :
      Effect w (.send c cmd nomem) t
  | taken {c : Nat} {cmd : Option Packet} {nomem : Bool} {t : World}
      (i : Fin rnmcCmdRpcWaitSlotCnt) (session : UInt16)
      (hidle : w.calls c = .idle) (hreach : reachesSlots cmd nomem = true)
      (hfree : w.rnm.freeSlot = some i)
      (ht : t.Is (Function.update w.calls c (.waiting i session))
        (Function.update w.rnm.waitSlots i
          { w.rnm.waitSlots i with used := true, sessionId := session, resp := some c }) w.resp) :
      Effect w (.send c cmd nomem) t
  | woken {c : Nat} {t : World} (i : Fin rnmcCmdRpcWaitSlotCnt) (session : UInt16)
      (hcall : w.calls c = .waiting i session) (hsem : 0 < (w.rnm.waitSlots i).sem)
      (ht : t.Is (Function.update w.calls c (.returned .ok))
        (Function.update w.rnm.waitSlots i
          { w.rnm.waitSlots i with sem := (w.rnm.waitSlots i).sem - 1 }) w.resp) :
      Effect w (.wake c) t
  | expired {c : Nat} {t : World} (i : Fin rnmcCmdRpcWaitSlotCnt) (session : UInt16)
      (hcall : w.calls c = .waiting i session)
      (ht : t.Is (Function.update w.calls c (.expired i session)) w.rnm.waitSlots w.resp) :
      Effect w (.expire c) t
  | relocked {c : Nat} {t : World} (i : Fin rnmcCmdRpcWaitSlotCnt) (session : UInt16)
      (hcall : w.calls c = .expired i session)
      (ht : t.Is (Function.update w.calls c (.returned .timeout))
        (Function.update w.rnm.waitSlots i (resetWaitSlot (w.rnm.waitSlots i))) w.resp) :
      Effect w (.relock c) t
  | quiet {e : Event} {t : World} (he : ∀ c cmd nomem, e ≠ .send c cmd nomem)
      (ht : t.Is w.calls w.rnm.waitSlots w.resp) : Effect w e t
  | acked {t : World} (msg : RnmMsg) (i : Fin rnmcCmdRpcWaitSlotCnt) (sem : Nat)
      (hnext : w.rnm.cmdMsgQueue.head? = some msg) (hack : isAck msg = true) (hsem : 0 < sem)
      (hslot : w.rnm.sessionSlot msg.cmd.sessionId = some i)
      (ht : t.Is w.calls
        (Function.update w.rnm.waitSlots i
          (resetWaitSlot { w.rnm.waitSlots i with sem := sem }))
        ((w.rnm.waitSlots i).resp.elim w.resp fun c => Function.update w.resp c (some msg))) :
      Effect w .task t

theorem unlessFull_some (h : w.unlessFull = some t) : t = w := by
  unfold World.unlessFull at h
  split at h
  · exact (Option.some.inj h).symm
  · cases h

theorem send_effect (h : step more w (.send c cmd nomem) = some t) :
    Effect w (.send c cmd nomem) t := by
  simp only [step] at h
  split at h
  case isFalse => cases h
  case isTrue hidle =>
    cases unlessFull_some h
    cases cmd with
    | none => exact .refused .invalidInput hidle RnmcRet.noConfusion (fun h => by cases h) ⟨rfl, rfl, rfl⟩
    | some p =>
      by_cases hreach : reachesSlots (some p) nomem = true
      · cases hfree : w.rnm.freeSlot with
        | none =>
          refine .refused .noFreeSlot hidle RnmcRet.noConfusion (fun _ => hfree) ⟨?_, ?_, ?_⟩ <;>
            simp [rnmcCmdSend, hreach, takeSlot, hfree, World.setCall]
        | some i =>
          refine .taken i (acquireSessionId w.rnm.lastSessionId) hidle hreach hfree ⟨?_, ?_, ?_⟩ <;>
            simp [rnmcCmdSend, hreach, takeSlot, hfree, World.setCall, Rnmc.setSlot]
      · refine .refused .nomem hidle RnmcRet.noConfusion (absurd · hreach) ⟨?_, ?_, ?_⟩ <;>
          simp [rnmcCmdSend, hreach, World.setCall]

theorem ack_of_none {msg : RnmMsg} (h : w.rnm.sessionSlot msg.cmd.sessionId = none) :
    w.ack more msg = w := by
  simp only [World.ack, h]

theorem ack_of_some (more : Nat) {msg : RnmMsg} (h : w.rnm.sessionSlot msg.cmd.sessionId = some i) :
    (w.ack more msg).Is w.calls
      (Function.update w.rnm.waitSlots i (resetWaitSlot
        { w.rnm.waitSlots i with sem := min (more + 1) ((w.rnm.waitSlots i).sem + 1) }))
      ((w.rnm.waitSlots i).resp.elim w.resp fun c => Function.update w.resp c (some msg)) := by
  simp only [World.ack, h]
  exact ⟨rfl, rfl, rfl⟩

theorem process_cases (more : Nat) (w : World) (msg : RnmMsg) :
    (rnmcMsgProcess more w msg).Is w.calls w.rnm.waitSlots w.resp ∨
      ∃ i sem, isAck msg = true ∧ 0 < sem ∧ w.rnm.sessionSlot msg.cmd.sessionId = some i ∧
        (rnmcMsgProcess more w msg).Is w.calls
          (Function.update w.rnm.waitSlots i
            (resetWaitSlot { w.rnm.waitSlots i with sem := sem }))
          ((w.rnm.waitSlots i).resp.elim w.resp fun c => Function.update w.resp c (some msg)) := by
  unfold rnmcMsgProcess
  by_cases hcmd : msg.cmd.cmd < bf1bCmdMax
  case neg =>
    rw [if_pos hcmd]
    exact .inl ⟨rfl, rfl, rfl⟩
  rw [if_neg (not_not_intro hcmd)]
  by_cases htransparent : msg.cmd.has rnmMsgFlagTransparent = true
  · rw [if_pos htransparent]
    exact .inl ⟨rfl, rfl, rfl⟩
  rw [if_neg htransparent]
  by_cases hflag : msg.cmd.has rnmMsgFlagAck = true
  case neg =>
    rw [if_neg hflag]
    left
    split <;> exact ⟨rfl, rfl, rfl⟩
  have hack : isAck msg = true := by simp [isAck, hcmd, htransparent, hflag]
  rw [if_pos hflag]
  cases hslot : w.rnm.sessionSlot msg.cmd.sessionId with
  | none =>
    rw [ack_of_none hslot]
    left
    split <;> exact ⟨rfl, rfl, rfl⟩
  | some i =>
    have hacked := ack_of_some more hslot
    refine .inr ⟨i, min (more + 1) ((w.rnm.waitSlots i).sem + 1), hack, by omega, rfl, ?_⟩
    split
    · exact ⟨hacked.calls_eq, hacked.slots_eq, hacked.resp_eq⟩
    · exact hacked

theorem step_effect (h : step more w e = some t) : Effect w e t := by
  cases e with
  | send c cmd nomem => exact send_effect h
  | wake c =>
    cases hcall : w.calls c with
    | waiting i session =>
      simp only [step, hcall] at h
      split at h
      case isFalse => cases h
      case isTrue hsem =>
        cases h
        exact .woken i session hcall hsem ⟨rfl, rfl, rfl⟩
    | idle | expired | returned => simp [step, hcall] at h
  | expire c =>
    cases hcall : w.calls c with
    | waiting i session =>
      simp only [step, hcall] at h
      split at h
      case isFalse => cases h
      case isTrue hsem =>
        cases h
        exact .expired i session hcall ⟨rfl, rfl, rfl⟩
    | idle | expired | returned => simp [step, hcall] at h
  | relock c =>
    cases hcall : w.calls c with
    | expired i session =>
      simp only [step, hcall] at h
      cases h
      exact .relocked i session hcall ⟨rfl, rfl, rfl⟩
    | idle | waiting | returned => simp [step, hcall] at h
  | input p nomem =>
    simp only [step] at h
    split at h
    · cases h
      exact .quiet (fun _ _ _ => Event.noConfusion) ⟨rfl, rfl, rfl⟩
    · cases unlessFull_some h
      exact .quiet (fun _ _ _ => Event.noConfusion) ⟨rfl, rfl, rfl⟩
  | task =>
    cases hqueue : w.rnm.cmdMsgQueue with
    | nil => simp [step, hqueue] at h
    | cons msg rest =>
      have hnext : w.rnm.cmdMsgQueue.head? = some msg := by rw [hqueue]; rfl
      simp only [step, hqueue] at h
      cases h
      cases process_cases more { w with rnm := { w.rnm with cmdMsgQueue := rest } } msg with
      | inl hsame => exact .quiet (fun _ _ _ => Event.noConfusion) hsame
      | inr hacked =>
        obtain ⟨i, sem, hack, hsem, hslot, ht⟩ := hacked
        exact .acked msg i sem hnext hack hsem hslot ht

/-! ## The invariant -/

variable {calls : Nat → CallState} {slots : Fin rnmcCmdRpcWaitSlotCnt → WaitSlot}
  {resp : Nat → Option RnmMsg} {state : CallState} {slot : WaitSlot}

/-- A call on a slot that is not in use has its answer. -/
theorem CallsOk.released (h : CallsOk calls slots resp) (hon : (calls c).on = some (i, session))
    (hunused : (slots i).used = false) : Released (slots i) (Answered (resp c) session) := by
  cases h.live c i session hon with
  | inl hpending =>
    rw [hpending] at hunused
    cases hunused
  | inr hreleased => exact hreleased

/-- A call on a slot with a signal has its answer. -/
theorem CallsOk.signalled (h : CallsOk calls slots resp) (hon : (calls c).on = some (i, session))
    (hsem : 0 < (slots i).sem) : Released (slots i) (Answered (resp c) session) := by
  cases h.live c i session hon with
  | inl hpending =>
    rw [hpending] at hsem
    cases hsem
  | inr hreleased => exact hreleased

theorem on_update {c' : Nat} (hstate : state.on = none)
    (hon : (Function.update calls c state c').on = some (i, session)) :
    c' ≠ c ∧ (calls c').on = some (i, session) := by
  by_cases heq : c' = c
  · subst heq
    rw [Function.update_self, hstate] at hon
    cases hon
  · rw [Function.update_of_ne heq] at hon
    exact ⟨heq, hon⟩

theorem idle_update {c' : Nat} (hstate : state ≠ .idle)
    (hidle : Function.update calls c state c' = .idle) : calls c' = .idle := by
  by_cases heq : c' = c
  · subst heq
    rw [Function.update_self] at hidle
    exact absurd hidle hstate
  · rwa [Function.update_of_ne heq] at hidle

/-- A call that never got a slot returns. -/
theorem CallsOk.refuse (h : CallsOk calls slots resp) (hidle : calls c = .idle) (ret : RnmcRet) :
    CallsOk (Function.update calls c (.returned ret)) slots resp where
  live c' i session hon := h.live c' i session (on_update rfl hon).2
  owned i hused := by
    obtain ⟨c', session, hon, hpending⟩ := h.owned i hused
    have hne : c' ≠ c := by
      intro heq
      subst heq
      rw [hidle] at hon
      cases hon
    exact ⟨c', session, by rwa [Function.update_of_ne hne], hpending⟩
  alone c₁ c₂ i s₁ s₂ h₁ h₂ := h.alone c₁ c₂ i s₁ s₂ (on_update rfl h₁).2 (on_update rfl h₂).2
  fresh c' hidle' := h.fresh c' (idle_update CallState.noConfusion hidle')

/-- The only call of a slot returns and leaves it unused. -/
theorem CallsOk.leave (h : CallsOk calls slots resp) (hon : (calls c).on = some (i, session))
    (ret : RnmcRet) (hslot : slot.used = false) :
    CallsOk (Function.update calls c (.returned ret)) (Function.update slots i slot) resp where
  live c' j session' hon' := by
    obtain ⟨hne, hon'⟩ := on_update rfl hon'
    have hother : j ≠ i := by
      intro heq
      subst heq
      exact hne (h.alone c' c j session' session hon' hon)
    rw [Function.update_of_ne hother]
    exact h.live c' j session' hon'
  owned j hused := by
    have hother : j ≠ i := by
      intro heq
      subst heq
      rw [Function.update_self, hslot] at hused
      cases hused
    rw [Function.update_of_ne hother] at hused ⊢
    obtain ⟨c', session', hon', hpending⟩ := h.owned j hused
    have hne : c' ≠ c := by
      intro heq
      subst heq
      rw [hon] at hon'
      cases hon'
      exact hother rfl
    exact ⟨c', session', by rwa [Function.update_of_ne hne], hpending⟩
  alone c₁ c₂ j s₁ s₂ h₁ h₂ := h.alone c₁ c₂ j s₁ s₂ (on_update rfl h₁).2 (on_update rfl h₂).2
  fresh c' hidle' := h.fresh c' (idle_update CallState.noConfusion hidle')

/-- A call takes an unused slot without a signal: no other call is on it. -/
theorem CallsOk.take (h : CallsOk calls slots resp) (hidle : calls c = .idle)
    (hunused : (slots i).used = false) (hquiet : (slots i).sem = 0) (session : UInt16) :
    CallsOk (Function.update calls c (.waiting i session))
      (Function.update slots i
        { slots i with used := true, sessionId := session, resp := some c }) resp := by
  have hempty : ∀ c' session', (calls c').on ≠ some (i, session') := by
    intro c' session' hon
    obtain ⟨_, hsem, _⟩ := h.released hon hunused
    omega
  have hpending : Pending (Function.update slots i
      { slots i with used := true, sessionId := session, resp := some c } i) c session := by
    simp [Pending, hquiet]
  have hself : (Function.update calls c (.waiting i session) c).on = some (i, session) := by
    rw [Function.update_self]
    rfl
  constructor
  case live =>
    intro c' j session' hon
    by_cases heq : c' = c
    · subst heq
      rw [hself] at hon
      cases hon
      exact .inl hpending
    · rw [Function.update_of_ne heq] at hon
      have hother : j ≠ i := by
        intro hji
        subst hji
        exact hempty c' session' hon
      rw [Function.update_of_ne hother]
      exact h.live c' j session' hon
  case owned =>
    intro j hused
    by_cases hji : j = i
    · subst hji
      exact ⟨c, session, hself, hpending⟩
    · rw [Function.update_of_ne hji] at hused ⊢
      obtain ⟨c', session', hon, hpend⟩ := h.owned j hused
      have hne : c' ≠ c := by
        intro heq
        subst heq
        rw [hidle] at hon
        cases hon
      exact ⟨c', session', by rwa [Function.update_of_ne hne], hpend⟩
  case alone =>
    intro c₁ c₂ j s₁ s₂ h₁ h₂
    by_cases heq₁ : c₁ = c
    · subst heq₁
      rw [hself] at h₁
      cases h₁
      by_cases heq₂ : c₂ = c₁
      · exact heq₂.symm
      · rw [Function.update_of_ne heq₂] at h₂
        exact absurd h₂ (hempty c₂ s₂)
    · rw [Function.update_of_ne heq₁] at h₁
      by_cases heq₂ : c₂ = c
      · subst heq₂
        rw [hself] at h₂
        cases h₂
        exact absurd h₁ (hempty c₁ s₁)
      · rw [Function.update_of_ne heq₂] at h₂
        exact h.alone c₁ c₂ j s₁ s₂ h₁ h₂
  case fresh => exact fun c' hidle' => h.fresh c' (idle_update CallState.noConfusion hidle')

/-- A call's wait times out; it is still on its slot. -/
theorem CallsOk.expire (h : CallsOk calls slots resp) (hcall : calls c = .waiting i session) :
    CallsOk (Function.update calls c (.expired i session)) slots resp := by
  have hon : ∀ c', (Function.update calls c (.expired i session) c').on = (calls c').on := by
    intro c'
    by_cases heq : c' = c
    · subst heq
      rw [Function.update_self, hcall]
      rfl
    · rw [Function.update_of_ne heq]
  constructor
  case live => simpa only [hon] using h.live
  case owned => simpa only [hon] using h.owned
  case alone => simpa only [hon] using h.alone
  case fresh => exact fun c' hidle => h.fresh c' (idle_update CallState.noConfusion hidle)

/-- The call of a slot gets its answer and its signal, and the slot is given back. -/
theorem CallsOk.answer (h : CallsOk calls slots resp) {msg : RnmMsg}
    (hon : (calls c).on = some (i, session)) (hpending : Pending (slots i) c session)
    (hack : isAck msg = true) (hsession : msg.cmd.sessionId = session) {sem : Nat}
    (hsem : 0 < sem) :
    CallsOk calls
      (Function.update slots i (resetWaitSlot { slots i with sem := sem }))
      (Function.update resp c (some msg)) := by
  constructor
  case live =>
    intro c' j session' hon'
    by_cases hji : j = i
    · subst hji
      cases h.alone c' c j session' session hon' hon
      rw [hon] at hon'
      cases hon'
      right
      rw [Function.update_self, Function.update_self]
      exact ⟨rfl, hsem, msg, rfl, hack, hsession⟩
    · have hne : c' ≠ c := by
        intro heq
        subst heq
        rw [hon] at hon'
        cases hon'
        exact hji rfl
      rw [Function.update_of_ne hji, Function.update_of_ne hne]
      exact h.live c' j session' hon'
  case owned =>
    intro j hused
    have hji : j ≠ i := by
      intro heq
      subst heq
      rw [Function.update_self] at hused
      cases hused
    rw [Function.update_of_ne hji] at hused ⊢
    exact h.owned j hused
  case alone => exact h.alone
  case fresh =>
    intro c' hidle
    have hne : c' ≠ c := by
      intro heq
      subst heq
      rw [hidle] at hon
      cases hon
    rw [Function.update_of_ne hne]
    exact h.fresh c' hidle

abbrev World.Ok (w : World) : Prop := CallsOk w.calls w.rnm.waitSlots w.resp

/-- The call an acknowledgement is delivered to. -/
theorem CallsOk.receiver (h : w.Ok) {s : UInt16} (hslot : w.rnm.sessionSlot s = some i) :
    ∃ c, (w.calls c).on = some (i, s) ∧ Pending (w.rnm.waitSlots i) c s := by
  have hfound := findSlot_some hslot
  rw [Bool.and_eq_true, beq_iff_eq] at hfound
  obtain ⟨c, session, hon, hpending⟩ := h.owned i hfound.1
  have hsession : session = s := by
    rw [← hfound.2, hpending]
  subst hsession
  exact ⟨c, hon, hpending⟩

theorem Effect.ok (h : w.Ok) (hquiet : SlotQuiet w e t) (heffect : Effect w e t) : t.Ok := by
  have hof : ∀ {calls slots resp}, t.Is calls slots resp → CallsOk calls slots resp → t.Ok := by
    intro calls slots resp ht hok
    rwa [World.Ok, ht.calls_eq, ht.slots_eq, ht.resp_eq]
  cases heffect with
  | quiet he ht => exact hof ht h
  | refused ret hidle hret hrefused ht => exact hof ht (h.refuse hidle ret)
  | taken i session hidle hreach hfree ht =>
    have hunused := findSlot_some hfree
    rw [Bool.not_eq_true'] at hunused
    exact hof ht (h.take hidle hunused (hquiet _ _ _ rfl hreach i hfree) session)
  | woken i session hcall hsem ht =>
    have hon : (w.calls _).on = some (i, session) := congrArg CallState.on hcall
    exact hof ht (h.leave hon .ok (h.signalled hon hsem).1)
  | expired i session hcall ht => exact hof ht (h.expire hcall)
  | relocked i session hcall ht =>
    have hon : (w.calls _).on = some (i, session) := congrArg CallState.on hcall
    exact hof ht (h.leave hon .timeout rfl)
  | acked msg i sem hnext hack hsem hslot ht =>
    obtain ⟨c, hon, hpending⟩ := h.receiver hslot
    refine hof ht ?_
    rw [congrArg WaitSlot.resp hpending]
    exact h.answer hon hpending hack rfl hsem

/-! ## What goes right, and what goes wrong -/

theorem no_new_ok {c' : Nat} (hstate : state ≠ .returned .ok) (hbefore : calls c' ≠ .returned .ok) :
    Function.update calls c state c' ≠ .returned .ok := by
  by_cases heq : c' = c
  · subst heq
    rwa [Function.update_self]
  · rwa [Function.update_of_ne heq]

theorem Effect.correlated (h : w.Ok) (heffect : Effect w e t) : Correlated w e t := by
  cases heffect with
  | quiet he ht =>
    refine ⟨fun c hbefore hafter => ?_, fun c i _ => .inl ?_, fun c => .inl ?_⟩
    · rw [ht.calls_eq] at hafter
      exact absurd hafter hbefore
    · rw [ht.slots_eq]
    · rw [ht.resp_eq]
  | refused ret hidle hret hrefused ht =>
    refine ⟨fun c hbefore hafter => ?_, fun c i _ => .inl ?_, fun c => .inl ?_⟩
    · rw [ht.calls_eq] at hafter
      have hstate : CallState.returned ret ≠ .returned .ok := by
        intro heq
        cases heq
        exact hret rfl
      exact absurd hafter (no_new_ok hstate hbefore)
    · rw [ht.slots_eq]
    · rw [ht.resp_eq]
  | taken i session hidle hreach hfree ht =>
    have hunused := findSlot_some hfree
    rw [Bool.not_eq_true'] at hunused
    refine ⟨fun c hbefore hafter => ?_, fun c j hholds => .inl ?_, fun c => .inl ?_⟩
    · rw [ht.calls_eq] at hafter
      exact absurd hafter (no_new_ok CallState.noConfusion hbefore)
    · have hji : j ≠ i := by
        intro heq
        subst heq
        rw [hholds.1] at hunused
        cases hunused
      rw [ht.slots_eq, Function.update_of_ne hji]
    · rw [ht.resp_eq]
  | woken i session hcall hsem ht =>
    have hon : (w.calls _).on = some (i, session) := congrArg CallState.on hcall
    have hreleased := h.signalled hon hsem
    refine ⟨fun c hbefore hafter => ?_, fun c j hholds => .inl ?_, fun c => .inl ?_⟩
    · rename_i woken
      by_cases heq : c = woken
      · subst heq
        refine ⟨i, session, hon, ?_⟩
        rw [ht.resp_eq]
        exact hreleased.2.2
      · rw [ht.calls_eq, Function.update_of_ne heq] at hafter
        exact absurd hafter hbefore
    · have hji : j ≠ i := by
        intro heq
        subst heq
        have hused := hholds.1
        rw [hreleased.1] at hused
        cases hused
      rw [ht.slots_eq, Function.update_of_ne hji]
    · rw [ht.resp_eq]
  | expired i session hcall ht =>
    refine ⟨fun c hbefore hafter => ?_, fun c i _ => .inl ?_, fun c => .inl ?_⟩
    · rw [ht.calls_eq] at hafter
      exact absurd hafter (no_new_ok CallState.noConfusion hbefore)
    · rw [ht.slots_eq]
    · rw [ht.resp_eq]
  | relocked i session hcall ht =>
    rename_i late
    have hon : (w.calls late).on = some (i, session) := congrArg CallState.on hcall
    refine ⟨fun c hbefore hafter => ?_, fun c j hholds => ?_, fun c => .inl ?_⟩
    · rw [ht.calls_eq] at hafter
      exact absurd hafter (no_new_ok (by intro heq; cases heq) hbefore)
    · by_cases hji : j = i
      · subst hji
        right
        left
        cases h.live late j session hon with
        | inl hpending =>
          have howner := hholds.2
          rw [hpending] at howner
          cases howner
          rfl
        | inr hreleased =>
          have hused := hholds.1
          rw [hreleased.1] at hused
          cases hused
      · left
        rw [ht.slots_eq, Function.update_of_ne hji]
    · rw [ht.resp_eq]
  | acked msg i sem hnext hack hsem hslot ht =>
    obtain ⟨receiver, hon, hpending⟩ := h.receiver hslot
    have hresp := congrArg WaitSlot.resp hpending
    refine ⟨fun c hbefore hafter => ?_, fun c j hholds => ?_, fun c => ?_⟩
    · rw [ht.calls_eq] at hafter
      exact absurd hafter hbefore
    · by_cases hji : j = i
      · subst hji
        have howner := hholds.2
        rw [hresp] at howner
        cases howner
        exact .inr (.inr ⟨rfl, msg, j, hnext, hack, hon⟩)
      · left
        rw [ht.slots_eq, Function.update_of_ne hji]
    · by_cases heq : c = receiver
      · subst heq
        exact .inr ⟨rfl, msg, i, hnext, hack, hon⟩
      · left
        rw [ht.resp_eq, hresp]
        exact Function.update_of_ne heq ..

/-- A call that takes a slot with a signal on it can return before any answer. -/
theorem Effect.woken_unanswered (h : w.Ok) (hsafe : ¬ SlotQuiet w e t) (heffect : Effect w e t) :
    ∃ c u, step more t (.wake c) = some u ∧ ¬ Correlated t (.wake c) u := by
  simp only [SlotQuiet, not_forall] at hsafe
  obtain ⟨c, cmd, nomem, rfl, hreach, i, hfree, hsem⟩ := hsafe
  cases heffect with
  | quiet he ht => exact absurd rfl (he c cmd nomem)
  | refused ret hidle hret hrefused ht =>
    have hnone := hrefused hreach
    rw [hfree] at hnone
    cases hnone
  | taken i' session hidle _ hfree' ht =>
    rw [hfree] at hfree'
    cases hfree'
    have hcall : t.calls c = .waiting i session := by rw [ht.calls_eq, Function.update_self]
    have hsignal : 0 < (t.rnm.waitSlots i).sem := by
      rw [ht.slots_eq, Function.update_self]
      exact Nat.pos_of_ne_zero hsem
    refine ⟨c, _, by simp only [step, hcall, if_pos hsignal]; rfl, fun hgood => ?_⟩
    obtain ⟨_, _, _, msg, hmsg, _⟩ := hgood.returns c (by rw [hcall]; exact CallState.noConfusion)
      (setCall_same _)
    have hnone : t.resp c = none := by
      rw [ht.resp_eq]
      exact h.fresh c hidle
    cases hnone.symm.trans hmsg

theorem rnmClientInit_ok : rnmClientInit.Ok where
  live _ _ _ hon := by cases hon
  owned _ hused := by cases hused
  alone _ _ _ _ _ hon := by cases hon
  fresh _ _ := rfl

/-- Whichever call wakes up next, every call returns with its own answer and
keeps its slot to itself, exactly when every call takes a slot without a signal. -/
theorem calls_correlated_iff_slots_quiet (more : Nat) (events : List Event) :
    (∀ pre, pre <+: events → ∀ p, (∃ c, p = .wake c) →
      Along (step more) Correlated rnmClientInit (pre ++ [p])) ↔
      Along (step more) SlotQuiet rnmClientInit events := by
  refine along_probes_iff (fun s e t hok ht hquiet => ?_) (fun s e t hprobe => ?_)
    (fun s e t hok ht hbreaks => ?_) rnmClientInit_ok
  · have heffect := step_effect ht
    exact ⟨heffect.correlated hok, heffect.ok hok hquiet⟩
  · obtain ⟨c, rfl⟩ := hprobe
    intro _ _ _ he
    cases he
  · obtain ⟨c, u, hu, hbad⟩ := (step_effect ht).woken_unanswered hok hbreaks
    exact ⟨.wake c, u, ⟨c, rfl⟩, hu, hbad⟩

/-- `BF1B_CMD_PING`, and the acknowledgement of the first session. -/
def ping : Packet := ⟨⟨3, 0, 0, 0, 0, 0⟩, []⟩
def pingAck : Packet := ⟨⟨3, rnmMsgFlagAck, 0, 9, 1, 1⟩, []⟩

/-- The acknowledgement of call 0 arrives between its timeout and its return. -/
def lateAck : List Event :=
  [.send 0 (some ping) false, .expire 0, .task, .input pingAck false, .task]

/-- Call 1 takes the slot afterwards and returns `RNMC_OK` without an answer;
had call 0 not returned yet, it would reset the slot of call 1. -/
theorem late_ack_breaks_correlation :
    ¬ Along (step 0) Correlated rnmClientInit
        (lateAck ++ [.relock 0, .send 1 (some ping) false] ++ [.wake 1]) ∧
      ¬ Along (step 0) Correlated rnmClientInit
        (lateAck ++ [.send 1 (some ping) false] ++ [.relock 0]) := by
  constructor
  · refine not_along_of_run rfl rfl fun hgood => ?_
    obtain ⟨_, _, _, msg, hmsg, _⟩ := hgood.returns 1 (by decide) (by decide)
    cases hmsg
  · refine not_along_of_run rfl rfl fun hgood => ?_
    rcases hgood.slots 1 ⟨0, by decide⟩ ⟨rfl, rfl⟩ with hsame | hown | hnext
    · exact absurd (congrArg WaitSlot.used hsame) (by decide)
    · cases hown
    · cases hnext.1

end BouffaloSdk.HostRouter.RnmClient
