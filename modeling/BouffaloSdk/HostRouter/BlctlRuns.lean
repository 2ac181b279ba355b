import BouffaloSdk.HostRouter.Blctl
import BouffaloSdk.Kit.Assigned
import BouffaloSdk.Kit.Runs
import BouffaloSdk.Kit.Tokens

/-!
# Runs of the host's control library

Which runs return each call with its own answer and the lock released, and free
every copy of a message once.
-/

namespace BouffaloSdk.HostRouter.Blctl

open Kit Kit.Runs

variable {w t : World} {e : Event} {c : Nat} {i : Fin waitSlotsCnt} {req : Request}
  {msg : Packet} {nomem transparent : Bool} {events : List Event}

/-- The slot and the request of a call that has not given its slot back. -/
def CallState.on : CallState → Option (Fin waitSlotsCnt × Request)
  | .sending i req _ | .waiting i req | .failing i req _ | .answered i req _ => some (i, req)
  | .idle | .returned .. => none

def World.on (w : World) : Nat → Option (Fin waitSlotsCnt × Request) := CallState.on ∘ w.calls

def World.reqs (w : World) : Fin waitSlotsCnt → Option Request :=
  Option.map WaitEnv.req ∘ w.waitSlots

/-- Which copy each slot holds. -/
def World.holder (w : World) : Fin waitSlotsCnt → Option Nat := respId ∘ w.waitSlots

/-- What a call may return: 0 with an answer to its request, or an error. -/
def ReturnOk (req : Option Request) (ret : Int) (response : Option Packet) : Prop :=
  (ret = 0 ∧ ∃ r p, req = some r ∧ response = some p ∧ r.answeredBy p = true) ∨
    (ret ≠ 0 ∧ response = none)

/-- What a step must leave behind. -/
structure CallsSound (_ : World) (_ : Event) (t : World) : Prop where
  returns : ∀ c req ret response, t.calls c = .returned req ret response →
    ReturnOk req ret response
  unlocked : ∀ c req ret response, t.calls c = .returned req ret response → t.lock ≠ some c
  /-- Each copy received was freed once or is in one slot. -/
  copies : Tokens t.received t.freed t.holder
  /-- The slot of such a copy belongs to a call, which will free it. -/
  owned : ∀ i, t.holder i ≠ none → ∃ c req, t.on c = some (i, req)

/-- No call comes while all slots are taken, the response can be copied, and no
second answer comes to a call that has one. -/
structure CallsFit (w : World) (e : Event) (_ : World) : Prop where
  room : ∀ c msg nomem, e = .call c msg nomem → ∃ i, w.waitSlots i = none
  memory : ∀ c, e ≠ .finish c true
  single : ∀ msg, e = .deliver msg true false → ∀ i, w.receiver msg = some i → w.holder i = none

/-- What a call keeps while it runs. -/
def CallState.Ok : CallState → Prop
  | .answered _ req rsp => req.answeredBy rsp.msg = true
  | .failing _ _ ret => ret ≠ 0
  | .returned req ret response => ReturnOk req ret response
  | .idle | .sending .. | .waiting .. => True

/-- What the slot of a call holds. -/
def WaitEnv.Ok (wait : WaitEnv) : Prop :=
  ∀ rsp, wait.resp = some rsp → wait.req.answeredBy rsp.msg = true

structure Inv (w : World) : Prop where
  assigned : Assigned w.on w.reqs
  calls_ok : ∀ c, (w.calls c).Ok
  slots_ok : ∀ i wait, w.waitSlots i = some wait → wait.Ok
  copies : Tokens w.received w.freed w.holder
  unlocked : w.lock = none

theorem Inv.sound (h : Inv t) : CallsSound w e t where
  returns c _ _ _ hcall := by
    have hok := h.calls_ok c
    rwa [hcall] at hok
  unlocked c _ _ _ _ := by simp [h.unlocked]
  copies := h.copies
  owned i hheld := by
    cases hslot : t.waitSlots i with
    | none => simp [World.holder, hslot, respId] at hheld
    | some wait =>
      obtain ⟨c, hon⟩ := h.assigned.owned i wait.req (by simp [World.reqs, hslot])
      exact ⟨c, wait.req, hon⟩

/-! ## Updates -/

variable {state : CallState} {wait : Option WaitEnv}

@[simp] theorem on_setCall : (w.setCall c state).on = Function.update w.on c state.on :=
  Function.comp_update ..

@[simp] theorem reqs_setCall : (w.setCall c state).reqs = w.reqs := rfl
@[simp] theorem holder_setCall : (w.setCall c state).holder = w.holder := rfl
@[simp] theorem on_setSlot : (w.setSlot i wait).on = w.on := rfl

@[simp] theorem reqs_setSlot :
    (w.setSlot i wait).reqs = Function.update w.reqs i (wait.map WaitEnv.req) :=
  Function.comp_update ..

@[simp] theorem holder_setSlot :
    (w.setSlot i wait).holder = Function.update w.holder i (respId wait) :=
  Function.comp_update ..

theorem calls_ok_setCall (h : ∀ c, (w.calls c).Ok) (hstate : state.Ok) :
    ∀ c', ((w.setCall c state).calls c').Ok := by
  intro c'
  by_cases heq : c' = c
  · subst heq
    simpa [World.setCall] using hstate
  · simpa [World.setCall, Function.update_of_ne heq] using h c'

theorem slots_ok_setSlot (h : ∀ i wait, w.waitSlots i = some wait → wait.Ok)
    (hwait : ∀ new, wait = some new → new.Ok) :
    ∀ j new, (w.setSlot i wait).waitSlots j = some new → new.Ok := by
  intro j new hslot
  by_cases hji : j = i
  · subst hji
    exact hwait new (by simpa [World.setSlot] using hslot)
  · exact h j new (by simpa [World.setSlot, Function.update_of_ne hji] using hslot)

theorem findSlot_some {p : Option WaitEnv → Bool} (h : w.findSlot p = some i) :
    p (w.waitSlots i) = true := by
  have hfound := List.find?_some h
  exact hfound

theorem findSlot_none {p : Option WaitEnv → Bool} (h : w.findSlot p = none) :
    p (w.waitSlots i) = false := by
  have hall := List.find?_eq_none.mp h i (List.mem_finRange i)
  simpa using hall

theorem locking_some {u : World} (h : w.locking u = some t) : w.lock = none ∧ u = t := by
  unfold World.locking at h
  split at h
  case isTrue hlock => exact ⟨hlock, Option.some.inj h⟩
  case isFalse => cases h

/-- The call moves on and stays on its slot. -/
theorem Inv.setCall (h : Inv w) (hon : state.on = (w.calls c).on) (hstate : state.Ok) :
    Inv (w.setCall c state) where
  assigned := by
    have hsame : Function.update w.on c state.on = w.on := by
      rw [hon]
      exact Function.update_eq_self ..
    rw [on_setCall, reqs_setCall, hsame]
    exact h.assigned
  calls_ok := calls_ok_setCall h.calls_ok hstate
  slots_ok := h.slots_ok
  copies := h.copies
  unlocked := h.unlocked

/-- The call gives its slot back and returns. -/
theorem Inv.leave (h : Inv w) (hon : (w.calls c).on = some (i, req)) {ret : Int}
    {response : Option Packet} (hret : ReturnOk (some req) ret response) :
    Inv ((freeWaitEnv w i).setCall c (.returned (some req) ret response)) where
  assigned := by
    rw [on_setCall, reqs_setCall, freeWaitEnv, on_setSlot, reqs_setSlot]
    exact h.assigned.leave hon
  calls_ok := calls_ok_setCall h.calls_ok hret
  slots_ok := slots_ok_setSlot h.slots_ok fun _ hnew => by cases hnew
  copies := by
    have hcopies := h.copies
    have hholder : ((freeWaitEnv w i).setCall c (.returned (some req) ret response)).holder =
        Function.update w.holder i none := Function.comp_update ..
    rw [hholder]
    change Tokens w.received (w.freed ++ (w.holder i).toList) (Function.update w.holder i none)
    cases hheld : w.holder i with
    | none =>
      rw [← Function.update_eq_self i w.holder, hheld] at hcopies
      simpa only [Option.toList_none, List.append_nil] using hcopies
    | some id => exact hcopies.spend hheld
  unlocked := h.unlocked

/-! ## Steps -/

theorem Inv.alloc (h : Inv w) (hidle : w.calls c = .idle) (hroom : ∃ i, w.waitSlots i = none) :
    Inv (allocWaitEnv w c msg nomem) := by
  have hoff : (w.calls c).on = none := by rw [hidle]; rfl
  unfold allocWaitEnv
  cases hslot : w.findSlot Option.isNone with
  | none =>
    obtain ⟨i, hfree⟩ := hroom
    have htaken := findSlot_none (i := i) hslot
    rw [hfree] at htaken
    cases htaken
  | some i =>
    have hfree : w.waitSlots i = none := Option.isNone_iff_eq_none.mp (findSlot_some hslot)
    by_cases hmem : nomem = true
    · simp only [if_pos hmem]
      exact h.setCall hoff.symm (.inr ⟨by decide, rfl⟩)
    · simp only [if_neg hmem]
      constructor
      case assigned =>
        rw [on_setCall, reqs_setCall, on_setSlot, reqs_setSlot]
        exact h.assigned.take hoff (by simp [World.reqs, hfree])
      case calls_ok => exact calls_ok_setCall h.calls_ok trivial
      case slots_ok =>
        refine slots_ok_setSlot h.slots_ok fun new hnew => ?_
        cases hnew
        intro rsp hrsp
        cases hrsp
      case copies =>
        have hempty : w.holder i = none := by simp [World.holder, hfree, respId]
        have hcopies := h.copies
        rw [← Function.update_eq_self i w.holder, hempty] at hcopies
        rw [holder_setCall, holder_setSlot]
        exact hcopies
      case unlocked => exact h.unlocked

theorem receiver_some (h : w.receiver msg = some i) :
    ∃ wait, w.waitSlots i = some wait ∧ wait.req.answeredBy msg = true := by
  have hfound := findSlot_some h
  cases hslot : w.waitSlots i with
  | none =>
    rw [hslot] at hfound
    cases hfound
  | some wait =>
    rw [hslot] at hfound
    exact ⟨wait, rfl, hfound⟩

/-- The reader's world after it copied the message. -/
def World.copied (w : World) : World := { w with received := w.received + 1 }

theorem Inv.wildcard (h : Inv w) : Inv (wildcard w.copied ⟨w.received, msg⟩) where
  assigned := h.assigned
  calls_ok := h.calls_ok
  slots_ok := h.slots_ok
  copies := h.copies.pass
  unlocked := h.unlocked

theorem Inv.handle (h : Inv w)
    (hsingle : transparent = true → ∀ i, w.receiver msg = some i → w.holder i = none) :
    Inv (handle w.copied ⟨w.received, msg⟩ transparent) := by
  unfold Blctl.handle
  cases transparent with
  | false => exact h.wildcard
  | true =>
    cases hslot : w.receiver msg with
    | none =>
      have hcopied : w.copied.receiver msg = none := hslot
      simp only [if_true, hcopied]
      exact h.wildcard
    | some i =>
      have hcopied : w.copied.receiver msg = some i := hslot
      obtain ⟨wait, hwait, hanswer⟩ := receiver_some hslot
      have hwait' : w.copied.waitSlots i = some wait := hwait
      simp only [if_true, hcopied, hwait', Option.map_some]
      constructor
      case assigned =>
        have hsame : Function.update w.reqs i (some wait.req) = w.reqs := by
          have hreq : some wait.req = w.reqs i := by simp [World.reqs, hwait]
          rw [hreq]
          exact Function.update_eq_self ..
        rw [on_setSlot, reqs_setSlot]
        exact hsame.symm ▸ h.assigned
      case calls_ok => exact h.calls_ok
      case slots_ok =>
        refine slots_ok_setSlot h.slots_ok fun new hnew => ?_
        cases hnew
        intro rsp hrsp
        cases hrsp
        exact hanswer
      case copies =>
        rw [holder_setSlot]
        exact h.copies.hold (hsingle rfl i hslot)
      case unlocked => exact h.unlocked

theorem Inv.woken (h : Inv w) {wait : WaitEnv} {rsp : Copy} {sem : Nat}
    (hcall : w.calls c = .waiting i req) (hslot : w.waitSlots i = some wait)
    (hrsp : wait.resp = some rsp) :
    Inv ((w.setSlot i (some { wait with sem := sem })).setCall c (.answered i req rsp)) := by
  have hreq : wait.req = req := by
    have hlive := h.assigned.live c i req (by simp [World.on, hcall, CallState.on])
    simpa [World.reqs, hslot] using hlive
  constructor
  case assigned =>
    have hon : Function.update w.on c (some (i, req)) = w.on := by
      have hsame : some (i, req) = w.on c := by simp [World.on, hcall, CallState.on]
      rw [hsame]
      exact Function.update_eq_self ..
    have hreqs : Function.update w.reqs i (some wait.req) = w.reqs := by
      have hsame : some wait.req = w.reqs i := by simp [World.reqs, hslot]
      rw [hsame]
      exact Function.update_eq_self ..
    have hassigned := h.assigned
    rw [← hon, ← hreqs] at hassigned
    rw [on_setCall, reqs_setCall, on_setSlot, reqs_setSlot]
    exact hassigned
  case calls_ok =>
    exact calls_ok_setCall h.calls_ok (hreq ▸ h.slots_ok i wait hslot rsp hrsp)
  case slots_ok =>
    refine slots_ok_setSlot h.slots_ok fun new hnew => ?_
    cases hnew
    exact h.slots_ok i wait hslot
  case copies =>
    have hheld : Function.update w.holder i (respId (some wait)) = w.holder := by
      have hsame : respId (some wait) = w.holder i := by simp [World.holder, hslot]
      rw [hsame]
      exact Function.update_eq_self ..
    have hcopies := h.copies
    rw [← hheld] at hcopies
    rw [holder_setCall, holder_setSlot]
    exact hcopies
  case unlocked => exact h.unlocked

theorem Inv.step (h : Inv w) (hfit : CallsFit w e t) (hstep : step w e = some t) : Inv t := by
  cases e with
  | call c msg nomem =>
    simp only [Blctl.step] at hstep
    split at hstep
    case isFalse => cases hstep
    case isTrue hidle =>
      obtain ⟨_, rfl⟩ := locking_some hstep
      exact h.alloc hidle (hfit.room c msg nomem rfl)
  | send c ret =>
    cases hcall : w.calls c with
    | sending i req msg =>
      simp only [Blctl.step, hcall] at hstep
      have hon : (w.calls c).on = some (i, req) := by rw [hcall]; rfl
      split at hstep
      case isTrue =>
        cases hstep
        have hsent : Inv { w with sent := w.sent ++ [msg] } :=
          ⟨h.assigned, h.calls_ok, h.slots_ok, h.copies, h.unlocked⟩
        exact hsent.setCall hon.symm trivial
      case isFalse hret =>
        cases hstep
        exact h.setCall hon.symm hret
    | idle | waiting | failing | answered | returned => simp [Blctl.step, hcall] at hstep
  | wake c =>
    cases hcall : w.calls c with
    | waiting i req =>
      simp only [Blctl.step, hcall] at hstep
      split at hstep
      case h_1 own sem rsp hslot =>
        cases hstep
        exact h.woken hcall hslot rfl
      case h_2 => cases hstep
    | idle | sending | failing | answered | returned => simp [Blctl.step, hcall] at hstep
  | expire c =>
    cases hcall : w.calls c with
    | waiting i req =>
      simp only [Blctl.step, hcall] at hstep
      have hon : (w.calls c).on = some (i, req) := by rw [hcall]; rfl
      split at hstep
      case h_1 =>
        cases hstep
        exact h.setCall hon.symm (by decide : (-1 : Int) ≠ 0)
      case h_2 => cases hstep
    | idle | sending | failing | answered | returned => simp [Blctl.step, hcall] at hstep
  | giveUp c =>
    cases hcall : w.calls c with
    | failing i req ret =>
      simp only [Blctl.step, hcall] at hstep
      obtain ⟨_, rfl⟩ := locking_some hstep
      have hok := h.calls_ok c
      rw [hcall] at hok
      exact h.leave (by rw [hcall]; rfl) (.inr ⟨hok, rfl⟩)
    | idle | sending | waiting | answered | returned => simp [Blctl.step, hcall] at hstep
  | finish c nomem =>
    cases hcall : w.calls c with
    | answered i req rsp =>
      simp only [Blctl.step, hcall] at hstep
      obtain ⟨_, rfl⟩ := locking_some hstep
      have hok := h.calls_ok c
      rw [hcall] at hok
      cases nomem with
      | true => exact absurd rfl (hfit.memory c)
      | false => exact h.leave (by rw [hcall]; rfl) (.inl ⟨rfl, req, rsp.msg, rfl, rfl, hok⟩)
    | idle | sending | waiting | failing | returned => simp [Blctl.step, hcall] at hstep
  | deliver msg transparent nomem =>
    simp only [Blctl.step] at hstep
    cases nomem with
    | true =>
      cases hstep
      exact h
    | false =>
      have hhandled : Inv (Blctl.handle w.copied ⟨w.received, msg⟩ transparent) :=
        h.handle fun htransparent => hfit.single msg (by rw [htransparent])
      simp only [Bool.false_eq_true, if_false] at hstep
      split at hstep
      case isTrue =>
        obtain ⟨_, rfl⟩ := locking_some hstep
        exact hhandled
      case isFalse =>
        cases hstep
        exact hhandled

/-! ## What goes wrong -/

theorem call_needs_room (hstep : step w (.call c msg nomem) = some t)
    (hsound : CallsSound w e t) : ∃ i, w.waitSlots i = none := by
  simp only [Blctl.step] at hstep
  split at hstep
  case isFalse => cases hstep
  case isTrue =>
    obtain ⟨_, rfl⟩ := locking_some hstep
    cases hslot : w.findSlot Option.isNone with
    | some i => exact ⟨i, Option.isNone_iff_eq_none.mp (findSlot_some hslot)⟩
    | none =>
      have hall : allocWaitEnv w c msg nomem =
          { w with lock := some c }.setCall c (.returned none (-1) none) := by
        simp only [allocWaitEnv, hslot]
      have hreturned : (allocWaitEnv w c msg nomem).calls c = .returned none (-1) none := by
        rw [hall]
        exact Function.update_self ..
      exact absurd (congrArg World.lock hall) (hsound.unlocked c _ _ _ hreturned)

theorem finish_needs_memory (hstep : step w (.finish c true) = some t)
    (hsound : CallsSound w e t) : False := by
  cases hcall : w.calls c with
  | answered i req rsp =>
    simp only [Blctl.step, hcall] at hstep
    obtain ⟨_, rfl⟩ := locking_some hstep
    cases hsound.returns c (some req) 0 none (Function.update_self ..) with
    | inl hok =>
      obtain ⟨_, _, _, _, hresponse, _⟩ := hok
      cases hresponse
    | inr hfailed => exact hfailed.1 rfl
  | idle | sending | waiting | failing | returned => simp [Blctl.step, hcall] at hstep

theorem Inv.deliver_once (h : Inv w) (hstep : Blctl.step w (.deliver msg true false) = some t)
    (hsound : CallsSound w e t) (hslot : w.receiver msg = some i) : w.holder i = none := by
  obtain ⟨wait, hwait, hanswer⟩ := receiver_some hslot
  have ht : t = Blctl.handle w.copied ⟨w.received, msg⟩ true := by
    simp only [Blctl.step, Bool.false_eq_true, if_false] at hstep
    split at hstep
    case isTrue => exact (locking_some hstep).2.symm
    case isFalse => exact (Option.some.inj hstep).symm
  have hcopied : w.copied.receiver msg = some i := hslot
  have hwait' : w.copied.waitSlots i = some wait := hwait
  simp only [Blctl.handle, if_true, hcopied, hwait', Option.map_some] at ht
  cases hheld : w.holder i with
  | none => rfl
  | some id =>
    have hcopies := hsound.copies
    rw [ht, holder_setSlot] at hcopies
    exact absurd hcopies (h.copies.not_overwritten hheld)

theorem Inv.sound_iff (h : Inv w) (hstep : Blctl.step w e = some t) :
    CallsSound w e t ↔ CallsFit w e t := by
  constructor
  · intro hsound
    constructor
    case room =>
      intro c msg nomem he
      subst he
      exact call_needs_room hstep hsound
    case memory =>
      intro c he
      subst he
      exact finish_needs_memory hstep hsound
    case single =>
      intro msg he i hslot
      subst he
      exact h.deliver_once hstep hsound hslot
  · exact fun hfit => (h.step hfit hstep).sound

theorem inv_init (sid : UInt16) (hasHandler : Bool) : Inv (blctlInit sid hasHandler) where
  assigned := Assigned.initial
  calls_ok _ := trivial
  slots_ok _ _ hslot := by cases hslot
  copies := Tokens.initial
  unlocked := rfl

/-- `BF1B_CMD_PING`, and an answer to the first one. -/
def ping : Packet := ⟨⟨3, 0, 0, 0, 0, 0⟩, []⟩
def pong : Packet := ⟨⟨3, rnmMsgFlagAck, 0, 7, 1, 1⟩, []⟩

end BouffaloSdk.HostRouter.Blctl
