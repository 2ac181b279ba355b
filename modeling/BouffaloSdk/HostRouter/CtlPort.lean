import Mathlib.Data.Nat.Bitwise
import Mathlib.Data.List.FinRange

/-!
# Control-port sessions of the Linux host

The session slots of `host_linux/ctl_port.c`. A call that finds `mutex` locked
has no result. Whether a netlink message is delivered is the caller's argument.
-/

namespace BouffaloSdk.CtlPort

def ctlPortSessions : Nat := 2
def rnmMsgFlagAsync : Nat := 1 <<< 2

/-- `struct ctl_port_session`. -/
structure Session where
  used : Bool
  pid : Nat
  sessionId : Nat
  flags : Nat
  deriving DecidableEq, Repr

/-- `struct blctl_dev`. -/
structure BlctlDev where
  sessions : Fin ctlPortSessions → Session
  lastSessionId : Nat
  locked : Bool

/-- The messages to a daemon, by type. -/
inductive NlMsg
  | connectRsp (success : Bool) (sessionId : Nat)
  | disconnectRsp (success : Bool)
  | disconnectAllRsp (success : Bool)
  | transparent (payload : List UInt8)
  deriving DecidableEq, Repr

/-- A device message: its header's flags and session, and all its bytes. -/
structure RnmMsg where
  flags : Nat
  sessionId : Nat
  bytes : List UInt8

/-- What a call leaves and the messages delivered, with their pids. -/
abbrev Result := Option (BlctlDev × List (Nat × NlMsg))

def findSlot (dev : BlctlDev) (p : Session → Bool) : Option (Fin ctlPortSessions) :=
  (List.finRange ctlPortSessions).find? fun i => p (dev.sessions i)

def setSlot (dev : BlctlDev) (i : Fin ctlPortSessions) (session : Session) : BlctlDev :=
  { dev with sessions := Function.update dev.sessions i session }

/-- The `continue` for an id that is in use belongs to the inner loop, so the
outer one is always left after one step. -/
def nextSessionId (last : Nat) : Nat := (last + 1) % 2 ^ 16

def nlMsgOut (pid : Nat) (msg : NlMsg) (delivered : Bool) : List (Nat × NlMsg) :=
  if delivered then [(pid, msg)] else []

def ctlPortNewSession (dev : BlctlDev) (pid : Nat) (delivered : Bool) : Result :=
  if dev.locked then none
  else
    match findSlot dev fun session => !session.used with
    | none => some (dev, nlMsgOut pid (.connectRsp false 0) delivered)
    | some i =>
      let id := nextSessionId dev.lastSessionId
      let dev := { dev with lastSessionId := id }
      let out := nlMsgOut pid (.connectRsp true id) delivered
      if delivered then some (setSlot dev i ⟨true, pid, id, 0⟩, out) else some (dev, out)

def ctlPortDelSession (dev : BlctlDev) (pid : Nat) (delivered : Bool) : Result :=
  if dev.locked then none
  else
    match findSlot dev fun session => session.used && session.pid == pid with
    | some i =>
      some (setSlot dev i { dev.sessions i with used := false },
        nlMsgOut pid (.disconnectRsp true) delivered)
    | none => some ({ dev with locked := true }, nlMsgOut pid (.disconnectRsp false) delivered)

def ctlPortDelAllSession (dev : BlctlDev) (pid : Nat) (delivered : Bool) : Result :=
  if dev.locked then none
  else
    some ({ dev with sessions := fun i => { dev.sessions i with used := false } },
      nlMsgOut pid (.disconnectAllRsp true) delivered)

/-- The pids that a message of the device is sent to. -/
def prepareTransparentMsgRx (dev : BlctlDev) (msg : RnmMsg) : Option (List (Nat × NlMsg)) :=
  if dev.locked then none
  else
    let receives (session : Session) : Bool :=
      session.used && (msg.flags &&& rnmMsgFlagAsync != 0 || session.sessionId == msg.sessionId)
    some (((List.finRange ctlPortSessions).filter fun i => receives (dev.sessions i)).map fun i =>
      ((dev.sessions i).pid, .transparent msg.bytes))

inductive Op
  | connect (pid : Nat) (delivered : Bool)
  | disconnect (pid : Nat) (delivered : Bool)
  | disconnectAll (pid : Nat) (delivered : Bool)

def call (dev : BlctlDev) : Op → Result
  | .connect pid delivered => ctlPortNewSession dev pid delivered
  | .disconnect pid delivered => ctlPortDelSession dev pid delivered
  | .disconnectAll pid delivered => ctlPortDelAllSession dev pid delivered

/-! ## Sessions in order -/

/-- The ids of the slots in use differ, a message that is not for all goes to
at most one pid, which owns its session, and the mutex is free. -/
structure DevOk (dev : BlctlDev) : Prop where
  distinct : ∀ i j, (dev.sessions i).used = true → (dev.sessions j).used = true →
    (dev.sessions i).sessionId = (dev.sessions j).sessionId → i = j
  forwards : ∀ msg : RnmMsg, msg.flags &&& rnmMsgFlagAsync = 0 →
    ∃ sent, prepareTransparentMsgRx dev msg = some sent ∧ sent.length ≤ 1 ∧
      ∀ s ∈ sent, ∃ i, (dev.sessions i).used = true ∧ (dev.sessions i).sessionId = msg.sessionId ∧
        (dev.sessions i).pid = s.1
  released : dev.locked = false

/-- A connect reports success if and only if a slot was allocated. -/
def Reports (dev : BlctlDev) (op : Op) (r : BlctlDev × List (Nat × NlMsg)) : Prop :=
  ∀ pid delivered, op = .connect pid delivered →
    ((∃ id, (pid, NlMsg.connectRsp true id) ∈ r.2) ↔
      ∃ i, (dev.sessions i).used = false ∧ (r.1.sessions i).used = true)

def RunOk : BlctlDev → List Op → Prop
  | dev, [] => DevOk dev
  | dev, op :: ops => DevOk dev ∧ ∃ r, call dev op = some r ∧ Reports dev op r ∧ RunOk r.1 ops

/-- A connect that gets a slot gets an id that is not in use, and a disconnect
is that of a connected pid. -/
def SafeOp (dev : BlctlDev) : Op → Prop
  | .connect _ delivered => delivered = true → (∃ i, (dev.sessions i).used = false) →
    ∀ i, (dev.sessions i).used = true →
      (dev.sessions i).sessionId ≠ nextSessionId dev.lastSessionId
  | .disconnect pid _ => ∃ i, (dev.sessions i).used = true ∧ (dev.sessions i).pid = pid
  | .disconnectAll _ _ => True

def SafeRun : BlctlDev → List Op → Prop
  | _, [] => True
  | dev, op :: ops => SafeOp dev op ∧ ∀ r, call dev op = some r → SafeRun r.1 ops

variable {dev : BlctlDev}

theorem length_le_one {α : Type*} {l : List α} (hnodup : l.Nodup)
    (h : ∀ a ∈ l, ∀ b ∈ l, a = b) : l.length ≤ 1 := by
  match l with
  | [] => exact Nat.zero_le _
  | [a] => exact Nat.le_refl _
  | a :: b :: l =>
    have hab := h a List.mem_cons_self b (List.mem_cons_of_mem a List.mem_cons_self)
    rw [hab, List.nodup_cons] at hnodup
    exact absurd List.mem_cons_self hnodup.1

theorem DevOk.of_distinct (hdistinct : ∀ i j, (dev.sessions i).used = true →
    (dev.sessions j).used = true → (dev.sessions i).sessionId = (dev.sessions j).sessionId → i = j)
    (hreleased : dev.locked = false) : DevOk dev := by
  refine ⟨hdistinct, fun msg hflags => ?_, hreleased⟩
  unfold prepareTransparentMsgRx
  rw [if_neg (by simp [hreleased])]
  simp only [hflags, bne_self_eq_false, Bool.false_or]
  have hreceives : ∀ i ∈ (List.finRange ctlPortSessions).filter fun i =>
      (dev.sessions i).used && (dev.sessions i).sessionId == msg.sessionId,
      (dev.sessions i).used = true ∧ (dev.sessions i).sessionId = msg.sessionId := by
    intro i hi
    have hp := (List.mem_filter.mp hi).2
    rwa [Bool.and_eq_true, beq_iff_eq] at hp
  refine ⟨_, rfl, ?_, fun s hs => ?_⟩
  · rw [List.length_map]
    refine length_le_one ((List.nodup_finRange _).filter _) fun i hi j hj => ?_
    obtain ⟨husedI, hidI⟩ := hreceives i hi
    obtain ⟨husedJ, hidJ⟩ := hreceives j hj
    exact hdistinct i j husedI husedJ (hidI.trans hidJ.symm)
  · obtain ⟨i, hi, rfl⟩ := List.mem_map.mp hs
    obtain ⟨hused, hid⟩ := hreceives i hi
    exact ⟨i, hused, hid, rfl⟩

theorem findSlot_some {p : Session → Bool} {i : Fin ctlPortSessions} (h : findSlot dev p = some i) :
    p (dev.sessions i) = true := by
  have hfound := List.find?_some h
  exact hfound

theorem findSlot_none {p : Session → Bool} (h : findSlot dev p = none) (i : Fin ctlPortSessions) :
    p (dev.sessions i) = false := by
  have hall := List.find?_eq_none.mp h i (List.mem_finRange i)
  simpa using hall

theorem RunOk.devOk {ops : List Op} (h : RunOk dev ops) : DevOk dev := by
  cases ops with
  | nil => exact h
  | cons op ops => exact h.1

/-! ## One call -/

/-- A connect to a free slot whose answer is delivered. -/
theorem connect_slot (hok : DevOk dev) {i : Fin ctlPortSessions}
    (hslot : findSlot dev (fun session => !session.used) = some i) (pid : Nat) :
    ctlPortNewSession dev pid true =
      some (setSlot { dev with lastSessionId := nextSessionId dev.lastSessionId } i
        ⟨true, pid, nextSessionId dev.lastSessionId, 0⟩,
        [(pid, .connectRsp true (nextSessionId dev.lastSessionId))]) := by
  unfold ctlPortNewSession
  rw [if_neg (by simp [hok.released]), hslot]
  rfl

/-- The new session keeps the ids distinct if and only if its own is not in use. -/
theorem devOk_setSlot_iff (hok : DevOk dev) {i : Fin ctlPortSessions}
    (hfree : (dev.sessions i).used = false) (last pid id : Nat) :
    DevOk (setSlot { dev with lastSessionId := last } i ⟨true, pid, id, 0⟩) ↔
      ∀ j, (dev.sessions j).used = true → (dev.sessions j).sessionId ≠ id := by
  have hother : ∀ j, (dev.sessions j).used = true → j ≠ i := by
    rintro j hused rfl
    rw [hfree] at hused
    exact absurd hused (by decide)
  constructor
  · intro hok' j hused hid
    have hj := hother j hused
    refine hj (hok'.distinct j i ?_ ?_ ?_) <;> simp [setSlot, hj, hused, hid]
  · intro hnew
    refine DevOk.of_distinct (fun a b ha hb hid => ?_) hok.released
    simp only [setSlot] at ha hb hid
    by_cases hai : a = i
    · by_cases hbi : b = i
      · rw [hai, hbi]
      · rw [hai, Function.update_self, Function.update_of_ne hbi] at hid
        rw [Function.update_of_ne hbi] at hb
        exact absurd hid.symm (hnew b hb)
    · rw [Function.update_of_ne hai] at ha hid
      by_cases hbi : b = i
      · rw [hbi, Function.update_self] at hid
        exact absurd hid (hnew a ha)
      · rw [Function.update_of_ne hbi] at hb hid
        exact hok.distinct a b ha hb hid

/-- Slots that are only given up stay in order. -/
theorem DevOk.of_fewer (hok : DevOk dev) {dev' : BlctlDev}
    (hslots : ∀ i, (dev'.sessions i).used = true →
      (dev.sessions i).used = true ∧ (dev'.sessions i).sessionId = (dev.sessions i).sessionId)
    (hreleased : dev'.locked = false) : DevOk dev' := by
  refine DevOk.of_distinct (fun i j hi hj hid => ?_) hreleased
  obtain ⟨husedI, hidI⟩ := hslots i hi
  obtain ⟨husedJ, hidJ⟩ := hslots j hj
  exact hok.distinct i j husedI husedJ (by rw [← hidI, ← hidJ, hid])

theorem reports_of_not_connect {op : Op} {r : BlctlDev × List (Nat × NlMsg)}
    (h : ∀ pid delivered, op ≠ .connect pid delivered) : Reports dev op r :=
  fun pid delivered heq => absurd heq (h pid delivered)

/-- A call that is safe gives a result in order that reports rightly; one that
is not leaves slots that are not in order, or the mutex locked. -/
theorem call_spec (hok : DevOk dev) (op : Op) :
    ∃ r, call dev op = some r ∧ Reports dev op r ∧ (DevOk r.1 ↔ SafeOp dev op) := by
  cases op with
  | connect pid delivered =>
    rcases hslot : findSlot dev fun session => !session.used with - | i
    · have hfull : ∀ i, (dev.sessions i).used = true := fun i => by
        simpa using findSlot_none hslot i
      refine ⟨(dev, nlMsgOut pid (.connectRsp false 0) delivered), ?_, ?_, ?_⟩
      · rw [call, ctlPortNewSession, if_neg (by simp [hok.released]), hslot]
      · intro pid' delivered' _
        constructor
        · rintro ⟨id, hmem⟩
          cases delivered <;> simp [nlMsgOut] at hmem
        · rintro ⟨i, hfree, -⟩
          rw [hfull i] at hfree
          exact absurd hfree (by decide)
      · refine ⟨fun _ _ hfree => ?_, fun _ => hok⟩
        obtain ⟨i, hfree⟩ := hfree
        rw [hfull i] at hfree
        exact absurd hfree (by decide)
    · have hfree : (dev.sessions i).used = false := by simpa using findSlot_some hslot
      cases delivered with
      | true =>
        refine ⟨_, connect_slot hok hslot pid, ?_, ?_⟩
        · intro pid' delivered' heq
          obtain ⟨rfl, -⟩ := Op.connect.inj heq
          refine ⟨fun _ => ⟨i, hfree, ?_⟩, fun _ => ⟨_, List.mem_cons_self⟩⟩
          simp [setSlot]
        · rw [devOk_setSlot_iff hok hfree]
          exact ⟨fun h _ _ => h, fun h => h rfl ⟨i, hfree⟩⟩
      | false =>
        refine ⟨({ dev with lastSessionId := nextSessionId dev.lastSessionId }, []), ?_, ?_, ?_⟩
        · rw [call, ctlPortNewSession, if_neg (by simp [hok.released]), hslot]
          rfl
        · intro pid' delivered' _
          refine ⟨fun hsent => ?_, fun hnew => ?_⟩
          · obtain ⟨id, hmem⟩ := hsent
            exact absurd hmem List.not_mem_nil
          · obtain ⟨j, hbefore, hafter⟩ := hnew
            exact absurd (hbefore.symm.trans hafter) (by decide)
        · exact ⟨fun _ h => absurd h (by decide),
            fun _ => hok.of_fewer (fun i hi => ⟨hi, rfl⟩) hok.released⟩
  | disconnect pid delivered =>
    rcases hslot : findSlot dev fun session => session.used && session.pid == pid with - | i
    · refine ⟨({ dev with locked := true }, nlMsgOut pid (.disconnectRsp false) delivered), ?_,
        reports_of_not_connect (by simp), ⟨fun hlocked => ?_, fun hsafe => ?_⟩⟩
      · rw [call, ctlPortDelSession, if_neg (by simp [hok.released]), hslot]
      · exact absurd hlocked.released (by simp)
      · obtain ⟨i, hused, hpid⟩ := hsafe
        have hnone := findSlot_none hslot i
        simp [hused, hpid] at hnone
    · have hfound := findSlot_some hslot
      rw [Bool.and_eq_true, beq_iff_eq] at hfound
      refine ⟨(setSlot dev i { dev.sessions i with used := false },
        nlMsgOut pid (.disconnectRsp true) delivered), ?_, reports_of_not_connect (by simp),
        ⟨fun _ => ⟨i, hfound⟩, fun _ => hok.of_fewer (fun j hj => ?_) hok.released⟩⟩
      · rw [call, ctlPortDelSession, if_neg (by simp [hok.released]), hslot]
      · by_cases hji : j = i
        · subst hji
          simp [setSlot] at hj
        · rw [setSlot] at hj ⊢
          simp only [Function.update_of_ne hji] at hj ⊢
          exact ⟨hj, trivial⟩
  | disconnectAll pid delivered =>
    refine ⟨({ dev with sessions := fun i => { dev.sessions i with used := false } },
      nlMsgOut pid (.disconnectAllRsp true) delivered), ?_, reports_of_not_connect (by simp),
      ⟨fun _ => trivial, fun _ => hok.of_fewer (fun i hi => ?_) hok.released⟩⟩
    · rw [call, ctlPortDelAllSession, if_neg (by simp [hok.released])]
    · exact absurd hi (by simp)

/-! ## Whole runs -/

theorem DevOk.runOk_iff (hok : DevOk dev) {ops : List Op} : RunOk dev ops ↔ SafeRun dev ops := by
  induction ops generalizing dev with
  | nil => exact ⟨fun _ => trivial, fun _ => hok⟩
  | cons op ops ih =>
    obtain ⟨r, hcall, hreports, hnext⟩ := call_spec hok op
    constructor
    · rintro ⟨-, r', hcall', -, hrun⟩
      obtain rfl := Option.some.inj (hcall.symm.trans hcall')
      have hok' := hrun.devOk
      refine ⟨hnext.mp hok', fun r' hcall' => ?_⟩
      obtain rfl := Option.some.inj (hcall.symm.trans hcall')
      exact (ih hok').mp hrun
    · rintro ⟨hsafe, hrun⟩
      have hok' := hnext.mpr hsafe
      exact ⟨hok, r, hcall, hreports, (ih hok').mpr (hrun r hcall)⟩

/-- `ctl_dev` before the first call. -/
def BlctlDev.initial : BlctlDev :=
  { sessions := fun _ => ⟨false, 0, 0, 0⟩, lastSessionId := 0, locked := false }

theorem devOk_initial : DevOk BlctlDev.initial :=
  DevOk.of_distinct (fun _ _ hused => absurd hused (by simp [BlctlDev.initial])) rfl

/-- The sessions are in order through a run if and only if each call is safe. -/
theorem session_runs_ok_iff_safe (ops : List Op) :
    RunOk BlctlDev.initial ops ↔ SafeRun BlctlDev.initial ops :=
  devOk_initial.runOk_iff

/-- A disconnect of a pid that is not connected keeps the mutex. -/
theorem disconnect_unknown_keeps_mutex : ¬ RunOk BlctlDev.initial [.disconnect 7 true] := by
  rintro ⟨-, r, hcall, -, hok⟩
  obtain rfl := Option.some.inj hcall
  exact absurd hok.released (by decide)

end BouffaloSdk.CtlPort
