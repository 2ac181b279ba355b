import Mathlib.Data.List.FinRange
import Mathlib.Logic.Function.Basic
import BouffaloSdk.HostRouter.RnmMsg
import BouffaloSdk.Kit.Runs

/-!
# Calls of the network manager's client

The wait slots of `dev_net_mgmr/src/rnm_client.c`. A call is split where it
unlocks the mutex or waits; the client's task takes one message at a time from
the queue. Each call passes a buffer of its own, so a buffer is named by its call.
-/

namespace BouffaloSdk.HostRouter.RnmClient

open Kit.Runs

def rnmcCmdMsgQueueCap : Nat := 4
def rnmcCmdRpcWaitSlotCnt : Nat := rnmcCmdMsgQueueCap

/-- `struct wait_slot`; `sem` is the count of its semaphore. -/
structure WaitSlot where
  used : Bool
  sessionId : UInt16
  sem : Nat
  resp : Option Nat
  deriving DecidableEq

/-- `struct cmd_rpc` and the queue of the client's task. -/
structure Rnmc where
  waitSlots : Fin rnmcCmdRpcWaitSlotCnt → WaitSlot
  lastMsgId : UInt16
  lastSessionId : UInt16
  cmdMsgQueue : List RnmMsg

inductive RnmcRet where
  | ok
  | nomem
  | timeout
  | noFreeSlot
  | invalidInput
  deriving DecidableEq

/-- How far a `rnmc_cmd_send` has come, with its slot and the session id it keeps. -/
inductive CallState where
  | idle
  | waiting (slot : Fin rnmcCmdRpcWaitSlotCnt) (session : UInt16)
  | expired (slot : Fin rnmcCmdRpcWaitSlotCnt) (session : UInt16)
  | returned (ret : RnmcRet)
  deriving DecidableEq

structure World where
  rnm : Rnmc
  calls : Nat → CallState
  /-- The `resp` buffer of each call. -/
  resp : Nat → Option RnmMsg
  /-- What went to `output_fn` and to `async_event_cb`. -/
  output : List Packet
  events : List Packet

/-! ## Slots -/

def resetWaitSlot (slot : WaitSlot) : WaitSlot :=
  { slot with used := false, sessionId := 0, resp := none }

def Rnmc.setSlot (rnm : Rnmc) (i : Fin rnmcCmdRpcWaitSlotCnt) (slot : WaitSlot) : Rnmc :=
  { rnm with waitSlots := Function.update rnm.waitSlots i slot }

/-- The first slot that satisfies `p`. -/
def Rnmc.findSlot (rnm : Rnmc) (p : WaitSlot → Bool) : Option (Fin rnmcCmdRpcWaitSlotCnt) :=
  (List.finRange rnmcCmdRpcWaitSlotCnt).find? fun i => p (rnm.waitSlots i)

def Rnmc.freeSlot (rnm : Rnmc) : Option (Fin rnmcCmdRpcWaitSlotCnt) :=
  rnm.findSlot fun slot => !slot.used

def Rnmc.sessionSlot (rnm : Rnmc) (session : UInt16) : Option (Fin rnmcCmdRpcWaitSlotCnt) :=
  rnm.findSlot fun slot => slot.used && slot.sessionId == session

/-- `sdiowifi_semaphore_signal`; the platform's semaphore counts up to `more + 1`. -/
def semSignal (more : Nat) (slot : WaitSlot) : WaitSlot :=
  { slot with sem := min (more + 1) (slot.sem + 1) }

/-! ## A call -/

def acquireSessionId (last : UInt16) : UInt16 := if last + 1 = 0 then last + 2 else last + 1

/-- The call gets as far as the slots: its input is valid, and a longer message could be copied. -/
def reachesSlots (cmd : Option Packet) (nomem : Bool) : Bool :=
  cmd.elim false fun p => p.body = [] || !nomem

/-- The critical section of `rnmc_cmd_send` for call `c`. -/
def takeSlot (rnm : Rnmc) (c : Nat) (p : Packet) : Rnmc × CallState :=
  match rnm.freeSlot with
  | none => (rnm, .returned .noFreeSlot)
  | some i =>
    let session := acquireSessionId rnm.lastSessionId
    let msgId := rnm.lastMsgId + 1
    let cmd := { p.hdr with
      flags := p.hdr.flags ||| rnmMsgFlagTransparent, sessionId := session, msgId := msgId }
    let slot := { rnm.waitSlots i with used := true, sessionId := session, resp := some c }
    ({ rnm.setSlot i slot with
        lastSessionId := session
        lastMsgId := msgId
        cmdMsgQueue := rnm.cmdMsgQueue ++ [{ RnmMsg.copy p with cmd := cmd }] },
      .waiting i session)

/-- `rnmc_cmd_send` up to its wait; `cmd` is `none` for a missing or short message. -/
def rnmcCmdSend (rnm : Rnmc) (c : Nat) (cmd : Option Packet) (nomem : Bool) : Rnmc × CallState :=
  match cmd with
  | none => (rnm, .returned .invalidInput)
  | some p => if reachesSlots cmd nomem then takeSlot rnm c p else (rnm, .returned .nomem)

/-! ## The client's task -/

/-- The message goes down the `RNM_MSG_FLAG_ACK` branch. -/
def isAck (msg : RnmMsg) : Bool :=
  msg.cmd.cmd < bf1bCmdMax && !msg.cmd.has rnmMsgFlagTransparent && msg.cmd.has rnmMsgFlagAck

def World.ack (more : Nat) (w : World) (msg : RnmMsg) : World :=
  match w.rnm.sessionSlot msg.cmd.sessionId with
  | none => w
  | some i =>
    let slot := w.rnm.waitSlots i
    { w with
      rnm := w.rnm.setSlot i (resetWaitSlot (semSignal more slot))
      resp := slot.resp.elim w.resp fun c => Function.update w.resp c (some msg) }

def World.async (w : World) (msg : RnmMsg) : World :=
  { w with events := w.events ++ [msg.toSend] }

/-- `rnmc_msg_process`. -/
def rnmcMsgProcess (more : Nat) (w : World) (msg : RnmMsg) : World :=
  if ¬ msg.cmd.cmd < bf1bCmdMax then w
  else if msg.cmd.has rnmMsgFlagTransparent then
    let p := msg.toSend
    let hdr := { p.hdr with
      msgId := msg.cmd.msgId
      sessionId := msg.cmd.sessionId
      flags := p.hdr.flags &&& ~~~rnmMsgFlagTransparent }
    { w with output := w.output ++ [{ p with hdr := hdr }] }
  else
    let acked := if msg.cmd.has rnmMsgFlagAck then w.ack more msg else w
    if msg.cmd.has rnmMsgFlagAsync then acked.async msg else acked

/-! ## Steps -/

inductive Event where
  /-- A new call runs to its wait or returns. -/
  | send (c : Nat) (cmd : Option Packet) (nomem : Bool)
  /-- The call's semaphore wait succeeds. -/
  | wake (c : Nat)
  /-- The call's semaphore wait times out. -/
  | expire (c : Nat)
  /-- A timed out call takes the mutex again and returns. -/
  | relock (c : Nat)
  /-- `rnmc_cmd_input_raw`. -/
  | input (p : Packet) (nomem : Bool)
  /-- The client's task handles one message. -/
  | task
  deriving DecidableEq

def World.setCall (w : World) (c : Nat) (state : CallState) : World :=
  { w with calls := Function.update w.calls c state }

/-- A write to a full queue blocks. -/
def World.unlessFull (w : World) : Option World :=
  if w.rnm.cmdMsgQueue.length ≤ rnmcCmdMsgQueueCap then some w else none

def step (more : Nat) (w : World) : Event → Option World
  | .send c cmd nomem =>
    if w.calls c = .idle then
      let (rnm, state) := rnmcCmdSend w.rnm c cmd nomem
      ({ w with rnm := rnm }.setCall c state).unlessFull
    else none
  | .wake c =>
    match w.calls c with
    | .waiting i _ =>
      let slot := w.rnm.waitSlots i
      if 0 < slot.sem then
        some ({ w with rnm := w.rnm.setSlot i { slot with sem := slot.sem - 1 } }.setCall c
          (.returned .ok))
      else none
    | _ => none
  | .expire c =>
    match w.calls c with
    | .waiting i session =>
      if (w.rnm.waitSlots i).sem = 0 then some (w.setCall c (.expired i session)) else none
    | _ => none
  | .relock c =>
    match w.calls c with
    | .expired i _ =>
      some ({ w with rnm := w.rnm.setSlot i (resetWaitSlot (w.rnm.waitSlots i)) }.setCall c
        (.returned .timeout))
    | _ => none
  | .input p nomem =>
    if p.body ≠ [] ∧ nomem then some w
    else
      let rnm := { w.rnm with cmdMsgQueue := w.rnm.cmdMsgQueue ++ [RnmMsg.copy p] }
      { w with rnm := rnm }.unlessFull
  | .task =>
    match w.rnm.cmdMsgQueue with
    | [] => none
    | msg :: rest =>
      let rnm := { w.rnm with cmdMsgQueue := rest }
      some (rnmcMsgProcess more { w with rnm := rnm } msg)

/-- `rnm_client_init`. -/
def rnmClientInit : World where
  rnm := {
    waitSlots := fun _ => ⟨false, 0, 0, none⟩
    lastMsgId := 0
    lastSessionId := 0
    cmdMsgQueue := [] }
  calls := fun _ => .idle
  resp := fun _ => none
  output := []
  events := []

end BouffaloSdk.HostRouter.RnmClient
