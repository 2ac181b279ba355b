import BouffaloSdk.Kit.Dlist
import BouffaloSdk.Kit.Runs

/-!
# The receive buffers of the radio

`ot_radio.c`: the radio moves a buffer from the free list to the received list
and raises an event; the stack's task takes one buffer per event, hands the frame
to OpenThread and puts the buffer back. The task can be interrupted between its
critical sections.
-/

namespace BouffaloSdk.OtRadio
open Kit

abbrev Frame := List UInt8

/-- The two list heads, and the list cells of the buffers. -/
inductive Addr
  | frameList
  | rxFrameList
  | buff (i : Nat)
  deriving DecidableEq, Repr

inductive OtError
  | otErrorNone
  | otErrorNoAck
  | otErrorAbort
  | otErrorChannelAccessFailure
  | otErrorNoBufs
  deriving DecidableEq, Repr

inductive RadioState
  | disabled
  | sleep
  | receive
  | transmit
  deriving DecidableEq, Repr

def radioTxDoneNoAckReq : BitVec 32 := 0x00000100#32
def radioTxError : BitVec 32 := 0x00000200#32
def radioTxAcked : BitVec 32 := 0x00000400#32
def radioTxNoAck : BitVec 32 := 0x00000800#32
def radioTxAbort : BitVec 32 := 0x00001000#32
def radioTxAllMask : BitVec 32 :=
  radioTxDoneNoAckReq ||| radioTxError ||| radioTxAcked ||| radioTxNoAck ||| radioTxAbort
def radioRxDone : BitVec 32 := 0x00002000#32
def radioRxCrcFailed : BitVec 32 := 0x00004000#32
def radioRxNoBuff : BitVec 32 := 0x00008000#32
def radioAllMask : BitVec 32 :=
  radioTxAllMask ||| (radioRxNoBuff ||| radioRxDone ||| radioRxCrcFailed)

/-- What OpenThread is told. A transmission comes with its acknowledgement or not. -/
inductive Call
  | txDone (frame : Frame) (ack : Bool) (err : OtError)
  | receiveDone (frame : Option Frame) (err : OtError)
  deriving DecidableEq, Repr

/-- Where the stack's task is in a call of `ot_radioTask`. -/
inductive Pc
  | idle
  | start (trxEvent : BitVec 32)
  | deliver (buf : Nat)
  | release (buf : Nat)
  | check
  deriving DecidableEq, Repr

/-- `arrived` are the frames that got a buffer. -/
structure State where
  dlist : Links Addr
  frame : Nat → Frame
  pTxFrame : Option Frame
  systemEvent : BitVec 32
  pc : Pc
  calls : List Call
  arrived : List Frame

def addBuffers (m : Links Addr) : (n : Nat) → Links Addr
  | 0 => m
  | n + 1 => (addBuffers m n).addTail (.buff n) .frameList

def otRadioInit (n : Nat) (m : Links Addr) : State where
  dlist := addBuffers ((m.init .frameList).init .rxFrameList) n
  frame := fun _ => []
  pTxFrame := none
  systemEvent := 0
  pc := .idle
  calls := []
  arrived := []

def otrNotifyEvent (s : State) (sevent : BitVec 32) : State :=
  { s with systemEvent := s.systemEvent ||| sevent }

/-- The first cell of the received list, unlinked. -/
def takeReceived (s : State) : Option Nat × State :=
  if s.dlist.isEmpty .rxFrameList then (none, s)
  else
    match s.dlist.next .rxFrameList with
    | .buff i => (some i, { s with dlist := s.dlist.del (.buff i) })
    | _ => (none, s)

/-- What the event says about a transmission. -/
def txResult (trxEvent : BitVec 32) : Option (Bool × OtError) :=
  if trxEvent &&& radioTxDoneNoAckReq ≠ 0 then some (false, .otErrorNone)
  else if trxEvent &&& radioTxAcked ≠ 0 then some (true, .otErrorNone)
  else if trxEvent &&& radioTxNoAck ≠ 0 then some (false, .otErrorNoAck)
  else if trxEvent &&& radioTxAbort ≠ 0 then some (false, .otErrorAbort)
  else if trxEvent &&& radioTxError ≠ 0 then some (false, .otErrorChannelAccessFailure)
  else none

def otRadioTaskTx (s : State) (trxEvent : BitVec 32) : State :=
  match s.pTxFrame with
  | some txframe =>
    if trxEvent &&& radioTxAllMask ≠ 0 then
      match txResult trxEvent with
      | some (ack, err) =>
        { s with pTxFrame := none, calls := s.calls ++ [.txDone txframe ack err] }
      | none => { s with pTxFrame := none }
    else s
  | none => s

/-- `ot_radioTask` as far as the buffer that is to be delivered. -/
def otRadioTask (s : State) (trxEvent : BitVec 32) : State :=
  let s := { s with pc := .idle }
  if trxEvent &&& radioAllMask = 0 then s
  else
    let s := otRadioTaskTx s trxEvent
    if trxEvent &&& radioRxDone ≠ 0 then
      match takeReceived s with
      | (some pframe, s) => { s with pc := .deliver pframe }
      | (none, s) => s
    else if trxEvent &&& radioRxNoBuff ≠ 0 then
      { s with calls := s.calls ++ [.receiveDone none .otErrorNoBufs] }
    else s

/-- The task goes on to where it can next be interrupted. -/
def taskStep (s : State) : State :=
  match s.pc with
  | .idle => { s with systemEvent := 0, pc := .start s.systemEvent }
  | .start trxEvent => otRadioTask s trxEvent
  | .deliver buf =>
    { s with
      calls := s.calls ++ [.receiveDone (some (s.frame buf)) .otErrorNone]
      pc := .release buf }
  | .release buf => { s with dlist := s.dlist.addTail (.buff buf) .frameList, pc := .check }
  | .check =>
    let s := { s with pc := .idle }
    if s.dlist.isEmpty .rxFrameList then s else otrNotifyEvent s radioRxDone

def otrIsStackIdle (s : State) (radioState : RadioState) : Bool × State :=
  let (pframe, t) := takeReceived s
  (s.systemEvent == 0 && pframe.isNone && (radioState == .disabled || radioState == .sleep), t)

/-- The radio puts a frame into the first free buffer. -/
def receive (s : State) (frame : Frame) : Option State :=
  match s.dlist.next .frameList with
  | .buff i =>
    let m := s.dlist.del (.buff i)
    some (otrNotifyEvent
      { s with
        dlist := m.addTail (.buff i) .rxFrameList
        frame := Function.update s.frame i frame
        arrived := s.arrived ++ [frame] } radioRxDone)
  | _ => none

inductive Event
  | receive (frame : Frame)
  | notify (sevent : BitVec 32)
  | transmit (frame : Frame)
  | task
  | isStackIdle (radioState : RadioState)
  deriving DecidableEq, Repr

def step (s : State) : Event → Option State
  | .receive frame => receive s frame
  | .notify sevent => some (otrNotifyEvent s sevent)
  | .transmit frame => if s.pTxFrame = none then some { s with pTxFrame := some frame } else none
  | .task => some (taskStep s)
  | .isStackIdle radioState => some (otrIsStackIdle s radioState).2

/-- The frames that OpenThread was given. -/
def delivered (s : State) : List Frame :=
  s.calls.filterMap fun
    | .receiveDone frame _ => frame
    | .txDone .. => none

/-- The buffer that is being delivered. -/
def delivering : Pc → List Nat
  | .deliver buf | .release buf => [buf]
  | .idle | .start _ | .check => []

end BouffaloSdk.OtRadio
