import Mathlib.Data.List.FinRange
import Mathlib.Logic.Function.Basic
import BouffaloSdk.HostRouter.RnmMsg

/-!
# Calls of the host's control library

`blctl_rnm_msg_expect` and `read_thread` of `host_linux/userspace/blctl.c`. A
call is split where it takes or waits for something another thread can change.
-/

namespace BouffaloSdk.HostRouter.Blctl

def waitSlotsCnt : Nat := 4

/-- The reader's copy of a received message; `id` counts the copies made so far. -/
structure Copy where
  id : Nat
  msg : Packet
  deriving DecidableEq

/-- What a call waits for: the command id and the `msg_id` of its request. -/
structure Request where
  cmdId : UInt16
  seq : UInt16
  deriving DecidableEq

/-- `wait_env_t`. -/
structure WaitEnv where
  req : Request
  sem : Nat
  resp : Option Copy
  deriving DecidableEq

/-- How far a `blctl_rnm_msg_expect` has come. -/
inductive CallState where
  | idle
  /-- It has a wait slot and its message is numbered. -/
  | sending (slot : Fin waitSlotsCnt) (req : Request) (msg : Packet)
  | waiting (slot : Fin waitSlotsCnt) (req : Request)
  /-- It gives up and has to free its slot. -/
  | failing (slot : Fin waitSlotsCnt) (req : Request) (ret : Int)
  /-- Its wait succeeded and it read `wait->resp`. -/
  | answered (slot : Fin waitSlotsCnt) (req : Request) (rsp : Copy)
  /-- What it returned and what it stored in `*response`. -/
  | returned (req : Option Request) (ret : Int) (response : Option Packet)
  deriving DecidableEq

structure World where
  sid : UInt16
  waitSlots : Fin waitSlotsCnt → Option WaitEnv
  txLastSeq : UInt16
  /-- The call that left `wait_slots_lock` locked. -/
  lock : Option Nat
  hasHandler : Bool
  calls : Nat → CallState
  sent : List Packet
  handled : List Packet
  /-- How many copies the reader has made, and which were freed. -/
  received : Nat
  freed : List Nat

def World.setCall (w : World) (c : Nat) (state : CallState) : World :=
  { w with calls := Function.update w.calls c state }

def World.setSlot (w : World) (i : Fin waitSlotsCnt) (wait : Option WaitEnv) : World :=
  { w with waitSlots := Function.update w.waitSlots i wait }

def World.findSlot (w : World) (p : Option WaitEnv → Bool) : Option (Fin waitSlotsCnt) :=
  (List.finRange waitSlotsCnt).find? fun i => p (w.waitSlots i)

/-! ## A call -/

/-- `alloc_wait_env` and what the call does with its result. With no slot left
the function returns without unlocking. -/
def allocWaitEnv (w : World) (c : Nat) (msg : Packet) (nomem : Bool) : World :=
  match w.findSlot Option.isNone with
  | none => { w with lock := some c }.setCall c (.returned none (-1) none)
  | some i =>
    if nomem then w.setCall c (.returned none (-1) none)
    else
      let req : Request := ⟨msg.hdr.cmd, w.txLastSeq + 1⟩
      let hdr := { msg.hdr with sessionId := w.sid, msgId := req.seq }
      ({ w with txLastSeq := req.seq }.setSlot i (some ⟨req, 0, none⟩)).setCall c
        (.sending i req { msg with hdr := hdr })

/-- The copy in a wait slot. -/
def respId (wait : Option WaitEnv) : Option Nat := wait.bind fun env => env.resp.map Copy.id

/-- `free_wait_env`. -/
def freeWaitEnv (w : World) (i : Fin waitSlotsCnt) : World :=
  { w with freed := w.freed ++ (respId (w.waitSlots i)).toList }.setSlot i none

/-! ## The reader -/

def Request.answeredBy (req : Request) (msg : Packet) : Bool :=
  msg.hdr.has rnmMsgFlagAck && msg.hdr.cmd == req.cmdId && msg.hdr.msgIdReplying == req.seq

/-- The slot whose call waits for this message. -/
def World.receiver (w : World) (msg : Packet) : Option (Fin waitSlotsCnt) :=
  w.findSlot fun wait => wait.any fun env => env.req.answeredBy msg

/-- The end of the loop: the registered handler frees the message, or the reader does. -/
def wildcard (w : World) (copy : Copy) : World :=
  { w with
    handled := if w.hasHandler then w.handled ++ [copy.msg] else w.handled
    freed := w.freed ++ [copy.id] }

/-- A message of type `CTL_PORT_MSG_TRANSPARENT_DEVICE2HOST`, or of another type. -/
def handle (w : World) (copy : Copy) (transparent : Bool) : World :=
  if transparent then
    match w.receiver copy.msg with
    | none => wildcard w copy
    | some i => w.setSlot i ((w.waitSlots i).map fun env =>
        { env with resp := some copy, sem := env.sem + 1 })
  else wildcard w copy

/-! ## Steps -/

inductive Event where
  | call (c : Nat) (msg : Packet) (nomem : Bool)
  /-- `ctl_msg_send` returns. -/
  | send (c : Nat) (ret : Int)
  /-- `sem_timedwait_ms` returns, with success or not. -/
  | wake (c : Nat)
  | expire (c : Nat)
  /-- A failed call frees its slot and returns. -/
  | giveUp (c : Nat)
  /-- An answered call copies the response, frees its slot and returns. -/
  | finish (c : Nat) (nomem : Bool)
  /-- One round of `read_thread`. -/
  | deliver (msg : Packet) (transparent : Bool) (nomem : Bool)
  deriving DecidableEq

/-- A step that locks `wait_slots_lock`. -/
def World.locking (w t : World) : Option World := if w.lock = none then some t else none

def step (w : World) : Event → Option World
  | .call c msg nomem =>
    if w.calls c = .idle then w.locking (allocWaitEnv w c msg nomem) else none
  | .send c ret =>
    match w.calls c with
    | .sending i req msg =>
      if ret = 0 then some ({ w with sent := w.sent ++ [msg] }.setCall c (.waiting i req))
      else some (w.setCall c (.failing i req ret))
    | _ => none
  | .wake c =>
    match w.calls c with
    | .waiting i req =>
      match w.waitSlots i with
      -- the reader stores the response before it posts
      | some ⟨own, sem + 1, some rsp⟩ =>
        some ((w.setSlot i (some ⟨own, sem, some rsp⟩)).setCall c (.answered i req rsp))
      | _ => none
    | _ => none
  | .expire c =>
    match w.calls c with
    | .waiting i req =>
      match w.waitSlots i with
      | some ⟨_, 0, _⟩ => some (w.setCall c (.failing i req (-1)))
      | _ => none
    | _ => none
  | .giveUp c =>
    match w.calls c with
    | .failing i req ret =>
      w.locking ((freeWaitEnv w i).setCall c (.returned (some req) ret none))
    | _ => none
  | .finish c nomem =>
    match w.calls c with
    | .answered i req rsp =>
      w.locking ((freeWaitEnv w i).setCall c
        (.returned (some req) 0 (if nomem then none else some rsp.msg)))
    | _ => none
  | .deliver msg transparent nomem =>
    if nomem then some w
    else
      let t := handle { w with received := w.received + 1 } ⟨w.received, msg⟩ transparent
      if transparent && msg.hdr.has rnmMsgFlagAck then w.locking t else some t

/-- `blctl_init2`; the session id comes from the driver. -/
def blctlInit (sid : UInt16) (hasHandler : Bool) : World where
  sid := sid
  waitSlots := fun _ => none
  txLastSeq := 0
  lock := none
  hasHandler := hasHandler
  calls := fun _ => .idle
  sent := []
  handled := []
  received := 0
  freed := []

end BouffaloSdk.HostRouter.Blctl
