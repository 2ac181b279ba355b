import Mathlib.Algebra.Order.Ring.Nat
import Mathlib.Data.List.FinRange
import Mathlib.Logic.Function.Basic

/-!
# Transmit descriptors of the SDIO device

`sdu_send_data`, the upload branch of `sdu_interrupt_handle`, `check_tx_timeout` and
`bl_sdu_reinit` of `dev_net_sdio/trcver_sdio.c`. The sender holds `tx_lock` and the others run
in one worker, so there are two threads, which take a statement or a critical section at a time.
-/

namespace BouffaloSdk.TrcverSdio

abbrev Port := Fin 16

/-- `struct sdio_tx_desc`; a callback with its argument is known by the number of its buffer. -/
structure SdioTxDesc where
  used : Bool
  cb : Option Nat
  twin : Option Port
  ref : UInt8
  tickAttached : UInt64

def SdioTxDesc.zero : SdioTxDesc := ⟨false, none, none, 0, 0⟩

/-- Where `sdu_send_data` is: in its wait, behind it, and at the descriptor before and after the
look at `used`. -/
inductive Sender
  | idle
  | waiting
  | passed
  | chosen (desc : Port)
  | entering (desc : Port)
  deriving DecidableEq

/-- Where the worker is: the statements of the upload branch, of `check_tx_timeout` and of
`bl_sdu_reinit`. -/
inductive Worker
  | idle
  | uploadDiff (rdBitmap : BitVec 16)
  | uploadLoop (diff : BitVec 16) (i : Nat)
  | uploadDesc (diff : BitVec 16) (i : Port)
  | uploadCb (diff : BitVec 16) (i : Port)
  | uploadRetire (diff : BitVec 16) (i : Port)
  | expiryStart (now : UInt64)
  | expiryLoop (now : UInt64) (i : Nat)
  | expiryCb (now : UInt64) (i : Port)
  | expiryRetire (now : UInt64) (i : Port)
  | resetPort
  | resetBitmap
  | resetLoop (i : Nat)
  | resetDescs
  | resetAttached
  deriving DecidableEq

/-- The variables of the file, with the number of buffers accepted and those whose callbacks
have been called. -/
structure State where
  descs : Port → SdioTxDesc
  attached : Nat
  currUpldPort : Port
  rdBitmapOld : BitVec 16
  sender : Sender
  worker : Worker
  accepted : Nat
  called : List Nat

def initial : State := ⟨fun _ => .zero, 0, 0, 0, .idle, .idle, 0, []⟩

inductive Event
  | call
  | giveUp
  | send (tick : UInt64)
  | upload (rdBitmap : BitVec 16)
  | checkTxTimeout (now : UInt64)
  | reinit
  | work
  deriving DecidableEq

/-- The critical section of `sdu_send_data`. -/
def State.attach (s : State) (desc : Port) (tick : UInt64) : State :=
  { s with
    descs := Function.update s.descs desc
      { used := true, cb := some s.accepted, twin := none, ref := 1, tickAttached := tick }
    rdBitmapOld := s.rdBitmapOld ||| 1#16 <<< s.currUpldPort.val
    currUpldPort := s.currUpldPort + 1
    attached := (s.attached + 1) % 2 ^ 32
    sender := .idle
    accepted := s.accepted + 1 }

/-- The next statement of `sdu_send_data`. -/
def senderStep (s : State) (tick : UInt64) : Option State :=
  match s.sender with
  | .idle => none
  | .waiting =>
    if s.rdBitmapOld.getLsbD s.currUpldPort then some s else some { s with sender := .passed }
  | .passed => some { s with sender := .chosen s.currUpldPort }
  | .chosen desc =>
    if (s.descs desc).used then some { s with sender := .idle }
    else some { s with sender := .entering desc }
  | .entering desc => some (s.attach desc tick)

def State.setUnused (s : State) (i : Port) : State :=
  { s with
    descs := Function.update s.descs i { s.descs i with used := false }
    attached := (s.attached + (2 ^ 32 - 1)) % 2 ^ 32 }

/-- A call of `desc->cb`. -/
def State.callCb (s : State) (i : Port) (w : Worker) : Option State :=
  (s.descs i).cb.map fun b => { s with called := s.called ++ [b], worker := w }

/-- The next statement of the worker, where `limit` ticks are `SDIO_TX_WDT_TIMEOUT`. A call of a
null pointer has no result. -/
def workerStep (limit : UInt64) (s : State) : Option State :=
  match s.worker with
  | .idle => none
  | .uploadDiff rdBitmap =>
    let diff := rdBitmap ^^^ s.rdBitmapOld
    some { s with worker := if diff ≠ 0 then .uploadLoop diff 0 else .idle }
  | .uploadLoop diff i =>
    if h : i < 16 then
      if ¬ diff.getLsbD i ∨ ¬ s.rdBitmapOld.getLsbD i then
        some { s with worker := .uploadLoop diff (i + 1) }
      else some { s with worker := .uploadDesc diff ⟨i, h⟩ }
    else some { s with worker := .idle }
  | .uploadDesc diff i =>
    let desc := s.descs i
    if ¬ desc.used ∨ desc.cb = none ∨ desc.twin ≠ none then
      some { s with worker := .uploadLoop diff (i + 1) }
    else
      some { s with
        descs := Function.update s.descs i { desc with ref := desc.ref - 1 }
        worker := if desc.ref - 1 ≠ 0 then .uploadLoop diff (i + 1) else .uploadCb diff i }
  | .uploadCb diff i => s.callCb i (.uploadRetire diff i)
  | .uploadRetire diff i =>
    some { s.setUnused i with
      rdBitmapOld := s.rdBitmapOld &&& ~~~(1#16 <<< i.val)
      worker := .uploadLoop diff (i + 1) }
  | .expiryStart now =>
    some { s with worker := if s.attached = 0 then .idle else .expiryLoop now 0 }
  | .expiryLoop now i =>
    if h : i < 16 then
      let d := s.descs ⟨i, h⟩
      if ¬ d.used ∨ ¬ limit < now - d.tickAttached then
        some { s with worker := .expiryLoop now (i + 1) }
      else some { s with worker := .expiryCb now ⟨i, h⟩ }
    else some { s with worker := .idle }
  | .expiryCb now i =>
    if (s.descs i).cb = none then some { s with worker := .expiryRetire now i }
    else s.callCb i (.expiryRetire now i)
  | .expiryRetire now i => some { s.setUnused i with worker := .expiryLoop now (i + 1) }
  | .resetPort => some { s with currUpldPort := 0, worker := .resetBitmap }
  | .resetBitmap => some { s with rdBitmapOld := 0, worker := .resetLoop 0 }
  | .resetLoop i =>
    if h : i < 16 then
      if (s.descs ⟨i, h⟩).used then s.callCb ⟨i, h⟩ (.resetLoop (i + 1))
      else some { s with worker := .resetLoop (i + 1) }
    else some { s with worker := .resetDescs }
  | .resetDescs => some { s with descs := fun _ => .zero, worker := .resetAttached }
  | .resetAttached => some { s with attached := 0, worker := .idle }

/-- The worker begins one of its routines. -/
def startWork (s : State) (w : Worker) : Option State :=
  if s.worker = .idle then some { s with worker := w } else none

def step (limit : UInt64) (s : State) : Event → Option State
  | .call => if s.sender = .idle then some { s with sender := .waiting } else none
  | .giveUp => if s.sender = .waiting then some { s with sender := .idle } else none
  | .send tick => senderStep s tick
  | .upload rdBitmap => startWork s (.uploadDiff rdBitmap)
  | .checkTxTimeout now => startWork s (.expiryStart now)
  | .reinit => startWork s .resetPort
  | .work => workerStep limit s

end BouffaloSdk.TrcverSdio
