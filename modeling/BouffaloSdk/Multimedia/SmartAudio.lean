import BouffaloSdk.Kit.Ranked
import Mathlib.Logic.Function.Basic

/-!
# Audio sources and who may play

`components/multimedia/smart_audio_bl616` keeps the registered sources, those that wait
to start and those that wait to go on, each list by priority with the smallest number
first. Users call in at any time. The players answer through a queue that one task
empties, and the call to a player is all that is known of it here.
-/

namespace BouffaloSdk.Multimedia
open Kit.Ranked

inductive SmtaudioState
  | playing
  | pause
  | stop
  deriving DecidableEq, Repr

def SmtaudioState.toInt : SmtaudioState → Int
  | playing => 0
  | pause => 1
  | stop => 2

inductive SmtaudioPlayerEvtid
  | error
  | start
  | stop
  | underRun
  | overRun
  | pause
  | resume
  deriving DecidableEq, Repr

/-- A source. `marks` says that its player's pause and stop write the status themselves. -/
structure SmtaudioOpsNode where
  prio : Int
  id : Int
  marks : Bool
  deriving DecidableEq, Repr

structure SmtaudioDelayListNode where
  prio : Int
  id : Int
  url : Option String
  seekTime : BitVec 32
  delayReason : Int
  valid : Bool
  deriving DecidableEq, Repr

structure SmtaudioResumeListNode where
  prio : Int
  id : Int
  interruptReason : Int
  valid : Bool
  deriving DecidableEq, Repr

/-- A call to a player. -/
inductive PlayerCall
  | start (id : Int) (url : Option String) (seekTime : BitVec 64) (resume : Int)
  | pause (id : Int)
  | stop (id : Int)
  | resume (id : Int)
  deriving DecidableEq, Repr

def smtaudioLocalPlay : Int := 1

def smtaudioPlayTypeNum : Int := 4

def smtaudioTypeAll : Int := 255

def interruptReasonByUser : Int := 255

def smtaudioMessageNum : Nat := 5

def smtaudioSubstateLocalStop : Int := 5

def smtaudioSubstateMute : Int := 12

/-- `calls` is what the players were told, `asked` the sources whose pause is not
answered yet. -/
structure SmartAudio where
  ctrlList : List SmtaudioOpsNode
  status : Int → SmtaudioState
  delayList : List SmtaudioDelayListNode
  resumeList : List SmtaudioResumeListNode
  curState : Int
  lastState : Int
  resumeFlag : UInt8
  queue : List (Int × SmtaudioPlayerEvtid)
  calls : List PlayerCall
  asked : List Int

def subState (type : Int) (state : SmtaudioState) : Int := type * 3 + state.toInt

namespace SmartAudio

/-! ## The lists -/

def smtaudioCtrlListPriInsert (list : List SmtaudioOpsNode) (node : SmtaudioOpsNode) :
    List SmtaudioOpsNode :=
  enter (·.prio) node list

def delayMatches (node tmp : SmtaudioDelayListNode) : Bool :=
  tmp.delayReason == node.delayReason || tmp.id == node.id

/-- Only the first match makes way. -/
def smtaudioDelayListInsert (sa : SmartAudio) (node : SmtaudioDelayListNode) : SmartAudio :=
  { sa with
    resumeList := []
    delayList := enter (·.prio) node (sa.delayList.eraseP (delayMatches node)) }

def smtaudioResumeListInsert (sa : SmartAudio) (node : SmtaudioResumeListNode) : SmartAudio :=
  { sa with
    delayList := []
    resumeList := enter (·.prio) node (sa.resumeList.eraseP (·.id == node.id)) }

def smtaudioClearReadyList (sa : SmartAudio) : SmartAudio :=
  { sa with delayList := [], resumeList := [] }

def getSmtaudioCtrlOpsById (sa : SmartAudio) (id : Int) : Option SmtaudioOpsNode :=
  sa.ctrlList.find? (·.id == id)

def findFirstPlayingAudio (sa : SmartAudio) : Option SmtaudioOpsNode :=
  sa.ctrlList.find? fun tmp => sa.status tmp.id == .playing

/-! ## Calls to the players -/

def setStatus (sa : SmartAudio) (id : Int) (state : SmtaudioState) : SmartAudio :=
  { sa with status := Function.update sa.status id state }

def callPause (sa : SmartAudio) (node : SmtaudioOpsNode) : SmartAudio :=
  { sa with
    calls := sa.calls ++ [.pause node.id]
    asked := node.id :: sa.asked
    status := if node.marks then Function.update sa.status node.id .pause else sa.status }

def callStop (sa : SmartAudio) (node : SmtaudioOpsNode) : SmartAudio :=
  { sa with
    calls := sa.calls ++ [.stop node.id]
    status := if node.marks then Function.update sa.status node.id .stop else sa.status }

def call (sa : SmartAudio) (c : PlayerCall) : SmartAudio := { sa with calls := sa.calls ++ [c] }

/-- A source that is no longer playing has answered. -/
def answered (sa : SmartAudio) (id : Int) : SmartAudio :=
  { sa with asked := sa.asked.filter (· ≠ id) }

/-! ## The event task -/

/-- Whether an entry that waits for `reason` may go on when that source ends. -/
def smtaudioResumeState (sa : SmartAudio) (reason : Int) : Bool :=
  if reason = smtaudioLocalPlay then sa.resumeFlag != 0 else true

def switchState (sa : SmartAudio) (oldState newState : Int) : SmartAudio :=
  if oldState = newState then sa else { sa with lastState := oldState, curState := newState }

def smtaudioGetPlayType (sa : SmartAudio) : Int :=
  if sa.curState = 0 ∨ sa.curState = 1 then 0
  else if sa.curState = 6 ∨ sa.curState = 7 then 102
  else if sa.curState = 9 then 103
  else if sa.curState = 3 ∨ sa.curState = 4 then 1
  else -1

def firstOtherPlaying (sa : SmartAudio) (type : Int) : Option SmtaudioOpsNode :=
  sa.ctrlList.find? fun tmp => sa.status tmp.id == .playing && tmp.id != type

def smtaudioChangeState (sa : SmartAudio) (newState : SmtaudioState) (type : Int) : SmartAudio :=
  if sa.curState = subState type newState then sa
  else
    match sa.getSmtaudioCtrlOpsById type with
    | none => sa
    | some node =>
      if newState = .playing then
        if sa.curState = smtaudioSubstateMute then sa.callPause node
        else
          match sa.firstOtherPlaying type with
          | none => sa.switchState sa.curState (subState type newState)
          | some first =>
            if first.prio < node.prio then
              (sa.callPause node).smtaudioDelayListInsert
                { id := node.id, prio := node.prio, seekTime := 0, url := none,
                  delayReason := first.id, valid := true }
            else if node.prio < first.prio then
              ((sa.callPause first).smtaudioResumeListInsert
                { id := first.id, prio := first.prio, interruptReason := type,
                  valid := true }).switchState sa.curState (subState type newState)
            else (sa.callPause first).switchState sa.curState (subState type newState)
      -- once another source has taken over, pause and stop change nothing
      else if sa.smtaudioGetPlayType = type then
        sa.switchState sa.curState (subState type newState)
      else sa

def resumeWaits (sa : SmartAudio) (type : Int) (node : SmtaudioResumeListNode) : Bool :=
  node.interruptReason == type && node.valid && sa.smtaudioResumeState node.interruptReason

def delayWaits (sa : SmartAudio) (type : Int) (node : SmtaudioDelayListNode) : Bool :=
  node.delayReason == type && node.valid && sa.smtaudioResumeState node.delayReason

/-- What waits for a source that ended: one entry goes on. -/
def readyNext (sa : SmartAudio) (type : Int) : SmartAudio :=
  if sa.resumeList ≠ [] then
    match sa.resumeList.find? (sa.resumeWaits type) with
    | none => sa
    | some first =>
      let rest := { sa with resumeList := sa.resumeList.eraseP (sa.resumeWaits type) }
      match sa.getSmtaudioCtrlOpsById first.id with
      | none => rest
      | some node => rest.call (.resume node.id)
  else
    match sa.delayList.find? (sa.delayWaits type) with
    | none => sa
    | some first =>
      let rest := { sa with delayList := sa.delayList.eraseP (sa.delayWaits type) }
      match sa.getSmtaudioCtrlOpsById first.id with
      | none => rest
      | some node => rest.call (.start node.id first.url (first.seekTime.signExtend 64) 0)

/-- One round of the task's loop. -/
def smtaudioEventTask (sa : SmartAudio) (type : Int) (evtId : SmtaudioPlayerEvtid) :
    SmartAudio :=
  match evtId with
  | .start | .resume => (sa.setStatus type .playing).smtaudioChangeState .playing type
  | .error => ((sa.setStatus type .stop).answered type).smtaudioChangeState .stop type
  | .stop =>
    (((sa.setStatus type .stop).answered type).smtaudioChangeState .stop type).readyNext type
  | .pause =>
    (((sa.setStatus type .pause).answered type).smtaudioChangeState .pause type).readyNext type
  | .underRun | .overRun => sa

/-! ## The user's calls -/

/-- `answer` is what the player's own start returns. -/
def smtaudioStart (sa : SmartAudio) (type : Int) (url : String) (seekTime : BitVec 64)
    (resume : UInt8) (answer : Int) : SmartAudio × Int :=
  if sa.curState = smtaudioSubstateMute then (sa, 0)
  else if type < 0 ∨ smtaudioPlayTypeNum ≤ type then (sa, -1)
  else
    match sa.getSmtaudioCtrlOpsById type with
    | none => (sa, 0)
    | some node =>
      let started (sa : SmartAudio) : SmartAudio × Int :=
        ({ sa.call (.start node.id (some url) seekTime resume.toNat) with resumeFlag := resume },
          answer)
      match sa.findFirstPlayingAudio with
      | none => started sa
      | some first =>
        if first.prio < node.prio then
          (sa.smtaudioDelayListInsert
            { id := node.id, prio := node.prio, seekTime := seekTime.setWidth 32, url := some url,
              delayReason := first.id, valid := true }, 0)
        else if node.prio < first.prio then
          started ((sa.callPause first).smtaudioResumeListInsert
            { id := first.id, prio := first.prio, interruptReason := type, valid := true })
        else started (sa.callPause first)

def pauseByUser (sa : SmartAudio) (tmp : SmtaudioOpsNode) : SmartAudio :=
  if sa.status tmp.id = .playing then
    (sa.callPause tmp).smtaudioResumeListInsert
      { id := tmp.id, prio := tmp.prio, interruptReason := interruptReasonByUser, valid := true }
  else sa

def smtaudioPause (sa : SmartAudio) : SmartAudio × Int :=
  if sa.curState = smtaudioSubstateMute then (sa, 0)
  else (sa.ctrlList.foldl pauseByUser sa.smtaudioClearReadyList, 0)

def stopPlaying (sa : SmartAudio) (tmp : SmtaudioOpsNode) : SmartAudio :=
  if sa.status tmp.id = .playing then sa.callStop tmp else sa

def smtaudioStop (sa : SmartAudio) (type : Int) : SmartAudio × Int :=
  if type = smtaudioTypeAll then (sa.ctrlList.foldl stopPlaying sa, 0)
  else if 0 ≤ type ∧ type < smtaudioPlayTypeNum then
    match sa.getSmtaudioCtrlOpsById type with
    | none => (sa, 0)
    | some tmp => (sa.stopPlaying tmp, 0)
  else (sa, 0)

def smtaudioMute (sa : SmartAudio) : SmartAudio × Int :=
  if sa.curState ≠ smtaudioSubstateMute then
    (sa.switchState sa.curState smtaudioSubstateMute, 0)
  else
    match sa.findFirstPlayingAudio with
    | some tmp => (sa.switchState smtaudioSubstateMute (subState tmp.id .playing), 0)
    | none => (sa.switchState smtaudioSubstateMute smtaudioSubstateLocalStop, 0)

def resumeByUser (sa : SmartAudio) (node : SmtaudioResumeListNode) : Bool :=
  node.valid &&
    (sa.getSmtaudioCtrlOpsById node.id).any fun smtaudioNode =>
      sa.status smtaudioNode.id != .playing

/-- `answer` is what the player's own resume returns. -/
def smtaudioResume (sa : SmartAudio) (answer : Int) : SmartAudio × Int :=
  match sa.resumeList.find? sa.resumeByUser with
  | none => (sa, -1)
  | some node =>
    ({ sa.call (.resume node.id) with resumeList := sa.resumeList.eraseP sa.resumeByUser }, answer)

/-! ## Runs -/

inductive Event
  | start (type : Int) (url : String) (seekTime : BitVec 64) (resume : UInt8) (answer : Int)
  | pause
  | stop (type : Int)
  | mute
  | resume (answer : Int)
  /-- The player of `type` calls back. -/
  | player (type : Int) (evtId : SmtaudioPlayerEvtid)
  /-- The task takes the oldest answer. -/
  | task
  deriving DecidableEq, Repr

/-- A player waits while the queue is full, the task while it is empty. -/
def step (sa : SmartAudio) : Event → Option SmartAudio
  | .start type url seekTime resume answer =>
    some (sa.smtaudioStart type url seekTime resume answer).1
  | .pause => some sa.smtaudioPause.1
  | .stop type => some (sa.smtaudioStop type).1
  | .mute => some sa.smtaudioMute.1
  | .resume answer => some (sa.smtaudioResume answer).1
  | .player type evtId =>
    if (sa.getSmtaudioCtrlOpsById type).isSome ∧ sa.queue.length < smtaudioMessageNum then
      some { sa with queue := sa.queue ++ [(type, evtId)] }
    else none
  | .task =>
    match sa.queue with
    | [] => none
    | (type, evtId) :: queue => some ({ sa with queue := queue }.smtaudioEventTask type evtId)

/-- The state after the sources have registered, in that order. -/
def init (sources : List SmtaudioOpsNode) : SmartAudio where
  ctrlList := sources.foldl smtaudioCtrlListPriInsert []
  status _ := .stop
  delayList := []
  resumeList := []
  curState := smtaudioSubstateLocalStop
  lastState := smtaudioSubstateLocalStop
  resumeFlag := 0
  queue := []
  calls := []
  asked := []

end SmartAudio

end BouffaloSdk.Multimedia
