import BouffaloSdk.Kit.LockedCalls
import BouffaloSdk.Log.BflogQueue

/-!
# The calls of bflog, lock by lock

The calls of `bflog.c` that use the lock of a recorder or of an output, and
those of an output that use none. A call is cut where another thread can see
or change what it works on. What a layout makes of a record is left out.
-/

namespace BouffaloSdk.BflogApi
open Bflog Kit.Locked

def bflogStatusRunning : Nat := 2
def bflogDirectStatusSuspend : Nat := 3
def bflogLevelMask : Nat := 0x7f
def bflogModeAsync : Nat := 1
def bflogCmdIllegal : Nat := 0
def bflogCmdFlag : Nat := 1
def bflogCmdLevel : Nat := 2
def bflogCmdQueuePool : Nat := 3
def bflogCmdQueueSize : Nat := 4
def bflogCmdQueueRst : Nat := 5
def bflogCmdEnterCritical : Nat := 6
def bflogCmdExitCritical : Nat := 7
def bflogCmdFlushNotice : Nat := 8
def bflogCmdMode : Nat := 9
def bflogDirectCmdLevel : Nat := 2
def bflogDirectCmdLock : Nat := 6
def bflogDirectCmdUnlock : Nat := 7
def bflogDirectCmdColor : Nat := 10
def bflogDirectTypeStream : Nat := 2
def bflogDirectTypeFile : Nat := 3
def bflogDirectTypeFileTime : Nat := 4
def bflogDirectTypeFileSize : Nat := 5
def bflogLayoutStatusReady : Nat := 1

structure Tag where
  tag : String
  en : Nat

/-- What the calls share. The tags lie between `__bflog_tags_start__` and
`__bflog_tags_end__`, 8 bytes each; `linked` tells which outputs are in a list;
`pool` is where a recorder's pool is, and `blocks` what memory there is; a
callback 0 is `dummy`. -/
structure Memory extends Sys where
  linked : Nat → Bool
  pool : Nat → Nat
  blocks : Nat → List UInt8
  enterCritical : Nat → Nat
  exitCritical : Nat → Nat
  flushNotice : Nat → Nat
  tagsStart : Nat
  tags : List Tag
  layouts : Nat → Nat
  layout : Nat → Nat
  written : List (Nat × Msg)

inductive Lock
  | critical (log : Nat)
  | direct (direct : Nat)
  deriving DecidableEq

/-- Where it matters what a call finds: where `bflog_control` looks at the
status again, where `bflog_flush` looks at an output, and where it enters
without a look at the answer. -/
inductive Place
  | any
  | recheck (log command : Nat)
  | status (direct : Nat)
  | level (direct level : Nat)
  | tag (tag filter : Nat)
  | relock

inductive Loop
  | flush (log : Nat) (area : Msg)
  | round (log filter : Nat) (area : Msg)
  | visit (log filter : Nat) (msg : Msg) (node : Option Nat)

abbrev Api := Code Loop Place Lock Memory Int

namespace Memory

def setLog (m : Memory) (log : Nat) (recorder : Recorder) : Memory :=
  { m with logs := Function.update m.logs log recorder }

def setStatus (m : Memory) (log status : Nat) : Memory :=
  m.setLog log { m.logs log with status := status }

def setDirect (m : Memory) (direct : Nat) (output : Direct) : Memory :=
  { m with directs := Function.update m.directs direct output }

def setDirectStatus (m : Memory) (direct status : Nat) : Memory :=
  m.setDirect direct { m.directs direct with status := status }

def setLinked (m : Memory) (direct : Nat) (linked : Bool) : Memory :=
  { m with linked := Function.update m.linked direct linked }

/-- The advanced tag at an address. -/
def tagAt (m : Memory) (tag : Nat) : Option Tag :=
  if m.tagsStart ≤ tag then m.tags[(tag - m.tagsStart) / 8]? else none

/-- An advanced tag that does not have the bits of `filter`. -/
def tagFiltered (m : Memory) (tag filter : Nat) : Bool :=
  match m.tagAt tag with
  | some t => tag ≠ 0 ∧ t.en &&& filter ≠ filter
  | none => false

/-- The node behind an output; one that has been removed links to itself. -/
def nextOutput (m : Memory) (log direct : Nat) : Option Nat :=
  match (m.logs log).direct.dropWhile (· ≠ direct) with
  | [] => some direct
  | _ :: rest => rest.head?

end Memory

def look (next : Memory → Api) : Api := .access .any id next

def exitCritical (log : Nat) (ret : Int) : Api := .release (.critical log) fun _ => .ret ret

/-- A call on a recorder that checks the status, enters and checks it again;
the checks give what the call returns for a status that does not do. -/
def checkedTwice (log : Nat) (first second : Nat → Option Int) (body : Memory → Memory × Int) :
    Api :=
  look fun m =>
    match first (m.logs log).status with
    | some ret => .ret ret
    | none =>
      .acquire .any (.critical log) fun ok =>
        if ok then
          .access .any
            (fun m => if (second (m.logs log).status).isSome then m else (body m).1)
            fun m => exitCritical log ((second (m.logs log).status).getD (body m).2)
        else .ret (-1)

/-- The status has to be ready or suspended. -/
def readyOrSuspend (otherwise : Int) (status : Nat) : Option Int :=
  if status = bflogStatusReady ∨ status = bflogStatusSuspend then none else some otherwise

def bflogDelete (log : Nat) : Api :=
  checkedTwice log (readyOrSuspend 0) (readyOrSuspend (-1)) fun m =>
    ({ m with
        toSys := (Bflog.bflogDelete m.toSys log).1
        linked := fun direct => m.linked direct && decide (direct ∉ (m.logs log).direct) }, 0)

def bflogAppend (log direct : Nat) : Api :=
  checkedTwice log (readyOrSuspend (-1)) (readyOrSuspend (-1)) fun m =>
    if (m.directs direct).status ≠ bflogDirectStatusReady then (m, -1)
    else if m.linked direct then (m, -1)
    else
      (((m.setLog log { m.logs log with direct := (m.logs log).direct ++ [direct] }).setLinked
        direct true).setDirectStatus direct bflogDirectStatusSuspend, 0)

def bflogRemove (log direct : Nat) : Api :=
  checkedTwice log (readyOrSuspend (-1)) (readyOrSuspend (-1)) fun m =>
    if (m.directs direct).status ≠ bflogDirectStatusSuspend then (m, -1)
    else if ¬ m.linked direct then (m, -1)
    else if direct ∈ (m.logs log).direct then
      (((m.setLog log { m.logs log with direct := (m.logs log).direct.erase direct }).setLinked
        direct false).setDirectStatus direct bflogDirectStatusReady, 0)
    else (m, -1)

/-- What `bflog_suspend` and `bflog_resume` make of a status: nothing is to be
done where it is `target`. -/
def switchFrom (target other status : Nat) : Option Int :=
  if status = target then some 0
  else if status = bflogStatusReady ∨ status = other then none
  else some (-1)

def bflogSuspend (log : Nat) : Api :=
  checkedTwice log (switchFrom bflogStatusSuspend bflogStatusRunning)
    (switchFrom bflogStatusSuspend bflogStatusRunning)
    fun m => (m.setStatus log bflogStatusSuspend, 0)

def bflogResume (log : Nat) : Api :=
  checkedTwice log (switchFrom bflogStatusRunning bflogStatusSuspend)
    (switchFrom bflogStatusRunning bflogStatusSuspend)
    fun m => (m.setStatus log bflogStatusRunning, 0)

/-- The settings of `bflog_control`, where it knows the command. -/
def configured (m : Memory) (log command param : Nat) : Option Memory :=
  let recorder := m.logs log
  if command = bflogCmdFlag then some (m.setLog log { recorder with flags := param % 2 ^ 8 })
  else if command = bflogCmdLevel then
    some (m.setLog log { recorder with level := param &&& bflogLevelMask })
  else if command = bflogCmdQueuePool then
    some { m with pool := Function.update m.pool log param }
  else if command = bflogCmdQueueSize then
    some (m.setLog log { recorder with queue := { recorder.queue with size := param % 2 ^ 16 } })
  else if command = bflogCmdQueueRst then
    some (m.setLog log { recorder with
      queue := { recorder.queue with wpos := 0, rpos := 0, free := recorder.queue.size } })
  else if command = bflogCmdFlushNotice then
    some { m with flushNotice := Function.update m.flushNotice log param }
  else if command = bflogCmdMode then some (m.setLog log { recorder with mode := param % 2 ^ 8 })
  else none

/-- Two of the ways out behind `enter_critical` do not exit. -/
def bflogControl (log command param : Nat) : Api :=
  look fun m =>
    let status := (m.logs log).status
    if status = bflogStatusReady ∨ status = bflogStatusSuspend ∨
        (status = bflogStatusRunning ∧ command = bflogCmdLevel) then
      if command = bflogCmdEnterCritical then
        .access .any (fun m => { m with enterCritical := Function.update m.enterCritical log param })
          fun _ => .ret 0
      else if command = bflogCmdExitCritical then
        .access .any (fun m => { m with exitCritical := Function.update m.exitCritical log param })
          fun _ => .ret 0
      else
        .acquire .any (.critical log) fun ok =>
          if ok then
            .access (.recheck log command)
              (fun m =>
                let status := (m.logs log).status
                if status = bflogStatusReady ∨ status = bflogStatusSuspend ∨
                    (status = bflogStatusRunning ∧ command = bflogCmdLevel) then
                  (configured m log command param).getD m
                else m)
              fun m =>
                let status := (m.logs log).status
                if status = bflogStatusRunning ∧ command ≠ bflogCmdLevel then .ret (-1)
                else if status = bflogStatusReady ∨ status = bflogStatusSuspend ∨
                    status = bflogStatusRunning then
                  if command = bflogCmdIllegal then .ret (-1)
                  else exitCritical log (if (configured m log command param).isSome then 0 else -1)
                else exitCritical log (-1)
          else .ret (-1)
    else .ret (-1)

/-- The first tag of that name is set or reset. -/
def bflogFilterSet (filter : Nat) (tagString : String) (enable : Bool) :
    List Tag → List Tag × Int
  | [] => ([], -1)
  | ps :: rest =>
    if tagString = ps.tag then
      ({ ps with en := if enable then ps.en ||| filter else ps.en &&& not32 filter } :: rest, 0)
    else
      let (rest, ret) := bflogFilterSet filter tagString enable rest
      (ps :: rest, ret)

def bflogFilter (log : Nat) (tagString : String) (enable : Bool) : Api :=
  look fun m =>
    let status := (m.logs log).status
    if status = bflogStatusReady ∨ status = bflogStatusRunning ∨ status = bflogStatusSuspend then
      .acquire .any (.critical log) fun ok =>
        if ok then
          .access .any
            (fun m => { m with
              tags := (bflogFilterSet (m.logs log).filter tagString enable m.tags).1 })
            fun m => .release (.critical log) fun ok =>
              .ret (if ok then (bflogFilterSet (m.logs log).filter tagString enable m.tags).2
                else -1)
        else .ret (-1)
    else .ret (-1)

def bflogPut (m : Memory) (log : Nat) (msg : Msg) : Option Memory :=
  (queuePut (m.logs log).queue (m.blocks (m.pool log)) msg).map fun (queue, pool) =>
    { m.setLog log { m.logs log with queue := queue } with
      blocks := Function.update m.blocks (m.pool log) pool }

/-- `area` and `flushArea` are what is on the stack of `bflog` and of the
`bflog_flush` it ends with. -/
def bflog (log : Nat) (call : LogCall) (area flushArea : Msg) : Api :=
  look fun m =>
    let recorder := m.logs log
    if recorder.status ≠ bflogStatusRunning then .ret (-1)
    else if call.level &&& bflogLevelMask > recorder.level then .ret 0
    else if m.tagFiltered call.tag recorder.filter then .ret 0
    else
      let msg := bflogMsg { call with flags := recorder.flags } area
      .acquire .any (.critical log) fun ok =>
        if ok then
          .access .any
            (fun m =>
              if (m.logs log).status = bflogStatusRunning then (bflogPut m log msg).getD m else m)
            fun m =>
              if (m.logs log).status ≠ bflogStatusRunning then exitCritical log (-1)
              else if (bflogPut m log msg).isNone then .halt
              else if (m.logs log).mode &&& bflogModeAsync ≠ 0 then exitCritical log 0
              else .release (.critical log) fun _ => .jump (.flush log flushArea)
        else .ret (-1)

/-! ## `bflog_flush` -/

def bflogFlush (log : Nat) (area : Msg) : Api :=
  look fun m =>
    let filter := (m.logs log).filter
    look fun m =>
      if (m.logs log).status = bflogStatusRunning then .jump (.round log filter area)
      else .ret (-1)

def bflogGet (m : Memory) (log : Nat) (area : Msg) : Option (Memory × Msg) :=
  (queueGet (m.logs log).queue (m.blocks (m.pool log)) area).map fun (queue, msg) =>
    (m.setLog log { m.logs log with queue := queue }, msg)

/-- One turn of the outer loop, up to the first output. -/
def flushRound (log filter : Nat) (area : Msg) : Api :=
  let area := area.put 36 [0]
  .acquire .any (.critical log) fun ok =>
    if ok then
      .access .any
        (fun m =>
          if (m.logs log).status = bflogStatusRunning then
            ((bflogGet m log area).map Prod.fst).getD m
          else m)
        fun m =>
          if (m.logs log).status ≠ bflogStatusRunning then exitCritical log (-1)
          else
            match bflogGet m log area with
            | none => .halt
            | some (_, msg) =>
              .release (.critical log) fun _ =>
                if msg.zero ≠ 0 then .ret (if msg.zero = 0xbd then 0 else -1)
                else
                  .acquire .relock (.critical log) fun _ =>
                    look fun m => .jump (.visit log filter msg (m.logs log).direct.head?)
    else .ret (-1)

/-- One turn of the loop over the outputs, for the output at `node`, or what
follows the loop. To `continue` leaves out the `enter_critical` at its end. -/
def flushVisit (log filter : Nat) (msg : Msg) : Option Nat → Api
  | none => .release (.critical log) fun _ => .jump (.round log filter msg)
  | some direct =>
    let next : Api := look fun m => .jump (.visit log filter msg (m.nextOutput log direct))
    .release (.critical log) fun _ =>
      .access (.status direct) id fun m =>
        if (m.directs direct).status ≠ bflogDirectStatusRunning then next
        else
          .access (.level direct msg.level) id fun m =>
            if msg.level &&& bflogLevelMask > (m.directs direct).level then next
            else
              .access (.tag (msg.word 28 4) filter) id fun m =>
                if m.tagFiltered (msg.word 28 4) filter then next
                else
                  .acquire .any (.direct direct) fun ok =>
                    if ok then
                      .access .any (fun m => { m with written := m.written ++ [(direct, msg)] })
                        fun _ =>
                          .release (.direct direct) fun _ =>
                            .acquire .relock (.critical log) fun _ => next
                    else .acquire .relock (.critical log) fun _ => next

/-! ## Outputs -/

def bflogDirectDelete (direct : Nat) : Api :=
  look fun m =>
    if (m.directs direct).status = bflogDirectStatusInit then
      .acquire .any (.direct direct) fun ok =>
        if ok then
          .access .any
            (fun m =>
              if (m.directs direct).status = bflogDirectStatusInit then
                let sys := (Bflog.bflogDirectDelete m.toSys direct false).1
                { m with
                  globalFilter := sys.globalFilter
                  directs := sys.directs
                  logs := fun log =>
                    { m.logs log with direct := (m.logs log).direct.erase direct }
                  linked := Function.update m.linked direct false }
              else m)
            fun m =>
              .release (.direct direct) fun _ =>
                .ret (if (m.directs direct).status = bflogDirectStatusInit then 0 else -1)
        else .ret (-1)
    else .ret (-1)

/-- `bflog_direct_suspend` and `bflog_direct_resume` take no lock. -/
def directSwitch (direct target : Nat) : Api :=
  .access .any
    (fun m =>
      if (m.directs direct).status = bflogDirectStatusRunning ∨
          (m.directs direct).status = bflogDirectStatusSuspend then
        m.setDirectStatus direct target
      else m)
    fun m =>
      .ret (if (m.directs direct).status = bflogDirectStatusRunning ∨
        (m.directs direct).status = bflogDirectStatusSuspend then 0 else -1)

def bflogDirectSuspend (direct : Nat) : Api := directSwitch direct bflogStatusSuspend
def bflogDirectResume (direct : Nat) : Api := directSwitch direct bflogStatusRunning

def bflogDirectLink (direct layout : Nat) : Api :=
  look fun m =>
    if (m.directs direct).status ≠ bflogDirectStatusReady ∧
        (m.directs direct).status ≠ bflogDirectStatusSuspend then .ret (-1)
    else if m.layouts layout ≠ bflogLayoutStatusReady then .ret (-1)
    else
      .access .any (fun m => { m with layout := Function.update m.layout direct layout })
        fun _ => .ret 0

/-- Which function unlocks the output is not kept. -/
def directConfigured (output : Direct) (command param : Nat) : Option Direct :=
  if command = bflogDirectCmdLevel then some { output with level := param &&& bflogLevelMask }
  else if command = bflogDirectCmdColor then
    some { output with color := if param ≠ 0 then 1 else 0 }
  else if command = bflogDirectCmdLock then some { output with lock := decide (param ≠ 0) }
  else if command = bflogDirectCmdUnlock then some output
  else none

def bflogDirectControl (direct command param : Nat) : Api :=
  look fun m =>
    let status := (m.directs direct).status
    if status = bflogStatusReady ∨ status = bflogStatusSuspend ∨
        (status = bflogStatusRunning ∧ command = bflogDirectCmdLevel) then
      .access .any
        (fun m =>
          ((directConfigured (m.directs direct) command param).map (m.setDirect direct)).getD m)
        fun m =>
          .ret (if (directConfigured (m.directs direct) command param).isSome then 0 else -1)
    else .ret (-1)

def bflogDirectFilter (direct : Nat) (tagString : String) (enable : Bool) : Api :=
  look fun m =>
    let status := (m.directs direct).status
    if status = bflogStatusReady ∨ status = bflogStatusRunning ∨ status = bflogStatusSuspend then
      .access .any
        (fun m => { m with
          tags := (bflogFilterSet (m.directs direct).filter tagString enable m.tags).1 })
        fun m => .ret (bflogFilterSet (m.directs direct).filter tagString enable m.tags).2
    else .ret (-1)

/-- `opens` tells whether the output's file can be opened. -/
def directInit (type direct : Nat) (opens : Bool) : Api :=
  .acquire .any (.direct direct) fun ok =>
    if ok then
      .access .any
        (fun m =>
          let output := m.directs direct
          if output.type = type ∧ output.status = bflogDirectStatusInit ∧ opens then
            m.setDirectStatus direct bflogDirectStatusReady
          else m)
        fun m =>
          let output := m.directs direct
          .release (.direct direct) fun _ =>
            .ret (if output.type = type ∧ output.status = bflogDirectStatusInit ∧ opens then 0
              else -1)
    else .ret (-1)

/-- `closes` tells whether the output's file can be closed. -/
def directDeinit (type direct : Nat) (closes : Bool) : Api :=
  look fun m =>
    if (m.directs direct).type ≠ type then .ret (-1)
    else if (m.directs direct).status ≠ bflogDirectStatusReady then .ret (-1)
    else
      .acquire .any (.direct direct) fun ok =>
        if ok then
          .access .any
            (fun m => if closes then m.setDirectStatus direct bflogDirectStatusInit else m)
            fun _ => .release (.direct direct) fun _ => .ret (if closes then 0 else -1)
        else .ret (-1)

def bflogDirectInitStream (direct : Nat) : Api := directInit bflogDirectTypeStream direct true
def bflogDirectDeinitStream (direct : Nat) : Api := directDeinit bflogDirectTypeStream direct true
def bflogDirectInitFile (direct : Nat) : Bool → Api := directInit bflogDirectTypeFile direct
def bflogDirectDeinitFile (direct : Nat) : Bool → Api := directDeinit bflogDirectTypeFile direct
def bflogDirectInitFileTime (direct : Nat) : Bool → Api :=
  directInit bflogDirectTypeFileTime direct
def bflogDirectDeinitFileTime (direct : Nat) : Bool → Api :=
  directDeinit bflogDirectTypeFileTime direct
def bflogDirectInitFileSize (direct : Nat) : Bool → Api :=
  directInit bflogDirectTypeFileSize direct
def bflogDirectDeinitFileSize (direct : Nat) : Bool → Api :=
  directDeinit bflogDirectTypeFileSize direct

inductive ApiCall
  | delete (log : Nat)
  | append (log direct : Nat)
  | remove (log direct : Nat)
  | suspend (log : Nat)
  | resume (log : Nat)
  | control (log command param : Nat)
  | filter (log : Nat) (tagString : String) (enable : Bool)
  | bflog (log : Nat) (call : LogCall) (area flushArea : Msg)
  | flush (log : Nat) (area : Msg)
  | directDelete (direct : Nat)
  | directSuspend (direct : Nat)
  | directResume (direct : Nat)
  | directLink (direct layout : Nat)
  | directControl (direct command param : Nat)
  | directFilter (direct : Nat) (tagString : String) (enable : Bool)
  | directInitStream (direct : Nat)
  | directDeinitStream (direct : Nat)
  | directInitFile (direct : Nat) (opens : Bool)
  | directDeinitFile (direct : Nat) (closes : Bool)
  | directInitFileTime (direct : Nat) (opens : Bool)
  | directDeinitFileTime (direct : Nat) (closes : Bool)
  | directInitFileSize (direct : Nat) (opens : Bool)
  | directDeinitFileSize (direct : Nat) (closes : Bool)

def start : ApiCall → Api
  | .delete log => bflogDelete log
  | .append log direct => bflogAppend log direct
  | .remove log direct => bflogRemove log direct
  | .suspend log => bflogSuspend log
  | .resume log => bflogResume log
  | .control log command param => bflogControl log command param
  | .filter log tagString enable => bflogFilter log tagString enable
  | .bflog log call area flushArea => BflogApi.bflog log call area flushArea
  | .flush log area => bflogFlush log area
  | .directDelete direct => bflogDirectDelete direct
  | .directSuspend direct => bflogDirectSuspend direct
  | .directResume direct => bflogDirectResume direct
  | .directLink direct layout => bflogDirectLink direct layout
  | .directControl direct command param => bflogDirectControl direct command param
  | .directFilter direct tagString enable => bflogDirectFilter direct tagString enable
  | .directInitStream direct => bflogDirectInitStream direct
  | .directDeinitStream direct => bflogDirectDeinitStream direct
  | .directInitFile direct opens => bflogDirectInitFile direct opens
  | .directDeinitFile direct closes => bflogDirectDeinitFile direct closes
  | .directInitFileTime direct opens => bflogDirectInitFileTime direct opens
  | .directDeinitFileTime direct closes => bflogDirectDeinitFileTime direct closes
  | .directInitFileSize direct opens => bflogDirectInitFileSize direct opens
  | .directDeinitFileSize direct closes => bflogDirectDeinitFileSize direct closes

def body : Loop → Api
  | .flush log area => bflogFlush log area
  | .round log filter area => flushRound log filter area
  | .visit log filter msg node => flushVisit log filter msg node

def calls : Calls ApiCall Loop Place Lock Memory Int := { start := start, body := body }

end BouffaloSdk.BflogApi
