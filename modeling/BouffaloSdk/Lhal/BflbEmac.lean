import BouffaloSdk.Kit.Word
import Mathlib.Logic.Function.Basic

/-!
# The Ethernet driver's descriptor rings

`drivers/lhal/src/bflb_emac.c` shares one descriptor memory between the two rings: the
first 64 descriptors are for sending, the rest for receiving. Heads and tails count on
without end and are masked only where a descriptor is picked. The engine takes the
descriptors of a ring in turn and gives each back with whatever status it likes.
-/

namespace BouffaloSdk
open Kit.Word

inductive EmacSide
  | tx
  | rx
  deriving DecidableEq, Repr

/-- The ring sizes are powers of two up to 64. -/
structure EmacSizes where
  log : EmacSide → Nat
  log_le : ∀ side, log side ≤ 6

def EmacSizes.bdNumMax (sizes : EmacSizes) (side : EmacSide) : Nat := 2 ^ sizes.log side

def EmacSizes.bdNumMask (sizes : EmacSizes) (side : EmacSide) : Nat := sizes.bdNumMax side - 1

structure BflbEmacTransDesc where
  buffAddr : BitVec 32
  dataLen : BitVec 16
  attrFlag : BitVec 8
  errStatus : BitVec 8
  deriving DecidableEq, Repr

inductive EmacIrqEvent
  | rxBusy
  | rxFrame
  | rxCtrlFrame
  | rxErrFrame
  | txFrame
  | txErrFrame
  deriving DecidableEq, Repr

structure EmacQueueCtrl where
  head : Nat
  tail : Nat
  deriving DecidableEq, Repr

/-- Where the interrupt handler is: `left` rounds of a loop remain, and the sending side
may come after. -/
inductive EmacIsr
  | idle
  | rx (left : Nat) (thenTx : Bool)
  | tx (left : Nat)
  deriving DecidableEq, Repr

/-- `next` is the descriptor that the engine takes next, `source` whether it has asked for
an interrupt. `reports` holds what the callback was told, `pushed` what was queued and
`done` how many of it the engine has given back. -/
structure Emac where
  mem : Nat → BitVec 32
  emacCtrl : EmacSide → EmacQueueCtrl
  attached : Bool
  next : EmacSide → Nat
  source : EmacSide → Bool
  busy : Bool
  isr : EmacIsr
  reports : List (EmacIrqEvent × Option BflbEmacTransDesc)
  pushed : EmacSide → List BflbEmacTransDesc
  done : EmacSide → Nat

namespace Emac

/-! ## Descriptors -/

def bit (set : Bool) (shift : Nat) : BitVec 32 := if set then 1#32 <<< shift else 0

def emacBdTxCsShift : Nat := 0
def emacBdTxLcShift : Nat := 2
def emacBdTxRlShift : Nat := 3
def emacBdTxUrShift : Nat := 8
def emacBdRxLcShift : Nat := 0
def emacBdRxCrcShift : Nat := 1
def emacBdRxTlShift : Nat := 3
def emacBdRxOrShift : Nat := 6
def emacBdRxCfShift : Nat := 8
def emacBdTxEofShift : Nat := 10
def emacBdTxCrcShift : Nat := 11
def emacBdTxPadShift : Nat := 12
def emacBdWrShift : Nat := 13
def emacBdIrqShift : Nat := 14
def emacBdOwnedShift : Nat := 15
def emacBdLenShift : Nat := 16

def emacTxFlagFragment : Nat := 0
def emacFlagNoInt : Nat := 1
def emacTxFlagNoCrc : Nat := 2
def emacTxFlagNoPad : Nat := 3

/-- The word of a descriptor's attributes; its address is in the word behind. -/
def bdWord : EmacSide → Nat → Nat
  | .tx, index => 2 * index
  | .rx, index => 2 * (index + 64)

def putBd (mem : Nat → BitVec 32) (word : Nat) (attr address : BitVec 32) :
    Nat → BitVec 32 :=
  Function.update (Function.update mem (word + 1) address) word attr

def txAttribute (sizes : EmacSizes) (index : Nat) (desc : BflbEmacTransDesc) : BitVec 32 :=
  bit (!desc.attrFlag.getLsbD emacTxFlagFragment) emacBdTxEofShift |||
    bit (!desc.attrFlag.getLsbD emacTxFlagNoCrc) emacBdTxCrcShift |||
    bit (!desc.attrFlag.getLsbD emacTxFlagNoPad) emacBdTxPadShift |||
    bit (!desc.attrFlag.getLsbD emacFlagNoInt) emacBdIrqShift |||
    bit (index == sizes.bdNumMask .tx) emacBdWrShift |||
    bit true emacBdOwnedShift ||| desc.dataLen.setWidth 32 <<< emacBdLenShift

def rxAttribute (sizes : EmacSizes) (index : Nat) (desc : BflbEmacTransDesc) : BitVec 32 :=
  bit (!desc.attrFlag.getLsbD emacFlagNoInt) emacBdIrqShift |||
    bit (index == sizes.bdNumMask .rx) emacBdWrShift ||| bit true emacBdOwnedShift

/-! ## The driver's calls -/

/-- What the two push calls have in common. -/
def queuePush (sizes : EmacSizes) (em : Emac) (side : EmacSide) (desc : BflbEmacTransDesc)
    (attr : Nat → BitVec 32) : Emac × Int :=
  let ctrl := em.emacCtrl side
  if sizes.bdNumMax side ≤ sub32 ctrl.tail ctrl.head then (em, -1)
  else
    let index := ctrl.tail &&& sizes.bdNumMask side
    ({ em with
        mem := putBd em.mem (bdWord side index) (attr index) desc.buffAddr
        emacCtrl := Function.update em.emacCtrl side { ctrl with tail := add32 ctrl.tail 1 }
        pushed := Function.update em.pushed side (em.pushed side ++ [desc]) }, 0)

def bflbEmacQueueTxPush (sizes : EmacSizes) (em : Emac) (desc : BflbEmacTransDesc) : Emac × Int :=
  queuePush sizes em .tx desc fun index => txAttribute sizes index desc

def bflbEmacQueueRxPush (sizes : EmacSizes) (em : Emac) (desc : BflbEmacTransDesc) : Emac × Int :=
  queuePush sizes em .rx desc fun index => rxAttribute sizes index desc

/-- 128 words, the whole of one ring. -/
def cleanBd (mem : Nat → BitVec 32) : Nat → BitVec 32 := fun word =>
  if word < 128 then 0 else mem word

def bflbEmacBdCtrlClean (em : Emac) : Emac :=
  { em with mem := cleanBd em.mem, emacCtrl := fun _ => { head := 0, tail := 0 } }

/-- The engine and its interrupt are off as well, which no call after this one tells. -/
def bflbEmacDeinit (em : Emac) : Emac :=
  { em with mem := cleanBd em.mem, emacCtrl := fun _ => { head := 0, tail := 0 } }

/-- After power-on and `bflb_emac_init`, which clears both rings. -/
def bflbEmacInit : Emac where
  mem _ := 0
  emacCtrl _ := { head := 0, tail := 0 }
  attached := false
  next _ := 0
  source _ := false
  busy := false
  isr := .idle
  reports := []
  pushed _ := []
  done _ := 0

def bflbEmacIrqAttach (em : Emac) : Emac := { em with attached := true }

/-! ## The interrupt handler -/

def rxErrStatus (attr : BitVec 32) : BitVec 8 :=
  (if attr.getLsbD emacBdRxCrcShift then 1 else 0) |||
    (if attr.getLsbD emacBdRxLcShift then 2 else 0) |||
    (if attr.getLsbD emacBdRxTlShift then 4 else 0) |||
    if attr.getLsbD emacBdRxOrShift then 8 else 0

def txErrStatus (attr : BitVec 32) : BitVec 8 :=
  (if attr.getLsbD emacBdTxLcShift then 1 else 0) |||
    (if attr.getLsbD emacBdTxCsShift then 2 else 0) |||
    (if attr.getLsbD emacBdTxRlShift then 4 else 0) |||
    if attr.getLsbD emacBdTxUrShift then 8 else 0

def rxReport (attr : BitVec 32) : EmacIrqEvent :=
  if rxErrStatus attr ≠ 0 then .rxErrFrame
  else if attr.getLsbD emacBdRxCfShift then .rxCtrlFrame else .rxFrame

def txReport (attr : BitVec 32) : EmacIrqEvent :=
  if txErrStatus attr ≠ 0 then .txErrFrame else .txFrame

/-- What the callback is told of a descriptor that is back. -/
def reportOf (side : EmacSide) (attr address : BitVec 32) :
    EmacIrqEvent × Option BflbEmacTransDesc :=
  let desc (errStatus : BitVec 8) : BflbEmacTransDesc :=
    { buffAddr := address, dataLen := (attr >>> emacBdLenShift).setWidth 16, attrFlag := 0,
      errStatus }
  match side with
  | .rx => (rxReport attr, some (desc (rxErrStatus attr)))
  | .tx => (txReport attr, some (desc (txErrStatus attr)))

/-- One round of a loop, or `none` where the loop ends. -/
def isrRound (sizes : EmacSizes) (em : Emac) (side : EmacSide) : Option Emac :=
  let ctrl := em.emacCtrl side
  let word := bdWord side (ctrl.head &&& sizes.bdNumMask side)
  let attr := em.mem word
  if attr.getLsbD emacBdOwnedShift then none
  else
    let taken := { em with
      emacCtrl := Function.update em.emacCtrl side { ctrl with head := add32 ctrl.head 1 } }
    if em.attached then
      some { taken with reports := em.reports ++ [reportOf side attr (em.mem (word + 1))] }
    else some taken

/-- The interrupt is taken back before the loop looks at the ring. -/
def enter (em : Emac) (side : EmacSide) (isr : Nat → EmacIsr) : Emac :=
  { em with
    source := Function.update em.source side false
    isr := isr (sub32 (em.emacCtrl side).tail (em.emacCtrl side).head) }

def enterTx (em : Emac) (thenTx : Bool) : Emac :=
  if thenTx then em.enter .tx .tx else { em with isr := .idle }

def reportBusy (em : Emac) : Emac :=
  if em.busy then
    { em with
      busy := false
      reports := if em.attached then em.reports ++ [(.rxBusy, none)] else em.reports }
  else em

/-- The handler reads the sources once, when it starts. -/
def bflbEmacIsr (em : Emac) : Emac :=
  if em.source .rx then em.reportBusy.enter .rx (.rx · (em.source .tx))
  else em.reportBusy.enterTx (em.source .tx)

def isrNext (sizes : EmacSizes) (em : Emac) : Option Emac :=
  match em.isr with
  | .idle => none
  | .rx 0 thenTx => some (em.enterTx thenTx)
  | .rx (left + 1) thenTx =>
    match em.isrRound sizes .rx with
    | some em' => some { em' with isr := .rx left thenTx }
    | none => some (em.enterTx thenTx)
  | .tx 0 => some { em with isr := .idle }
  | .tx (left + 1) =>
    match em.isrRound sizes .tx with
    | some em' => some { em' with isr := .tx left }
    | none => some { em with isr := .idle }

/-! ## The engine -/

/-- The engine gives the descriptor back that it has come to, with the attributes it
chooses, and asks for an interrupt if the descriptor says so. -/
def complete (em : Emac) (side : EmacSide) (status : BitVec 32) : Option Emac :=
  let word := bdWord side (em.next side)
  let attr := em.mem word
  if attr.getLsbD emacBdOwnedShift ∧ ¬ status.getLsbD emacBdOwnedShift then
    some { em with
      mem := Function.update em.mem word status
      next := Function.update em.next side
        (if attr.getLsbD emacBdWrShift then 0 else em.next side + 1)
      source := Function.update em.source side
        (em.source side || attr.getLsbD emacBdIrqShift)
      done := Function.update em.done side (em.done side + 1) }
  else none

inductive Event
  | txPush (desc : BflbEmacTransDesc)
  | rxPush (desc : BflbEmacTransDesc)
  | complete (side : EmacSide) (status : BitVec 32)
  | rxBusy
  /-- The interrupt handler starts. -/
  | isr
  /-- It takes its next step. -/
  | isrNext
  deriving DecidableEq, Repr

def step (sizes : EmacSizes) (em : Emac) : Event → Option Emac
  | .txPush desc => some (bflbEmacQueueTxPush sizes em desc).1
  | .rxPush desc => some (bflbEmacQueueRxPush sizes em desc).1
  | .complete side status => em.complete side status
  | .rxBusy => some { em with busy := true }
  | .isr =>
    if em.isr = .idle ∧ (em.busy ∨ em.source .rx ∨ em.source .tx) then some em.bflbEmacIsr
    else none
  | .isrNext => em.isrNext sizes

end Emac

end BouffaloSdk
