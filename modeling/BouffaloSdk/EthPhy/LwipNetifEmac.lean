import BouffaloSdk.Lhal.BflbEmac

/-!
# The glue between lwIP and the Ethernet driver

`bsp/common/eth_phy/lwip_netif_emac` hands a fixed set of buffers around: a pool of free
send buffers, the driver's rings, a queue of received frames, and whoever works on one. A
buffer is its index here. The driver's ring is the buffers between its head and tail;
cleaning the driver empties it. `eth_link_state_update` refills in steps, between which
the others go on.
-/

namespace BouffaloSdk

structure LwipEmacCfg where
  txBuffCnt : Nat
  rxBuffCnt : Nat
  txBuffSize : Nat
  txBdNumMax : Nat
  rxBdNumMax : Nat
  deriving DecidableEq, Repr

def LwipEmacCfg.default : LwipEmacCfg where
  txBuffCnt := 6
  rxBuffCnt := 10
  txBuffSize := 1522
  txBdNumMax := 64
  rxBdNumMax := 64

def ephyLinkStaUp : Int := 4

/-- How far a link-up has come: the next buffer to refill, and the readings it began with. -/
inductive LinkUpdate
  | idle
  | txRefill (i : Nat) (sta speed : Int)
  | rxRefill (i : Nat) (sta speed : Int)
  deriving DecidableEq, Repr

/-- `outputs` are the sends under way, each with its buffer and the lengths of its pbufs;
`input` is the received frame that the task works on. -/
structure LwipEmac where
  txPoolQueue : List Nat
  rxProcessQueue : List Nat
  txRing : List Nat
  rxRing : List Nat
  outputs : List (Nat × List Nat)
  input : Option Nat
  linkSta : Int
  speedMode : Int
  update : LinkUpdate
  netifLinkUp : Bool
  deriving DecidableEq, Repr

namespace LwipEmac

/-- A queue that is full refuses. -/
def queueSend {α : Type} (cap : Nat) (queue : List α) (buff : α) : List α :=
  if queue.length < cap then queue ++ [buff] else queue

def txPush (cfg : LwipEmacCfg) (s : LwipEmac) (buff : Nat) : LwipEmac :=
  { s with txRing := queueSend cfg.txBdNumMax s.txRing buff }

def rxPush (cfg : LwipEmacCfg) (s : LwipEmac) (buff : Nat) : LwipEmac :=
  { s with rxRing := queueSend cfg.rxBdNumMax s.rxRing buff }

def lwipEmacIrqCb (cfg : LwipEmacCfg) (s : LwipEmac) (event : EmacIrqEvent) (buff : Nat) :
    LwipEmac :=
  match event with
  | .rxBusy => s
  | .rxCtrlFrame | .rxErrFrame => rxPush cfg s buff
  | .rxFrame => { s with rxProcessQueue := queueSend cfg.rxBuffCnt s.rxProcessQueue buff }
  | .txFrame | .txErrFrame => { s with txPoolQueue := queueSend cfg.txBuffCnt s.txPoolQueue buff }

/-- The driver takes the oldest buffer off the ring and then calls back. -/
def irq (cfg : LwipEmacCfg) (s : LwipEmac) (event : EmacIrqEvent) : Option LwipEmac :=
  match event with
  | .rxBusy => some s
  | .rxCtrlFrame | .rxErrFrame | .rxFrame =>
    match s.rxRing with
    | [] => none
    | buff :: ring => some (lwipEmacIrqCb cfg { s with rxRing := ring } event buff)
  | .txFrame | .txErrFrame =>
    match s.txRing with
    | [] => none
    | buff :: ring => some (lwipEmacIrqCb cfg { s with txRing := ring } event buff)

/-- `emac_low_level_output` up to the point where it has a buffer, or gives up. -/
def emacLowLevelOutput (cfg : LwipEmacCfg) (s : LwipEmac) (totLen : Nat) (lens : List Nat) :
    LwipEmac :=
  if cfg.txBuffSize < totLen then s
  else
    match s.txPoolQueue with
    | [] => s
    | buff :: pool => { s with txPoolQueue := pool, outputs := s.outputs ++ [(buff, lens)] }

/-- Whether the pbufs fit one after the other, behind `byteCopy` bytes. -/
def copyFits (cfg : LwipEmacCfg) (byteCopy : Nat) : List Nat → Bool
  | [] => true
  | len :: lens =>
    if cfg.txBuffSize < byteCopy + len then false else copyFits cfg (byteCopy + len) lens

/-- The rest of the send: back into the pool, or on to the driver. -/
def outputDone (cfg : LwipEmacCfg) (s : LwipEmac) (held : Nat × List Nat) : LwipEmac :=
  let rest := { s with outputs := s.outputs.erase held }
  if copyFits cfg 0 held.2 then txPush cfg rest held.1
  else { rest with txPoolQueue := queueSend cfg.txBuffCnt s.txPoolQueue held.1 }

/-- `ethernetif_input` takes a frame, and gives its buffer back once it has passed it on. -/
def inputTake (s : LwipEmac) : Option LwipEmac :=
  match s.input, s.rxProcessQueue with
  | none, buff :: queue => some { s with input := some buff, rxProcessQueue := queue }
  | _, _ => none

def inputDone (cfg : LwipEmacCfg) (s : LwipEmac) : Option LwipEmac :=
  s.input.map fun buff => rxPush cfg { s with input := none } buff

/-- The readings of the PHY decide what a call does. -/
def ethLinkStateUpdate (s : LwipEmac) (sta speed : Int) : LwipEmac :=
  if sta = ephyLinkStaUp ∧ s.linkSta ≠ ephyLinkStaUp then
    { s with txPoolQueue := [], update := .txRefill 0 sta speed }
  else if sta ≠ ephyLinkStaUp ∧ s.linkSta = ephyLinkStaUp ∨
      sta = ephyLinkStaUp ∧ s.speedMode ≠ speed then
    { s with
      netifLinkUp := false
      txRing := []
      rxRing := []
      linkSta := speed
      speedMode := 0 }
  else s

/-- The next step of a link-up. It waits while the pool is full. -/
def updateNext (cfg : LwipEmacCfg) (s : LwipEmac) : Option LwipEmac :=
  match s.update with
  | .idle => none
  | .txRefill i sta speed =>
    if i < cfg.txBuffCnt then
      if s.txPoolQueue.length < cfg.txBuffCnt then
        some { s with
          txPoolQueue := s.txPoolQueue ++ [i], update := .txRefill (i + 1) sta speed }
      else none
    else some { s with rxProcessQueue := [], update := .rxRefill 0 sta speed }
  | .rxRefill i sta speed =>
    if i < cfg.rxBuffCnt then
      some { rxPush cfg s i with update := .rxRefill (i + 1) sta speed }
    else
      some { s with
        netifLinkUp := true, speedMode := speed, linkSta := sta, update := .idle }

inductive Event
  | output (totLen : Nat) (lens : List Nat)
  | outputDone (held : Nat × List Nat)
  | irq (event : EmacIrqEvent)
  | inputTake
  | inputDone
  | update (sta speed : Int)
  | updateNext
  deriving DecidableEq, Repr

def step (cfg : LwipEmacCfg) (s : LwipEmac) : Event → Option LwipEmac
  | .output totLen lens => some (emacLowLevelOutput cfg s totLen lens)
  | .outputDone held => if held ∈ s.outputs then some (outputDone cfg s held) else none
  | .irq event => irq cfg s event
  | .inputTake => s.inputTake
  | .inputDone => s.inputDone cfg
  | .update sta speed => if s.update = .idle then some (s.ethLinkStateUpdate sta speed) else none
  | .updateNext => s.updateNext cfg

/-- After `emac_low_level_init`. -/
def init : LwipEmac where
  txPoolQueue := []
  rxProcessQueue := []
  txRing := []
  rxRing := []
  outputs := []
  input := none
  linkSta := 0
  speedMode := 0
  update := .idle
  netifLinkUp := false

end LwipEmac

end BouffaloSdk
