import BouffaloSdk.Kit.Credit
import Mathlib.Data.Nat.Bitwise

/-!
# The serial line over SDIO

The host's `send_tty` and `bl_handle_ext_frame_tty` and the device's
`dev_net_sdio/sdiowifi_tty.c`. The host spends credit on the bytes it sends; the
device grants credit with buffer status reports (BSR). A round of the loop in
`send_tty` is one step.
-/

namespace BouffaloSdk.HostRouter.Tty

open Kit

def sdiowifiTtyRcvBufLen : Nat := 4 * 1024
def ttyFrameMax : Nat := 2000

/-- `sdiowifi_ext_frame_tty_bsr_t`; `initial` is `SDIOWIFI_EXT_TTY_BSR_INITIAL`. -/
structure Bsr where
  initial : Bool
  incr : UInt16
  deriving DecidableEq

def Bsr.grant (bsr : Bsr) : Grant := ⟨bsr.initial, bsr.incr.toNat⟩

structure World where
  /-- `tty_credit` and `tty_msg_list` of the host. -/
  ttyCredit : Int
  ttyMsgList : List (List UInt8)
  /-- Frames on their way to the device, reports on their way to the host. -/
  frames : List (List UInt8)
  bsrs : List Bsr
  /-- The device's stream buffer, and what did not fit into it. -/
  rcvSb : List UInt8
  dropped : List UInt8
  deriving DecidableEq

/-! ## Host -/

/-- The buffers `tiny_write` makes of its input. -/
def skbs : Nat → List UInt8 → List (List UInt8)
  | 0, _ => []
  | fuel + 1, data =>
    if data = [] then [] else data.take ttyFrameMax :: skbs fuel (data.drop ttyFrameMax)

/-- `tiny_write`; after `allocs` buffers there is no memory. -/
def tinyWrite (w : World) (data : List UInt8) (allocs : Nat) : World :=
  { w with ttyMsgList := w.ttyMsgList ++ (skbs data.length data).take allocs }

/-- `tx_len` of `send_tty`. A negative credit is beyond every length as a `size_t`. -/
def txLen (credit : Int) (skb : List UInt8) : Nat :=
  min (if credit < 0 then skb.length else min credit.toNat skb.length) ttyFrameMax

/-- A round of `send_tty`; `sent` tells whether the frame gets to the device. -/
def sendTty (w : World) (skb : List UInt8) (rest : List (List UInt8)) (cardOk sent : Bool) :
    World :=
  if ¬ cardOk then { w with ttyMsgList := rest }
  else if w.ttyCredit = 0 then w
  else
    let n := txLen w.ttyCredit skb
    let left := skb.drop n
    { w with
      frames := if sent then w.frames ++ [skb.take n] else w.frames
      ttyCredit := w.ttyCredit - n
      ttyMsgList := if left = [] then rest else left :: rest }

/-- The report branch of `bl_handle_ext_frame_tty`. -/
def handleBsr (w : World) (bsr : Bsr) (rest : List Bsr) : World :=
  { w with
    ttyCredit := if bsr.initial then bsr.incr.toNat else w.ttyCredit + bsr.incr.toNat
    bsrs := rest }

/-! ## Device -/

def spacesAvailable (w : World) : Nat := sdiowifiTtyRcvBufLen - w.rcvSb.length

/-- `sdiowifi_ext_frame_handle_tty_rx`. -/
def handleTtyRx (w : World) (frame : List UInt8) (rest : List (List UInt8)) : World :=
  { w with
    frames := rest
    rcvSb := w.rcvSb ++ frame.take (spacesAvailable w)
    dropped := w.dropped ++ frame.drop (spacesAvailable w) }

/-- `sdiowifi_tty_send_bsr`; `sent` tells whether the report gets to the host. -/
def sendBsr (w : World) (initial : Bool) (incr : Nat) (sent : Bool) : World :=
  let incr := if initial then spacesAvailable w else incr
  if sent then { w with bsrs := w.bsrs ++ [⟨initial, UInt16.ofNat incr⟩] } else w

/-- `sdiowifi_tty_read`. -/
def ttyRead (w : World) (nbytes : Nat) (sent : Bool) : World :=
  let got := w.rcvSb.take nbytes
  let left := { w with rcvSb := w.rcvSb.drop nbytes }
  if 0 < got.length then sendBsr left false got.length sent else left

/-! ## Steps -/

inductive Event where
  | write (data : List UInt8) (allocs : Nat)
  | sendTty (cardOk sent : Bool)
  | rx
  | read (nbytes : Nat) (sent : Bool)
  /-- `ready_cb` answers a hello of the host. -/
  | hello (sent : Bool)
  | bsr
  deriving DecidableEq

def step (w : World) : Event → Option World
  | .write data allocs => some (tinyWrite w data allocs)
  | .sendTty cardOk sent =>
    match w.ttyMsgList with
    | [] => none
    | skb :: rest => some (sendTty w skb rest cardOk sent)
  | .rx =>
    match w.frames with
    | [] => none
    | frame :: rest => some (handleTtyRx w frame rest)
  | .read nbytes sent => some (ttyRead w nbytes sent)
  | .hello sent => some (sendBsr w true 0 sent)
  | .bsr =>
    match w.bsrs with
    | [] => none
    | bsr :: rest => some (handleBsr w bsr rest)

/-- The first hello has been answered. -/
def linkUp : World where
  ttyCredit := 0
  ttyMsgList := []
  frames := []
  bsrs := [⟨true, UInt16.ofNat sdiowifiTtyRcvBufLen⟩]
  rcvSb := []
  dropped := []

end BouffaloSdk.HostRouter.Tty
