import BouffaloSdk.HostRouter.RnmOta

/-!
# Firmware update from the host

The host side, `host_linux/userspace/blctl_ota.c`, against `rnms_handle_ota`
over a channel that loses and reorders nothing: every message is handled
before `blctl_rnm_msg_expect` returns.
-/

namespace BouffaloSdk.HostRouter.Ota
open Kit Kit.Word

/-- The two ends of the channel, and the messages that were answered. -/
structure Link where
  dev : Dev
  sid : UInt16
  txLastSeq : UInt16
  log : List (OtaMsg × OtaReply)

/-- The header of the next request. -/
def Link.hdr (link : Link) : RnmBaseMsg where
  cmd := 25
  flags := 0
  status := 0
  msgId := link.txLastSeq + 1
  sessionId := link.sid
  msgIdReplying := 0

/-- `blctl_rnm_msg_expect`. Without an answer to this request it times out. -/
def expect (heap : Heap) (link : Link) (msg : OtaMsg) : Link × Option OtaReply :=
  let sent := { link with txLastSeq := link.hdr.msgId }
  match rnmsHandleOta link.dev link.hdr heap msg with
  | .error _ => (sent, none)
  | .ok (dev, none) => ({ sent with dev := dev }, none)
  | .ok (dev, some reply) =>
    let received := { sent with dev := dev, log := link.log ++ [(msg, reply)] }
    if reply.hdr.cmd = link.hdr.cmd ∧ reply.hdr.msgIdReplying = link.hdr.msgId then
      (received, some reply)
    else (received, none)

/-- A request that succeeds with one of the accepted answers. -/
def request (heap : Heap) (link : Link) (msg : OtaMsg) (accept : OtaStatus → Bool) : Link × Int :=
  match expect heap link msg with
  | (link, none) => (link, -1)
  | (link, some reply) => (link, if accept reply.status then 0 else -1)

def blctlOtaStart (heap : Heap) (link : Link) : Link × Int :=
  request heap link .start (· = .startAck)

def blctlOtaAbort (heap : Heap) (link : Link) : Link × Int :=
  request heap link .abort (· = .abortAck)

/-- A part is acknowledged with `PROGRAM_ACK`, the last one with `FIN_ACK`. -/
def programmedAck : OtaStatus → Bool
  | .programAck _ => true
  | .finAck => true
  | _ => false

def blctlOtaProgramPart (heap : Heap) (link : Link) (offset : Nat) (data : List UInt8) :
    Link × Int :=
  request heap link (.programPart offset data) programmedAck

def blctlOtaCommit (heap : Heap) (link : Link) : Link × Int :=
  request heap link .commit (· = .commitAck)

/-- How the loop of `blctl_ota` ended, with the value of `ret`. -/
structure Loop where
  link : Link
  ret : Int
  finished : Bool

/-- The loop of `blctl_ota`; `rest` is what is left to read of the file, and
`ret` keeps the value of the request before. -/
def programParts (heap : Heap) (binSize : Nat) (link : Link) (ret : Int) (writeOffset : Nat)
    (rest : List UInt8) : Loop :=
  if _hmore : writeOffset < binSize then
    let programSize := min (binSize - writeOffset) rnmOtaPartSize
    let readBuf := rest.take programSize
    if _hread : readBuf.length = programSize then
      let sent := blctlOtaProgramPart heap link writeOffset readBuf
      if sent.2 ≠ 0 then { link := sent.1, ret := sent.2, finished := false }
      else programParts heap binSize sent.1 sent.2 (add32 writeOffset programSize)
        (rest.drop programSize)
    else { link := link, ret := ret, finished := false }
  else { link := link, ret := ret, finished := true }
termination_by rest.length
decreasing_by
  have hpos : 0 < programSize := by
    simp only [programSize, rnmOtaPartSize]
    omega
  have hle : programSize ≤ rest.length := by
    have hlen : readBuf.length = min programSize rest.length := List.length_take
    omega
  rw [List.length_drop]
  omega

/-- `blctl_ota` on a file that can be opened. -/
def blctlOta (heap : Heap) (link : Link) (file : List UInt8) : Link × Int :=
  let started := blctlOtaStart heap link
  if started.2 ≠ 0 then started
  else
    let programmed := programParts heap file.length started.1 started.2 0 file
    if programmed.finished then blctlOtaCommit heap programmed.link
    else (programmed.link, programmed.ret)

end BouffaloSdk.HostRouter.Ota
