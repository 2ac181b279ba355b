import Mathlib.Data.List.Basic

/-!
# Messages of the network manager

The common header of `dev_net_mgmr/inc/rnm_msg.h` and the message record that
the client's and the server's queues carry.
-/

namespace BouffaloSdk.HostRouter

/-- `BF1B_CMD_MAX`. -/
def bf1bCmdMax : UInt16 := 30

def rnmMsgFlagAck : UInt16 := 1
def rnmMsgFlagTransparent : UInt16 := 2
def rnmMsgFlagAsync : UInt16 := 4

/-- `rnm_base_msg_t`. -/
structure RnmBaseMsg where
  cmd : UInt16
  flags : UInt16
  status : UInt16
  msgId : UInt16
  sessionId : UInt16
  msgIdReplying : UInt16
  deriving DecidableEq, Repr

def RnmBaseMsg.has (msg : RnmBaseMsg) (flag : UInt16) : Bool := msg.flags &&& flag != 0

/-- A message as it travels: the header and what follows it. -/
structure Packet where
  hdr : RnmBaseMsg
  body : List UInt8
  deriving DecidableEq, Repr

/-- `rnm_msg_t`: the header, and a copy of the whole message where it is longer. -/
structure RnmMsg where
  cmd : RnmBaseMsg
  data : Option Packet
  deriving DecidableEq, Repr

/-- The record `rnmc_cmd_send` and the `cmd_input_raw` functions make of a message. -/
def RnmMsg.copy (p : Packet) : RnmMsg where
  cmd := p.hdr
  data := if p.body = [] then none else some p

/-- `msg_to_send`: the copy where there is one, else the header alone. -/
def RnmMsg.toSend (msg : RnmMsg) : Packet := msg.data.getD ⟨msg.cmd, []⟩

end BouffaloSdk.HostRouter
