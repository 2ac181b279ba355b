import BouffaloSdk.HostRouter.RnmOta

/-!
# The server of the network manager

Command handling on the device, `dev_net_mgmr/src/rnm_server_cmd_handler.c`
with the callbacks of `rnm_user_ext.c` and the ready callback of
`dev_net_sdio/sdiowifi_mgmr.c`. A handler may answer by itself or leave the
answer to `rnms_msg_process`, as its return value says.
-/

namespace BouffaloSdk.HostRouter.Server
open Kit

/-! ## Messages -/

inductive Bf1bCmd where
  | reboot | reset | hello | ping | getMacAddr | scan | scanResults
  | staConnect | staDisconnect | staConnectedInd | staDisconnectedInd | staIpUpdateInd
  | staSetAutoReconnect | staGetLinkStatus
  | apStart | apStop | apStartedInd | apStoppedInd | apGetStaList
  | monitorStart | monitorStop | monitorSetChannel | monitorGetChannel
  | setLpmMode | getDevVersion | ota | ext | userExt | userExtNoRsp | userExtRsp
  deriving DecidableEq, Repr

/-- `bf1b_cmd_t`, in the order of its numbers. -/
def bf1bCmds : List Bf1bCmd := [
  .reboot, .reset, .hello, .ping, .getMacAddr, .scan, .scanResults,
  .staConnect, .staDisconnect, .staConnectedInd, .staDisconnectedInd, .staIpUpdateInd,
  .staSetAutoReconnect, .staGetLinkStatus,
  .apStart, .apStop, .apStartedInd, .apStoppedInd, .apGetStaList,
  .monitorStart, .monitorStop, .monitorSetChannel, .monitorGetChannel,
  .setLpmMode, .getDevVersion, .ota, .ext, .userExt, .userExtNoRsp, .userExtRsp]

def statusOk : UInt16 := 0
def statusNomem : UInt16 := 128
def statusInvalidInput : UInt16 := 129
def statusInvalidMode : UInt16 := 130
def statusErrUnspecified : UInt16 := 131
def statusNotImplemented : UInt16 := 132

/-- `chr_t`. -/
structure Chr where
  status : UInt16
  noAck : Bool
  deriving DecidableEq, Repr

def cmdHandlerRetOkAck : Chr := { status := statusOk, noAck := false }
def cmdHandlerRetNoAck : Chr := { status := statusOk, noAck := true }
def cmdHandlerRetErrAck (e : UInt16) : Chr := { status := e, noAck := false }

/-! ## State and surroundings -/

inductive RnmWifiMode where
  | none | ap | sta | apSta | sniffer
  deriving DecidableEq, Repr

/-- `rnms_t`. The update session and `last_msg_id` are those of `dev`. -/
structure Rnms where
  dev : Ota.Dev
  mode : RnmWifiMode
  readyCb : Bool
  haveValidStaIp : Bool
  heartbeatTimer : Bool
  heartbeatFailures : UInt8
  heartbeatThreshold : UInt8

/-- The compile-time choices. -/
structure Build where
  bl616 : Bool
  dhcpInEmb : Bool
  usbwifiEnable : Bool
  heartbeat : Bool

/-- The states that the older Wi-Fi manager distinguishes. -/
inductive WifiState where
  | unknown | idle | withApIdle
  | connecting | withApConnecting
  | connectedIpGetting | withApConnectedIpGetting
  | connectedIpGot | withApConnectedIpGot
  | disconnect | withApDisconnect
  deriving DecidableEq, Repr

structure ScanItem where
  bssid : List UInt8
  ssid : List UInt8
  channel : UInt8
  rssi : UInt8
  auth : UInt8
  cipher : UInt8

structure StaBasicInfo where
  isUsed : Bool
  staMac : List UInt8

/-- What the Wi-Fi manager, the network stack and the heap answer while a
command is handled. `heapBytes` is what new memory holds. -/
structure Wifi where
  scanRet : Int
  scanlistNums : Nat
  scanlist : List ScanItem
  staMac : List UInt8
  apMac : List UInt8
  staState : Bool
  rssi : Option UInt8
  channel : Option UInt8
  state : Option WifiState
  detailedState : WifiState
  staCnt : UInt8
  apSta : List StaBasicInfo
  ip4 : List UInt8
  malloc : Bool
  heapBytes : Nat → UInt8
  otaHeap : Ota.Heap

/-- What a handler asks of the Wi-Fi manager. -/
inductive WifiCall where
  | reboot
  | staConnect (ssid : List UInt8) (password : Option (List UInt8)) (useDhcp : Bool)
  | staEnable | staDisable | staDisconnect
  | autoconnect (en : Bool)
  | apEnable
  | apStart (ssid : List UInt8) (passwd : Option (List UInt8)) (channel : Nat) (useDhcpd : Bool)
  | apStop
  | snifferEnable | snifferDisable | snifferRegister | snifferUnregister
  | channelSet (channel : Nat)
  deriving DecidableEq, Repr

/-- Ways not to return. -/
inductive Fault where
  | nullPointer
  | outOfBounds
  | ota (fault : Ota.Fault)
  deriving DecidableEq, Repr

/-- A handler's effect, the messages it output and its return value. -/
structure Handled where
  rnm : Rnms
  out : List Packet
  calls : List WifiCall
  ret : Chr

def Rnms.returns (rnm : Rnms) (calls : List WifiCall) (ret : Chr) : Handled where
  rnm := rnm
  out := []
  calls := calls
  ret := ret

/-- The next message id, `++rnm->last_msg_id`. -/
def Rnms.nextMsgId (rnm : Rnms) : Rnms :=
  { rnm with dev := { rnm.dev with lastMsgId := rnm.dev.lastMsgId + 1 } }

def rnmsMsgFillCommon (rnm : Rnms) (cmd : RnmMsg) : Rnms × RnmBaseMsg :=
  let rnm := rnm.nextMsgId
  (rnm, {
    cmd := cmd.cmd.cmd
    flags := rnmMsgFlagAck
    status := statusOk
    msgId := rnm.dev.lastMsgId
    sessionId := cmd.cmd.sessionId
    msgIdReplying := cmd.cmd.msgId })

def rnmsMsgOutput (msg : Packet) : List Packet := if msg.hdr.cmd < bf1bCmdMax then [msg] else []

/-- A response with the given status and body. -/
def Rnms.answers (rnm : Rnms) (cmd : RnmMsg) (body : List UInt8) (ret : Chr) : Handled :=
  let (rnm, hdr) := rnmsMsgFillCommon rnm cmd
  { rnm := rnm, out := rnmsMsgOutput ⟨hdr, body⟩, calls := [], ret := ret }

/-! ## Layout -/

/-- The size of `rnm_base_msg_t`. -/
def rnmBaseMsgSize : Nat := 12

/-- Exactly `n` bytes. -/
def field (n : Nat) (bytes : List UInt8) : List UInt8 := (bytes ++ List.replicate n 0).take n

def cString (bytes : List UInt8) : List UInt8 := bytes.takeWhile (· ≠ 0)

/-- `CMD_COMMON_CHECK`: the message behind its header, when it has the size of the type. -/
def cmdCommonCheck (cmd : RnmMsg) (size : Nat) : Option (List UInt8) :=
  match cmd.data with
  | none => none
  | some data => if rnmBaseMsgSize + data.body.length = size then some data.body else none

/-! ## Handlers -/

def stopAp : List WifiCall := [.apStop]

def stopSta (b : Build) (w : Wifi) : List WifiCall :=
  if b.bl616 then [.staDisconnect]
  else
    let doDisconnect :=
      match w.detailedState with
      | .unknown | .idle | .withApIdle => false
      | _ => true
    .autoconnect false :: if doDisconnect then [.staDisconnect, .staDisable] else []

def handleReset (b : Build) (w : Wifi) (rnm : Rnms) : Handled :=
  let calls : List WifiCall :=
    match rnm.mode with
    | .ap => stopAp
    | .sta => stopSta b w
    | .apSta => stopAp ++ stopSta b w
    | .sniffer => if b.bl616 then [] else [.snifferDisable, .snifferUnregister]
    | .none => []
  { rnm with mode := .none }.returns calls cmdHandlerRetOkAck

/-- `rnms_notify_sta_ip_addr`, or `rnms_notify_sdioeth_ip_addr` in a build with `CFG_DUAL_ETH`. -/
def rnmsNotifyStaIpAddr (w : Wifi) (rnm : Rnms) : Rnms × List Packet :=
  if ¬ rnm.haveValidStaIp then (rnm, [])
  else
    let rnm := rnm.nextMsgId
    (rnm, rnmsMsgOutput {
      hdr := {
        cmd := 11
        flags := rnmMsgFlagAsync
        status := 0
        msgId := rnm.dev.lastMsgId
        sessionId := 0
        msgIdReplying := 0 }
      body := field 20 w.ip4 ++ List.replicate 6 0 })

/-- `ready_cb`. -/
def ready (b : Build) (w : Wifi) (rnm : Rnms) : Rnms × List Packet :=
  let (rnm, out) := if b.dhcpInEmb then rnmsNotifyStaIpAddr w rnm else (rnm, [])
  if b.heartbeat then
    ({ rnm with heartbeatTimer := true, heartbeatFailures := 0, heartbeatThreshold := 2 }, out)
  else (rnm, out)

def handleHello (b : Build) (w : Wifi) (rnm : Rnms) : Handled :=
  if rnm.readyCb then
    let (rnm, out) := ready b w rnm
    { rnm := rnm, out := out, calls := [], ret := cmdHandlerRetNoAck }
  else rnm.returns [] cmdHandlerRetNoAck

def handlePing (rnm : Rnms) : Handled := rnm.returns [] cmdHandlerRetOkAck

def handleGetMacAddr (w : Wifi) (rnm : Rnms) (cmd : RnmMsg) : Handled :=
  rnm.answers cmd (field 6 w.staMac ++ field 6 w.apMac) cmdHandlerRetNoAck

def handleScan (w : Wifi) (rnm : Rnms) : Handled :=
  if w.scanRet ≠ 0 then rnm.returns [] (cmdHandlerRetErrAck statusErrUnspecified)
  else rnm.returns [] cmdHandlerRetOkAck

def authToRnm (auth : UInt8) : UInt8 := if auth ≤ 7 then auth + 1 else 0

def cipherToRnm (cipher : UInt8) : UInt8 := if cipher ≤ 4 then cipher + 1 else 0

/-- The sizes of `struct bf1b_wifi_scan_record` and `rnm_scan_ind_msg_t`. -/
def scanRecordSize : Nat := 44
def rnmScanIndMsgSize : Nat := 14

/-- The record that `scan_item_cb` stores. -/
def scanItemCb (item : ScanItem) : List UInt8 :=
  field 6 item.bssid ++ field 32 item.ssid ++ [0] ++ [item.channel, 0] ++
    [item.rssi, authToRnm item.auth, cipherToRnm item.cipher]

/-- Records that the callback does not reach keep what the memory held. -/
def scanRecords (w : Wifi) (num : Nat) : List UInt8 :=
  let filled := (w.scanlist.take num).flatMap scanItemCb
  filled ++ ((List.range (num * scanRecordSize)).map w.heapBytes).drop filled.length

/-- The response is sent here, and the return value asks for another one. -/
def handleScanResults (b : Build) (w : Wifi) (rnm : Rnms) (cmd : RnmMsg) : Handled :=
  let msgLenLimit := if b.usbwifiEnable then 1514 else 2000
  let cntLimit := (msgLenLimit - rnmScanIndMsgSize) / scanRecordSize
  let cntTotal := if w.scanlistNums > cntLimit then cntLimit else w.scanlistNums
  if ¬ w.malloc then rnm.returns [] (cmdHandlerRetErrAck statusNomem)
  else rnm.answers cmd (toLE 2 cntTotal ++ scanRecords w cntTotal) cmdHandlerRetOkAck

def handleStaConnect (b : Build) (w : Wifi) (rnm : Rnms) (cmd : RnmMsg) : Handled :=
  if ¬ (rnm.mode = .none ∨ rnm.mode = .sta) then
    rnm.returns [] (cmdHandlerRetErrAck statusInvalidMode)
  else
    match cmdCommonCheck cmd 110 with
    | none => rnm.returns [] (cmdHandlerRetErrAck statusInvalidInput)
    | some ccmd =>
      let ssid := cString (ccmd.drop 2)
      if ssid = [] then rnm.returns [] (cmdHandlerRetErrAck statusInvalidInput)
      else
        let (mode, stops) :=
          match rnm.mode with
          | .none => (RnmWifiMode.sta, [])
          | .ap => (.apSta, [])
          | mode => (mode, stopSta b w)
        let password := cString (ccmd.drop 34)
        let connect := WifiCall.staConnect ssid (if password = [] then none else some password)
          b.dhcpInEmb
        let enables := if b.bl616 then [] else [.autoconnect true, .staEnable]
        { rnm with mode := mode }.returns (stops ++ enables ++ [connect]) cmdHandlerRetOkAck

def handleStaDisconnect (b : Build) (w : Wifi) (rnm : Rnms) : Handled :=
  let mode :=
    match rnm.mode with
    | .sta => RnmWifiMode.none
    | .apSta => .ap
    | mode => mode
  { rnm with mode := mode }.returns (stopSta b w) cmdHandlerRetOkAck

def handleStaSetAutoReconnect (b : Build) (rnm : Rnms) (cmd : RnmMsg) : Handled :=
  match cmdCommonCheck cmd 13 with
  | none => rnm.returns [] (cmdHandlerRetErrAck statusInvalidInput)
  | some ccmd =>
    rnm.returns (if b.bl616 then [] else [.autoconnect (ccmd[0]? != some 0)]) cmdHandlerRetOkAck

def linkStatusUnknown : UInt8 := 0
def linkStatusDown : UInt8 := 1
def linkStatusUp : UInt8 := 2

/-- `struct bf1b_wifi_ap_record`; neither build fills the BSSID and the SSID. -/
def apRecord (linkStatus channel rssi authMode cipher : UInt8) : List UInt8 :=
  [linkStatus] ++ List.replicate 6 0 ++ List.replicate 33 0 ++ [channel, rssi, authMode, cipher]

def fillStaStatus (w : Wifi) : List UInt8 :=
  let linkStatus :=
    match w.state with
    | some .connectedIpGot | some .connectedIpGetting => linkStatusUp
    | some _ => linkStatusDown
    | none => linkStatusUnknown
  -- `-1` and `-127` where the manager does not know, auth mode unknown, cipher none
  apRecord linkStatus (w.channel.getD 0xFF) (w.rssi.getD 0x81) 0 1

def handleStaGetLinkStatus (b : Build) (w : Wifi) (rnm : Rnms) (cmd : RnmMsg) : Handled :=
  let record :=
    if b.bl616 then
      if w.staState then apRecord linkStatusUp (w.channel.getD 0) (w.rssi.getD 0) 0 0
      else apRecord linkStatusDown 0 0 0 0
    else fillStaStatus w
  rnm.answers cmd record cmdHandlerRetNoAck

def handleApStart (b : Build) (rnm : Rnms) (cmd : RnmMsg) : Handled :=
  match cmdCommonCheck cmd 113 with
  | none => rnm.returns [] (cmdHandlerRetErrAck statusInvalidInput)
  | some ccmd =>
    if ¬ (rnm.mode = .none ∨ rnm.mode = .sta) then
      rnm.returns [] (cmdHandlerRetErrAck statusInvalidMode)
    else
      let ssid := cString (ccmd.drop 5)
      if ssid = [] then rnm.returns [] (cmdHandlerRetErrAck statusInvalidInput)
      else
        let channel := ofLE (slice ccmd 1 2)
        let passwd :=
          if ccmd[0]? != some 0 then if b.bl616 then some [] else none
          else some (cString (ccmd.drop 37))
        let enables : List WifiCall := if b.bl616 then [] else [.apEnable]
        let mode : RnmWifiMode := if rnm.mode = .none then .ap else .apSta
        { rnm with mode := mode }.returns
          (enables ++ [WifiCall.apStart ssid passwd channel b.dhcpInEmb]) cmdHandlerRetOkAck

def handleApStop (rnm : Rnms) : Handled :=
  let mode :=
    match rnm.mode with
    | .ap => RnmWifiMode.none
    | .apSta => .sta
    | mode => mode
  { rnm with mode := mode }.returns [.apStop] cmdHandlerRetOkAck

/-- The size of `rnm_ap_sta_list_ind_msg_t`, and of one of its entries. -/
def rnmApStaListIndMsgSize : Nat := 14
def wifiStaInfoSize : Nat := 6

/-- The length of the list is kept in eight bits. -/
def handleApGetStaList (b : Build) (w : Wifi) (rnm : Rnms) (cmd : RnmMsg) : Except Fault Handled :=
  if b.bl616 then .ok (rnm.returns [] (cmdHandlerRetErrAck statusNotImplemented))
  else
    let length := (rnmApStaListIndMsgSize + w.staCnt.toNat * wifiStaInfoSize) % 2 ^ 8
    if ¬ w.malloc then .ok (rnm.returns [] (cmdHandlerRetErrAck statusNomem))
    else
      let used := (w.apSta.take w.staCnt.toNat).filter (·.isUsed)
      if rnmApStaListIndMsgSize + used.length * wifiStaInfoSize > length then .error .outOfBounds
      else
        .ok (rnm.answers cmd (toLE 2 used.length ++ used.flatMap fun sta => field 6 sta.staMac)
          cmdHandlerRetNoAck)

def handleMonitorStart (b : Build) (rnm : Rnms) : Handled :=
  if b.bl616 then rnm.returns [] (cmdHandlerRetErrAck statusNotImplemented)
  else if rnm.mode ≠ .none then rnm.returns [] (cmdHandlerRetErrAck statusInvalidMode)
  else { rnm with mode := .sniffer }.returns [.snifferEnable, .snifferRegister] cmdHandlerRetOkAck

def handleMonitorStop (b : Build) (rnm : Rnms) : Handled :=
  if b.bl616 then rnm.returns [] (cmdHandlerRetErrAck statusNotImplemented)
  else if rnm.mode ≠ .sniffer then rnm.returns [] (cmdHandlerRetErrAck statusInvalidMode)
  else { rnm with mode := .none }.returns [.snifferDisable, .snifferUnregister] cmdHandlerRetOkAck

def handleMontiorSetChannel (b : Build) (rnm : Rnms) (cmd : RnmMsg) : Handled :=
  if b.bl616 then rnm.returns [] (cmdHandlerRetErrAck statusNotImplemented)
  else
    match cmdCommonCheck cmd 14 with
    | none => rnm.returns [] (cmdHandlerRetErrAck statusInvalidInput)
    | some ccmd =>
      if rnm.mode ≠ .sniffer then rnm.returns [] (cmdHandlerRetErrAck statusInvalidMode)
      else
        let channel := ofLE (slice ccmd 0 2)
        let chn := channel % 2 ^ 8
        rnm.returns (if 1 ≤ chn ∧ chn ≤ 14 then [.channelSet channel] else []) cmdHandlerRetOkAck

def handleMontiorGetChannel (b : Build) (w : Wifi) (rnm : Rnms) (cmd : RnmMsg) : Handled :=
  if b.bl616 then rnm.returns [] (cmdHandlerRetErrAck statusNotImplemented)
  else rnm.answers cmd [w.channel.getD 0] cmdHandlerRetNoAck

def handleSetLpmMode (b : Build) (rnm : Rnms) (cmd : RnmMsg) : Handled :=
  if b.bl616 then rnm.returns [] (cmdHandlerRetErrAck statusNotImplemented)
  else if rnm.mode ≠ .sta then rnm.returns [] (cmdHandlerRetErrAck statusInvalidMode)
  else
    match cmdCommonCheck cmd 13 with
    | none => rnm.returns [] (cmdHandlerRetErrAck statusInvalidInput)
    | some _ => rnm.returns [] (cmdHandlerRetErrAck statusNotImplemented)

def rnmMajorVersion : UInt8 := 2
def rnmMinorVersion : UInt8 := 3

def handleGetDevVersion (rnm : Rnms) (cmd : RnmMsg) : Handled :=
  rnm.answers cmd ([rnmMinorVersion, rnmMajorVersion] ++ List.replicate 6 0) cmdHandlerRetNoAck

/-! ## Firmware update and extensions -/

/-- Byte `i` of the message behind its header, or of the memory behind the message. -/
def byteAt (w : Wifi) (body : List UInt8) (i : Nat) : UInt8 := (body[i]?).getD (w.heapBytes i)

def bytesAt (w : Wifi) (body : List UInt8) (i n : Nat) : List UInt8 :=
  (List.range n).map fun j => byteAt w body (i + j)

/-- `rnm_ota_msg_t` as the handlers read it. -/
def otaMsg (w : Wifi) (body : List UInt8) : Ota.OtaMsg :=
  match ofLE (bytesAt w body 0 2) with
  | 0 => .start
  | 1 => .abort
  | 2 =>
    .programPart (ofLE (bytesAt w body 2 4)) (bytesAt w body 10 (ofLE (bytesAt w body 6 4)))
  | 3 => .commit
  | _ => .unknown

/-- `struct bf1b_ota_status`, at its size of six bytes. -/
def otaStatusBytes (status : Ota.OtaStatus) : List UInt8 :=
  field 6 (match status with
    | .startAck => toLE 2 1
    | .abortAck => toLE 2 2
    | .programAck offset => toLE 2 3 ++ toLE 4 offset
    | .finAck => toLE 2 4
    | .commitAck => toLE 2 5
    | .error code => toLE 2 6 ++ toLE 2 code.code)

/-- `rnm_ota_msg_t` of type `BFLB_OTA_MSG_STATUS`, at its size without a part. -/
def otaReplyPacket (reply : Ota.OtaReply) : Packet where
  hdr := reply.hdr
  body := toLE 2 4 ++ field 8 (otaStatusBytes reply.status)

/-- The session id of the reply is read from the copy of the message. -/
def handleOta (w : Wifi) (rnm : Rnms) (cmd : RnmMsg) : Except Fault Handled :=
  match cmd.data with
  | none => .error .nullPointer
  | some data =>
    let hdr := { cmd.cmd with sessionId := data.hdr.sessionId }
    match Ota.rnmsHandleOta rnm.dev hdr w.otaHeap (otaMsg w data.body) with
    | .error fault => .error (.ota fault)
    | .ok (dev, reply) =>
      .ok {
        rnm := { rnm with dev := dev }
        out := (reply.toList.map otaReplyPacket).flatMap rnmsMsgOutput
        calls := []
        ret := cmdHandlerRetNoAck }

def handleReboot (rnm : Rnms) : Handled := rnm.returns [.reboot] cmdHandlerRetOkAck

/-- `"response from device"`, with its zero. -/
def rspStr : List UInt8 :=
  [0x72, 0x65, 0x73, 0x70, 0x6F, 0x6E, 0x73, 0x65, 0x20, 0x66, 0x72, 0x6F, 0x6D, 0x20, 0x64, 0x65,
    0x76, 0x69, 0x63, 0x65, 0x00]

/-- `handle_user_ext` and `rnms_handle_user_ext`. -/
def handleUserExt (rnm : Rnms) (cmd : RnmMsg) : Handled :=
  match cmd.data with
  | none => rnm.returns [] cmdHandlerRetNoAck
  | some _ => rnm.answers cmd rspStr cmdHandlerRetNoAck

def rnmsHandleUserExtension (rnm : Rnms) (cmd : RnmMsg) (isResponse : Bool) : Handled :=
  match cmd.data with
  | none => rnm.returns [] cmdHandlerRetNoAck
  | some data =>
    if data.hdr.has rnmMsgFlagAck then rnm.returns [] cmdHandlerRetNoAck
    else if isResponse then rnm.answers cmd rspStr cmdHandlerRetNoAck
    else rnm.returns [] cmdHandlerRetNoAck

def handleUserExtRespones (rnm : Rnms) (cmd : RnmMsg) : Handled :=
  rnmsHandleUserExtension rnm cmd true

def handleUserExtNoRespones (rnm : Rnms) (cmd : RnmMsg) : Handled :=
  rnmsHandleUserExtension rnm cmd false

/-! ## Dispatch -/

/-- `cmd_handler_table`, with `none` for a null entry. -/
def cmdHandler (b : Build) (w : Wifi) (rnm : Rnms) (cmd : RnmMsg) :
    Bf1bCmd → Option (Except Fault Handled)
  | .reboot => some (.ok (handleReboot rnm))
  | .reset => some (.ok (handleReset b w rnm))
  | .hello => some (.ok (handleHello b w rnm))
  | .ping => some (.ok (handlePing rnm))
  | .getMacAddr => some (.ok (handleGetMacAddr w rnm cmd))
  | .scan => some (.ok (handleScan w rnm))
  | .scanResults => some (.ok (handleScanResults b w rnm cmd))
  | .staConnect => some (.ok (handleStaConnect b w rnm cmd))
  | .staDisconnect => some (.ok (handleStaDisconnect b w rnm))
  | .staSetAutoReconnect => some (.ok (handleStaSetAutoReconnect b rnm cmd))
  | .staGetLinkStatus => some (.ok (handleStaGetLinkStatus b w rnm cmd))
  | .apStart => some (.ok (handleApStart b rnm cmd))
  | .apStop => some (.ok (handleApStop rnm))
  | .apGetStaList => some (handleApGetStaList b w rnm cmd)
  | .monitorStart => some (.ok (handleMonitorStart b rnm))
  | .monitorStop => some (.ok (handleMonitorStop b rnm))
  | .monitorSetChannel => some (.ok (handleMontiorSetChannel b rnm cmd))
  | .monitorGetChannel => some (.ok (handleMontiorGetChannel b w rnm cmd))
  | .setLpmMode => some (.ok (handleSetLpmMode b rnm cmd))
  | .getDevVersion => some (.ok (handleGetDevVersion rnm cmd))
  | .ota => some (handleOta w rnm cmd)
  | .userExt => some (.ok (handleUserExt rnm cmd))
  | .userExtRsp => some (.ok (handleUserExtRespones rnm cmd))
  | .userExtNoRsp => some (.ok (handleUserExtNoRespones rnm cmd))
  | .staConnectedInd | .staDisconnectedInd | .staIpUpdateInd | .apStartedInd | .apStoppedInd
  | .ext => none

/-- `check_transparent_txed`; `timeout` is `RNM_OUTPUT_FN_TIMEOUT` from the output function. -/
def checkTransparentTxed (rnm : Rnms) (cmd : UInt16) (timeout : Bool) : Rnms :=
  if ¬ (timeout ∧ cmd = 3 ∧ rnm.heartbeatTimer) then rnm
  else
    let failures := rnm.heartbeatFailures + 1
    { rnm with
      heartbeatFailures := failures
      heartbeatTimer := if failures ≥ rnm.heartbeatThreshold then false else rnm.heartbeatTimer }

/-- What handling a message leaves behind and what was output meanwhile. -/
structure Processed where
  rnm : Rnms
  out : List Packet
  calls : List WifiCall

def sendAck (h : Handled) (cmd : RnmMsg) (status : UInt16) : Processed :=
  let (rnm, hdr) := rnmsMsgFillCommon h.rnm cmd
  { rnm := rnm
    out := h.out ++ rnmsMsgOutput ⟨{ hdr with status := status }, []⟩
    calls := h.calls }

def rnmsMsgProcess (b : Build) (w : Wifi) (timeout : Bool) (rnm : Rnms) (msg : RnmMsg) :
    Except Fault Processed :=
  match bf1bCmds[msg.cmd.cmd.toNat]? with
  | none => .ok { rnm := rnm, out := [], calls := [] }
  | some cmd =>
    if msg.cmd.has rnmMsgFlagTransparent then
      let rnm := rnm.nextMsgId
      let sent := msg.toSend
      let hdr := { sent.hdr with
        flags := sent.hdr.flags &&& ~~~rnmMsgFlagTransparent
        msgId := rnm.dev.lastMsgId }
      .ok {
        rnm := checkTransparentTxed rnm msg.cmd.cmd timeout
        out := rnmsMsgOutput { sent with hdr := hdr }
        calls := [] }
    else
      match cmdHandler b w rnm msg cmd with
      | none => .ok (sendAck (rnm.returns [] cmdHandlerRetOkAck) msg statusNotImplemented)
      | some (.error fault) => .error fault
      | some (.ok h) =>
        if h.ret.noAck then .ok { rnm := h.rnm, out := h.out, calls := h.calls }
        else .ok (sendAck h msg h.ret.status)

end BouffaloSdk.HostRouter.Server
