import BouffaloSdk.HostRouter.RnmOtaRuns
import BouffaloSdk.HostRouter.RnmServer

/-!
# Replies of the server

A request is answered at most once, by its handler or by the dispatcher, and
the answer carries its session and message ids. The handler of `SCAN_RESULTS`
answers and has the dispatcher answer too.
-/

namespace BouffaloSdk.HostRouter.Server
open Kit

variable {b : Build} {w : Wifi} {rnm : Rnms} {msg : RnmMsg} {request : RnmBaseMsg}
  {out : List Packet} {h : Handled}

/-- A message with `RNM_MSG_FLAG_ACK`. -/
def Packet.isAck (p : Packet) : Bool := p.hdr.has rnmMsgFlagAck

/-- At most one answer, and it is correlated with the request. -/
structure AnsweredOnce (request : RnmBaseMsg) (out : List Packet) : Prop where
  once : (out.filter Packet.isAck).length ≤ 1
  sessionId : ∀ p ∈ out, Packet.isAck p = true → p.hdr.sessionId = request.sessionId
  msgId : ∀ p ∈ out, Packet.isAck p = true → p.hdr.msgIdReplying = request.msgId

/-- The messages output while the request is handled; a handler that does not
return has output none before. -/
def replies : Except Fault Processed → List Packet
  | .error _ => []
  | .ok done => done.out

/-- No answer among the messages. -/
def Silent (out : List Packet) : Prop := ∀ p ∈ out, Packet.isAck p = false

/-- The handler answers itself or has the dispatcher answer, never both. -/
def Handled.Sound (request : RnmBaseMsg) (h : Handled) : Prop :=
  Silent h.out ∨ h.ret.noAck = true ∧ AnsweredOnce request h.out

/-! ## Messages that are output -/

theorem silent_nil : Silent [] := by
  intro p hp
  cases hp

theorem Silent.answeredOnce (hsilent : Silent out) : AnsweredOnce request out := by
  have hnone : out.filter Packet.isAck = [] := by
    apply List.filter_eq_nil_iff.mpr
    intro p hp
    rw [hsilent p hp]
    decide
  constructor
  · rw [hnone]
    exact Nat.zero_le 1
  · intro p hp hack
    cases (hsilent p hp).symm.trans hack
  · intro p hp hack
    cases (hsilent p hp).symm.trans hack

/-- One answer after messages that are none. -/
theorem Silent.append_answer (hsilent : Silent out) {p : Packet}
    (hsession : p.hdr.sessionId = request.sessionId) (hid : p.hdr.msgIdReplying = request.msgId) :
    AnsweredOnce request (out ++ [p]) := by
  have hnone : out.filter Packet.isAck = [] := by
    apply List.filter_eq_nil_iff.mpr
    intro q hq
    rw [hsilent q hq]
    decide
  have hlast : ∀ q ∈ out ++ [p], Packet.isAck q = true → q = p := by
    intro q hq hack
    cases List.mem_append.mp hq with
    | inl hout => cases (hsilent q hout).symm.trans hack
    | inr hp => exact List.mem_singleton.mp hp
  constructor
  · rw [List.filter_append, hnone, List.nil_append]
    exact List.length_filter_le _ _
  · intro q hq hack
    rw [hlast q hq hack]
    exact hsession
  · intro q hq hack
    rw [hlast q hq hack]
    exact hid

theorem rnmsMsgOutput_cases (p : Packet) : rnmsMsgOutput p = [] ∨ rnmsMsgOutput p = [p] := by
  unfold rnmsMsgOutput
  split
  · exact .inr rfl
  · exact .inl rfl

theorem Silent.append_output (hsilent : Silent out) {p : Packet}
    (hsession : p.hdr.sessionId = request.sessionId) (hid : p.hdr.msgIdReplying = request.msgId) :
    AnsweredOnce request (out ++ rnmsMsgOutput p) := by
  rcases rnmsMsgOutput_cases p with hnil | hone
  · rw [hnil, List.append_nil]
    exact hsilent.answeredOnce
  · rw [hone]
    exact hsilent.append_answer hsession hid

theorem sendAck_answeredOnce (msg : RnmMsg) (hsilent : Silent h.out) (status : UInt16) :
    AnsweredOnce msg.cmd (sendAck h msg status).out :=
  hsilent.append_output rfl rfl

/-! ## Handlers -/

theorem sound_returns (calls : List WifiCall) (ret : Chr) :
    (rnm.returns calls ret).Sound request :=
  .inl silent_nil

theorem sound_answers (body : List UInt8) {ret : Chr} (hret : ret.noAck = true) :
    (rnm.answers msg body ret).Sound msg.cmd :=
  .inr ⟨hret, silent_nil.append_output rfl rfl⟩

theorem sound_handleHello : (handleHello b w rnm).Sound request := by
  have hnotify : Silent (rnmsNotifyStaIpAddr w rnm).2 := by
    unfold rnmsNotifyStaIpAddr
    split
    · exact silent_nil
    · intro p hp
      have hasync : (rnmMsgFlagAsync &&& rnmMsgFlagAck != 0) = false := by decide
      simp only [rnmsMsgOutput] at hp
      split at hp
      · rw [List.mem_singleton.mp hp]
        exact hasync
      · cases hp
  unfold handleHello
  split
  · left
    unfold ready
    simp only []
    split
    · split
      · exact hnotify
      · exact silent_nil
    · split
      · exact hnotify
      · exact silent_nil
  · exact sound_returns _ _

theorem sound_handleStaConnect : (handleStaConnect b w rnm msg).Sound request := by
  unfold handleStaConnect
  split
  · exact sound_returns _ _
  · split
    · exact sound_returns _ _
    · simp only []
      split
      · exact sound_returns _ _
      · exact sound_returns _ _

theorem sound_handleApStart : (handleApStart b rnm msg).Sound request := by
  unfold handleApStart
  split
  · exact sound_returns _ _
  · split
    · exact sound_returns _ _
    · simp only []
      split
      · exact sound_returns _ _
      · exact sound_returns _ _

theorem sound_handleApGetStaList (hok : handleApGetStaList b w rnm msg = .ok h) :
    h.Sound msg.cmd := by
  unfold handleApGetStaList at hok
  split at hok
  · cases hok
    exact sound_returns _ _
  · simp only [] at hok
    split at hok
    · cases hok
      exact sound_returns _ _
    · split at hok
      · cases hok
      · cases hok
        exact sound_answers _ rfl

theorem sound_handleScan : (handleScan w rnm).Sound request := by
  unfold handleScan
  split
  · exact sound_returns _ _
  · exact sound_returns _ _

theorem sound_handleScanResults (hmalloc : w.malloc = false) :
    (handleScanResults b w rnm msg).Sound request := by
  unfold handleScanResults
  rw [hmalloc]
  exact sound_returns _ _

theorem sound_handleMonitorStart : (handleMonitorStart b rnm).Sound request := by
  unfold handleMonitorStart
  split
  · exact sound_returns _ _
  · split
    · exact sound_returns _ _
    · exact sound_returns _ _

theorem sound_handleMonitorStop : (handleMonitorStop b rnm).Sound request := by
  unfold handleMonitorStop
  split
  · exact sound_returns _ _
  · split
    · exact sound_returns _ _
    · exact sound_returns _ _

theorem sound_handleMontiorSetChannel : (handleMontiorSetChannel b rnm msg).Sound request := by
  unfold handleMontiorSetChannel
  split
  · exact sound_returns _ _
  · split
    · exact sound_returns _ _
    · split
      · exact sound_returns _ _
      · exact sound_returns _ _

theorem sound_handleMontiorGetChannel : (handleMontiorGetChannel b w rnm msg).Sound msg.cmd := by
  unfold handleMontiorGetChannel
  split
  · exact sound_returns _ _
  · exact sound_answers _ rfl

theorem sound_handleSetLpmMode : (handleSetLpmMode b rnm msg).Sound request := by
  unfold handleSetLpmMode
  split
  · exact sound_returns _ _
  · split
    · exact sound_returns _ _
    · split
      · exact sound_returns _ _
      · exact sound_returns _ _

theorem sound_handleStaSetAutoReconnect :
    (handleStaSetAutoReconnect b rnm msg).Sound request := by
  unfold handleStaSetAutoReconnect
  split
  · exact sound_returns _ _
  · exact sound_returns _ _

theorem sound_handleUserExt : (handleUserExt rnm msg).Sound msg.cmd := by
  unfold handleUserExt
  split
  · exact sound_returns _ _
  · exact sound_answers _ rfl

theorem sound_rnmsHandleUserExtension (isResponse : Bool) :
    (rnmsHandleUserExtension rnm msg isResponse).Sound msg.cmd := by
  unfold rnmsHandleUserExtension
  split
  · exact sound_returns _ _
  · split
    · exact sound_returns _ _
    · split
      · exact sound_answers _ rfl
      · exact sound_returns _ _

/-! ## Firmware update -/

section
open BouffaloSdk.HostRouter.Ota

variable {dev dev' : Dev} {cmd : RnmBaseMsg} {reply : OtaReply} {heap : Heap}

/-- The reply that every update handler ends with. -/
def Correlated (cmd : RnmBaseMsg) (r : Dev × OtaReply) : Prop :=
  r.2.hdr.sessionId = cmd.sessionId ∧ r.2.hdr.msgIdReplying = cmd.msgId

theorem correlated_reply (status : OtaStatus) : Correlated cmd (dev.reply cmd status) :=
  ⟨rfl, rfl⟩

theorem correlated_fail (code : OtaErrorCode) : Correlated cmd (dev.fail cmd code) := ⟨rfl, rfl⟩

theorem correlated_handleStart {r : Dev × OtaReply} (h : handleStart dev cmd heap = .ok r) :
    Correlated cmd r := by
  unfold handleStart at h
  split at h
  · cases h
    exact correlated_fail _
  · split at h
    · cases h
      exact correlated_fail _
    · split at h
      · cases h
      · cases h
        exact correlated_fail _
      · split at h
        · cases h
          exact correlated_fail _
        · cases h
          exact correlated_reply _

theorem correlated_handleProgramPart {offset : Nat} {data : List UInt8} {r : Dev × OtaReply}
    (h : handleProgramPart dev cmd offset data = .ok r) : Correlated cmd r := by
  unfold handleProgramPart at h
  split at h
  · cases h
  · split at h
    · cases h
      exact correlated_fail _
    · split at h
      · cases h
        exact correlated_fail _
      · simp only [] at h
        split at h
        · cases h
          exact correlated_fail _
        · split at h
          · cases h
            exact correlated_fail _
          · split at h
            · cases h
              exact correlated_fail _
            · split at h
              · split at h
                · cases h
                  exact correlated_fail _
                · cases h
                  exact correlated_reply _
              · cases h
                exact correlated_reply _

theorem correlated_rnmsHandleOta {otaMsg : OtaMsg}
    (h : rnmsHandleOta dev cmd heap otaMsg = .ok (dev', some reply)) :
    reply.hdr.sessionId = cmd.sessionId ∧ reply.hdr.msgIdReplying = cmd.msgId := by
  cases otaMsg with
  | start =>
    obtain ⟨r, hstart, heq⟩ := map_ok h
    cases heq
    exact correlated_handleStart hstart
  | abort =>
    obtain ⟨r, habort, heq⟩ := map_ok h
    cases heq
    unfold handleAbort at habort
    split at habort
    · cases habort
    · cases habort
      exact ⟨rfl, rfl⟩
  | programPart offset data =>
    obtain ⟨r, hpart, heq⟩ := map_ok h
    cases heq
    exact correlated_handleProgramPart hpart
  | commit =>
    obtain ⟨r, hcommit, heq⟩ := map_ok h
    cases heq
    unfold handleCommit at hcommit
    split at hcommit
    · cases hcommit
    · cases hcommit
      exact ⟨rfl, rfl⟩
  | unknown => cases h

end

theorem sound_handleOta (hdata : ∀ data, msg.data = some data → data.hdr = msg.cmd)
    (hok : handleOta w rnm msg = .ok h) : h.Sound msg.cmd := by
  unfold handleOta at hok
  split at hok
  · cases hok
  case h_2 data hsome =>
    simp only [] at hok
    split at hok
    · cases hok
    case h_2 dev reply hreply =>
      cases hok
      right
      refine ⟨rfl, ?_⟩
      cases reply with
      | none => exact silent_nil.answeredOnce
      | some reply =>
        obtain ⟨hsession, hid⟩ := correlated_rnmsHandleOta hreply
        rw [hdata data hsome] at hsession
        have hanswer : AnsweredOnce msg.cmd ([] ++ rnmsMsgOutput (otaReplyPacket reply)) :=
          silent_nil.append_output hsession hid
        simpa using hanswer

/-! ## Every command -/

theorem sound_cmdHandler {cmd : Bf1bCmd} (hscan : cmd = .scanResults → w.malloc = false)
    (hdata : ∀ data, msg.data = some data → data.hdr = msg.cmd)
    (hok : cmdHandler b w rnm msg cmd = some (.ok h)) : h.Sound msg.cmd := by
  cases cmd with
  | apGetStaList => exact sound_handleApGetStaList (Option.some.inj hok)
  | ota => exact sound_handleOta hdata (Option.some.inj hok)
  | staConnectedInd | staDisconnectedInd | staIpUpdateInd | apStartedInd | apStoppedInd | ext =>
    cases hok
  | reboot | reset | ping | staDisconnect | apStop =>
    cases hok
    exact sound_returns _ _
  | hello =>
    cases hok
    exact sound_handleHello
  | getMacAddr | getDevVersion | staGetLinkStatus =>
    cases hok
    exact sound_answers _ rfl
  | scan =>
    cases hok
    exact sound_handleScan
  | scanResults =>
    cases hok
    exact sound_handleScanResults (hscan rfl)
  | staConnect =>
    cases hok
    exact sound_handleStaConnect
  | staSetAutoReconnect =>
    cases hok
    exact sound_handleStaSetAutoReconnect
  | apStart =>
    cases hok
    exact sound_handleApStart
  | monitorStart =>
    cases hok
    exact sound_handleMonitorStart
  | monitorStop =>
    cases hok
    exact sound_handleMonitorStop
  | monitorSetChannel =>
    cases hok
    exact sound_handleMontiorSetChannel
  | monitorGetChannel =>
    cases hok
    exact sound_handleMontiorGetChannel
  | setLpmMode =>
    cases hok
    exact sound_handleSetLpmMode
  | userExt =>
    cases hok
    exact sound_handleUserExt
  | userExtRsp =>
    cases hok
    exact sound_rnmsHandleUserExtension true
  | userExtNoRsp =>
    cases hok
    exact sound_rnmsHandleUserExtension false

variable {timeout : Bool} {p : Packet}

theorem data_copy (data : Packet) (hsome : (RnmMsg.copy p).data = some data) :
    data.hdr = (RnmMsg.copy p).cmd := by
  unfold RnmMsg.copy at hsome
  simp only [] at hsome
  split at hsome
  · cases hsome
  · cases hsome
    rfl

theorem answeredOnce_rnmsMsgProcess (hplain : p.hdr.has rnmMsgFlagTransparent = false)
    (hscan : bf1bCmds[p.hdr.cmd.toNat]? = some .scanResults → w.malloc = false) :
    AnsweredOnce p.hdr (replies (rnmsMsgProcess b w timeout rnm (RnmMsg.copy p))) := by
  unfold rnmsMsgProcess
  split
  · exact silent_nil.answeredOnce
  case h_2 cmd hcmd =>
    have htransparent : (RnmMsg.copy p).cmd.has rnmMsgFlagTransparent = false := hplain
    rw [htransparent, if_neg (by decide)]
    split
    · have hreturns : Silent (rnm.returns [] cmdHandlerRetOkAck).out := silent_nil
      exact sendAck_answeredOnce (RnmMsg.copy p) hreturns _
    · exact silent_nil.answeredOnce
    case h_3 h hok =>
      have hsound := sound_cmdHandler (fun heq => hscan (heq ▸ hcmd)) data_copy hok
      split
      case isTrue hnoAck =>
        rcases hsound with hsilent | ⟨-, honce⟩
        · exact hsilent.answeredOnce
        · exact honce
      case isFalse hack =>
        rcases hsound with hsilent | ⟨hnoAck, -⟩
        · exact sendAck_answeredOnce (RnmMsg.copy p) hsilent _
        · exact absurd hnoAck hack

theorem process_scanResults (b : Build) (timeout : Bool) (rnm : Rnms)
    (hplain : p.hdr.has rnmMsgFlagTransparent = false)
    (hcmd : p.hdr.cmd = 6) (hmalloc : w.malloc = true) :
    ∃ body, rnmsMsgProcess b w timeout rnm (RnmMsg.copy p) =
      .ok (sendAck (rnm.answers (RnmMsg.copy p) body cmdHandlerRetOkAck) (RnmMsg.copy p)
        statusOk) := by
  have htransparent : (RnmMsg.copy p).cmd.has rnmMsgFlagTransparent = false := hplain
  have hentry : bf1bCmds[(RnmMsg.copy p).cmd.cmd.toNat]? = some .scanResults := by
    rw [show (RnmMsg.copy p).cmd.cmd = 6 from hcmd]
    rfl
  unfold rnmsMsgProcess
  split
  case h_1 hnone => cases hnone.symm.trans hentry
  case h_2 cmd hsome =>
    cases hsome.symm.trans hentry
    rw [htransparent, if_neg (by decide)]
    simp only [cmdHandler, handleScanResults, hmalloc, not_true_eq_false, if_false]
    exact ⟨_, rfl⟩

/-- Two answers to one request. -/
theorem scanResults_answered_twice (hplain : p.hdr.has rnmMsgFlagTransparent = false)
    (hcmd : p.hdr.cmd = 6) (hmalloc : w.malloc = true) :
    ¬ AnsweredOnce p.hdr (replies (rnmsMsgProcess b w timeout rnm (RnmMsg.copy p))) := by
  intro hone
  obtain ⟨body, hdone⟩ := process_scanResults b timeout rnm hplain hcmd hmalloc
  have houtput : ∀ hdr body, hdr.cmd = 6 → rnmsMsgOutput ⟨hdr, body⟩ = [⟨hdr, body⟩] := by
    intro hdr body hsix
    unfold rnmsMsgOutput
    rw [hsix]
    rfl
  have htwo := hone.once
  rw [hdone] at htwo
  simp only [replies, sendAck, Rnms.answers, rnmsMsgFillCommon] at htwo
  rw [houtput, houtput] at htwo
  · exact absurd htwo (by simp [Packet.isAck, RnmBaseMsg.has, rnmMsgFlagAck])
  · exact hcmd
  · exact hcmd

theorem cmd_of_scanResults {cmd : UInt16} (h : bf1bCmds[cmd.toNat]? = some .scanResults) :
    cmd = 6 := by
  have hlt : cmd.toNat < 30 := (List.getElem?_eq_some_iff.mp h).1
  have hsix : ∀ i < 30, bf1bCmds[i]? = some .scanResults → i = 6 := by decide
  have hnat := hsix cmd.toNat hlt h
  exact UInt16.toNat_inj.mp hnat

/-- Every request is answered at most once and in correlation, except
`SCAN_RESULTS` when there is memory for the results. -/
theorem answered_once_iff (b : Build) (w : Wifi) (timeout : Bool) (rnm : Rnms) (p : Packet)
    (hplain : p.hdr.has rnmMsgFlagTransparent = false) :
    AnsweredOnce p.hdr (replies (rnmsMsgProcess b w timeout rnm (RnmMsg.copy p))) ↔
      ¬ (p.hdr.cmd = 6 ∧ w.malloc = true) := by
  constructor
  · intro hone hscan
    exact scanResults_answered_twice hplain hscan.1 hscan.2 hone
  · intro hnot
    apply answeredOnce_rnmsMsgProcess hplain
    intro hentry
    have hcmd := cmd_of_scanResults hentry
    cases hmalloc : w.malloc with
    | false => rfl
    | true => exact absurd ⟨hcmd, hmalloc⟩ hnot

/-- A server that has just started, with nothing in flash, and a radio that hears nobody. -/
def idleRnms : Rnms where
  dev := {
    flash := .ofMem fun _ => 0xFF
    boot2PartitionTable := Ota.fwBoot2
    ota := none
    lastMsgId := 0 }
  mode := .none
  readyCb := true
  haveValidStaIp := false
  heartbeatTimer := false
  heartbeatFailures := 0
  heartbeatThreshold := 0

def quietWifi : Wifi where
  scanRet := 0
  scanlistNums := 0
  scanlist := []
  staMac := []
  apMac := []
  staState := false
  rssi := none
  channel := none
  state := none
  detailedState := .idle
  staCnt := 0
  apSta := []
  ip4 := []
  malloc := true
  heapBytes := fun _ => 0
  otaHeap := { ctx := true, writeBuf := some [], handle := true }

def bl616Build : Build where
  bl616 := true
  dhcpInEmb := false
  usbwifiEnable := false
  heartbeat := false

/-- A request without a body. -/
def bareRequest (cmd : UInt16) : Packet where
  hdr := { cmd := cmd, flags := 0, status := 0, msgId := 7, sessionId := 3, msgIdReplying := 0 }
  body := []

theorem ping_answered_once :
    AnsweredOnce (bareRequest 3).hdr
      (replies (rnmsMsgProcess bl616Build quietWifi false idleRnms (.copy (bareRequest 3)))) :=
  (answered_once_iff bl616Build quietWifi false idleRnms (bareRequest 3) rfl).mpr (by decide)

theorem scan_results_not_answered_once :
    ¬ AnsweredOnce (bareRequest 6).hdr
      (replies (rnmsMsgProcess bl616Build quietWifi false idleRnms (.copy (bareRequest 6)))) :=
  scanResults_answered_twice rfl rfl rfl

end BouffaloSdk.HostRouter.Server
