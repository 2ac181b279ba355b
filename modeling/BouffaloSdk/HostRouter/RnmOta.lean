import BouffaloSdk.HostRouter.RnmMsg
import BouffaloSdk.Kit.LittleEndian
import BouffaloSdk.Mtd.BflbMtd
import BouffaloSdk.Ota.UtilsSha256

/-!
# Firmware update over the network manager

The device side, `dev_net_mgmr/src/rnm_ota.c`. A session programs the inactive
firmware bank part by part and hashes what it reads back; `COMMIT` switches the
partition table.
-/

namespace BouffaloSdk.HostRouter.Ota
open Kit Kit.Word BouffaloSdk.Partition Mtd BouffaloSdk.Ota

def rnmOtaPartSize : Nat := 1024
def otaHeaderSize : Nat := 512

/-- `BOOT2_PARTITION_TYPE_FW`, and `"FW"`. -/
def boot2PartitionTypeFw : Nat := 0
def rnmMtdPartitionNameFwDefault : List UInt8 := [0x46, 0x57]

/-- `rnm_ota_t`. -/
structure RnmOta where
  shaCtx : Sha256Context
  sha256This : List UInt8
  sha256That : List UInt8
  mtdHdl : BflbMtdHandle
  offsetWritten : Nat
  bodyLength : Nat
  tgtPartSize : Nat
  writeBuf : List UInt8
  ptEntry : PtTableEntryConfig

inductive OtaErrorCode where
  | statusIncorrect
  | malformedHeader
  | headerAdvLenTooBig
  | cksumMismatch
  | partMissing
  | sizeNotExpected
  | misc
  deriving DecidableEq, Repr

/-- `bflb_ota_error_code_t`, from `BFLB_OTA_ERROR_STATUS_INCORRECT` on. -/
def OtaErrorCode.code : OtaErrorCode → Nat
  | .statusIncorrect => 8888
  | .malformedHeader => 8890
  | .headerAdvLenTooBig => 8891
  | .cksumMismatch => 8892
  | .partMissing => 8893
  | .sizeNotExpected => 8894
  | .misc => 8895

/-- `struct bf1b_ota_status`. -/
inductive OtaStatus where
  | startAck
  | abortAck
  | programAck (offset : Nat)
  | finAck
  | commitAck
  | error (code : OtaErrorCode)
  deriving DecidableEq, Repr

structure OtaReply where
  hdr : RnmBaseMsg
  status : OtaStatus
  deriving DecidableEq, Repr

/-- What `rnms_handle_ota` reads in a message. `data_len` is the length of `data`. -/
inductive OtaMsg where
  | start
  | abort
  | programPart (offset : Nat) (data : List UInt8)
  | commit
  | unknown
  deriving DecidableEq, Repr

/-- What `rnm_malloc` gives to a new session: the context, the write buffer with
its old contents, and the handle of `bl_mtd_open`. -/
structure Heap where
  ctx : Bool
  writeBuf : Option (List UInt8)
  handle : Bool

/-- The device. `ota` is `none` for a null pointer. -/
structure Dev where
  flash : Flash
  boot2PartitionTable : Boot2PartitionTable
  ota : Option RnmOta
  lastMsgId : UInt16

/-- Ways not to return: a null pointer is followed, or `bflb_mtd_open` loops. -/
inductive Fault where
  | nullPointer
  | deadLoop
  deriving DecidableEq, Repr

/-! ## Replies -/

/-- `fill_ota_status` and `rnms_msg_output`. -/
def Dev.reply (dev : Dev) (cmd : RnmBaseMsg) (status : OtaStatus) : Dev × OtaReply :=
  let msgId := dev.lastMsgId + 1
  ({ dev with lastMsgId := msgId },
    { hdr := {
        cmd := 25
        flags := rnmMsgFlagAck
        status := 0
        msgId := msgId
        sessionId := cmd.sessionId
        msgIdReplying := cmd.msgId }
      status := status })

/-- `reply_error`, and the session is freed. -/
def Dev.fail (dev : Dev) (cmd : RnmBaseMsg) (code : OtaErrorCode) : Dev × OtaReply :=
  { dev with ota := none }.reply cmd (.error code)

/-! ## Messages -/

def otaCtxAlloc (heap : Heap) : Option (List UInt8) := if heap.ctx then heap.writeBuf else none

def bflbMtdEraseAll (flash : Flash) (handle : BflbMtdHandle) : Flash :=
  (bflbFlashErase flash handle.offset handle.size).1

/-- The session that `handle_start` sets up. -/
def newSession (handle : BflbMtdHandle) (ptEntry : PtTableEntryConfig) (writeBuf : List UInt8) :
    RnmOta where
  shaCtx := utilsSha256Init
  sha256This := List.replicate 32 0
  sha256That := List.replicate 32 0
  mtdHdl := handle
  offsetWritten := 0
  bodyLength := 0
  tgtPartSize := ptEntry.maxLen (lnot ptEntry.activeIndex)
  writeBuf := writeBuf
  ptEntry := ptEntry

def handleStart (dev : Dev) (cmd : RnmBaseMsg) (heap : Heap) : Except Fault (Dev × OtaReply) :=
  if dev.ota.isSome then .ok (dev.fail cmd .statusIncorrect)
  else
    match otaCtxAlloc heap with
    | none => .ok (dev.fail cmd .misc)
    | some writeBuf =>
      match bflbMtdOpen dev.boot2PartitionTable heap.handle rnmMtdPartitionNameFwDefault true with
      | .deadLoop => .error .deadLoop
      | .noMemory => .ok (dev.fail cmd .misc)
      | .opened handle =>
        match ptTableGetActiveEntriesById dev.boot2PartitionTable.table boot2PartitionTypeFw with
        | none => .ok (dev.fail cmd .misc)
        | some ptEntry =>
          .ok ({ dev with
            flash := bflbMtdEraseAll dev.flash handle
            ota := some (newSession handle ptEntry writeBuf) }.reply cmd .startAck)

def handleAbort (dev : Dev) (cmd : RnmBaseMsg) : Except Fault (Dev × OtaReply) :=
  match dev.ota with
  | none => .error .nullPointer
  | some _ => .ok ({ dev with ota := none }.reply cmd .abortAck)

/-- `strstr`, on a string that ends at its first zero. -/
def strstr (str pat : List UInt8) : Bool :=
  (str.takeWhile (· ≠ 0)).tails.any fun rest => pat.isPrefixOf rest

/-- `"XZ"` and `"RAW"`. -/
def typeXz : List UInt8 := [0x58, 0x5A]
def typeRaw : List UInt8 := [0x52, 0x41, 0x57]

/-- `_check_ota_header`: the body length, for a header of a known type. -/
def checkOtaHeader (otaHeader : List UInt8) : Option Nat :=
  let type := slice otaHeader 16 4
  if strstr type typeXz || strstr type typeRaw then some (ofLE (slice otaHeader 20 4)) else none

/-- The session, and where in the write buffer how many bytes are to be programmed. -/
structure Part where
  octx : RnmOta
  pos : Nat
  size : Nat

/-- The `part_offset == 0` branch of `handle_program_part`; `buf` is the write
buffer with the part copied into it. -/
def takePart (octx : RnmOta) (buf : List UInt8) (offset size : Nat) : Except OtaErrorCode Part :=
  if offset = 0 then
    match checkOtaHeader buf with
    | none => .error .malformedHeader
    | some hdrAdvBinSize =>
      if ¬ (hdrAdvBinSize > 0 ∧ hdrAdvBinSize ≤ octx.tgtPartSize) then .error .headerAdvLenTooBig
      else .ok
        { octx := { octx with
            shaCtx := utilsSha256Starts utilsSha256Init
            sha256This := List.replicate 32 0
            bodyLength := hdrAdvBinSize
            sha256That := slice buf 64 32 }
          pos := otaHeaderSize
          size := rnmOtaPartSize - otaHeaderSize }
  else .ok { octx := octx, pos := 0, size := size }

/-- The context that `utils_sha256_finish` leaves behind. -/
def sha256Finished (ctx : Sha256Context) : Sha256Context :=
  let high := (ctx.total0 >>> 29) ||| (ctx.total1 <<< 3) % 2 ^ 32
  let low := (ctx.total0 <<< 3) % 2 ^ 32
  let last := ctx.total0 &&& 0x3F
  let padn := if last < 56 then 56 - last else 120 - last
  utilsSha256Update (utilsSha256Update ctx (sha256Padding.take padn))
    (putUint32Be high ++ putUint32Be low)

/-- The part is programmed and hashed as it reads back. -/
def programPart (flash : Flash) (part : Part) (buf : List UInt8) : Flash × RnmOta :=
  let octx := part.octx
  let flash :=
    (bflbMtdWrite flash octx.mtdHdl octx.offsetWritten (slice buf part.pos part.size) false).1
  let back := bflbMtdRead flash octx.mtdHdl octx.offsetWritten part.size
  (flash, { octx with
    shaCtx := utilsSha256Update octx.shaCtx back
    offsetWritten := add32 octx.offsetWritten part.size
    writeBuf := blit buf part.pos back })

def handleProgramPart (dev : Dev) (cmd : RnmBaseMsg) (offset : Nat) (data : List UInt8) :
    Except Fault (Dev × OtaReply) :=
  match dev.ota with
  | none => .error .nullPointer
  | some octx =>
    if ¬ ((offset = 0 ∧ octx.offsetWritten = 0) ∨
        offset = add32 octx.offsetWritten otaHeaderSize) then
      .ok (dev.fail cmd .partMissing)
    else if ¬ data.length ≤ rnmOtaPartSize then .ok (dev.fail cmd .sizeNotExpected)
    else
      let buf := blit octx.writeBuf 0 data
      match takePart octx buf offset data.length with
      | .error code => .ok (dev.fail cmd code)
      | .ok part =>
        let written := add32 part.size part.octx.offsetWritten
        if ¬ written ≤ part.octx.bodyLength then .ok (dev.fail cmd .sizeNotExpected)
        else if offset ≠ 0 ∧ written ≠ part.octx.bodyLength ∧ part.size ≠ rnmOtaPartSize then
          .ok (dev.fail cmd .sizeNotExpected)
        else
          let (flash, octx) := programPart dev.flash part buf
          let dev := { dev with flash := flash }
          if written = octx.bodyLength then
            let digest := utilsSha256Finish octx.shaCtx
            if digest ≠ octx.sha256That then .ok (dev.fail cmd .cksumMismatch)
            else
              let octx := { octx with shaCtx := sha256Finished octx.shaCtx, sha256This := digest }
              .ok ({ dev with ota := some octx }.reply cmd .finAck)
          else .ok ({ dev with ota := some octx }.reply cmd (.programAck offset))

def handleCommit (dev : Dev) (cmd : RnmBaseMsg) : Except Fault (Dev × OtaReply) :=
  match dev.ota with
  | none => .error .nullPointer
  | some octx =>
    let updated := bflbBoot2UpdatePtable dev.flash dev.boot2PartitionTable
      (octx.ptEntry.setLen octx.bodyLength)
    .ok ({ dev with flash := updated.1, ota := none }.reply cmd .commitAck)

/-- A message of an unknown type is not answered. -/
def rnmsHandleOta (dev : Dev) (cmd : RnmBaseMsg) (heap : Heap) :
    OtaMsg → Except Fault (Dev × Option OtaReply)
  | .start => (handleStart dev cmd heap).map fun r => (r.1, some r.2)
  | .abort => (handleAbort dev cmd).map fun r => (r.1, some r.2)
  | .programPart offset data => (handleProgramPart dev cmd offset data).map fun r => (r.1, some r.2)
  | .commit => (handleCommit dev cmd).map fun r => (r.1, some r.2)
  | .unknown => .ok (dev, none)

end BouffaloSdk.HostRouter.Ota
