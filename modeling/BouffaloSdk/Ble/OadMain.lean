import BouffaloSdk.Kit.LittleEndian
import BouffaloSdk.Ota.BflbOta

/-!
# Firmware updates over Bluetooth

`components/wireless/bluetooth/blestack/src/services/oad/oad_main.c`, built with
`CONFIG_BL_SDK`, without or with `CONFIG_BT_SETTINGS`. The peer names an image, then sends it
in blocks that are staged in RAM and written to the firmware bank that is not active. A
handler returns what it did to memory and flash next to the new state; notifications are left
out.
-/

namespace BouffaloSdk.Oad
open Kit Kit.Word BouffaloSdk.Partition

structure OadFileInfo where
  manuCode : Nat
  fileVer : Nat
  deriving DecidableEq, Repr

/-- `struct oad_ef_info`, the record that survives a reset. -/
structure OadEfInfo where
  fileInfo : OadFileInfo
  fileOffset : Nat
  lastWflashAddr : Nat
  upgrdCrc32 : Nat
  deriving DecidableEq, Repr

/-- `struct oad_env_tag`. -/
structure OadEnv where
  fileInfo : OadFileInfo
  upgrdFileVer : Nat
  upgrdFileSize : Nat
  upgrdOffset : Nat
  upgrdCrc32 : Nat
  newImgAddr : Nat
  wImgEndAddr : Nat
  deriving DecidableEq, Repr

/-- `wData` holds the first `index` bytes of the staging buffer, none while it is not
allocated. The table is the one of `active_id` in RAM. -/
structure Sys where
  oadEnv : OadEnv
  wData : Option (List UInt8)
  writeCount : Nat
  efInfo : OadEfInfo
  flash : Flash
  ptTableStuff : PtTableStuffConfig
  activeId : PtTableIdType

structure OadConfig where
  btSettings : Bool
  appCheckCb : Nat → Nat → Bool

/-- A message as the handlers see it: the bytes received, then whatever lies behind them. -/
structure Message where
  bytes : List UInt8
  behind : Nat → UInt8

/-- What a handler does: it looks at the first `upTo` bytes of the message, writes `len` bytes
from `index` of the staging buffer on, writes to flash, or updates the table. -/
inductive Access
  | message (upTo : Nat)
  | staging (index len : Nat)
  | flashWrite (addr len : Nat)
  | updateEntry (sys : Sys)

namespace Message

def byte (m : Message) (i : Nat) : UInt8 := m.bytes.getD i (m.behind i)

def get (m : Message) (i n : Nat) : List UInt8 := (List.range n).map fun k => m.byte (i + k)

def word (m : Message) (i n : Nat) : Nat := ofLE (m.get i n)

/-- Behind the opcode of a block response: `status`, `file_info`, `file_offset`, `data_size`
and the data. -/
def status (m : Message) : Nat := (m.byte 1).toNat
def manuCode (m : Message) : Nat := m.word 2 2
def fileVer (m : Message) : Nat := m.word 4 4
def fileOffset (m : Message) : Nat := m.word 8 4
def dataSize (m : Message) : Nat := (m.byte 12).toNat

end Message

def otaWriteFlashSize : Nat := 256 * 16

def oadCmdImagIdentity : Nat := 0
def oadCmdImagBlockResp : Nat := 2
def oadCmdImagInfo : Nat := 4

def oadSucc : Nat := 0
def oadAbort : Nat := 1
def oadInvalidImag : Nat := 2
def oadReqMoreData : Nat := 3
def oadMalormedCmd : Nat := 4
def oadUpgrdCmplt : Nat := 5

/-- `OTA_PARTITION_NAME_TYPE_FW`. -/
def otaPartitionNameTypeFw : List UInt8 := [0x46, 0x57]

/-- `bflb_flash_erase` up to a last address of 32 bits. -/
def bflbFlashErase (flash : Flash) (startaddr len : Nat) : Flash :=
  let last := sub32 (add32 startaddr len) 1
  if last < startaddr then flash
  else
    (flash.perform (((List.range (last / Nor.sectorSize + 1 - startaddr / Nor.sectorSize)).map
      (startaddr / Nor.sectorSize + ·)).map .erase)).1

namespace Sys

/-- `pt_fw_entry` as looked up in the table. -/
def fwEntry (s : Sys) : Option PtTableEntryConfig :=
  ptTableGetActiveEntriesByName s.ptTableStuff otaPartitionNameTypeFw

/-- Start and room of the bank that an entry does not call active. -/
def bankStart (e : PtTableEntryConfig) : Nat := e.startAddress (lnot e.activeIndex)
def bankRoom (e : PtTableEntryConfig) : Nat := e.maxLen (lnot e.activeIndex)

def checkDataValid (s : Sys) (m : Message) : Bool :=
  m.manuCode = s.oadEnv.fileInfo.manuCode ∧ m.fileVer = s.oadEnv.upgrdFileVer

/-- The bank is found and erased for the first write after an identity. -/
def openBank (s : Sys) : Sys × Nat :=
  if s.oadEnv.newImgAddr ≠ 0 then (s, oadSucc)
  else
    match s.fwEntry with
    | none => (s, oadAbort)
    | some e =>
      let s := { s with oadEnv := { s.oadEnv with newImgAddr := bankStart e } }
      if s.oadEnv.upgrdFileSize ≤ bankRoom e then
        ({ s with flash := bflbFlashErase s.flash s.oadEnv.newImgAddr s.oadEnv.upgrdFileSize },
          oadSucc)
      else (s, 255)

def oadWriteFlash (s : Sys) (data : List UInt8) : Sys × Nat × List Access :=
  match s.openBank with
  | (s, status) =>
    if status ≠ oadSucc then (s, status, [])
    else
      let wflashAddress :=
        if s.oadEnv.wImgEndAddr ≤ s.oadEnv.newImgAddr ∧ s.oadEnv.wImgEndAddr = 0 then
          s.oadEnv.newImgAddr
        else if s.oadEnv.wImgEndAddr ≠ 0 then s.oadEnv.wImgEndAddr
        else 0
      ({ s with
          flash := (bflbFlashWrite s.flash wflashAddress data).1
          oadEnv := { s.oadEnv with wImgEndAddr := add32 wflashAddress data.length } },
        oadSucc, [.flashWrite wflashAddress data.length])

/-- The static counter, and with settings the record of what is in flash. -/
def countWrite (cfg : OadConfig) (s : Sys) : Sys :=
  let s := { s with writeCount := add32 s.writeCount 1 }
  if cfg.btSettings then
    { s with
      efInfo :=
        { fileInfo := s.oadEnv.fileInfo
          fileOffset := mul32 s.writeCount otaWriteFlashSize
          lastWflashAddr := s.oadEnv.wImgEndAddr
          upgrdCrc32 := s.oadEnv.upgrdCrc32 } }
  else s

/-- The staging of `oad_image_data_handler`, on an allocated buffer; `data` is what the copies
find in the message from byte `pos` on. -/
def stage (cfg : OadConfig) (s : Sys) (buf : List UInt8) (pos : Nat) (data : List UInt8) :
    Sys × Nat × List Access :=
  let leftSize := sub16 otaWriteFlashSize buf.length
  if data.length ≤ leftSize then
    ({ s with wData := some (buf ++ data) }, oadSucc,
      [.message (pos + data.length), .staging buf.length data.length])
  else
    let full := buf ++ data.take leftSize
    let copied := [Access.message (pos + leftSize), .staging buf.length leftSize]
    let s := { s with wData := some full }
    if full.length = otaWriteFlashSize then
      match s.oadWriteFlash full with
      | (s, status, written) =>
        if status ≠ oadSucc then (s, oadAbort, copied ++ written)
        else
          let rest := data.drop leftSize
          ({ countWrite cfg s with wData := some rest }, oadSucc,
            copied ++ written ++ [.message (pos + data.length), .staging 0 rest.length])
    else (s, oadAbort, copied)

/-- The bytes left in the buffer are written, whatever comes of it, and the buffer is freed. -/
def finishImage (s : Sys) : Sys × Nat × List Access :=
  match s.wData with
  | some (b :: rest) =>
    match s.oadWriteFlash (b :: rest) with
    | (s, _, written) => ({ s with wData := none }, oadUpgrdCmplt, written)
  | _ => ({ s with wData := none }, oadUpgrdCmplt, [])

/-- The end of `oad_image_data_handler`, where the sizes are compared. -/
def account (s : Sys) (len : Nat) : Sys × Nat × List Access :=
  let s := { s with oadEnv := { s.oadEnv with upgrdOffset := add32 s.oadEnv.upgrdOffset len } }
  if s.oadEnv.upgrdOffset > s.oadEnv.upgrdFileSize then (s, oadInvalidImag, [])
  else if s.oadEnv.upgrdOffset = s.oadEnv.upgrdFileSize then s.finishImage
  else (s, oadReqMoreData, [])

/-- `malloc` tells whether the staging buffer can be allocated. -/
def oadImageDataHandler (cfg : OadConfig) (s : Sys) (malloc : Bool) (pos : Nat)
    (data : List UInt8) : Sys × Nat × List Access :=
  match s.wData.or (if malloc then some [] else none) with
  | none => (s, oadAbort, [])
  | some buf =>
    match stage cfg s buf pos data with
    | (s, status, staged) =>
      if status ≠ oadSucc then (s, status, staged)
      else
        match s.account data.length with
        | (s, status, written) => (s, status, staged ++ written)

/-- The digest of `binSize` bytes of the new image, read 512 bytes at a time. -/
def digest (s : Sys) (binSize : Nat) : List UInt8 :=
  Ota.otaDigest s.flash ⟨[], s.oadEnv.newImgAddr, 0⟩ binSize

def fwCheckHash256 (s : Sys) : Sys × Int × List Access :=
  if s.oadEnv.upgrdFileSize ≤ 32 then (s, -1, [])
  else if s.oadEnv.wImgEndAddr ≤ 32 then (s, -1, [])
  else
    let binSize := s.oadEnv.upgrdFileSize - 32
    let hashAddr := s.oadEnv.wImgEndAddr - 32
    match s.fwEntry with
    | none => (s, -1, [])
    | some ptFwEntry =>
      if s.digest binSize ≠ bflbFlashRead s.flash hashAddr 32 then (s, -1, [])
      else
        let (flash, ptTableStuff, status) := ptTableUpdateEntry s.flash s.activeId.lnot
          s.ptTableStuff (Ota.committedEntry ptFwEntry binSize)
        ({ s with flash, ptTableStuff }, if status ≠ .ptErrorSuccess then -1 else 0,
          [.updateEntry s])

def oadNotifyUpgrdEnd (s : Sys) (status : Nat) : Sys × List Access :=
  if status = oadSucc then
    match s.fwCheckHash256 with
    | (s, _, done) => (s, done)
  else (s, [])

/-- A block response with its data, after the checks of its header. -/
def blockData (cfg : OadConfig) (s : Sys) (malloc : Bool) (m : Message) :
    Sys × Nat × List Access :=
  match s.oadImageDataHandler cfg malloc 13 (m.get 13 m.dataSize) with
  | (s, status, staged) =>
    if status = oadUpgrdCmplt then
      match s.oadNotifyUpgrdEnd oadSucc with
      | (s, done) => (s, status, staged ++ done)
    else if status = oadReqMoreData then (s, status, staged)
    else
      match s.oadNotifyUpgrdEnd status with
      | (s, done) => (s, status, staged ++ done)

/-- The fields are read in this order, each only if those before it fit. -/
def oadImageBlockRespHandler (cfg : OadConfig) (s : Sys) (malloc : Bool) (m : Message) :
    Sys × Nat × List Access :=
  if m.status = oadSucc then
    if s.checkDataValid m = false then
      (s, oadInvalidImag,
        [.message (if m.manuCode ≠ s.oadEnv.fileInfo.manuCode then 4 else 8)])
    else if m.fileOffset ≠ s.oadEnv.upgrdOffset then (s, oadMalormedCmd, [.message 12])
    else
      match s.blockData cfg malloc m with
      | (s, status, done) => (s, status, .message 13 :: done)
  else if m.status = oadAbort then
    ({ s with
        flash := bflbFlashErase s.flash s.oadEnv.newImgAddr s.oadEnv.upgrdFileSize },
      oadSucc, [.message 2])
  else (s, oadMalormedCmd, [.message 2])

/-- The identity names an image that the saved record knows. -/
def resumes (cfg : OadConfig) (s : Sys) (crc32 : Nat) : Bool :=
  cfg.btSettings ∧ crc32 ≠ 0 ∧ s.efInfo.upgrdCrc32 = crc32

/-- `struct oad_image_identity_t` lies behind the opcode: `file_info`, `file_size`, `crc32`. -/
def oadImageIdentityHandler (cfg : OadConfig) (s : Sys) (m : Message) : Sys :=
  let manuCode := m.word 1 2
  let fileVer := m.word 3 4
  let fileSize := m.word 7 4
  let crc32 := m.word 11 4
  let env := if cfg.btSettings then s.oadEnv
    else { s.oadEnv with newImgAddr := 0, wImgEndAddr := 0 }
  if manuCode = env.fileInfo.manuCode ∧ cfg.appCheckCb env.fileInfo.fileVer fileVer then
    let env :=
      if s.resumes cfg crc32 then
        { env with
          upgrdOffset :=
            if s.efInfo.fileOffset ≠ 0 ∧ s.efInfo.fileOffset ≤ fileSize then s.efInfo.fileOffset
            else env.upgrdOffset
          newImgAddr := s.efInfo.lastWflashAddr }
      else { env with upgrdOffset := 0 }
    { s with
      oadEnv := { env with upgrdFileVer := fileVer, upgrdFileSize := fileSize, upgrdCrc32 := crc32 } }
  else { s with oadEnv := env }

/-- The opcode decides; an image info request only has the build named. -/
def oadRecvCallback (cfg : OadConfig) (s : Sys) (malloc : Bool) (m : Message) :
    Sys × List Access :=
  if m.bytes.length = 0 then (s, [])
  else if (m.byte 0).toNat = oadCmdImagIdentity ∧ m.bytes.length - 1 = 14 then
    (s.oadImageIdentityHandler cfg m, [.message 15])
  else if (m.byte 0).toNat = oadCmdImagBlockResp then
    match s.oadImageBlockRespHandler cfg malloc m with
    | (s, _, done) => (s, done)
  else (s, [.message 1])

def oadDiscCallback (s : Sys) : Sys := { s with wData := none }

/-- After `oad_service_enable`, with whatever flash, table and saved record there are. -/
def oadServiceEnable (flash : Flash) (ptTableStuff : PtTableStuffConfig)
    (activeId : PtTableIdType) (efInfo : OadEfInfo) : Sys where
  oadEnv :=
    { fileInfo := ⟨0x2c00, 1⟩
      upgrdFileVer := 0
      upgrdFileSize := 0
      upgrdOffset := 0
      upgrdCrc32 := 0
      newImgAddr := 0
      wImgEndAddr := 0 }
  wData := none
  writeCount := 0
  efInfo := efInfo
  flash := flash
  ptTableStuff := ptTableStuff
  activeId := activeId

end Sys
end BouffaloSdk.Oad
