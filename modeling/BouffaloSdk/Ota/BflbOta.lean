import BouffaloSdk.Mtd.BflbMtd
import BouffaloSdk.Ota.UtilsSha256

/-!
# Firmware update sessions

`components/utils/bflb_ota/bflb_ota.c`. A session is opened by
`bflb_ota_start`, fed by `bflb_ota_update` and ended by `bflb_ota_finish`,
`bflb_ota_apply` or `bflb_ota_abort`. The sizes and the commit come from the
table in flash, the bank that is written from the table in RAM.
-/

namespace BouffaloSdk.Ota
open Kit Kit.Word BouffaloSdk.Partition Mtd

structure BflbOtaParm where
  mtdHandle : BflbMtdHandle
  fileSize : Nat
  sectorErased : List Nat
  deriving DecidableEq, Repr

/-- What a session does to the heap and to the device, in order. -/
inductive OtaEvent
  | mallocParm
  | freeParm
  | openMtd
  | closeMtd
  deriving DecidableEq, Repr

structure Sys where
  flash : Flash
  boot2PartitionTable : Boot2PartitionTable
  otaParm : Option BflbOtaParm
  events : List OtaEvent

/-- Ways not to return: the endless loop of `bflb_mtd_open` and an access
outside `sector_erased`. -/
inductive Halt
  | deadLoop
  | outOfBounds
  deriving DecidableEq, Repr

def hosalOtaFileSizeMax : Nat := 0x100000

/-- The words of `sector_erased`. -/
def sectorErasedWords : Nat := ((hosalOtaFileSizeMax + 4095) / 4096 + 31) / 32

/-- `"FW"`. -/
def blMtdPartitionNameFwDefault : List UInt8 := [0x46, 0x57]

/-- One pass of the loop of `bflb_ota_erase`. -/
def otaEraseSector (handle : BflbMtdHandle) (state : Flash × List Nat) (index : Nat) :
    Except Halt (Flash × List Nat) :=
  match state.2[index / 32]? with
  | none => .error .outOfBounds
  | some word =>
    if word &&& (1 <<< (index % 32)) = 0 then
      .ok ((bflbMtdErase state.1 handle (index * 4096) 4096).1,
        state.2.set (index / 32) (word ||| (1 <<< (index % 32))))
    else .ok state

/-- The sectors not yet erased in this session are erased. -/
def bflbOtaErase (flash : Flash) (parm : BflbOtaParm) (offset len : Nat) :
    Except Halt (Flash × List Nat) :=
  let startIndex := offset / 4096
  let endIndex := sub32 (add32 offset len) 1 / 4096
  ((List.range (endIndex + 1 - startIndex)).map (startIndex + ·)).foldlM
    (otaEraseSector parm.mtdHandle) (flash, parm.sectorErased)

def Sys.freeParm (sys : Sys) : Sys :=
  { sys with otaParm := none, events := sys.events ++ [.freeParm] }

/-- The handle is closed and the session freed. -/
def Sys.endSession (sys : Sys) : Sys :=
  { sys with otaParm := none, events := sys.events ++ [.closeMtd, .freeParm] }

def bflbOtaStart (sys : Sys) (fileSize : Nat) (parmMemory handleMemory : Bool) :
    Except Halt (Sys × Int) :=
  if sys.otaParm.isSome then .ok (sys, 0)
  else if parmMemory = false then .ok (sys, -1)
  else
    let sys := { sys with events := sys.events ++ [OtaEvent.mallocParm] }
    let activeId := ptTableGetActivePartitionNeedLock sys.flash
    if activeId = .ptTableIdInvalid then .ok (sys.freeParm, -1)
    else
      match ptTableGetActiveEntriesByName (readTable sys.flash activeId)
          blMtdPartitionNameFwDefault with
      | none => .ok (sys.freeParm, -1)
      | some ptFwEntry =>
        match bflbMtdOpen sys.boot2PartitionTable handleMemory blMtdPartitionNameFwDefault true with
        | .deadLoop => .error .deadLoop
        | .noMemory => .ok (sys.freeParm, -1)
        | .opened handle =>
          let sys := { sys with
            otaParm := some
              { mtdHandle := handle
                fileSize := fileSize
                sectorErased := List.replicate sectorErasedWords 0 }
            events := sys.events ++ [OtaEvent.openMtd] }
          let binSize := ptFwEntry.maxLen (lnot ptFwEntry.activeIndex)
          if fileSize > binSize then .ok (sys.endSession, -1)
          else .ok (sys, 0)

/-- `buf` is `none` for a null pointer; `xip` tells whether it points into
the flash window. -/
def bflbOtaUpdate (sys : Sys) (filesize offset : Nat) (buf : Option (List UInt8)) (xip : Bool) :
    Except Halt (Sys × Int) :=
  match sys.otaParm with
  | none => .ok (sys, -1)
  | some parm =>
    match buf with
    | none => .ok (sys, -1)
    | some buf =>
      if filesize > parm.fileSize ∨ add32 offset buf.length > parm.fileSize ∨ buf.length = 0 then
        .ok (sys, -1)
      else
        match bflbOtaErase sys.flash parm offset buf.length with
        | .error halt => .error halt
        | .ok (flash, sectorErased) =>
          let (flash, ret) := bflbMtdWrite flash parm.mtdHandle offset buf xip
          let sys := { sys with
            flash := flash
            otaParm := some { parm with sectorErased := sectorErased } }
          if ret ≠ 0 then .ok (sys, -1) else .ok (sys, ret)

/-- The digest of the `binSize` bytes in the bank, read 512 bytes at a time. -/
def otaDigest (flash : Flash) (handle : BflbMtdHandle) (binSize : Nat) : List UInt8 :=
  utilsSha256Finish
    ((List.range ((binSize + 511) / 512)).foldl
      (fun ctx i =>
        utilsSha256Update ctx
          (bflbMtdRead flash handle (512 * i) (min 512 (binSize - 512 * i))))
      (utilsSha256Starts utilsSha256Init))

/-- Whether the digest matches the 32 bytes stored behind the image. -/
def otaDigestMatches (flash : Flash) (handle : BflbMtdHandle) (binSize : Nat) : Bool :=
  otaDigest flash handle binSize = bflbMtdRead flash handle binSize 32

/-- The firmware entry as a commit of `binSize` bytes rewrites it. -/
def committedEntry (ptFwEntry : PtTableEntryConfig) (binSize : Nat) : PtTableEntryConfig :=
  let ptFwEntry := ptFwEntry.setLen binSize
  let ptFwEntry := ptFwEntry.setActiveIndex (lnot (ptFwEntry.activeIndex &&& 1))
  ptFwEntry.setAge (add32 ptFwEntry.age 1)

/-- The end of `bflb_ota_finish` and `bflb_ota_apply`: the status of the table
update is printed and dropped. -/
def otaCommit (sys : Sys) (activeId : PtTableIdType) (ptFwEntry : PtTableEntryConfig)
    (binSize : Nat) : Sys × Int :=
  let result := ptTableUpdateEntry sys.flash activeId.lnot (readTable sys.flash activeId)
    (committedEntry ptFwEntry binSize)
  ({ sys with flash := result.1 }.endSession, 0)

def bflbOtaFinish (sys : Sys) (checkHash memory : Bool) : Sys × Int :=
  match sys.otaParm with
  | none => (sys, -1)
  | some parm =>
    if parm.fileSize ≤ 32 then (sys.endSession, -1)
    else
      let binSize := parm.fileSize - 32
      let activeId := ptTableGetActivePartitionNeedLock sys.flash
      if activeId = .ptTableIdInvalid then (sys.freeParm, -1)
      else
        match ptTableGetActiveEntriesByName (readTable sys.flash activeId)
            blMtdPartitionNameFwDefault with
        | none => (sys.endSession, -1)
        | some ptFwEntry =>
          if checkHash = true ∧ memory = false then (sys.endSession, -1)
          else if checkHash = true ∧ otaDigestMatches sys.flash parm.mtdHandle binSize = false then
            (sys.endSession, -1)
          else otaCommit sys activeId ptFwEntry binSize

def bflbOtaRead (sys : Sys) (offset : Nat) (bufLen : Nat) : Int × List UInt8 :=
  match sys.otaParm with
  | none => (-1, [])
  | some parm =>
    if add32 offset bufLen > parm.fileSize ∨ bufLen = 0 then (-1, [])
    else (0, bflbMtdRead sys.flash parm.mtdHandle offset bufLen)

def bflbOtaCheck (sys : Sys) (memory : Bool) : Sys × Int :=
  match sys.otaParm with
  | none => (sys, -1)
  | some parm =>
    if parm.fileSize ≤ 32 then (sys.endSession, -1)
    else if memory = false then (sys.endSession, -1)
    else if otaDigestMatches sys.flash parm.mtdHandle (parm.fileSize - 32) = false then
      (sys.endSession, -1)
    else (sys, 0)

def bflbOtaApply (sys : Sys) : Sys × Int :=
  match sys.otaParm with
  | none => (sys, -1)
  | some parm =>
    if parm.fileSize ≤ 32 then (sys.endSession, -1)
    else
      let binSize := parm.fileSize - 32
      let activeId := ptTableGetActivePartitionNeedLock sys.flash
      if activeId = .ptTableIdInvalid then (sys.freeParm, -1)
      else
        match ptTableGetActiveEntriesByName (readTable sys.flash activeId)
            blMtdPartitionNameFwDefault with
        | none => (sys.endSession, -1)
        | some ptFwEntry => otaCommit sys activeId ptFwEntry binSize

def bflbOtaAbort (sys : Sys) : Sys :=
  match sys.otaParm with
  | none => sys
  | some _ => sys.endSession

end BouffaloSdk.Ota
