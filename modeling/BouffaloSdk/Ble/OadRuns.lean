import BouffaloSdk.Ble.OadMain
import BouffaloSdk.Kit.Runs
import BouffaloSdk.Ota.Sessions

/-!
# Messages of any content

What a device does with any run of messages and disconnections, and the runs that do no harm:
a block response is as long as it says, and its data goes on from what is staged and written.
-/

namespace BouffaloSdk.Oad
open Kit Kit.Word Kit.Runs BouffaloSdk.Partition

/-- `malloc` tells whether a staging buffer could be allocated. -/
inductive Event
  | recv (malloc : Bool) (m : Message)
  | disc

/-- `closed` notes that the bank was erased or taken into the table since it was chosen. -/
structure World where
  sys : Sys
  closed : Bool

def Access.isUpdate : Access → Bool
  | .updateEntry _ => true
  | _ => false

namespace Sys

def recv (cfg : OadConfig) (s : Sys) : Event → Sys × List Access
  | .recv malloc m => s.oadRecvCallback cfg malloc m
  | .disc => (s.oadDiscCallback, [])

/-- The message is a block response. -/
def IsBlockResp (m : Message) : Prop :=
  m.bytes.length ≠ 0 ∧ (m.byte 0).toNat = oadCmdImagBlockResp

instance (m : Message) : Decidable (IsBlockResp m) := inferInstanceAs (Decidable (_ ∧ _))

/-- The peer gives up after bytes were written. -/
def Aborts (s : Sys) : Event → Prop
  | .recv _ m => IsBlockResp m ∧ m.status = oadAbort ∧ s.oadEnv.wImgEndAddr ≠ 0
  | .disc => False

instance (s : Sys) : (e : Event) → Decidable (s.Aborts e)
  | .recv _ _ => inferInstanceAs (Decidable (_ ∧ _ ∧ _))
  | .disc => inferInstanceAs (Decidable False)

/-- No bank is chosen. -/
def Idle (s : Sys) : Prop := s.oadEnv.newImgAddr = 0 ∧ s.oadEnv.wImgEndAddr = 0

instance (s : Sys) : Decidable s.Idle := inferInstanceAs (Decidable (_ ∧ _))

end Sys

def step (cfg : OadConfig) (w : World) (e : Event) : Option World :=
  let r := w.sys.recv cfg e
  some
    { sys := r.1
      closed :=
        if w.sys.Aborts e ∨ r.2.any Access.isUpdate then true
        else if r.1.Idle then false
        else w.closed }

def start (mem : Nor.Mem) (ptTableStuff : PtTableStuffConfig) (activeId : PtTableIdType)
    (efInfo : OadEfInfo) : World :=
  ⟨Sys.oadServiceEnable (Flash.ofMem mem) ptTableStuff activeId efInfo, false⟩

namespace Sys

/-- The bank that the table is to be given is the inactive one, its first `upgrd_file_size`
bytes were written since they were erased, and they end with the hash of the rest. -/
def Verified (s : Sys) : Prop :=
  ∃ e, s.fwEntry = some e ∧
    (∀ a, bankStart e ≤ a → a < bankStart e + s.oadEnv.upgrdFileSize →
      Nor.programmed s.flash.log a = true) ∧
    Ota.sha256 (Nor.read s.flash.mem (bankStart e) (s.oadEnv.upgrdFileSize - 32)) =
      Nor.read s.flash.mem (bankStart e + (s.oadEnv.upgrdFileSize - 32)) 32

/-- What a message of `len` bytes may make the handlers do. -/
def Allowed (s : Sys) (len : Nat) : Access → Prop
  | .message upTo => upTo ≤ len
  | .staging index n => index + n ≤ otaWriteFlashSize
  | .flashWrite addr n =>
    ∃ e, s.fwEntry = some e ∧ bankStart e ≤ addr ∧ addr + n ≤ bankStart e + bankRoom e
  | .updateEntry t => t.Verified

end Sys

def Event.len : Event → Nat
  | .recv _ m => m.bytes.length
  | .disc => 0

def Good (cfg : OadConfig) (w : World) (e : Event) (_ : World) : Prop :=
  ∀ a ∈ (w.sys.recv cfg e).2, w.sys.Allowed e.len a

namespace Sys
variable {s t : Sys} {e : PtTableEntryConfig} {data : List UInt8} {n : Nat}

/-! ## The condition -/

def staged (s : Sys) : List UInt8 := s.wData.getD []

/-- The bytes that a block response has to have, up to the field that the handler stops at. -/
def blockLength (s : Sys) (m : Message) : Nat :=
  if m.status ≠ oadSucc then 2
  else if m.manuCode ≠ s.oadEnv.fileInfo.manuCode then 4
  else if m.fileVer ≠ s.oadEnv.upgrdFileVer then 8
  else if m.fileOffset ≠ s.oadEnv.upgrdOffset then 12
  else 13 + m.dataSize

/-- The data of a block response is taken. -/
def Takes (s : Sys) (m : Message) : Prop :=
  m.status = oadSucc ∧ s.checkDataValid m = true ∧ m.fileOffset = s.oadEnv.upgrdOffset

instance (s : Sys) (m : Message) : Decidable (s.Takes m) := inferInstanceAs (Decidable (_ ∧ _ ∧ _))

/-- `done` bytes are in the inactive bank: none before it is chosen. -/
def InFlash (s : Sys) (done : Nat) : Prop :=
  s.Idle ∧ done = 0 ∨
    s.oadEnv.newImgAddr ≠ 0 ∧ s.oadEnv.wImgEndAddr = s.oadEnv.newImgAddr + done ∧
      ∃ e, s.fwEntry = some e ∧ s.oadEnv.newImgAddr = bankStart e

/-- The first `taken` bytes of the image are in the bank and, the last of them, in the staging
buffer. -/
def InStep (s : Sys) (taken : Nat) : Prop :=
  s.staged.length ≤ taken ∧ s.InFlash (taken - s.staged.length)

/-- The bytes between the start of the bank and the end of the image were written. -/
def Written (s : Sys) : Prop :=
  s.oadEnv.wImgEndAddr ≠ 0 → ∀ a, s.oadEnv.newImgAddr ≤ a → a < s.oadEnv.wImgEndAddr →
    Nor.programmed s.flash.log a = true

/-- The inactive bank has room for `taken` bytes and is not at address 0. -/
def Fits (s : Sys) (taken : Nat) : Prop :=
  ∀ e, s.fwEntry = some e →
    bankStart e ≠ 0 ∧ taken ≤ bankRoom e ∧ bankStart e + taken < 2 ^ 32

end Sys

/-- A block response is as long as it says. One whose data is taken finds all bytes before it
staged or written, the bank neither erased nor taken into the table since, and room for its
own. An identity does not resume from the saved record. -/
def Safe (cfg : OadConfig) (w : World) (e : Event) (_ : World) : Prop :=
  match e with
  | .recv _ m =>
    ((m.byte 0).toNat = oadCmdImagIdentity → m.bytes.length = 15 →
      w.sys.resumes cfg (m.word 11 4) = false) ∧
    (Sys.IsBlockResp m → w.sys.blockLength m ≤ m.bytes.length ∧
      (w.sys.Takes m → w.sys.InStep w.sys.oadEnv.upgrdOffset ∧
        w.sys.Fits (w.sys.oadEnv.upgrdOffset + m.dataSize) ∧ w.closed = false))
  | .disc => True

/-- What is written to the bank stays there until it is closed. -/
structure Inv (w : World) : Prop where
  staged_le : w.sys.staged.length ≤ otaWriteFlashSize
  no_faults : w.sys.flash.faults = []
  written : w.closed = false → w.sys.Written


namespace Sys

/-! ## Writing to flash -/

section Flash
variable {s t : Sys} {e : PtTableEntryConfig} {flash : Flash} {data : List UInt8}
  {addr n done : Nat}

theorem bflbFlashWrite_done (h : flash.faults = []) (addr : Nat) (data : List UInt8) :
    (bflbFlashWrite flash addr data).1 = flash.done [.program addr data] := by
  rw [bflbFlashWrite, Flash.perform, h]

theorem bflbFlashErase_faults (h : flash.faults = []) (addr n : Nat) :
    (Oad.bflbFlashErase flash addr n).faults = [] := by
  unfold Oad.bflbFlashErase
  dsimp only
  split
  · exact h
  · rw [Flash.perform, h]
    exact h

theorem oadWriteFlash_next (hbase : s.oadEnv.newImgAddr ≠ 0) (hend : s.oadEnv.wImgEndAddr ≠ 0)
    (hfaults : s.flash.faults = []) (data : List UInt8) :
    s.oadWriteFlash data =
      ({ s with
          flash := s.flash.done [.program s.oadEnv.wImgEndAddr data]
          oadEnv := { s.oadEnv with
            wImgEndAddr := add32 s.oadEnv.wImgEndAddr data.length } },
        oadSucc, [.flashWrite s.oadEnv.wImgEndAddr data.length]) := by
  have hopen : s.openBank = (s, oadSucc) := if_pos hbase
  rw [oadWriteFlash, hopen]
  dsimp only
  rw [if_neg (by simp), if_neg fun h => hend h.2, if_pos hend, bflbFlashWrite_done hfaults]

theorem oadWriteFlash_first (hidle : s.Idle) (he : s.fwEntry = some e)
    (hroom : s.oadEnv.upgrdFileSize ≤ bankRoom e) (hfaults : s.flash.faults = [])
    (data : List UInt8) :
    s.oadWriteFlash data =
      ({ s with
          flash := (Oad.bflbFlashErase s.flash (bankStart e) s.oadEnv.upgrdFileSize).done
            [.program (bankStart e) data]
          oadEnv := { s.oadEnv with
            newImgAddr := bankStart e
            wImgEndAddr := add32 (bankStart e) data.length } },
        oadSucc, [.flashWrite (bankStart e) data.length]) := by
  have hopen : s.openBank =
      ({ s with
          oadEnv := { s.oadEnv with newImgAddr := bankStart e }
          flash := Oad.bflbFlashErase s.flash (bankStart e) s.oadEnv.upgrdFileSize },
        oadSucc) := by
    rw [openBank, if_neg (by simp [hidle.1]), he]
    exact if_pos hroom
  rw [oadWriteFlash, hopen]
  dsimp only
  rw [if_neg (by simp), if_pos ⟨by rw [hidle.2]; exact Nat.zero_le _, hidle.2⟩,
    bflbFlashWrite_done (bflbFlashErase_faults hfaults _ _)]

theorem oadWriteFlash_none (hidle : s.Idle) (he : s.fwEntry = none) (data : List UInt8) :
    s.oadWriteFlash data = (s, oadAbort, []) := by
  have hopen : s.openBank = (s, oadAbort) := by
    rw [openBank, if_neg (by simp [hidle.1]), he]
  rw [oadWriteFlash, hopen]
  exact if_pos (by decide)

theorem oadWriteFlash_large (hidle : s.Idle) (he : s.fwEntry = some e)
    (hroom : bankRoom e < s.oadEnv.upgrdFileSize) (data : List UInt8) :
    s.oadWriteFlash data =
      ({ s with oadEnv := { s.oadEnv with newImgAddr := bankStart e } }, 255, []) := by
  have hopen : s.openBank =
      ({ s with oadEnv := { s.oadEnv with newImgAddr := bankStart e } }, 255) := by
    rw [openBank, if_neg (by simp [hidle.1]), he]
    exact if_neg (Nat.not_le.2 hroom)
  rw [oadWriteFlash, hopen]
  exact if_pos (by decide)

theorem oadWriteFlash_wData (s : Sys) (data : List UInt8) :
    (s.oadWriteFlash data).1.wData = s.wData := by
  have hopen : s.openBank.1.wData = s.wData := by
    unfold openBank
    dsimp only
    split
    · rfl
    · split
      · rfl
      · split <;> rfl
  unfold oadWriteFlash
  generalize s.openBank = r at hopen ⊢
  obtain ⟨t, status⟩ := r
  dsimp only
  split <;> exact hopen

/-- What a write to flash leaves alone. -/
structure Frame (s t : Sys) : Prop where
  table : t.ptTableStuff = s.ptTableStuff
  size : t.oadEnv.upgrdFileSize = s.oadEnv.upgrdFileSize
  offset : t.oadEnv.upgrdOffset = s.oadEnv.upgrdOffset

theorem Frame.fwEntry (h : Frame s t) : t.fwEntry = s.fwEntry := by
  rw [Sys.fwEntry, Sys.fwEntry, h.table]

/-- An access of a write to flash is a write to the inactive bank. -/
def InBank (s : Sys) : Access → Prop
  | .flashWrite addr n =>
    ∃ e, s.fwEntry = some e ∧ bankStart e ≤ addr ∧ addr + n ≤ bankStart e + bankRoom e
  | _ => False

/-- The next bytes of the image go behind those that are in flash, or to the start of the
erased bank; or nothing is written and no end is set. -/
theorem oadWriteFlash_spec (hflash : s.InFlash done) (hfits : s.Fits (done + data.length))
    (hwritten : s.Written) (hfaults : s.flash.faults = []) (hdata : data ≠ []) :
    Frame s (s.oadWriteFlash data).1 ∧ (s.oadWriteFlash data).1.Written ∧
      (s.oadWriteFlash data).1.flash.faults = [] ∧
      (∀ a ∈ (s.oadWriteFlash data).2.2, s.InBank a) ∧
      ((s.oadWriteFlash data).2.1 = oadSucc →
        (s.oadWriteFlash data).1.InFlash (done + data.length)) ∧
      ((s.oadWriteFlash data).2.1 ≠ oadSucc →
        (s.oadWriteFlash data).1.oadEnv.wImgEndAddr = 0) := by
  have hpos : 0 < data.length := List.length_pos_of_ne_nil hdata
  rcases hflash with ⟨hidle, rfl⟩ | ⟨hbase, hend, e, he, hbaseEq⟩
  · cases he : s.fwEntry with
    | none =>
      rw [oadWriteFlash_none hidle he]
      exact ⟨⟨rfl, rfl, rfl⟩, hwritten, hfaults, fun a ha => absurd ha List.not_mem_nil,
        fun h => absurd h (show oadAbort ≠ oadSucc by decide), fun _ => hidle.2⟩
    | some e =>
      obtain ⟨hstart, hroom, hlt⟩ := hfits e he
      rcases Nat.lt_or_ge (bankRoom e) s.oadEnv.upgrdFileSize with hlarge | hsmall
      · rw [oadWriteFlash_large hidle he hlarge]
        exact ⟨⟨rfl, rfl, rfl⟩, fun hne => absurd hidle.2 hne, hfaults,
          fun a ha => absurd ha List.not_mem_nil,
          fun h => absurd h (show 255 ≠ oadSucc by decide), fun _ => hidle.2⟩
      · have hadd : add32 (bankStart e) data.length = bankStart e + data.length :=
          add32_eq (by omega)
        rw [oadWriteFlash_first hidle he hsmall hfaults]
        refine ⟨⟨rfl, rfl, rfl⟩, fun _ a hlo hhi => ?_, bflbFlashErase_faults hfaults _ _,
          fun a ha => ?_, fun _ => .inr ⟨hstart, ?_, e, he, rfl⟩, fun h => absurd rfl h⟩
        · refine (Nor.programmed_program _ _ _ _).2 (.inr ⟨hlo, ?_⟩)
          rwa [← hadd]
        · rw [List.mem_singleton.1 ha]
          exact ⟨e, he, Nat.le_refl _, by omega⟩
        · show add32 (bankStart e) data.length = bankStart e + (0 + data.length)
          rw [hadd, Nat.zero_add]
  · obtain ⟨hstart, hroom, hlt⟩ := hfits e he
    have hne : s.oadEnv.wImgEndAddr ≠ 0 := by omega
    have hadd : add32 s.oadEnv.wImgEndAddr data.length = s.oadEnv.wImgEndAddr + data.length :=
      add32_eq (by omega)
    rw [oadWriteFlash_next hbase hne hfaults]
    refine ⟨⟨rfl, rfl, rfl⟩, fun _ a hlo hhi => ?_, hfaults, fun a ha => ?_,
      fun _ => .inr ⟨hbase, ?_, e, he, hbaseEq⟩, fun h => absurd rfl h⟩
    · change a < add32 s.oadEnv.wImgEndAddr data.length at hhi
      refine (Nor.programmed_program _ _ _ _).2 ?_
      rcases Nat.lt_or_ge a s.oadEnv.wImgEndAddr with hold | hnew
      · exact .inl (hwritten hne a hlo hold)
      · exact .inr ⟨hnew, by rwa [← hadd]⟩
    · rw [List.mem_singleton.1 ha]
      exact ⟨e, he, by omega, by omega⟩
    · show add32 s.oadEnv.wImgEndAddr data.length = s.oadEnv.newImgAddr + (done + data.length)
      rw [hadd, hend, Nat.add_assoc]

theorem InBank.allowed {len : Nat} {a : Access} (h : s.InBank a) : s.Allowed len a := by
  cases a with
  | flashWrite addr n => exact h
  | message upTo => exact absurd h id
  | staging index n => exact absurd h id
  | updateEntry t => exact absurd h id

theorem Allowed.mono {m n : Nat} {a : Access} (h : s.Allowed m a) (hle : m ≤ n) :
    s.Allowed n a := by
  cases a with
  | message upTo => exact Nat.le_trans h hle
  | staging index n => exact h
  | flashWrite addr n => exact h
  | updateEntry t => exact h

theorem InBank.not_update {a : Access} (h : s.InBank a) : a.isUpdate = false := by
  cases a with
  | updateEntry t => exact absurd h id
  | _ => rfl

theorem InFlash.of_frame (h : Frame s t) (haddr : t.oadEnv.newImgAddr = s.oadEnv.newImgAddr)
    (hend : t.oadEnv.wImgEndAddr = s.oadEnv.wImgEndAddr) (hflash : s.InFlash done) :
    t.InFlash done := by
  unfold InFlash Idle at hflash ⊢
  rwa [haddr, hend, h.fwEntry]

end Flash

/-! ## Staging -/

section Stage
variable {cfg : OadConfig} {s : Sys} {buf data : List UInt8} {pos taken : Nat}

/-- An access that copies from the first `len` bytes of a message or writes to the bank. -/
def Copies (s : Sys) (len : Nat) (a : Access) : Prop := s.Allowed len a ∧ a.isUpdate = false

/-- What staging and accounting keep. -/
structure Kept (s t : Sys) : Prop where
  table : t.ptTableStuff = s.ptTableStuff
  size : t.oadEnv.upgrdFileSize = s.oadEnv.upgrdFileSize
  written : t.Written
  no_faults : t.flash.faults = []
  staged_le : t.staged.length ≤ otaWriteFlashSize

theorem Fits.mono {m n : Nat} (h : s.Fits n) (hle : m ≤ n) : s.Fits m := by
  intro e he
  obtain ⟨hstart, hroom, hlt⟩ := h e he
  exact ⟨hstart, by omega, by omega⟩

theorem countWrite_oadEnv (cfg : OadConfig) (s : Sys) :
    (countWrite cfg s).oadEnv = s.oadEnv := by
  unfold countWrite
  dsimp only
  split <;> rfl

theorem countWrite_flash (cfg : OadConfig) (s : Sys) : (countWrite cfg s).flash = s.flash := by
  unfold countWrite
  dsimp only
  split <;> rfl

theorem countWrite_table (cfg : OadConfig) (s : Sys) :
    (countWrite cfg s).ptTableStuff = s.ptTableStuff := by
  unfold countWrite
  dsimp only
  split <;> rfl

/-- A full buffer that was written is begun anew with the rest of the data. -/
theorem restart_spec {t : Sys} {rest : List UInt8} (hframe : Frame s t) (hwritten : t.Written)
    (hfaults : t.flash.faults = []) (hrest : rest.length ≤ otaWriteFlashSize) :
    Kept s { countWrite cfg t with wData := some rest } := by
  refine ⟨?_, ?_, ?_, ?_, hrest⟩
  · show (countWrite cfg t).ptTableStuff = s.ptTableStuff
    rw [countWrite_table, hframe.table]
  · show (countWrite cfg t).oadEnv.upgrdFileSize = s.oadEnv.upgrdFileSize
    rw [countWrite_oadEnv, hframe.size]
  · unfold Written at hwritten ⊢
    simp only [countWrite_oadEnv, countWrite_flash]
    exact hwritten
  · show (countWrite cfg t).flash.faults = []
    rw [countWrite_flash, hfaults]

theorem stage_spec (cfg : OadConfig) (pos : Nat) (hbuf : s.staged = buf)
    (hle : buf.length ≤ otaWriteFlashSize) (hlen : data.length ≤ 255)
    (hstep : s.InStep taken) (hfits : s.Fits (taken + data.length)) (hwritten : s.Written)
    (hfaults : s.flash.faults = []) :
    Kept s (stage cfg s buf pos data).1 ∧
      (stage cfg s buf pos data).1.oadEnv.upgrdOffset = s.oadEnv.upgrdOffset ∧
      (∀ a ∈ (stage cfg s buf pos data).2.2, s.Copies (pos + data.length) a) ∧
      ((stage cfg s buf pos data).2.1 = oadSucc →
        (stage cfg s buf pos data).1.InStep (taken + data.length)) ∧
      ((stage cfg s buf pos data).2.1 ≠ oadSucc →
        (stage cfg s buf pos data).2.1 = oadAbort) := by
  have hsize : otaWriteFlashSize = 4096 := rfl
  have hleft : sub16 otaWriteFlashSize buf.length = otaWriteFlashSize - buf.length :=
    sub16_eq hle (by decide)
  obtain ⟨hstaged, hflash⟩ := hstep
  rw [hbuf] at hstaged hflash
  unfold stage
  dsimp only
  rw [hleft]
  by_cases hroom : data.length ≤ otaWriteFlashSize - buf.length
  · rw [if_pos hroom]
    have hbytes : (buf ++ data).length = buf.length + data.length := List.length_append
    refine ⟨⟨rfl, rfl, hwritten, hfaults, ?_⟩, rfl, fun a ha => ?_, fun _ => ⟨?_, ?_⟩,
      fun h => absurd rfl h⟩
    · show (buf ++ data).length ≤ otaWriteFlashSize
      omega
    · rcases List.mem_cons.1 ha with rfl | ha
      · exact ⟨Nat.le_refl _, rfl⟩
      · rw [List.mem_singleton.1 ha]
        exact ⟨show buf.length + data.length ≤ otaWriteFlashSize by omega, rfl⟩
    · show (buf ++ data).length ≤ taken + data.length
      omega
    · show InFlash _ (taken + data.length - (buf ++ data).length)
      have hdone : taken + data.length - (buf ++ data).length = taken - buf.length := by omega
      rw [hdone]
      exact hflash
  · rw [if_neg hroom]
    have hfull : (buf ++ data.take (otaWriteFlashSize - buf.length)).length = otaWriteFlashSize := by
      rw [List.length_append, List.length_take]
      omega
    rw [if_pos hfull]
    generalize hfullEq : buf ++ data.take (otaWriteFlashSize - buf.length) = full at hfull
    have hdone : taken - buf.length + full.length ≤ taken + data.length := by omega
    have hwrite := oadWriteFlash_spec (s := { s with wData := some full }) hflash
      (hfits.mono hdone) hwritten hfaults
      (List.ne_nil_of_length_pos (by rw [hfull, hsize]; decide))
    have hwData := oadWriteFlash_wData { s with wData := some full } full
    generalize oadWriteFlash { s with wData := some full } full = r at hwrite hwData
    obtain ⟨t, status, written⟩ := r
    obtain ⟨hframe, htWritten, htFaults, hbank, hsucc, -⟩ := hwrite
    have hcopied : ∀ a ∈ [Access.message (pos + (otaWriteFlashSize - buf.length)),
        .staging buf.length (otaWriteFlashSize - buf.length)] ++ written,
        s.Copies (pos + data.length) a := by
      intro a ha
      rcases List.mem_append.1 ha with ha | ha
      · rcases List.mem_cons.1 ha with rfl | ha
        · exact ⟨show pos + (otaWriteFlashSize - buf.length) ≤ pos + data.length by omega, rfl⟩
        · rw [List.mem_singleton.1 ha]
          exact ⟨show buf.length + (otaWriteFlashSize - buf.length) ≤ otaWriteFlashSize by omega,
            rfl⟩
      · exact ⟨(hbank a ha).allowed, (hbank a ha).not_update⟩
    dsimp only
    by_cases hstatus : status = oadSucc
    · rw [if_neg (not_not_intro hstatus)]
      have hrest : (data.drop (otaWriteFlashSize - buf.length)).length =
          data.length - (otaWriteFlashSize - buf.length) := List.length_drop
      refine ⟨restart_spec ⟨hframe.table, hframe.size, hframe.offset⟩ htWritten htFaults
        (by omega), ?_, fun a ha => ?_, fun _ => ⟨?_, ?_⟩, fun h => absurd rfl h⟩
      · show (countWrite cfg t).oadEnv.upgrdOffset = _
        rw [countWrite_oadEnv]
        exact hframe.offset
      · rcases List.mem_append.1 ha with ha | ha
        · exact hcopied a ha
        · rcases List.mem_cons.1 ha with rfl | ha
          · exact ⟨Nat.le_refl _, rfl⟩
          · rw [List.mem_singleton.1 ha]
            refine ⟨?_, rfl⟩
            show 0 + (data.drop (otaWriteFlashSize - buf.length)).length ≤ otaWriteFlashSize
            omega
      · show (data.drop (otaWriteFlashSize - buf.length)).length ≤ taken + data.length
        omega
      · show InFlash _ (taken + data.length - (data.drop (otaWriteFlashSize - buf.length)).length)
        have hsum : taken + data.length - (data.drop (otaWriteFlashSize - buf.length)).length =
            taken - buf.length + full.length := by omega
        rw [hsum]
        refine (hsucc hstatus).of_frame (s := t) ⟨countWrite_table _ _, ?_, ?_⟩ ?_ ?_
        all_goals
          show _ = (_ : Nat)
          exact congrArg _ (countWrite_oadEnv cfg t)
    · rw [if_pos hstatus]
      refine ⟨⟨hframe.table, hframe.size, htWritten, htFaults, ?_⟩, hframe.offset, hcopied,
        fun h => absurd h (show oadAbort ≠ oadSucc by decide), fun _ => rfl⟩
      show (t.wData.getD []).length ≤ otaWriteFlashSize
      rw [show t.wData = some full from hwData]
      exact Nat.le_of_eq hfull

/-- The image is complete: it fills the bank up to its size, or it is too small for a hash, or
nothing of it was written. -/
def Complete (s : Sys) : Prop :=
  s.oadEnv.upgrdFileSize ≤ 32 ∨ s.oadEnv.wImgEndAddr = 0 ∨
    ∃ e, s.fwEntry = some e ∧ s.oadEnv.newImgAddr = bankStart e ∧
      s.oadEnv.wImgEndAddr = bankStart e + s.oadEnv.upgrdFileSize ∧
      bankStart e + s.oadEnv.upgrdFileSize < 2 ^ 32

theorem InStep.lt (hstep : s.InStep taken) (hfits : s.Fits taken)
    (hle : s.staged.length ≤ otaWriteFlashSize) : taken < 2 ^ 32 := by
  have hsize : otaWriteFlashSize = 4096 := rfl
  obtain ⟨hstaged, ⟨-, hdone⟩ | ⟨-, -, e, he, -⟩⟩ := hstep
  · omega
  · have := (hfits e he).2.2
    omega

theorem InFlash.complete {s : Sys} (hflash : s.InFlash s.oadEnv.upgrdFileSize)
    (hfits : s.Fits s.oadEnv.upgrdFileSize) : s.Complete := by
  rcases hflash with ⟨hidle, -⟩ | ⟨-, hend, e, he, hstart⟩
  · exact .inr (.inl hidle.2)
  · exact .inr (.inr ⟨e, he, hstart, by rw [hend, hstart], (hfits e he).2.2⟩)

/-- The last bytes are written behind the others. -/
theorem finishImage_spec (hstep : s.InStep s.oadEnv.upgrdFileSize)
    (hfits : s.Fits s.oadEnv.upgrdFileSize) (hwritten : s.Written)
    (hfaults : s.flash.faults = []) :
    Kept s s.finishImage.1 ∧ (∀ a ∈ s.finishImage.2.2, s.InBank a) ∧
      s.finishImage.2.1 = oadUpgrdCmplt ∧ s.finishImage.1.Complete := by
  obtain ⟨hstaged, hflash⟩ := hstep
  have hnone : s.staged = [] → Kept s { s with wData := none } ∧
      ({ s with wData := none } : Sys).Complete := by
    intro hnil
    rw [hnil] at hflash
    exact ⟨⟨rfl, rfl, hwritten, hfaults, Nat.zero_le _⟩,
      InFlash.complete (s := { s with wData := none }) hflash hfits⟩
  unfold finishImage
  split
  next b rest hwData =>
    have hbuf : s.staged = b :: rest := by rw [staged, hwData]; rfl
    rw [hbuf] at hstaged hflash
    have hsum := Nat.sub_add_cancel hstaged
    have hwrite := oadWriteFlash_spec hflash (by rw [hsum]; exact hfits)
      hwritten hfaults (List.cons_ne_nil _ _)
    generalize s.oadWriteFlash (b :: rest) = r at hwrite
    obtain ⟨t, status, written⟩ := r
    obtain ⟨hframe, htWritten, htFaults, hbank, hsucc, hfail⟩ := hwrite
    refine ⟨⟨hframe.table, hframe.size, htWritten, htFaults, Nat.zero_le _⟩, hbank, rfl, ?_⟩
    by_cases hstatus : status = oadSucc
    · have htFlash := hsucc hstatus
      rw [hsum] at htFlash
      have hsize : t.oadEnv.upgrdFileSize = s.oadEnv.upgrdFileSize := hframe.size
      have htFits : t.Fits s.oadEnv.upgrdFileSize := by
        intro e he
        exact hfits e (hframe.fwEntry ▸ he)
      exact InFlash.complete (s := { t with wData := none }) (hsize ▸ htFlash) (hsize ▸ htFits)
    · exact .inr (.inl (hfail hstatus))
  next hnot =>
    have hnil : s.staged = [] := by
      cases hwData : s.wData with
      | none => rw [staged, hwData]; rfl
      | some buf =>
        cases buf with
        | nil => rw [staged, hwData]; rfl
        | cons b rest => exact absurd hwData (hnot b rest)
    exact ⟨(hnone hnil).1, fun a ha => absurd ha List.not_mem_nil, rfl, (hnone hnil).2⟩

theorem account_spec {len : Nat} (hstep : s.InStep (s.oadEnv.upgrdOffset + len))
    (hfits : s.Fits (s.oadEnv.upgrdOffset + len)) (hwritten : s.Written)
    (hfaults : s.flash.faults = []) (hle : s.staged.length ≤ otaWriteFlashSize) :
    Kept s (s.account len).1 ∧ (∀ a ∈ (s.account len).2.2, s.InBank a) ∧
      (s.account len).2.1 ≠ oadSucc ∧
      ((s.account len).2.1 = oadUpgrdCmplt → (s.account len).1.Complete) := by
  have hadd : add32 s.oadEnv.upgrdOffset len = s.oadEnv.upgrdOffset + len :=
    add32_eq (hstep.lt hfits hle)
  unfold account
  dsimp only
  rw [hadd]
  by_cases hover : s.oadEnv.upgrdOffset + len > s.oadEnv.upgrdFileSize
  · rw [if_pos hover]
    exact ⟨⟨rfl, rfl, hwritten, hfaults, hle⟩, fun a ha => absurd ha List.not_mem_nil,
      (show oadInvalidImag ≠ oadSucc by decide),
      fun h => absurd h (show oadInvalidImag ≠ oadUpgrdCmplt by decide)⟩
  rw [if_neg hover]
  by_cases hend : s.oadEnv.upgrdOffset + len = s.oadEnv.upgrdFileSize
  · rw [if_pos hend]
    rw [hend] at hstep hfits ⊢
    obtain ⟨hkept, hbank, hstatus, hcomplete⟩ := finishImage_spec
      (s := { s with oadEnv := { s.oadEnv with upgrdOffset := s.oadEnv.upgrdFileSize } })
      hstep hfits hwritten hfaults
    exact ⟨⟨hkept.table, hkept.size, hkept.written, hkept.no_faults, hkept.staged_le⟩, hbank,
      by rw [hstatus]; decide, fun _ => hcomplete⟩
  · rw [if_neg hend]
    exact ⟨⟨rfl, rfl, hwritten, hfaults, hle⟩, fun a ha => absurd ha List.not_mem_nil,
      (show oadReqMoreData ≠ oadSucc by decide),
      fun h => absurd h (show oadReqMoreData ≠ oadUpgrdCmplt by decide)⟩

theorem ptTableUpdateEntry_faults {flash : Flash} (h : flash.faults = []) (id : PtTableIdType)
    (base : PtTableStuffConfig) (e : PtTableEntryConfig) :
    (ptTableUpdateEntry flash id base e).1.faults = [] := by
  have herase : ∀ a n, (BouffaloSdk.bflbFlashErase flash a n).1.faults = [] := by
    intro a n
    rw [BouffaloSdk.bflbFlashErase, Flash.perform, h]
    exact h
  unfold ptTableUpdateEntry
  split
  · exact h
  · split
    · exact h
    · dsimp only
      split
      · exact herase _ _
      · split
        all_goals
          rw [bflbFlashWrite, Flash.perform, herase]
          exact herase _ _

/-- The check of a complete image updates the table only for a verified one. -/
theorem fwCheckHash256_spec (hcomplete : s.Complete) (hwritten : s.Written)
    (hfaults : s.flash.faults = []) :
    (∀ a ∈ s.fwCheckHash256.2.2, ∃ t, a = .updateEntry t ∧ t.Verified) ∧
      s.fwCheckHash256.1.flash.faults = [] ∧ s.fwCheckHash256.1.wData = s.wData ∧
      (s.fwCheckHash256.2.2.any Access.isUpdate = false → s.fwCheckHash256.1 = s) := by
  unfold fwCheckHash256
  by_cases hsmall : s.oadEnv.upgrdFileSize ≤ 32
  · rw [if_pos hsmall]
    exact ⟨fun a ha => absurd ha List.not_mem_nil, hfaults, rfl, fun _ => rfl⟩
  rw [if_neg hsmall]
  by_cases hlow : s.oadEnv.wImgEndAddr ≤ 32
  · rw [if_pos hlow]
    exact ⟨fun a ha => absurd ha List.not_mem_nil, hfaults, rfl, fun _ => rfl⟩
  rw [if_neg hlow]
  obtain ⟨e, he, hstart, hend, hlt⟩ := (hcomplete.resolve_left hsmall).resolve_left
    (fun h => hlow (h ▸ Nat.zero_le 32))
  rw [he]
  dsimp only
  by_cases hhash : s.digest (s.oadEnv.upgrdFileSize - 32) ≠
      bflbFlashRead s.flash (s.oadEnv.wImgEndAddr - 32) 32
  · rw [if_pos hhash]
    exact ⟨fun a ha => absurd ha List.not_mem_nil, hfaults, rfl, fun _ => rfl⟩
  rw [if_neg hhash]
  have hdigest := not_not.1 hhash
  refine ⟨fun a ha => ?_, ?_, rfl, fun h => absurd h (by simp [Access.isUpdate])⟩
  · refine ⟨s, List.mem_singleton.1 ha, e, he, fun a hlo hhi => ?_, ?_⟩
    · exact hwritten (by omega) a (by omega) (by omega)
    · have hread : s.oadEnv.wImgEndAddr - 32 = bankStart e + (s.oadEnv.upgrdFileSize - 32) := by
        omega
      rw [digest, Ota.otaDigest_eq _ _ (show s.oadEnv.newImgAddr + _ ≤ _ by omega), bflbFlashRead, hread] at hdigest
      rwa [show s.oadEnv.newImgAddr = bankStart e from hstart] at hdigest
  · exact ptTableUpdateEntry_faults hfaults _ _ _

theorem Kept.trans {t u : Sys} (h : Kept s t) (h' : Kept t u) : Kept s u :=
  ⟨h'.table.trans h.table, h'.size.trans h.size, h'.written, h'.no_faults, h'.staged_le⟩

theorem Kept.fwEntry {t : Sys} (h : Kept s t) : t.fwEntry = s.fwEntry := by
  rw [Sys.fwEntry, Sys.fwEntry, h.table]

theorem InBank.of_kept {t : Sys} {a : Access} (h : Kept s t) (ha : t.InBank a) : s.InBank a := by
  cases a with
  | flashWrite addr n =>
    obtain ⟨e, he, hrange⟩ := ha
    exact ⟨e, h.fwEntry ▸ he, hrange⟩
  | message upTo => exact absurd ha id
  | staging index n => exact absurd ha id
  | updateEntry t => exact absurd ha id

theorem oadImageDataHandler_spec (cfg : OadConfig) (malloc : Bool) (pos : Nat)
    (data : List UInt8) (hlen : data.length ≤ 255) (hstep : s.InStep s.oadEnv.upgrdOffset)
    (hfits : s.Fits (s.oadEnv.upgrdOffset + data.length)) (hwritten : s.Written)
    (hfaults : s.flash.faults = []) (hle : s.staged.length ≤ otaWriteFlashSize) :
    Kept s (s.oadImageDataHandler cfg malloc pos data).1 ∧
      (∀ a ∈ (s.oadImageDataHandler cfg malloc pos data).2.2, s.Copies (pos + data.length) a) ∧
      (s.oadImageDataHandler cfg malloc pos data).2.1 ≠ oadSucc ∧
      ((s.oadImageDataHandler cfg malloc pos data).2.1 = oadUpgrdCmplt →
        (s.oadImageDataHandler cfg malloc pos data).1.Complete) := by
  unfold oadImageDataHandler
  split
  next => exact ⟨⟨rfl, rfl, hwritten, hfaults, hle⟩, fun a ha => absurd ha List.not_mem_nil,
    (show oadAbort ≠ oadSucc by decide),
    fun h => absurd h (show oadAbort ≠ oadUpgrdCmplt by decide)⟩
  next buf hsome =>
    have hbuf : s.staged = buf := by
      cases hwData : s.wData with
      | none =>
        rw [hwData, Option.none_or] at hsome
        split at hsome
        · rw [staged, hwData, ← Option.some.inj hsome]
          rfl
        · exact absurd hsome (by simp)
      | some b =>
        rw [hwData, Option.some_or] at hsome
        rw [staged, hwData, ← Option.some.inj hsome]
        rfl
    have hstage := stage_spec cfg pos hbuf (hbuf ▸ hle) hlen hstep hfits hwritten
      hfaults
    generalize stage cfg s buf pos data = r at hstage ⊢
    obtain ⟨t, status, accesses⟩ := r
    obtain ⟨hkept, hoffset, hcopies, hsucc, hfail⟩ := hstage
    dsimp only at hkept hoffset hcopies hsucc hfail ⊢
    by_cases hstatus : status = oadSucc
    · rw [if_neg (not_not_intro hstatus)]
      have htFits : t.Fits (t.oadEnv.upgrdOffset + data.length) := by
        rw [hoffset]
        intro e he
        exact hfits e (hkept.fwEntry ▸ he)
      have htStep := hsucc hstatus
      rw [← hoffset] at htStep
      obtain ⟨hkept', hbank, hne, hcomplete⟩ :=
        account_spec htStep htFits hkept.written hkept.no_faults hkept.staged_le
      refine ⟨hkept.trans hkept', fun a ha => ?_, hne, hcomplete⟩
      rcases List.mem_append.1 ha with ha | ha
      · exact hcopies a ha
      · exact ⟨((hbank a ha).of_kept hkept).allowed, (hbank a ha).not_update⟩
    · rw [if_pos hstatus, hfail hstatus]
      exact ⟨hkept, hcopies, (show oadAbort ≠ oadSucc by decide),
        fun h => absurd h (show oadAbort ≠ oadUpgrdCmplt by decide)⟩

end Stage

/-! ## Messages -/

section Messages
variable {cfg : OadConfig} {s : Sys} {m : Message} {malloc : Bool}

/-- What a message leaves: the flash takes every call, the buffer keeps its size, and without
an update of the table the bank keeps what was written. -/
structure Left (r : Sys × List Access) : Prop where
  no_faults : r.1.flash.faults = []
  staged_le : r.1.staged.length ≤ otaWriteFlashSize
  written : r.2.any Access.isUpdate = false → r.1.Written

theorem blockData_spec (hstep : s.InStep s.oadEnv.upgrdOffset)
    (hfits : s.Fits (s.oadEnv.upgrdOffset + m.dataSize)) (hwritten : s.Written)
    (hfaults : s.flash.faults = []) (hle : s.staged.length ≤ otaWriteFlashSize) :
    Left ((s.blockData cfg malloc m).1, (s.blockData cfg malloc m).2.2) ∧
      ∀ a ∈ (s.blockData cfg malloc m).2.2, s.Allowed (13 + m.dataSize) a := by
  have hlen : (m.get 13 m.dataSize).length = m.dataSize := by
    rw [Message.get, List.length_map, List.length_range]
  have hsize : m.dataSize ≤ 255 := Nat.le_of_lt_succ (m.byte 12).toNat_lt
  have hdata :=
    oadImageDataHandler_spec cfg malloc 13 (m.get 13 m.dataSize) (by rw [hlen]; exact hsize)
      hstep (by rw [hlen]; exact hfits) hwritten hfaults hle
  rw [hlen] at hdata
  unfold blockData
  generalize s.oadImageDataHandler cfg malloc 13 (m.get 13 m.dataSize) = r at hdata ⊢
  obtain ⟨t, status, staged⟩ := r
  obtain ⟨hkept, hcopies, hne, hcomplete⟩ := hdata
  dsimp only at hkept hcopies hne hcomplete ⊢
  have hstop : Left (t, staged) ∧ ∀ a ∈ staged, s.Allowed (13 + m.dataSize) a :=
    ⟨⟨hkept.no_faults, hkept.staged_le, fun _ => hkept.written⟩, fun a ha => (hcopies a ha).1⟩
  by_cases hcmplt : status = oadUpgrdCmplt
  · rw [if_pos hcmplt]
    obtain ⟨hupdate, hfaults', hwData, hsame⟩ :=
      fwCheckHash256_spec (hcomplete hcmplt) hkept.written hkept.no_faults
    rw [oadNotifyUpgrdEnd, if_pos rfl]
    generalize t.fwCheckHash256 = r at hupdate hfaults' hwData hsame ⊢
    obtain ⟨u, code, done⟩ := r
    dsimp only at hupdate hfaults' hwData hsame ⊢
    refine ⟨⟨hfaults', ?_, fun h => ?_⟩, fun a ha => ?_⟩
    · show (u.wData.getD []).length ≤ otaWriteFlashSize
      rw [hwData]
      exact hkept.staged_le
    · rw [List.any_append, Bool.or_eq_false_iff] at h
      rw [hsame h.2]
      exact hkept.written
    · rcases List.mem_append.1 ha with ha | ha
      · exact (hcopies a ha).1
      · obtain ⟨v, rfl, hverified⟩ := hupdate a ha
        exact hverified
  · rw [if_neg hcmplt]
    by_cases hmore : status = oadReqMoreData
    · rw [if_pos hmore]
      exact hstop
    · rw [if_neg hmore, oadNotifyUpgrdEnd, if_neg hne]
      simp only [List.append_nil]
      exact hstop

/-- An image identity moves neither the start of the bank nor the end of the image, or resets
them both. -/
theorem identity_written (hresume : s.resumes cfg (m.word 11 4) = false) (hwritten : s.Written) :
    (s.oadImageIdentityHandler cfg m).Written := by
  unfold oadImageIdentityHandler
  simp only [hresume, Bool.false_eq_true, if_false]
  by_cases hsettings : cfg.btSettings = true
  · simp only [if_pos hsettings]
    split
    · exact hwritten
    · exact hwritten
  · simp only [if_neg hsettings]
    split
    · exact fun h => absurd rfl h
    · exact fun h => absurd rfl h

theorem identity_flash : (s.oadImageIdentityHandler cfg m).flash = s.flash ∧
    (s.oadImageIdentityHandler cfg m).wData = s.wData := by
  unfold oadImageIdentityHandler
  dsimp only
  split <;> split <;> exact ⟨rfl, rfl⟩

end Messages

end Sys

section Run
variable {cfg : OadConfig} {w : World} {m : Message} {malloc : Bool}

/-- A step that does what it may, and what it leaves when the peer did not give up. -/
def Fine (w : World) (e : Event) (r : Sys × List Access) : Prop :=
  (∀ a ∈ r.2, w.sys.Allowed e.len a) ∧ r.1.flash.faults = [] ∧
    r.1.staged.length ≤ otaWriteFlashSize ∧
    (¬ w.sys.Aborts e → r.2.any Access.isUpdate = false → w.closed = false → r.1.Written)

theorem fine_unchanged (hinv : Inv w) {e : Event} {upTo : Nat} (hupTo : upTo ≤ e.len) :
    Fine w e (w.sys, [.message upTo]) := by
  refine ⟨fun a ha => ?_, hinv.no_faults, hinv.staged_le, fun _ _ h => hinv.written h⟩
  rw [List.mem_singleton.1 ha]
  exact hupTo

theorem identity_fine (hinv : Inv w) (hlen : m.bytes.length = 15)
    (hresume : w.sys.resumes cfg (m.word 11 4) = false) :
    Fine w (.recv malloc m) (w.sys.oadImageIdentityHandler cfg m, [.message 15]) := by
  obtain ⟨hflash, hwData⟩ := Sys.identity_flash (s := w.sys) (m := m)
  refine ⟨fun a ha => ?_, ?_, ?_, fun _ _ h => Sys.identity_written hresume (hinv.written h)⟩
  · rw [List.mem_singleton.1 ha]
    exact Nat.le_of_eq hlen.symm
  · rw [hflash]
    exact hinv.no_faults
  · rw [Sys.staged, hwData]
    exact hinv.staged_le

theorem blockResp_fine (hinv : Inv w) (hblock : Sys.IsBlockResp m)
    (hlen : w.sys.blockLength m ≤ m.bytes.length)
    (htakes : w.sys.Takes m → w.sys.InStep w.sys.oadEnv.upgrdOffset ∧
      w.sys.Fits (w.sys.oadEnv.upgrdOffset + m.dataSize) ∧ w.closed = false) :
    Fine w (.recv malloc m) ((w.sys.oadImageBlockRespHandler cfg malloc m).1,
      (w.sys.oadImageBlockRespHandler cfg malloc m).2.2) := by
  unfold Sys.blockLength at hlen
  unfold Sys.oadImageBlockRespHandler
  by_cases hsucc : m.status = oadSucc
  · rw [if_neg (not_not_intro hsucc)] at hlen
    rw [if_pos hsucc]
    by_cases hvalid : w.sys.checkDataValid m = false
    · rw [if_pos hvalid]
      refine fine_unchanged hinv ?_
      show _ ≤ m.bytes.length
      by_cases hmanu : m.manuCode ≠ w.sys.oadEnv.fileInfo.manuCode
      · rwa [if_pos hmanu] at hlen ⊢
      · rw [if_neg hmanu] at hlen ⊢
        have hver : m.fileVer ≠ w.sys.oadEnv.upgrdFileVer := by
          intro hver
          rw [Sys.checkDataValid, decide_eq_false_iff_not] at hvalid
          exact hvalid ⟨not_not.1 hmanu, hver⟩
        rwa [if_pos hver] at hlen
    rw [if_neg hvalid]
    have hcheck := Bool.of_not_eq_false hvalid
    have hfields := hcheck
    rw [Sys.checkDataValid, decide_eq_true_eq] at hfields
    rw [if_neg (not_not_intro hfields.1), if_neg (not_not_intro hfields.2)] at hlen
    by_cases hoffset : m.fileOffset ≠ w.sys.oadEnv.upgrdOffset
    · rw [if_pos hoffset] at hlen ⊢
      exact fine_unchanged hinv hlen
    rw [if_neg hoffset] at hlen ⊢
    obtain ⟨hstep, hfits, hclosed⟩ := htakes ⟨hsucc, hcheck, not_not.1 hoffset⟩
    obtain ⟨hleft, hallowed⟩ := Sys.blockData_spec hstep hfits
      (hinv.written hclosed) hinv.no_faults hinv.staged_le
    refine ⟨fun a ha => ?_, hleft.no_faults, hleft.staged_le, fun _ hnone _ => hleft.written ?_⟩
    · rcases List.mem_cons.1 ha with rfl | ha
      · exact (Nat.le_add_right 13 m.dataSize).trans hlen
      · exact (hallowed a ha).mono hlen
    · exact (Bool.or_eq_false_iff.1 hnone).2
  rw [if_pos hsucc] at hlen
  rw [if_neg hsucc]
  by_cases habort : m.status = oadAbort
  · rw [if_pos habort]
    refine ⟨fun a ha => ?_, Sys.bflbFlashErase_faults hinv.no_faults _ _, hinv.staged_le,
      fun hnot _ _ hend => absurd ⟨hblock, habort, hend⟩ hnot⟩
    rw [List.mem_singleton.1 ha]
    exact hlen
  · rw [if_neg habort]
    exact fine_unchanged hinv hlen

theorem recv_fine (hinv : Inv w) {e : Event} {t : World} (hsafe : Safe cfg w e t) :
    Fine w e (w.sys.recv cfg e) := by
  cases e with
  | disc =>
    exact ⟨fun a ha => absurd ha List.not_mem_nil, hinv.no_faults, Nat.zero_le _,
      fun _ _ h => hinv.written h⟩
  | recv malloc m =>
    obtain ⟨hidentity, hblock⟩ := hsafe
    show Fine w _ (w.sys.oadRecvCallback cfg malloc m)
    unfold Sys.oadRecvCallback
    split
    next =>
      exact ⟨fun a ha => absurd ha List.not_mem_nil, hinv.no_faults, hinv.staged_le,
        fun _ _ h => hinv.written h⟩
    next hne =>
      split
      next h =>
        have hlen : m.bytes.length = 15 := by omega
        exact identity_fine hinv hlen (hidentity h.1 hlen)
      next =>
        split
        next h =>
          obtain ⟨hlen, htakes⟩ := hblock ⟨hne, h⟩
          exact blockResp_fine hinv ⟨hne, h⟩ hlen htakes
        next => exact fine_unchanged hinv (Nat.one_le_iff_ne_zero.2 hne)

theorem step_good {e : Event} {t : World} (hinv : Inv w) (hstep : step cfg w e = some t)
    (hsafe : Safe cfg w e t) : Good cfg w e t ∧ Inv t := by
  obtain ⟨hallowed, hfaults, hle, hwritten⟩ := recv_fine hinv hsafe
  refine ⟨hallowed, ?_⟩
  cases hstep
  refine ⟨hle, hfaults, fun hopen => ?_⟩
  dsimp only at hopen ⊢
  split at hopen
  · exact absurd hopen (by decide)
  next hquiet =>
    obtain ⟨hnot, hnone⟩ := not_or.1 hquiet
    split at hopen
    next hidle => exact fun hend => absurd hidle.2 hend
    next => exact hwritten hnot (Bool.of_not_eq_true hnone) hopen

theorem start_inv (mem : Nor.Mem) (ptTableStuff : PtTableStuffConfig) (activeId : PtTableIdType)
    (efInfo : OadEfInfo) : Inv (start mem ptTableStuff activeId efInfo) :=
  ⟨Nat.zero_le _, rfl, fun _ h => absurd rfl h⟩

/-- In a run of messages and disconnections that all meet the condition, nothing behind a
message is read, the staging buffer is not overrun, the flash is written in the inactive bank
only and the table is updated only for a bank that was written and carries its hash. -/
theorem oad_messages_safe (cfg : OadConfig) (mem : Nor.Mem) (ptTableStuff : PtTableStuffConfig)
    (activeId : PtTableIdType) (efInfo : OadEfInfo) (events : List Event)
    (hsafe : Along (step cfg) (Safe cfg) (start mem ptTableStuff activeId efInfo) events) :
    Along (step cfg) (Good cfg) (start mem ptTableStuff activeId efInfo) events :=
  along_of_invariant (fun _ _ _ hinv hstep h => step_good hinv hstep h)
    (start_inv mem ptTableStuff activeId efInfo) hsafe

end Run

/-! ## An image of two bytes -/

def anyVersion : OadConfig := { btSettings := false, appCheckCb := fun _ _ => true }

/-- An erased flash and a table with one firmware entry. -/
def fwStart : World :=
  start (fun _ => 0xff) Ota.fwTable .ptTableId0 ⟨⟨0, 0⟩, 0, 0, 0⟩

/-- The identity of an image of `size` bytes. -/
def identity (size : UInt8) : Message :=
  ⟨[0, 0x00, 0x2c, 1, 0, 0, 0, size, 0, 0, 0, 0, 0, 0, 0], fun _ => 0⟩

/-- A block response that announces `n` bytes and has `data`. -/
def block (offset n : UInt8) (data : List UInt8) : Message :=
  ⟨[2, 0, 0x00, 0x2c, 1, 0, 0, 0, offset, 0, 0, 0, n] ++ data, fun _ => 0⟩

def named (size : Nat) : World :=
  { fwStart with
    sys := { fwStart.sys with
      oadEnv := { fwStart.sys.oadEnv with upgrdFileVer := 1, upgrdFileSize := size } } }

/-- After the first of two bytes. -/
def halfStaged : World :=
  { named 2 with
    sys := { (named 2).sys with
      oadEnv := { (named 2).sys.oadEnv with upgrdOffset := 1 }
      wData := some [7] } }

theorem step_identity : step anyVersion fwStart (.recv true (identity 2)) = some (named 2) := rfl

theorem step_block : step anyVersion (named 2) (.recv true (block 0 1 [7])) = some halfStaged := by
  with_unfolding_all rfl

theorem fits_fwTable {s : Sys} (hs : s.ptTableStuff = Ota.fwTable) : s.Fits 2 := by
  have hbank : Sys.bankStart Ota.fwEntry = 0x80000 ∧ Sys.bankRoom Ota.fwEntry = 0x70000 := by
    decide
  intro e he
  rw [Sys.fwEntry, hs, ptTableGetActiveEntriesByName, Ota.entries_fwTable] at he
  rw [List.mem_singleton.1 (List.mem_of_find?_eq_some he), hbank.1, hbank.2]
  decide

theorem two_blocks_safe : Along (step anyVersion) (Good anyVersion) fwStart
    [.recv true (identity 2), .recv true (block 0 1 [7]), .recv true (block 1 1 [9])] := by
  refine oad_messages_safe anyVersion _ _ _ _ _ ?_
  intro w hw
  obtain rfl := Option.some.inj (step_identity.symm.trans hw)
  refine ⟨⟨fun _ _ => rfl, fun h => absurd h.2 (by decide)⟩, fun w hw => ?_⟩
  obtain rfl := Option.some.inj (step_block.symm.trans hw)
  refine ⟨⟨fun h => absurd h (by decide), fun _ => ⟨by decide, fun _ => ⟨⟨by decide, ?_⟩, ?_, rfl⟩⟩⟩,
    fun w hw => ⟨⟨fun h => absurd h (by decide), fun _ => ⟨by decide, fun _ =>
      ⟨⟨by decide, ?_⟩, ?_, rfl⟩⟩⟩, along_nil⟩⟩
  · exact .inl ⟨⟨rfl, rfl⟩, rfl⟩
  · exact (fits_fwTable rfl).mono (by decide)
  · exact .inl ⟨⟨rfl, rfl⟩, rfl⟩
  · exact fits_fwTable rfl

/-- A block response that announces two bytes and has none. -/
theorem block_read_past_message : ¬ Along (step anyVersion) (Good anyVersion) fwStart
    ([.recv true (identity 3)] ++ [.recv true (block 0 2 [])]) := by
  refine not_along_of_run (t := named 3) rfl rfl fun hgood => ?_
  have haccesses : ((named 3).sys.recv anyVersion (.recv true (block 0 2 []))).2 =
      [.message 13, .message 15, .staging 0 2] := by
    with_unfolding_all rfl
  have hread : 15 ≤ 13 := hgood (.message 15) (haccesses ▸ .tail _ (.head _))
  exact absurd hread (by decide)

end BouffaloSdk.Oad
