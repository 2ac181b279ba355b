import BouffaloSdk.HostRouter.RnmOta
import BouffaloSdk.Kit.Runs
import BouffaloSdk.Ota.Sessions

/-!
# Runs of update messages

Which sequences of messages switch the partition table only for an image that
was programmed to its last byte and whose digest was checked. `COMMIT` itself
checks nothing.
-/

namespace BouffaloSdk.HostRouter.Ota
open Kit Kit.Word Kit.Runs BouffaloSdk.Partition Mtd BouffaloSdk.Ota

variable {dev : Dev} {octx : RnmOta} {flash : Flash} {cmd : RnmBaseMsg} {offset size : Nat}
  {data buf : List UInt8} {part : Part} {r : Dev × OtaReply}

/-- A device that faulted handles no more messages. -/
structure World where
  dev : Dev
  halted : Bool

def World.booted (flash : Flash) (boot2 : Boot2PartitionTable) (lastMsgId : UInt16) : World where
  dev := { flash := flash, boot2PartitionTable := boot2, ota := none, lastMsgId := lastMsgId }
  halted := false

/-- A message with its header, and the memory there is when it is handled. -/
structure Request where
  hdr : RnmBaseMsg
  heap : Heap
  msg : OtaMsg

def World.handled (w : World) : Except Fault (Dev × Option OtaReply) → World
  | .error _ => { w with halted := true }
  | .ok r => { w with dev := r.1 }

def step (w : World) (request : Request) : Option World :=
  if w.halted then none
  else some (w.handled (rnmsHandleOta w.dev request.hdr request.heap request.msg))

/-- The partition lies in the address space, and no offset of a part wraps. -/
def RnmOta.Fits (octx : RnmOta) : Prop :=
  octx.mtdHdl.offset + octx.tgtPartSize + rnmOtaPartSize < 2 ^ 32

/-- The bytes of the target partition that the session has programmed. -/
def RnmOta.programmed (octx : RnmOta) (flash : Flash) : List UInt8 :=
  Nor.read flash.mem octx.mtdHdl.offset octx.offsetWritten

/-- The announced body is in the target partition, and its digest is the header's. -/
structure RnmOta.Verified (octx : RnmOta) (flash : Flash) : Prop where
  announced : 0 < octx.bodyLength
  complete : octx.offsetWritten = octx.bodyLength
  digest : octx.sha256This = octx.sha256That
  stored : octx.Fits → sha256 (octx.programmed flash) = octx.sha256That

/-- The partition table is updated only for a verified image. -/
def CommitsVerified (w : World) (request : Request) (_ : World) : Prop :=
  request.msg = .commit → ∃ octx, w.dev.ota = some octx ∧ octx.Verified w.dev.flash

/-- `COMMIT` arrives in an open session, after the last part. -/
def CommitsComplete (w : World) (request : Request) (_ : World) : Prop :=
  request.msg = .commit →
    ∃ octx, w.dev.ota = some octx ∧ octx.bodyLength ≠ 0 ∧ octx.offsetWritten = octx.bodyLength

/-! ## Sessions -/

/-- The context has hashed what the session programmed. -/
def RnmOta.Hashed (octx : RnmOta) (flash : Flash) : Prop :=
  octx.Fits → Sha256Holds octx.shaCtx (octx.programmed flash)

structure RnmOta.Sound (octx : RnmOta) (flash : Flash) : Prop where
  length_le : octx.bodyLength ≤ octx.tgtPartSize
  written_le : octx.offsetWritten ≤ octx.bodyLength
  hashed : octx.offsetWritten < octx.bodyLength → octx.Hashed flash
  verified : octx.offsetWritten = octx.bodyLength → 0 < octx.bodyLength → octx.Verified flash

def Inv (w : World) : Prop := ∀ octx, w.dev.ota = some octx → octx.Sound w.dev.flash

theorem sound_newSession (handle : BflbMtdHandle) (ptEntry : PtTableEntryConfig)
    (writeBuf : List UInt8) (flash : Flash) : (newSession handle ptEntry writeBuf).Sound flash := by
  constructor
  · exact Nat.zero_le _
  · exact Nat.le_refl _
  · intro hlt
    exact absurd hlt (Nat.lt_irrefl 0)
  · intro _ hpos
    exact absurd hpos (Nat.lt_irrefl 0)

/-! ## One part -/

theorem programPart_changedWithin (flash : Flash) (part : Part) (buf : List UInt8) :
    flash.ChangedWithin (programPart flash part buf).1
      (add32 part.octx.mtdHdl.offset part.octx.offsetWritten)
      (add32 part.octx.mtdHdl.offset part.octx.offsetWritten + part.size) := by
  apply bflbFlashWrite_changedWithin flash (Nat.le_refl _)
  have hlen : (slice buf part.pos part.size).length ≤ part.size := by
    unfold slice
    exact List.length_take_le _ _
  omega

/-- The part is read back behind what was programmed before. -/
theorem programmed_programPart (fits : part.octx.Fits)
    (hle : part.octx.offsetWritten + part.size ≤ part.octx.tgtPartSize) :
    (programPart flash part buf).2.programmed (programPart flash part buf).1 =
      part.octx.programmed flash ++
        bflbMtdRead (programPart flash part buf).1 part.octx.mtdHdl part.octx.offsetWritten
          part.size := by
  have hchanged := programPart_changedWithin flash part buf
  unfold RnmOta.Fits at fits
  have haddr : add32 part.octx.mtdHdl.offset part.octx.offsetWritten =
      part.octx.mtdHdl.offset + part.octx.offsetWritten := add32_eq (by omega)
  have hwritten : add32 part.octx.offsetWritten part.size =
      part.octx.offsetWritten + part.size := add32_eq (by omega)
  rw [haddr] at hchanged
  have hbefore : Nor.read (programPart flash part buf).1.mem part.octx.mtdHdl.offset
      part.octx.offsetWritten =
        Nor.read flash.mem part.octx.mtdHdl.offset part.octx.offsetWritten :=
    hchanged.read_eq (.inr (Nat.le_refl _))
  calc Nor.read (programPart flash part buf).1.mem part.octx.mtdHdl.offset
        (add32 part.octx.offsetWritten part.size)
      = Nor.read (programPart flash part buf).1.mem part.octx.mtdHdl.offset
          (part.octx.offsetWritten + part.size) := by rw [hwritten]
    _ = _ ++ _ := Nor.read_add _ _ _ _
    _ = _ := by
      rw [hbefore]
      unfold RnmOta.programmed bflbMtdRead bflbFlashRead
      rw [haddr]

theorem hashed_programPart (h : part.octx.Hashed flash) (hsize : part.size < 2 ^ 32)
    (hle : part.octx.Fits → part.octx.offsetWritten + part.size ≤ part.octx.tgtPartSize) :
    (programPart flash part buf).2.Hashed (programPart flash part buf).1 := by
  intro fits
  have hfits : part.octx.Fits := fits
  have hread : (bflbMtdRead (programPart flash part buf).1 part.octx.mtdHdl
      part.octx.offsetWritten part.size).length = part.size := by
    simp [bflbMtdRead, bflbFlashRead]
  rw [programmed_programPart hfits (hle hfits)]
  exact (h hfits).update _ (hread.trans_lt hsize)

/-- A header restarts the hash, any other part goes on with the session. -/
theorem takePart_cases (h : takePart octx buf offset size = .ok part) :
    (offset = 0 ∧ part.size = 512 ∧ 0 < part.octx.bodyLength ∧
      part.octx.bodyLength ≤ part.octx.tgtPartSize ∧
      part.octx.shaCtx = utilsSha256Starts utilsSha256Init ∧
      part.octx.mtdHdl = octx.mtdHdl ∧ part.octx.tgtPartSize = octx.tgtPartSize ∧
      part.octx.offsetWritten = octx.offsetWritten) ∨
    (offset ≠ 0 ∧ part.size = size ∧ part.octx = octx) := by
  unfold takePart at h
  split at h
  case isTrue hzero =>
    split at h
    · cases h
    · split at h
      · cases h
      case isFalse hlen =>
        cases h
        simp only [not_not] at hlen
        exact .inl ⟨hzero, rfl, hlen.1, hlen.2, rfl, rfl, rfl, rfl⟩
  case isFalse hoffset =>
    cases h
    exact .inr ⟨hoffset, rfl, rfl⟩

/-- What `handle_program_part` does to the device. -/
theorem handleProgramPart_cases (h : handleProgramPart dev cmd offset data = .ok r) :
    r.1.ota = none ∨ ∃ octx part buf, dev.ota = some octx ∧
      ((offset = 0 ∧ octx.offsetWritten = 0) ∨ offset = add32 octx.offsetWritten otaHeaderSize) ∧
      data.length ≤ rnmOtaPartSize ∧ takePart octx buf offset data.length = .ok part ∧
      add32 part.size part.octx.offsetWritten ≤ part.octx.bodyLength ∧
      r.1.flash = (programPart dev.flash part buf).1 ∧
      ((add32 part.size part.octx.offsetWritten ≠ part.octx.bodyLength ∧
          r.1.ota = some (programPart dev.flash part buf).2) ∨
        (add32 part.size part.octx.offsetWritten = part.octx.bodyLength ∧
          utilsSha256Finish (programPart dev.flash part buf).2.shaCtx = part.octx.sha256That ∧
          r.1.ota = some { (programPart dev.flash part buf).2 with
            shaCtx := sha256Finished (programPart dev.flash part buf).2.shaCtx
            sha256This := utilsSha256Finish (programPart dev.flash part buf).2.shaCtx })) := by
  unfold handleProgramPart at h
  split at h
  · cases h
  case h_2 octx hota =>
    split at h
    · cases h
      exact .inl rfl
    case isFalse hoffset =>
      split at h
      · cases h
        exact .inl rfl
      case isFalse hdata =>
        simp only [not_not] at hoffset hdata
        simp only [] at h
        split at h
        · cases h
          exact .inl rfl
        case h_2 part hpart =>
          split at h
          · cases h
            exact .inl rfl
          case isFalse hbody =>
            simp only [not_not] at hbody
            split at h
            · cases h
              exact .inl rfl
            · split at h
              case isTrue hlast =>
                split at h
                · cases h
                  exact .inl rfl
                case isFalse hdigest =>
                  cases h
                  simp only [ne_eq, not_not] at hdigest
                  exact .inr ⟨octx, part, _, hota, hoffset, hdata, hpart, hbody, rfl,
                    .inr ⟨hlast, hdigest, rfl⟩⟩
              case isFalse hmore =>
                cases h
                exact .inr ⟨octx, part, _, hota, hoffset, hdata, hpart, hbody, rfl,
                  .inl ⟨hmore, rfl⟩⟩

theorem map_ok {α β : Type} {f : α → β} {x : Except Fault α} {b : β} (h : x.map f = .ok b) :
    ∃ a, x = .ok a ∧ b = f a := by
  cases x with
  | error fault => cases h
  | ok a =>
    cases h
    exact ⟨a, rfl, rfl⟩

/-! ## One message -/

theorem hashed_takePart (h : octx.Sound flash) (hle : part.octx.offsetWritten < part.octx.bodyLength)
    (hoffset : (offset = 0 ∧ octx.offsetWritten = 0) ∨
      offset = add32 octx.offsetWritten otaHeaderSize)
    (hpart : takePart octx buf offset size = .ok part) : part.octx.Hashed flash := by
  rcases takePart_cases hpart with ⟨hzero, -, -, -, hctx, hhdl, htgt, hwritten⟩ | ⟨-, -, hsame⟩
  · intro fits
    have hstart : octx.offsetWritten = 0 := by
      rcases hoffset with ⟨-, hstart⟩ | hnext
      · exact hstart
      · -- the offset would have to wrap
        have hlength := h.length_le
        have hwritten_le := h.written_le
        unfold RnmOta.Fits at fits
        unfold otaHeaderSize at hnext
        unfold rnmOtaPartSize at fits
        rw [add32_eq (by omega)] at hnext
        omega
    have hnil : part.octx.programmed flash = [] := by
      unfold RnmOta.programmed
      rw [hwritten, hstart]
      exact List.length_eq_zero_iff.mp (Nor.length_read _ _ _)
    rw [hctx, hnil]
    exact sha256Holds_starts
  · rw [hsame] at hle ⊢
    exact h.hashed hle

theorem part_bounds (h : octx.Sound flash) (hdata : size ≤ rnmOtaPartSize)
    (hpart : takePart octx buf offset size = .ok part) :
    part.size ≤ rnmOtaPartSize ∧ part.octx.bodyLength ≤ part.octx.tgtPartSize ∧
      part.octx.offsetWritten = octx.offsetWritten ∧ part.octx.tgtPartSize = octx.tgtPartSize ∧
      part.octx.mtdHdl = octx.mtdHdl := by
  rcases takePart_cases hpart with ⟨-, hsize, -, hle, -, hhdl, htgt, hwritten⟩ | ⟨-, hsize, hsame⟩
  · refine ⟨?_, hle, hwritten, htgt, hhdl⟩
    rw [hsize]
    decide
  · rw [hsame, hsize]
    exact ⟨hdata, h.length_le, rfl, rfl, rfl⟩

/-- Without a wrap the part ends where the check says. -/
theorem part_end (h : octx.Sound flash) (hdata : size ≤ rnmOtaPartSize)
    (hpart : takePart octx buf offset size = .ok part) (fits : part.octx.Fits) :
    add32 part.size part.octx.offsetWritten = part.octx.offsetWritten + part.size ∧
      add32 part.octx.offsetWritten part.size = part.octx.offsetWritten + part.size := by
  obtain ⟨hsize, -, hwritten, htgt, -⟩ := part_bounds h hdata hpart
  have hlength := h.length_le
  have hwritten_le := h.written_le
  unfold RnmOta.Fits at fits
  have hsmall : part.octx.offsetWritten + part.size < 2 ^ 32 := by omega
  rw [add32_eq hsmall, add32_eq (by omega)]
  exact ⟨Nat.add_comm _ _, rfl⟩

theorem hashed_part (h : octx.Sound flash) (hdata : size ≤ rnmOtaPartSize)
    (hoffset : (offset = 0 ∧ octx.offsetWritten = 0) ∨
      offset = add32 octx.offsetWritten otaHeaderSize)
    (hpart : takePart octx buf offset size = .ok part)
    (hbody : add32 part.size part.octx.offsetWritten ≤ part.octx.bodyLength)
    (hlt : part.octx.offsetWritten < part.octx.bodyLength) :
    (programPart flash part buf).2.Hashed (programPart flash part buf).1 := by
  obtain ⟨hsize, hle, -, -, -⟩ := part_bounds h hdata hpart
  have hsmall : part.size < 2 ^ 32 := by
    unfold rnmOtaPartSize at hsize
    omega
  apply hashed_programPart (hashed_takePart h hlt hoffset hpart) hsmall
  intro fits
  have hend := (part_end h hdata hpart fits).1
  omega

theorem sound_more (h : octx.Sound flash) (hdata : size ≤ rnmOtaPartSize)
    (hoffset : (offset = 0 ∧ octx.offsetWritten = 0) ∨
      offset = add32 octx.offsetWritten otaHeaderSize)
    (hpart : takePart octx buf offset size = .ok part)
    (hbody : add32 part.size part.octx.offsetWritten ≤ part.octx.bodyLength)
    (hmore : add32 part.size part.octx.offsetWritten ≠ part.octx.bodyLength) :
    (programPart flash part buf).2.Sound (programPart flash part buf).1 := by
  have hwritten : (programPart flash part buf).2.offsetWritten =
      add32 part.size part.octx.offsetWritten := add32_comm _ _
  constructor
  · exact (part_bounds h hdata hpart).2.1
  · rw [hwritten]
    exact hbody
  · intro _ fits
    have hend := (part_end h hdata hpart fits).1
    have hlt : part.octx.offsetWritten < part.octx.bodyLength := by omega
    exact hashed_part h hdata hoffset hpart hbody hlt fits
  · intro heq
    rw [hwritten] at heq
    exact absurd heq hmore

/-- A session that is complete takes parts of no bytes only. -/
theorem stored_last (h : octx.Sound flash) (hdata : size ≤ rnmOtaPartSize)
    (hoffset : (offset = 0 ∧ octx.offsetWritten = 0) ∨
      offset = add32 octx.offsetWritten otaHeaderSize)
    (hpart : takePart octx buf offset size = .ok part)
    (hlast : add32 part.size part.octx.offsetWritten = part.octx.bodyLength)
    (hdigest : utilsSha256Finish (programPart flash part buf).2.shaCtx = part.octx.sha256That)
    (hpos : 0 < part.octx.bodyLength) (fits : part.octx.Fits) :
    sha256 ((programPart flash part buf).2.programmed (programPart flash part buf).1) =
      part.octx.sha256That := by
  obtain ⟨hend, hend'⟩ := part_end h hdata hpart fits
  obtain ⟨-, hle, -, -, -⟩ := part_bounds h hdata hpart
  by_cases hlt : part.octx.offsetWritten < part.octx.bodyLength
  · have hhashed : Sha256Holds (programPart flash part buf).2.shaCtx
        ((programPart flash part buf).2.programmed (programPart flash part buf).1) :=
      hashed_part h hdata hoffset hpart (Nat.le_of_eq hlast) hlt fits
    rw [← hdigest]
    refine (hhashed.finish ?_).symm
    have hlen : ((programPart flash part buf).2.programmed (programPart flash part buf).1).length =
        add32 part.octx.offsetWritten part.size := Nor.length_read _ _ _
    unfold RnmOta.Fits at fits
    omega
  · have hzero : part.size = 0 := by omega
    have hsame : part.octx = octx := by
      rcases takePart_cases hpart with ⟨-, hsize, -⟩ | ⟨-, -, hsame⟩
      · omega
      · exact hsame
    have hread : bflbMtdRead (programPart flash part buf).1 part.octx.mtdHdl
        part.octx.offsetWritten part.size = [] := by
      rw [hzero]
      exact List.length_eq_zero_iff.mp (Nor.length_read _ _ _)
    rw [programmed_programPart fits (by omega), hread, List.append_nil]
    rw [hsame] at hlt hend hlast hpos fits ⊢
    exact (h.verified (by omega) hpos).stored fits

theorem sound_last (h : octx.Sound flash) (hdata : size ≤ rnmOtaPartSize)
    (hoffset : (offset = 0 ∧ octx.offsetWritten = 0) ∨
      offset = add32 octx.offsetWritten otaHeaderSize)
    (hpart : takePart octx buf offset size = .ok part)
    (hlast : add32 part.size part.octx.offsetWritten = part.octx.bodyLength)
    (hdigest : utilsSha256Finish (programPart flash part buf).2.shaCtx = part.octx.sha256That)
    (ctx : Sha256Context) :
    { (programPart flash part buf).2 with
      shaCtx := ctx
      sha256This := utilsSha256Finish (programPart flash part buf).2.shaCtx : RnmOta }.Sound
      (programPart flash part buf).1 := by
  have hwritten : (programPart flash part buf).2.offsetWritten = part.octx.bodyLength :=
    (add32_comm _ _).trans hlast
  constructor
  · exact (part_bounds h hdata hpart).2.1
  · exact Nat.le_of_eq hwritten
  · intro hlt
    exact absurd hlt (Nat.not_lt_of_le (Nat.le_of_eq hwritten.symm))
  · intro _ hpos
    exact ⟨hpos, hwritten, hdigest, stored_last h hdata hoffset hpart hlast hdigest hpos⟩

theorem handleProgramPart_sound (h : ∀ octx, dev.ota = some octx → octx.Sound dev.flash)
    (hhandle : handleProgramPart dev cmd offset data = .ok r) :
    ∀ octx, r.1.ota = some octx → octx.Sound r.1.flash := by
  intro octx' hsome
  rcases handleProgramPart_cases hhandle with hfreed | ⟨octx, part, buf, hota, hoffset, hdata,
    hpart, hbody, hflash, ⟨hmore, hkept⟩ | ⟨hlast, hdigest, hkept⟩⟩
  · rw [hfreed] at hsome
    cases hsome
  · rw [hkept] at hsome
    cases hsome
    rw [hflash]
    exact sound_more (h octx hota) hdata hoffset hpart hbody hmore
  · rw [hkept] at hsome
    cases hsome
    rw [hflash]
    exact sound_last (h octx hota) hdata hoffset hpart hlast hdigest _

/-- `START` opens an empty session or none, `ABORT` and `COMMIT` leave none. -/
theorem handleStart_cases {heap : Heap} (h : handleStart dev cmd heap = .ok r) :
    r.1.ota = none ∨ ∃ handle ptEntry writeBuf,
      r.1.ota = some (newSession handle ptEntry writeBuf) := by
  unfold handleStart at h
  split at h
  · cases h
    exact .inl rfl
  · split at h
    · cases h
      exact .inl rfl
    · split at h
      · cases h
      · cases h
        exact .inl rfl
      · split at h
        · cases h
          exact .inl rfl
        · cases h
          exact .inr ⟨_, _, _, rfl⟩

theorem handleAbort_ota (h : handleAbort dev cmd = .ok r) : r.1.ota = none := by
  unfold handleAbort at h
  split at h
  · cases h
  · cases h
    rfl

theorem handleCommit_ota (h : handleCommit dev cmd = .ok r) : r.1.ota = none := by
  unfold handleCommit at h
  split at h
  · cases h
  · cases h
    rfl

theorem rnmsHandleOta_sound {heap : Heap} {msg : OtaMsg} {r : Dev × Option OtaReply}
    (h : ∀ octx, dev.ota = some octx → octx.Sound dev.flash)
    (hhandle : rnmsHandleOta dev cmd heap msg = .ok r) :
    ∀ octx, r.1.ota = some octx → octx.Sound r.1.flash := by
  cases msg with
  | start =>
    obtain ⟨r', hstart, rfl⟩ := map_ok hhandle
    intro octx hsome
    rcases handleStart_cases hstart with hnone | ⟨handle, ptEntry, writeBuf, hnew⟩
    · cases hnone.symm.trans hsome
    · cases hnew.symm.trans hsome
      exact sound_newSession handle ptEntry writeBuf _
  | abort =>
    obtain ⟨r', habort, rfl⟩ := map_ok hhandle
    intro octx hsome
    cases (handleAbort_ota habort).symm.trans hsome
  | programPart offset data =>
    obtain ⟨r', hpart, rfl⟩ := map_ok hhandle
    exact handleProgramPart_sound h hpart
  | commit =>
    obtain ⟨r', hcommit, rfl⟩ := map_ok hhandle
    intro octx hsome
    cases (handleCommit_ota hcommit).symm.trans hsome
  | unknown =>
    cases hhandle
    exact h

/-! ## Runs -/

variable {w t : World} {request : Request}

theorem Inv.step (h : Inv w) (hstep : step w request = some t) : Inv t := by
  unfold Ota.step at hstep
  split at hstep
  · cases hstep
  · cases hstep
    unfold World.handled
    split
    · exact h
    case h_2 r hhandle =>
      exact rnmsHandleOta_sound h hhandle

theorem commitsVerified_iff (h : Inv w) :
    CommitsVerified w request t ↔ CommitsComplete w request t := by
  constructor
  · intro hgood hcommit
    obtain ⟨octx, hota, hverified⟩ := hgood hcommit
    exact ⟨octx, hota, Nat.pos_iff_ne_zero.mp hverified.announced, hverified.complete⟩
  · intro hsafe hcommit
    obtain ⟨octx, hota, hne, hcomplete⟩ := hsafe hcommit
    exact ⟨octx, hota, (h octx hota).verified hcomplete (Nat.pos_iff_ne_zero.mpr hne)⟩

/-- From any boot on, the partition table is updated for verified images only
exactly when every `COMMIT` waits for the last part. -/
theorem commits_verified_iff_complete (flash : Flash) (boot2 : Boot2PartitionTable)
    (lastMsgId : UInt16) (requests : List Request) :
    Along step CommitsVerified (.booted flash boot2 lastMsgId) requests ↔
      Along step CommitsComplete (.booted flash boot2 lastMsgId) requests := by
  apply along_iff_of_invariant
  · intro w request t (hinv : Inv w) _
    exact commitsVerified_iff hinv
  · intro w request t hinv hstep _
    exact hinv.step hstep
  · intro octx hsome
    cases hsome

theorem entriesById_fwBoot2 :
    ptTableGetActiveEntriesById fwBoot2.table boot2PartitionTypeFw = some fwEntry := by
  rw [ptTableGetActiveEntriesById, fwBoot2, entries_fwTable]
  decide

def startRequest : Request where
  hdr := { cmd := 25, flags := 0, status := 0, msgId := 1, sessionId := 0, msgIdReplying := 0 }
  heap := { ctx := true, writeBuf := some [], handle := true }
  msg := .start

theorem step_start : ∃ t, step (.booted fwSys.flash fwBoot2 0) startRequest = some t ∧
    t.halted = false ∧ t.dev.ota = some (newSession (fwParm 0).mtdHandle fwEntry []) := by
  have hopen : bflbMtdOpen fwBoot2 true rnmMtdPartitionNameFwDefault true =
      .opened (fwParm 0).mtdHandle := bflbMtdOpen_fwBoot2
  simp only [step, World.booted, startRequest, rnmsHandleOta, handleStart, otaCtxAlloc, hopen,
    entriesById_fwBoot2, Option.isSome_none, Bool.false_eq_true, if_false, if_true]
  exact ⟨_, rfl, rfl, rfl⟩

/-- `START` and then `COMMIT`: the table is updated although nothing was programmed. -/
theorem start_commit_not_verified :
    ¬ Along step CommitsVerified (.booted fwSys.flash fwBoot2 0)
      [startRequest, { startRequest with msg := .commit }] := by
  obtain ⟨t, hstart, hrunning, hota⟩ := step_start
  intro h
  have hcommit := (h t hstart).2
  have hstep : ∃ u, step t { startRequest with msg := .commit } = some u := by
    unfold step
    rw [hrunning]
    exact ⟨_, rfl⟩
  obtain ⟨u, hu⟩ := hstep
  obtain ⟨octx, hsome, hverified⟩ := (hcommit u hu).1 rfl
  cases hota.symm.trans hsome
  exact absurd hverified.announced (Nat.lt_irrefl 0)

end BouffaloSdk.HostRouter.Ota
