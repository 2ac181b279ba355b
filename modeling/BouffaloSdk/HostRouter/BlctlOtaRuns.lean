import BouffaloSdk.HostRouter.BlctlOta
import BouffaloSdk.HostRouter.RnmOtaRuns

/-!
# Host and device agree on an update

Which images the host gets through. The host cuts header and body into parts of
1024 bytes, the device takes 512 bytes of body out of the first part whatever
its length, so an update needs a body of at least 512 bytes.
-/

namespace BouffaloSdk.HostRouter.Ota
open Kit Kit.Word BouffaloSdk.Partition Mtd BouffaloSdk.Ota

/-- The bank that is programmed, and its size. -/
def bank (e : PtTableEntryConfig) : Nat := e.startAddress (lnot e.activeIndex)
def room (e : PtTableEntryConfig) : Nat := e.maxLen (lnot e.activeIndex)

/-- A file of a header and the body that it announces. -/
structure Image (header body : List UInt8) : Prop where
  header_length : header.length = otaHeaderSize
  known : (strstr (slice header 16 4) typeXz || strstr (slice header 16 4) typeRaw) = true
  announced : ofLE (slice header 20 4) = body.length
  digest : slice header 64 32 = sha256 body
  nonempty : 0 < body.length

/-- An idle device that was booted from its table, with memory for a session,
working flash, and an inactive bank behind the tables and inside the address space. -/
structure Healthy (dev : Dev) (heap : Heap) (e : PtTableEntryConfig) : Prop where
  idle : dev.ota = none
  boot : bflbBoot2Init dev.flash = some dev.boot2PartitionTable
  faults : dev.flash.faults = []
  age : ∀ table, activeTable dev.flash.mem = some table → table.age ≠ 2 ^ 32 - 1
  byName : ptTableGetActiveEntriesByName dev.boot2PartitionTable.table
    rnmMtdPartitionNameFwDefault = some e
  byId : ptTableGetActiveEntriesById dev.boot2PartitionTable.table boot2PartitionTypeFw = some e
  memory : heap.ctx = true ∧ heap.handle = true
  writeBuf : ∃ buf, heap.writeBuf = some buf ∧ buf.length = rnmOtaPartSize
  behind : 0x10000 ≤ bank e
  fits : bank e + room e + rnmOtaPartSize < 2 ^ 32

/-- The update that the host reports as done. -/
structure Updated (e : PtTableEntryConfig) (body : List UInt8) (result : Link × Int) : Prop where
  success : result.2 = 0
  accepted : ∀ offset data reply, (OtaMsg.programPart offset data, reply) ∈ result.1.log →
    programmedAck reply.status = true
  stored : Nor.read result.1.dev.flash.mem (bank e) body.length = body
  committed : ∃ e', flashFwEntry result.1.dev.flash.mem = some e' ∧ e'.len = body.length

variable {e : PtTableEntryConfig} {header body buf data : List UInt8} {flash : Flash}
  {octx : RnmOta} {part : Part} {w offset : Nat} {mem : Nor.Mem} {dev : Dev} {cmd : RnmBaseMsg}
  {boot2 : Boot2PartitionTable}

/-! ## What is programmed -/

/-- The first `w` bytes of the body are in the bank and the rest of it is
erased; the tables are as in `mem`. -/
structure Programmed (e : PtTableEntryConfig) (mem : Nor.Mem) (body : List UInt8) (flash : Flash)
    (octx : RnmOta) (w : Nat) : Prop where
  faults : flash.faults = []
  kept : ∀ a < 0x10000, flash.mem a = mem a
  offset_eq : octx.mtdHdl.offset = bank e
  tgt_eq : octx.tgtPartSize = room e
  ptEntry_eq : octx.ptEntry = e
  buf_length : octx.writeBuf.length = rnmOtaPartSize
  written : octx.offsetWritten = w
  stored : Nor.read flash.mem (bank e) w = body.take w
  erased : Nor.read flash.mem (bank e + w) (room e - w) = List.replicate (room e - w) 0xFF

/-- The session knows the body's length and digest, and has hashed `w` bytes of it. -/
structure Hashing (body : List UInt8) (octx : RnmOta) (w : Nat) : Prop where
  length_eq : octx.bodyLength = body.length
  digest : octx.sha256That = sha256 body
  hashed : w < body.length → Sha256Holds octx.shaCtx (body.take w)

theorem bflbFlashWrite_of_no_faults (hfaults : flash.faults = []) (addr : Nat) :
    bflbFlashWrite flash addr data = (flash.done [.program addr data], 0) := by
  unfold bflbFlashWrite Flash.perform
  rw [hfaults]

/-- Programming the erased rest of the bank. -/
theorem read_programmed (flash : Flash) (addr : Nat) {k : Nat} (hle : data.length ≤ k)
    (herased : Nor.read flash.mem addr k = List.replicate k 0xFF) :
    Nor.read (flash.done [.program addr data]).mem addr data.length = data ∧
      Nor.read (flash.done [.program addr data]).mem (addr + data.length) (k - data.length) =
        List.replicate (k - data.length) 0xFF := by
  have hall : Nor.read (flash.done [.program addr data]).mem addr k =
      data ++ List.replicate (k - data.length) 0xFF := Nor.read_program hle herased
  have hsplit : k = data.length + (k - data.length) := by omega
  rw [hsplit, Nor.read_add, Nat.add_sub_cancel_left] at hall
  exact List.append_inj hall (Nor.length_read _ _ _)

theorem take_add_slice (body : List UInt8) (w n : Nat) :
    body.take (w + n) = body.take w ++ slice body w n := by
  unfold slice
  rw [List.take_add]

/-- One part of the body goes to the bank and comes back from it. -/
theorem Programmed.programPart (h : Programmed e mem body flash part.octx w)
    (hchunk : slice buf part.pos part.size = slice body w part.size)
    (hbuf : buf.length = rnmOtaPartSize) (hpos : part.pos + part.size ≤ rnmOtaPartSize)
    (hend : w + part.size ≤ body.length) (hroom : body.length ≤ room e)
    (behind : 0x10000 ≤ bank e) (fits : bank e + room e + rnmOtaPartSize < 2 ^ 32) :
    Programmed e mem body (programPart flash part buf).1 (programPart flash part buf).2
        (w + part.size) ∧
      (programPart flash part buf).2.shaCtx =
        utilsSha256Update part.octx.shaCtx (slice body w part.size) := by
  have hsize : (slice buf part.pos part.size).length = part.size :=
    length_slice (by rw [hbuf]; exact hpos)
  have haddr : add32 part.octx.mtdHdl.offset part.octx.offsetWritten = bank e + w := by
    rw [h.offset_eq, h.written]
    exact add32_eq (by omega)
  have hnext : add32 part.octx.offsetWritten part.size = w + part.size := by
    rw [h.written]
    exact add32_eq (by omega)
  have hflash : (Ota.programPart flash part buf).1 =
      flash.done [.program (bank e + w) (slice buf part.pos part.size)] := by
    unfold Ota.programPart bflbMtdWrite
    simp only [haddr, Bool.false_eq_true, if_false]
    rw [bflbFlashWrite_of_no_faults h.faults]
  have hsmall : (slice buf part.pos part.size).length ≤ room e - w := by omega
  obtain ⟨hback, hrest⟩ := read_programmed flash (bank e + w) hsmall h.erased
  rw [hsize, ← hflash] at hback hrest
  have hread : bflbMtdRead (Ota.programPart flash part buf).1 part.octx.mtdHdl
      part.octx.offsetWritten part.size = slice body w part.size := by
    unfold bflbMtdRead bflbFlashRead
    rw [haddr, hback, hchunk]
  have hchanged := programPart_changedWithin flash part buf
  rw [haddr] at hchanged
  refine ⟨⟨?_, ?_, h.offset_eq, h.tgt_eq, h.ptEntry_eq, ?_, hnext, ?_, ?_⟩, ?_⟩
  · exact hchanged.faults h.faults
  · intro a hlow
    have hbefore : ¬ (Nor.Step.program (bank e + w) (slice buf part.pos part.size)).Touches a := by
      intro htouch
      have hle := htouch.1
      omega
    rw [← h.kept a hlow, hflash]
    exact Nor.Step.apply_of_not_touches hbefore
  · have hblit : (Ota.programPart flash part buf).2.writeBuf = blit buf part.pos
        (bflbMtdRead (Ota.programPart flash part buf).1 part.octx.mtdHdl part.octx.offsetWritten
          part.size) := rfl
    rw [hblit, hread, ← hchunk, length_blit (by omega), hbuf]
  · rw [take_add_slice, Nor.read_add, hback, hchunk]
    congr 1
    rw [hchanged.read_eq (.inr (Nat.le_refl _)), h.stored]
  · rw [← Nat.add_assoc, Nat.sub_add_eq]
    exact hrest
  · have hsha : (Ota.programPart flash part buf).2.shaCtx = utilsSha256Update part.octx.shaCtx
        (bflbMtdRead (Ota.programPart flash part buf).1 part.octx.mtdHdl part.octx.offsetWritten
          part.size) := rfl
    rw [hsha, hread]

theorem programPart_bodyLength (flash : Flash) (part : Part) (buf : List UInt8) :
    (programPart flash part buf).2.bodyLength = part.octx.bodyLength := rfl

theorem programPart_sha256That (flash : Flash) (part : Part) (buf : List UInt8) :
    (programPart flash part buf).2.sha256That = part.octx.sha256That := rfl

/-- A part that passes the checks, and the answer to it. -/
theorem handleProgramPart_accepted (cmd : RnmBaseMsg) (hota : dev.ota = some octx)
    (hoffset : (offset = 0 ∧ octx.offsetWritten = 0) ∨
      offset = add32 octx.offsetWritten otaHeaderSize)
    (hdata : data.length ≤ rnmOtaPartSize)
    (hpart : takePart octx (blit octx.writeBuf 0 data) offset data.length = .ok part)
    (hbody : add32 part.size part.octx.offsetWritten ≤ part.octx.bodyLength)
    (hshort : offset = 0 ∨ add32 part.size part.octx.offsetWritten = part.octx.bodyLength ∨
      part.size = rnmOtaPartSize) :
    (add32 part.size part.octx.offsetWritten ≠ part.octx.bodyLength ∧
      handleProgramPart dev cmd offset data =
        .ok ({ dev with
          flash := (programPart dev.flash part (blit octx.writeBuf 0 data)).1
          ota := some (programPart dev.flash part (blit octx.writeBuf 0 data)).2 }.reply cmd
            (.programAck offset))) ∨
    (add32 part.size part.octx.offsetWritten = part.octx.bodyLength ∧
      (utilsSha256Finish (programPart dev.flash part (blit octx.writeBuf 0 data)).2.shaCtx =
        part.octx.sha256That → ∃ ctx this, handleProgramPart dev cmd offset data =
        .ok ({ dev with
          flash := (programPart dev.flash part (blit octx.writeBuf 0 data)).1
          ota := some { (programPart dev.flash part (blit octx.writeBuf 0 data)).2 with
            shaCtx := ctx
            sha256This := this } }.reply cmd .finAck))) := by
  have hpasses : ¬ (offset ≠ 0 ∧ add32 part.size part.octx.offsetWritten ≠ part.octx.bodyLength ∧
      part.size ≠ rnmOtaPartSize) := by
    rintro ⟨hne, hmore, hsmall⟩
    rcases hshort with hzero | hlast | hfull
    · exact hne hzero
    · exact hmore hlast
    · exact hsmall hfull
  unfold handleProgramPart
  rw [hota]
  simp only []
  rw [if_neg (not_not.mpr hoffset), if_neg (not_not.mpr hdata), hpart]
  simp only []
  rw [if_neg (not_not.mpr hbody), if_neg hpasses, programPart_bodyLength, programPart_sha256That]
  by_cases hlast : add32 part.size part.octx.offsetWritten = part.octx.bodyLength
  · right
    refine ⟨hlast, fun hdigest => ?_⟩
    rw [if_pos hlast, if_neg (not_not.mpr hdigest)]
    exact ⟨_, _, rfl⟩
  · left
    refine ⟨hlast, ?_⟩
    rw [if_neg hlast]

/-- An open session on the device, with `w` bytes of the body programmed. -/
structure Session (e : PtTableEntryConfig) (mem : Nor.Mem) (boot2 : Boot2PartitionTable)
    (body : List UInt8) (dev : Dev) (w : Nat) : Prop where
  boot2_eq : dev.boot2PartitionTable = boot2
  session : ∃ octx, dev.ota = some octx ∧ Programmed e mem body dev.flash octx w ∧
    Hashing body octx w

/-- A part of the body that the session has hashed up to. -/
theorem handleProgramPart_body (hboot2 : dev.boot2PartitionTable = boot2)
    (hota : dev.ota = some octx)
    (hoffset : (offset = 0 ∧ octx.offsetWritten = 0) ∨
      offset = add32 octx.offsetWritten otaHeaderSize)
    (hdata : data.length ≤ rnmOtaPartSize)
    (hpart : takePart octx (blit octx.writeBuf 0 data) offset data.length = .ok part)
    (hprogrammed : Programmed e mem body dev.flash part.octx w) (hhashing : Hashing body part.octx w)
    (hchunk : slice (blit octx.writeBuf 0 data) part.pos part.size = slice body w part.size)
    (hbuf : (blit octx.writeBuf 0 data).length = rnmOtaPartSize)
    (hpos : part.pos + part.size ≤ rnmOtaPartSize) (hsize : 0 < part.size)
    (hend : w + part.size ≤ body.length) (hroom : body.length ≤ room e)
    (behind : 0x10000 ≤ bank e) (fits : bank e + room e + rnmOtaPartSize < 2 ^ 32)
    (hshort : offset = 0 ∨ w + part.size = body.length ∨ part.size = rnmOtaPartSize) :
    ∃ dev' status, handleProgramPart dev cmd offset data = .ok (dev'.reply cmd status) ∧
      programmedAck status = true ∧ Session e mem boot2 body dev' (w + part.size) := by
  have hlength := hhashing.length_eq
  have hwritten : add32 part.size part.octx.offsetWritten = w + part.size := by
    rw [hprogrammed.written, add32_comm]
    exact add32_eq (by omega)
  obtain ⟨hstored, hsha⟩ := hprogrammed.programPart hchunk hbuf hpos hend hroom behind fits
  have hholds : Sha256Holds (programPart dev.flash part (blit octx.writeBuf 0 data)).2.shaCtx
      (body.take (w + part.size)) := by
    rw [hsha, take_add_slice]
    apply (hhashing.hashed (by omega)).update
    have hle : (slice body w part.size).length ≤ part.size := List.length_take_le _ _
    omega
  rcases handleProgramPart_accepted cmd hota hoffset hdata hpart (by omega)
    (by rw [hwritten, hlength]; exact hshort) with ⟨hmore, hreply⟩ | ⟨hlast, hreply⟩
  · refine ⟨_, _, hreply, rfl, hboot2, _, rfl, hstored, hlength, hhashing.digest, fun _ => hholds⟩
  · have hall : body.take (w + part.size) = body := List.take_of_length_le (by omega)
    rw [hall] at hholds
    have hdigest : utilsSha256Finish
        (programPart dev.flash part (blit octx.writeBuf 0 data)).2.shaCtx =
          part.octx.sha256That := by
      rw [hhashing.digest]
      exact hholds.finish (by omega)
    obtain ⟨ctx, this, hdone⟩ := hreply hdigest
    refine ⟨_, _, hdone, rfl, hboot2, _, rfl, ?_, hlength, hhashing.digest, fun hlt => ?_⟩
    · exact ⟨hstored.faults, hstored.kept, hstored.offset_eq, hstored.tgt_eq, hstored.ptEntry_eq,
        hstored.buf_length, hstored.written, hstored.stored, hstored.erased⟩
    · omega

/-! ## Messages to the device -/

/-- What the device makes of the start of an image. -/
def announced (octx : RnmOta) (body : List UInt8) : RnmOta :=
  { octx with
    shaCtx := utilsSha256Starts utilsSha256Init
    sha256This := List.replicate 32 0
    bodyLength := body.length
    sha256That := sha256 body }

/-- The part that starts an image counts as 512 bytes of body, however short it is. -/
theorem takePart_image (image : Image header body) {tail : List UInt8} (size : Nat)
    (hdata : data = header ++ tail) (hlength : data.length ≤ octx.writeBuf.length)
    (hroom : body.length ≤ octx.tgtPartSize) :
    takePart octx (blit octx.writeBuf 0 data) 0 size = .ok
      { octx := announced octx body
        pos := otaHeaderSize
        size := rnmOtaPartSize - otaHeaderSize } := by
  have hheader : header.length = 512 := image.header_length
  have hinside : ∀ i n, i + n ≤ 512 →
      slice (blit octx.writeBuf 0 data) i n = slice header i n := by
    intro i n hle
    have hcopied : slice (blit octx.writeBuf 0 data) (0 + i) n = slice data i n := by
      apply slice_blit_inside (by omega)
      rw [hdata, List.length_append]
      omega
    rw [Nat.zero_add] at hcopied
    rw [hcopied, hdata]
    unfold slice
    rw [List.drop_append_of_le_length (by omega), List.take_append_of_le_length]
    rw [List.length_drop]
    omega
  have hcheck : checkOtaHeader (blit octx.writeBuf 0 data) = some body.length := by
    unfold checkOtaHeader
    simp only []
    rw [hinside 16 4 (by omega), if_pos image.known, hinside 20 4 (by omega), image.announced]
  unfold takePart
  rw [if_pos rfl, hcheck]
  simp only []
  rw [if_neg (not_not.mpr ⟨image.nonempty, hroom⟩), hinside 64 32 (by omega), image.digest]
  rfl

/-- The first part: a header, and 512 bytes of the body. -/
theorem handleProgramPart_first (cmd : RnmBaseMsg) (image : Image header body) (hlong : otaHeaderSize ≤ body.length)
    (hboot2 : dev.boot2PartitionTable = boot2) (hota : dev.ota = some octx)
    (hprogrammed : Programmed e mem body dev.flash octx 0) (hroom : body.length ≤ room e)
    (behind : 0x10000 ≤ bank e) (fits : bank e + room e + rnmOtaPartSize < 2 ^ 32) :
    ∃ dev' status, handleProgramPart dev cmd 0 (header ++ body.take otaHeaderSize) =
        .ok (dev'.reply cmd status) ∧
      programmedAck status = true ∧ Session e mem boot2 body dev' otaHeaderSize := by
  have hheader : header.length = 512 := image.header_length
  have hfirst : (body.take otaHeaderSize).length = 512 := List.length_take_of_le hlong
  have hlength : (header ++ body.take otaHeaderSize).length = rnmOtaPartSize := by
    rw [List.length_append, hheader, hfirst]
    rfl
  have hfits : 0 + (header ++ body.take otaHeaderSize).length ≤ octx.writeBuf.length := by
    rw [hlength, hprogrammed.buf_length]
    omega
  have hle : (header ++ body.take otaHeaderSize).length ≤ octx.writeBuf.length := by omega
  have htake := takePart_image image (header ++ body.take otaHeaderSize).length rfl hle
    (by rw [hprogrammed.tgt_eq]; exact hroom)
  have hbody : slice (blit octx.writeBuf 0 (header ++ body.take otaHeaderSize)) otaHeaderSize
      (rnmOtaPartSize - otaHeaderSize) = slice body 0 (rnmOtaPartSize - otaHeaderSize) := by
    have hcopied := slice_blit_inside (n := rnmOtaPartSize - otaHeaderSize) (j := otaHeaderSize)
      hfits (by rw [hlength]; decide)
    rw [Nat.zero_add] at hcopied
    rw [hcopied]
    unfold slice otaHeaderSize
    rw [← hheader, List.drop_left, List.drop_zero, hheader]
    exact List.take_of_length_le (Nat.le_of_eq hfirst)
  have hpart : Programmed e mem body dev.flash (announced octx body) 0 :=
    ⟨hprogrammed.faults, hprogrammed.kept, hprogrammed.offset_eq, hprogrammed.tgt_eq,
      hprogrammed.ptEntry_eq, hprogrammed.buf_length, hprogrammed.written, hprogrammed.stored,
      hprogrammed.erased⟩
  have hend : 0 + (rnmOtaPartSize - otaHeaderSize) ≤ body.length := by
    unfold rnmOtaPartSize otaHeaderSize at *
    omega
  exact handleProgramPart_body hboot2 hota (.inl ⟨rfl, hprogrammed.written⟩) (Nat.le_of_eq hlength)
    htake hpart ⟨rfl, rfl, fun _ => sha256Holds_starts⟩ hbody
    (by rw [length_blit hfits, hprogrammed.buf_length]) (Nat.le_refl _) (show 0 < 512 by decide)
    hend hroom behind fits (.inl rfl)

/-- A body that is too short for the first part. -/
theorem handleProgramPart_short (cmd : RnmBaseMsg) (image : Image header body) (hshort : body.length < otaHeaderSize)
    (hota : dev.ota = some octx) (hprogrammed : Programmed e mem body dev.flash octx 0)
    (hroom : body.length ≤ room e) :
    handleProgramPart dev cmd 0 (header ++ body) = .ok (dev.fail cmd .sizeNotExpected) := by
  have hlength : (header ++ body).length ≤ rnmOtaPartSize := by
    rw [List.length_append, image.header_length]
    unfold rnmOtaPartSize otaHeaderSize at *
    omega
  have hle : (header ++ body).length ≤ octx.writeBuf.length := by
    rw [hprogrammed.buf_length]
    exact hlength
  have htake := takePart_image image (header ++ body).length rfl hle
    (by rw [hprogrammed.tgt_eq]; exact hroom)
  have hover : ¬ add32 (rnmOtaPartSize - otaHeaderSize) octx.offsetWritten ≤ body.length := by
    rw [hprogrammed.written]
    unfold rnmOtaPartSize otaHeaderSize at *
    rw [add32_eq (by omega)]
    omega
  unfold handleProgramPart
  rw [hota]
  simp only []
  rw [if_neg (not_not.mpr (.inl ⟨trivial, hprogrammed.written⟩)), if_neg (not_not.mpr hlength), htake]
  simp only []
  exact if_pos hover

/-- Any later part. -/
theorem handleProgramPart_next (cmd : RnmBaseMsg) (h : Session e mem boot2 body dev w) {n : Nat}
    (hsize : n = min (body.length - w) rnmOtaPartSize) (hmore : w < body.length)
    (hroom : body.length ≤ room e) (behind : 0x10000 ≤ bank e)
    (fits : bank e + room e + rnmOtaPartSize < 2 ^ 32) :
    ∃ dev' status, handleProgramPart dev cmd (w + otaHeaderSize) (slice body w n) =
        .ok (dev'.reply cmd status) ∧
      programmedAck status = true ∧ Session e mem boot2 body dev' (w + n) := by
  obtain ⟨hboot2, octx, hota, hprogrammed, hhashing⟩ := h
  have hlength : (slice body w n).length = n := length_slice (by omega)
  have hle : n ≤ rnmOtaPartSize := by omega
  have hend : w + n ≤ body.length := by omega
  have hlast : w + n = body.length ∨ n = rnmOtaPartSize := by omega
  have hpos : 0 < n := by
    unfold rnmOtaPartSize at hsize
    omega
  have hoffset : w + otaHeaderSize = add32 octx.offsetWritten otaHeaderSize := by
    unfold otaHeaderSize
    unfold rnmOtaPartSize at fits
    rw [hprogrammed.written]
    exact (add32_eq (by omega)).symm
  have htake : takePart octx (blit octx.writeBuf 0 (slice body w n)) (w + otaHeaderSize)
      (slice body w n).length = .ok { octx := octx, pos := 0, size := n } := by
    unfold takePart otaHeaderSize
    rw [if_neg (by omega), hlength]
  have hfits : 0 + (slice body w n).length ≤ octx.writeBuf.length := by
    rw [hlength, hprogrammed.buf_length]
    omega
  have hchunk : slice (blit octx.writeBuf 0 (slice body w n)) 0 n = slice body w n := by
    have hsame := slice_blit_same hfits
    rwa [hlength] at hsame
  exact handleProgramPart_body hboot2 hota (.inr hoffset) (by rw [hlength]; exact hle) htake
    hprogrammed hhashing hchunk (by rw [length_blit hfits, hprogrammed.buf_length])
    (by rw [Nat.zero_add]; exact hle) hpos hend hroom behind fits (.inr hlast)

/-! ## Start and commit -/

theorem bflbMtdOpen_bank {heap : Heap} (h : Healthy dev heap e) :
    ∃ handle, bflbMtdOpen dev.boot2PartitionTable heap.handle rnmMtdPartitionNameFwDefault true =
        .opened handle ∧ handle.offset = bank e ∧ handle.size = room e := by
  obtain ⟨hactive, hboot2⟩ := bflbBoot2Init_eq h.boot
  have hmagic : dev.boot2PartitionTable.table.magicCode = bflbPtMagicCode := by
    rw [hboot2]
    exact magicCode_of_valid (valid_of_selectMem rfl hactive)
  have haddr : bflbBoot2PartitionAddrInactive dev.boot2PartitionTable
      rnmMtdPartitionNameFwDefault = .ok (bank e, room e) := by
    have hpair : ∀ x0 x1 : Nat, (if e.activeIndex ≠ 0 then x0 else x1) =
        if lnot e.activeIndex = 0 then x0 else x1 := by
      intro x0 x1
      unfold lnot
      by_cases hindex : e.activeIndex = 0
      · simp [hindex]
      · simp [hindex]
    unfold bflbBoot2PartitionAddrInactive bflbBoot2PartitionAddr
    rw [if_neg (not_not.mpr hmagic), h.byName]
    simp only [bind, Except.bind, hpair]
    unfold bank room
    rcases Nat.le_one_iff_eq_zero_or_eq_one.mp (lnot_le e.activeIndex) with hzero | hone
    · simp [hzero]
    · simp [hone]
  have hne : bank e ≠ 0 := by
    have hbehind := h.behind
    omega
  unfold bflbMtdOpen
  rw [if_neg (by rw [h.memory.2]; decide)]
  simp only [if_true, haddr, if_neg hne]
  exact ⟨_, rfl, rfl, rfl⟩

/-- `START` erases the bank and opens a session. -/
theorem handleStart_healthy {heap : Heap} (body : List UInt8) (cmd : RnmBaseMsg) (h : Healthy dev heap e) :
    ∃ dev' : Dev, handleStart dev cmd heap = .ok (dev'.reply cmd .startAck) ∧
      dev'.boot2PartitionTable = dev.boot2PartitionTable ∧
      ∃ octx, dev'.ota = some octx ∧ Programmed e dev.flash.mem body dev'.flash octx 0 := by
  obtain ⟨handle, hopen, hoffset, hsize⟩ := bflbMtdOpen_bank h
  obtain ⟨buf, hbuf, hlength⟩ := h.writeBuf
  have hstart : handleStart dev cmd heap = .ok (Dev.reply { dev with
      flash := bflbMtdEraseAll dev.flash handle
      ota := some (newSession handle e buf) } cmd .startAck) := by
    unfold handleStart otaCtxAlloc
    rw [h.idle, h.memory.1, if_pos rfl, hbuf]
    simp only [Option.isSome_none, Bool.false_eq_true, if_false, hopen, h.byId]
  have hflash : bflbMtdEraseAll dev.flash handle =
      dev.flash.done ((sectors (bank e) (room e)).map .erase) := by
    unfold bflbMtdEraseAll bflbFlashErase Flash.perform
    rw [h.faults, hoffset, hsize]
  have hbehind := h.behind
  refine ⟨_, hstart, rfl, _, rfl, ⟨?_, ?_, hoffset, rfl, rfl, hlength, rfl, ?_, ?_⟩⟩
  · rw [hflash]
    exact h.faults
  · intro a hlow
    rw [hflash]
    apply Nor.run_of_not_touches
    intro s hs htouch
    obtain ⟨sector, hsector, rfl⟩ := List.mem_map.mp hs
    obtain ⟨i, -, rfl⟩ := List.mem_map.mp hsector
    simp only [Nor.Step.Touches, Nor.sectorSize] at htouch
    omega
  · rw [List.take_zero]
    exact List.length_eq_zero_iff.mp (Nor.length_read _ _ _)
  · rw [hflash, Nat.add_zero, Nat.sub_zero]
    apply Nor.read_erases
    intro i hi
    apply List.mem_map.mpr
    refine ⟨(bank e + i) / 4096 - bank e / 4096, List.mem_range.mpr ?_, ?_⟩
    · unfold Nor.sectorSize
      omega
    · unfold Nor.sectorSize
      omega

theorem word_toggled (e : PtTableEntryConfig) {n off k : Nat}
    (hoff : off + k ≤ 2 ∨ 3 ≤ off ∧ off + k ≤ 28) :
    (toggled (e.setLen n)).word off k = e.word off k := by
  unfold toggled
  rw [PtTableEntryConfig.setAge, Record.word_putWord_disjoint _ (by omega),
    PtTableEntryConfig.setActiveIndex, Record.word_putWord_disjoint _ (by omega),
    PtTableEntryConfig.setLen, Record.word_putWord_disjoint _ (by omega)]

theorem len_toggled (e : PtTableEntryConfig) {n : Nat} (small : n < 2 ^ 32) :
    (toggled (e.setLen n)).len = n := by
  unfold toggled
  rw [PtTableEntryConfig.len, PtTableEntryConfig.setAge, Record.word_putWord_disjoint _ (by decide),
    PtTableEntryConfig.setActiveIndex, Record.word_putWord_disjoint _ (by decide),
    PtTableEntryConfig.setLen, Record.word_putWord_same _ (by decide) (by omega)]

theorem name_toggled (e : PtTableEntryConfig) (n : Nat) : (toggled (e.setLen n)).name = e.name := by
  unfold toggled PtTableEntryConfig.name
  rw [PtTableEntryConfig.setAge, Record.get_putWord_disjoint _ (by decide),
    PtTableEntryConfig.setActiveIndex, Record.get_putWord_disjoint _ (by decide),
    PtTableEntryConfig.setLen, Record.get_putWord_disjoint _ (by decide)]

theorem readTableMem_kept (hkept : ∀ a < 0x10000, flash.mem a = mem a) (id : PtTableIdType) :
    readTableMem flash.mem id = readTableMem mem id := by
  apply Record.ext
  rw [bytes_readTableMem, bytes_readTableMem]
  apply Nor.read_congr
  intro i hi
  apply hkept
  rcases address_eq id with haddr | haddr
  · omega
  · omega

/-- `COMMIT` of a complete session makes the bank the active one. -/
theorem handleCommit_session (cmd : RnmBaseMsg) {heap : Heap} {dev0 : Dev} (h : Healthy dev0 heap e)
    (hsession : Session e dev0.flash.mem dev0.boot2PartitionTable body dev body.length)
    (hroom : body.length ≤ room e) :
    ∃ dev' : Dev, handleCommit dev cmd = .ok (dev'.reply cmd .commitAck) ∧
      Nor.read dev'.flash.mem (bank e) body.length = body ∧
      ∃ e', flashFwEntry dev'.flash.mem = some e' ∧ e'.len = body.length := by
  obtain ⟨hboot2, octx, hota, hprogrammed, hhashing⟩ := hsession
  obtain ⟨hactive, hboot⟩ := bflbBoot2Init_eq h.boot
  have htables := readTableMem_kept hprogrammed.kept
  have hselect := selectMem_congr htables
  have hfw : flashFwEntry dev.flash.mem = some e := by
    have hname := h.byName
    rw [hboot] at hname
    rw [flashFwEntry_congr htables, flashFwEntry_eq (activeTable_eq rfl hactive)]
    exact hname
  have hage : ∀ table, activeTable dev.flash.mem = some table → table.age ≠ 2 ^ 32 - 1 := by
    rw [activeTable_congr htables]
    exact h.age
  have hfits := h.fits
  have htype : e.type = (toggled (e.setLen body.length)).type := (word_toggled e (by omega)).symm
  obtain ⟨t, hupdate, -, hentry, -⟩ := ptTableUpdateEntry_fwEntry (by rw [hselect]; exact hactive)
    (Flash.ready_of_no_faults hprogrammed.faults 2) hage hfw htype (name_toggled e body.length)
  have hcommit : handleCommit dev cmd = .ok (Dev.reply { dev with
      flash := (dev.flash.skip 2).done (tableSteps (selectMem dev.flash.mem).lnot t)
      ota := none } cmd .commitAck) := by
    unfold handleCommit bflbBoot2UpdatePtable
    rw [hota]
    simp only []
    rw [hboot2, hboot, hprogrammed.ptEntry_eq, hhashing.length_eq, ← hselect, ← htables, hupdate]
  refine ⟨_, hcommit, ?_, _, hentry, len_toggled e (by omega)⟩
  have hstored : Nor.read dev.flash.mem (bank e) body.length = body := by
    rw [hprogrammed.stored, List.take_length]
  have hread : Nor.read (Nor.run dev.flash.mem (tableSteps (selectMem dev.flash.mem).lnot t))
      (bank e) body.length = Nor.read dev.flash.mem (bank e) body.length := by
    apply Nor.read_run_of_not_touches
    intro s hs i _ htouch
    have hsector := tableSteps_touches hs htouch
    have hbehind := h.behind
    rcases address_eq (selectMem dev.flash.mem).lnot with haddr | haddr
    · rw [haddr] at hsector
      omega
    · rw [haddr] at hsector
      omega
  exact hread.trans hstored

/-! ## The host's requests -/

variable {heap : Heap} {link : Link} {ret : Int}

/-- Every part that was answered was accepted. -/
def Accepted (log : List (OtaMsg × OtaReply)) : Prop :=
  ∀ offset data reply, (OtaMsg.programPart offset data, reply) ∈ log →
    programmedAck reply.status = true

theorem Accepted.append {log : List (OtaMsg × OtaReply)} (h : Accepted log) {msg : OtaMsg}
    {reply : OtaReply}
    (hreply : ∀ offset data, msg = .programPart offset data → programmedAck reply.status = true) :
    Accepted (log ++ [(msg, reply)]) := by
  intro offset data reply' hmem
  rcases List.mem_append.mp hmem with hold | hnew
  · exact h offset data reply' hold
  · obtain ⟨hmsg, rfl⟩ := Prod.mk.inj (List.mem_singleton.mp hnew)
    exact hreply offset data hmsg.symm

/-- A request that the device answers. -/
theorem request_reply {msg : OtaMsg} (accept : OtaStatus → Bool) {dev' : Dev} {status : OtaStatus}
    (hreply : rnmsHandleOta link.dev link.hdr heap msg =
      .ok ((dev'.reply link.hdr status).1, some (dev'.reply link.hdr status).2)) :
    ∃ link', request heap link msg accept = (link', if accept status then 0 else -1) ∧
      link'.dev = (dev'.reply link.hdr status).1 ∧
      link'.log = link.log ++ [(msg, (dev'.reply link.hdr status).2)] := by
  refine ⟨{ link with
    txLastSeq := link.hdr.msgId
    dev := (dev'.reply link.hdr status).1
    log := link.log ++ [(msg, (dev'.reply link.hdr status).2)] }, ?_, rfl, rfl⟩
  have hmatch : (dev'.reply link.hdr status).2.hdr.cmd = link.hdr.cmd ∧
      (dev'.reply link.hdr status).2.hdr.msgIdReplying = link.hdr.msgId := ⟨rfl, rfl⟩
  unfold request expect
  simp only [hreply, if_pos hmatch]
  rfl

/-- A part that the device accepts. -/
theorem blctlOtaProgramPart_accepted (heap : Heap)
    (hreply : ∃ dev' status, handleProgramPart link.dev link.hdr offset data =
        .ok (dev'.reply link.hdr status) ∧
      programmedAck status = true ∧ Session e mem boot2 body dev' w) (hlog : Accepted link.log) :
    ∃ link', blctlOtaProgramPart heap link offset data = (link', 0) ∧
      Session e mem boot2 body link'.dev w ∧ Accepted link'.log := by
  obtain ⟨dev', status, hhandle, hack, hsession⟩ := hreply
  have hreply : rnmsHandleOta link.dev link.hdr heap (.programPart offset data) =
      .ok ((dev'.reply link.hdr status).1, some (dev'.reply link.hdr status).2) := by
    simp only [rnmsHandleOta, hhandle]
    rfl
  obtain ⟨link', hrequest, hdev, hlog'⟩ := request_reply programmedAck hreply
  rw [hack, if_pos rfl] at hrequest
  refine ⟨link', hrequest, ?_, ?_⟩
  · rw [hdev]
    exact ⟨hsession.boot2_eq, hsession.session⟩
  · rw [hlog']
    apply hlog.append
    intro _ _ _
    exact hack

/-- The loop, once the first part is through. -/
theorem programParts_session (heap : Heap) (hsession : Session e mem boot2 body link.dev w)
    (hw : w ≤ body.length) (hlog : Accepted link.log) (hroom : body.length ≤ room e)
    (behind : 0x10000 ≤ bank e) (fits : bank e + room e + rnmOtaPartSize < 2 ^ 32) :
    ∃ link', programParts heap (body.length + otaHeaderSize) link 0 (w + otaHeaderSize)
        (body.drop w) = { link := link', ret := 0, finished := true } ∧
      Session e mem boot2 body link'.dev body.length ∧ Accepted link'.log := by
  induction hk : body.length - w using Nat.strong_induction_on generalizing w link with
  | _ k ih =>
    unfold programParts
    by_cases hmore : w < body.length
    · have hlt : w + otaHeaderSize < body.length + otaHeaderSize := by omega
      have hsize : body.length + otaHeaderSize - (w + otaHeaderSize) = body.length - w := by omega
      obtain ⟨link', hsent, hsession', hlog'⟩ := blctlOtaProgramPart_accepted heap
        (handleProgramPart_next link.hdr hsession rfl hmore hroom behind fits) hlog
      have hpos : 0 < rnmOtaPartSize := by decide
      have hnext : add32 (w + otaHeaderSize) (min (body.length - w) rnmOtaPartSize) =
          w + min (body.length - w) rnmOtaPartSize + otaHeaderSize := by
        unfold rnmOtaPartSize at fits
        unfold otaHeaderSize
        rw [add32_eq (by omega)]
        omega
      have hread : ((body.drop w).take (min (body.length - w) rnmOtaPartSize)).length =
          min (body.length - w) rnmOtaPartSize := by
        apply List.length_take_of_le
        rw [List.length_drop]
        exact Nat.min_le_left _ _
      have hrequest : blctlOtaProgramPart heap link (w + otaHeaderSize)
          ((body.drop w).take (min (body.length - w) rnmOtaPartSize)) = (link', 0) := hsent
      obtain ⟨last, hloop, hdone⟩ := ih (body.length - (w + min (body.length - w) rnmOtaPartSize))
        (by omega) hsession' (by omega) hlog' rfl
      refine ⟨last, ?_, hdone⟩
      rw [dif_pos hlt]
      simp only [hsize]
      rw [dif_pos hread]
      simp only [hrequest, ne_eq, not_true_eq_false, if_false, hnext, List.drop_drop]
      exact hloop
    · have hdone : w = body.length := by omega
      subst hdone
      rw [dif_neg (Nat.lt_irrefl _)]
      exact ⟨link, rfl, hsession, hlog⟩

/-! ## The whole update -/

theorem blctlOtaStart_healthy (h : Healthy link.dev heap e) (hlog : Accepted link.log)
    (body : List UInt8) :
    ∃ link' octx, blctlOtaStart heap link = (link', 0) ∧
      link'.dev.boot2PartitionTable = link.dev.boot2PartitionTable ∧ link'.dev.ota = some octx ∧
      Programmed e link.dev.flash.mem body link'.dev.flash octx 0 ∧ Accepted link'.log := by
  obtain ⟨dev', hstart, hboot2, octx, hota, hprogrammed⟩ :=
    handleStart_healthy body link.hdr h
  have hreply : rnmsHandleOta link.dev link.hdr heap .start =
      .ok ((dev'.reply link.hdr .startAck).1, some (dev'.reply link.hdr .startAck).2) := by
    simp only [rnmsHandleOta, hstart]
    rfl
  obtain ⟨link', hrequest, hdev, hlog'⟩ := request_reply (· = .startAck) hreply
  refine ⟨link', octx, hrequest, ?_, ?_, ?_, ?_⟩
  · rw [hdev]
    exact hboot2
  · rw [hdev]
    exact hota
  · rw [hdev]
    exact hprogrammed
  · rw [hlog']
    apply hlog.append
    intro _ _ hmsg
    cases hmsg

theorem blctlOta_long (h : Healthy link.dev heap e) (image : Image header body)
    (hroom : body.length ≤ room e) (hlog : Accepted link.log)
    (hlong : otaHeaderSize ≤ body.length) :
    Updated e body (blctlOta heap link (header ++ body)) := by
  obtain ⟨started, octx, hstart, hboot2, hota, hprogrammed, hlogStarted⟩ :=
    blctlOtaStart_healthy h hlog body
  obtain ⟨first, hfirst, hsession, hlogFirst⟩ := blctlOtaProgramPart_accepted heap
    (handleProgramPart_first started.hdr image hlong hboot2 hota hprogrammed hroom h.behind h.fits)
    hlogStarted
  obtain ⟨last, hloop, hcomplete, hlogLast⟩ := programParts_session heap hsession hlong hlogFirst
    hroom h.behind h.fits
  obtain ⟨dev', hcommit, hstored, hcommitted⟩ :=
    handleCommit_session last.hdr h hcomplete hroom
  have hreply : rnmsHandleOta last.dev last.hdr heap .commit =
      .ok ((dev'.reply last.hdr .commitAck).1, some (dev'.reply last.hdr .commitAck).2) := by
    simp only [rnmsHandleOta, hcommit]
    rfl
  obtain ⟨done, hdone, hdev, hlogDone⟩ := request_reply (· = .commitAck) hreply
  have hfile : (header ++ body).length = body.length + otaHeaderSize := by
    rw [List.length_append, image.header_length, Nat.add_comm]
  have hsize : min (body.length + otaHeaderSize - 0) rnmOtaPartSize = rnmOtaPartSize := by
    unfold rnmOtaPartSize otaHeaderSize at *
    omega
  have hread : (header ++ body).take rnmOtaPartSize = header ++ body.take otaHeaderSize := by
    have hpart : rnmOtaPartSize = header.length + otaHeaderSize := by
      rw [image.header_length]
      rfl
    rw [hpart, List.take_length_add_append]
  have hrest : (header ++ body).drop rnmOtaPartSize = body.drop otaHeaderSize := by
    have hpart : rnmOtaPartSize = header.length + otaHeaderSize := by
      rw [image.header_length]
      rfl
    rw [hpart, List.drop_length_add_append]
  have hlength : ((header ++ body).take rnmOtaPartSize).length = rnmOtaPartSize := by
    apply List.length_take_of_le
    rw [hfile]
    unfold rnmOtaPartSize otaHeaderSize at *
    omega
  have hnext : add32 0 rnmOtaPartSize = otaHeaderSize + otaHeaderSize := by
    rw [add32_eq (by decide)]
    rfl
  have hparts : programParts heap (body.length + otaHeaderSize) started 0 0 (header ++ body) =
      { link := last, ret := 0, finished := true } := by
    unfold programParts
    rw [dif_pos (by unfold otaHeaderSize; omega)]
    simp only [hsize]
    rw [dif_pos hlength]
    simp only [hread, hfirst, ne_eq, not_true_eq_false, if_false, hnext, hrest]
    exact hloop
  have hrun : blctlOta heap link (header ++ body) = (done, 0) := by
    unfold blctlOta
    rw [hstart, hfile]
    simp only [ne_eq, not_true_eq_false, if_false, hparts, if_true]
    exact hdone
  rw [hrun]
  constructor
  · rfl
  · have haccepted : Accepted done.log := by
      rw [hlogDone]
      apply hlogLast.append
      intro _ _ hmsg
      cases hmsg
    exact haccepted
  · rw [hdev]
    exact hstored
  · rw [hdev]
    exact hcommitted

theorem blctlOta_short (h : Healthy link.dev heap e) (image : Image header body)
    (hroom : body.length ≤ room e) (hlog : Accepted link.log)
    (hshort : body.length < otaHeaderSize) :
    (blctlOta heap link (header ++ body)).2 = -1 := by
  obtain ⟨started, octx, hstart, -, hota, hprogrammed, -⟩ := blctlOtaStart_healthy h hlog body
  have hreject := handleProgramPart_short started.hdr image hshort hota hprogrammed hroom
  have hreply : rnmsHandleOta started.dev started.hdr heap (.programPart 0 (header ++ body)) =
      .ok ((Dev.reply { started.dev with ota := none } started.hdr (.error .sizeNotExpected)).1,
        some (Dev.reply { started.dev with ota := none } started.hdr
          (.error .sizeNotExpected)).2) := by
    simp only [rnmsHandleOta, hreject]
    rfl
  obtain ⟨link', hsent, -, -⟩ := request_reply programmedAck hreply
  have hfile : (header ++ body).length = body.length + otaHeaderSize := by
    rw [List.length_append, image.header_length, Nat.add_comm]
  have hsize : min ((header ++ body).length - 0) rnmOtaPartSize = (header ++ body).length := by
    rw [hfile]
    unfold rnmOtaPartSize otaHeaderSize at *
    omega
  have hread : (header ++ body).take (header ++ body).length = header ++ body := List.take_length
  have hparts : programParts heap (header ++ body).length started 0 0 (header ++ body) =
      { link := link', ret := -1, finished := false } := by
    unfold programParts
    rw [dif_pos (by rw [hfile]; unfold otaHeaderSize; omega)]
    simp only [hsize, hread]
    rw [dif_pos trivial]
    have hrequest : blctlOtaProgramPart heap started 0 (header ++ body) = (link', -1) := hsent
    simp only [hrequest]
    rfl
  unfold blctlOta
  rw [hstart]
  simp only [ne_eq, not_true_eq_false, if_false, hparts]
  rfl

/-- On a healthy device with room for the body, the update of an image goes
through exactly when the body fills the first part. -/
theorem updated_iff_long (h : Healthy dev heap e) (image : Image header body)
    (hroom : body.length ≤ room e) (sid txLastSeq : UInt16) :
    Updated e body (blctlOta heap { dev := dev, sid := sid, txLastSeq := txLastSeq, log := [] }
        (header ++ body)) ↔ otaHeaderSize ≤ body.length := by
  have hlog : Accepted [] := by
    intro _ _ _ hmem
    cases hmem
  constructor
  · intro hupdated
    apply Nat.le_of_not_lt
    intro hshort
    have hret : (blctlOta heap { dev := dev, sid := sid, txLastSeq := txLastSeq, log := [] }
        (header ++ body)).2 = -1 := blctlOta_short h image hroom hlog hshort
    rw [hupdated.success] at hret
    exact absurd hret (by decide)
  · exact blctlOta_long h image hroom hlog

/-! ## One image that goes through and one that does not -/

/-- A header of type `RAW`. -/
def rawHeader (body : List UInt8) : List UInt8 :=
  List.replicate 16 0 ++ ((typeRaw ++ [0]) ++ (toLE 4 body.length ++ (List.replicate 40 0 ++
    (sha256 body ++ List.replicate 416 0))))

theorem image_rawHeader (hpos : 0 < body.length) (small : body.length < 2 ^ 32) :
    Image (rawHeader body) body := by
  have hsha := length_sha256 body
  have htype : slice (rawHeader body) 16 4 = typeRaw ++ [0] :=
    slice_middle (List.replicate 16 0) (typeRaw ++ [0]) _
  have hlen : slice (rawHeader body) 20 4 = toLE 4 body.length := by
    have hmiddle := slice_middle (List.replicate 16 0 ++ (typeRaw ++ [0])) (toLE 4 body.length)
      (List.replicate 40 0 ++ (sha256 body ++ List.replicate 416 0))
    rw [List.append_assoc] at hmiddle
    exact hmiddle
  have hdigest : slice (rawHeader body) 64 32 = sha256 body := by
    have hmiddle := slice_middle (List.replicate 16 0 ++ ((typeRaw ++ [0]) ++
      (toLE 4 body.length ++ List.replicate 40 0))) (sha256 body) (List.replicate 416 0)
    simp only [List.append_assoc] at hmiddle
    rw [hsha] at hmiddle
    simp only [rawHeader, List.append_assoc]
    exact hmiddle
  constructor
  · simp only [rawHeader, List.length_append, List.length_replicate, length_toLE, hsha]
    rfl
  · rw [htype]
    decide
  · rw [hlen, ofLE_toLE_of_lt (by omega)]
  · exact hdigest
  · exact hpos

def fwDev : Dev where
  flash := fwSys.flash
  boot2PartitionTable := fwBoot2
  ota := none
  lastMsgId := 0

def fwHeap : Heap where
  ctx := true
  writeBuf := some (List.replicate rnmOtaPartSize 0)
  handle := true

theorem healthy_fwDev : Healthy fwDev fwHeap fwEntry where
  idle := rfl
  boot := boot_fwTable
  faults := rfl
  age := by
    intro table htable
    rw [show fwDev.flash.mem = fwSys.flash.mem from rfl, activeTable_eq selectMem_fwSys (by decide),
      readTableMem_fwSys] at htable
    cases htable
    rw [age_fwTable]
    decide
  byName := ramFwEntry_fwBoot2
  byId := entriesById_fwBoot2
  memory := ⟨rfl, rfl⟩
  writeBuf := ⟨_, rfl, List.length_replicate⟩
  behind := by decide
  fits := by decide

/-- The longest body that is rejected, and the shortest that is not. -/
def zeroBody (n : Nat) : List UInt8 := List.replicate n 0

theorem room_fwEntry {n : Nat} (hn : n ≤ 1024) : (zeroBody n).length ≤ room fwEntry := by
  have hroom : 1024 ≤ room fwEntry := by decide
  rw [zeroBody, List.length_replicate]
  omega

theorem image_zeroBody {n : Nat} (hpos : 0 < n) (hn : n ≤ 1024) :
    Image (rawHeader (zeroBody n)) (zeroBody n) := by
  apply image_rawHeader
  · rw [zeroBody, List.length_replicate]
    exact hpos
  · rw [zeroBody, List.length_replicate]
    omega

theorem updated_512 :
    Updated fwEntry (zeroBody 512) (blctlOta fwHeap
      { dev := fwDev, sid := 0, txLastSeq := 0, log := [] }
      (rawHeader (zeroBody 512) ++ zeroBody 512)) :=
  (updated_iff_long healthy_fwDev (image_zeroBody (by decide) (by decide))
    (room_fwEntry (by decide)) 0 0).mpr (Nat.le_of_eq List.length_replicate.symm)

theorem not_updated_511 :
    ¬ Updated fwEntry (zeroBody 511) (blctlOta fwHeap
      { dev := fwDev, sid := 0, txLastSeq := 0, log := [] }
      (rawHeader (zeroBody 511) ++ zeroBody 511)) := by
  intro hupdated
  have hlog : Accepted [] := by
    intro _ _ _ hmem
    cases hmem
  have hshort : (zeroBody 511).length < otaHeaderSize := by
    rw [zeroBody, List.length_replicate]
    decide
  have hret : (blctlOta fwHeap { dev := fwDev, sid := 0, txLastSeq := 0, log := [] }
      (rawHeader (zeroBody 511) ++ zeroBody 511)).2 = -1 :=
    blctlOta_short healthy_fwDev (image_zeroBody (by decide) (by decide))
      (room_fwEntry (by decide)) hlog hshort
  rw [hupdated.success] at hret
  exact absurd hret (by decide)

end BouffaloSdk.HostRouter.Ota
