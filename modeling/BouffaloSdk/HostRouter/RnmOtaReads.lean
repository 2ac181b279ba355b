import BouffaloSdk.HostRouter.RnmOtaRuns

/-!
# What the update handlers read

The handlers of `rnm_ota.c` again, over the bytes of a message, with every access to the
message, to the session context and to the write buffer checked. Where all accesses are
good, they are the handlers of the session model.
-/

namespace BouffaloSdk.HostRouter.Ota
open Kit Kit.Word BouffaloSdk.Partition Mtd BouffaloSdk.Ota

inductive BadAccess where
  | absentPayload
  | absentSession
  | beyondMessage
  | beyondBuffer
  deriving DecidableEq, Repr

inductive Stop where
  | bad (access : BadAccess)
  | deadLoop
  deriving DecidableEq, Repr

abbrev Checked := Except Stop

/-- `len` bytes of `cmd->data`, from `pos` bytes behind its header on. -/
def readMsg (cmd : RnmMsg) (pos len : Nat) : Checked (List UInt8) :=
  match cmd.data with
  | none => .error (.bad .absentPayload)
  | some p =>
    if pos + len ≤ p.body.length then .ok (slice p.body pos len)
    else .error (.bad .beyondMessage)

def session (dev : Dev) : Checked RnmOta :=
  match dev.ota with
  | none => .error (.bad .absentSession)
  | some octx => .ok octx

def inBuffer (pos len : Nat) : Checked Unit :=
  if pos + len ≤ rnmOtaPartSize then .ok () else .error (.bad .beyondBuffer)

/-- A handler that has made its accesses runs on. -/
def checked : Except Fault (Dev × OtaReply) → Checked (Dev × Option OtaReply)
  | .ok r => .ok (r.1, some r.2)
  | .error .nullPointer => .error (.bad .absentSession)
  | .error .deadLoop => .error .deadLoop

def Dev.failed (dev : Dev) (cmd : RnmMsg) (code : OtaErrorCode) : Dev × Option OtaReply :=
  ((dev.fail cmd.cmd code).1, some (dev.fail cmd.cmd code).2)

/-- The part that `handle_program_part` expects next. -/
def RnmOta.Next (octx : RnmOta) (offset : Nat) : Prop :=
  (offset = 0 ∧ octx.offsetWritten = 0) ∨ offset = add32 octx.offsetWritten otaHeaderSize

instance (octx : RnmOta) (offset : Nat) : Decidable (octx.Next offset) :=
  inferInstanceAs (Decidable (_ ∨ _))

/-- The header of a first part is read in the write buffer, and the part is programmed and
read back there. -/
def checkedPart (dev : Dev) (cmd : RnmMsg) (octx : RnmOta) (offset : Nat) (data : List UInt8) :
    Checked (Dev × Option OtaReply) := do
  inBuffer 0 data.length
  inBuffer 0 (if offset = 0 then otaHeaderSize else 0)
  match takePart octx (blit octx.writeBuf 0 data) offset data.length with
  | .error code => .ok (dev.failed cmd code)
  | .ok part =>
    inBuffer part.pos part.size
    checked (handleProgramPart dev cmd.cmd offset data)

def checkedProgramPart (dev : Dev) (cmd : RnmMsg) : Checked (Dev × Option OtaReply) := do
  let offset ← ofLE <$> readMsg cmd 2 4
  let dataLen ← ofLE <$> readMsg cmd 6 4
  let octx ← session dev
  if ¬ octx.Next offset then .ok (dev.failed cmd .partMissing)
  else if ¬ dataLen ≤ rnmOtaPartSize then .ok (dev.failed cmd .sizeNotExpected)
  else
    let data ← readMsg cmd 10 dataLen
    checkedPart dev cmd octx offset data

def rnmsHandleOtaChecked (dev : Dev) (cmd : RnmMsg) (heap : Heap) :
    Checked (Dev × Option OtaReply) := do
  let msgType ← ofLE <$> readMsg cmd 0 2
  match msgType with
  | 0 => checked (handleStart dev cmd.cmd heap)
  | 1 => do
    let _ ← session dev
    checked (handleAbort dev cmd.cmd)
  | 2 => checkedProgramPart dev cmd
  | 3 => do
    let _ ← session dev
    checked (handleCommit dev cmd.cmd)
  | _ => .ok (dev, none)

/-- The fields of `rnm_ota_msg_t`. -/
def msgType (body : List UInt8) : Nat := ofLE (slice body 0 2)
def partOffset (body : List UInt8) : Nat := ofLE (slice body 2 4)
def partDataLen (body : List UInt8) : Nat := ofLE (slice body 6 4)

/-- The data of a part; behind the end of the message it reads as zeros. -/
def partData (body : List UInt8) : List UInt8 :=
  slice (body ++ List.replicate (partDataLen body) 0) 10 (partDataLen body)

def decodeOta (body : List UInt8) : OtaMsg :=
  match msgType body with
  | 0 => .start
  | 1 => .abort
  | 2 => .programPart (partOffset body) (partData body)
  | 3 => .commit
  | _ => .unknown

/-- The message holds the fields of its type, a part that is taken holds its data, and what
needs a session finds one. -/
def Backed (dev : Dev) (body : List UInt8) : Prop :=
  2 ≤ body.length ∧
    match msgType body with
    | 1 | 3 => dev.ota.isSome = true
    | 2 => 10 ≤ body.length ∧ ∃ octx, dev.ota = some octx ∧
        (octx.Next (partOffset body) → partDataLen body ≤ rnmOtaPartSize →
          10 + partDataLen body ≤ body.length)
    | _ => True

variable {dev : Dev} {octx : RnmOta} {p : Packet} {cmd : RnmMsg} {heap : Heap} {data : List UInt8}
  {pos len offset : Nat}

/-! ## Reads -/

theorem readMsg_copy (p : Packet) (hlen : 0 < len) :
    readMsg (.copy p) pos len =
      if pos + len ≤ p.body.length then .ok (slice p.body pos len)
      else .error (.bad (if p.body = [] then .absentPayload else .beyondMessage)) := by
  unfold readMsg RnmMsg.copy
  by_cases hnil : p.body = []
  · simp only [hnil, if_true, List.length_nil]
    rw [if_neg (by omega)]
  · simp only [hnil, if_false]

/-- Every exit of the handlers but `deadLoop` is a good access. -/
def Good (result : Checked (Dev × Option OtaReply)) : Prop := ∀ access, result ≠ .error (.bad access)

theorem good_checked {result : Except Fault (Dev × OtaReply)} (h : result ≠ .error .nullPointer) :
    Good (checked result) := by
  intro access
  cases result with
  | ok r => simp [checked]
  | error fault =>
    cases fault with
    | nullPointer => exact absurd rfl h
    | deadLoop => simp [checked]

theorem handleStart_good (dev : Dev) (cmd : RnmBaseMsg) (heap : Heap) :
    Good (checked (handleStart dev cmd heap)) := by
  apply good_checked
  unfold handleStart
  split
  · simp
  · split
    · simp
    · split
      · simp
      · simp
      · split
        · simp
        · simp

theorem good_ok (r : Dev × Option OtaReply) : Good (.ok r) := by
  intro access
  exact nofun

/-! ## One part -/

theorem takePart_bounds {part : Part} {buf : List UInt8} {size : Nat}
    (h : takePart octx buf offset size = .ok part) (hsize : size ≤ rnmOtaPartSize) :
    part.pos + part.size ≤ rnmOtaPartSize := by
  unfold takePart at h
  split at h
  · split at h
    · cases h
    · split at h
      · cases h
      · cases h
        exact Nat.le_refl 1024
  · cases h
    exact (Nat.zero_add size).symm ▸ hsize

/-- The write buffer holds what goes there. -/
theorem checkedPart_eq (hota : dev.ota = some octx) (hdata : data.length ≤ rnmOtaPartSize)
    (hnext : octx.Next offset) (cmd : RnmMsg) :
    checkedPart dev cmd octx offset data = checked (handleProgramPart dev cmd.cmd offset data) := by
  have hcopy : inBuffer 0 data.length = .ok () := if_pos (by omega)
  have hheader : inBuffer 0 (if offset = 0 then otaHeaderSize else 0) = .ok () := by
    split
    · rfl
    · rfl
  unfold checkedPart
  simp only [hcopy, hheader, bind, Except.bind]
  cases hpart : takePart octx (blit octx.writeBuf 0 data) offset data.length with
  | error code =>
    have hexpected : (offset = 0 ∧ octx.offsetWritten = 0) ∨
        offset = add32 octx.offsetWritten otaHeaderSize := hnext
    unfold handleProgramPart
    simp only [hota, hpart]
    rw [if_neg (not_not.mpr hexpected), if_neg (not_not.mpr hdata)]
    rfl
  | ok part =>
    have hin : inBuffer part.pos part.size = .ok () := if_pos (takePart_bounds hpart hdata)
    simp only [hin]

/-- With a session no pointer is null. -/
theorem handleProgramPart_good (hota : dev.ota = some octx) (cmd : RnmBaseMsg) :
    Good (checked (handleProgramPart dev cmd offset data)) := by
  apply good_checked
  intro hfault
  unfold handleProgramPart at hfault
  simp only [hota] at hfault
  split at hfault
  · cases hfault
  · split at hfault
    · cases hfault
    · split at hfault
      · cases hfault
      · split at hfault
        · cases hfault
        · split at hfault
          · cases hfault
          · split at hfault
            · split at hfault
              · cases hfault
              · cases hfault
            · cases hfault

theorem length_partData {body : List UInt8} (h : 10 ≤ body.length) :
    (partData body).length = partDataLen body := by
  apply length_slice
  rw [List.length_append, List.length_replicate]
  omega

theorem partData_of_fits {body : List UInt8} (h : 10 + partDataLen body ≤ body.length) :
    partData body = slice body 10 (partDataLen body) := by
  unfold partData slice
  rw [List.drop_append_of_le_length (by omega), List.take_append_of_le_length]
  rw [List.length_drop]
  omega

/-- What the handler of a part does with the bytes of a message. -/
theorem checkedProgramPart_eq (dev : Dev) (p : Packet) (hlen : 2 ≤ p.body.length) :
    checkedProgramPart dev (.copy p) =
      if p.body.length < 10 then .error (.bad .beyondMessage)
      else match dev.ota with
        | none => .error (.bad .absentSession)
        | some octx =>
          if octx.Next (partOffset p.body) ∧ partDataLen p.body ≤ rnmOtaPartSize ∧
              p.body.length < 10 + partDataLen p.body then .error (.bad .beyondMessage)
          else checked (handleProgramPart dev p.hdr (partOffset p.body) (partData p.body)) := by
  have hread : ∀ pos len, readMsg (.copy p) pos len =
      if pos + len ≤ p.body.length then .ok (slice p.body pos len)
      else .error (.bad .beyondMessage) := by
    intro pos len
    have hne : p.body ≠ [] := List.ne_nil_of_length_pos (by omega)
    unfold readMsg RnmMsg.copy
    rw [if_neg hne]
  unfold checkedProgramPart
  by_cases hshort : p.body.length < 10
  · rw [if_pos hshort]
    by_cases hoffset : 2 + 4 ≤ p.body.length
    · simp only [hread, if_pos hoffset, if_neg (show ¬ 6 + 4 ≤ p.body.length by omega)]
      rfl
    · simp only [hread, if_neg hoffset]
      rfl
  · rw [if_neg hshort]
    have hoffset : ofLE <$> readMsg (.copy p) 2 4 = .ok (partOffset p.body) := by
      rw [hread, if_pos (by omega)]
      rfl
    have hdataLen : ofLE <$> readMsg (.copy p) 6 4 = .ok (partDataLen p.body) := by
      rw [hread, if_pos (by omega)]
      rfl
    rw [hoffset, hdataLen]
    simp only [hread, bind, Except.bind]
    cases hota : dev.ota with
    | none =>
      unfold session
      rw [hota]
    | some octx =>
      have hsession : session dev = .ok octx := by
        unfold session
        rw [hota]
      have hlength := length_partData (Nat.le_of_not_lt hshort)
      simp only [hsession]
      by_cases hnext : octx.Next (partOffset p.body)
      · rw [if_neg (not_not.mpr hnext)]
        by_cases hsize : partDataLen p.body ≤ rnmOtaPartSize
        · rw [if_neg (not_not.mpr hsize)]
          by_cases hfits : 10 + partDataLen p.body ≤ p.body.length
          · have hinside : ¬ (octx.Next (partOffset p.body) ∧ partDataLen p.body ≤ rnmOtaPartSize ∧
                p.body.length < 10 + partDataLen p.body) :=
              fun h => absurd hfits (Nat.not_le_of_lt h.2.2)
            have hpart := checkedPart_eq hota (hlength.trans_le hsize) hnext (.copy p)
            rw [partData_of_fits hfits] at hpart ⊢
            rw [if_neg hinside, if_pos hfits]
            exact hpart
          · have hbeyond : octx.Next (partOffset p.body) ∧ partDataLen p.body ≤ rnmOtaPartSize ∧
                p.body.length < 10 + partDataLen p.body := ⟨hnext, hsize, Nat.lt_of_not_le hfits⟩
            rw [if_pos hbeyond, if_neg hfits]
        · rw [if_pos hsize, if_neg fun h => hsize h.2.1]
          have hlarge : ¬ (partData p.body).length ≤ rnmOtaPartSize := hlength ▸ hsize
          have hexpected : (partOffset p.body = 0 ∧ octx.offsetWritten = 0) ∨
              partOffset p.body = add32 octx.offsetWritten otaHeaderSize := hnext
          unfold handleProgramPart
          simp only [hota]
          rw [if_neg (not_not.mpr hexpected), if_pos hlarge]
          rfl
      · rw [if_pos hnext, if_neg fun h => hnext h.1]
        have hmissing : ¬ ((partOffset p.body = 0 ∧ octx.offsetWritten = 0) ∨
            partOffset p.body = add32 octx.offsetWritten otaHeaderSize) := hnext
        unfold handleProgramPart
        simp only [hota]
        rw [if_pos hmissing]
        rfl

/-! ## All messages -/

theorem readMsg_msgType (p : Packet) :
    ofLE <$> readMsg (.copy p) 0 2 =
      if 2 ≤ p.body.length then .ok (msgType p.body)
      else .error (.bad (if p.body = [] then .absentPayload else .beyondMessage)) := by
  rw [readMsg_copy p (by decide)]
  by_cases hlen : 0 + 2 ≤ p.body.length
  · rw [if_pos hlen, if_pos (show 2 ≤ p.body.length by omega)]
    rfl
  · rw [if_neg hlen, if_neg (show ¬ 2 ≤ p.body.length by omega)]
    rfl

theorem rnmsHandleOtaChecked_of_type (heap : Heap) (hlen : 2 ≤ p.body.length) :
    rnmsHandleOtaChecked dev (.copy p) heap =
      match msgType p.body with
      | 0 => checked (handleStart dev p.hdr heap)
      | 1 => session dev >>= fun _ => checked (handleAbort dev p.hdr)
      | 2 => checkedProgramPart dev (.copy p)
      | 3 => session dev >>= fun _ => checked (handleCommit dev p.hdr)
      | _ => .ok (dev, none) := by
  unfold rnmsHandleOtaChecked
  rw [readMsg_msgType, if_pos hlen]
  rfl

/-- `ABORT` and `COMMIT` follow the session pointer first. -/
theorem good_session_iff {result : Except Fault (Dev × OtaReply)}
    (h : dev.ota.isSome = true → result ≠ .error .nullPointer) :
    Good (session dev >>= fun _ => checked result) ↔ dev.ota.isSome = true := by
  unfold session
  cases hota : dev.ota with
  | none => exact iff_of_false (fun hgood => hgood .absentSession rfl) (by decide)
  | some octx =>
    exact iff_of_true (good_checked (h (by rw [hota]; rfl))) rfl

theorem good_programPart_iff (hlen : 2 ≤ p.body.length) :
    Good (checkedProgramPart dev (.copy p)) ↔ 10 ≤ p.body.length ∧ ∃ octx, dev.ota = some octx ∧
      (octx.Next (partOffset p.body) → partDataLen p.body ≤ rnmOtaPartSize →
        10 + partDataLen p.body ≤ p.body.length) := by
  rw [checkedProgramPart_eq dev p hlen]
  by_cases hshort : p.body.length < 10
  · rw [if_pos hshort]
    exact iff_of_false (fun hgood => hgood .beyondMessage rfl) fun h => by omega
  · rw [if_neg hshort]
    cases hota : dev.ota with
    | none =>
      refine iff_of_false (fun hgood => hgood .absentSession rfl) ?_
      rintro ⟨-, octx, hsome, -⟩
      cases hsome
    | some octx =>
      by_cases hbeyond : octx.Next (partOffset p.body) ∧ partDataLen p.body ≤ rnmOtaPartSize ∧
          p.body.length < 10 + partDataLen p.body
      · simp only [if_pos hbeyond]
        refine iff_of_false (fun hgood => hgood .beyondMessage rfl) ?_
        rintro ⟨-, octx', hsome, hfits⟩
        cases hsome
        exact absurd (hfits hbeyond.1 hbeyond.2.1) (Nat.not_le_of_lt hbeyond.2.2)
      · simp only [if_neg hbeyond]
        refine iff_of_true (handleProgramPart_good hota _) ⟨Nat.le_of_not_lt hshort, octx, rfl, ?_⟩
        intro hnext hsize
        exact Nat.le_of_not_lt fun hlt => hbeyond ⟨hnext, hsize, hlt⟩

/-- For every message and every state of the session the accesses are good exactly when the
message holds its fields and its data and the session that it needs is there. -/
theorem accesses_good_iff_backed (dev : Dev) (p : Packet) (heap : Heap) :
    (∀ access, rnmsHandleOtaChecked dev (.copy p) heap ≠ .error (.bad access)) ↔
      Backed dev p.body := by
  change Good _ ↔ _
  by_cases hlen : 2 ≤ p.body.length
  · rw [rnmsHandleOtaChecked_of_type heap hlen, Backed, and_iff_right hlen]
    generalize msgType p.body = ty
    match ty with
    | 0 => exact iff_of_true (handleStart_good dev p.hdr heap) trivial
    | 1 =>
      apply good_session_iff
      intro hsome hnull
      obtain ⟨octx, hota⟩ := Option.isSome_iff_exists.mp hsome
      rw [handleAbort, hota] at hnull
      cases hnull
    | 2 => exact good_programPart_iff hlen
    | 3 =>
      apply good_session_iff
      intro hsome hnull
      obtain ⟨octx, hota⟩ := Option.isSome_iff_exists.mp hsome
      rw [handleCommit, hota] at hnull
      cases hnull
    | n + 4 => exact iff_of_true (good_ok _) trivial
  · refine iff_of_false (fun hgood => ?_) fun h => hlen h.1
    unfold rnmsHandleOtaChecked at hgood
    rw [readMsg_msgType, if_neg hlen] at hgood
    exact hgood _ rfl

/-- A message whose accesses are good is handled as the session model says. -/
theorem rnmsHandleOtaChecked_refines {r : Dev × Option OtaReply}
    (h : rnmsHandleOtaChecked dev (.copy p) heap = .ok r) :
    rnmsHandleOta dev p.hdr heap (decodeOta p.body) = .ok r := by
  have hchecked : ∀ {result : Except Fault (Dev × OtaReply)}, checked result = .ok r →
      result.map (fun r => (r.1, some r.2)) = .ok r := by
    intro result heq
    cases result with
    | ok r' => exact congrArg Except.ok (Except.ok.inj heq)
    | error fault => cases fault <;> cases heq
  have hsession : ∀ {result : Except Fault (Dev × OtaReply)},
      (session dev >>= fun _ => checked result) = .ok r → checked result = .ok r := by
    intro result heq
    unfold session at heq
    cases hota : dev.ota with
    | none =>
      rw [hota] at heq
      cases heq
    | some octx =>
      rw [hota] at heq
      exact heq
  by_cases hlen : 2 ≤ p.body.length
  · rw [rnmsHandleOtaChecked_of_type heap hlen] at h
    unfold decodeOta
    generalize msgType p.body = ty at h ⊢
    match ty with
    | 0 => exact hchecked h
    | 1 => exact hchecked (hsession h)
    | 2 =>
      have hgood : Good (checkedProgramPart dev (.copy p)) := fun access hbad =>
        absurd (h.symm.trans hbad) (by simp)
      obtain ⟨hfields, octx, hota, hfits⟩ := (good_programPart_iff hlen).mp hgood
      have h : checkedProgramPart dev (.copy p) = .ok r := h
      rw [checkedProgramPart_eq dev p hlen, if_neg (Nat.not_lt.mpr hfields)] at h
      simp only [hota] at h
      split at h
      · cases h
      · exact hchecked h
    | 3 => exact hchecked (hsession h)
    | n + 4 => exact congrArg Except.ok (Except.ok.inj h)
  · unfold rnmsHandleOtaChecked at h
    rw [readMsg_msgType, if_neg hlen] at h
    cases h

/-- `ABORT` before `START` follows a null pointer. -/
theorem abort_without_session :
    ¬ ∀ dev p heap access, rnmsHandleOtaChecked dev (.copy p) heap ≠ .error (.bad access) := by
  intro h
  have hbacked := (accesses_good_iff_backed (World.booted fwSys.flash fwBoot2 0).dev
    ⟨startRequest.hdr, [1, 0]⟩ startRequest.heap).mp (h _ _ _)
  have hsome : (none : Option RnmOta).isSome = true := hbacked.2
  cases hsome

end BouffaloSdk.HostRouter.Ota
