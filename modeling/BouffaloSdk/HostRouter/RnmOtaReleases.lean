import BouffaloSdk.HostRouter.RnmOtaRuns

/-!
# What an update session owns

A session owns its context and the handle of the firmware partition. Here every
handler also tells what it takes and gives back, on the same branches: which
runs leave a session alone that a message did not ask to end, and give back
each thing once when a session fails.
-/

namespace BouffaloSdk.HostRouter.Ota
open Kit Kit.Word Kit.Runs BouffaloSdk.Partition Mtd BouffaloSdk.Ota

inductive Effect
  | allocCtx
  | freeCtx
  | openHandle (handle : BflbMtdHandle)
  | closeHandle (handle : BflbMtdHandle)
  deriving DecidableEq, Repr

/-- `bl_mtd_close` and `ota_ctx_free`. -/
def RnmOta.closeAndFree (octx : RnmOta) : List Effect := [.closeHandle octx.mtdHdl, .freeCtx]

/-- The branch taken for a session in progress frees that session's context. -/
def handleStartEffects (dev : Dev) (heap : Heap) : List Effect :=
  if dev.ota.isSome then [.freeCtx]
  else
    match otaCtxAlloc heap with
    | none => if heap.ctx then [.allocCtx, .freeCtx] else []
    | some _ =>
      match bflbMtdOpen dev.boot2PartitionTable heap.handle rnmMtdPartitionNameFwDefault true with
      | .deadLoop => [.allocCtx]
      | .noMemory => [.allocCtx, .freeCtx]
      | .opened handle =>
        match ptTableGetActiveEntriesById dev.boot2PartitionTable.table boot2PartitionTypeFw with
        | none => [.allocCtx, .openHandle handle, .closeHandle handle, .freeCtx]
        | some _ => [.allocCtx, .openHandle handle]

def handleProgramPartEffects (dev : Dev) (offset : Nat) (data : List UInt8) : List Effect :=
  match dev.ota with
  | none => []
  | some octx =>
    if ¬ ((offset = 0 ∧ octx.offsetWritten = 0) ∨
        offset = add32 octx.offsetWritten otaHeaderSize) then octx.closeAndFree
    else if ¬ data.length ≤ rnmOtaPartSize then octx.closeAndFree
    else
      let buf := blit octx.writeBuf 0 data
      match takePart octx buf offset data.length with
      | .error _ => octx.closeAndFree
      | .ok part =>
        let written := add32 part.size part.octx.offsetWritten
        if ¬ written ≤ part.octx.bodyLength then part.octx.closeAndFree
        else if offset ≠ 0 ∧ written ≠ part.octx.bodyLength ∧ part.size ≠ rnmOtaPartSize then
          part.octx.closeAndFree
        else
          let (_, octx) := programPart dev.flash part buf
          if written = octx.bodyLength then
            if utilsSha256Finish octx.shaCtx ≠ octx.sha256That then octx.closeAndFree else []
          else []

/-- `ABORT` and `COMMIT` give back what the session has. -/
def handleEndEffects (dev : Dev) : List Effect := (dev.ota.map RnmOta.closeAndFree).getD []

def rnmsHandleOtaEffects (dev : Dev) (heap : Heap) : OtaMsg → List Effect
  | .start => handleStartEffects dev heap
  | .abort => handleEndEffects dev
  | .programPart offset data => handleProgramPartEffects dev offset data
  | .commit => handleEndEffects dev
  | .unknown => []

def Dev.holds (dev : Dev) (handle : BflbMtdHandle) : Bool :=
  dev.ota.map RnmOta.mtdHdl == some handle

/-- What the session of `dev` had, and what was taken since, is given back once. -/
structure GivenBack (dev : Dev) (effects : List Effect) : Prop where
  once : effects.Nodup
  ctx : effects.count .freeCtx = dev.ota.isSome.toNat + effects.count .allocCtx
  handles : ∀ handle, effects.count (.closeHandle handle) =
    (dev.holds handle).toNat + effects.count (.openHandle handle)

/-- `START` in a session is refused and changes nothing of it. -/
def SessionKept (w : World) (request : Request) : Prop :=
  request.msg = .start → w.dev.ota.isSome = true →
    ∃ dev reply, rnmsHandleOta w.dev request.hdr request.heap request.msg = .ok (dev, some reply) ∧
      reply.status = .error .statusIncorrect ∧ dev.ota = w.dev.ota ∧ dev.flash = w.dev.flash ∧
      rnmsHandleOtaEffects w.dev request.heap request.msg = []

/-- A failure that leaves no session gives back all there is of it. -/
def FailureReleases (w : World) (request : Request) : Prop :=
  ∀ dev reply code,
    rnmsHandleOta w.dev request.hdr request.heap request.msg = .ok (dev, some reply) →
      reply.status = .error code → dev.ota = none →
        GivenBack w.dev (rnmsHandleOtaEffects w.dev request.heap request.msg)

def Undisturbed (w : World) (request : Request) (_ : World) : Prop :=
  SessionKept w request ∧ FailureReleases w request

/-- No `START` comes while a session is in progress. -/
def NotRestarted (w : World) (request : Request) (_ : World) : Prop :=
  request.msg = .start → w.dev.ota = none

variable {dev : Dev} {octx : RnmOta} {cmd : RnmBaseMsg} {offset size : Nat} {heap : Heap}
  {data buf : List UInt8} {part : Part} {r : Dev × OtaReply} {w t : World} {request : Request}

theorem takePart_handle (h : takePart octx buf offset size = .ok part) :
    part.octx.mtdHdl = octx.mtdHdl := by
  unfold takePart at h
  split at h
  · split at h
    · cases h
    · split at h
      · cases h
      · cases h
        rfl
  · cases h
    rfl

theorem closeAndFree_takePart (h : takePart octx buf offset size = .ok part) :
    part.octx.closeAndFree = octx.closeAndFree := by
  rw [RnmOta.closeAndFree, takePart_handle h, RnmOta.closeAndFree]

theorem givenBack_closeAndFree (hota : dev.ota = some octx) :
    GivenBack dev octx.closeAndFree := by
  constructor
  case once => simp [RnmOta.closeAndFree]
  case ctx => simp [RnmOta.closeAndFree, hota]
  case handles =>
    intro handle
    by_cases hsame : octx.mtdHdl = handle
    · simp [RnmOta.closeAndFree, Dev.holds, hota, hsame]
    · have hne : (octx.mtdHdl == handle) = false := beq_eq_false_iff_ne.mpr hsame
      simp [RnmOta.closeAndFree, Dev.holds, hota, hsame, hne]

/-- A part that does not go through closes the handle and frees the context. -/
theorem handleProgramPart_released (hota : dev.ota = some octx)
    (h : handleProgramPart dev cmd offset data = .ok r) (hnone : r.1.ota = none) :
    handleProgramPartEffects dev offset data = octx.closeAndFree := by
  unfold handleProgramPart at h
  unfold handleProgramPartEffects
  simp only [hota] at h ⊢
  split
  · rfl
  case isFalse hoffset =>
    rw [if_neg hoffset] at h
    split
    · rfl
    case isFalse hdata =>
      rw [if_neg hdata] at h
      split
      · rfl
      case h_2 part hpart =>
        simp only [hpart] at h
        split
        · exact closeAndFree_takePart hpart
        case isFalse hbody =>
          rw [if_neg hbody] at h
          split
          · exact closeAndFree_takePart hpart
          case isFalse hsize =>
            rw [if_neg hsize] at h
            split
            case isTrue hlast =>
              rw [if_pos hlast] at h
              split
              · exact closeAndFree_takePart hpart
              case isFalse hdigest =>
                rw [if_neg hdigest] at h
                cases h
                cases hnone
            case isFalse hmore =>
              rw [if_neg hmore] at h
              cases h
              cases hnone

/-- A `START` without a session gives back what it took, unless it goes through. -/
theorem handleStart_released (hota : dev.ota = none) (h : handleStart dev cmd heap = .ok r)
    (hnone : r.1.ota = none) : GivenBack dev (handleStartEffects dev heap) := by
  have hempty : GivenBack dev [] := by
    constructor <;> simp [hota, Dev.holds]
  have hhalf : GivenBack dev [.allocCtx, .freeCtx] := by
    constructor <;> simp [hota, Dev.holds]
  have hbuilt : ∀ handle, GivenBack dev
      [.allocCtx, .openHandle handle, .closeHandle handle, .freeCtx] := by
    intro handle
    constructor <;> simp [hota, Dev.holds, List.count_cons]
  unfold handleStart at h
  unfold handleStartEffects
  simp only [hota, Option.isSome_none, Bool.false_eq_true, if_false] at h ⊢
  split
  · split
    · exact hhalf
    · exact hempty
  case h_2 writeBuf halloc =>
    simp only [halloc] at h
    split
    case h_1 hopen =>
      simp only [hopen] at h
      cases h
    case h_2 hopen => exact hhalf
    case h_3 handle hopen =>
      simp only [hopen] at h
      split
      · exact hbuilt handle
      case h_2 ptEntry hentry =>
        simp only [hentry] at h
        cases h
        cases hnone

theorem failureReleases (hclear : NotRestarted w request t) : FailureReleases w request := by
  intro dev reply code hhandle herror hnone
  obtain ⟨hdr, heap, msg⟩ := request
  cases msg with
  | start =>
    obtain ⟨r, hstart, hr⟩ := map_ok hhandle
    cases hr
    exact handleStart_released (hclear rfl) hstart hnone
  | abort =>
    obtain ⟨r, habort, hr⟩ := map_ok hhandle
    cases hr
    unfold handleAbort at habort
    split at habort
    · cases habort
    · cases habort
      cases herror
  | programPart offset data =>
    obtain ⟨r, hpart, hr⟩ := map_ok hhandle
    cases hr
    rcases hota : w.dev.ota with - | octx
    · unfold handleProgramPart at hpart
      simp only [hota] at hpart
      cases hpart
    · change GivenBack w.dev (handleProgramPartEffects w.dev offset data)
      rw [handleProgramPart_released hota hpart hnone]
      exact givenBack_closeAndFree hota
  | commit =>
    obtain ⟨r, hcommit, hr⟩ := map_ok hhandle
    cases hr
    unfold handleCommit at hcommit
    split at hcommit
    · cases hcommit
    · cases hcommit
      cases herror
  | unknown => cases hhandle

/-- `START` in a session frees the context that it did not make. -/
theorem not_sessionKept (hmsg : request.msg = .start) (hota : w.dev.ota = some octx) :
    ¬ SessionKept w request := by
  intro hkept
  obtain ⟨dev, reply, -, -, -, -, heffects⟩ := hkept hmsg (by rw [hota]; rfl)
  rw [hmsg, rnmsHandleOtaEffects, handleStartEffects, hota] at heffects
  cases heffects

theorem undisturbed_iff : Undisturbed w request t ↔ NotRestarted w request t := by
  constructor
  · rintro ⟨hkept, -⟩ hmsg
    rcases hota : w.dev.ota with - | octx
    · rfl
    · exact absurd hkept (not_sessionKept hmsg hota)
  · intro hclear
    refine ⟨fun hmsg hsome => ?_, failureReleases hclear⟩
    rw [hclear hmsg] at hsome
    cases hsome

/-- From any boot on, sessions are left alone, and given back once when they
fail, exactly as long as no `START` comes in a session. -/
theorem undisturbed_iff_notRestarted (flash : Flash) (boot2 : Boot2PartitionTable)
    (lastMsgId : UInt16) (requests : List Request) :
    Along step Undisturbed (.booted flash boot2 lastMsgId) requests ↔
      Along step NotRestarted (.booted flash boot2 lastMsgId) requests := by
  refine @along_iff_of_invariant _ _ _ _ _ (fun _ => True) _ _ ?_ ?_ trivial
  · intro w request t _ _
    exact undisturbed_iff
  · intro w request t _ _ _
    trivial

/-- The second `START` takes the first one's session away. -/
theorem start_in_session_disturbs :
    ¬ Along step Undisturbed (.booted fwSys.flash fwBoot2 0) [startRequest, startRequest] := by
  obtain ⟨t, hstart, hrunning, hota⟩ := step_start
  intro h
  have hstep : ∃ u, step t startRequest = some u := by
    unfold step
    rw [hrunning]
    exact ⟨_, rfl⟩
  obtain ⟨u, hu⟩ := hstep
  exact not_sessionKept rfl hota ((h t hstart).2 u hu).1.1

end BouffaloSdk.HostRouter.Ota
