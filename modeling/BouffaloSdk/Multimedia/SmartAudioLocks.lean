import BouffaloSdk.Multimedia.SmartAudio

/-!
# The mutex of the audio controller

The calls of `smart_audio.c` with the places where they take and give back `smtaudio_mutex`. A
player may do anything to the controller's state while it is called. A list node for which there
is no memory is written through a null pointer.
-/

namespace BouffaloSdk.Multimedia

def smtaudioOnlineMusic : Int := 0

/-- `smtaudio_ctx`: whether its mutex is valid and taken, and the rest. -/
structure SmtaudioCtx where
  valid : Bool
  lpmFlag : Bool
  locked : Bool
  audio : SmartAudio

/-- What becomes of a call. -/
inductive Outcome
  | returned (c : SmtaudioCtx) (ret : Int8)
  | crashed
  | blocked

/-- What the `k`th `malloc` of a call gives, whether `strdup` finds memory, and what the players
do and answer. -/
structure Surroundings where
  malloc : Nat → Bool
  strdup : Bool
  player : PlayerCall → SmartAudio → SmartAudio × Int
  info : Int → SmartAudio → SmartAudio × Int

namespace SmtaudioCtx

variable (c : SmtaudioCtx) (env : Surroundings)

/-- `SMTAUDIO_LOCK`, which waits for ever. -/
def lock (next : SmtaudioCtx → Outcome) : Outcome :=
  if c.locked then .blocked else next { c with locked := true }

/-- `SMTAUDIO_UNLOCK`. -/
def unlock : SmtaudioCtx := { c with locked := false }

def setAudio (audio : SmartAudio) : SmtaudioCtx := { c with audio := audio }

def told (call : PlayerCall) : SmtaudioCtx := { c with audio := (env.player call c.audio).1 }

/-- What every call checks before it takes the mutex. -/
def checked (next : Outcome) : Outcome :=
  if ¬ c.valid then .returned c (-1)
  else if c.lpmFlag then .returned c (-1)
  else next

def smtaudioStart (type : Int) (url : String) (seekTime : BitVec 64) (resume : UInt8) : Outcome :=
  c.checked <|
    if c.audio.curState = smtaudioSubstateMute then .returned c 0
    else if type < 0 ∨ smtaudioPlayTypeNum ≤ type then .returned c (-1)
    else
      c.lock fun c =>
        match c.audio.getSmtaudioCtrlOpsById type with
        | none => .returned c.unlock 0
        | some node =>
          let started (c : SmtaudioCtx) : Outcome :=
            let (audio, ret) := env.player (.start node.id (some url) seekTime resume.toNat) c.audio
            .returned (c.setAudio { audio with resumeFlag := resume }).unlock (Int8.ofInt ret)
          match c.audio.findFirstPlayingAudio with
          | none => started c
          | some first =>
            if first.prio < node.prio then
              if ¬ env.malloc 0 then .crashed
              else if ¬ env.strdup then .returned c.unlock 0
              else
                let c := c.setAudio (c.audio.smtaudioDelayListInsert
                  { id := node.id, prio := node.prio, seekTime := seekTime.setWidth 32,
                    url := some url, delayReason := first.id, valid := true })
                .returned c.unlock 0
            else if node.prio < first.prio then
              let c := c.told env (.pause first.id)
              if ¬ env.malloc 0 then .crashed
              else
                started (c.setAudio (c.audio.smtaudioResumeListInsert
                  { id := first.id, prio := first.prio, interruptReason := type, valid := true }))
            else started (c.told env (.pause first.id))

/-- The loop of `smtaudio_pause` with `k` calls of `malloc` behind it. -/
def pausePlaying : List SmtaudioOpsNode → Nat → SmtaudioCtx → Outcome
  | [], _, c => .returned c.unlock 0
  | tmp :: rest, k, c =>
    if c.audio.status tmp.id = .playing then
      let c := c.told env (.pause tmp.id)
      if ¬ env.malloc k then .crashed
      else
        pausePlaying rest (k + 1) (c.setAudio (c.audio.smtaudioResumeListInsert
          { id := tmp.id, prio := tmp.prio, interruptReason := interruptReasonByUser,
            valid := true }))
    else pausePlaying rest k c

def smtaudioPause : Outcome :=
  c.checked <|
    if c.audio.curState = smtaudioSubstateMute then .returned c 0
    else
      c.lock fun c =>
        let c := c.setAudio c.audio.smtaudioClearReadyList
        pausePlaying env c.audio.ctrlList 0 c

/-- One round of the loop of `smtaudio_stop`. -/
def stopPlaying (c : SmtaudioCtx) (tmp : SmtaudioOpsNode) : SmtaudioCtx :=
  if c.audio.status tmp.id = .playing then c.told env (.stop tmp.id) else c

def smtaudioStop (type : Int) : Outcome :=
  c.checked <| c.lock fun c =>
    if type = smtaudioTypeAll then .returned (c.audio.ctrlList.foldl (stopPlaying env) c).unlock 0
    else if 0 ≤ type ∧ type < smtaudioPlayTypeNum then
      match c.audio.getSmtaudioCtrlOpsById type with
      | none => .returned c.unlock 0
      | some tmp => .returned (stopPlaying env c tmp).unlock 0
    else .returned c.unlock 0

def smtaudioMute : Outcome :=
  c.checked <| c.lock fun c =>
    if c.audio.curState ≠ smtaudioSubstateMute then
      .returned (c.setAudio (c.audio.switchState c.audio.curState smtaudioSubstateMute)).unlock 0
    else
      match c.audio.findFirstPlayingAudio with
      | some tmp =>
        .returned (c.setAudio
          (c.audio.switchState smtaudioSubstateMute (subState tmp.id .playing))).unlock 0
      | none =>
        .returned (c.setAudio
          (c.audio.switchState smtaudioSubstateMute smtaudioSubstateLocalStop)).unlock 0

def smtaudioResume : Outcome :=
  c.checked <| c.lock fun c =>
    match c.audio.resumeList.find? c.audio.resumeByUser with
    | none => .returned c.unlock (-1)
    | some node =>
      let (audio, ret) := env.player (.resume node.id) c.audio
      let audio := { audio with resumeList := audio.resumeList.erase node }
      .returned (c.setAudio audio).unlock (Int8.ofInt ret)

/-- One round of the loop of `smtaudio_info`. -/
def infoOf (type : Int) (found : SmtaudioCtx × Int) (tmp : SmtaudioOpsNode) : SmtaudioCtx × Int :=
  if tmp.id = type then
    let (audio, ret) := env.info tmp.id found.1.audio
    (found.1.setAudio audio, ret)
  else found

def smtaudioInfo (type : Int) : Outcome :=
  c.checked <| c.lock fun c =>
    if type = smtaudioOnlineMusic then
      let (c, ret) := c.audio.ctrlList.foldl (infoOf env type) (c, -1)
      .returned c.unlock (Int8.ofInt ret)
    else .returned c (-1)

end SmtaudioCtx

inductive ApiCall
  | start (type : Int) (url : String) (seekTime : BitVec 64) (resume : UInt8)
  | pause
  | stop (type : Int)
  | mute
  | resume
  | info (type : Int)

def ApiCall.run (env : Surroundings) (c : SmtaudioCtx) : ApiCall → Outcome
  | .start type url seekTime flag => c.smtaudioStart env type url seekTime flag
  | .pause => c.smtaudioPause env
  | .stop type => c.smtaudioStop env type
  | .mute => c.smtaudioMute
  | .resume => c.smtaudioResume env
  | .info type => c.smtaudioInfo env type

/-! ## Balance -/

open SmtaudioCtx

/-- The call returns, and the mutex is free. -/
def Outcome.Free (o : Outcome) : Prop := ∃ c ret, o = .returned c ret ∧ c.locked = false

variable {c : SmtaudioCtx} {env : Surroundings} {call : ApiCall} {next : SmtaudioCtx → Outcome}

/-- The call goes on to take the mutex. -/
def SmtaudioCtx.Ready (c : SmtaudioCtx) : Prop := c.valid = true ∧ c.lpmFlag = false

/-- The sources that the loop of `smtaudio_pause` finds playing. -/
def foundPlaying (env : Surroundings) : List SmtaudioOpsNode → SmtaudioCtx →
    List SmtaudioOpsNode
  | [], _ => []
  | tmp :: rest, c =>
    if c.audio.status tmp.id = .playing then
      let c := c.told env (.pause tmp.id)
      tmp :: foundPlaying env rest (c.setAudio (c.audio.smtaudioResumeListInsert
        { id := tmp.id, prio := tmp.prio, interruptReason := interruptReasonByUser,
          valid := true }))
    else foundPlaying env rest c

/-- Every list node that the call asks for finds memory, and `smtaudio_info` is asked about the
music. -/
def ApiCall.Safe (env : Surroundings) (c : SmtaudioCtx) : ApiCall → Prop
  | .start type _ _ _ =>
    c.Ready → c.audio.curState ≠ smtaudioSubstateMute → 0 ≤ type → type < smtaudioPlayTypeNum →
      ∀ node first, c.audio.getSmtaudioCtrlOpsById type = some node →
        c.audio.findFirstPlayingAudio = some first → first.prio ≠ node.prio → env.malloc 0 = true
  | .pause =>
    c.Ready → c.audio.curState ≠ smtaudioSubstateMute →
      ∀ k < (foundPlaying env c.audio.ctrlList
        ({ c with locked := true }.setAudio c.audio.smtaudioClearReadyList)).length,
        env.malloc k = true
  | .info type => c.Ready → type = smtaudioOnlineMusic
  | .stop _ | .mute | .resume => True

/-- A call, or what the event task, the players and `smtaudio_lpm` do between the calls. -/
inductive AudioEvent
  | call (env : Surroundings) (call : ApiCall)
  | between (lpmFlag : Bool) (audio : SmartAudio)

/-- Every call returns, and each time the mutex is free. -/
def AllFree (c : SmtaudioCtx) : List AudioEvent → Prop
  | [] => True
  | .call env call :: events =>
    ∃ c' ret, call.run env c = .returned c' ret ∧ c'.locked = false ∧ AllFree c' events
  | .between lpmFlag audio :: events => AllFree { c with lpmFlag := lpmFlag, audio := audio } events

def AllSafe (c : SmtaudioCtx) : List AudioEvent → Prop
  | [] => True
  | .call env call :: events =>
    call.Safe env c ∧ ∀ c' ret, call.run env c = .returned c' ret → AllSafe c' events
  | .between lpmFlag audio :: events => AllSafe { c with lpmFlag := lpmFlag, audio := audio } events

theorem free_returned (ret : Int8) : (Outcome.returned c ret).Free ↔ c.locked = false := by
  constructor
  · rintro ⟨c', ret', heq, hfree⟩
    cases heq
    exact hfree
  · exact fun hfree => ⟨c, ret, rfl, hfree⟩

theorem not_free_crashed : ¬ Outcome.crashed.Free := by
  rintro ⟨c, ret, heq, -⟩
  cases heq

theorem free_unlock (c : SmtaudioCtx) (ret : Int8) : (Outcome.returned c.unlock ret).Free :=
  ⟨c.unlock, ret, rfl, rfl⟩

/-- A call that is refused leaves the mutex alone. -/
theorem free_checked_iff (h : c.locked = false) (o : Outcome) :
    (c.checked o).Free ↔ (c.Ready → o.Free) := by
  unfold checked Ready
  cases hvalid : c.valid with
  | false => simpa using ⟨c, -1, rfl, h⟩
  | true =>
    cases hlpm : c.lpmFlag with
    | true => simpa using ⟨c, -1, rfl, h⟩
    | false => simp

theorem lock_free (h : c.locked = false) : c.lock next = next { c with locked := true } := by
  unfold lock
  rw [h]
  rfl

theorem start_free_iff (h : c.locked = false) (type : Int) (url : String) (seekTime : BitVec 64)
    (resume : UInt8) : (c.smtaudioStart env type url seekTime resume).Free ↔
      ApiCall.Safe env c (.start type url seekTime resume) := by
  unfold smtaudioStart ApiCall.Safe
  rw [free_checked_iff h]
  refine forall_congr' fun _ => ?_
  by_cases hmute : c.audio.curState = smtaudioSubstateMute
  · rw [if_pos hmute, free_returned]
    exact iff_of_true h fun hnot => absurd hmute hnot
  rw [if_neg hmute]
  by_cases hrange : type < 0 ∨ smtaudioPlayTypeNum ≤ type
  · rw [if_pos hrange, free_returned]
    refine iff_of_true h fun _ hlow hhigh => ?_
    omega
  rw [if_neg hrange, lock_free h]
  have hlow : 0 ≤ type := by omega
  have hhigh : type < smtaudioPlayTypeNum := by omega
  simp only [hmute, not_false_eq_true, forall_const, hlow, hhigh, ne_eq]
  cases hnode : c.audio.getSmtaudioCtrlOpsById type with
  | none => exact iff_of_true (free_unlock _ _) fun _ _ hn => nomatch hn
  | some node =>
    cases hfirst : c.audio.findFirstPlayingAudio with
    | none => exact iff_of_true (free_unlock _ _) fun _ _ _ hf => nomatch hf
    | some first =>
      have hnames : (first.prio ≠ node.prio → env.malloc 0 = true) ↔
          ∀ n f, some node = some n → some first = some f → ¬ f.prio = n.prio →
            env.malloc 0 = true := by
        constructor
        · rintro hone n f ⟨⟩ ⟨⟩
          exact hone
        · exact fun hall => hall node first rfl rfl
      rw [← hnames]
      dsimp only
      by_cases hlt : first.prio < node.prio
      · have hne : first.prio ≠ node.prio := by omega
        rw [if_pos hlt]
        rw [forall_prop_of_true hne]
        by_cases hmalloc : env.malloc 0 = true
        · rw [if_neg (not_not.mpr hmalloc)]
          refine iff_of_true ?_ hmalloc
          split
          · exact free_unlock _ _
          · exact free_unlock _ _
        · rw [if_pos hmalloc]
          exact iff_of_false not_free_crashed hmalloc
      · rw [if_neg hlt]
        by_cases hgt : node.prio < first.prio
        · have hne : first.prio ≠ node.prio := by omega
          rw [if_pos hgt]
          rw [forall_prop_of_true hne]
          by_cases hmalloc : env.malloc 0 = true
          · rw [if_neg (not_not.mpr hmalloc)]
            exact iff_of_true (free_unlock _ _) hmalloc
          · rw [if_pos hmalloc]
            exact iff_of_false not_free_crashed hmalloc
        · have heq : first.prio = node.prio := by omega
          rw [if_neg hgt]
          exact iff_of_true (free_unlock _ _) fun hne => absurd heq hne

/-- The loop ends with the mutex given back, unless a node finds no memory. -/
theorem pausePlaying_free_iff (nodes : List SmtaudioOpsNode) (k : Nat) (c : SmtaudioCtx) :
    (pausePlaying env nodes k c).Free ↔
      ∀ i < (foundPlaying env nodes c).length, env.malloc (k + i) = true := by
  induction nodes generalizing k c with
  | nil => exact iff_of_true (free_unlock _ _) fun _ hi => absurd hi (Nat.not_lt_zero _)
  | cons tmp rest ih =>
    unfold pausePlaying foundPlaying
    by_cases hplaying : c.audio.status tmp.id = .playing
    · rw [if_pos hplaying, if_pos hplaying]
      dsimp only
      by_cases hmalloc : env.malloc k = true
      · rw [if_neg (not_not.mpr hmalloc), ih, List.length_cons]
        constructor
        · intro hrest i hi
          cases i with
          | zero => exact hmalloc
          | succ i =>
            have hnext := hrest i (Nat.lt_of_succ_lt_succ hi)
            rwa [Nat.add_right_comm] at hnext
        · intro hall i hi
          rw [Nat.add_right_comm]
          exact hall (i + 1) (Nat.succ_lt_succ hi)
      · rw [if_pos hmalloc]
        exact iff_of_false not_free_crashed fun hall => hmalloc (hall 0 (Nat.succ_pos _))
    · rw [if_neg hplaying, if_neg hplaying]
      exact ih k c

theorem pause_free_iff (h : c.locked = false) :
    (c.smtaudioPause env).Free ↔ ApiCall.Safe env c .pause := by
  unfold smtaudioPause ApiCall.Safe
  rw [free_checked_iff h]
  refine forall_congr' fun _ => ?_
  by_cases hmute : c.audio.curState = smtaudioSubstateMute
  · rw [if_pos hmute, free_returned]
    exact iff_of_true h fun hnot => absurd hmute hnot
  · rw [if_neg hmute, lock_free h, pausePlaying_free_iff]
    simp only [ne_eq, hmute, not_false_eq_true, forall_const, Nat.zero_add]
    rfl

theorem stop_free (h : c.locked = false) (type : Int) : (c.smtaudioStop env type).Free := by
  unfold smtaudioStop
  rw [free_checked_iff h, lock_free h]
  intro _
  dsimp only
  split
  · exact free_unlock _ _
  · split
    · split
      · exact free_unlock _ _
      · exact free_unlock _ _
    · exact free_unlock _ _

theorem mute_free (h : c.locked = false) : c.smtaudioMute.Free := by
  unfold smtaudioMute
  rw [free_checked_iff h, lock_free h]
  intro _
  dsimp only
  split
  · exact free_unlock _ _
  · split
    · exact free_unlock _ _
    · exact free_unlock _ _

theorem resume_free (h : c.locked = false) : (c.smtaudioResume env).Free := by
  unfold smtaudioResume
  rw [free_checked_iff h, lock_free h]
  intro _
  dsimp only
  split
  · exact free_unlock _ _
  · exact free_unlock _ _

/-- A question about anything but the music returns with the mutex. -/
theorem info_free_iff (h : c.locked = false) (type : Int) :
    (c.smtaudioInfo env type).Free ↔ ApiCall.Safe env c (.info type) := by
  unfold smtaudioInfo ApiCall.Safe
  rw [free_checked_iff h, lock_free h]
  refine forall_congr' fun _ => ?_
  dsimp only
  by_cases hmusic : type = smtaudioOnlineMusic
  · rw [if_pos hmusic]
    exact iff_of_true (free_unlock _ _) hmusic
  · rw [if_neg hmusic, free_returned]
    exact iff_of_false (fun hfree => Bool.noConfusion hfree) hmusic

theorem run_free_iff (h : c.locked = false) : (call.run env c).Free ↔ call.Safe env c := by
  cases call with
  | start type url seekTime flag => exact start_free_iff h type url seekTime flag
  | pause => exact pause_free_iff h
  | stop type => exact iff_of_true (stop_free h type) trivial
  | mute => exact iff_of_true (mute_free h) trivial
  | resume => exact iff_of_true (resume_free h) trivial
  | info type => exact info_free_iff h type

/-- In a sequence of calls every one returns with the mutex free just when every one is safe. -/
theorem all_free_iff (c : SmtaudioCtx) (events : List AudioEvent) (h : c.locked = false) :
    AllFree c events ↔ AllSafe c events := by
  induction events generalizing c with
  | nil => exact Iff.rfl
  | cons e events ih =>
    cases e with
    | between lpmFlag audio => exact ih _ h
    | call env call =>
      constructor
      · rintro ⟨c', ret, hrun, hfree, hrest⟩
        refine ⟨(run_free_iff h).mp ⟨c', ret, hrun, hfree⟩, fun c'' ret' hrun' => ?_⟩
        rw [hrun] at hrun'
        cases hrun'
        exact (ih c' hfree).mp hrest
      · rintro ⟨hsafe, hrest⟩
        obtain ⟨c', ret, hrun, hfree⟩ := (run_free_iff h).mpr hsafe
        exact ⟨c', ret, hrun, hfree, (ih c' hfree).mpr (hrest c' ret hrun)⟩

/-- A controller without any source. -/
def idleCtx : SmtaudioCtx := ⟨true, false, false, SmartAudio.init []⟩

/-- Memory throughout, and players that do nothing. -/
def quietSurroundings : Surroundings := ⟨fun _ => true, true, fun _ audio => (audio, 0),
  fun _ audio => (audio, 0)⟩

theorem all_free_iff_idle : AllFree idleCtx
    [.call quietSurroundings (.info 0), .call quietSurroundings .mute] := by
  refine (all_free_iff idleCtx _ rfl).mpr ⟨fun _ => rfl, fun _ _ _ => ?_⟩
  exact ⟨trivial, fun _ _ _ => trivial⟩

/-- After a question about the local player, the next call waits for ever. -/
theorem info_keeps_mutex :
    ¬ ∀ c : SmtaudioCtx, c.locked = false → ∀ events, AllFree c events := by
  intro hall
  obtain ⟨c', ret, hrun, hfree, -⟩ := hall idleCtx rfl [.call quietSurroundings (.info 1)]
  cases hrun
  cases hfree

end BouffaloSdk.Multimedia
