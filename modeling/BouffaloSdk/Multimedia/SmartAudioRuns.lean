import BouffaloSdk.Kit.Runs
import BouffaloSdk.Multimedia.SmartAudio

/-!
# What holds while sources take turns

The two lists keep their order and never hold anything at the same time. An entry that
waits to go on leaves its list when the source it waits for stops or pauses, or when a
later entry or a user's call takes its place. One source at most plays once all is
answered, as long as every start that is handled silences the one other source that
plays, or itself.
-/

namespace BouffaloSdk.Multimedia.SmartAudio
open Kit.Ranked Kit.Runs

/-- Sources as they register, each id once. -/
structure Sources where
  nodes : List SmtaudioOpsNode
  distinct : OncePer (·.id) nodes

/-- The source that a call tells to go on. -/
def resumedBy : PlayerCall → Option Int
  | .resume id => some id
  | _ => none

/-- The sources told to go on, in order. -/
def resumes (sa : SmartAudio) : List Int := sa.calls.filterMap resumedBy

/-- The answer that the task handles in this step. -/
def handled (sa : SmartAudio) : Event → Option (Int × SmtaudioPlayerEvtid)
  | .task => sa.queue.head?
  | _ => none

/-- The step handles the stop or the pause of a source, after which one that waits for it
may go on. -/
def Ends (sa : SmartAudio) (e : Event) (type : Int) : Prop :=
  sa.handled e = some (type, .stop) ∨ sa.handled e = some (type, .pause)

/-- An entry that waits for `type`, and may go on after it. -/
def Waits (sa : SmartAudio) (type : Int) (node : SmtaudioResumeListNode) : Prop :=
  node ∈ sa.resumeList ∧ node.interruptReason = type ∧ sa.smtaudioResumeState type = true

/-! ## What is asked of a step -/

structure ListsKept (sa : SmartAudio) : Prop where
  delaySorted : Sorted (·.prio) sa.delayList
  resumeSorted : Sorted (·.prio) sa.resumeList
  resumeOnce : OncePer (·.id) sa.resumeList
  exclusive : sa.delayList = [] ∨ sa.resumeList = []

/-- The source of the entry is told to go on, nobody else is, and only the entry leaves. -/
def GoesOn (sa sa' : SmartAudio) (node : SmtaudioResumeListNode) : Prop :=
  sa'.resumes = sa.resumes ++ [node.id] ∧
    ∀ m, m ∈ sa'.resumeList ↔ m ∈ sa.resumeList ∧ m ≠ node

/-- Nobody is told to go on, and the list stays. -/
def NoneGoesOn (sa sa' : SmartAudio) : Prop :=
  sa'.resumes = sa.resumes ∧ sa'.resumeList = sa.resumeList

/-- The entry of the smallest priority number that waits for the source goes on. -/
def ResumesFirst (sa sa' : SmartAudio) (type : Int) : Prop :=
  ∃ node, sa.Waits type node ∧ (∀ m, sa.Waits type m → node.prio ≤ m.prio) ∧ GoesOn sa sa' node

/-- An entry that is gone has made way for a newer one of its source, or the whole list
for one on the other list. -/
def Replaced (sa sa' : SmartAudio) : Prop :=
  ∀ node ∈ sa.resumeList, node ∈ sa'.resumeList ∨ (∃ m ∈ sa'.resumeList, m.id = node.id) ∨
    sa'.delayList ≠ []

/-- Who goes on, and what becomes of those that wait. A player that failed is left out. -/
structure ResumedInTurn (sa : SmartAudio) (e : Event) (sa' : SmartAudio) : Prop where
  ended : ∀ type, sa.Ends e type → (∃ node, sa.Waits type node) → ResumesFirst sa sa' type
  idle : ∀ type, sa.Ends e type → (¬ ∃ node, sa.Waits type node) →
    NoneGoesOn sa sa'
  byUser : ∀ answer, e = .resume answer →
    NoneGoesOn sa sa' ∨ ∃ node ∈ sa.resumeList, GoesOn sa sa' node
  other : (∀ type, ¬ sa.Ends e type) → (∀ type, sa.handled e ≠ some (type, .error)) →
    (∀ answer, e ≠ .resume answer) →
    sa'.resumes = sa.resumes ∧ (e ≠ .pause → Replaced sa sa')

def Arbitrated (sa : SmartAudio) (e : Event) (sa' : SmartAudio) : Prop :=
  ListsKept sa' ∧ ResumedInTurn sa e sa'

/-- A source plays and nobody has asked it to pause. -/
def Live (sa : SmartAudio) (id : Int) : Prop := sa.status id = .playing ∧ id ∉ sa.asked

def OnePlaying (_ : SmartAudio) (_ : Event) (sa' : SmartAudio) : Prop :=
  sa'.queue = [] → sa'.asked = [] → ∀ a ∈ sa'.ctrlList, ∀ b ∈ sa'.ctrlList,
    sa'.status a.id = .playing → sa'.status b.id = .playing → a.id = b.id

/-- The start that is handled pauses its own source, or the other one that plays. -/
def Silences (sa : SmartAudio) (type : Int) (node : SmtaudioOpsNode) (other : Int) : Prop :=
  type ∈ sa.asked ∨ sa.curState ≠ subState type .playing ∧
    (sa.curState = smtaudioSubstateMute ∨
      ∃ first, sa.firstOtherPlaying type = some first ∧
        (first.prio < node.prio ∨ first.id = other))

def StartSilences (sa : SmartAudio) (e : Event) (_ : SmartAudio) : Prop :=
  ∀ type node, sa.handled e = some (type, .start) ∨ sa.handled e = some (type, .resume) →
    sa.getSmtaudioCtrlOpsById type = some node →
    ∀ a ∈ sa.ctrlList, sa.Live a.id → a.id ≠ type → Silences sa type node a.id

/-- `node` has to wait while `first` plays. -/
def waitsFor : Option SmtaudioOpsNode → Option SmtaudioOpsNode → Option (Int × Int)
  | some node, some first => if first.prio < node.prio then some (node.id, first.id) else none
  | _, _ => none

def putOffByStart (sa : SmartAudio) (type : Int) : Option (Int × Int) :=
  if sa.curState = smtaudioSubstateMute ∨ type < 0 ∨ smtaudioPlayTypeNum ≤ type then none
  else waitsFor (sa.getSmtaudioCtrlOpsById type) sa.findFirstPlayingAudio

def putOffByTask (sa : SmartAudio) (type : Int) : Option (Int × Int) :=
  if sa.curState = subState type .playing ∨ sa.curState = smtaudioSubstateMute then none
  else waitsFor (sa.getSmtaudioCtrlOpsById type) (sa.firstOtherPlaying type)

/-- The source that the step makes wait, and the one it waits for. -/
def putOff (sa : SmartAudio) (e : Event) : Option (Int × Int) :=
  match e with
  | .start type _ _ _ _ => sa.putOffByStart type
  | e =>
    match sa.handled e with
    | some (type, .start) | some (type, .resume) => sa.putOffByTask type
    | _ => none

def DelayOnce (_ : SmartAudio) (_ : Event) (sa' : SmartAudio) : Prop :=
  OncePer (·.id) sa'.delayList

/-- A source that waits already is the first entry that its new one would replace. -/
def ReplacesOwn (sa : SmartAudio) (e : Event) (_ : SmartAudio) : Prop :=
  ∀ id reason, sa.putOff e = some (id, reason) → ∀ tmp,
    sa.delayList.find? (fun tmp => tmp.delayReason == reason || tmp.id == id) = some tmp →
    tmp.id ≠ id → ∀ other ∈ sa.delayList, other.id ≠ id

variable {sa sa' : SmartAudio} {type : Int} {node first : SmtaudioOpsNode} {e : Event}
  {state : SmtaudioState}

/-! ## What a call can do -/

/-- How a source that starts meets those that play already. -/
inductive Contends (sa : SmartAudio) (type : Int) (node : SmtaudioOpsNode) : SmartAudio → Prop
  | already : sa.curState = subState type .playing → Contends sa type node sa
  | muted : sa.curState ≠ subState type .playing → sa.curState = smtaudioSubstateMute →
      Contends sa type node (sa.callPause node)
  | alone : sa.curState ≠ subState type .playing → sa.curState ≠ smtaudioSubstateMute →
      sa.firstOtherPlaying type = none →
      Contends sa type node (sa.switchState sa.curState (subState type .playing))
  | putOff {other} : sa.curState ≠ subState type .playing → sa.curState ≠ smtaudioSubstateMute →
      sa.firstOtherPlaying type = some other → other.prio < node.prio →
      Contends sa type node ((sa.callPause node).smtaudioDelayListInsert
        { id := node.id, prio := node.prio, seekTime := 0, url := none, delayReason := other.id,
          valid := true })
  | interrupts {other} : sa.curState ≠ subState type .playing →
      sa.curState ≠ smtaudioSubstateMute → sa.firstOtherPlaying type = some other →
      node.prio < other.prio →
      Contends sa type node (((sa.callPause other).smtaudioResumeListInsert
        { id := other.id, prio := other.prio, interruptReason := type, valid := true }).switchState
          sa.curState (subState type .playing))
  | replaces {other} : sa.curState ≠ subState type .playing →
      sa.curState ≠ smtaudioSubstateMute → sa.firstOtherPlaying type = some other →
      node.prio = other.prio →
      Contends sa type node ((sa.callPause other).switchState sa.curState (subState type .playing))

theorem smtaudioChangeState_playing (hnode : sa.getSmtaudioCtrlOpsById type = some node) :
    Contends sa type node (sa.smtaudioChangeState .playing type) := by
  unfold smtaudioChangeState
  by_cases hcur : sa.curState = subState type .playing
  · rw [if_pos hcur]
    exact .already hcur
  · rw [if_neg hcur, hnode]
    dsimp only
    rw [if_pos rfl]
    by_cases hmute : sa.curState = smtaudioSubstateMute
    · rw [if_pos hmute]
      exact .muted hcur hmute
    · rw [if_neg hmute]
      cases hfirst : sa.firstOtherPlaying type with
      | none => exact .alone hcur hmute hfirst
      | some first =>
        dsimp only
        by_cases hlt : first.prio < node.prio
        · rw [if_pos hlt]
          exact .putOff hcur hmute hfirst hlt
        · rw [if_neg hlt]
          by_cases hgt : node.prio < first.prio
          · rw [if_pos hgt]
            exact .interrupts hcur hmute hfirst hgt
          · rw [if_neg hgt]
            exact .replaces hcur hmute hfirst (by omega)

/-- A pause or a stop only moves the state. -/
theorem smtaudioChangeState_ended (hstate : state ≠ .playing) :
    ∃ cur last, sa.smtaudioChangeState state type =
      { sa with curState := cur, lastState := last } := by
  unfold smtaudioChangeState switchState
  cases sa.getSmtaudioCtrlOpsById type with
  | none =>
    split
    · exact ⟨_, _, rfl⟩
    · exact ⟨_, _, rfl⟩
  | some node =>
    dsimp only
    rw [if_neg hstate]
    split
    · exact ⟨_, _, rfl⟩
    · split
      · exact ⟨_, _, rfl⟩
      · exact ⟨_, _, rfl⟩

/-- What a user's start does: nothing, the source waits, or it starts after the first one
that plays is paused. -/
inductive Starts (sa : SmartAudio) (type : Int) (c : Int → PlayerCall) (flag : UInt8) :
    Option (Int × Int) → SmartAudio → Prop
  | refused : Starts sa type c flag none sa
  | putOff {node other : SmtaudioOpsNode} {url seekTime} : Starts sa type c flag (some (node.id, other.id))
      (sa.smtaudioDelayListInsert
        { id := node.id, prio := node.prio, seekTime, url, delayReason := other.id, valid := true })
  | alone {id} : Starts sa type c flag none { sa.call (c id) with resumeFlag := flag }
  | interrupts {id other} : sa.findFirstPlayingAudio = some other →
      Starts sa type c flag none
        { ((sa.callPause other).smtaudioResumeListInsert
            { id := other.id, prio := other.prio, interruptReason := type,
              valid := true }).call (c id) with resumeFlag := flag }
  | replaces {id other} : sa.findFirstPlayingAudio = some other →
      Starts sa type c flag none { (sa.callPause other).call (c id) with resumeFlag := flag }

theorem smtaudioStart_cases (sa : SmartAudio) (type : Int) (url : String) (seekTime : BitVec 64)
    (resume : UInt8) (answer : Int) :
    Starts sa type (.start · (some url) seekTime resume.toNat) resume
      (sa.putOffByStart type) (sa.smtaudioStart type url seekTime resume answer).1 := by
  unfold smtaudioStart putOffByStart waitsFor
  by_cases hmute : sa.curState = smtaudioSubstateMute
  · rw [if_pos hmute, if_pos (.inl hmute)]
    exact .refused
  · rw [if_neg hmute]
    by_cases htype : type < 0 ∨ smtaudioPlayTypeNum ≤ type
    · rw [if_pos htype, if_pos (.inr htype)]
      exact .refused
    · have hplays : ¬ (sa.curState = smtaudioSubstateMute ∨ type < 0 ∨
          smtaudioPlayTypeNum ≤ type) := not_or.mpr ⟨hmute, htype⟩
      rw [if_neg htype, if_neg hplays]
      cases sa.getSmtaudioCtrlOpsById type with
      | none => exact .refused
      | some node =>
        cases hfirst : sa.findFirstPlayingAudio with
        | none => exact .alone
        | some first =>
          dsimp only
          by_cases hlt : first.prio < node.prio
          · rw [if_pos hlt, if_pos hlt]
            exact .putOff
          · rw [if_neg hlt, if_neg hlt]
            by_cases hgt : node.prio < first.prio
            · rw [if_pos hgt]
              exact .interrupts hfirst
            · rw [if_neg hgt]
              exact .replaces hfirst

/-! ## What becomes of the lists -/

/-- A step that starts a source, or none. -/
inductive ListStep (sa sa' : SmartAudio) : Option (Int × Int) → Prop
  | same : sa'.delayList = sa.delayList → sa'.resumeList = sa.resumeList → ListStep sa sa' none
  | waits (node : SmtaudioDelayListNode) : sa'.resumeList = [] →
      sa'.delayList = enter (·.prio) node (sa.delayList.eraseP (delayMatches node)) →
      ListStep sa sa' (some (node.id, node.delayReason))
  | interrupted (node : SmtaudioResumeListNode) : node.valid = true →
      (∃ source ∈ sa.ctrlList, source.id = node.id) → sa'.delayList = [] →
      sa'.resumeList = enter (·.prio) node (sa.resumeList.eraseP (·.id == node.id)) →
      ListStep sa sa' none

/-- The lists are in order, and what waits to go on is a registered source. -/
structure Kept (sa : SmartAudio) : Prop extends ListsKept sa where
  registered : ∀ node ∈ sa.resumeList, ∃ source ∈ sa.ctrlList, source.id = node.id
  valid : ∀ node ∈ sa.resumeList, node.valid = true

theorem Kept.listStep {put : Option (Int × Int)} (h : Kept sa) (hstep : ListStep sa sa' put)
    (hctrl : sa'.ctrlList = sa.ctrlList) : Kept sa' := by
  cases hstep with
  | same hd hr =>
    obtain ⟨⟨hds, hrs, hro, hex⟩, hreg, hval⟩ := h
    refine ⟨⟨?_, ?_, ?_, ?_⟩, ?_, ?_⟩
    · exact hd ▸ hds
    · exact hr ▸ hrs
    · exact hr ▸ hro
    · rw [hd, hr]
      exact hex
    · rw [hr, hctrl]
      exact hreg
    · exact hr ▸ hval
  | waits node hr hd =>
    refine ⟨⟨?_, ?_, ?_, .inr hr⟩, ?_, ?_⟩
    · rw [hd]
      exact (h.delaySorted.sublist List.eraseP_sublist).enter
    · exact hr ▸ sorted_nil
    · exact hr ▸ oncePer_nil
    · rw [hr]
      exact fun _ hin => absurd hin List.not_mem_nil
    · rw [hr]
      exact fun _ hin => absurd hin List.not_mem_nil
  | interrupted node hvalid hsource hd hr =>
    refine ⟨⟨hd ▸ sorted_nil, ?_, ?_, .inl hd⟩, ?_, ?_⟩
    · rw [hr]
      exact (h.resumeSorted.sublist List.eraseP_sublist).enter
    · rw [hr]
      exact h.resumeOnce.replace fun b => beq_iff_eq
    · rw [hr, hctrl]
      intro m hm
      cases mem_enter.mp hm with
      | inl heq => exact heq ▸ hsource
      | inr hin => exact h.registered m (List.mem_of_mem_eraseP hin)
    · rw [hr]
      intro m hm
      cases mem_enter.mp hm with
      | inl heq => exact heq ▸ hvalid
      | inr hin => exact h.valid m (List.mem_of_mem_eraseP hin)

/-- What such a step takes off the list has made way. -/
theorem ListStep.replaced {put : Option (Int × Int)} (hstep : ListStep sa sa' put) :
    Replaced sa sa' := by
  intro m hm
  cases hstep with
  | same hd hr => exact .inl (hr ▸ hm)
  | waits node hr hd =>
    refine .inr (.inr ?_)
    rw [hd]
    exact enter_ne_nil
  | interrupted node hvalid hsource hd hr =>
    by_cases heq : m.id = node.id
    · exact .inr (.inl ⟨node, by rw [hr]; exact mem_enter.mpr (.inl rfl), heq.symm⟩)
    · refine .inl ?_
      rw [hr]
      refine mem_enter.mpr (.inr ((List.mem_eraseP_of_neg ?_).mpr hm))
      simpa using heq

/-- The delay list holds each source once exactly if the new entry replaces the old one. -/
theorem ListStep.delayOnce {put : Option (Int × Int)} (hstep : ListStep sa sa' put)
    (honce : OncePer (·.id) sa.delayList) :
    OncePer (·.id) sa'.delayList ↔
      ∀ id reason, put = some (id, reason) → ∀ tmp,
        sa.delayList.find? (fun tmp => tmp.delayReason == reason || tmp.id == id) = some tmp →
        tmp.id ≠ id → ∀ other ∈ sa.delayList, other.id ≠ id := by
  cases hstep with
  | same hd hr =>
    rw [hd]
    exact iff_of_true honce (by simp)
  | interrupted node hvalid hsource hd hr =>
    rw [hd]
    exact iff_of_true oncePer_nil (by simp)
  | waits node hr hd =>
    have hmatch : ∀ b ∈ sa.delayList, b.id = node.id → delayMatches node b := by
      intro b _ heq
      simp [delayMatches, heq]
    have habsent := absent_eraseP_iff honce hmatch
    rw [hd, oncePer_enter_iff, habsent]
    constructor
    · rintro ⟨hfirst, -⟩ id reason ⟨⟩ tmp htmp
      exact hfirst tmp htmp
    · intro hfirst
      exact ⟨fun tmp htmp => hfirst _ _ rfl tmp htmp, honce.sublist List.eraseP_sublist⟩

theorem findFirstPlayingAudio_mem (h : sa.findFirstPlayingAudio = some first) :
    first ∈ sa.ctrlList :=
  List.mem_of_find?_eq_some h

theorem firstOtherPlaying_mem (h : sa.firstOtherPlaying type = some first) :
    first ∈ sa.ctrlList :=
  List.mem_of_find?_eq_some h

theorem getSmtaudioCtrlOpsById_id (h : sa.getSmtaudioCtrlOpsById type = some node) :
    node.id = type := by
  simpa using List.find?_some h

theorem switchState_fields (sa : SmartAudio) (oldState newState : Int) :
    ∃ cur last, sa.switchState oldState newState =
      { sa with curState := cur, lastState := last } := by
  unfold switchState
  split
  · exact ⟨_, _, rfl⟩
  · exact ⟨_, _, rfl⟩

@[simp] theorem resumes_callPause : (sa.callPause node).resumes = sa.resumes := by
  simp [resumes, callPause, resumedBy]

@[simp] theorem resumes_callStop : (sa.callStop node).resumes = sa.resumes := by
  simp [resumes, callStop, resumedBy]

theorem resumes_call (c : PlayerCall) :
    (sa.call c).resumes = sa.resumes ++ (resumedBy c).toList := by
  cases c <;> simp [resumes, call, resumedBy]

section Start
variable {c : Int → PlayerCall} {flag : UInt8} {put : Option (Int × Int)}

theorem Starts.listStep (h : Starts sa type c flag put sa') : ListStep sa sa' put := by
  cases h with
  | refused => exact .same rfl rfl
  | @putOff node other url seekTime =>
    exact .waits
      { id := node.id, prio := node.prio, seekTime, url, delayReason := other.id, valid := true }
      rfl rfl
  | alone => exact .same rfl rfl
  | interrupts hother =>
    exact .interrupted _ rfl ⟨_, findFirstPlayingAudio_mem hother, rfl⟩ rfl rfl
  | replaces => exact .same rfl rfl

theorem Starts.ctrlList (h : Starts sa type c flag put sa') : sa'.ctrlList = sa.ctrlList := by
  cases h <;> rfl

theorem Starts.resumes (h : Starts sa type c flag put sa')
    (hc : ∀ id, resumedBy (c id) = none) : sa'.resumes = sa.resumes := by
  have hcall : ∀ (sa : SmartAudio) id, (sa.call (c id)).resumes = sa.resumes := by
    intro sa id
    rw [resumes_call, hc]
    exact List.append_nil _
  cases h with
  | refused => rfl
  | putOff => rfl
  | alone => exact hcall _ _
  | interrupts => exact (hcall _ _).trans resumes_callPause
  | replaces => exact (hcall _ _).trans resumes_callPause

end Start

theorem waitsFor_some : waitsFor (some node) (some first) =
    if first.prio < node.prio then some (node.id, first.id) else none := rfl

theorem Contends.listStep (h : Contends sa type node sa') :
    ListStep sa sa' (if sa.curState = subState type .playing ∨ sa.curState = smtaudioSubstateMute
      then none else waitsFor (some node) (sa.firstOtherPlaying type)) := by
  cases h with
  | already hcur =>
    rw [if_pos (.inl hcur)]
    exact .same rfl rfl
  | muted hcur hmute =>
    rw [if_pos (.inr hmute)]
    exact .same rfl rfl
  | alone hcur hmute hother =>
    obtain ⟨cur, last, heq⟩ := switchState_fields sa sa.curState (subState type .playing)
    rw [if_neg (not_or.mpr ⟨hcur, hmute⟩), hother, heq]
    exact .same rfl rfl
  | @putOff other hcur hmute hother hlt =>
    rw [if_neg (not_or.mpr ⟨hcur, hmute⟩), hother, waitsFor_some, if_pos hlt]
    exact .waits
      { id := node.id, prio := node.prio, seekTime := 0, url := none, delayReason := other.id,
        valid := true }
      rfl rfl
  | @interrupts other hcur hmute hother hgt =>
    obtain ⟨cur, last, heq⟩ := switchState_fields ((sa.callPause other).smtaudioResumeListInsert
      { id := other.id, prio := other.prio, interruptReason := type, valid := true })
      sa.curState (subState type .playing)
    rw [if_neg (not_or.mpr ⟨hcur, hmute⟩), hother, waitsFor_some,
      if_neg (Int.not_lt.mpr hgt.le), heq]
    exact .interrupted _ rfl ⟨_, firstOtherPlaying_mem hother, rfl⟩ rfl rfl
  | @replaces other hcur hmute hother hprio =>
    obtain ⟨cur, last, heq⟩ :=
      switchState_fields (sa.callPause other) sa.curState (subState type .playing)
    rw [if_neg (not_or.mpr ⟨hcur, hmute⟩), hother, waitsFor_some,
      if_neg (Int.not_lt.mpr hprio.le), heq]
    exact .same rfl rfl

theorem Contends.ctrlList (h : Contends sa type node sa') : sa'.ctrlList = sa.ctrlList := by
  cases h with
  | already => rfl
  | muted => rfl
  | putOff => rfl
  | _ =>
    unfold switchState
    split <;> rfl

theorem Contends.resumes (h : Contends sa type node sa') : sa'.resumes = sa.resumes := by
  have hswitch : ∀ (sa : SmartAudio) old new, (sa.switchState old new).resumes = sa.resumes := by
    intro sa old new
    obtain ⟨cur, last, heq⟩ := switchState_fields sa old new
    rw [heq]
    rfl
  cases h with
  | already => rfl
  | muted => exact resumes_callPause
  | alone => exact hswitch _ _ _
  | putOff => exact resumes_callPause
  | interrupts => exact (hswitch _ _ _).trans resumes_callPause
  | replaces => exact (hswitch _ _ _).trans resumes_callPause

/-! ## Who is live -/

theorem live_callPause {id : Int} (h : (sa.callPause node).Live id) :
    sa.Live id ∧ id ≠ node.id := by
  obtain ⟨hstatus, hasked⟩ := h
  obtain ⟨hne, hnot⟩ := not_or.mp (mt List.mem_cons.mpr hasked)
  refine ⟨⟨?_, hnot⟩, hne⟩
  simp only [callPause] at hstatus
  split at hstatus
  · rwa [Function.update_of_ne hne] at hstatus
  · exact hstatus

theorem live_callStop {id : Int} (h : (sa.callStop node).Live id) : sa.Live id := by
  obtain ⟨hstatus, hasked⟩ := h
  refine ⟨?_, hasked⟩
  simp only [callStop] at hstatus
  split at hstatus
  · by_cases heq : id = node.id
    · rw [heq, Function.update_self] at hstatus
      cases hstatus
    · rwa [Function.update_of_ne heq] at hstatus
  · exact hstatus

theorem live_switchState {id oldState newState : Int}
    (h : (sa.switchState oldState newState).Live id) : sa.Live id := by
  obtain ⟨cur, last, heq⟩ := switchState_fields sa oldState newState
  rw [heq] at h
  exact h

theorem Starts.live {c : Int → PlayerCall} {flag : UInt8} {put : Option (Int × Int)} {id : Int}
    (h : Starts sa type c flag put sa') (hlive : sa'.Live id) : sa.Live id := by
  cases h with
  | refused => exact hlive
  | putOff => exact hlive
  | alone => exact hlive
  | @interrupts _ other =>
    have hpaused : (sa.callPause other).Live id := hlive
    exact (live_callPause hpaused).1
  | @replaces _ other =>
    have hpaused : (sa.callPause other).Live id := hlive
    exact (live_callPause hpaused).1

/-- Whoever is live after a start was live, and is not the source it pauses. -/
theorem Contends.live {id : Int} (h : Contends sa type node sa') (hlive : sa'.Live id) :
    sa.Live id ∧ (sa.curState ≠ subState type .playing →
      (sa.curState = smtaudioSubstateMute → id ≠ node.id) ∧
      (sa.curState ≠ smtaudioSubstateMute → ∀ other, sa.firstOtherPlaying type = some other →
        if other.prio < node.prio then id ≠ node.id else id ≠ other.id)) := by
  cases h with
  | already hcur => exact ⟨hlive, fun hne => absurd hcur hne⟩
  | muted hcur hmute =>
    obtain ⟨hwas, hne⟩ := live_callPause hlive
    exact ⟨hwas, fun _ => ⟨fun _ => hne, fun hnot => absurd hmute hnot⟩⟩
  | alone hcur hmute hother =>
    refine ⟨live_switchState hlive, fun _ => ⟨fun hm => absurd hm hmute, fun _ other hsome => ?_⟩⟩
    rw [hother] at hsome
    cases hsome
  | putOff hcur hmute hother hlt =>
    have hpaused : (sa.callPause node).Live id := hlive
    obtain ⟨hwas, hne⟩ := live_callPause hpaused
    refine ⟨hwas, fun _ => ⟨fun _ => hne, fun _ other hsome => ?_⟩⟩
    cases hother.symm.trans hsome
    rw [if_pos hlt]
    exact hne
  | @interrupts other hcur hmute hother hgt =>
    have hinserted := live_switchState hlive
    have hpaused : (sa.callPause other).Live id := hinserted
    obtain ⟨hwas, hne⟩ := live_callPause hpaused
    refine ⟨hwas, fun _ => ⟨fun hm => absurd hm hmute, fun _ other hsome => ?_⟩⟩
    cases hother.symm.trans hsome
    rw [if_neg (Int.not_lt.mpr hgt.le)]
    exact hne
  | replaces hcur hmute hother hprio =>
    obtain ⟨hwas, hne⟩ := live_callPause (live_switchState hlive)
    refine ⟨hwas, fun _ => ⟨fun hm => absurd hm hmute, fun _ other hsome => ?_⟩⟩
    cases hother.symm.trans hsome
    rw [if_neg (Int.not_lt.mpr hprio.le)]
    exact hne

/-! ## What goes on after a source has ended -/

theorem getSmtaudioCtrlOpsById_isSome {id : Int} (h : ∃ source ∈ sa.ctrlList, source.id = id) :
    ∃ source, sa.getSmtaudioCtrlOpsById id = some source ∧ source.id = id := by
  obtain ⟨source, hin, rfl⟩ := h
  cases hfind : sa.getSmtaudioCtrlOpsById source.id with
  | none =>
    have hnot := List.find?_eq_none.mp hfind source hin
    simp at hnot
  | some found => exact ⟨found, rfl, getSmtaudioCtrlOpsById_id hfind⟩

theorem resumeWaits_iff (h : Kept sa) {m : SmtaudioResumeListNode} (hm : m ∈ sa.resumeList) :
    sa.resumeWaits type m = true ↔ sa.Waits type m := by
  unfold resumeWaits Waits
  simp only [Bool.and_eq_true, beq_iff_eq]
  constructor
  · rintro ⟨⟨rfl, -⟩, hstate⟩
    exact ⟨hm, rfl, hstate⟩
  · rintro ⟨-, rfl, hstate⟩
    exact ⟨⟨rfl, h.valid m hm⟩, hstate⟩

theorem readyNext_resumes (h : Kept sa) (hwaits : ∃ m, sa.Waits type m) :
    ResumesFirst sa (sa.readyNext type) type := by
  obtain ⟨m, hm⟩ := hwaits
  have hne : sa.resumeList ≠ [] := List.ne_nil_of_mem hm.1
  unfold readyNext
  rw [if_pos hne]
  cases hfind : sa.resumeList.find? (sa.resumeWaits type) with
  | none =>
    have hnot := List.find?_eq_none.mp hfind m hm.1
    exact absurd ((resumeWaits_iff h hm.1).mpr hm) hnot
  | some first =>
    have hin : first ∈ sa.resumeList := List.mem_of_find?_eq_some hfind
    obtain ⟨hfirst, before, after, hl, hbefore, -⟩ := first_match hfind
    obtain ⟨source, hsource, hid⟩ := getSmtaudioCtrlOpsById_isSome (h.registered first hin)
    dsimp only
    rw [hsource]
    refine ⟨first, (resumeWaits_iff h hin).mp hfirst, fun other hother => ?_, ?_, fun other =>
      h.resumeOnce.mem_eraseP_iff hfind⟩
    · refine (hl ▸ h.resumeSorted).first_le hbefore (hl ▸ hother.1) ?_
      exact (resumeWaits_iff h hother.1).mpr hother
    · rw [resumes_call, hid]
      rfl

theorem readyNext_idle (h : Kept sa) (hnone : ¬ ∃ m, sa.Waits type m) :
    NoneGoesOn sa (sa.readyNext type) := by
  unfold readyNext
  by_cases hne : sa.resumeList ≠ []
  · rw [if_pos hne]
    cases hfind : sa.resumeList.find? (sa.resumeWaits type) with
    | none => exact ⟨rfl, rfl⟩
    | some first =>
      have hin : first ∈ sa.resumeList := List.mem_of_find?_eq_some hfind
      exact absurd ⟨first, (resumeWaits_iff h hin).mp (List.find?_some hfind)⟩ hnone
  · rw [if_neg hne]
    cases sa.delayList.find? (sa.delayWaits type) with
    | none => exact ⟨rfl, rfl⟩
    | some first =>
      dsimp only
      cases sa.getSmtaudioCtrlOpsById first.id with
      | none => exact ⟨rfl, rfl⟩
      | some source =>
        refine ⟨?_, rfl⟩
        rw [resumes_call]
        exact List.append_nil _

/-- Taking an entry off one of the lists changes nothing else. -/
theorem readyNext_fields (sa : SmartAudio) (type : Int) :
    ∃ delayList resumeList calls, sa.readyNext type = { sa with delayList, resumeList, calls } ∧
      delayList.Sublist sa.delayList ∧ resumeList.Sublist sa.resumeList := by
  unfold readyNext
  split
  · split
    · exact ⟨_, _, _, rfl, List.Sublist.refl _, List.Sublist.refl _⟩
    · dsimp only
      split
      · exact ⟨_, _, _, rfl, List.Sublist.refl _, List.eraseP_sublist⟩
      · exact ⟨_, _, _, rfl, List.Sublist.refl _, List.eraseP_sublist⟩
  · split
    · exact ⟨_, _, _, rfl, List.Sublist.refl _, List.Sublist.refl _⟩
    · dsimp only
      split
      · exact ⟨_, _, _, rfl, List.eraseP_sublist, List.Sublist.refl _⟩
      · exact ⟨_, _, _, rfl, List.eraseP_sublist, List.Sublist.refl _⟩

/-- Lists that only lose entries stay as they should be. -/
theorem Kept.sublist (h : Kept sa) (hctrl : sa'.ctrlList = sa.ctrlList)
    (hd : sa'.delayList.Sublist sa.delayList) (hr : sa'.resumeList.Sublist sa.resumeList) :
    Kept sa' where
  delaySorted := h.delaySorted.sublist hd
  resumeSorted := h.resumeSorted.sublist hr
  resumeOnce := h.resumeOnce.sublist hr
  exclusive := by
    cases h.exclusive with
    | inl hnil =>
      rw [hnil] at hd
      exact .inl (List.sublist_nil.mp hd)
    | inr hnil =>
      rw [hnil] at hr
      exact .inr (List.sublist_nil.mp hr)
  registered m hm := hctrl ▸ h.registered m (hr.subset hm)
  valid m hm := h.valid m (hr.subset hm)

/-! ## One step -/

/-- The new status of a source does not matter to the search for another. -/
theorem firstOtherPlaying_setStatus (sa : SmartAudio) (type : Int) (state : SmtaudioState) :
    (sa.setStatus type state).firstOtherPlaying type = sa.firstOtherPlaying type := by
  unfold firstOtherPlaying setStatus
  congr 1
  funext tmp
  by_cases heq : tmp.id = type
  · simp [heq]
  · simp [Function.update_of_ne heq]

/-- The lists, the sources and what was resumed are as before. -/
structure SameLists (sa sa' : SmartAudio) : Prop where
  ctrlList : sa'.ctrlList = sa.ctrlList
  delayList : sa'.delayList = sa.delayList
  resumeList : sa'.resumeList = sa.resumeList
  resumes : sa'.resumes = sa.resumes

theorem SameLists.refl (sa : SmartAudio) : SameLists sa sa := ⟨rfl, rfl, rfl, rfl⟩

theorem SameLists.trans {sb : SmartAudio} (h : SameLists sa sb) (h' : SameLists sb sa') :
    SameLists sa sa' :=
  ⟨h'.ctrlList.trans h.ctrlList, h'.delayList.trans h.delayList,
    h'.resumeList.trans h.resumeList, h'.resumes.trans h.resumes⟩

theorem ListStep.of_same {sb : SmartAudio} {put : Option (Int × Int)} (h : SameLists sa sb)
    (hstep : ListStep sb sa' put) : ListStep sa sa' put := by
  obtain ⟨hctrl, hdelay, hresume, -⟩ := h
  cases hstep with
  | same hd hr => exact .same (hd.trans hdelay) (hr.trans hresume)
  | waits node hr hd => exact .waits node hr (hdelay ▸ hd)
  | interrupted node hvalid hsource hd hr =>
    exact .interrupted node hvalid (hctrl ▸ hsource) hd (hresume ▸ hr)

/-- Everything but a user's pause or resume and the end of a source is a start or leaves
the lists alone. -/
structure Quiet (sa : SmartAudio) (e : Event) (sa' : SmartAudio) : Prop where
  lists : ListStep sa sa' (sa.putOff e)
  ctrlList : sa'.ctrlList = sa.ctrlList
  resumes : sa'.resumes = sa.resumes

theorem SameLists.quiet (h : SameLists sa sa') (hput : sa.putOff e = none) : Quiet sa e sa' :=
  ⟨hput ▸ .same h.delayList h.resumeList, h.ctrlList, h.resumes⟩

theorem quiet_start (sa : SmartAudio) (type : Int) (url : String) (seekTime : BitVec 64)
    (resume : UInt8) (answer : Int) :
    Quiet sa (.start type url seekTime resume answer)
      (sa.smtaudioStart type url seekTime resume answer).1 := by
  have hstarts := smtaudioStart_cases sa type url seekTime resume answer
  exact ⟨hstarts.listStep, hstarts.ctrlList, hstarts.resumes fun _ => rfl⟩

theorem sameLists_switchState (oldState newState : Int) :
    SameLists sa (sa.switchState oldState newState) := by
  obtain ⟨cur, last, heq⟩ := switchState_fields sa oldState newState
  rw [heq]
  exact ⟨rfl, rfl, rfl, rfl⟩

theorem sameLists_smtaudioMute (sa : SmartAudio) : SameLists sa sa.smtaudioMute.1 := by
  unfold smtaudioMute
  by_cases hmute : sa.curState ≠ smtaudioSubstateMute
  · rw [if_pos hmute]
    exact sameLists_switchState _ _
  · rw [if_neg hmute]
    cases sa.findFirstPlayingAudio with
    | none => exact sameLists_switchState smtaudioSubstateMute smtaudioSubstateLocalStop
    | some tmp => exact sameLists_switchState smtaudioSubstateMute (subState tmp.id .playing)

theorem sameLists_stopPlaying (tmp : SmtaudioOpsNode) : SameLists sa (sa.stopPlaying tmp) := by
  unfold stopPlaying
  split
  · exact ⟨rfl, rfl, rfl, resumes_callStop⟩
  · exact .refl sa

theorem sameLists_smtaudioStop (sa : SmartAudio) (type : Int) :
    SameLists sa (sa.smtaudioStop type).1 := by
  have hfold : ∀ (l : List SmtaudioOpsNode) (sa : SmartAudio),
      SameLists sa (l.foldl stopPlaying sa) := by
    intro l
    induction l with
    | nil => exact .refl
    | cons tmp l ih => exact fun sa => (sameLists_stopPlaying tmp).trans (ih _)
  unfold smtaudioStop
  split
  · exact hfold _ _
  · split
    · split
      · exact .refl sa
      · exact sameLists_stopPlaying _
    · exact .refl sa

theorem handled_task {queue : List (Int × SmtaudioPlayerEvtid)} {evtId : SmtaudioPlayerEvtid}
    (hqueue : sa.queue = (type, evtId) :: queue) : sa.handled .task = some (type, evtId) := by
  unfold handled
  rw [hqueue]
  rfl

/-- The state in which a start's answer meets the other sources. -/
def starting (sa : SmartAudio) (queue : List (Int × SmtaudioPlayerEvtid)) (type : Int) :
    SmartAudio :=
  { sa with queue := queue }.setStatus type .playing

theorem changeState_unknown (hnode : sa.getSmtaudioCtrlOpsById type = none) :
    sa.smtaudioChangeState state type = sa := by
  unfold smtaudioChangeState
  rw [hnode]
  exact ite_self _

theorem quiet_starting {queue : List (Int × SmtaudioPlayerEvtid)}
    (hput : sa.putOff .task = sa.putOffByTask type) :
    Quiet sa .task ((sa.starting queue type).smtaudioChangeState .playing type) := by
  have hsame : SameLists sa (sa.starting queue type) := ⟨rfl, rfl, rfl, rfl⟩
  unfold putOffByTask at hput
  cases hnode : sa.getSmtaudioCtrlOpsById type with
  | none =>
    have hstays : (sa.starting queue type).smtaudioChangeState .playing type =
        sa.starting queue type := changeState_unknown hnode
    rw [hstays]
    refine hsame.quiet ?_
    rw [hput, hnode]
    exact ite_self _
  | some node =>
    have hcontends : Contends (sa.starting queue type) type node _ :=
      smtaudioChangeState_playing hnode
    have hlists := hcontends.listStep.of_same hsame
    rw [starting, firstOtherPlaying_setStatus] at hlists
    rw [hnode] at hput
    exact ⟨hput ▸ hlists, hcontends.ctrlList, hcontends.resumes⟩

/-- The state in which what waits for a source that stopped or paused is looked up. -/
theorem ended_fields (sa : SmartAudio) (queue : List (Int × SmtaudioPlayerEvtid)) (type : Int)
    (hstate : state ≠ .playing) :
    ∃ cur last, (({ sa with queue := queue }.setStatus type state).answered
        type).smtaudioChangeState state type =
      { sa with
        queue := queue
        status := Function.update sa.status type state
        asked := sa.asked.filter (· ≠ type)
        curState := cur
        lastState := last } :=
  smtaudioChangeState_ended hstate

/-- The task's round for an answer that ends no source's turn. -/
theorem quiet_task {queue : List (Int × SmtaudioPlayerEvtid)} {evtId : SmtaudioPlayerEvtid}
    (hqueue : sa.queue = (type, evtId) :: queue) (hstop : evtId ≠ .stop) (hpause : evtId ≠ .pause) :
    Quiet sa .task ({ sa with queue := queue }.smtaudioEventTask type evtId) := by
  have hhandled := handled_task hqueue
  cases evtId with
  | stop => exact absurd rfl hstop
  | pause => exact absurd rfl hpause
  | start =>
    refine quiet_starting ?_
    simp only [putOff, hhandled]
  | resume =>
    refine quiet_starting ?_
    simp only [putOff, hhandled]
  | error =>
    refine SameLists.quiet ?_ (by simp only [putOff, hhandled])
    have hstate : SmtaudioState.stop ≠ .playing := SmtaudioState.noConfusion
    obtain ⟨cur, last, heq⟩ := ended_fields sa queue type hstate
    unfold smtaudioEventTask
    rw [heq]
    exact ⟨rfl, rfl, rfl, rfl⟩
  | underRun => exact SameLists.quiet ⟨rfl, rfl, rfl, rfl⟩ (by simp only [putOff, hhandled])
  | overRun => exact SameLists.quiet ⟨rfl, rfl, rfl, rfl⟩ (by simp only [putOff, hhandled])

/-- The user's pause puts the sources that play on the resume list. -/
theorem pauseByUser_spec (h : Kept sa) {tmp : SmtaudioOpsNode} (htmp : tmp ∈ sa.ctrlList) :
    Kept (sa.pauseByUser tmp) ∧ (sa.pauseByUser tmp).ctrlList = sa.ctrlList ∧
      (sa.pauseByUser tmp).resumes = sa.resumes ∧
      (sa.delayList = [] → (sa.pauseByUser tmp).delayList = []) := by
  unfold pauseByUser
  split
  · have hlists : ListStep sa ((sa.callPause tmp).smtaudioResumeListInsert
        { id := tmp.id, prio := tmp.prio, interruptReason := interruptReasonByUser,
          valid := true }) none := .interrupted _ rfl ⟨tmp, htmp, rfl⟩ rfl rfl
    exact ⟨h.listStep hlists rfl, rfl, resumes_callPause, fun _ => rfl⟩
  · exact ⟨h, rfl, rfl, id⟩

theorem smtaudioPause_spec (h : Kept sa) :
    Kept sa.smtaudioPause.1 ∧ sa.smtaudioPause.1.ctrlList = sa.ctrlList ∧
      sa.smtaudioPause.1.resumes = sa.resumes ∧
      (sa.smtaudioPause.1.delayList = sa.delayList ∨ sa.smtaudioPause.1.delayList = []) := by
  have hfold : ∀ (l : List SmtaudioOpsNode) (sb : SmartAudio), Kept sb → sb.delayList = [] →
      (∀ tmp ∈ l, tmp ∈ sb.ctrlList) →
      Kept (l.foldl pauseByUser sb) ∧ (l.foldl pauseByUser sb).ctrlList = sb.ctrlList ∧
        (l.foldl pauseByUser sb).resumes = sb.resumes ∧
        (l.foldl pauseByUser sb).delayList = [] := by
    intro l
    induction l with
    | nil => exact fun sb hkept hnil _ => ⟨hkept, rfl, rfl, hnil⟩
    | cons tmp l ih =>
      intro sb hkept hnil hl
      obtain ⟨hkept', hctrl, hcalls, hdelay⟩ := pauseByUser_spec hkept (hl tmp List.mem_cons_self)
      obtain ⟨hkept'', hctrl', hcalls', hdelay'⟩ := ih (sb.pauseByUser tmp) hkept' (hdelay hnil)
        fun other hother => hctrl ▸ hl other (List.mem_cons_of_mem _ hother)
      exact ⟨hkept'', hctrl'.trans hctrl, hcalls'.trans hcalls, hdelay'⟩
  unfold smtaudioPause
  split
  · exact ⟨h, rfl, rfl, .inl rfl⟩
  · have hclear : Kept sa.smtaudioClearReadyList :=
      h.sublist rfl (List.nil_sublist _) (List.nil_sublist _)
    obtain ⟨hkept, hctrl, hcalls, hdelay⟩ :=
      hfold sa.ctrlList sa.smtaudioClearReadyList hclear rfl fun tmp htmp => htmp
    exact ⟨hkept, hctrl, hcalls, .inr hdelay⟩

theorem smtaudioResume_fields (sa : SmartAudio) (answer : Int) :
    ∃ resumeList calls, (sa.smtaudioResume answer).1 = { sa with resumeList, calls } ∧
      resumeList.Sublist sa.resumeList := by
  unfold smtaudioResume
  split
  · exact ⟨_, _, rfl, List.Sublist.refl _⟩
  · exact ⟨_, _, rfl, List.eraseP_sublist⟩

theorem smtaudioResume_goesOn (h : Kept sa) (answer : Int) :
    NoneGoesOn sa (sa.smtaudioResume answer).1 ∨
      ∃ node ∈ sa.resumeList, GoesOn sa (sa.smtaudioResume answer).1 node := by
  unfold smtaudioResume
  cases hfind : sa.resumeList.find? sa.resumeByUser with
  | none => exact .inl ⟨rfl, rfl⟩
  | some node =>
    refine .inr ⟨node, List.mem_of_find?_eq_some hfind, ?_, fun m =>
      h.resumeOnce.mem_eraseP_iff hfind⟩
    exact resumes_call (.resume node.id)

/-- What a step can be. -/
theorem step_cases (h : sa.step e = some sa') :
    Quiet sa e sa' ∧ (∀ type, ¬ sa.Ends e type) ∨
    e = .pause ∧ sa' = sa.smtaudioPause.1 ∨
    (∃ answer, e = .resume answer ∧ sa' = (sa.smtaudioResume answer).1) ∨
    ∃ type queue state, sa.Ends e type ∧ state ≠ .playing ∧ sa.queue.tail = queue ∧
      sa' = ((({ sa with queue := queue }.setStatus type state).answered
        type).smtaudioChangeState state type).readyNext type := by
  have hends : ∀ {e}, sa.handled e = none → ∀ type, ¬ sa.Ends e type := by
    rintro e hnone type (hend | hend) <;> exact absurd (hnone.symm.trans hend) (by simp)
  cases e with
  | start type url seekTime resume answer =>
    cases h
    exact .inl ⟨quiet_start sa type url seekTime resume answer, hends rfl⟩
  | pause =>
    cases h
    exact .inr (.inl ⟨rfl, rfl⟩)
  | stop type =>
    cases h
    exact .inl ⟨(sameLists_smtaudioStop sa type).quiet rfl, hends rfl⟩
  | mute =>
    cases h
    exact .inl ⟨(sameLists_smtaudioMute sa).quiet rfl, hends rfl⟩
  | resume answer =>
    cases h
    exact .inr (.inr (.inl ⟨answer, rfl, rfl⟩))
  | player type evtId =>
    simp only [step] at h
    split at h
    · cases h
      exact .inl ⟨SameLists.quiet ⟨rfl, rfl, rfl, rfl⟩ rfl, hends rfl⟩
    · cases h
  | task =>
    cases hqueue : sa.queue with
    | nil =>
      simp only [step, hqueue] at h
      cases h
    | cons head queue =>
      obtain ⟨type, evtId⟩ := head
      simp only [step, hqueue] at h
      cases h
      have hhandled := handled_task hqueue
      have hquiet : evtId ≠ .stop → evtId ≠ .pause →
          Quiet sa .task ({ sa with queue := queue }.smtaudioEventTask type evtId) ∧
            ∀ type, ¬ sa.Ends .task type := by
        intro hstop hpause
        refine ⟨quiet_task hqueue hstop hpause, ?_⟩
        rintro type' (hend | hend)
        · cases hhandled.symm.trans hend
          exact hstop rfl
        · cases hhandled.symm.trans hend
          exact hpause rfl
      cases evtId with
      | stop =>
        exact .inr (.inr (.inr ⟨type, queue, .stop, .inl hhandled, by simp, rfl, rfl⟩))
      | pause =>
        exact .inr (.inr (.inr ⟨type, queue, .pause, .inr hhandled, by simp, rfl, rfl⟩))
      | _ => exact .inl (hquiet (by simp) (by simp))

theorem Kept.ended (h : Kept sa) (queue : List (Int × SmtaudioPlayerEvtid)) (type : Int)
    (hstate : state ≠ .playing) :
    Kept ((({ sa with queue := queue }.setStatus type state).answered type).smtaudioChangeState
      state type) := by
  obtain ⟨cur, last, heq⟩ := ended_fields sa queue type hstate
  rw [heq]
  exact h.sublist rfl (List.Sublist.refl _) (List.Sublist.refl _)

theorem Kept.step (h : Kept sa) (hstep : sa.step e = some sa') : Kept sa' := by
  rcases step_cases hstep with ⟨hquiet, -⟩ | ⟨-, rfl⟩ | ⟨answer, -, rfl⟩ |
    ⟨type, queue, state, -, hstate, -, rfl⟩
  · exact h.listStep hquiet.lists hquiet.ctrlList
  · exact (smtaudioPause_spec h).1
  · obtain ⟨resumeList, calls, heq, hsub⟩ := smtaudioResume_fields sa answer
    rw [heq]
    exact h.sublist rfl (List.Sublist.refl _) hsub
  · have hended := h.ended queue type hstate
    obtain ⟨delayList, resumeList, calls, heq, hd, hr⟩ := readyNext_fields
      ((({ sa with queue := queue }.setStatus type state).answered type).smtaudioChangeState
        state type) type
    rw [heq]
    exact hended.sublist rfl hd hr

theorem resumedInTurn_step (h : Kept sa) (hstep : sa.step e = some sa') :
    ResumedInTurn sa e sa' := by
  rcases step_cases hstep with ⟨hquiet, hnot⟩ | ⟨rfl, rfl⟩ | ⟨answer, rfl, rfl⟩ |
    ⟨type, queue, state, hend, hstate, -, rfl⟩
  · refine ⟨fun type hend => absurd hend (hnot type), fun type hend => absurd hend (hnot type),
      fun answer heq => ?_, fun _ _ _ => ⟨hquiet.resumes, fun _ => hquiet.lists.replaced⟩⟩
    subst heq
    cases hstep
    exact smtaudioResume_goesOn h answer
  · refine ⟨fun type hend => ?_, fun type hend => ?_, fun answer heq => ?_, fun _ _ _ => ?_⟩
    · rcases hend with hend | hend <;> cases hend
    · rcases hend with hend | hend <;> cases hend
    · cases heq
    · exact ⟨(smtaudioPause_spec h).2.2.1, fun hne => absurd rfl hne⟩
  · refine ⟨fun type hend => ?_, fun type hend => ?_, fun _ _ => smtaudioResume_goesOn h answer,
      fun _ _ hne => absurd rfl (hne answer)⟩
    · rcases hend with hend | hend <;> cases hend
    · rcases hend with hend | hend <;> cases hend
  · have hended := h.ended queue type hstate
    obtain ⟨cur, last, heq⟩ := ended_fields sa queue type hstate
    have honly : ∀ other, sa.Ends e other → other = type := by
      rintro other (hother | hother) <;> rcases hend with hend | hend <;>
        cases hother.symm.trans hend <;> rfl
    rw [heq] at hended
    rw [heq]
    refine ⟨fun other hother hwaits => ?_, fun other hother hnone => ?_, fun answer heq => ?_,
      fun hnot => ?_⟩
    · cases honly other hother
      exact readyNext_resumes hended hwaits
    · cases honly other hother
      exact readyNext_idle hended hnone
    · subst heq
      rcases hend with hend | hend <;> cases hend
    · exact absurd hend (hnot type)

theorem delayOnce_step (h : OncePer (·.id) sa.delayList) (hkept : Kept sa)
    (hstep : sa.step e = some sa') : DelayOnce sa e sa' ↔ ReplacesOwn sa e sa' := by
  unfold DelayOnce ReplacesOwn
  rcases step_cases hstep with ⟨hquiet, -⟩ | ⟨rfl, rfl⟩ | ⟨answer, rfl, rfl⟩ |
    ⟨type, queue, state, hend, hstate, -, rfl⟩
  · exact hquiet.lists.delayOnce h
  · refine iff_of_true ?_ (by simp [putOff, handled])
    rcases (smtaudioPause_spec hkept).2.2.2 with heq | heq
    · rwa [heq]
    · rw [heq]
      exact oncePer_nil
  · refine iff_of_true ?_ (by simp [putOff, handled])
    obtain ⟨resumeList, calls, heq, -⟩ := smtaudioResume_fields sa answer
    rwa [heq]
  · refine iff_of_true ?_ ?_
    · obtain ⟨delayList, resumeList, calls, heq, hd, hr⟩ := readyNext_fields
        ((({ sa with queue := queue }.setStatus type state).answered type).smtaudioChangeState
          state type) type
      obtain ⟨cur, last, heq'⟩ := ended_fields sa queue type hstate
      rw [heq]
      rw [heq'] at hd
      exact h.sublist hd
    · have hput : sa.putOff e = none := by
        cases e with
        | task => rcases hend with hend | hend <;> simp only [putOff, hend]
        | _ => rcases hend with hend | hend <;> cases hend
      rw [hput]
      simp

/-! ## One source plays -/

/-- No two sources are live. -/
def OneLive (sa : SmartAudio) : Prop :=
  ∀ a ∈ sa.ctrlList, ∀ b ∈ sa.ctrlList, sa.Live a.id → sa.Live b.id → a.id = b.id

theorem live_stopPlaying {tmp : SmtaudioOpsNode} {id : Int}
    (h : (sa.stopPlaying tmp).Live id) : sa.Live id := by
  unfold stopPlaying at h
  split at h
  · exact live_callStop h
  · exact h

theorem live_smtaudioStop {id : Int} (h : (sa.smtaudioStop type).1.Live id) : sa.Live id := by
  have hfold : ∀ (l : List SmtaudioOpsNode) (sa : SmartAudio),
      (l.foldl stopPlaying sa).Live id → sa.Live id := by
    intro l
    induction l with
    | nil => exact fun _ hlive => hlive
    | cons tmp l ih => exact fun sa hlive => live_stopPlaying (ih _ hlive)
  unfold smtaudioStop at h
  split at h
  · exact hfold _ _ h
  · split at h
    · split at h
      · exact h
      · exact live_stopPlaying h
    · exact h

theorem live_smtaudioPause {id : Int} (h : sa.smtaudioPause.1.Live id) : sa.Live id := by
  have hone : ∀ {sb : SmartAudio} {tmp : SmtaudioOpsNode}, (sb.pauseByUser tmp).Live id →
      sb.Live id := by
    intro sb tmp hlive
    unfold pauseByUser at hlive
    split at hlive
    · have hpaused : (sb.callPause tmp).Live id := hlive
      exact (live_callPause hpaused).1
    · exact hlive
  have hfold : ∀ (l : List SmtaudioOpsNode) (sb : SmartAudio),
      (l.foldl pauseByUser sb).Live id → sb.Live id := by
    intro l
    induction l with
    | nil => exact fun _ hlive => hlive
    | cons tmp l ih => exact fun sb hlive => hone (ih _ hlive)
  unfold smtaudioPause at h
  split at h
  · exact h
  · exact hfold sa.ctrlList sa.smtaudioClearReadyList h

theorem live_smtaudioMute {id : Int} (h : sa.smtaudioMute.1.Live id) : sa.Live id := by
  unfold smtaudioMute at h
  by_cases hmute : sa.curState ≠ smtaudioSubstateMute
  · rw [if_pos hmute] at h
    exact live_switchState h
  · rw [if_neg hmute] at h
    cases hfirst : sa.findFirstPlayingAudio with
    | none =>
      rw [hfirst] at h
      have hswitched : (sa.switchState smtaudioSubstateMute smtaudioSubstateLocalStop).Live id := h
      exact live_switchState hswitched
    | some tmp =>
      rw [hfirst] at h
      have hswitched : (sa.switchState smtaudioSubstateMute (subState tmp.id .playing)).Live id :=
        h
      exact live_switchState hswitched

/-- Whoever is live once a source has ended was live before. -/
theorem live_ended {queue : List (Int × SmtaudioPlayerEvtid)} {id : Int}
    (hstate : state ≠ .playing)
    (h : ((({ sa with queue := queue }.setStatus type state).answered type).smtaudioChangeState
      state type).Live id) : sa.Live id := by
  obtain ⟨cur, last, heq⟩ := ended_fields sa queue type hstate
  rw [heq] at h
  obtain ⟨hstatus, hasked⟩ := h
  have hne : id ≠ type := by
    rintro rfl
    exact hstate ((Function.update_self id state sa.status).symm.trans hstatus)
  refine ⟨(Function.update_of_ne hne state sa.status).symm.trans hstatus, fun hin => hasked ?_⟩
  exact List.mem_filter.mpr ⟨hin, by simpa using hne⟩

/-- Only a start that is handled makes a source live. -/
theorem step_live (h : sa.step e = some sa') :
    (∀ id, sa'.Live id → sa.Live id) ∨
      ∃ type queue, (sa.handled e = some (type, .start) ∨ sa.handled e = some (type, .resume)) ∧
        sa' = (sa.starting queue type).smtaudioChangeState .playing type := by
  cases e with
  | start type url seekTime resume answer =>
    cases h
    exact .inl fun id => (smtaudioStart_cases sa type url seekTime resume answer).live
  | pause =>
    cases h
    exact .inl fun id => live_smtaudioPause
  | stop type =>
    cases h
    exact .inl fun id => live_smtaudioStop
  | mute =>
    cases h
    exact .inl fun id => live_smtaudioMute
  | resume answer =>
    cases h
    obtain ⟨resumeList, calls, heq, -⟩ := smtaudioResume_fields sa answer
    rw [heq]
    exact .inl fun id hlive => hlive
  | player type evtId =>
    simp only [step] at h
    split at h
    · cases h
      exact .inl fun id hlive => hlive
    · cases h
  | task =>
    cases hqueue : sa.queue with
    | nil =>
      simp only [step, hqueue] at h
      cases h
    | cons head queue =>
      obtain ⟨type, evtId⟩ := head
      simp only [step, hqueue] at h
      cases h
      have hhandled := handled_task hqueue
      have hready : ∀ {sb : SmartAudio} {id}, (sb.readyNext type).Live id → sb.Live id := by
        intro sb id hlive
        obtain ⟨delayList, resumeList, calls, heq, -, -⟩ := readyNext_fields sb type
        rw [heq] at hlive
        exact hlive
      cases evtId with
      | start => exact .inr ⟨type, queue, .inl hhandled, rfl⟩
      | resume => exact .inr ⟨type, queue, .inr hhandled, rfl⟩
      | error => exact .inl fun id hlive => live_ended SmtaudioState.noConfusion hlive
      | stop => exact .inl fun id hlive => live_ended SmtaudioState.noConfusion (hready hlive)
      | pause => exact .inl fun id hlive => live_ended SmtaudioState.noConfusion (hready hlive)
      | underRun => exact .inl fun id hlive => hlive
      | overRun => exact .inl fun id hlive => hlive

theorem step_ctrlList (hkept : Kept sa) (h : sa.step e = some sa') :
    sa'.ctrlList = sa.ctrlList := by
  rcases step_cases h with ⟨hquiet, -⟩ | ⟨-, rfl⟩ | ⟨answer, -, rfl⟩ |
    ⟨type, queue, state, -, hstate, -, rfl⟩
  · exact hquiet.ctrlList
  · exact (smtaudioPause_spec hkept).2.1
  · obtain ⟨resumeList, calls, heq, -⟩ := smtaudioResume_fields sa answer
    rw [heq]
  · obtain ⟨delayList, resumeList, calls, heq, -, -⟩ := readyNext_fields
      ((({ sa with queue := queue }.setStatus type state).answered type).smtaudioChangeState
        state type) type
    obtain ⟨cur, last, heq'⟩ := ended_fields sa queue type hstate
    rw [heq, heq']

theorem live_changeState {id : Int} (h : (sa.smtaudioChangeState .playing type).Live id) :
    sa.Live id := by
  cases hnode : sa.getSmtaudioCtrlOpsById type with
  | none => rwa [changeState_unknown hnode] at h
  | some node => exact ((smtaudioChangeState_playing hnode).live h).1

theorem live_starting {queue : List (Int × SmtaudioPlayerEvtid)} {id : Int} (hne : id ≠ type)
    (h : (sa.starting queue type).Live id) : sa.Live id :=
  ⟨(Function.update_of_ne hne _ sa.status).symm.trans h.1, h.2⟩

theorem firstOtherPlaying_starting (sa : SmartAudio) (queue : List (Int × SmtaudioPlayerEvtid))
    (type : Int) : (sa.starting queue type).firstOtherPlaying type = sa.firstOtherPlaying type :=
  firstOtherPlaying_setStatus { sa with queue := queue } type .playing

/-- When both are live after a start, one did not silence the other. -/
theorem not_both_live {queue : List (Int × SmtaudioPlayerEvtid)} {other : Int}
    (hnode : sa.getSmtaudioCtrlOpsById type = some node)
    (hsilences : Silences sa type node other)
    (htype : ((sa.starting queue type).smtaudioChangeState .playing type).Live type)
    (hother : ((sa.starting queue type).smtaudioChangeState .playing type).Live other) : False := by
  have hcontends : Contends (sa.starting queue type) type node _ :=
    smtaudioChangeState_playing hnode
  have hid := getSmtaudioCtrlOpsById_id hnode
  obtain ⟨hlive, htype⟩ := hcontends.live htype
  obtain ⟨-, hother⟩ := hcontends.live hother
  rw [firstOtherPlaying_starting] at htype hother
  rcases hsilences with hasked | ⟨hcur, hmute | ⟨first, hfirst, hsilent⟩⟩
  · exact hlive.2 hasked
  · exact (htype hcur).1 hmute hid.symm
  · by_cases hmute : sa.curState = smtaudioSubstateMute
    · exact (htype hcur).1 hmute hid.symm
    · have htype' := (htype hcur).2 hmute first hfirst
      have hother' := (hother hcur).2 hmute first hfirst
      by_cases hlt : first.prio < node.prio
      · rw [if_pos hlt] at htype'
        exact htype' hid.symm
      · rw [if_neg hlt] at hother'
        rcases hsilent with hprio | heq
        · exact hlt hprio
        · exact hother' heq.symm

theorem getSmtaudioCtrlOpsById_of_mem {a : SmtaudioOpsNode} (ha : a ∈ sa.ctrlList) :
    ∃ node, sa.getSmtaudioCtrlOpsById a.id = some node := by
  obtain ⟨node, hnode, -⟩ := getSmtaudioCtrlOpsById_isSome ⟨a, ha, rfl⟩
  exact ⟨node, hnode⟩

theorem OneLive.step (h : OneLive sa) (hkept : Kept sa) (hstep : sa.step e = some sa')
    (hsafe : StartSilences sa e sa') : OneLive sa' := by
  intro a ha b hb hla hlb
  rw [step_ctrlList hkept hstep] at ha hb
  rcases step_live hstep with hwas | ⟨type, queue, hhandled, rfl⟩
  · exact h a ha b hb (hwas _ hla) (hwas _ hlb)
  · have hclash : ∀ x ∈ sa.ctrlList, ∀ y ∈ sa.ctrlList, x.id = type → y.id ≠ type →
        ((sa.starting queue type).smtaudioChangeState .playing type).Live x.id →
        ((sa.starting queue type).smtaudioChangeState .playing type).Live y.id → False := by
      intro x hx y hy hxt hyt hlx hly
      obtain ⟨node, hnode⟩ := getSmtaudioCtrlOpsById_of_mem hx
      rw [hxt] at hnode hlx
      have hlive := live_starting hyt (live_changeState hly)
      exact not_both_live hnode (hsafe type node hhandled hnode y hy hlive hyt) hlx hly
    by_cases hat : a.id = type
    · by_cases hbt : b.id = type
      · exact hat.trans hbt.symm
      · exact (hclash a ha b hb hat hbt hla hlb).elim
    · by_cases hbt : b.id = type
      · exact (hclash b hb a ha hbt hat hlb hla).elim
      · exact h a ha b hb (live_starting hat (live_changeState hla))
          (live_starting hbt (live_changeState hlb))

/-! ## Every run -/

theorem kept_init (sources : List SmtaudioOpsNode) : Kept (init sources) where
  delaySorted := sorted_nil
  resumeSorted := sorted_nil
  resumeOnce := oncePer_nil
  exclusive := .inl rfl
  registered _ hm := absurd hm List.not_mem_nil
  valid _ hm := absurd hm List.not_mem_nil

/-- Whatever users and players do, the lists stay sorted and never both hold something,
and what waits goes on in its turn. The delay list holds a source twice only after a new
entry took the place of another source's. Two sources play at rest only after a start
that silenced neither. -/
theorem arbitration (sources : Sources) (events : List Event) :
    Along step Arbitrated (init sources.nodes) events ∧
      (Along step DelayOnce (init sources.nodes) events ↔
        Along step ReplacesOwn (init sources.nodes) events) ∧
      (Along step StartSilences (init sources.nodes) events →
        Along step OnePlaying (init sources.nodes) events) := by
  refine ⟨?_, ?_, ?_⟩
  · have hkeep : ∀ sa e sa', Kept sa → step sa e = some sa' → True →
        Arbitrated sa e sa' ∧ Kept sa' := by
      intro sa e sa' hkept hstep _
      have hkept' := hkept.step hstep
      exact ⟨⟨hkept'.toListsKept, resumedInTurn_step hkept hstep⟩, hkept'⟩
    exact along_of_invariant hkeep (kept_init _) (along_true events)
  · have honce : ∀ sa e sa', Kept sa ∧ OncePer (·.id) sa.delayList → step sa e = some sa' →
        (DelayOnce sa e sa' ↔ ReplacesOwn sa e sa') :=
      fun sa e sa' h hstep => delayOnce_step h.2 h.1 hstep
    refine along_iff_of_invariant honce ?_ ⟨kept_init _, oncePer_nil⟩
    exact fun sa e sa' h hstep hsafe => ⟨h.1.step hstep, (honce sa e sa' h hstep).mpr hsafe⟩
  · have hkeep : ∀ sa e sa', Kept sa ∧ OneLive sa → step sa e = some sa' →
        StartSilences sa e sa' → OnePlaying sa e sa' ∧ Kept sa' ∧ OneLive sa' := by
      rintro sa e sa' ⟨hkept, hone⟩ hstep hsafe
      have hone' := hone.step hkept hstep hsafe
      refine ⟨fun _ hasked a ha b hb hpa hpb => ?_, hkept.step hstep, hone'⟩
      exact hone' a ha b hb ⟨hpa, hasked ▸ List.not_mem_nil⟩ ⟨hpb, hasked ▸ List.not_mem_nil⟩
    refine along_of_invariant hkeep ⟨kept_init _, ?_⟩
    rintro a _ b _ ⟨hplaying, -⟩ _
    cases hplaying

/-! ## A local play that did not ask for it -/

/-- Whatever waits for a source goes on when that source stops, pauses or fails. -/
def AllGoOn (sa : SmartAudio) (e : Event) (sa' : SmartAudio) : Prop :=
  ∀ type evtId, sa.handled e = some (type, evtId) →
    evtId = .stop ∨ evtId = .pause ∨ evtId = .error →
    ∀ node ∈ sa.resumeList, node.interruptReason = type →
      sa'.resumes.count node.id = sa.resumes.count node.id + 1

/-- The local player before the music. -/
def localAndMusic : Sources where
  nodes := [{ prio := 1, id := 1, marks := true }, { prio := 2, id := 0, marks := true }]
  distinct := by
    unfold OncePer
    decide

/-- The local player, started with `resume` 0, interrupts the music and then stops. The
music stays on the resume list. -/
theorem local_play_without_resume :
    ¬ ∀ (sources : Sources) (events : List Event),
      Along step AllGoOn (init sources.nodes) events := by
  intro h
  have halong := h localAndMusic [.start 0 "music" 0 0 0, .player 0 .start, .task,
    .start 1 "tone" 0 0 0, .player 0 .pause, .player 1 .start, .task, .task, .player 1 .stop,
    .task]
  have hstop := (((((((((halong _ rfl).2 _ rfl).2 _ rfl).2 _ rfl).2 _ rfl).2 _ rfl).2 _ rfl).2
    _ rfl).2 _ rfl).2 _ rfl
  have hcount := hstop.1 1 .stop rfl (.inl rfl)
    { prio := 2, id := 0, interruptReason := 1, valid := true } (by decide) rfl
  revert hcount
  decide

end BouffaloSdk.Multimedia.SmartAudio
