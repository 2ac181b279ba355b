import BouffaloSdk.Log.BflogApi

/-!
# The locks of bflog are balanced

Every call gives back each lock as often as it got it, except for a
configuration that leaves without an exit and for the loop of `bflog_flush`,
which exits once more than it entered for every output that it passes over.
-/

namespace BouffaloSdk.BflogApi
open Bflog Kit.Locked Kit.Runs

/-- `bflog_control` that has entered finds a command that it knows how to
leave, every output takes the record that is printed, and `bflog_flush` enters
where it does not look. -/
def Allowed : Place → Memory → Bool → Prop
  | .any, _, _ => True
  | .recheck log command, m, _ =>
    ((m.logs log).status = bflogStatusRunning → command = bflogCmdLevel) ∧
      ((m.logs log).status = bflogStatusReady ∨ (m.logs log).status = bflogStatusSuspend →
        command ≠ bflogCmdIllegal)
  | .status direct, m, _ => (m.directs direct).status = bflogDirectStatusRunning
  | .level direct level, m, _ => level &&& bflogLevelMask ≤ (m.directs direct).level
  | .tag tag filter, m, _ => m.tagFiltered tag filter = false
  | .relock, _, ok => ok = true

/-- The loop over the outputs has the recorder's lock. -/
def heldAt : Loop → Lock → Int
  | .flush _ _ => 0
  | .round _ _ _ => 0
  | .visit log _ _ _ => Pi.single (.critical log) 1

abbrev EndsBalanced (code : Api) (n : Lock → Int) : Prop := Ends Allowed heldAt code n

variable {n : Lock → Int} {log : Nat} {ret : Int}

theorem ends_look {next : Memory → Api} (h : ∀ m, EndsBalanced (next m) n) :
    EndsBalanced (look next) n :=
  fun m _ _ => h m

theorem ends_exitCritical : EndsBalanced (exitCritical log ret) (0 + Pi.single (.critical log) 1) := by
  intro _
  simp [Ends]

/-- The lock of an output is given back. -/
theorem ends_release (l : Lock) : EndsBalanced (.release l fun _ => .ret ret) (0 + Pi.single l 1) := by
  intro _
  simp [Ends]

theorem ends_checkedTwice (first second : Nat → Option Int) (body : Memory → Memory × Int) :
    EndsBalanced (checkedTwice log first second body) 0 := by
  apply ends_look
  intro m
  cases first (m.logs log).status with
  | some ret => rfl
  | none =>
    intro _ ok _
    cases ok with
    | false => rfl
    | true =>
      intro _ _ _
      exact ends_exitCritical

theorem ends_control (command param : Nat) : EndsBalanced (bflogControl log command param) 0 := by
  apply ends_look
  intro m
  dsimp only
  split
  · split
    · intro _ _ _
      rfl
    · split
      · intro _ _ _
        rfl
      · intro _ ok _
        cases ok with
        | false => rfl
        | true =>
          intro m _ hallowed
          obtain ⟨hlevel, hlegal⟩ := hallowed
          dsimp only
          split
          · rename_i hrunning
            exact absurd (hlevel hrunning.1) hrunning.2
          · split
            · rename_i hstatus
              split
              · rename_i hillegal
                exfalso
                rcases hstatus with hready | hsuspend | hrunning
                · exact hlegal (.inl hready) hillegal
                · exact hlegal (.inr hsuspend) hillegal
                · have hlevel := hlevel hrunning
                  rw [hillegal] at hlevel
                  cases hlevel
              · exact ends_exitCritical
            · exact ends_exitCritical
  · rfl

theorem ends_filter (tagString : String) (enable : Bool) :
    EndsBalanced (bflogFilter log tagString enable) 0 := by
  apply ends_look
  intro m
  dsimp only
  split
  · intro _ ok _
    cases ok with
    | false => rfl
    | true =>
      intro _ _ _ _
      simp [Ends]
  · rfl

theorem ends_bflog (call : LogCall) (area flushArea : Msg) :
    EndsBalanced (BflogApi.bflog log call area flushArea) 0 := by
  apply ends_look
  intro m
  dsimp only
  split
  · rfl
  · split
    · rfl
    · split
      · rfl
      · intro _ ok _
        cases ok with
        | false => rfl
        | true =>
          intro m _ _
          dsimp only
          split
          · exact ends_exitCritical
          · split
            · trivial
            · split
              · exact ends_exitCritical
              · intro _
                simp [Ends, heldAt]

theorem ends_flush (area : Msg) : EndsBalanced (bflogFlush log area) 0 := by
  apply ends_look
  intro _
  apply ends_look
  intro m
  split
  · rfl
  · rfl

theorem ends_round (filter : Nat) (area : Msg) : EndsBalanced (flushRound log filter area) 0 := by
  intro _ ok _
  cases ok with
  | false => rfl
  | true =>
    intro m _ _
    dsimp only
    split
    · exact ends_exitCritical
    · split
      · trivial
      · intro _
        split
        · simp [Ends]
        · intro _ ok hok
          cases hok
          apply ends_look
          intro m
          simp [Ends, heldAt]

/-- An output that takes the record leaves the loop with the lock it came with. -/
theorem ends_visit (filter : Nat) (msg : Msg) (node : Option Nat) :
    EndsBalanced (flushVisit log filter msg node) (Pi.single (.critical log) 1) := by
  cases node with
  | none =>
    intro _
    simp [Ends, heldAt]
  | some direct =>
    have hnext : ∀ m : Memory, EndsBalanced (.jump (.visit log filter msg (m.nextOutput log direct)))
        (0 + Pi.single (.critical log) 1) := by
      intro m
      exact zero_add _
    intro _ m _ hstatus
    have hstatus : (m.directs direct).status = bflogDirectStatusRunning := hstatus
    rw [sub_self]
    dsimp only
    rw [if_neg (not_not_intro hstatus)]
    intro m _ hlevel
    have hlevel : ¬ msg.level &&& bflogLevelMask > (m.directs direct).level := Nat.not_lt.mpr hlevel
    dsimp only
    rw [if_neg hlevel]
    intro m _ htag
    have htag : ¬ m.tagFiltered (msg.word 28 4) filter = true := Bool.eq_false_iff.mp htag
    dsimp only
    rw [if_neg htag]
    intro _ ok _
    cases ok with
    | false =>
      intro _ ok hok
      cases hok
      exact ends_look hnext
    | true =>
      intro _ _ _ _ _ ok hok
      cases hok
      simp only [if_true, add_sub_cancel_right]
      exact ends_look hnext

theorem ends_directDelete (direct : Nat) : EndsBalanced (bflogDirectDelete direct) 0 := by
  apply ends_look
  intro m
  split
  · intro _ ok _
    cases ok with
    | false => rfl
    | true =>
      intro _ _ _
      exact ends_release _
  · rfl

theorem ends_directInit (type direct : Nat) (opens : Bool) :
    EndsBalanced (directInit type direct opens) 0 := by
  intro _ ok _
  cases ok with
  | false => rfl
  | true =>
    intro _ _ _
    exact ends_release _

theorem ends_directDeinit (type direct : Nat) (closes : Bool) :
    EndsBalanced (directDeinit type direct closes) 0 := by
  apply ends_look
  intro m
  split
  · rfl
  · split
    · rfl
    · intro _ ok _
      cases ok with
      | false => rfl
      | true =>
        intro _ _ _
        exact ends_release _

/-- The calls on an output that take no lock. -/
theorem ends_directLink (direct layout : Nat) : EndsBalanced (bflogDirectLink direct layout) 0 := by
  apply ends_look
  intro m
  split
  · rfl
  · split
    · rfl
    · intro _ _ _
      rfl

theorem ends_directControl (direct command param : Nat) :
    EndsBalanced (bflogDirectControl direct command param) 0 := by
  apply ends_look
  intro m
  dsimp only
  split
  · intro _ _ _
    rfl
  · rfl

theorem ends_directFilter (direct : Nat) (tagString : String) (enable : Bool) :
    EndsBalanced (bflogDirectFilter direct tagString enable) 0 := by
  apply ends_look
  intro m
  dsimp only
  split
  · intro _ _ _
    rfl
  · rfl

theorem ends_start (call : ApiCall) : EndsBalanced (start call) 0 := by
  cases call with
  | delete log => exact ends_checkedTwice _ _ _
  | append log direct => exact ends_checkedTwice _ _ _
  | remove log direct => exact ends_checkedTwice _ _ _
  | suspend log => exact ends_checkedTwice _ _ _
  | resume log => exact ends_checkedTwice _ _ _
  | control log command param => exact ends_control _ _
  | filter log tagString enable => exact ends_filter _ _
  | bflog log call area flushArea => exact ends_bflog _ _ _
  | flush log area => exact ends_flush _
  | directDelete direct => exact ends_directDelete _
  | directSuspend direct => exact fun _ _ _ => rfl
  | directResume direct => exact fun _ _ _ => rfl
  | directLink direct layout => exact ends_directLink _ _
  | directControl direct command param => exact ends_directControl _ _ _
  | directFilter direct tagString enable => exact ends_directFilter _ _ _
  | directInitStream direct => exact ends_directInit _ _ _
  | directDeinitStream direct => exact ends_directDeinit _ _ _
  | directInitFile direct opens => exact ends_directInit _ _ _
  | directDeinitFile direct closes => exact ends_directDeinit _ _ _
  | directInitFileTime direct opens => exact ends_directInit _ _ _
  | directDeinitFileTime direct closes => exact ends_directDeinit _ _ _
  | directInitFileSize direct opens => exact ends_directInit _ _ _
  | directDeinitFileSize direct closes => exact ends_directDeinit _ _ _

theorem ends_body (loop : Loop) : EndsBalanced (body loop) (heldAt loop) := by
  cases loop with
  | flush log area => exact ends_flush _
  | round log filter area => exact ends_round _ _
  | visit log filter msg node => exact ends_visit _ _ _

/-! ## Any threads -/

abbrev LogSystem := System Loop Place Lock Memory Int Nat
abbrev LogEvent := Event ApiCall Memory Nat

/-- No thread has called yet. -/
def idle (m : Memory) : LogSystem := { memory := m, threads := fun _ => Thread.begin (.ret 0) }

theorem onPath_idle (m : Memory) : OnPath Allowed heldAt (idle m) := fun _ => held_begin _

/-- Whatever calls the threads make from any state of the recorders, whatever
their locks answer and however the memory changes meanwhile: as long as every
step finds what its place allows, each call returns with its locks given back. -/
theorem calls_balanced (m : Memory) (events : List LogEvent)
    (h : Along (step calls) (Meets Allowed) (idle m) events) :
    Along (step calls) Balanced (idle m) events :=
  balanced_along ends_start ends_body (onPath_idle m) h

/-! ## Fixed runs -/

/-- One recorder with the output 0 and one empty record of 40 bytes; no tags. -/
def sampleMemory (status outputStatus : Nat) : Memory :=
  { globalFilter := 0x7fffffff
    logs := fun _ =>
      { direct := [0], status := status, flags := 0xff, level := 3, mode := 1
        filter := 0x80000000, queue := { free := 24, size := 64, wpos := 40, rpos := 0 } }
    directs := fun _ =>
      { status := outputStatus, color := 0, level := 3, type := 2, filter := 0, lock := false }
    linked := fun _ => true
    pool := fun _ => 0
    blocks := fun _ => 40 :: List.replicate 63 0
    enterCritical := fun _ => 0
    exitCritical := fun _ => 0
    flushNotice := fun _ => 0
    tagsStart := 0x1000
    tags := []
    layouts := fun _ => 0
    layout := fun _ => 0
    written := [] }

theorem calls_balanced_control :
    Along (step calls) Balanced (idle (sampleMemory bflogStatusReady bflogStatusRunning))
      [.call 0 (.control 0 bflogCmdFlag 1), .act 0 true, .act 0 true, .act 0 true,
        .act 0 true] := by
  apply calls_balanced
  intro t ht
  cases ht
  refine ⟨trivial, ?_⟩
  intro t ht
  cases ht
  refine ⟨trivial, ?_⟩
  intro t ht
  cases ht
  refine ⟨trivial, ?_⟩
  intro t ht
  cases ht
  refine ⟨⟨fun h => absurd h (by decide), fun _ => by decide⟩, ?_⟩
  intro t ht
  cases ht
  exact ⟨trivial, along_nil⟩

/-- How a thread's call has ended, and how often it got and gave back a lock. -/
def lockCounts (w : LogSystem) (i : Nat) (l : Lock) : Option Int × Nat × Nat :=
  (match (w.threads i).code with
    | .ret r => some r
    | _ => none, (w.threads i).acquired l, (w.threads i).released l)

theorem counts_eq_of_balanced {w t : LogSystem} {e : LogEvent} {i a b : Nat} {r : Int}
    {l : Lock}
    (h : Balanced w e t) (hcounts : lockCounts t i l = (some r, a, b)) : a = b := by
  unfold lockCounts at hcounts
  cases hcode : (t.threads i).code with
  | ret r' =>
    obtain ⟨-, hcounts⟩ := Prod.mk.inj hcounts
    obtain ⟨rfl, rfl⟩ := Prod.mk.inj hcounts
    exact h i r' hcode l
  | halt => simp [hcode] at hcounts
  | jump loop => simp [hcode] at hcounts
  | access place write next => simp [hcode] at hcounts
  | acquire place l next => simp [hcode] at hcounts
  | release l next => simp [hcode] at hcounts

/-- Where the only output of a recorder is suspended, `bflog_flush` enters three
times and exits four times. A recorder that is ready, told to do command 0,
does not exit. -/
theorem calls_unbalanced :
    ¬ Along (step calls) Balanced (idle (sampleMemory bflogStatusRunning bflogStatusSuspend))
        (.call 0 (.flush 0 (Kit.Record.zero 296)) :: List.replicate 17 (.act 0 true) ++
          [.act 0 true]) ∧
      ¬ Along (step calls) Balanced (idle (sampleMemory bflogStatusReady bflogStatusRunning))
        ([.call 0 (.control 0 bflogCmdIllegal 0), .act 0 true, .act 0 true] ++ [.act 0 true]) := by
  constructor
  · intro h
    have hend : (run (step calls) (idle (sampleMemory bflogStatusRunning bflogStatusSuspend))
        (.call 0 (.flush 0 (Kit.Record.zero 296)) :: List.replicate 17 (.act 0 true) ++
          [.act 0 true])).map (fun t => lockCounts t 0 (.critical 0)) = some (some 0, 3, 4) := by
      decide +kernel
    obtain ⟨t, hrun, hcounts⟩ := Option.map_eq_some_iff.mp hend
    obtain ⟨w, hbalanced⟩ := along_last h hrun
    cases counts_eq_of_balanced hbalanced hcounts
  · refine not_along_of_run rfl rfl fun h => ?_
    have hlock := h 0 (-1) rfl (.critical 0)
    cases hlock

end BouffaloSdk.BflogApi
