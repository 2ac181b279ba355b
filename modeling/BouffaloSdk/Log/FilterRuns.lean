import BouffaloSdk.Log.BflogFilter
import Mathlib.Data.List.Perm.Subperm

/-!
# Filter bits over whole runs

Live recorders hold distinct bits and `global_filter` has the others. What
breaks this is a recorder that is created when no bit is left or while it is
live, and a deleted output whose filter word, which nothing sets, has the bit
of a recorder.
-/

namespace BouffaloSdk.Bflog

inductive Op
  | create (log size mode : Nat)
  | delete (log : Nat)
  | directCreate (direct type color : Nat) (lock : Bool)
  | directDelete (direct : Nat) (lockFails : Bool)

/-- The filters of the live recorders are single bits, no two the same, and
`global_filter` is the complement of their union. -/
structure FiltersOk (sys : Sys) (live : List Nat) : Prop where
  nodup : live.Nodup
  single : ∀ i ∈ live, ∃ b < 32, (sys.logs i).filter = 2 ^ b
  distinct : ∀ i ∈ live, ∀ j ∈ live, (sys.logs i).filter = (sys.logs j).filter → i = j
  small : sys.globalFilter < 2 ^ 32
  complement : ∀ b < 32, sys.globalFilter.testBit b = true ↔
    ∀ i ∈ live, (sys.logs i).filter.testBit b = false

/-- The filters are in order after every call; a creation fails exactly when
32 filters are in use, and then without effect. `live` and `outs` are the
recorders and outputs created and not deleted since; only these are deleted. -/
def RunOk : Sys → List Nat → List Nat → List Op → Prop
  | sys, live, _, [] => FiltersOk sys live
  | sys, live, outs, .create log size mode :: ops =>
    FiltersOk sys live ∧ ((bflogCreate sys log size mode).2 ≠ 0 ↔ live.length = 32) ∧
      ((bflogCreate sys log size mode).2 ≠ 0 → (bflogCreate sys log size mode).1 = sys) ∧
      RunOk (bflogCreate sys log size mode).1
        (if (bflogCreate sys log size mode).2 = 0 then live.insert log else live) outs ops
  | sys, live, outs, .delete log :: ops =>
    FiltersOk sys live ∧ (log ∈ live → RunOk (bflogDelete sys log).1 (live.erase log) outs ops)
  | sys, live, outs, .directCreate direct type color lock :: ops =>
    FiltersOk sys live ∧
      RunOk (bflogDirectCreate sys direct type color lock).1 live (outs.insert direct) ops
  | sys, live, outs, .directDelete direct lockFails :: ops =>
    FiltersOk sys live ∧
      (direct ∈ outs → RunOk (bflogDirectDelete sys direct lockFails).1 live
        (if (bflogDirectDelete sys direct lockFails).2 = 0 then outs.erase direct else outs) ops)

/-- The filter word of an output has no bit that is in use, or its lock fails. -/
def SafeDirectDelete (sys : Sys) (direct : Nat) (lockFails : Bool) : Prop :=
  ((sys.directs direct).lock = true ∧ lockFails = true) ∨
    ∀ b < 32, (sys.directs direct).filter.testBit b = true → sys.globalFilter.testBit b = true

def SafeRun : Sys → List Nat → List Nat → List Op → Prop
  | _, _, _, [] => True
  | sys, live, outs, .create log size mode :: ops =>
    (log ∉ live ∧ live.length < 32) ∧
      SafeRun (bflogCreate sys log size mode).1 (live.insert log) outs ops
  | sys, live, outs, .delete log :: ops =>
    log ∈ live → SafeRun (bflogDelete sys log).1 (live.erase log) outs ops
  | sys, live, outs, .directCreate direct type color lock :: ops =>
    SafeRun (bflogDirectCreate sys direct type color lock).1 live (outs.insert direct) ops
  | sys, live, outs, .directDelete direct lockFails :: ops =>
    direct ∈ outs →
      SafeDirectDelete sys direct lockFails ∧
        SafeRun (bflogDirectDelete sys direct lockFails).1 live
          (if (bflogDirectDelete sys direct lockFails).2 = 0 then outs.erase direct else outs) ops

/-! ## One call -/

variable {sys : Sys} {live outs : List Nat}

theorem RunOk.filtersOk {ops : List Op} (h : RunOk sys live outs ops) : FiltersOk sys live := by
  cases ops with
  | nil => exact h
  | cons op ops => cases op <;> exact h.1

/-- What creation leaves in the objects, besides the filters. -/
structure Inv (sys : Sys) (live outs : List Nat) : Prop where
  filters : FiltersOk sys live
  logs : ∀ i ∈ live, (sys.logs i).status = bflogStatusReady ∧ (sys.logs i).direct = []
  outs_nodup : outs.Nodup
  directs : ∀ d ∈ outs, (sys.directs d).status = bflogDirectStatusInit

theorem testBit_two_pow_iff {a b : Nat} : (2 ^ a).testBit b = true ↔ a = b := by
  rw [Nat.testBit_two_pow, decide_eq_true_eq]

theorem FiltersOk.bit_eq (h : FiltersOk sys live) {i b : Nat} (hi : i ∈ live)
    (hb : (sys.logs i).filter.testBit b = true) : (sys.logs i).filter = 2 ^ b := by
  obtain ⟨a, -, ha⟩ := h.single i hi
  rw [ha, testBit_two_pow_iff] at hb
  rw [ha, hb]

/-- The bits of the live recorders. -/
def bits (sys : Sys) (live : List Nat) : List Nat := live.map fun i => (sys.logs i).filter.log2

theorem FiltersOk.bits_nodup (h : FiltersOk sys live) : (bits sys live).Nodup := by
  refine (List.nodup_map_iff_inj_on h.nodup).mpr fun i hi j hj heq => ?_
  obtain ⟨a, -, ha⟩ := h.single i hi
  obtain ⟨b, -, hb⟩ := h.single j hj
  rw [ha, hb, Nat.log2_two_pow, Nat.log2_two_pow] at heq
  exact h.distinct i hi j hj (by rw [ha, hb, heq])

theorem FiltersOk.mem_bits_iff (h : FiltersOk sys live) {b : Nat} :
    b ∈ bits sys live ↔ ∃ i ∈ live, (sys.logs i).filter.testBit b = true := by
  rw [bits, List.mem_map]
  refine exists_congr fun i => and_congr_right fun hi => ?_
  obtain ⟨a, -, ha⟩ := h.single i hi
  rw [ha, Nat.log2_two_pow, testBit_two_pow_iff]

theorem FiltersOk.bits_subset (h : FiltersOk sys live) : bits sys live ⊆ List.range 32 := by
  intro b hb
  obtain ⟨i, hi, rfl⟩ := List.mem_map.mp hb
  obtain ⟨a, ha32, ha⟩ := h.single i hi
  rw [ha, Nat.log2_two_pow]
  exact List.mem_range.mpr ha32

theorem FiltersOk.length_le (h : FiltersOk sys live) : live.length ≤ 32 := by
  have hle := (h.bits_nodup.subperm h.bits_subset).length_le
  rwa [bits, List.length_map, List.length_range] at hle

/-- A bit is free exactly when no live recorder has it. -/
theorem FiltersOk.free_iff (h : FiltersOk sys live) {b : Nat} (hb : b < 32) :
    sys.globalFilter.testBit b = true ↔ b ∉ bits sys live := by
  rw [h.complement b hb, h.mem_bits_iff]
  push Not
  simp only [ne_eq, Bool.not_eq_true]

/-- All 32 filters are in use when `global_filter` has no bit left. -/
theorem FiltersOk.length_eq_iff (h : FiltersOk sys live) :
    live.length = 32 ↔ sys.globalFilter = 0 := by
  have hlength : (bits sys live).length = live.length := List.length_map _
  constructor
  · intro hlen
    have hperm := (h.bits_nodup.subperm h.bits_subset).perm_of_length_le (by simp [hlength, hlen])
    apply Nat.eq_of_testBit_eq
    intro b
    rw [Nat.zero_testBit]
    by_cases hb : b < 32
    · have hused : b ∈ bits sys live := hperm.mem_iff.mpr (List.mem_range.mpr hb)
      rw [← Bool.not_eq_true, h.free_iff hb, not_not]
      exact hused
    · exact Nat.testBit_lt_two_pow (Nat.lt_of_lt_of_le h.small
        (Nat.pow_le_pow_right (by decide) (Nat.not_lt.mp hb)))
  · intro hzero
    have hrange : List.range 32 ⊆ bits sys live := by
      intro b hb
      by_contra hfree
      rw [← h.free_iff (List.mem_range.mp hb), hzero, Nat.zero_testBit] at hfree
      exact absurd hfree (by decide)
    have hge := (List.nodup_range.subperm hrange).length_le
    rw [List.length_range, hlength] at hge
    exact Nat.le_antisymm h.length_le hge

/-- The recorder that `bflog_create` sets up. -/
def created (size mode filter : Nat) : Recorder :=
  { direct := []
    status := bflogStatusReady
    flags := bflogFlagDefault
    level := bflogLevelDefault
    mode := mode
    filter := filter
    queue := { free := size, size := size, wpos := 0, rpos := 0 } }

/-- A creation never fails: it takes a free bit, or one in use when none is free. -/
theorem bflogCreate_cases (hsmall : sys.globalFilter < 2 ^ 32) (log size mode : Nat) :
    (sys.globalFilter = 0 ∧ (bflogCreate sys log size mode).2 = 0) ∨
      ∃ b < 32, sys.globalFilter.testBit b = true ∧ bflogCreate sys log size mode =
        ({ sys with
            globalFilter := sys.globalFilter &&& not32 (2 ^ b)
            logs := Function.update sys.logs log (created size mode (2 ^ b)) }, 0) := by
  by_cases hzero : sys.globalFilter = 0
  · refine .inl ⟨hzero, ?_⟩
    unfold bflogCreate
    rw [hzero, bflogFilterAlloc_zero]
    rfl
  · obtain ⟨b, hb, hbit, halloc⟩ := bflogFilterAlloc_spec hsmall hzero
    refine .inr ⟨b, hb, hbit, ?_⟩
    unfold bflogCreate
    rw [halloc]
    dsimp only
    rw [if_pos (Nat.two_pow_pos b)]
    rfl

/-- Clearing bit `b` leaves every other bit. -/
theorem testBit_clear {g a b : Nat} (ha : a < 32) (hb : b < 32) :
    (g &&& not32 (2 ^ b)).testBit a = true ↔ g.testBit a = true ∧ b ≠ a := by
  have hpow : 2 ^ b < 2 ^ 32 := Nat.pow_lt_pow_right (by decide) hb
  rw [Nat.testBit_and, testBit_not32 hpow ha, Bool.and_eq_true, Nat.testBit_two_pow]
  simp

theorem Inv.create (h : Inv sys live outs) {log : Nat} (hlog : log ∉ live) (size mode : Nat) {b : Nat}
    (hb : b < 32) (hbit : sys.globalFilter.testBit b = true) :
    Inv
      { sys with
        globalFilter := sys.globalFilter &&& not32 (2 ^ b)
        logs := Function.update sys.logs log (created size mode (2 ^ b)) }
      (live.insert log) outs := by
  have hf := h.filters
  have hold : ∀ i ∈ live, Function.update sys.logs log (created size mode (2 ^ b)) i = sys.logs i := by
    intro i hi
    have hne : i ≠ log := fun heq => hlog (heq ▸ hi)
    exact Function.update_of_ne hne _ _
  have hfree : ∀ i ∈ live, (sys.logs i).filter ≠ 2 ^ b := by
    intro i hi heq
    have := (hf.complement b hb).mp hbit i hi
    rw [heq, Nat.testBit_two_pow_self] at this
    exact absurd this (by decide)
  rw [List.insert_of_not_mem hlog]
  refine ⟨⟨List.nodup_cons.mpr ⟨hlog, hf.nodup⟩, ?_, ?_, ?_, ?_⟩, ?_, h.outs_nodup, h.directs⟩
  · intro i hi
    rcases List.mem_cons.mp hi with rfl | hi
    · exact ⟨b, hb, by simp [created]⟩
    · dsimp only
      rw [hold i hi]
      exact hf.single i hi
  · intro i hi j hj heq
    dsimp only at heq
    rcases List.mem_cons.mp hi with hilog | hilive
    · rcases List.mem_cons.mp hj with hjlog | hjlive
      · rw [hilog, hjlog]
      · rw [hilog, hold j hjlive, Function.update_self] at heq
        exact absurd heq.symm (hfree j hjlive)
    · rcases List.mem_cons.mp hj with hjlog | hjlive
      · rw [hjlog, hold i hilive, Function.update_self] at heq
        exact absurd heq (hfree i hilive)
      · rw [hold i hilive, hold j hjlive] at heq
        exact hf.distinct i hilive j hjlive heq
  · exact Nat.lt_of_le_of_lt Nat.and_le_left hf.small
  · intro a ha
    dsimp only
    rw [testBit_clear ha hb, hf.complement a ha, List.forall_mem_cons, Function.update_self]
    have hnew : (created size mode (2 ^ b)).filter.testBit a = false ↔ b ≠ a := by
      rw [created, ← Bool.not_eq_true, testBit_two_pow_iff]
    rw [hnew, and_comm]
    refine and_congr_right fun _ => forall₂_congr fun i hi => ?_
    rw [hold i hi]
  · intro i hi
    rcases List.mem_cons.mp hi with rfl | hi
    · simp [created]
    · dsimp only
      rw [hold i hi]
      exact h.logs i hi

/-- A live recorder that is created again loses its bit. -/
theorem FiltersOk.not_create (h : FiltersOk sys live) {log : Nat} (hlog : log ∈ live)
    (size mode : Nat) {b : Nat} (hb : b < 32) (hbit : sys.globalFilter.testBit b = true) :
    ¬ FiltersOk
      { sys with
        globalFilter := sys.globalFilter &&& not32 (2 ^ b)
        logs := Function.update sys.logs log (created size mode (2 ^ b)) } live := by
  intro h'
  obtain ⟨a, ha, hfilter⟩ := h.single log hlog
  have hself : (sys.logs log).filter.testBit a = true := by
    rw [hfilter, Nat.testBit_two_pow_self]
  have hused : ¬ sys.globalFilter.testBit a = true := by
    rw [h.complement a ha]
    intro hall
    rw [hall log hlog] at hself
    exact absurd hself (by decide)
  have hab : a ≠ b := fun heq => hused (heq ▸ hbit)
  refine hused ((testBit_clear ha hb).mp ((h'.complement a ha).mpr fun i hi => ?_)).1
  dsimp only
  by_cases hi' : i = log
  · subst hi'
    rw [Function.update_self, created, ← Bool.not_eq_true, testBit_two_pow_iff]
    exact Ne.symm hab
  · rw [Function.update_of_ne hi', ← Bool.not_eq_true]
    intro hset
    exact hi' (h.distinct i hi log hlog (by rw [h.bit_eq hi hset, hfilter]))

theorem Inv.delete (h : Inv sys live outs) {log : Nat} (hlog : log ∈ live) :
    (bflogDelete sys log).2 = 0 ∧ Inv (bflogDelete sys log).1 (live.erase log) outs := by
  have hf := h.filters
  obtain ⟨hstatus, hdirect⟩ := h.logs log hlog
  have hmem : ∀ {i}, i ∈ live.erase log ↔ i ≠ log ∧ i ∈ live := hf.nodup.mem_erase_iff
  unfold bflogDelete
  rw [if_pos (.inl hstatus), hdirect]
  have hkeep : ∀ i ∈ live.erase log, Function.update sys.logs log
      { sys.logs log with direct := [], status := bflogStatusIllegal } i = sys.logs i :=
    fun i hi => Function.update_of_ne (hmem.mp hi).1 _ _
  refine ⟨rfl, ⟨hf.nodup.erase log, ?_, ?_, Nat.mod_lt _ (by decide), ?_⟩, ?_, h.outs_nodup,
    h.directs⟩
  · intro i hi
    dsimp only
    rw [hkeep i hi]
    exact hf.single i (hmem.mp hi).2
  · intro i hi j hj heq
    dsimp only at heq
    rw [hkeep i hi, hkeep j hj] at heq
    exact hf.distinct i (hmem.mp hi).2 j (hmem.mp hj).2 heq
  · intro b hb
    dsimp only [bflogFilterFree]
    rw [Nat.testBit_mod_two_pow, Nat.testBit_or, decide_eq_true hb, Bool.true_and, Bool.or_eq_true,
      hf.complement b hb]
    constructor
    · rintro (hall | hset) i hi
      · rw [hkeep i hi]
        exact hall i (hmem.mp hi).2
      · rw [hkeep i hi, ← Bool.not_eq_true]
        intro hset'
        refine (hmem.mp hi).1 (hf.distinct i (hmem.mp hi).2 log hlog ?_)
        rw [hf.bit_eq (hmem.mp hi).2 hset', hf.bit_eq hlog hset]
    · intro hall
      by_cases hset : (sys.logs log).filter.testBit b = true
      · exact .inr hset
      · refine .inl fun i hi => ?_
        by_cases hi' : i = log
        · subst hi'
          simpa using hset
        · have := hall i (hmem.mpr ⟨hi', hi⟩)
          rwa [hkeep i (hmem.mpr ⟨hi', hi⟩)] at this
  · intro i hi
    dsimp only
    rw [hkeep i hi]
    exact h.logs i (hmem.mp hi).2

theorem Inv.directCreate (h : Inv sys live outs) (direct type color : Nat) (lock : Bool) :
    Inv (bflogDirectCreate sys direct type color lock).1 live (outs.insert direct) := by
  refine ⟨⟨h.filters.nodup, h.filters.single, h.filters.distinct, h.filters.small,
    h.filters.complement⟩, h.logs, h.outs_nodup.insert, fun d hd => ?_⟩
  unfold bflogDirectCreate
  dsimp only
  by_cases hdirect : d = direct
  · subst hdirect
    rw [Function.update_self]
  · rw [Function.update_of_ne hdirect]
    exact h.directs d ((List.mem_insert_iff.mp hd).resolve_left hdirect)

/-- What deleting an output does: nothing when its lock fails, else its filter
word is added to the free bits. -/
theorem bflogDirectDelete_cases {direct : Nat} (hinit : (sys.directs direct).status =
    bflogDirectStatusInit) (lockFails : Bool) :
    if (sys.directs direct).lock = true ∧ lockFails = true then
      bflogDirectDelete sys direct lockFails = (sys, -1)
    else
      bflogDirectDelete sys direct lockFails =
        ({ sys with
            globalFilter := bflogFilterFree sys.globalFilter (sys.directs direct).filter
            directs := Function.update sys.directs direct
              { sys.directs direct with
                status := bflogDirectStatusIllegal
                type := bflogDirectTypeIllegal
                lock := false } }, 0) := by
  unfold bflogDirectDelete
  rw [if_pos hinit]
  by_cases hfails : (sys.directs direct).lock = true ∧ lockFails = true
  · rw [if_pos hfails, if_pos hfails]
  · rw [if_neg hfails, if_neg hfails]

theorem bflogFilterFree_of_subset {g filter : Nat} (hg : g < 2 ^ 32)
    (hsub : ∀ b < 32, filter.testBit b = true → g.testBit b = true) :
    bflogFilterFree g filter = g := by
  apply Nat.eq_of_testBit_eq
  intro b
  rw [bflogFilterFree, Nat.testBit_mod_two_pow, Nat.testBit_or]
  by_cases hb : b < 32
  · rw [decide_eq_true hb, Bool.true_and]
    by_cases hset : filter.testBit b = true
    · rw [hsub b hb hset, Bool.true_or]
    · rw [Bool.not_eq_true] at hset
      rw [hset, Bool.or_false]
  · rw [decide_eq_false hb, Bool.false_and, Nat.testBit_lt_two_pow (Nat.lt_of_lt_of_le hg
      (Nat.pow_le_pow_right (by decide) (Nat.not_lt.mp hb)))]

/-- A bit that is in use and freed is missing from the complement. -/
theorem FiltersOk.not_free (h : FiltersOk sys live) {filter b : Nat} (hb : b < 32)
    (hset : filter.testBit b = true) (hused : ¬ sys.globalFilter.testBit b = true) {sys' : Sys}
    (hlogs : sys'.logs = sys.logs)
    (hfree : sys'.globalFilter = bflogFilterFree sys.globalFilter filter) :
    ¬ FiltersOk sys' live := by
  intro h'
  have hnow : sys'.globalFilter.testBit b = true := by
    rw [hfree, bflogFilterFree, Nat.testBit_mod_two_pow, Nat.testBit_or, decide_eq_true hb, hset,
      Bool.or_true, Bool.true_and]
  rw [h'.complement b hb, hlogs, ← h.complement b hb] at hnow
  exact hused hnow

theorem Inv.directDelete (h : Inv sys live outs) {direct : Nat}
    (hsub : ∀ b < 32, (sys.directs direct).filter.testBit b = true →
      sys.globalFilter.testBit b = true) :
    Inv
      { sys with
        globalFilter := bflogFilterFree sys.globalFilter (sys.directs direct).filter
        directs := Function.update sys.directs direct
          { sys.directs direct with
            status := bflogDirectStatusIllegal
            type := bflogDirectTypeIllegal
            lock := false } }
      live (outs.erase direct) := by
  have hf := h.filters
  rw [bflogFilterFree_of_subset hf.small hsub]
  refine ⟨⟨hf.nodup, hf.single, hf.distinct, hf.small, hf.complement⟩, h.logs,
    h.outs_nodup.erase direct, fun d hd => ?_⟩
  obtain ⟨hne, hmem⟩ := h.outs_nodup.mem_erase_iff.mp hd
  dsimp only
  rw [Function.update_of_ne hne]
  exact h.directs d hmem

/-! ## Whole runs -/

theorem Inv.runOk_iff (h : Inv sys live outs) {ops : List Op} :
    RunOk sys live outs ops ↔ SafeRun sys live outs ops := by
  induction ops generalizing sys live outs with
  | nil => exact ⟨fun _ => trivial, fun _ => h.filters⟩
  | cons op ops ih =>
    have hf := h.filters
    cases op with
    | create log size mode =>
      rcases bflogCreate_cases hf.small log size mode with
        ⟨hzero, hret⟩ | ⟨b, hb, hbit, hcreate⟩
      · have hlen := hf.length_eq_iff.mpr hzero
        simp only [RunOk, SafeRun, hret, hlen]
        constructor
        · rintro ⟨-, hfails, -⟩
          exact absurd rfl (hfails.mpr trivial)
        · rintro ⟨⟨-, hroom⟩, -⟩
          exact absurd hroom (by decide)
      · have hlen : live.length ≠ 32 := by
          intro hfull
          rw [hf.length_eq_iff.mp hfull, Nat.zero_testBit] at hbit
          exact absurd hbit (by decide)
        have hroom : live.length < 32 := by
          have hle := hf.length_le
          omega
        simp only [RunOk, SafeRun, hcreate]
        by_cases hlog : log ∈ live
        · constructor
          · rintro ⟨-, -, -, hrest⟩
            rw [if_pos trivial, List.insert_of_mem hlog] at hrest
            exact absurd hrest.filtersOk (hf.not_create hlog size mode hb hbit)
          · rintro ⟨⟨hnew, -⟩, -⟩
            exact absurd hlog hnew
        · have hrest := ih (h.create hlog size mode hb hbit)
          constructor
          · rintro ⟨-, -, -, hrun⟩
            exact ⟨⟨hlog, hroom⟩, hrest.mp hrun⟩
          · rintro ⟨-, hrun⟩
            exact ⟨hf, ⟨fun hfails => absurd rfl hfails, fun hfull => absurd hfull hlen⟩,
              fun hfails => absurd rfl hfails, hrest.mpr hrun⟩
    | delete log =>
      simp only [RunOk, SafeRun]
      constructor
      · rintro ⟨-, hrun⟩ hlog
        exact (ih (h.delete hlog).2).mp (hrun hlog)
      · intro hrun
        exact ⟨hf, fun hlog => (ih (h.delete hlog).2).mpr (hrun hlog)⟩
    | directCreate direct type color lock =>
      have hrest := ih (h.directCreate direct type color lock)
      simp only [RunOk, SafeRun]
      exact ⟨fun hrun => hrest.mp hrun.2, fun hrun => ⟨hf, hrest.mpr hrun⟩⟩
    | directDelete direct lockFails =>
      simp only [RunOk, SafeRun]
      have hdelete : direct ∈ outs → (RunOk (bflogDirectDelete sys direct lockFails).1 live
          (if (bflogDirectDelete sys direct lockFails).2 = 0 then outs.erase direct else outs) ops ↔
          SafeDirectDelete sys direct lockFails ∧
            SafeRun (bflogDirectDelete sys direct lockFails).1 live
              (if (bflogDirectDelete sys direct lockFails).2 = 0 then outs.erase direct
                else outs) ops) := by
        intro hdirect
        have hcases := bflogDirectDelete_cases (h.directs direct hdirect) lockFails
        split at hcases
        · rename_i hfails
          rw [hcases]
          exact ⟨fun hrun => ⟨.inl hfails, (ih h).mp hrun⟩, fun hrun => (ih h).mpr hrun.2⟩
        · rename_i hfails
          rw [hcases]
          constructor
          · intro hrun
            have hsub : ∀ b < 32, (sys.directs direct).filter.testBit b = true →
                sys.globalFilter.testBit b = true := by
              intro b hb hset
              by_contra hused
              have hnext := hrun.filtersOk
              dsimp only at hnext
              refine hf.not_free hb hset hused ?_ ?_ hnext
              · rfl
              · rfl
            exact ⟨.inr hsub, (ih (h.directDelete hsub)).mp hrun⟩
          · rintro ⟨hsafe | hsub, hrun⟩
            · exact absurd hsafe hfails
            · exact (ih (h.directDelete hsub)).mpr hrun
      exact ⟨fun hrun hdirect => (hdelete hdirect).mp (hrun.2 hdirect),
        fun hrun => ⟨hf, fun hdirect => (hdelete hdirect).mpr (hrun hdirect)⟩⟩

/-- At boot no filter is in use, and the objects are whatever memory holds. -/
def Sys.boot (logs : Nat → Recorder) (directs : Nat → Direct) : Sys :=
  { globalFilter := 0xffffffff, logs := logs, directs := directs }

theorem Inv.boot (logs : Nat → Recorder) (directs : Nat → Direct) :
    Inv (Sys.boot logs directs) [] [] := by
  refine ⟨⟨List.nodup_nil, by simp, by simp, (by decide : 0xffffffff < 2 ^ 32), ?_⟩, by simp,
    List.nodup_nil, by simp⟩
  intro b hb
  have hset : (2 ^ 32 - 1).testBit b = true := by
    rw [Nat.testBit_two_pow_sub_one, decide_eq_true hb]
  exact ⟨fun _ i hi => absurd hi List.not_mem_nil, fun _ => hset⟩

/-- From boot, the filters are in order through a run if and only if each call
of the run is safe. -/
theorem filter_runs_ok_iff_safe (logs : Nat → Recorder) (directs : Nat → Direct) (ops : List Op) :
    RunOk (Sys.boot logs directs) [] [] ops ↔ SafeRun (Sys.boot logs directs) [] [] ops :=
  (Inv.boot logs directs).runOk_iff

/-- An output whose memory was that of a recorder's filter word before: when it
is deleted, the bit of the live recorder is free again. -/
theorem direct_delete_frees_live_bit :
    ¬ RunOk (Sys.boot (fun _ => created 64 0 0) fun _ => ⟨0, 0, 0, 0, 0x80000000, false⟩) [] []
      [.create 0 64 0, .directCreate 0 1 0 false, .directDelete 0 false] := by
  rintro ⟨-, -, -, -, -, hrun⟩
  have hok := (hrun (by decide)).filtersOk
  have hheld := (hok.complement 31 (by decide)).mp (by decide +kernel) 0 (by decide)
  revert hheld
  decide +kernel

end BouffaloSdk.Bflog
