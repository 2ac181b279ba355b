import BouffaloSdk.Kit.Nor

/-!
# The flash driver

`bflb_flash_erase` and `bflb_flash_write` of `drivers/lhal`, as NOR steps:
an erase covers every 4 KB sector that the range meets. Each call may fail,
and then does nothing; `faults` holds the results of the coming calls. `log`
collects the steps carried out, oldest first.
-/

namespace BouffaloSdk
open Kit

structure Flash where
  mem : Nor.Mem
  faults : List Int
  log : List Nor.Step

/-- Flash on which every call succeeds. -/
def Flash.ofMem (mem : Nor.Mem) : Flash := { mem := mem, faults := [], log := [] }

def Flash.done (flash : Flash) (steps : List Nor.Step) : Flash :=
  { flash with mem := Nor.run flash.mem steps, log := flash.log ++ steps }

def Flash.perform (flash : Flash) (steps : List Nor.Step) : Flash × Int :=
  match flash.faults with
  | [] => (flash.done steps, 0)
  | code :: rest =>
    if code = 0 then ({ flash with faults := rest }.done steps, 0)
    else ({ flash with faults := rest }, code)

/-- The sectors that `len` bytes from `startaddr` on meet. -/
def sectors (startaddr len : Nat) : List Nat :=
  let first := startaddr / Nor.sectorSize
  let last := (startaddr + len - 1) / Nor.sectorSize
  (List.range (last + 1 - first)).map (first + ·)

def bflbFlashErase (flash : Flash) (startaddr len : Nat) : Flash × Int :=
  flash.perform ((sectors startaddr len).map .erase)

def bflbFlashWrite (flash : Flash) (addr : Nat) (data : List UInt8) : Flash × Int :=
  flash.perform [.program addr data]

def bflbFlashRead (flash : Flash) (addr len : Nat) : List UInt8 :=
  Nor.read flash.mem addr len

/-- What happened between two states of the flash. -/
structure Flash.Extends (flash flash' : Flash) (steps : List Nor.Step) : Prop where
  mem_eq : flash'.mem = Nor.run flash.mem steps
  log_eq : flash'.log = flash.log ++ steps
  faults_suffix : ∃ n, flash'.faults = flash.faults.drop n

variable {flash flash' flash'' : Flash} {steps steps' : List Nor.Step}

theorem Flash.Extends.refl (flash : Flash) : flash.Extends flash [] :=
  ⟨rfl, (List.append_nil _).symm, 0, rfl⟩

theorem Flash.Extends.trans (h : flash.Extends flash' steps) (h' : flash'.Extends flash'' steps') :
    flash.Extends flash'' (steps ++ steps') := by
  obtain ⟨n, hn⟩ := h.faults_suffix
  obtain ⟨n', hn'⟩ := h'.faults_suffix
  refine ⟨?_, ?_, n + n', ?_⟩
  · rw [h'.mem_eq, h.mem_eq, Nor.run_append]
  · rw [h'.log_eq, h.log_eq, List.append_assoc]
  · rw [hn', hn, List.drop_drop]

/-- A call does all of its steps or none of them. -/
theorem Flash.perform_extends (flash : Flash) (steps : List Nor.Step) :
    flash.Extends (flash.perform steps).1 (if (flash.perform steps).2 = 0 then steps else []) := by
  unfold Flash.perform
  cases hf : flash.faults with
  | nil => exact ⟨rfl, rfl, 0, rfl⟩
  | cons code rest =>
    by_cases hcode : code = 0
    · simp only [hcode, if_true]
      exact ⟨rfl, rfl, 1, by simp [Flash.done, hf]⟩
    · simp only [hcode, if_false]
      exact ⟨rfl, (List.append_nil _).symm, 1, by simp [hf]⟩

/-- The next `n` calls succeed. -/
def Flash.Ready (flash : Flash) (n : Nat) : Prop := ∀ code ∈ flash.faults.take n, code = 0

instance (flash : Flash) (n : Nat) : Decidable (flash.Ready n) :=
  inferInstanceAs (Decidable (∀ code ∈ _, _))

/-- The results of the next `n` calls are used up. -/
def Flash.skip (flash : Flash) (n : Nat) : Flash := { flash with faults := flash.faults.drop n }

theorem Flash.ready_of_no_faults (h : flash.faults = []) (n : Nat) : flash.Ready n := by
  intro code hcode
  rw [h, List.take_nil] at hcode
  exact absurd hcode List.not_mem_nil

theorem Flash.skip_of_no_faults (h : flash.faults = []) (n : Nat) : flash.skip n = flash := by
  rw [skip, h, List.drop_nil, ← h]

theorem Flash.Ready.skip {n : Nat} (h : flash.Ready (n + 1)) : (flash.skip 1).Ready n := by
  intro code hcode
  simp only [Flash.skip] at hcode
  rw [List.take_drop, Nat.add_comm] at hcode
  exact h code (List.mem_of_mem_drop hcode)

theorem Flash.perform_of_ready {n : Nat} (h : flash.Ready (n + 1)) (steps : List Nor.Step) :
    flash.perform steps = ((flash.skip 1).done steps, 0) := by
  unfold Flash.perform
  cases hf : flash.faults with
  | nil => rw [skip_of_no_faults hf]
  | cons code rest =>
    have hcode : code = 0 := h code (by rw [hf, List.take_succ_cons]; exact List.mem_cons_self)
    simp only [hcode, if_true, skip, hf, List.drop_succ_cons, List.drop_zero]

theorem Flash.ready_succ_iff (flash : Flash) (steps : List Nor.Step) (n : Nat) :
    flash.Ready (n + 1) ↔ (flash.perform steps).2 = 0 ∧ (flash.perform steps).1.Ready n := by
  unfold Flash.perform
  cases hf : flash.faults with
  | nil => simp [Flash.Ready, Flash.done, hf]
  | cons code rest =>
    by_cases hcode : code = 0
    · simp [Flash.Ready, Flash.done, hf, hcode]
    · simp [Flash.Ready, hf, hcode]

theorem Flash.perform_log (flash : Flash) (steps : List Nor.Step) :
    (flash.perform steps).1.log =
      flash.log ++ if (flash.perform steps).2 = 0 then steps else [] :=
  (flash.perform_extends steps).log_eq

/-- Calls of the driver one after the other, whatever they return. -/
def Flash.performAll (flash : Flash) (calls : List (List Nor.Step)) : Flash :=
  calls.foldl (fun flash steps => (flash.perform steps).1) flash

theorem Flash.performAll_append (flash : Flash) (calls calls' : List (List Nor.Step)) :
    flash.performAll (calls ++ calls') = (flash.performAll calls).performAll calls' :=
  List.foldl_append

theorem Flash.performAll_log_le (flash : Flash) (calls : List (List Nor.Step)) :
    (flash.performAll calls).log.length ≤ flash.log.length + calls.flatten.length := by
  induction calls generalizing flash with
  | nil => exact Nat.le_refl _
  | cons steps calls ih =>
    have hrest := ih (flash.perform steps).1
    have hfirst : (flash.perform steps).1.log.length ≤ flash.log.length + steps.length := by
      rw [(flash.perform_extends steps).log_eq, List.length_append]
      split
      · exact Nat.le_refl _
      · exact Nat.le_add_right _ _
    rw [List.flatten_cons, List.length_append]
    exact hrest.trans (by omega)

theorem Flash.performAll_of_no_faults (h : flash.faults = []) (calls : List (List Nor.Step)) :
    flash.performAll calls = flash.done calls.flatten := by
  induction calls generalizing flash with
  | nil => simp [Flash.performAll, Flash.done]
  | cons steps calls ih =>
    have hfirst : (flash.perform steps).1 = flash.done steps := by
      rw [Flash.perform, h]
    rw [Flash.performAll, List.foldl_cons, hfirst]
    refine (@ih (flash.done steps) h).trans ?_
    simp [Flash.done, Nor.run_append]

/-- The steps of all calls are carried out exactly when no call fails. -/
theorem Flash.performAll_log_iff {calls : List (List Nor.Step)} (hne : ∀ steps ∈ calls, steps ≠ []) :
    (flash.performAll calls).log = flash.log ++ calls.flatten ↔ flash.Ready calls.length := by
  induction calls generalizing flash with
  | nil => simp [Flash.performAll, Flash.Ready]
  | cons steps calls ih =>
    have hsteps := List.length_pos_of_ne_nil (hne steps List.mem_cons_self)
    have ih := @ih (flash.perform steps).1 fun s hs => hne s (List.mem_cons_of_mem _ hs)
    have hfirst := flash.perform_log steps
    rw [Flash.performAll, List.foldl_cons, List.flatten_cons, ← List.append_assoc,
      List.length_cons, flash.ready_succ_iff steps]
    by_cases hok : (flash.perform steps).2 = 0
    · rw [if_pos hok] at hfirst
      rw [← hfirst]
      exact ih.trans (and_iff_right hok).symm
    · rw [if_neg hok, List.append_nil] at hfirst
      refine iff_of_false (fun hlog => ?_) fun hready => hok hready.1
      -- the steps that failed are missing
      have hle := (flash.perform steps).1.performAll_log_le calls
      have hlen := congrArg List.length hlog
      rw [Flash.performAll, hfirst] at hle
      simp only [List.length_append] at hlen hle
      omega

variable {lo hi : Nat}

/-- The flash changed by steps that touch nothing outside `[lo, hi)`. -/
def Flash.ChangedWithin (flash flash' : Flash) (lo hi : Nat) : Prop :=
  ∃ steps, flash.Extends flash' steps ∧ ∀ s ∈ steps, ∀ a, Nor.Step.Touches s a → lo ≤ a ∧ a < hi

theorem Flash.ChangedWithin.refl (flash : Flash) (lo hi : Nat) : flash.ChangedWithin flash lo hi :=
  ⟨[], .refl flash, fun _ hs => absurd hs List.not_mem_nil⟩

theorem Flash.ChangedWithin.trans (h : flash.ChangedWithin flash' lo hi)
    (h' : flash'.ChangedWithin flash'' lo hi) : flash.ChangedWithin flash'' lo hi := by
  obtain ⟨steps, hext, hsteps⟩ := h
  obtain ⟨steps', hext', hsteps'⟩ := h'
  refine ⟨steps ++ steps', hext.trans hext', fun s hs => ?_⟩
  rcases List.mem_append.mp hs with hs | hs
  · exact hsteps s hs
  · exact hsteps' s hs

theorem Flash.ChangedWithin.faults (h : flash.ChangedWithin flash' lo hi)
    (hf : flash.faults = []) : flash'.faults = [] := by
  obtain ⟨steps, hext, -⟩ := h
  obtain ⟨n, hn⟩ := hext.faults_suffix
  rw [hn, hf, List.drop_nil]

theorem Flash.ChangedWithin.read_eq (h : flash.ChangedWithin flash' lo hi) {addr n : Nat}
    (clear : hi ≤ addr ∨ addr + n ≤ lo) :
    Nor.read flash'.mem addr n = Nor.read flash.mem addr n := by
  obtain ⟨steps, hext, hsteps⟩ := h
  rw [hext.mem_eq]
  apply Nor.read_run_of_not_touches
  intro s hs i hi' ht
  have := hsteps s hs _ ht
  omega

theorem Flash.perform_changedWithin (flash : Flash) {steps : List Nor.Step}
    (h : ∀ s ∈ steps, ∀ a, s.Touches a → lo ≤ a ∧ a < hi) :
    flash.ChangedWithin (flash.perform steps).1 lo hi := by
  refine ⟨_, flash.perform_extends steps, ?_⟩
  split
  · exact h
  · exact fun s hs => absurd hs List.not_mem_nil

/-- The sector boundary at or below `a`. -/
def sectorFloor (a : Nat) : Nat := a / 4096 * 4096

/-- The sector boundary at or above `a`. -/
def sectorCeil (a : Nat) : Nat := (a + 4095) / 4096 * 4096

theorem bflbFlashErase_changedWithin (flash : Flash) {startaddr len : Nat} (hlen : 0 < len)
    (hlo : lo ≤ startaddr) (hhi : startaddr + len ≤ hi) :
    flash.ChangedWithin (bflbFlashErase flash startaddr len).1 (sectorFloor lo) (sectorCeil hi) := by
  apply flash.perform_changedWithin
  intro s hs a ht
  obtain ⟨sector, hsector, rfl⟩ := List.mem_map.mp hs
  obtain ⟨i, hi', rfl⟩ := List.mem_map.mp hsector
  rw [List.mem_range] at hi'
  simp only [Nor.Step.Touches, Nor.sectorSize] at ht hi'
  unfold sectorFloor sectorCeil
  omega

theorem bflbFlashWrite_changedWithin (flash : Flash) {addr : Nat} {data : List UInt8}
    (hlo : lo ≤ addr) (hhi : addr + data.length ≤ hi) :
    flash.ChangedWithin (bflbFlashWrite flash addr data).1 lo hi := by
  apply flash.perform_changedWithin
  intro s hs a ht
  rw [List.mem_singleton] at hs
  subst hs
  obtain ⟨hle, hlt⟩ := ht
  exact ⟨by omega, by omega⟩

theorem Flash.ChangedWithin.mono {lo' hi' : Nat} (h : flash.ChangedWithin flash' lo hi)
    (hlo : lo' ≤ lo) (hhi : hi ≤ hi') : flash.ChangedWithin flash' lo' hi' := by
  obtain ⟨steps, hext, hsteps⟩ := h
  refine ⟨steps, hext, fun s hs a ht => ?_⟩
  have := hsteps s hs a ht
  omega

end BouffaloSdk
