import BouffaloSdk.Ota.KeptUpdates

/-!
# Power loss during an update

An update erases one slot and programs it. If that is the slot that is not
selected, the next boot finds the old table or the new one, wherever the
power fails; if it is the selected one, everything hangs on what the other
slot still holds.
-/

namespace BouffaloSdk.Ota
open Kit Kit.Word BouffaloSdk.Partition Mtd PtTableStuffConfig

variable {sys : Sys} {r : Returned} {op : Op} {mem mem' : Nor.Mem} {id : PtTableIdType}
  {s t : PtTableStuffConfig}

/-! ## The part of a slot that matters -/

/-- The header, the entries in use and the CRC behind them. -/
def used (t : PtTableStuffConfig) : List UInt8 := t.get 0 (16 + t.entriesLen + 4)

/-- Two slots hold the same table; behind its CRC they may differ. -/
def SameTable (s t : PtTableStuffConfig) : Prop := used s = used t

instance (s t : PtTableStuffConfig) : Decidable (SameTable s t) :=
  inferInstanceAs (Decidable (used s = used t))

theorem get_used {off n : Nat} (h : off + n ≤ 16 + t.entriesLen + 4) :
    t.get off n = slice (used t) off n := by
  rw [used, Record.get, Record.get, slice_slice _ h, Nat.zero_add]

theorem SameTable.entriesLen_eq (h : SameTable s t) : s.entriesLen = t.entriesLen := by
  have hcnt : s.get 6 2 = t.get 6 2 := by
    rw [get_used (t := s) (by omega), get_used (t := t) (by omega), show used s = used t from h]
  rw [entriesLen, entriesLen, entryCnt, entryCnt, Record.word, Record.word, hcnt]

theorem SameTable.get_eq (h : SameTable s t) {off n : Nat}
    (hfit : off + n ≤ 16 + t.entriesLen + 4) : s.get off n = t.get off n := by
  rw [get_used (t := s) (by rw [h.entriesLen_eq]; exact hfit), get_used (t := t) hfit,
    show used s = used t from h]

theorem SameTable.word_eq (h : SameTable s t) {off n : Nat}
    (hfit : off + n ≤ 16 + t.entriesLen + 4) : s.word off n = t.word off n := by
  rw [Record.word, Record.word, h.get_eq hfit]

theorem SameTable.valid_eq (h : SameTable s t) : ptTableValid s = ptTableValid t := by
  have hlen := h.entriesLen_eq
  have hmagic : s.magicCode = t.magicCode := h.word_eq (by omega)
  have hcnt : s.entryCnt = t.entryCnt := h.word_eq (by omega)
  have hcrc : s.crc32 = t.crc32 := h.word_eq (by omega)
  have hheader : s.headerCrc = t.headerCrc := by
    rw [headerCrc, headerCrc, h.get_eq (by omega)]
  have hentries : s.entriesCrc32 = t.entriesCrc32 := by
    rw [entriesCrc32, entriesCrc32, hlen, h.word_eq (by omega)]
  have hbody : s.bodyCrc = t.bodyCrc := by
    rw [bodyCrc, bodyCrc, hlen, h.get_eq (by omega)]
  rw [ptTableValid, ptTableValid, hmagic, hcnt, hcrc, hheader, hentries, hbody]

theorem SameTable.age_eq (h : SameTable s t) : s.age = t.age :=
  h.word_eq (by unfold entriesLen; omega)

/-! ## One interrupted table write -/

/-- What may be left of an interrupted write of `t` to `id`, a torn slot being
assumed to fail its CRC. -/
def LeftBy (mem : Nor.Mem) (id : PtTableIdType) (new : PtTableStuffConfig) (mem' : Nor.Mem) : Prop :=
  readTableMem mem' id = readTableMem mem id ∨ SameTable (readTableMem mem' id) new ∨
    ptTableValid (readTableMem mem' id) = false

/-- The next boot selects the old table or the new one. -/
def OldOrNew (mem : Nor.Mem) (new : PtTableStuffConfig) (mem' : Nor.Mem) : Prop :=
  ∃ table, activeTable mem' = some table ∧
    ((∃ old, activeTable mem = some old ∧ SameTable table old) ∨ SameTable table new)

/-- The written slot is not the selected one, or the other slot holds a copy
of the selected table or of the new one. -/
def Spares (mem : Nor.Mem) (id : PtTableIdType) (new : PtTableStuffConfig) : Prop :=
  id ≠ selectMem mem ∨
    (ptTableValid (readTableMem mem id.lnot) = true ∧
      (SameTable (readTableMem mem id.lnot) (readTableMem mem (selectMem mem)) ∨
        SameTable (readTableMem mem id.lnot) new))

instance (mem : Nor.Mem) (id : PtTableIdType) (new : PtTableStuffConfig) :
    Decidable (Spares mem id new) :=
  inferInstanceAs (Decidable (_ ∨ _ ∧ (_ ∨ _)))

theorem oldOrNew_of_other (hid : id ≠ .ptTableIdInvalid)
    (hactive : selectMem mem ≠ .ptTableIdInvalid) (spares : Spares mem id t)
    (hother : readTableMem mem' id.lnot = readTableMem mem id.lnot)
    (selected : ptTableValid (readTableMem mem id.lnot) = true → selectMem mem' = id.lnot) :
    OldOrNew mem t mem' := by
  have hold : activeTable mem = some (readTableMem mem (selectMem mem)) := activeTable_eq rfl hactive
  have hmem' : ∀ hvalid : ptTableValid (readTableMem mem id.lnot) = true,
      activeTable mem' = some (readTableMem mem id.lnot) := by
    intro hvalid
    rw [activeTable_eq (selected hvalid) (ne_invalid_lnot id), hother]
  rcases spares with hne | ⟨hvalid, hsame⟩
  · have hsel : selectMem mem = id.lnot :=
      (eq_or_eq_lnot hid hactive).resolve_left fun h => hne h.symm
    have hvalid : ptTableValid (readTableMem mem id.lnot) = true :=
      valid_of_selectMem hsel (ne_invalid_lnot id)
    rw [hsel] at hold
    exact ⟨_, hmem' hvalid, .inl ⟨_, hold, rfl⟩⟩
  · rcases hsame with old | new
    · exact ⟨_, hmem' hvalid, .inl ⟨_, hold, old⟩⟩
    · exact ⟨_, hmem' hvalid, .inr new⟩

theorem selectMem_of_invalid (hid : id ≠ .ptTableIdInvalid)
    (invalid : ptTableValid (readTableMem mem id) = false)
    (valid : ptTableValid (readTableMem mem id.lnot) = true) : selectMem mem = id.lnot := by
  rw [selectMem_eq (ne_invalid_lnot id) valid, if_pos]
  intro hother
  rw [lnot_lnot hid, invalid] at hother
  exact absurd hother (by simp)

theorem readTableMem_invalid (mem : Nor.Mem) :
    readTableMem mem .ptTableIdInvalid = readTableMem mem .ptTableId1 := by
  apply Record.ext
  rw [bytes_readTableMem, bytes_readTableMem]
  rfl

theorem readTableMem_all (hid : id ≠ .ptTableIdInvalid)
    (same : readTableMem mem' id = readTableMem mem id)
    (other : readTableMem mem' id.lnot = readTableMem mem id.lnot) (id' : PtTableIdType) :
    readTableMem mem' id' = readTableMem mem id' := by
  by_cases hid' : id' = .ptTableIdInvalid
  · subst hid'
    rw [readTableMem_invalid, readTableMem_invalid]
    rcases eq_or_eq_lnot hid (show PtTableIdType.ptTableId1 ≠ .ptTableIdInvalid by decide) with h | h
    · rw [h, same]
    · rw [h, other]
  · rcases eq_or_eq_lnot hid hid' with h | h
    · rw [h, same]
    · rw [h, other]

/-- Atomicity of one table write is exactly that it spares the active table. -/
theorem oldOrNew_iff (hid : id ≠ .ptTableIdInvalid) (hactive : selectMem mem ≠ .ptTableIdInvalid)
    (valid : ptTableValid t = true) :
    (∀ mem', Nor.Crash mem (tableSteps id t) mem' → LeftBy mem id t mem' → OldOrNew mem t mem') ↔
      Spares mem id t := by
  constructor
  · intro atomic
    by_cases hsel : id = selectMem mem
    · -- the power fails between the erase and the first programmed byte
      have hcrash : Nor.Crash mem (tableSteps id t)
          (Nor.Step.apply mem (.erase (id.address / Nor.sectorSize))) :=
        .after (.before _ _)
      have hinvalid := invalid_of_erased (t := readTableMem _ id)
        ((bytes_readTableMem _ id).trans (read_erased mem id))
      have hother := readTableMem_lnot_of_crash hid hcrash
      obtain ⟨table, htable, hsame⟩ := atomic _ hcrash (.inr (.inr hinvalid))
      have hsel' : selectMem (Nor.Step.apply mem (.erase (id.address / Nor.sectorSize))) ≠
          .ptTableIdInvalid := by
        intro h
        rw [activeTable, if_pos h] at htable
        exact absurd htable (by simp)
      rcases eq_or_eq_lnot hid hsel' with same | other
      · rw [valid_of_selectMem same hid] at hinvalid
        exact absurd hinvalid (by simp)
      · have hvalid := valid_of_selectMem other (ne_invalid_lnot id)
        rw [activeTable_eq other (ne_invalid_lnot id)] at htable
        obtain ⟨⟩ := Option.some.inj htable
        rw [hother] at hvalid hsame
        refine .inr ⟨hvalid, ?_⟩
        rcases hsame with ⟨old, hold, hsame⟩ | hsame
        · rw [activeTable_eq rfl hactive] at hold
          obtain ⟨⟩ := Option.some.inj hold
          exact .inl hsame
        · exact .inr hsame
    · exact .inl hsel
  · intro spares mem' hcrash hleft
    have hother := readTableMem_lnot_of_crash hid hcrash
    rcases hleft with same | new | torn
    · have hall := readTableMem_all hid same hother
      refine ⟨_, (activeTable_congr hall).trans (activeTable_eq rfl hactive), .inl ⟨_, ?_, rfl⟩⟩
      exact activeTable_eq rfl hactive
    · have hvalid : ptTableValid (readTableMem mem' id) = true := by rw [new.valid_eq, valid]
      by_cases hover : Overtakes id (readTableMem mem' id) (readTableMem mem' id.lnot)
      · have hsel := selectMem_eq hid hvalid
        rw [if_pos hover] at hsel
        exact ⟨_, activeTable_eq hsel hid, .inr new⟩
      · have hsel := selectMem_eq hid hvalid
        rw [if_neg hover] at hsel
        exact oldOrNew_of_other hid hactive spares hother fun _ => hsel
    · refine oldOrNew_of_other hid hactive spares hother fun hvalid => ?_
      rw [← hother] at hvalid
      exact selectMem_of_invalid hid torn hvalid

/-! ## Every reachable state -/

/-- The states that completed calls reach from a boot with a valid table. -/
inductive Reachable (mem : Nor.Mem) : Sys → Prop
  | boot {boot2 : Boot2PartitionTable} (h : bflbBoot2Init (Flash.ofMem mem) = some boot2) :
      Reachable mem (Sys.boot mem boot2)
  | step {sys : Sys} {op : Op} {r : Returned} (reach : Reachable mem sys)
      (clear : DataClear sys op) (h : step sys op = .ok r) : Reachable mem r.sys

theorem reachable_sound (reach : Reachable mem sys) : Sound sys := by
  induction reach with
  | boot h => exact sound_boot h
  | step reach clear hstep ih =>
    rename_i sys op r
    by_cases hop : op.IsUpdate
    · exact sound_update ih hop hstep
    · rcases step_quiet ih hop clear with hhang | ⟨r', hr', hquiet⟩
      · rw [hhang] at hstep
        exact absurd hstep (by simp)
      · rw [hr'] at hstep
        obtain ⟨⟩ := Except.ok.inj hstep
        exact hquiet.sound ih

/-- A power loss at any point of the call leaves the old table or the one that
the completed call leaves in its slot. -/
def AtomicUpdate (sys : Sys) (op : Op) : Prop :=
  ∀ r, step sys op = .ok r → ∀ mem',
    Nor.Crash sys.flash.mem (r.sys.flash.log.drop sys.flash.log.length) mem' →
    LeftBy sys.flash.mem (op.source sys).target
      (readTableMem r.sys.flash.mem (op.source sys).target) mem' →
    OldOrNew sys.flash.mem (readTableMem r.sys.flash.mem (op.source sys).target) mem'

/-- The table that a call would write from the RAM copy. -/
def ramTable (sys : Sys) : Op → Option PtTableStuffConfig
  | .updatePtable ptEntry => updatedTable sys.boot2PartitionTable.table (toggled ptEntry)
  | .updateMfgPtable =>
    (mfgEntry sys.boot2PartitionTable).bind (updatedTable sys.boot2PartitionTable.table)
  | _ => none

/-- A call that writes from the RAM copy does not write over the table that is
selected in flash, unless the other slot has a copy of it or of the new one. -/
def SparesActive (sys : Sys) (op : Op) : Prop :=
  ∀ t, ramTable sys op = some t → Spares sys.flash.mem (ramSource sys).target t

theorem atomicUpdate_of_nothing (h : Sound sys) (hstep : step sys op = .ok r)
    (flash : r.sys.flash = sys.flash) : AtomicUpdate sys op := by
  intro r' hr' mem' hcrash _
  obtain ⟨⟩ := Except.ok.inj (hstep.symm.trans hr')
  rw [flash, List.drop_length] at hcrash
  cases hcrash with
  | before => exact ⟨_, h.activeTable, .inl ⟨_, h.activeTable, rfl⟩⟩

theorem atomicUpdate_of_table (h : Sound sys) (hstep : step sys op = .ok r)
    (valid : ptTableValid t = true)
    (flash : r.sys.flash = sys.flash.done (tableSteps (op.source sys).target t)) :
    AtomicUpdate sys op ↔ Spares sys.flash.mem (op.source sys).target t := by
  have htarget := ne_invalid_target sys op
  have hlog : r.sys.flash.log.drop sys.flash.log.length = tableSteps (op.source sys).target t := by
    rw [flash, Flash.done, List.drop_append_length]
  have hnew : readTableMem r.sys.flash.mem (op.source sys).target = t := by
    rw [flash]
    exact readTableMem_tableSteps _ _ _
  rw [← oldOrNew_iff htarget h.active valid]
  constructor
  · intro atomic mem' hcrash hleft
    have hold := atomic r hstep mem' (by rwa [hlog]) (by rwa [hnew])
    rwa [hnew] at hold
  · intro atomic r' hr' mem' hcrash hleft
    obtain ⟨⟩ := Except.ok.inj (hstep.symm.trans hr')
    rw [hlog] at hcrash
    rw [hnew] at hleft ⊢
    exact atomic mem' hcrash hleft

/-- What a call writes from the RAM copy is `ramTable`. -/
theorem step_ram (h : Sound sys)
    (hop : (∃ ptEntry, op = .updatePtable ptEntry) ∨ op = .updateMfgPtable) :
    ∃ r, step sys op = .ok r ∧
      ((ramTable sys op = none ∧ r.sys.flash = sys.flash) ∨
        ∃ t, ramTable sys op = some t ∧ ptTableValid t = true ∧
          r.sys.flash = sys.flash.done (tableSteps (ramSource sys).target t)) := by
  have hupdate : ∀ e, (ptTableUpdateEntry sys.flash (ramSource sys).target
      sys.boot2PartitionTable.table e).1 =
        (updatedTable sys.boot2PartitionTable.table e).elim sys.flash
          fun t => sys.flash.done (tableSteps (ramSource sys).target t) := by
    intro e
    have htarget : (ramSource sys).target ≠ .ptTableIdInvalid := ne_invalid_lnot _
    rw [ptTableUpdateEntry_of_no_faults h.faults htarget h.entryCnt]
    cases updatedTable sys.boot2PartitionTable.table e with
    | none => rfl
    | some t => rfl
  have hvalid : ∀ {e t}, updatedTable sys.boot2PartitionTable.table e = some t →
      ptTableValid t = true :=
    fun ht => (updatedTable_succeeds h.magicCode h.entryCnt ht).valid
  rcases hop with ⟨ptEntry, rfl⟩ | rfl
  · refine ⟨_, rfl, ?_⟩
    have hflash := hupdate (toggled ptEntry)
    cases htable : updatedTable sys.boot2PartitionTable.table (toggled ptEntry) with
    | none =>
      rw [htable] at hflash
      exact .inl ⟨htable, hflash⟩
    | some t =>
      rw [htable] at hflash
      exact .inr ⟨t, htable, hvalid htable, hflash⟩
  · refine ⟨_, rfl, ?_⟩
    unfold stepUpdateMfgPtable bflbUpdateMfgPtable ramTable
    cases mfgEntry sys.boot2PartitionTable with
    | none => exact .inl ⟨rfl, rfl⟩
    | some e =>
      have hflash := hupdate e
      simp only [Option.bind_some]
      cases htable : updatedTable sys.boot2PartitionTable.table e with
      | none =>
        rw [htable] at hflash
        exact .inl ⟨rfl, hflash⟩
      | some t =>
        rw [htable] at hflash
        exact .inr ⟨t, rfl, hvalid htable, hflash⟩

/-- An update from flash writes the slot that is not selected. -/
theorem atomicUpdate_of_flashSource (h : Sound sys) (hop : op.IsUpdate)
    (source : op.source sys = flashSource sys) : AtomicUpdate sys op := by
  obtain ⟨r, hr, hwrites⟩ := step_writes h hop
  cases hwrites with
  | nothing flash => exact atomicUpdate_of_nothing h hr flash
  | table t succeeds flash =>
    refine (atomicUpdate_of_table h hr succeeds.valid flash).mpr (.inl ?_)
    rw [source]
    exact lnot_ne _

theorem Sound.atomicUpdate_iff_ram (h : Sound sys)
    (hop : (∃ ptEntry, op = .updatePtable ptEntry) ∨ op = .updateMfgPtable) :
    AtomicUpdate sys op ↔ SparesActive sys op := by
  have hsource : op.source sys = ramSource sys := by
    rcases hop with ⟨ptEntry, rfl⟩ | rfl <;> rfl
  obtain ⟨r, hr, ⟨hnone, hflash⟩ | ⟨t, hsome, hvalid, hflash⟩⟩ := step_ram h hop
  · constructor
    · intro _ t ht
      rw [hnone] at ht
      exact absurd ht (by simp)
    · exact fun _ => atomicUpdate_of_nothing h hr hflash
  · rw [← hsource] at hflash
    rw [atomicUpdate_of_table h hr hvalid hflash, hsource]
    constructor
    · intro spares t' ht'
      rw [hsome] at ht'
      exact Option.some.inj ht' ▸ spares
    · exact fun spares => spares t hsome

theorem Sound.atomicUpdate_iff (h : Sound sys) (hop : op.IsUpdate) :
    AtomicUpdate sys op ↔ SparesActive sys op := by
  cases op with
  | otaStart | otaUpdate | otaAbort => exact hop.elim
  | updatePtable ptEntry => exact h.atomicUpdate_iff_ram (.inl ⟨ptEntry, rfl⟩)
  | updateMfgPtable => exact h.atomicUpdate_iff_ram (.inr rfl)
  | otaFinish | otaApply | iapPara =>
    constructor
    · intro _ t ht
      exact absurd ht (by simp [ramTable])
    · exact fun _ => atomicUpdate_of_flashSource h hop rfl

/-- In every state that completed calls reach, an update survives a power loss
if and only if it spares the table that is selected in flash. -/
theorem atomicUpdate_iff_sparesActive (mem : Nor.Mem) (sys : Sys) (reach : Reachable mem sys)
    (op : Op) (hop : op.IsUpdate) : AtomicUpdate sys op ↔ SparesActive sys op :=
  (reachable_sound reach).atomicUpdate_iff hop

theorem atomicUpdate_mediaEntry : AtomicUpdate fwSys (.updatePtable mediaEntry) := by
  refine (atomicUpdate_iff_sparesActive (flashedMem fwTable) fwSys (.boot boot_fwTable)
    (.updatePtable mediaEntry) trivial).mpr fun t _ => .inl ?_
  rw [selectMem_fwSys]
  decide

/-- After an `iap` commit the same update erases the slot that is selected, and
the other one holds the table from before the commit. -/
theorem iapPara_then_updatePtable_not_atomic :
    ¬ ∀ sys, Reachable (flashedMem fwTable) sys → ∀ op, op.IsUpdate → AtomicUpdate sys op := by
  intro h
  have hreach : Reachable (flashedMem fwTable) (stepIapPara fwSys noPara).sys :=
    .step (.boot boot_fwTable) (show DataClear fwSys (.iapPara noPara) from trivial) rfl
  have hatomic := h _ hreach (.updatePtable mediaEntry) trivial
  rw [(reachable_sound hreach).atomicUpdate_iff_ram (.inl ⟨mediaEntry, rfl⟩)] at hatomic
  obtain ⟨t, ht, hsucceeds⟩ := updatedTable_mediaEntry
  obtain ⟨hboot2, hother, hactive⟩ := fwSys_iapPara
  have hspares := hatomic t (by rw [ramTable, hboot2]; exact ht)
  have htarget : (ramSource (stepIapPara fwSys noPara).sys).target = .ptTableId1 := by
    rw [ramSource, hboot2]
    rfl
  have hiapAge : (iapTable fwTable).age = 1 := by
    rw [(iapTable_succeeds valid_fwTable).age, age_fwTable]
    decide +kernel
  have htAge : t.age = 1 := by
    rw [hsucceeds.age, age_fwTable]
    decide +kernel
  rw [Spares, htarget, hactive.1, hactive.2, show PtTableIdType.ptTableId1.lnot = .ptTableId0 from rfl,
    hother] at hspares
  rcases hspares with hne | ⟨-, hsame | hsame⟩
  · exact hne rfl
  · have := hsame.age_eq
    rw [age_fwTable, hiapAge] at this
    exact absurd this (by decide)
  · have := hsame.age_eq
    rw [age_fwTable, htAge] at this
    exact absurd this (by decide)

end BouffaloSdk.Ota
