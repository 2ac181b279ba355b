import BouffaloSdk.Ota.Updates

/-!
# Updates that are kept

An update from flash starts from the active table and writes the other slot.
An update from RAM starts from the table of the last boot and writes the slot
that was inactive then. `Current` is when that makes no difference: the copy
still agrees with the active table on all other types and the written slot
will be selected.
-/

namespace BouffaloSdk.Ota
open Kit Kit.Word BouffaloSdk.Partition Mtd PtTableStuffConfig

variable {sys : Sys} {r : Returned} {op : Op} {map : TableMap}

/-! ## The rest of the state -/

/-- What an update may do outside the flash. -/
structure Rest (sys sys' : Sys) : Prop where
  index : sys'.boot2PartitionTable.partitionActiveIdx = sys.boot2PartitionTable.partitionActiveIdx
  magicCode : sys'.boot2PartitionTable.table.magicCode = bflbPtMagicCode
  entryCnt : sys'.boot2PartitionTable.table.entryCnt ≤ 16
  otaParm : sys'.otaParm = sys.otaParm ∨ sys'.otaParm = none

theorem Rest.of_boot2_eq (h : Sound sys) {sys' : Sys}
    (hboot2 : sys'.boot2PartitionTable = sys.boot2PartitionTable)
    (hparm : sys'.otaParm = sys.otaParm ∨ sys'.otaParm = none) : Rest sys sys' := by
  refine ⟨?_, ?_, ?_, hparm⟩
  · rw [hboot2]
  · rw [hboot2]
    exact h.magicCode
  · rw [hboot2]
    exact h.entryCnt

theorem bflbOtaFinish_rest (h : Sound sys) (checkHash memory : Bool) :
    Rest sys (bflbOtaFinish sys checkHash memory).1 := by
  unfold bflbOtaFinish
  split
  · exact .of_boot2_eq h rfl (.inl rfl)
  · split
    · exact .of_boot2_eq h rfl (.inr rfl)
    · simp only []
      split
      · exact .of_boot2_eq h rfl (.inr rfl)
      · split
        · exact .of_boot2_eq h rfl (.inr rfl)
        · split
          · exact .of_boot2_eq h rfl (.inr rfl)
          · split
            · exact .of_boot2_eq h rfl (.inr rfl)
            · exact .of_boot2_eq h rfl (.inr rfl)

theorem bflbOtaApply_rest (h : Sound sys) : Rest sys (bflbOtaApply sys).1 := by
  unfold bflbOtaApply
  split
  · exact .of_boot2_eq h rfl (.inl rfl)
  · split
    · exact .of_boot2_eq h rfl (.inr rfl)
    · simp only []
      split
      · exact .of_boot2_eq h rfl (.inr rfl)
      · split
        · exact .of_boot2_eq h rfl (.inr rfl)
        · exact .of_boot2_eq h rfl (.inr rfl)

/-- The RAM table after `bflb_update_mfg_ptable` is the one it wrote. -/
theorem stepUpdateMfgPtable_rest (h : Sound sys) : Rest sys (stepUpdateMfgPtable sys).sys := by
  unfold stepUpdateMfgPtable bflbUpdateMfgPtable
  cases mfgEntry sys.boot2PartitionTable with
  | none => exact .of_boot2_eq h rfl (.inl rfl)
  | some e =>
    have hupdate := ptTableUpdateEntry_of_no_faults (e := e) h.faults
      (ne_invalid_lnot sys.boot2PartitionTable.partitionActiveIdx) h.entryCnt
    refine ⟨rfl, ?_, ?_, .inl rfl⟩ <;> simp only [hupdate]
    · cases htable : updatedTable sys.boot2PartitionTable.table e with
      | none => exact h.magicCode
      | some t => exact magicCode_of_valid (updatedTable_succeeds h.magicCode h.entryCnt htable).valid
    · cases htable : updatedTable sys.boot2PartitionTable.table e with
      | none => exact h.entryCnt
      | some t => exact entryCnt_of_valid (updatedTable_succeeds h.magicCode h.entryCnt htable).valid

theorem step_rest (h : Sound sys) (hop : op.IsUpdate) (hstep : step sys op = .ok r) :
    Rest sys r.sys := by
  cases op with
  | otaStart | otaUpdate | otaAbort => exact hop.elim
  | otaFinish checkHash memory =>
    obtain ⟨⟩ := Except.ok.inj hstep
    exact bflbOtaFinish_rest h checkHash memory
  | otaApply =>
    obtain ⟨⟩ := Except.ok.inj hstep
    exact bflbOtaApply_rest h
  | updatePtable ptEntry =>
    obtain ⟨⟩ := Except.ok.inj hstep
    exact .of_boot2_eq h rfl (.inl rfl)
  | updateMfgPtable =>
    obtain ⟨⟩ := Except.ok.inj hstep
    exact stepUpdateMfgPtable_rest h
  | iapPara para =>
    obtain ⟨⟩ := Except.ok.inj hstep
    unfold stepIapPara
    simp only []
    split
    · exact .of_boot2_eq h rfl (.inl rfl)
    · exact .of_boot2_eq h rfl (.inl rfl)

/-! ## Soundness along a run -/

theorem Writes.active (h : Sound sys) (writes : Writes sys (op.source sys) r) :
    selectMem r.sys.flash.mem ≠ .ptTableIdInvalid := by
  cases writes with
  | nothing flash =>
    rw [flash]
    exact h.active
  | table t succeeds flash =>
    have hmem : readTableMem r.sys.flash.mem (op.source sys).target = t := by
      rw [flash]
      exact readTableMem_tableSteps _ _ t
    apply activeTable_isSome (ne_invalid_target sys op)
    rw [hmem]
    exact succeeds.valid

theorem sound_update (h : Sound sys) (hop : op.IsUpdate) (hstep : step sys op = .ok r) :
    Sound r.sys := by
  obtain ⟨r', hr', hwrites⟩ := step_writes h hop
  obtain ⟨⟩ := Except.ok.inj (hr'.symm.trans hstep)
  have hrest := step_rest h hop hstep
  refine ⟨?_, hwrites.active h, ?_, hrest.magicCode, hrest.entryCnt, ?_⟩
  · cases hwrites with
    | nothing flash =>
      rw [flash]
      exact h.faults
    | table t succeeds flash =>
      rw [flash]
      exact h.faults
  · rw [hrest.index]
    exact h.index
  · intro parm hparm
    rcases hrest.otaParm with same | none
    · exact h.words parm (same ▸ hparm)
    · rw [none] at hparm
      exact absurd hparm (by simp)

/-- A call that is no update returns quietly or hangs in `bflb_mtd_open`. -/
theorem step_quiet (h : Sound sys) (hop : ¬ op.IsUpdate) (clear : DataClear sys op) :
    step sys op = .error .deadLoop ∨ ∃ r, step sys op = .ok r ∧ Quiet sys r := by
  cases op with
  | otaStart fileSize parmMemory handleMemory =>
    cases hstart : bflbOtaStart sys fileSize parmMemory handleMemory with
    | ok result =>
      refine .inr ⟨⟨result.1, none⟩, by simp [step, hstart, Except.map], ?_⟩
      exact bflbOtaStart_quiet h hstart
    | error halt =>
      have hhalt := bflbOtaStart_error hstart
      subst hhalt
      exact .inl (by simp [step, hstart, Except.map])
  | otaUpdate filesize offset buf xip =>
    obtain ⟨result, hresult⟩ : ∃ result, bflbOtaUpdate sys filesize offset buf xip = .ok result :=
      bflbOtaUpdate_inBounds h.words fun parm data hparm hbuf haccepted => by
        subst hbuf
        obtain ⟨hfits, -, hbitmap⟩ := clear parm hparm haccepted
        exact ⟨hfits.fits, hbitmap⟩
    refine .inr ⟨⟨result.1, none⟩, by simp [step, hresult, Except.map], ?_⟩
    exact bflbOtaUpdate_quiet h clear hresult
  | otaAbort =>
    refine .inr ⟨_, rfl, ?_⟩
    unfold bflbOtaAbort
    split
    · exact ⟨fun _ => rfl, h.faults, rfl, h.words, rfl⟩
    · exact ⟨fun _ => rfl, h.faults, rfl, fun parm hparm => absurd hparm (by simp [Sys.endSession]),
        rfl⟩
  | _ => exact absurd trivial hop

/-! ## Updates that take effect -/

/-- Writing `e` from `base` to `target` shows in flash as that one change. -/
structure Current (sys : Sys) (source : Source) (e : PtTableEntryConfig) : Prop where
  others : ∀ type, type ≠ e.type →
    ptTableGetActiveEntriesById source.base type =
      ptTableGetActiveEntriesById (flashSource sys).base type
  selected : ptTableValid (readTableMem sys.flash.mem source.target.lnot) = true →
    match source.target with
    | .ptTableId0 =>
      (readTableMem sys.flash.mem source.target.lnot).age ≤ add32 source.base.age 1
    | _ => (readTableMem sys.flash.mem source.target.lnot).age < add32 source.base.age 1

/-- The condition on one call: image data off the tables, no wrap of the age,
and a RAM copy that is still current for the entry it writes. -/
def Kept (sys : Sys) : Op → Prop
  | .updatePtable ptEntry => Current sys (ramSource sys) (toggled ptEntry)
  | .updateMfgPtable => ∀ e, mfgEntry sys.boot2PartitionTable = some e → Current sys (ramSource sys) e
  | .otaFinish .. => (flashSource sys).base.age + 1 < 2 ^ 32
  | .otaApply => (flashSource sys).base.age + 1 < 2 ^ 32
  | .iapPara _ => (flashSource sys).base.age + 1 < 2 ^ 32
  | op => DataClear sys op

/-- Every call of the run meets its condition. -/
def KeptRun : Sys → List Op → Prop
  | _, [] => True
  | sys, op :: ops =>
    Kept sys op ∧
      match step sys op with
      | .error _ => True
      | .ok r => KeptRun r.sys ops

theorem lookup_succeeds {base t : PtTableStuffConfig} {e : Option PtTableEntryConfig}
    (h : Succeeds base e t) :
    ptTableGetActiveEntriesById t = TableMap.apply (ptTableGetActiveEntriesById base) e := by
  funext type
  rw [ptTableGetActiveEntriesById, h.entries]
  cases e with
  | none => rfl
  | some e => exact congrFun (Keyed.lookup_upsert PtTableEntryConfig.type base.entries e) type

theorem Holds.of_tables {mem mem' : Nor.Mem} (h : Holds mem map)
    (same : ∀ id, readTableMem mem' id = readTableMem mem id) : Holds mem' map := by
  obtain ⟨table, hactive, hmap⟩ := h
  exact ⟨table, (activeTable_congr same).trans hactive, hmap⟩

theorem Sound.holds_base (h : Sound sys) (holds : Holds sys.flash.mem map) :
    ptTableGetActiveEntriesById (flashSource sys).base = map := by
  obtain ⟨table, hactive, hmap⟩ := holds
  rw [h.activeTable] at hactive
  obtain ⟨⟩ := Option.some.inj hactive
  exact hmap

/-- A write that overtakes the other slot and changes only its own type. -/
theorem holds_of_write (h : Sound sys) (holds : Holds sys.flash.mem map) {source : Source}
    {t : PtTableStuffConfig} {e : Option PtTableEntryConfig}
    (target : source.target ≠ .ptTableIdInvalid) (succeeds : Succeeds source.base e t)
    (overtakes : Overtakes source.target t (readTableMem sys.flash.mem source.target.lnot))
    (others : ∀ type, (∀ x, e = some x → type ≠ x.type) →
      ptTableGetActiveEntriesById source.base type =
        ptTableGetActiveEntriesById (flashSource sys).base type) :
    Holds (sys.flash.done (tableSteps source.target t)).mem (map.apply e) := by
  have hselect := selectMem_tableSteps sys.flash.mem target succeeds.valid
  rw [if_pos overtakes] at hselect
  refine ⟨t, ?_, ?_⟩
  · have hactive := activeTable_eq hselect target
    rwa [readTableMem_tableSteps] at hactive
  · rw [lookup_succeeds succeeds, ← h.holds_base holds]
    cases e with
    | none => exact funext fun type => others type (by simp)
    | some e =>
      funext type
      by_cases htype : type = e.type
      · subst htype
        simp [TableMap.apply]
      · simp only [TableMap.apply, Function.update_of_ne htype]
        exact others type fun x hx => Option.some.inj hx ▸ htype

/-- An update from flash overtakes the table it started from. -/
theorem holds_of_flash_write (h : Sound sys) (holds : Holds sys.flash.mem map)
    (noWrap : (flashSource sys).base.age + 1 < 2 ^ 32) (writes : Writes sys (flashSource sys) r) :
    Holds r.sys.flash.mem (map.apply r.produced) := by
  cases writes with
  | nothing flash produced =>
    rw [flash, produced]
    exact holds
  | table t succeeds flash =>
    rw [flash]
    refine holds_of_write h holds (ne_invalid_lnot _) succeeds ?_ fun _ _ => rfl
    intro _
    have hother : readTableMem sys.flash.mem (flashSource sys).target.lnot =
        (flashSource sys).base := by
      rw [flashSource, lnot_lnot h.active]
    rw [hother, succeeds.age, add32_eq noWrap]
    split <;> omega

/-- An update from RAM that is current. -/
theorem holds_of_ram_write (h : Sound sys) (holds : Holds sys.flash.mem map)
    {e : PtTableEntryConfig} (current : Current sys (ramSource sys) e)
    (produced : r.produced = some e ∨ (r.sys.flash = sys.flash ∧ r.produced = none))
    (writes : Writes sys (ramSource sys) r) :
    Holds r.sys.flash.mem (map.apply r.produced) := by
  rcases produced with some | ⟨flash, none⟩
  · cases writes with
    | nothing flash none =>
      rw [flash, none]
      exact holds
    | table t succeeds flash =>
      rw [flash, some]
      rw [some] at succeeds
      refine holds_of_write h holds (ne_invalid_lnot _) succeeds ?_ ?_
      · intro hvalid
        have hselected := current.selected hvalid
        rw [← succeeds.age] at hselected
        exact hselected
      · exact fun type htype => current.others type (htype e rfl)
  · rw [flash, none]
    exact holds

theorem holds_of_step (h : Sound sys) (holds : Holds sys.flash.mem map) (hop : op.IsUpdate)
    (kept : Kept sys op) (hstep : step sys op = .ok r) :
    Holds r.sys.flash.mem (map.apply r.produced) := by
  cases op with
  | otaStart | otaUpdate | otaAbort => exact hop.elim
  | otaFinish checkHash memory =>
    obtain ⟨⟩ := Except.ok.inj hstep
    exact holds_of_flash_write h holds kept (bflbOtaFinish_writes h checkHash memory)
  | otaApply =>
    obtain ⟨⟩ := Except.ok.inj hstep
    exact holds_of_flash_write h holds kept (bflbOtaApply_writes h)
  | updatePtable ptEntry =>
    obtain ⟨⟩ := Except.ok.inj hstep
    exact holds_of_ram_write h holds kept (stepUpdatePtable_produced h ptEntry)
      (stepUpdatePtable_writes h ptEntry)
  | updateMfgPtable =>
    obtain ⟨⟩ := Except.ok.inj hstep
    cases hentry : mfgEntry sys.boot2PartitionTable with
    | none =>
      unfold stepUpdateMfgPtable bflbUpdateMfgPtable
      rw [hentry]
      exact holds
    | some e =>
      exact holds_of_ram_write h holds (kept e hentry) (stepUpdateMfgPtable_produced h hentry)
        (stepUpdateMfgPtable_writes h)
  | iapPara para =>
    obtain ⟨⟩ := Except.ok.inj hstep
    exact holds_of_flash_write h holds kept (stepIapPara_writes h para)

theorem Sound.keepsUpdates (h : Sound sys) (holds : Holds sys.flash.mem map) (ops : List Op)
    (kept : KeptRun sys ops) : KeepsUpdates sys map ops := by
  induction ops generalizing sys map with
  | nil => exact holds
  | cons op ops ih =>
    refine ⟨holds, ?_⟩
    obtain ⟨hkept, hrest⟩ := kept
    by_cases hop : op.IsUpdate
    · obtain ⟨r, hr, -⟩ := step_writes h hop
      rw [hr] at hrest ⊢
      exact ih (sound_update h hop hr) (holds_of_step h holds hop hkept hr) hrest
    · have hclear : DataClear sys op := by
        cases op with
        | otaStart | otaUpdate | otaAbort => exact hkept
        | _ => exact absurd trivial hop
      rcases step_quiet h hop hclear with hhang | ⟨r, hr, hquiet⟩
      · rw [hhang]
        trivial
      · rw [hr] at hrest ⊢
        refine ih (hquiet.sound h) ?_ hrest
        rw [hquiet.produced]
        exact holds.of_tables hquiet.tables

/-- From a boot with a valid table, a run whose calls all meet their condition
keeps every update. -/
theorem keepsUpdates_of_keptRun (mem : Nor.Mem) (boot2 : Boot2PartitionTable)
    (boot : bflbBoot2Init (Flash.ofMem mem) = some boot2) (ops : List Op)
    (kept : KeptRun (Sys.boot mem boot2) ops) :
    KeepsUpdates (Sys.boot mem boot2) (ptTableGetActiveEntriesById boot2.table) ops := by
  have hsound := sound_boot boot
  refine hsound.keepsUpdates ⟨boot2.table, ?_, rfl⟩ ops kept
  obtain ⟨-, rfl⟩ := bflbBoot2Init_eq boot
  exact hsound.activeTable

theorem current_fwSys : Current fwSys (ramSource fwSys) (toggled mediaEntry) := by
  refine ⟨fun type _ => ?_, fun _ => ?_⟩
  · rw [flashSource_fwSys]
    rfl
  · show (readTableMem fwSys.flash.mem .ptTableId0).age < add32 fwTable.age 1
    rw [readTableMem_fwSys, age_fwTable]
    decide +kernel

theorem keepsUpdates_mediaEntry :
    KeepsUpdates fwSys (ptTableGetActiveEntriesById fwBoot2.table) [.updatePtable mediaEntry] :=
  keepsUpdates_of_keptRun (flashedMem fwTable) fwBoot2 boot_fwTable [.updatePtable mediaEntry]
    ⟨current_fwSys, trivial⟩

def noPara : PtTableIapParamType := ⟨0, 0, 0, 0, 0⟩

/-- After an `iap` commit slot 1 is selected, slot 0 and the RAM copy are old. -/
theorem fwSys_iapPara :
    (stepIapPara fwSys noPara).sys.boot2PartitionTable = fwBoot2 ∧
      readTableMem (stepIapPara fwSys noPara).sys.flash.mem .ptTableId0 = fwTable ∧
      selectMem (stepIapPara fwSys noPara).sys.flash.mem = .ptTableId1 ∧
      readTableMem (stepIapPara fwSys noPara).sys.flash.mem .ptTableId1 = iapTable fwTable := by
  have hiap := stepIapPara_eq sound_fwSys noPara
  have hsucceeds := iapTable_succeeds valid_fwTable
  rw [flashSource_fwSys] at hiap
  have hid : PtTableIdType.ptTableId1 ≠ .ptTableIdInvalid := by decide
  have hother : readTableMem (Nor.run fwSys.flash.mem (tableSteps .ptTableId1 (iapTable fwTable)))
      .ptTableId0 = fwTable :=
    (readTableMem_lnot_tableSteps fwSys.flash.mem (iapTable fwTable) hid).trans readTableMem_fwSys
  have hselect := selectMem_tableSteps fwSys.flash.mem hid hsucceeds.valid
  rw [if_pos] at hselect
  · rw [hiap]
    exact ⟨rfl, hother, hselect, readTableMem_tableSteps _ _ _⟩
  · intro _
    show (readTableMem fwSys.flash.mem .ptTableId0).age < (iapTable fwTable).age
    rw [readTableMem_fwSys, hsucceeds.age, age_fwTable]
    decide +kernel

/-- An `iap` commit, then an update of another type through the RAM copy: the
new table is written over the committed one and holds the old firmware entry. -/
theorem iapPara_then_updatePtable_loses :
    ¬ KeepsUpdates fwSys (ptTableGetActiveEntriesById fwTable)
      [.iapPara noPara, .updatePtable mediaEntry] := by
  rintro ⟨-, -, hfinal⟩
  have hmid : Sound (stepIapPara fwSys noPara).sys :=
    sound_update sound_fwSys (show (Op.iapPara noPara).IsUpdate from trivial) rfl
  obtain ⟨t, ht, hsucceeds⟩ := updatedTable_mediaEntry
  obtain ⟨hboot2, hother, -⟩ := fwSys_iapPara
  have hupdate := stepUpdatePtable_eq (t := t) hmid mediaEntry (by rw [hboot2]; exact ht)
  have htarget : (ramSource (stepIapPara fwSys noPara).sys).target = .ptTableId1 := by
    rw [ramSource, hboot2]
    rfl
  have hactive : activeTable (stepUpdatePtable (stepIapPara fwSys noPara).sys
      mediaEntry).sys.flash.mem = some t := by
    rw [hupdate, htarget]
    refine activeTable_tableSteps (by decide) hsucceeds.valid fun _ => ?_
    show (readTableMem (stepIapPara fwSys noPara).sys.flash.mem .ptTableId0).age < t.age
    rw [hother, hsucceeds.age, age_fwTable]
    decide +kernel
  obtain ⟨table, htable, hmap⟩ := hfinal
  rw [hactive] at htable
  obtain ⟨⟩ := Option.some.inj htable
  have hfw := congrFun hmap 0
  rw [lookup_succeeds hsucceeds, hupdate, stepIapPara_eq sound_fwSys, flashSource_fwSys] at hfw
  revert hfw
  simp only [TableMap.apply]
  decide +kernel

end BouffaloSdk.Ota
