import BouffaloSdk.Partition.Slots

/-!
# Tables reported as written

A write of a table that reports success leaves a table in its slot. Whether the
table can be used depends on what a reader asks of it: that both CRCs are there,
and that it is newer than the table in the other slot.
-/

namespace BouffaloSdk.Partition
open Kit Kit.Word PtTableStuffConfig

/-- The three ways to write a table. An entry goes to the slot that is not selected. -/
inductive Write
  | updateEntry (ptStuff : PtTableStuffConfig) (ptEntry : PtTableEntryConfig)
  | iapPara (para : PtTableIapParamType)
  | create (ptId : PtTableIdType)

/-- The slot that a write goes to. -/
def Write.target (flash : Flash) : Write → PtTableIdType
  | .updateEntry _ _ | .iapPara _ => (selectMem flash.mem).lnot
  | .create ptId => ptId

def Write.perform (flash : Flash) (w : Write) : Flash × PtTableErrorType :=
  match w with
  | .updateEntry ptStuff ptEntry =>
    let (flash, _, err) := ptTableUpdateEntry flash (w.target flash) ptStuff ptEntry
    (flash, err)
  | .iapPara para =>
    match ptTableGetIapPara flash para with
    | (para, .ptErrorSuccess) => ptTableSetIapPara flash para
    | (_, err) => (flash, err)
  | .create ptId => ptTableCreate flash ptId

/-- An update starts from a valid table, with one of the slots selected. -/
def Write.Allowed (flash : Flash) : Write → Prop
  | .updateEntry ptStuff _ =>
    ptTableValid ptStuff = true ∧ selectMem flash.mem ≠ .ptTableIdInvalid
  | .iapPara _ | .create _ => True

/-- The table of slot `id` is valid and the one that is used. -/
def Selected (flash : Flash) (id : PtTableIdType) : Prop :=
  ptTableValid (readTable flash id) = true ∧ ptTableGetActivePartitionNeedLock flash = id

/-- What a reader finds after a write. -/
def Write.Usable (flash flash' : Flash) (w : Write) : Prop :=
  match w with
  | .updateEntry ptStuff ptEntry =>
    Selected flash' (w.target flash) ∧
      ∀ type, ptTableGetActiveEntriesById (readTable flash' (w.target flash)) type =
        if type = ptEntry.type then some ptEntry else ptTableGetActiveEntriesById ptStuff type
  | .iapPara para =>
    Selected flash' (w.target flash) ∧
      ∃ e, (readTable flash' (w.target flash)).entries.head? = some e ∧
        e.startAddress e.activeIndex = (ptTableGetIapPara flash para).1.iapStartAddr
  | .create ptId => ptTableValid (readTable flash' ptId) = true

/-- A table of this age in slot `id` is preferred to `other`. -/
def Newer (id : PtTableIdType) (age : Nat) (other : PtTableStuffConfig) : Prop :=
  match id with
  | .ptTableId0 => other.age ≤ age
  | _ => other.age < age

/-- The new age counts as newer than the selected table's, and the parameters are
about an entry. A created table has no CRC behind its entries. -/
def Write.Sound (flash : Flash) (w : Write) : Prop :=
  match w with
  | .updateEntry ptStuff _ =>
    Newer (w.target flash) (add32 ptStuff.age 1) (readTable flash (selectMem flash.mem))
  | .iapPara _ =>
    Newer (w.target flash) (add32 (readTable flash (selectMem flash.mem)).age 1)
        (readTable flash (selectMem flash.mem)) ∧
      0 < (readTable flash (selectMem flash.mem)).entryCnt
  | .create _ => False

variable {flash flash' : Flash} {w : Write} {id : PtTableIdType} {base t : PtTableStuffConfig}
  {e : PtTableEntryConfig} {para : PtTableIapParamType} {bytes : List UInt8} {n : Nat}

/-! ## Successful writes -/

/-- Erase and program, with the checks of their results. -/
theorem perform_success {steps : List Nor.Step} (h : (flash.perform steps).2 = 0) :
    (flash.perform steps).1.mem = Nor.run flash.mem steps := by
  have hext := flash.perform_extends steps
  rw [if_pos h] at hext
  exact hext.mem_eq

theorem erase_write_mem (h0 : 0 < n) (hn : n ≤ 4096)
    (herase : (bflbFlashErase flash id.address n).2 = 0)
    (hwrite : (bflbFlashWrite (bflbFlashErase flash id.address n).1 id.address bytes).2 = 0) :
    (bflbFlashWrite (bflbFlashErase flash id.address n).1 id.address bytes).1.mem =
      Nor.run flash.mem [.erase (id.address / Nor.sectorSize), .program id.address bytes] := by
  have herased : (bflbFlashErase flash id.address n).1.mem =
      Nor.run flash.mem ((sectors id.address n).map .erase) := perform_success herase
  have hwritten : (bflbFlashWrite (bflbFlashErase flash id.address n).1 id.address bytes).1.mem =
      Nor.run (bflbFlashErase flash id.address n).1.mem [.program id.address bytes] :=
    perform_success hwrite
  rw [sectors_slot h0 hn] at herased
  rw [hwritten, herased]
  rfl

theorem ptTableUpdateEntry_success (hcnt : base.entryCnt ≤ 16)
    (h : (ptTableUpdateEntry flash id base e).2.2 = .ptErrorSuccess) :
    ∃ t, updatedTable base e = some t ∧
      (ptTableUpdateEntry flash id base e).1.mem = Nor.run flash.mem (tableSteps id t) := by
  unfold ptTableUpdateEntry at h ⊢
  by_cases hid : id = .ptTableIdInvalid
  · rw [if_pos hid] at h
    cases h
  · rw [if_neg hid] at h ⊢
    unfold updatedTable
    cases hstore : storeEntry base e with
    | none =>
      simp only [hstore] at h
      cases h
    | some t =>
      have hlen : (sealTable (t.setAge (add32 t.age 1))).entriesLen ≤ 576 := by
        have := (storeEntry_stored hcnt hstore).entryCnt
        rw [entriesLen, entryCnt_sealTable, entryCnt_setAge]
        omega
      refine ⟨_, rfl, ?_⟩
      simp only [hstore] at h ⊢
      split at h
      · cases h
      · rename_i herase
        rw [if_neg herase]
        split at h
        · cases h
        · rename_i hwrite
          rw [if_neg hwrite]
          exact erase_write_mem (by omega) (by omega) (not_not.mp herase) (not_not.mp hwrite)

theorem writeIapTable_success (h : (writeIapTable flash id t).2 = .ptErrorSuccess) :
    (writeIapTable flash id t).1.mem = Nor.run flash.mem (tableSteps id t) := by
  unfold writeIapTable at h ⊢
  simp only at h ⊢
  split at h
  · cases h
  · rename_i herase
    rw [if_neg herase]
    split at h
    · cases h
    · rename_i hwrite
      rw [if_neg hwrite]
      exact erase_write_mem (by decide) (by decide) (not_not.mp herase) (not_not.mp hwrite)

theorem ptTableCreate_success (h : (ptTableCreate flash id).2 = .ptErrorSuccess) :
    (ptTableCreate flash id).1.mem = Nor.run flash.mem
      [.erase (id.address / Nor.sectorSize), .program id.address emptyTable.bytes] := by
  unfold ptTableCreate at h ⊢
  by_cases hid : id = .ptTableIdInvalid
  · rw [if_pos hid] at h
    cases h
  · rw [if_neg hid] at h ⊢
    simp only at h ⊢
    split at h
    · cases h
    · rename_i herase
      rw [if_neg herase]
      split at h
      · cases h
      · rename_i hwrite
        rw [if_neg hwrite]
        exact erase_write_mem (by decide) (by decide) (not_not.mp herase) (not_not.mp hwrite)

/-! ## What is found afterwards -/

/-- A valid table that was written is selected when it is newer than the one that was. -/
theorem selected_iff_newer (hselect : selectMem flash.mem ≠ .ptTableIdInvalid)
    (valid : ptTableValid t = true)
    (hmem : flash'.mem = Nor.run flash.mem (tableSteps (selectMem flash.mem).lnot t)) :
    readTable flash' (selectMem flash.mem).lnot = t ∧
      (Selected flash' (selectMem flash.mem).lnot ↔
        Newer (selectMem flash.mem).lnot t.age (readTable flash (selectMem flash.mem))) := by
  have hlnot := ne_invalid_lnot (selectMem flash.mem)
  have hread : readTable flash' (selectMem flash.mem).lnot = t := by
    rw [readTable, hmem, readTableMem_tableSteps]
  have hback : (selectMem flash.mem).lnot.lnot = selectMem flash.mem := lnot_lnot hselect
  have hold : ptTableValid (readTableMem flash.mem (selectMem flash.mem)) = true :=
    valid_of_selectMem rfl hselect
  have hchoice := selectMem_tableSteps flash.mem hlnot valid
  rw [← hmem, hback] at hchoice
  have hovertakes : Overtakes (selectMem flash.mem).lnot t
      (readTableMem flash.mem (selectMem flash.mem)) ↔
      Newer (selectMem flash.mem).lnot t.age (readTable flash (selectMem flash.mem)) := by
    unfold Overtakes Newer
    exact ⟨fun h => h hold, fun h _ => h⟩
  refine ⟨hread, ?_⟩
  rw [← hovertakes]
  constructor
  · rintro ⟨-, hactive⟩
    by_contra hstays
    rw [if_neg hstays] at hchoice
    have hsame : selectMem flash.mem = (selectMem flash.mem).lnot := hchoice.symm.trans hactive
    exact lnot_ne (selectMem flash.mem) hsame.symm
  · intro hwins
    rw [if_pos hwins] at hchoice
    exact ⟨by rw [hread]; exact valid, hchoice⟩

theorem lookup_upserted (type : Nat) (hentries : t.entries =
    Keyed.upsert PtTableEntryConfig.type base.entries e) :
    ptTableGetActiveEntriesById t type =
      if type = e.type then some e else ptTableGetActiveEntriesById base type := by
  unfold ptTableGetActiveEntriesById
  rw [hentries, Keyed.lookup_upsert]
  by_cases heq : type = e.type
  · rw [if_pos heq, heq, Function.update_self]
  · rw [if_neg heq, Function.update_of_ne heq]

/-- The first entry written designates the address that was asked for. -/
theorem iapTable_designates (hcnt : 0 < base.entryCnt) :
    ∃ e, (iapTable base).entries.head? = some e ∧
      e.startAddress e.activeIndex =
        (base.ptEntry 0).startAddress (lnot ((base.ptEntry 0).activeIndex &&& 1)) := by
  have hindex : lnot ((base.ptEntry 0).activeIndex &&& 1) < 256 := by
    unfold lnot
    split <;> decide
  have hactive : ((base.ptEntry 0).setActiveIndex
      (lnot ((base.ptEntry 0).activeIndex &&& 1))).activeIndex =
        lnot ((base.ptEntry 0).activeIndex &&& 1) :=
    Record.word_putWord_same _ (by decide) hindex
  refine ⟨(base.ptEntry 0).setActiveIndex (lnot ((base.ptEntry 0).activeIndex &&& 1)), ?_, ?_⟩
  · rw [entries_iapTable, List.head?_eq_getElem?, List.getElem?_set_self]
    rw [length_entries]
    exact hcnt
  · rw [hactive]
    exact Record.word_putWord_disjoint _ (by omega)

/-- Behind the header of a created table lies erased flash, not a CRC. -/
theorem created_invalid (hmem : flash'.mem = Nor.run flash.mem
    [.erase (id.address / Nor.sectorSize), .program id.address emptyTable.bytes]) :
    ptTableValid (readTable flash' id) = false := by
  have hbytes : (readTable flash' id).bytes = emptyTable.bytes ++ List.replicate 580 0xFF := by
    rw [readTable, bytes_readTableMem, hmem]
    have hread := Nor.read_program (show emptyTable.bytes.length ≤ 596 by
      rw [emptyTable.length_eq]; decide) (read_erased flash.mem id)
    rw [emptyTable.length_eq] at hread
    exact hread
  have hcnt : (readTable flash' id).entryCnt = 0 := by
    rw [entryCnt, Record.word, Record.get, hbytes]
    decide
  have hstored : (readTable flash' id).entriesCrc32 = 0xFFFFFFFF := by
    rw [entriesCrc32, entriesLen, hcnt, Record.word, Record.get, hbytes]
    decide
  have hcrc : (readTable flash' id).bodyCrc = 0 := by
    rw [bodyCrc, entriesLen, hcnt, Record.get, hbytes]
    decide
  unfold ptTableValid
  rw [hstored, hcrc]
  simp

theorem ptTableSetIapPara_success {id : PtTableIdType} (hid : id ≠ .ptTableIdInvalid)
    (hindex : para.inactiveTableIndex = if id = .ptTableId0 then 1 else 0)
    (h : (ptTableSetIapPara flash para).2 = .ptErrorSuccess) :
    (ptTableSetIapPara flash para).1.mem =
      Nor.run flash.mem (tableSteps id.lnot (iapTable (readTable flash id))) := by
  have hset : ptTableSetIapPara flash para =
      writeIapTable flash id.lnot (iapTable (readTable flash id)) := by
    unfold ptTableSetIapPara
    cases id with
    | ptTableIdInvalid => exact absurd rfl hid
    | ptTableId0 =>
      rw [if_pos (by simpa using hindex)]
      rfl
    | ptTableId1 =>
      rw [if_neg (by simp [hindex]), if_pos (by simpa using hindex)]
      rfl
  rw [hset] at h ⊢
  exact writeIapTable_success h

theorem ptTableGetIapPara_invalid (hselect : selectMem flash.mem = .ptTableIdInvalid) :
    ptTableGetIapPara flash para = (para, .ptErrorTableNotValid) := by
  have hnone : ∀ id : PtTableIdType, id ≠ .ptTableIdInvalid →
      ¬ ptTableValid (readTable flash id) = true := by
    intro id hid hvalid
    exact activeTable_isSome hid hvalid hselect
  have h0 := hnone .ptTableId0 (by decide)
  have h1 := hnone .ptTableId1 (by decide)
  unfold ptTableGetIapPara
  simp only
  rw [if_neg (fun h => h0 h.1), if_neg h1, if_neg h0]

/-- What the index of the written slot is called. -/
theorem iap_success (para : PtTableIapParamType)
    (h : ((Write.iapPara para).perform flash).2 = .ptErrorSuccess) :
    selectMem flash.mem ≠ .ptTableIdInvalid ∧
      (ptTableGetIapPara flash para).1.iapStartAddr =
        ((readTable flash (selectMem flash.mem)).ptEntry 0).startAddress
          (lnot (((readTable flash (selectMem flash.mem)).ptEntry 0).activeIndex &&& 1)) ∧
      ((Write.iapPara para).perform flash).1.mem = Nor.run flash.mem
        (tableSteps (selectMem flash.mem).lnot
          (iapTable (readTable flash (selectMem flash.mem)))) := by
  by_cases hselect : selectMem flash.mem = .ptTableIdInvalid
  · simp only [Write.perform, ptTableGetIapPara_invalid hselect] at h
    cases h
  · have hget := ptTableGetIapPara_eq para rfl hselect
    simp only [Write.perform, hget] at h ⊢
    exact ⟨hselect, rfl, ptTableSetIapPara_success hselect rfl h⟩

/-- A write that reports success can be used exactly when it was sound. -/
theorem usable_iff_sound (flash : Flash) (w : Write) (allowed : w.Allowed flash)
    (success : (w.perform flash).2 = .ptErrorSuccess) :
    w.Usable flash (w.perform flash).1 ↔ w.Sound flash := by
  cases w with
  | updateEntry ptStuff ptEntry =>
    obtain ⟨hvalid, hselect⟩ := allowed
    obtain ⟨t, ht, hmem⟩ := ptTableUpdateEntry_success (entryCnt_of_valid hvalid) success
    have hnew := updatedTable_succeeds (magicCode_of_valid hvalid) (entryCnt_of_valid hvalid) ht
    obtain ⟨hread, hselected⟩ := selected_iff_newer hselect hnew.valid hmem
    rw [hnew.age] at hselected
    constructor
    · intro husable
      exact hselected.mp husable.1
    · intro hsound
      refine ⟨hselected.mpr hsound, fun type => ?_⟩
      have hfound := lookup_upserted type hnew.entries
      rw [← hread] at hfound
      exact hfound
  | iapPara para =>
    obtain ⟨hselect, haddr, hmem⟩ := iap_success para success
    have hold : ptTableValid (readTable flash (selectMem flash.mem)) = true :=
      valid_of_selectMem rfl hselect
    have hnew := iapTable_succeeds hold
    obtain ⟨hread, hselected⟩ := selected_iff_newer hselect hnew.valid hmem
    rw [hnew.age] at hselected
    constructor
    · rintro ⟨hsel, e, hhead, -⟩
      refine ⟨hselected.mp hsel, ?_⟩
      have hhead' : (iapTable (readTable flash (selectMem flash.mem))).entries.head? = some e := by
        rw [← hread]
        exact hhead
      by_contra hnone
      have hempty : (readTable flash (selectMem flash.mem)).entries = [] := by
        rw [← List.length_eq_zero_iff, length_entries]
        omega
      rw [entries_iapTable, hempty] at hhead'
      cases hhead'
    · rintro ⟨hnewer, hcnt⟩
      obtain ⟨e, hhead, hdesignates⟩ := iapTable_designates hcnt
      rw [← hread] at hhead
      exact ⟨hselected.mpr hnewer, e, hhead, hdesignates.trans haddr.symm⟩
  | create ptId =>
    have hinvalid := created_invalid (ptTableCreate_success success)
    constructor
    · intro husable
      exact absurd (hinvalid.symm.trans husable) (by decide)
    · exact False.elim

/-- A table without entries, with both CRCs. -/
def blankTable : PtTableStuffConfig := sealTable ((Record.zero 596).putWord 0 4 bflbPtMagicCode)

theorem valid_blankTable : ptTableValid blankTable = true :=
  valid_sealTable (by decide) (by decide)

/-- The first entry of a blank table. -/
theorem first_entry_usable :
    (Write.updateEntry blankTable (Record.zero 36)).Usable (Flash.ofMem (flashedMem blankTable))
      ((Write.updateEntry blankTable (Record.zero 36)).perform
        (Flash.ofMem (flashedMem blankTable))).1 := by
  have hselect : selectMem (Flash.ofMem (flashedMem blankTable)).mem = .ptTableId0 :=
    selectMem_flashedMem valid_blankTable
  have hread : readTable (Flash.ofMem (flashedMem blankTable)) .ptTableId0 = blankTable :=
    readTableMem_flashedMem
  refine (usable_iff_sound (Flash.ofMem (flashedMem blankTable))
    (.updateEntry blankTable (Record.zero 36)) ⟨valid_blankTable, ?_⟩ ?_).mpr ?_
  · rw [hselect]
    decide
  · have hstored : (updatedTable blankTable (Record.zero 36)).isSome = true := by
      decide +kernel
    obtain ⟨t, ht⟩ := Option.isSome_iff_exists.mp hstored
    have hupdate := @ptTableUpdateEntry_of_no_faults blankTable (Record.zero 36)
      (selectMem (flashedMem blankTable)).lnot (Flash.ofMem (flashedMem blankTable)) rfl
      (ne_invalid_lnot _) (entryCnt_of_valid valid_blankTable)
    rw [ht] at hupdate
    exact congrArg (fun r => r.2.2) hupdate
  · have hage : blankTable.age < add32 blankTable.age 1 := by
      decide +kernel
    unfold Write.Sound
    simp only [Write.target, hselect, hread]
    exact hage

/-- A created table is not valid. -/
theorem created_not_usable : ¬ ∀ (flash : Flash) (w : Write), w.Allowed flash →
    (w.perform flash).2 = .ptErrorSuccess → w.Usable flash (w.perform flash).1 := by
  intro hall
  have hvalid := hall (Flash.ofMem fun _ => 0xFF) (.create .ptTableId0) trivial rfl
  have hinvalid := created_invalid (ptTableCreate_success
    (show (ptTableCreate (Flash.ofMem fun _ => 0xFF) .ptTableId0).2 = .ptErrorSuccess from rfl))
  exact absurd (hinvalid.symm.trans hvalid) (by decide)

end BouffaloSdk.Partition
