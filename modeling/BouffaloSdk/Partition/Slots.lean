import BouffaloSdk.Partition.Tables

/-!
# The two slots

What one table write does to the flash, completed or cut short by a power
loss, and which of the two tables is selected afterwards.
-/

namespace BouffaloSdk.Partition
open Kit Kit.Word PtTableStuffConfig

variable {t base : PtTableStuffConfig} {e : PtTableEntryConfig} {id : PtTableIdType}
  {mem mem' : Nor.Mem} {flash : Flash}

/-! ## Selection -/

def selectMem (mem : Nor.Mem) : PtTableIdType :=
  ptTableSelect (readTableMem mem .ptTableId0) (readTableMem mem .ptTableId1)

/-- The table that the next boot works with. -/
def activeTable (mem : Nor.Mem) : Option PtTableStuffConfig :=
  if selectMem mem = .ptTableIdInvalid then none else some (readTableMem mem (selectMem mem))

/-- The table `t` in slot `id` is chosen over a valid `other`: slot 0 wins ties. -/
def Overtakes (id : PtTableIdType) (t other : PtTableStuffConfig) : Prop :=
  ptTableValid other = true →
    match id with
    | .ptTableId0 => other.age ≤ t.age
    | _ => other.age < t.age

instance : Decidable (Overtakes id t base) := by
  unfold Overtakes
  cases id <;> infer_instance

theorem ne_invalid_lnot (id : PtTableIdType) : id.lnot ≠ .ptTableIdInvalid := by
  cases id <;> decide

theorem lnot_lnot (hid : id ≠ .ptTableIdInvalid) : id.lnot.lnot = id := by
  cases id with
  | ptTableIdInvalid => exact absurd rfl hid
  | _ => rfl

theorem lnot_ne (id : PtTableIdType) : id.lnot ≠ id := by
  cases id <;> decide

theorem eq_or_eq_lnot {id id' : PtTableIdType} (hid : id ≠ .ptTableIdInvalid)
    (hid' : id' ≠ .ptTableIdInvalid) : id' = id ∨ id' = id.lnot := by
  cases id <;> cases id' <;> simp_all [PtTableIdType.lnot]

theorem selectMem_eq (hid : id ≠ .ptTableIdInvalid)
    (valid : ptTableValid (readTableMem mem id) = true) :
    selectMem mem =
      if Overtakes id (readTableMem mem id) (readTableMem mem id.lnot) then id else id.lnot := by
  unfold selectMem ptTableSelect Overtakes
  cases id with
  | ptTableIdInvalid => exact absurd rfl hid
  | ptTableId0 =>
    simp only [PtTableIdType.lnot, valid]
    by_cases hother : ptTableValid (readTableMem mem .ptTableId1) = true
    · simp [hother]
    · simp [hother]
  | ptTableId1 =>
    simp only [PtTableIdType.lnot, valid]
    by_cases hother : ptTableValid (readTableMem mem .ptTableId0) = true
    · by_cases hage : (readTableMem mem .ptTableId1).age ≤ (readTableMem mem .ptTableId0).age
      · simp [hother, hage, Nat.not_lt.mpr hage]
      · simp [hother, hage, Nat.lt_of_not_le hage]
    · simp [hother]

/-- A selected table is valid. -/
theorem valid_of_selectMem (h : selectMem mem = id) (hid : id ≠ .ptTableIdInvalid) :
    ptTableValid (readTableMem mem id) = true := by
  subst h
  unfold selectMem ptTableSelect at *
  by_cases h0 : ptTableValid (readTableMem mem .ptTableId0) = true
  · by_cases h1 : ptTableValid (readTableMem mem .ptTableId1) = true
    · simp only [h0, h1, and_self, if_true]
      split
      · exact h0
      · exact h1
    · simp [h0, h1]
  · by_cases h1 : ptTableValid (readTableMem mem .ptTableId1) = true
    · simp [h0, h1]
    · simp [h0, h1] at hid

theorem activeTable_eq (h : selectMem mem = id) (hid : id ≠ .ptTableIdInvalid) :
    activeTable mem = some (readTableMem mem id) := by
  rw [activeTable, h, if_neg hid]

theorem activeTable_isSome (hid : id ≠ .ptTableIdInvalid)
    (valid : ptTableValid (readTableMem mem id) = true) : selectMem mem ≠ .ptTableIdInvalid := by
  rw [selectMem_eq hid valid]
  split
  · exact hid
  · exact ne_invalid_lnot id

/-! ## Writing a table -/

/-- The steps of one table write. -/
def tableSteps (id : PtTableIdType) (t : PtTableStuffConfig) : List Nor.Step :=
  [.erase (id.address / Nor.sectorSize), .program id.address t.bytes]

/-- The addresses of the two slots. -/
def InTables (a : Nat) : Prop := bflbPtTable0Address ≤ a ∧ a < 0x10000

theorem address_eq (id : PtTableIdType) : id.address = 0xE000 ∨ id.address = 0xF000 := by
  cases id
  · exact .inl rfl
  · exact .inr rfl
  · exact .inr rfl

theorem sectors_slot {n : Nat} (h0 : 0 < n) (h : n ≤ 4096) :
    sectors id.address n = [id.address / Nor.sectorSize] := by
  unfold sectors Nor.sectorSize
  rcases address_eq id with ha | ha
  · rw [ha, show (0xE000 + n - 1) / 4096 = 14 by omega]
    rfl
  · rw [ha, show (0xF000 + n - 1) / 4096 = 15 by omega]
    rfl

theorem address_lnot (hid : id ≠ .ptTableIdInvalid) :
    id.address / 4096 ≠ id.lnot.address / 4096 := by
  cases id with
  | ptTableIdInvalid => exact absurd rfl hid
  | _ => decide

/-- A slot and its table lie in one sector. -/
theorem slot_sector (id : PtTableIdType) {i : Nat} (h : i < 596) :
    (id.address + i) / 4096 = id.address / 4096 := by
  rcases address_eq id with ha | ha <;> rw [ha] <;> omega

theorem tableSteps_touches {s : Nor.Step} (hs : s ∈ tableSteps id t) {a : Nat} (h : s.Touches a) :
    a / 4096 = id.address / 4096 := by
  simp only [tableSteps, List.mem_cons, List.not_mem_nil, or_false] at hs
  rcases hs with rfl | rfl
  · exact h
  · obtain ⟨hle, hlt⟩ := h
    rw [t.length_eq] at hlt
    obtain ⟨i, rfl⟩ := Nat.exists_eq_add_of_le hle
    exact slot_sector id (by omega)

/-- Neither a completed write nor an interrupted one changes the other slot. -/
theorem readTableMem_lnot_of_crash (hid : id ≠ .ptTableIdInvalid)
    (h : Nor.Crash mem (tableSteps id t) mem') :
    readTableMem mem' id.lnot = readTableMem mem id.lnot := by
  apply Record.ext
  rw [bytes_readTableMem, bytes_readTableMem]
  apply h.read_frame
  intro s hs i hi ht
  have hsector := tableSteps_touches hs ht
  rw [slot_sector _ hi] at hsector
  exact address_lnot hid hsector.symm

theorem read_erased (mem : Nor.Mem) (id : PtTableIdType) :
    Nor.read (Nor.Step.apply mem (.erase (id.address / Nor.sectorSize))) id.address 596 =
      List.replicate 596 0xFF :=
  Nor.read_erase fun _ hi => slot_sector id hi

/-- A slot whose write was interrupted holds the old table or a torn one. -/
theorem crash_cases (h : Nor.Crash mem (tableSteps id t) mem') :
    readTableMem mem' id = readTableMem mem id ∨
      ∃ n ≤ 596, (readTableMem mem' id).bytes = t.bytes.take n ++ List.replicate (596 - n) 0xFF := by
  have hprogram : ∀ n,
      Nor.read (Nor.Step.apply (Nor.Step.apply mem (.erase (id.address / Nor.sectorSize)))
        (.program id.address (t.bytes.take n))) id.address 596 =
      t.bytes.take (min n 596) ++ List.replicate (596 - min n 596) 0xFF := by
    intro n
    have hlen : (t.bytes.take n).length = min n 596 := by rw [List.length_take, t.length_eq]
    have htake : t.bytes.take n = t.bytes.take (min n 596) := by
      rw [List.take_eq_take_min, t.length_eq]
    rw [Nor.read_program (by omega) (read_erased mem id), hlen, htake]
  have herased : (readTableMem (Nor.Step.apply mem (.erase (id.address / Nor.sectorSize))) id).bytes
      = t.bytes.take 0 ++ List.replicate (596 - 0) 0xFF := by
    rw [bytes_readTableMem, read_erased, List.take_zero, List.nil_append]
  cases h with
  | before => exact .inl rfl
  | within => exact .inr ⟨0, Nat.zero_le _, herased⟩
  | after h =>
    cases h with
    | before => exact .inr ⟨0, Nat.zero_le _, herased⟩
    | within _ _ _ n =>
      refine .inr ⟨min n 596, Nat.min_le_right _ _, ?_⟩
      rw [bytes_readTableMem]
      exact hprogram n
    | after h =>
      cases h with
      | before =>
        refine .inr ⟨596, Nat.le_refl _, ?_⟩
        have h := hprogram 596
        rw [List.take_of_length_le (Nat.le_of_eq t.length_eq), Nat.min_self] at h
        rw [bytes_readTableMem]
        exact h

theorem readTableMem_tableSteps (mem : Nor.Mem) (id : PtTableIdType) (t : PtTableStuffConfig) :
    readTableMem (Nor.run mem (tableSteps id t)) id = t := by
  apply Record.ext
  have h := Nor.read_program (Nat.le_of_eq t.length_eq) (read_erased mem id)
  rw [t.length_eq, Nat.sub_self, List.replicate_zero, List.append_nil] at h
  rw [bytes_readTableMem]
  exact h

theorem readTableMem_lnot_tableSteps (mem : Nor.Mem) (t : PtTableStuffConfig)
    (hid : id ≠ .ptTableIdInvalid) :
    readTableMem (Nor.run mem (tableSteps id t)) id.lnot = readTableMem mem id.lnot :=
  readTableMem_lnot_of_crash hid (.after (.after (.before _ _)))

/-- An erased slot is not valid. -/
theorem invalid_of_erased (h : t.bytes = List.replicate 596 0xFF) : ptTableValid t = false := by
  have hmagic : t.magicCode ≠ bflbPtMagicCode := by
    rw [magicCode, Record.word, Record.get, h]
    decide
  rw [ptTableValid, if_neg hmagic]

/-- Which table is active after a completed write. -/
theorem selectMem_tableSteps (mem : Nor.Mem) (hid : id ≠ .ptTableIdInvalid) (valid : ptTableValid t = true) :
    selectMem (Nor.run mem (tableSteps id t)) =
      if Overtakes id t (readTableMem mem id.lnot) then id else id.lnot := by
  rw [selectMem_eq hid (by rwa [readTableMem_tableSteps]), readTableMem_tableSteps,
    readTableMem_lnot_tableSteps mem t hid]

theorem activeTable_tableSteps (hid : id ≠ .ptTableIdInvalid) (valid : ptTableValid t = true)
    (overtakes : Overtakes id t (readTableMem mem id.lnot)) :
    activeTable (Nor.run mem (tableSteps id t)) = some t := by
  have hselect := selectMem_tableSteps mem hid valid
  rw [if_pos overtakes] at hselect
  rw [activeTable_eq hselect hid, readTableMem_tableSteps]

/-! ## A first table -/

/-- Flash with the table `t` in slot 0 and nothing else. -/
def flashedMem (t : PtTableStuffConfig) : Nor.Mem :=
  Nor.run (fun _ => 0xFF) (tableSteps .ptTableId0 t)

theorem readTableMem_flashedMem : readTableMem (flashedMem t) .ptTableId0 = t :=
  readTableMem_tableSteps _ _ _

theorem invalid_flashedMem : ptTableValid (readTableMem (flashedMem t) .ptTableId1) = false := by
  have hother := readTableMem_lnot_tableSteps (fun _ => 0xFF) t
    (show PtTableIdType.ptTableId0 ≠ .ptTableIdInvalid by decide)
  rw [flashedMem, show PtTableIdType.ptTableId1 = PtTableIdType.ptTableId0.lnot from rfl, hother]
  apply invalid_of_erased
  rw [bytes_readTableMem, List.eq_replicate_iff]
  refine ⟨Nor.length_read _ _ _, fun b hb => ?_⟩
  unfold Nor.read at hb
  obtain ⟨i, -, rfl⟩ := List.mem_map.mp hb
  rfl

theorem selectMem_flashedMem (valid : ptTableValid t = true) :
    selectMem (flashedMem t) = .ptTableId0 := by
  have hid : PtTableIdType.ptTableId0 ≠ .ptTableIdInvalid := by decide
  rw [selectMem_eq hid (by rwa [readTableMem_flashedMem]), if_pos]
  intro hother
  rw [show PtTableIdType.ptTableId0.lnot = .ptTableId1 from rfl, invalid_flashedMem] at hother
  exact absurd hother (by decide)

/-! ## Updating an entry -/

/-- The table that `pt_table_update_entry` writes. -/
def updatedTable (base : PtTableStuffConfig) (e : PtTableEntryConfig) :
    Option PtTableStuffConfig :=
  (storeEntry base e).map fun t => sealTable (t.setAge (add32 t.age 1))

/-- What a new table says: the old one with the entry `e` in its place, if any. -/
structure Succeeds (base : PtTableStuffConfig) (e : Option PtTableEntryConfig)
    (t : PtTableStuffConfig) : Prop where
  valid : ptTableValid t = true
  age : t.age = add32 base.age 1
  entries : t.entries = e.elim base.entries (Keyed.upsert PtTableEntryConfig.type base.entries)

theorem add32_lt (a b : Nat) : add32 a b < 2 ^ 32 := by
  unfold add32
  exact Nat.mod_lt _ (by decide)

theorem updatedTable_succeeds (magic : base.magicCode = bflbPtMagicCode)
    (hcnt : base.entryCnt ≤ 16) (h : updatedTable base e = some t) : Succeeds base (some e) t := by
  obtain ⟨t', ht', rfl⟩ := Option.map_eq_some_iff.mp h
  have hstored := storeEntry_stored hcnt ht'
  refine ⟨?_, ?_, ?_⟩
  · apply valid_sealTable
    · rw [magicCode_setAge, hstored.magicCode, magic]
    · rw [entryCnt_setAge]
      exact hstored.entryCnt
  · rw [age_sealTable, age_setAge _ (add32_lt _ _), hstored.age]
  · rw [entries_sealTable, entries_setAge, hstored.entries]
    rfl

/-- There is room for an entry whose type is in the table. -/
theorem updatedTable_of_mem {x : PtTableEntryConfig} (hx : x ∈ base.entries)
    (htype : x.type = e.type) : ∃ t, updatedTable base e = some t := by
  have hi : base.entries.findIdx (fun y => y.type = e.type) < base.entries.length :=
    List.findIdx_lt_length_of_exists ⟨x, hx, by simpa using htype⟩
  rw [length_entries] at hi
  simp only [updatedTable, storeEntry, if_neg (Nat.ne_of_lt hi), Option.map_some]
  exact ⟨_, rfl⟩

/-- The first entry's index is toggled. -/
theorem entries_iapTable (base : PtTableStuffConfig) :
    (iapTable base).entries = base.entries.set 0
      ((base.ptEntry 0).setActiveIndex (lnot ((base.ptEntry 0).activeIndex &&& 1))) := by
  have hfirst : (base.setAge (add32 base.age 1)).ptEntry 0 = base.ptEntry 0 :=
    ptEntry_putWord_header _ _ _ (by decide)
  rw [iapTable, entries_sealTable, entries_setEntry _ _ (by decide), entries_setAge, hfirst]

theorem iapTable_succeeds (valid : ptTableValid base = true) :
    Succeeds base ((iapTable base).entries.head?) (iapTable base) := by
  have hcnt := entryCnt_of_valid valid
  have hmagic := magicCode_of_valid valid
  have hage : (base.setAge (add32 base.age 1)).entryCnt = base.entryCnt := entryCnt_setAge _ _
  have hentries := entries_iapTable base
  refine ⟨?_, ?_, ?_⟩
  · apply valid_sealTable
    · rw [magicCode, word_setEntry_header _ _ _ (by decide)]
      exact (magicCode_setAge _ _).trans hmagic
    · rw [entryCnt, word_setEntry_header _ _ _ (by decide)]
      exact hage.trans_le hcnt
  · rw [iapTable, age_sealTable, PtTableStuffConfig.age, word_setEntry_header _ _ _ (by decide)]
    exact age_setAge _ (add32_lt _ _)
  · rw [hentries]
    cases hb : base.entries with
    | nil => rfl
    | cons x rest =>
      have hx : base.ptEntry 0 = x := by
        have h0 := getElem?_entries base 0
        rw [hb, List.getElem?_cons_zero] at h0
        split at h0
        · exact (Option.some.inj h0).symm
        · exact absurd h0 (by simp)
      rw [hx, List.set_cons_zero, List.head?_cons, Option.elim_some]
      exact (Keyed.upsert_cons_same _ rest
        (PtTableEntryConfig.setActiveIndex.eq_def x _ ▸
          (x.word_putWord_disjoint (by decide)).symm)).symm

/-- The two driver calls that write a table. -/
theorem erase_of_ready (hready : flash.Ready 2) (id : PtTableIdType) {n : Nat} (h0 : 0 < n)
    (h : n ≤ 4096) :
    bflbFlashErase flash id.address n =
      ((flash.skip 1).done [.erase (id.address / Nor.sectorSize)], 0) := by
  rw [bflbFlashErase, sectors_slot h0 h, Flash.perform_of_ready hready]
  rfl

theorem write_of_ready (hready : flash.Ready 2) :
    bflbFlashWrite ((flash.skip 1).done [.erase (id.address / Nor.sectorSize)]) id.address t.bytes =
      ((flash.skip 2).done (tableSteps id t), 0) := by
  have hready' : ((flash.skip 1).done [.erase (id.address / Nor.sectorSize)]).Ready 1 := hready.skip
  rw [bflbFlashWrite, Flash.perform_of_ready hready']
  simp only [Flash.done, Flash.skip, tableSteps, List.append_assoc, List.cons_append,
    List.nil_append, List.drop_drop]
  rfl

/-- With a flash that does its part an update writes its table or reports
that there is no room. -/
theorem ptTableUpdateEntry_of_ready (hready : flash.Ready 2) (hid : id ≠ .ptTableIdInvalid)
    (hcnt : base.entryCnt ≤ 16) :
    ptTableUpdateEntry flash id base e =
      match updatedTable base e with
      | none => (flash, base, .ptErrorEntryUpdateFail)
      | some t => ((flash.skip 2).done (tableSteps id t), t, .ptErrorSuccess) := by
  unfold ptTableUpdateEntry updatedTable
  rw [if_neg hid]
  cases hstore : storeEntry base e with
  | none => rfl
  | some t =>
    have hlen : (sealTable (t.setAge (add32 t.age 1))).entriesLen ≤ 576 := by
      have := (storeEntry_stored hcnt hstore).entryCnt
      rw [entriesLen, entryCnt_sealTable, entryCnt_setAge]
      omega
    have herase := erase_of_ready hready id (Nat.succ_pos (16 +
      (sealTable (t.setAge (add32 t.age 1))).entriesLen + 3)) (by omega)
    simp only [Option.map_some, herase, write_of_ready hready, ne_eq, not_true_eq_false, if_false]

theorem ptTableUpdateEntry_of_no_faults (hf : flash.faults = []) (hid : id ≠ .ptTableIdInvalid)
    (hcnt : base.entryCnt ≤ 16) :
    ptTableUpdateEntry flash id base e =
      match updatedTable base e with
      | none => (flash, base, .ptErrorEntryUpdateFail)
      | some t => (flash.done (tableSteps id t), t, .ptErrorSuccess) := by
  rw [ptTableUpdateEntry_of_ready (Flash.ready_of_no_faults hf 2) hid hcnt,
    Flash.skip_of_no_faults hf]

/-- The parameters name the slot that is not selected. -/
theorem ptTableGetIapPara_eq (para : PtTableIapParamType) (hid : selectMem flash.mem = id)
    (valid : id ≠ .ptTableIdInvalid) :
    ptTableGetIapPara flash para =
      (iapParaOf para (readTable flash id) (if id = .ptTableId0 then 1 else 0),
        .ptErrorSuccess) := by
  subst hid
  unfold ptTableGetIapPara selectMem ptTableSelect at *
  simp only [readTable]
  by_cases h0 : ptTableValid (readTableMem flash.mem .ptTableId0) = true
  · by_cases h1 : ptTableValid (readTableMem flash.mem .ptTableId1) = true
    · by_cases hage : (readTableMem flash.mem .ptTableId0).age ≥
          (readTableMem flash.mem .ptTableId1).age
      · simp [h0, h1, hage]
      · simp [h0, h1, hage]
    · simp [h0, h1]
  · by_cases h1 : ptTableValid (readTableMem flash.mem .ptTableId1) = true
    · simp [h0, h1]
    · simp [h0, h1] at valid

theorem ptTableSetIapPara_of_no_faults (hf : flash.faults = []) (para : PtTableIapParamType)
    (hid : id ≠ .ptTableIdInvalid)
    (hindex : para.inactiveTableIndex = if id = .ptTableId0 then 1 else 0) :
    ptTableSetIapPara flash para =
      (flash.done (tableSteps id.lnot (iapTable (readTable flash id))), .ptErrorSuccess) := by
  have hready := Flash.ready_of_no_faults hf 2
  have hwrite : ∀ target t, writeIapTable flash target t =
      (flash.done (tableSteps target t), .ptErrorSuccess) := by
    intro target t
    simp only [writeIapTable, erase_of_ready hready target (by decide : 0 < 596) (by decide),
      write_of_ready hready, ne_eq, not_true_eq_false, if_false]
    rw [Flash.skip_of_no_faults hf]
  unfold ptTableSetIapPara
  cases id with
  | ptTableIdInvalid => exact absurd rfl hid
  | ptTableId0 =>
    rw [if_pos (by simpa using hindex), hwrite]
    rfl
  | ptTableId1 =>
    rw [if_neg (by simp [hindex]), if_pos (by simpa using hindex), hwrite]
    rfl

end BouffaloSdk.Partition
