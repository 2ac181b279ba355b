import BouffaloSdk.Ota.Bank
import BouffaloSdk.Partition.Slots

/-!
# Every way to change the partition table

One state, one step for each entry point that ends in a table write, and the
map from types to entries that the table in flash stands for. A run keeps its
updates when that map is, after every step, the initial one with each
successful update applied to it.
-/

namespace BouffaloSdk.Ota
open Kit Kit.Word BouffaloSdk.Partition Mtd PtTableStuffConfig

inductive Op
  | otaStart (fileSize : Nat) (parmMemory handleMemory : Bool)
  | otaUpdate (filesize offset : Nat) (buf : Option (List UInt8)) (xip : Bool)
  | otaFinish (checkHash memory : Bool)
  | otaApply
  | otaAbort
  | updatePtable (ptEntry : PtTableEntryConfig)
  | updateMfgPtable
  | iapPara (para : PtTableIapParamType)

/-- The state after a call that returned, and the entry that it produced if
it was a successful update. -/
structure Returned where
  sys : Sys
  produced : Option PtTableEntryConfig

/-- The entry that a commit of the open session writes. -/
def otaProduced (sys : Sys) : Option PtTableEntryConfig := do
  let parm ← sys.otaParm
  let table ← activeTable sys.flash.mem
  let ptFwEntry ← ptTableGetActiveEntriesByName table blMtdPartitionNameFwDefault
  some (committedEntry ptFwEntry (parm.fileSize - 32))

def otaReturned (sys : Sys) (result : Sys × Int) : Returned :=
  { sys := result.1, produced := if result.2 = 0 then otaProduced sys else none }

def stepUpdatePtable (sys : Sys) (ptEntry : PtTableEntryConfig) : Returned :=
  let result := bflbBoot2UpdatePtable sys.flash sys.boot2PartitionTable ptEntry
  { sys := { sys with flash := result.1 }
    produced := if result.2.2 = .ptErrorSuccess then some result.2.1 else none }

def stepUpdateMfgPtable (sys : Sys) : Returned :=
  let result := bflbUpdateMfgPtable sys.flash sys.boot2PartitionTable
  { sys := { sys with flash := result.1, boot2PartitionTable := result.2.1 }
    produced :=
      if result.2.2 = some .ptErrorSuccess then mfgEntry sys.boot2PartitionTable else none }

/-- `pt_table_get_iap_para` and, if it succeeds, `pt_table_set_iap_para` with
what it returned. -/
def stepIapPara (sys : Sys) (para : PtTableIapParamType) : Returned :=
  let got := ptTableGetIapPara sys.flash para
  if got.2 = .ptErrorSuccess then
    let set := ptTableSetIapPara sys.flash got.1
    { sys := { sys with flash := set.1 }
      produced :=
        if set.2 = .ptErrorSuccess then
          (activeTable sys.flash.mem).bind fun table => (iapTable table).entries.head?
        else none }
  else { sys := sys, produced := none }

def step (sys : Sys) : Op → Except Halt Returned
  | .otaStart fileSize parmMemory handleMemory =>
    (bflbOtaStart sys fileSize parmMemory handleMemory).map fun r => ⟨r.1, none⟩
  | .otaUpdate filesize offset buf xip =>
    (bflbOtaUpdate sys filesize offset buf xip).map fun r => ⟨r.1, none⟩
  | .otaFinish checkHash memory => .ok (otaReturned sys (bflbOtaFinish sys checkHash memory))
  | .otaApply => .ok (otaReturned sys (bflbOtaApply sys))
  | .otaAbort => .ok ⟨bflbOtaAbort sys, none⟩
  | .updatePtable ptEntry => .ok (stepUpdatePtable sys ptEntry)
  | .updateMfgPtable => .ok (stepUpdateMfgPtable sys)
  | .iapPara para => .ok (stepIapPara sys para)

/-- The device after `bflb_boot2_init` has found a table. -/
def Sys.boot (mem : Nor.Mem) (boot2PartitionTable : Boot2PartitionTable) : Sys :=
  { flash := Flash.ofMem mem
    boot2PartitionTable := boot2PartitionTable
    otaParm := none
    events := [] }

/-- The table map that `pt_table_get_active_entries_by_id` searches. -/
abbrev TableMap := Nat → Option PtTableEntryConfig

def TableMap.apply (map : TableMap) : Option PtTableEntryConfig → TableMap
  | none => map
  | some e => Function.update map e.type (some e)

/-- The selected table has exactly the entries of `map`. -/
def Holds (mem : Nor.Mem) (map : TableMap) : Prop :=
  ∃ table, activeTable mem = some table ∧ ptTableGetActiveEntriesById table = map

/-- The table in flash follows the successful updates through the whole run.
A call that never returns ends the run. -/
def KeepsUpdates : Sys → TableMap → List Op → Prop
  | sys, map, [] => Holds sys.flash.mem map
  | sys, map, op :: ops =>
    Holds sys.flash.mem map ∧
      match step sys op with
      | .error .deadLoop => True
      | .error .outOfBounds => False
      | .ok r => KeepsUpdates r.sys (map.apply r.produced) ops

/-! ## What a step writes -/

/-- The invariant of every run: calls succeed, a table is active, and the RAM
copy is one that could be written. -/
structure Sound (sys : Sys) : Prop where
  faults : sys.flash.faults = []
  active : selectMem sys.flash.mem ≠ .ptTableIdInvalid
  index : sys.boot2PartitionTable.partitionActiveIdx ≠ .ptTableIdInvalid
  magicCode : sys.boot2PartitionTable.table.magicCode = bflbPtMagicCode
  entryCnt : sys.boot2PartitionTable.table.entryCnt ≤ 16
  words : ∀ parm, sys.otaParm = some parm → parm.sectorErased.length = sectorErasedWords

/-- The table that a write starts from and the slot it goes to. -/
structure Source where
  base : PtTableStuffConfig
  target : PtTableIdType

/-- The session and the `iap` calls read flash again. -/
def flashSource (sys : Sys) : Source :=
  { base := readTableMem sys.flash.mem (selectMem sys.flash.mem)
    target := (selectMem sys.flash.mem).lnot }

/-- The boot table calls use the RAM copy and the slot number kept with it. -/
def ramSource (sys : Sys) : Source :=
  { base := sys.boot2PartitionTable.table
    target := sys.boot2PartitionTable.partitionActiveIdx.lnot }

def Op.source (sys : Sys) : Op → Source
  | .updatePtable _ => ramSource sys
  | .updateMfgPtable => ramSource sys
  | _ => flashSource sys

/-- One table write, or none. -/
inductive Writes (sys : Sys) (source : Source) (r : Returned) : Prop
  | nothing (flash : r.sys.flash = sys.flash) (produced : r.produced = none)
  | table (t : PtTableStuffConfig) (succeeds : Succeeds source.base r.produced t)
      (flash : r.sys.flash = sys.flash.done (tableSteps source.target t))

variable {sys : Sys} {r : Returned}

theorem Sound.flashSource_valid (h : Sound sys) : ptTableValid (flashSource sys).base = true :=
  valid_of_selectMem rfl h.active

theorem Sound.activeTable (h : Sound sys) :
    Partition.activeTable sys.flash.mem = some (flashSource sys).base :=
  activeTable_eq rfl h.active

theorem Sound.source_base (h : Sound sys) (op : Op) :
    (op.source sys).base.magicCode = bflbPtMagicCode ∧ (op.source sys).base.entryCnt ≤ 16 := by
  have hflash := h.flashSource_valid
  cases op with
  | updatePtable | updateMfgPtable => exact ⟨h.magicCode, h.entryCnt⟩
  | _ => exact ⟨magicCode_of_valid hflash, entryCnt_of_valid hflash⟩

theorem ne_invalid_target (sys : Sys) (op : Op) : (op.source sys).target ≠ .ptTableIdInvalid := by
  cases op <;> exact ne_invalid_lnot _

theorem type_committedEntry (ptFwEntry : PtTableEntryConfig) (binSize : Nat) :
    (committedEntry ptFwEntry binSize).type = ptFwEntry.type := by
  unfold committedEntry PtTableEntryConfig.type
  rw [PtTableEntryConfig.setAge, Record.word_putWord_disjoint _ (by decide),
    PtTableEntryConfig.setActiveIndex, Record.word_putWord_disjoint _ (by decide),
    PtTableEntryConfig.setLen, Record.word_putWord_disjoint _ (by decide)]

/-- The entry is stored by an update of the source's table in its slot. -/
theorem writes_of_update (h : Sound sys) (op : Op) {e : PtTableEntryConfig}
    {result : Flash × PtTableStuffConfig × PtTableErrorType}
    (hresult : ptTableUpdateEntry sys.flash (op.source sys).target (op.source sys).base e = result)
    (hflash : r.sys.flash = result.1)
    (hproduced : r.produced = if result.2.2 = .ptErrorSuccess then some e else none) :
    Writes sys (op.source sys) r := by
  obtain ⟨hmagic, hcnt⟩ := h.source_base op
  rw [ptTableUpdateEntry_of_no_faults h.faults (ne_invalid_target sys op) hcnt] at hresult
  cases htable : updatedTable (op.source sys).base e with
  | none =>
    rw [htable] at hresult
    subst hresult
    exact .nothing hflash hproduced
  | some t =>
    rw [htable] at hresult
    subst hresult
    refine .table t ?_ hflash
    rw [hproduced, if_pos rfl]
    exact updatedTable_succeeds hmagic hcnt htable

/-- An update that reports no success has written nothing. -/
theorem produced_of_update (h : Sound sys) (op : Op) {e : PtTableEntryConfig}
    {result : Flash × PtTableStuffConfig × PtTableErrorType}
    (hresult : ptTableUpdateEntry sys.flash (op.source sys).target (op.source sys).base e = result)
    (hflash : r.sys.flash = result.1)
    (hproduced : r.produced = if result.2.2 = .ptErrorSuccess then some e else none) :
    r.produced = some e ∨ (r.sys.flash = sys.flash ∧ r.produced = none) := by
  rw [ptTableUpdateEntry_of_no_faults h.faults (ne_invalid_target sys op)
    (h.source_base op).2] at hresult
  cases htable : updatedTable (op.source sys).base e with
  | none =>
    rw [htable] at hresult
    subst hresult
    exact .inr ⟨hflash, hproduced⟩
  | some t =>
    rw [htable] at hresult
    subst hresult
    exact .inl hproduced

/-- A session call that fails before its commit. -/
theorem writes_of_failed {source : Source} {sys' : Sys} (hflash : sys'.flash = sys.flash) :
    Writes sys source (otaReturned sys (sys', -1)) :=
  .nothing hflash (by simp [otaReturned])

/-- A commit writes the entry it produces. -/
theorem otaCommit_writes (h : Sound sys) {parm : BflbOtaParm} (hparm : sys.otaParm = some parm)
    {ptFwEntry : PtTableEntryConfig}
    (hfw : ptTableGetActiveEntriesByName (flashSource sys).base blMtdPartitionNameFwDefault =
      some ptFwEntry) :
    Writes sys (flashSource sys)
      (otaReturned sys (otaCommit sys (selectMem sys.flash.mem) ptFwEntry (parm.fileSize - 32))) := by
  have hproduced : otaProduced sys = some (committedEntry ptFwEntry (parm.fileSize - 32)) := by
    simp only [otaProduced, hparm, h.activeTable, hfw, Option.bind_eq_bind, Option.bind_some]
  obtain ⟨t, ht⟩ := updatedTable_of_mem (List.mem_of_find?_eq_some hfw)
    (type_committedEntry ptFwEntry (parm.fileSize - 32)).symm
  refine writes_of_update h .otaApply rfl rfl ?_
  rw [ptTableUpdateEntry_of_no_faults h.faults (ne_invalid_target sys .otaApply)
    (h.source_base .otaApply).2]
  simp only [otaReturned, otaCommit, if_true, hproduced, Op.source, ht]

theorem bflbOtaFinish_writes (h : Sound sys) (checkHash memory : Bool) :
    Writes sys (flashSource sys) (otaReturned sys (bflbOtaFinish sys checkHash memory)) := by
  unfold bflbOtaFinish
  cases hparm : sys.otaParm with
  | none => exact writes_of_failed rfl
  | some parm =>
    simp only []
    split
    · exact writes_of_failed rfl
    · split
      · exact writes_of_failed rfl
      · split
        · exact writes_of_failed rfl
        · rename_i ptFwEntry hfw
          split
          · exact writes_of_failed rfl
          · split
            · exact writes_of_failed rfl
            · exact otaCommit_writes h hparm hfw

theorem bflbOtaApply_writes (h : Sound sys) :
    Writes sys (flashSource sys) (otaReturned sys (bflbOtaApply sys)) := by
  unfold bflbOtaApply
  cases hparm : sys.otaParm with
  | none => exact writes_of_failed rfl
  | some parm =>
    simp only []
    split
    · exact writes_of_failed rfl
    · split
      · exact writes_of_failed rfl
      · split
        · exact writes_of_failed rfl
        · rename_i ptFwEntry hfw
          exact otaCommit_writes h hparm hfw

theorem stepUpdatePtable_writes (h : Sound sys) (ptEntry : PtTableEntryConfig) :
    Writes sys (ramSource sys) (stepUpdatePtable sys ptEntry) := by
  unfold stepUpdatePtable bflbBoot2UpdatePtable
  exact writes_of_update (e := toggled ptEntry) h (.updatePtable ptEntry) rfl rfl rfl

theorem stepUpdateMfgPtable_writes (h : Sound sys) :
    Writes sys (ramSource sys) (stepUpdateMfgPtable sys) := by
  unfold stepUpdateMfgPtable bflbUpdateMfgPtable
  cases hentry : mfgEntry sys.boot2PartitionTable with
  | none => exact .nothing rfl (by simp)
  | some e =>
    refine writes_of_update h .updateMfgPtable rfl rfl ?_
    simp only [Option.some.injEq]
    rfl

theorem stepUpdatePtable_eq (h : Sound sys) (ptEntry : PtTableEntryConfig)
    {t : PtTableStuffConfig}
    (ht : updatedTable sys.boot2PartitionTable.table (toggled ptEntry) = some t) :
    stepUpdatePtable sys ptEntry =
      { sys := { sys with flash := sys.flash.done (tableSteps (ramSource sys).target t) }
        produced := some (toggled ptEntry) } := by
  have hupdate := ptTableUpdateEntry_of_no_faults (e := toggled ptEntry) h.faults
    (ne_invalid_lnot sys.boot2PartitionTable.partitionActiveIdx) h.entryCnt
  rw [ht] at hupdate
  unfold stepUpdatePtable bflbBoot2UpdatePtable
  simp only [hupdate, if_true]
  rfl

theorem stepUpdatePtable_produced (h : Sound sys) (ptEntry : PtTableEntryConfig) :
    (stepUpdatePtable sys ptEntry).produced = some (toggled ptEntry) ∨
      ((stepUpdatePtable sys ptEntry).sys.flash = sys.flash ∧
        (stepUpdatePtable sys ptEntry).produced = none) := by
  unfold stepUpdatePtable bflbBoot2UpdatePtable
  exact produced_of_update (r := ⟨_, _⟩) h (.updatePtable ptEntry) rfl rfl rfl

theorem stepUpdateMfgPtable_produced (h : Sound sys) {e : PtTableEntryConfig}
    (hentry : mfgEntry sys.boot2PartitionTable = some e) :
    (stepUpdateMfgPtable sys).produced = some e ∨
      ((stepUpdateMfgPtable sys).sys.flash = sys.flash ∧
        (stepUpdateMfgPtable sys).produced = none) := by
  unfold stepUpdateMfgPtable bflbUpdateMfgPtable
  rw [hentry]
  refine produced_of_update (r := ⟨_, _⟩) h .updateMfgPtable rfl rfl ?_
  simp only [Option.some.injEq]
  rfl

theorem stepIapPara_eq (h : Sound sys) (para : PtTableIapParamType) :
    stepIapPara sys para =
      { sys := { sys with flash := sys.flash.done (tableSteps (flashSource sys).target
          (iapTable (flashSource sys).base)) }
        produced := (iapTable (flashSource sys).base).entries.head? } := by
  have hget := ptTableGetIapPara_eq para rfl h.active
  have hset := ptTableSetIapPara_of_no_faults h.faults (iapParaOf para
    (readTable sys.flash (selectMem sys.flash.mem)) (if selectMem sys.flash.mem = .ptTableId0
      then 1 else 0)) h.active rfl
  unfold stepIapPara
  simp only [hget, hset, if_true, h.activeTable, Option.bind_some]
  rfl

theorem stepIapPara_writes (h : Sound sys) (para : PtTableIapParamType) :
    Writes sys (flashSource sys) (stepIapPara sys para) := by
  have hsucceeds := iapTable_succeeds h.flashSource_valid
  rw [stepIapPara_eq h]
  refine .table (iapTable (flashSource sys).base) ?_ rfl
  dsimp only
  exact hsucceeds

/-- The calls that write a table, as against those that write a bank. -/
def Op.IsUpdate : Op → Prop
  | .otaStart .. => False
  | .otaUpdate .. => False
  | .otaAbort => False
  | _ => True

theorem step_writes (h : Sound sys) {op : Op} (hop : op.IsUpdate) :
    ∃ r, step sys op = .ok r ∧ Writes sys (op.source sys) r := by
  cases op with
  | otaStart | otaUpdate | otaAbort => exact hop.elim
  | otaFinish checkHash memory => exact ⟨_, rfl, bflbOtaFinish_writes h checkHash memory⟩
  | otaApply => exact ⟨_, rfl, bflbOtaApply_writes h⟩
  | updatePtable ptEntry =>
    exact ⟨_, rfl, stepUpdatePtable_writes h ptEntry⟩
  | updateMfgPtable => exact ⟨_, rfl, stepUpdateMfgPtable_writes h⟩
  | iapPara para => exact ⟨_, rfl, stepIapPara_writes h para⟩

/-! ## Soundness of every state -/

/-- The chunk's sectors lie outside the two slots. -/
def ClearOfTables (handle : BflbMtdHandle) (offset len : Nat) : Prop :=
  sectorCeil (chunkHi handle offset len) ≤ 0xE000 ∨ 0x10000 ≤ sectorFloor (chunkLo handle offset)

/-- The bitmap has a bit for each sector of the chunk. -/
def InBitmap (offset len : Nat) : Prop := (offset + len - 1) / 4096 / 32 < sectorErasedWords

/-- Image data stays within its arithmetic, off the tables and in the bitmap. -/
def DataClear (sys : Sys) : Op → Prop
  | .otaUpdate filesize offset (some data) _ =>
    ∀ parm, sys.otaParm = some parm → Accepted parm filesize offset data →
      ChunkFits parm.mtdHandle offset data.length ∧
        ClearOfTables parm.mtdHandle offset data.length ∧ InBitmap offset data.length
  | _ => True

/-- `bflb_boot2_init` keeps the selected table and its slot number. -/
theorem bflbBoot2Init_eq {flash : Flash} {boot2 : Boot2PartitionTable}
    (h : bflbBoot2Init flash = some boot2) :
    selectMem flash.mem ≠ .ptTableIdInvalid ∧
      boot2 = { partitionActiveIdx := selectMem flash.mem
                table := readTableMem flash.mem (selectMem flash.mem) } := by
  have hget : ptTableGetActivePartitionNeedLock flash = selectMem flash.mem := rfl
  rw [bflbBoot2Init, hget] at h
  cases hid : selectMem flash.mem with
  | ptTableIdInvalid =>
    rw [hid] at h
    exact absurd h (by simp)
  | ptTableId0 | ptTableId1 =>
    rw [hid] at h
    exact ⟨by simp, (Option.some.inj h).symm⟩

theorem sound_boot {mem : Nor.Mem} {boot2 : Boot2PartitionTable}
    (h : bflbBoot2Init (Flash.ofMem mem) = some boot2) : Sound (Sys.boot mem boot2) := by
  obtain ⟨hactive, rfl⟩ := bflbBoot2Init_eq h
  have hvalid := valid_of_selectMem rfl hactive
  exact ⟨rfl, hactive, hactive, magicCode_of_valid hvalid, entryCnt_of_valid hvalid,
    fun parm hparm => absurd hparm (by simp [Sys.boot])⟩

theorem otaEraseSector_length {handle : BflbMtdHandle} {state state' : Flash × List Nat}
    {index : Nat} (h : otaEraseSector handle state index = .ok state') :
    state'.2.length = state.2.length := by
  unfold otaEraseSector at h
  split at h
  · exact absurd h (by simp)
  · split at h
    · obtain ⟨⟩ := Except.ok.inj h
      exact List.length_set
    · obtain ⟨⟩ := Except.ok.inj h
      rfl

theorem foldlM_otaEraseSector_length {handle : BflbMtdHandle} {indices : List Nat}
    {state state' : Flash × List Nat}
    (h : indices.foldlM (otaEraseSector handle) state = .ok state') :
    state'.2.length = state.2.length := by
  induction indices generalizing state with
  | nil =>
    obtain ⟨⟩ := Except.ok.inj h
    rfl
  | cons index indices ih =>
    rw [List.foldlM_cons] at h
    cases hfirst : otaEraseSector handle state index with
    | error halt =>
      rw [hfirst] at h
      exact absurd h (by simp [bind, Except.bind])
    | ok mid =>
      rw [hfirst] at h
      exact (ih h).trans (otaEraseSector_length hfirst)

theorem bflbOtaErase_length {parm : BflbOtaParm} {flash flash' : Flash} {sectorErased : List Nat}
    {offset len : Nat} (h : bflbOtaErase flash parm offset len = .ok (flash', sectorErased)) :
    sectorErased.length = parm.sectorErased.length :=
  foldlM_otaEraseSector_length h

/-- The loop returns when every index is in the bitmap. -/
theorem foldlM_otaEraseSector_ok (handle : BflbMtdHandle) {indices : List Nat}
    (state : Flash × List Nat) (h : ∀ index ∈ indices, index / 32 < state.2.length) :
    ∃ state', indices.foldlM (otaEraseSector handle) state = .ok state' := by
  induction indices generalizing state with
  | nil => exact ⟨state, rfl⟩
  | cons index indices ih =>
    have hindex := h index List.mem_cons_self
    obtain ⟨mid, hmid⟩ : ∃ mid, otaEraseSector handle state index = .ok mid := by
      unfold otaEraseSector
      rw [List.getElem?_eq_getElem hindex]
      simp only []
      split
      · exact ⟨_, rfl⟩
      · exact ⟨_, rfl⟩
    obtain ⟨state', hstate'⟩ := ih mid fun i hi => by
      rw [otaEraseSector_length hmid]
      exact h i (List.mem_cons_of_mem _ hi)
    refine ⟨state', ?_⟩
    rw [List.foldlM_cons, hmid]
    exact hstate'

theorem bflbOtaErase_ok {parm : BflbOtaParm} (flash : Flash) {offset len : Nat} (hlen : 0 < len)
    (hfit : offset + len < 2 ^ 32) (hwords : parm.sectorErased.length = sectorErasedWords)
    (hbitmap : InBitmap offset len) :
    ∃ erased, bflbOtaErase flash parm offset len = .ok erased := by
  have hindices : ∀ index ∈ (List.range (sub32 (add32 offset len) 1 / 4096 + 1 -
      offset / 4096)).map (offset / 4096 + ·), index / 32 < parm.sectorErased.length := by
    intro index hindex
    obtain ⟨i, hi, rfl⟩ := List.mem_map.mp hindex
    rw [List.mem_range, add32_eq hfit, sub32_eq (show 1 ≤ offset + len by omega) hfit] at hi
    rw [hwords]
    unfold InBitmap at hbitmap
    omega
  exact foldlM_otaEraseSector_ok parm.mtdHandle (flash, parm.sectorErased) hindices

theorem readTableMem_of_changedWithin {flash flash' : Flash} {lo hi : Nat} {id : PtTableIdType}
    (h : flash.ChangedWithin flash' lo hi) (clear : hi ≤ 0xE000 ∨ 0x10000 ≤ lo) :
    readTableMem flash'.mem id = readTableMem flash.mem id := by
  apply Record.ext
  rw [bytes_readTableMem, bytes_readTableMem]
  apply h.read_eq
  rcases address_eq id with ha | ha <;> rw [ha] <;> omega

theorem selectMem_congr {mem mem' : Nor.Mem}
    (h : ∀ id, readTableMem mem' id = readTableMem mem id) : selectMem mem' = selectMem mem := by
  rw [selectMem, selectMem, h, h]

theorem activeTable_congr {mem mem' : Nor.Mem}
    (h : ∀ id, readTableMem mem' id = readTableMem mem id) :
    Partition.activeTable mem' = Partition.activeTable mem := by
  rw [Partition.activeTable, Partition.activeTable, selectMem_congr h, h]

/-- What a call that is no update leaves alone. -/
structure Quiet (sys : Sys) (r : Returned) : Prop where
  tables : ∀ id, readTableMem r.sys.flash.mem id = readTableMem sys.flash.mem id
  faults : r.sys.flash.faults = []
  boot2 : r.sys.boot2PartitionTable = sys.boot2PartitionTable
  words : ∀ parm, r.sys.otaParm = some parm → parm.sectorErased.length = sectorErasedWords
  produced : r.produced = none

theorem Quiet.sound (h : Sound sys) (quiet : Quiet sys r) : Sound r.sys := by
  refine ⟨quiet.faults, ?_, ?_, ?_, ?_, quiet.words⟩
  · rw [selectMem_congr quiet.tables]
    exact h.active
  · rw [quiet.boot2]
    exact h.index
  · rw [quiet.boot2]
    exact h.magicCode
  · rw [quiet.boot2]
    exact h.entryCnt

theorem bflbOtaStart_cases {sys' : Sys} {fileSize : Nat} {parmMemory handleMemory : Bool} {ret : Int}
    (h : bflbOtaStart sys fileSize parmMemory handleMemory = .ok (sys', ret)) :
    sys'.flash = sys.flash ∧ sys'.boot2PartitionTable = sys.boot2PartitionTable ∧
      (sys'.otaParm = sys.otaParm ∨ sys'.otaParm = none ∨
        ∃ handle ptFwEntry,
          bflbMtdOpen sys.boot2PartitionTable handleMemory blMtdPartitionNameFwDefault true =
            .opened handle ∧
          ptTableGetActiveEntriesByName (flashSource sys).base blMtdPartitionNameFwDefault =
            some ptFwEntry ∧
          fileSize ≤ ptFwEntry.maxLen (lnot ptFwEntry.activeIndex) ∧
          sys'.otaParm = some
            { mtdHandle := handle
              fileSize := fileSize
              sectorErased := List.replicate sectorErasedWords 0 }) := by
  unfold bflbOtaStart at h
  split at h
  · obtain ⟨rfl, -⟩ := Prod.mk.inj (Except.ok.inj h)
    exact ⟨rfl, rfl, .inl rfl⟩
  · split at h
    · obtain ⟨rfl, -⟩ := Prod.mk.inj (Except.ok.inj h)
      exact ⟨rfl, rfl, .inl rfl⟩
    · simp only [] at h
      split at h
      · obtain ⟨rfl, -⟩ := Prod.mk.inj (Except.ok.inj h)
        exact ⟨rfl, rfl, .inr (.inl rfl)⟩
      · split at h
        · obtain ⟨rfl, -⟩ := Prod.mk.inj (Except.ok.inj h)
          exact ⟨rfl, rfl, .inr (.inl rfl)⟩
        · rename_i ptFwEntry hfw
          split at h
          · exact absurd h (by simp)
          · obtain ⟨rfl, -⟩ := Prod.mk.inj (Except.ok.inj h)
            exact ⟨rfl, rfl, .inr (.inl rfl)⟩
          · rename_i handle hopen
            split at h
            · obtain ⟨rfl, -⟩ := Prod.mk.inj (Except.ok.inj h)
              exact ⟨rfl, rfl, .inr (.inl rfl)⟩
            · rename_i hsize
              obtain ⟨rfl, -⟩ := Prod.mk.inj (Except.ok.inj h)
              exact ⟨rfl, rfl, .inr (.inr ⟨handle, ptFwEntry, hopen, hfw, Nat.le_of_not_lt hsize,
                rfl⟩)⟩

theorem bflbOtaStart_error {fileSize : Nat} {parmMemory handleMemory : Bool} {halt : Halt}
    (h : bflbOtaStart sys fileSize parmMemory handleMemory = .error halt) : halt = .deadLoop := by
  unfold bflbOtaStart at h
  split at h
  · exact absurd h (by simp)
  · split at h
    · exact absurd h (by simp)
    · simp only [] at h
      split at h
      · exact absurd h (by simp)
      · split at h
        · exact absurd h (by simp)
        · split at h
          · exact (Except.error.inj h).symm
          · exact absurd h (by simp)
          · split at h
            · exact absurd h (by simp)
            · exact absurd h (by simp)

theorem bflbOtaStart_quiet (h : Sound sys) {sys' : Sys} {fileSize : Nat}
    {parmMemory handleMemory : Bool} {ret : Int}
    (hstart : bflbOtaStart sys fileSize parmMemory handleMemory = .ok (sys', ret)) :
    Quiet sys ⟨sys', none⟩ := by
  obtain ⟨hflash, hboot2, hparm⟩ := bflbOtaStart_cases hstart
  refine ⟨fun id => by simp only [hflash], by simp only [hflash, h.faults], hboot2, ?_, rfl⟩
  intro parm hsome
  simp only [] at hsome
  rcases hparm with same | none | ⟨handle, -, -, -, -, opened⟩
  · exact h.words parm (same ▸ hsome)
  · rw [none] at hsome
    exact absurd hsome (by simp)
  · rw [opened] at hsome
    obtain ⟨⟩ := Option.some.inj hsome
    exact List.length_replicate

theorem bflbOtaUpdate_quiet (h : Sound sys) {sys' : Sys} {filesize offset : Nat}
    {buf : Option (List UInt8)} {xip : Bool} {ret : Int}
    (clear : DataClear sys (.otaUpdate filesize offset buf xip))
    (hupdate : bflbOtaUpdate sys filesize offset buf xip = .ok (sys', ret)) :
    Quiet sys ⟨sys', none⟩ := by
  rcases bflbOtaUpdate_cases hupdate with
    rfl | ⟨parm, data, words, flash₁, hparm, rfl, haccepted, herase, rfl⟩
  · exact ⟨fun _ => rfl, h.faults, rfl, h.words, rfl⟩
  · obtain ⟨hfits, htables, -⟩ := clear parm hparm haccepted
    have hchanged := bflbOtaUpdate_changedWithin xip haccepted herase hfits
    refine ⟨fun id => readTableMem_of_changedWithin hchanged htables, hchanged.faults h.faults, rfl,
      ?_, rfl⟩
    intro parm' hsome
    obtain ⟨⟩ := Option.some.inj hsome
    exact (bflbOtaErase_length herase).trans (h.words parm hparm)

/-- Image data inside the bitmap is never an access outside it. -/
theorem bflbOtaUpdate_inBounds {filesize offset : Nat} {buf : Option (List UInt8)} {xip : Bool}
    (words : ∀ parm, sys.otaParm = some parm → parm.sectorErased.length = sectorErasedWords)
    (inside : ∀ parm data, sys.otaParm = some parm → buf = some data →
      Accepted parm filesize offset data →
      offset + data.length < 2 ^ 32 ∧ InBitmap offset data.length) :
    ∃ result, bflbOtaUpdate sys filesize offset buf xip = .ok result := by
  unfold bflbOtaUpdate
  cases hparm : sys.otaParm with
  | none => exact ⟨_, rfl⟩
  | some parm =>
    cases buf with
    | none => exact ⟨_, rfl⟩
    | some data =>
      simp only []
      split
      · exact ⟨_, rfl⟩
      · rename_i haccepted
        obtain ⟨hfits, hbitmap⟩ := inside parm data hparm rfl haccepted
        obtain ⟨erased, hok⟩ :=
          bflbOtaErase_ok sys.flash (by omega) hfits (words parm hparm) hbitmap
        rw [hok]
        simp only []
        split
        · exact ⟨_, rfl⟩
        · exact ⟨_, rfl⟩

/-! ## A device with one firmware entry -/

/-- Two banks of 448 KB, the first one active. -/
def fwEntry : PtTableEntryConfig :=
  ((((((Record.zero 36).put 3 blMtdPartitionNameFwDefault).putWord 12 4 0x10000).putWord 16 4
    0x80000).putWord 20 4 0x70000).putWord 24 4 0x70000)

def fwTable : PtTableStuffConfig :=
  sealTable ((((Record.zero 596).putWord 0 4 bflbPtMagicCode).put 16 fwEntry.bytes).putWord 6 2 1)

/-- An entry of another type. -/
def mediaEntry : PtTableEntryConfig := (Record.zero 36).putWord 0 1 1

def fwBoot2 : Boot2PartitionTable := { partitionActiveIdx := .ptTableId0, table := fwTable }

theorem valid_fwTable : ptTableValid fwTable = true :=
  valid_sealTable (by decide) (by decide)

theorem entries_fwTable : fwTable.entries = [fwEntry] := by
  rw [fwTable, entries_sealTable]
  decide

theorem age_fwTable : fwTable.age = 0 := by
  rw [fwTable, age_sealTable]
  decide

theorem boot_fwTable : bflbBoot2Init (Flash.ofMem (flashedMem fwTable)) = some fwBoot2 := by
  have hget : ptTableGetActivePartitionNeedLock (Flash.ofMem (flashedMem fwTable)) = .ptTableId0 :=
    selectMem_flashedMem valid_fwTable
  rw [bflbBoot2Init, hget]
  exact congrArg (fun t => some (Boot2PartitionTable.mk .ptTableId0 t)) readTableMem_flashedMem

def fwSys : Sys := Sys.boot (flashedMem fwTable) fwBoot2

theorem sound_fwSys : Sound fwSys := sound_boot boot_fwTable

theorem selectMem_fwSys : selectMem fwSys.flash.mem = .ptTableId0 :=
  selectMem_flashedMem valid_fwTable

theorem flashSource_fwSys : flashSource fwSys = ⟨fwTable, .ptTableId1⟩ := by
  rw [flashSource, selectMem_fwSys]
  exact congrArg (fun t => Source.mk t .ptTableId1) readTableMem_flashedMem

theorem readTableMem_fwSys : readTableMem fwSys.flash.mem .ptTableId0 = fwTable :=
  readTableMem_flashedMem

theorem updatedTable_mediaEntry :
    ∃ t, updatedTable fwTable (toggled mediaEntry) = some t ∧
      Succeeds fwTable (some (toggled mediaEntry)) t := by
  have hmagic := magicCode_of_valid valid_fwTable
  have hcnt := entryCnt_of_valid valid_fwTable
  have hsome : (updatedTable fwTable (toggled mediaEntry)).isSome = true := by
    decide
  obtain ⟨t, ht⟩ := Option.isSome_iff_exists.mp hsome
  exact ⟨t, ht, updatedTable_succeeds hmagic hcnt ht⟩

end BouffaloSdk.Ota
