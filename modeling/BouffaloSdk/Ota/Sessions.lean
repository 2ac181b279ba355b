import BouffaloSdk.Ota.Updates

/-!
# Which bank a session commits

The sizes and the commit of a session come from the table in flash, the bank
that it writes from the table in RAM. The two agree until the first commit
after a boot.
-/

namespace BouffaloSdk.Ota
open Kit Kit.Word BouffaloSdk.Partition Mtd PtTableStuffConfig

inductive Call
  | start (fileSize : Nat) (parmMemory handleMemory : Bool)
  | update (filesize offset : Nat) (buf : Option (List UInt8)) (xip : Bool)
  | check (memory : Bool)
  | finish (checkHash memory : Bool)
  | apply
  | abort

def call (sys : Sys) : Call → Except Halt (Sys × Int)
  | .start fileSize parmMemory handleMemory => bflbOtaStart sys fileSize parmMemory handleMemory
  | .update filesize offset buf xip => bflbOtaUpdate sys filesize offset buf xip
  | .check memory => .ok (bflbOtaCheck sys memory)
  | .finish checkHash memory => .ok (bflbOtaFinish sys checkHash memory)
  | .apply => .ok (bflbOtaApply sys)
  | .abort => .ok (bflbOtaAbort sys, 0)

/-- For a call that commits, whether it checks the hash first. -/
def Call.commits : Call → Option Bool
  | .finish checkHash _ => some checkHash
  | .apply => some false
  | _ => none

/-- The device when `bflb_boot2_init` has copied the table to RAM. -/
def Sys.booted (flash : Flash) (boot2PartitionTable : Boot2PartitionTable) : Sys :=
  { flash := flash
    boot2PartitionTable := boot2PartitionTable
    otaParm := none
    events := [] }

/-- The firmware entry of the table that is active in flash. -/
def flashFwEntry (mem : Nor.Mem) : Option PtTableEntryConfig :=
  (activeTable mem).bind (ptTableGetActiveEntriesByName · blMtdPartitionNameFwDefault)

def ramFwEntry (boot2 : Boot2PartitionTable) : Option PtTableEntryConfig :=
  ptTableGetActiveEntriesByName boot2.table blMtdPartitionNameFwDefault

/-- The bank that a handle opened for backup gets. -/
def backupIndex (e : PtTableEntryConfig) : Nat := lnot e.activeIndex

/-- The bank of the running image. -/
def runningIndex (e : PtTableEntryConfig) : Nat := lnot (backupIndex e)

def InRunningBank (boot2 : Boot2PartitionTable) (a : Nat) : Prop :=
  ∃ e, ramFwEntry boot2 = some e ∧ e.startAddress (runningIndex e) ≤ a ∧
    a < e.startAddress (runningIndex e) + e.maxLen (runningIndex e)

/-- The active firmware bank is the one that the session wrote, and it holds
an image with its digest if that was checked. -/
def CommitsProgrammed (parm : BflbOtaParm) (checkHash : Bool) (mem : Nor.Mem) : Prop :=
  ∃ e, flashFwEntry mem = some e ∧ e.startAddress e.activeIndex = parm.mtdHandle.offset ∧
    (checkHash = true →
      sha256 (Nor.read mem parm.mtdHandle.offset e.len) =
        Nor.read mem (parm.mtdHandle.offset + e.len) 32)

/-- What a call that returned has done. -/
structure CallOk (boot2 : Boot2PartitionTable) (sys : Sys) (c : Call) (r : Sys × Int) : Prop where
  committed : ∀ checkHash, c.commits = some checkHash → r.2 = 0 →
    ∃ parm, sys.otaParm = some parm ∧ CommitsProgrammed parm checkHash r.1.flash.mem
  spared : ∀ s ∈ r.1.flash.log.drop sys.flash.log.length, ∀ a, s.Touches a → ¬ InRunningBank boot2 a

/-- Every call of the run does what it should. A call that never returns ends
the run; an access outside `sector_erased` is not allowed. -/
def SessionsOk (boot2 : Boot2PartitionTable) : Sys → List Call → Prop
  | _, [] => True
  | sys, c :: cs =>
    match call sys c with
    | .error .deadLoop => True
    | .error .outOfBounds => False
    | .ok r => CallOk boot2 sys c r ∧ SessionsOk boot2 r.1 cs

/-! ## The condition -/

/-- The sectors of the backup bank meet neither the running bank nor the
tables, which do not meet each other. -/
structure BanksApart (e : PtTableEntryConfig) : Prop where
  small : e.startAddress (backupIndex e) + sectorCeil (e.maxLen (backupIndex e)) ≤ 2 ^ 32
  tables :
    sectorCeil (e.startAddress (backupIndex e) + sectorCeil (e.maxLen (backupIndex e))) ≤ 0xE000 ∨
      0x10000 ≤ sectorFloor (e.startAddress (backupIndex e))
  running :
    sectorCeil (e.startAddress (backupIndex e) + sectorCeil (e.maxLen (backupIndex e))) ≤
        e.startAddress (runningIndex e) ∨
      e.startAddress (runningIndex e) + e.maxLen (runningIndex e) ≤
        sectorFloor (e.startAddress (backupIndex e))
  runningTables :
    e.startAddress (runningIndex e) + e.maxLen (runningIndex e) ≤ 0xE000 ∨
      0x10000 ≤ e.startAddress (runningIndex e)

/-- A commit activates the bank that RAM calls the backup, its table is newer
than the active one, and the flash carries it out. -/
structure SafeCommit (sys : Sys) : Prop where
  index : ∀ e e0, flashFwEntry sys.flash.mem = some e → ramFwEntry sys.boot2PartitionTable = some e0 →
    lnot (e.activeIndex &&& 1) = backupIndex e0
  age : ∀ table, activeTable sys.flash.mem = some table → table.age ≠ 2 ^ 32 - 1
  ready : sys.flash.Ready 2

def SafeCall (sys : Sys) : Call → Prop
  | .start fileSize _ _ =>
    sys.otaParm = none → ∀ e e0, flashFwEntry sys.flash.mem = some e →
      ramFwEntry sys.boot2PartitionTable = some e0 →
      fileSize ≤ e.maxLen (lnot e.activeIndex) → fileSize ≤ e0.maxLen (backupIndex e0)
  | .update filesize offset (some data) _ =>
    ∀ parm, sys.otaParm = some parm → Accepted parm filesize offset data →
      offset + data.length < 2 ^ 32 ∧ InBitmap offset data.length
  | .finish checkHash memory =>
    ∀ parm, sys.otaParm = some parm → 32 < parm.fileSize →
      (checkHash = true → memory = true ∧
        otaDigestMatches sys.flash parm.mtdHandle (parm.fileSize - 32) = true) →
      SafeCommit sys
  | .apply => ∀ parm, sys.otaParm = some parm → 32 < parm.fileSize → SafeCommit sys
  | _ => True

def SafeCalls : Sys → List Call → Prop
  | _, [] => True
  | sys, c :: cs => SafeCall sys c ∧ ∀ r, call sys c = .ok r → SafeCalls r.1 cs

/-! ## The digest -/

/-- Reading the bank piece by piece hashes its whole contents. -/
theorem otaDigest_eq (flash : Flash) (handle : BflbMtdHandle) {binSize : Nat}
    (small : handle.offset + binSize ≤ 2 ^ 32) :
    otaDigest flash handle binSize = sha256 (Nor.read flash.mem handle.offset binSize) := by
  have hfold : ∀ n, n ≤ (binSize + 511) / 512 → Sha256Holds
      ((List.range n).foldl
        (fun ctx i =>
          utilsSha256Update ctx
            (bflbMtdRead flash handle (512 * i) (min 512 (binSize - 512 * i))))
        (utilsSha256Starts utilsSha256Init))
      (Nor.read flash.mem handle.offset (min (512 * n) binSize)) := by
    intro n
    induction n with
    | zero =>
      intro _
      rw [Nat.mul_zero, Nat.zero_min, List.length_eq_zero_iff.mp (Nor.length_read _ _ _)]
      exact sha256Holds_starts
    | succ n ih =>
      intro hn
      have haddr : add32 handle.offset (512 * n) = handle.offset + 512 * n := add32_eq (by omega)
      have hpiece := (ih (by omega)).update
        (bflbMtdRead flash handle (512 * n) (min 512 (binSize - 512 * n)))
        (by rw [bflbMtdRead, bflbFlashRead, Nor.length_read]; omega)
      rw [bflbMtdRead, bflbFlashRead, haddr, Nat.min_eq_left (show 512 * n ≤ binSize by omega),
        ← Nor.read_add] at hpiece
      rw [List.range_succ, List.foldl_concat, bflbMtdRead, bflbFlashRead, haddr]
      have hmin : min (512 * (n + 1)) binSize = 512 * n + min 512 (binSize - 512 * n) := by omega
      rw [hmin]
      exact hpiece
  have hall := hfold ((binSize + 511) / 512) (Nat.le_refl _)
  rw [Nat.min_eq_right (by omega)] at hall
  exact hall.finish (by rw [Nor.length_read]; omega)

/-! ## The firmware entry -/

variable {sys : Sys} {boot2 : Boot2PartitionTable} {e : PtTableEntryConfig} {binSize : Nat}

theorem lnot_le (x : Nat) : lnot x ≤ 1 := by
  unfold lnot
  split <;> decide

theorem startAddress_committedEntry (e : PtTableEntryConfig) (binSize : Nat) {i : Nat} (hi : i ≤ 1) :
    (committedEntry e binSize).startAddress i = e.startAddress i := by
  unfold committedEntry PtTableEntryConfig.startAddress
  rw [PtTableEntryConfig.setAge, Record.word_putWord_disjoint _ (by omega),
    PtTableEntryConfig.setActiveIndex, Record.word_putWord_disjoint _ (by omega),
    PtTableEntryConfig.setLen, Record.word_putWord_disjoint _ (by omega)]

theorem name_committedEntry (e : PtTableEntryConfig) (binSize : Nat) :
    (committedEntry e binSize).name = e.name := by
  unfold committedEntry PtTableEntryConfig.name
  rw [PtTableEntryConfig.setAge, Record.get_putWord_disjoint _ (by decide),
    PtTableEntryConfig.setActiveIndex, Record.get_putWord_disjoint _ (by decide),
    PtTableEntryConfig.setLen, Record.get_putWord_disjoint _ (by decide)]

theorem activeIndex_committedEntry (e : PtTableEntryConfig) (binSize : Nat) :
    (committedEntry e binSize).activeIndex = lnot (e.activeIndex &&& 1) := by
  have hold : (e.setLen binSize).activeIndex = e.activeIndex :=
    e.word_putWord_disjoint (by decide)
  unfold committedEntry
  dsimp only
  rw [hold, PtTableEntryConfig.activeIndex, PtTableEntryConfig.setAge,
    Record.word_putWord_disjoint _ (by decide), PtTableEntryConfig.setActiveIndex,
    Record.word_putWord_same _ (by decide)]
  exact Nat.lt_of_le_of_lt (lnot_le _) (by decide)

theorem len_committedEntry (e : PtTableEntryConfig) (small : binSize < 2 ^ 32) :
    (committedEntry e binSize).len = binSize := by
  unfold committedEntry
  dsimp only
  rw [PtTableEntryConfig.len, PtTableEntryConfig.setAge, Record.word_putWord_disjoint _ (by decide),
    PtTableEntryConfig.setActiveIndex, Record.word_putWord_disjoint _ (by decide),
    PtTableEntryConfig.setLen, Record.word_putWord_same _ (by decide) (by omega)]

theorem flashFwEntry_eq {mem : Nor.Mem} {table : PtTableStuffConfig}
    (active : activeTable mem = some table) :
    flashFwEntry mem = ptTableGetActiveEntriesByName table blMtdPartitionNameFwDefault := by
  rw [flashFwEntry, active, Option.bind_some]

/-- An update that is carried out makes the rewritten entry the active one. -/
theorem ptTableUpdateEntry_fwEntry {flash : Flash} {e' : PtTableEntryConfig}
    (active : selectMem flash.mem ≠ .ptTableIdInvalid) (ready : flash.Ready 2)
    (age : ∀ table, activeTable flash.mem = some table → table.age ≠ 2 ^ 32 - 1)
    (fw : flashFwEntry flash.mem = some e) (htype : e.type = e'.type) (hname : e'.name = e.name) :
    ∃ t, ptTableUpdateEntry flash (selectMem flash.mem).lnot
          (readTableMem flash.mem (selectMem flash.mem)) e' =
        ((flash.skip 2).done (tableSteps (selectMem flash.mem).lnot t), t, .ptErrorSuccess) ∧
      activeTable (Nor.run flash.mem (tableSteps (selectMem flash.mem).lnot t)) = some t ∧
      flashFwEntry (Nor.run flash.mem (tableSteps (selectMem flash.mem).lnot t)) = some e' ∧
      t.age = (readTableMem flash.mem (selectMem flash.mem)).age + 1 := by
  have hactive := activeTable_eq rfl active
  have hvalid := valid_of_selectMem rfl active
  have hcnt := entryCnt_of_valid hvalid
  rw [flashFwEntry_eq hactive] at fw
  obtain ⟨t, ht⟩ := updatedTable_of_mem (List.mem_of_find?_eq_some fw) htype
  have hsucceeds := updatedTable_succeeds (magicCode_of_valid hvalid) hcnt ht
  have hupdate := ptTableUpdateEntry_of_ready (e := e') ready
    (ne_invalid_lnot (selectMem flash.mem)) hcnt
  rw [ht] at hupdate
  have hage : t.age = (readTableMem flash.mem (selectMem flash.mem)).age + 1 := by
    have hlt : (readTableMem flash.mem (selectMem flash.mem)).age < 256 ^ 4 :=
      Record.word_lt _ (by decide)
    have hne := age _ hactive
    rw [hsucceeds.age, add32_eq (by omega)]
  have hovertakes : Overtakes (selectMem flash.mem).lnot t
      (readTableMem flash.mem (selectMem flash.mem).lnot.lnot) := by
    intro _
    rw [lnot_lnot active, hage]
    split
    · exact Nat.le_succ _
    · exact Nat.lt_succ_self _
  have hnew : activeTable (Nor.run flash.mem (tableSteps (selectMem flash.mem).lnot t)) =
      some t :=
    activeTable_tableSteps (ne_invalid_lnot _) hsucceeds.valid hovertakes
  refine ⟨t, hupdate, hnew, ?_, hage⟩
  rw [flashFwEntry_eq hnew, ptTableGetActiveEntriesByName, hsucceeds.entries, Option.elim_some]
  have haccepts := List.find?_some fw
  apply Keyed.find?_upsert PtTableEntryConfig.type fw htype
  rwa [hname]

/-- A commit that is carried out makes the rewritten entry the active one. -/
theorem otaCommit_fwEntry (active : selectMem sys.flash.mem ≠ .ptTableIdInvalid)
    (ready : sys.flash.Ready 2)
    (age : ∀ table, activeTable sys.flash.mem = some table → table.age ≠ 2 ^ 32 - 1)
    (fw : flashFwEntry sys.flash.mem = some e) (binSize : Nat) :
    ∃ t, (otaCommit sys (selectMem sys.flash.mem) e binSize).1.flash =
        (sys.flash.skip 2).done (tableSteps (selectMem sys.flash.mem).lnot t) ∧
      activeTable (Nor.run sys.flash.mem (tableSteps (selectMem sys.flash.mem).lnot t)) = some t ∧
      flashFwEntry (Nor.run sys.flash.mem (tableSteps (selectMem sys.flash.mem).lnot t)) =
        some (committedEntry e binSize) ∧
      t.age = (readTableMem sys.flash.mem (selectMem sys.flash.mem)).age + 1 := by
  obtain ⟨t, hupdate, hnew, hentry, hage⟩ := ptTableUpdateEntry_fwEntry active ready age fw
    (type_committedEntry e binSize).symm (name_committedEntry e binSize)
  refine ⟨t, ?_, hnew, hentry, hage⟩
  simp only [otaCommit, readTable, hupdate]
  rfl

/-! ## What a session keeps -/

/-- The invariant of a run of sessions. -/
structure InSession (boot2 : Boot2PartitionTable) (sys : Sys) : Prop where
  boot2_eq : sys.boot2PartitionTable = boot2
  active : selectMem sys.flash.mem ≠ .ptTableIdInvalid
  addresses : ∀ e e0, flashFwEntry sys.flash.mem = some e → ramFwEntry boot2 = some e0 →
    ∀ i ≤ 1, e.startAddress i = e0.startAddress i
  parm : ∀ parm, sys.otaParm = some parm → ∃ e0, ramFwEntry boot2 = some e0 ∧
    parm.mtdHandle.offset = e0.startAddress (backupIndex e0) ∧
    parm.fileSize ≤ e0.maxLen (backupIndex e0) ∧ parm.sectorErased.length = sectorErasedWords

theorem bflbBoot2PartitionAddrInactive_ok {name : List UInt8} {found : Nat × Nat}
    (h : bflbBoot2PartitionAddrInactive boot2 name = .ok found) :
    ∃ e0, ptTableGetActiveEntriesByName boot2.table name = some e0 ∧
      found = (e0.startAddress (backupIndex e0), e0.maxLen (backupIndex e0)) := by
  unfold bflbBoot2PartitionAddrInactive bflbBoot2PartitionAddr at h
  split at h
  · exact absurd h (by simp [bind, Except.bind])
  · cases hentry : ptTableGetActiveEntriesByName boot2.table name with
    | none =>
      rw [hentry] at h
      exact absurd h (by simp [bind, Except.bind])
    | some e0 =>
      rw [hentry] at h
      refine ⟨e0, rfl, (Except.ok.inj h).symm.trans ?_⟩
      unfold backupIndex lnot
      by_cases hindex : e0.activeIndex = 0
      · simp [hindex]
      · simp [hindex]

theorem bflbMtdOpen_backup {memory : Bool} {handle : BflbMtdHandle}
    (h : bflbMtdOpen boot2 memory blMtdPartitionNameFwDefault true = .opened handle) :
    ∃ e0, ramFwEntry boot2 = some e0 ∧ handle.offset = e0.startAddress (backupIndex e0) := by
  unfold bflbMtdOpen at h
  split at h
  · exact absurd h (by simp)
  · simp only [if_true] at h
    cases hfound : bflbBoot2PartitionAddrInactive boot2 blMtdPartitionNameFwDefault with
    | error code =>
      rw [hfound] at h
      exact absurd h (by simp)
    | ok found =>
      obtain ⟨e0, he0, rfl⟩ := bflbBoot2PartitionAddrInactive_ok hfound
      rw [hfound] at h
      dsimp only at h
      split at h
      · exact absurd h (by simp)
      · obtain ⟨⟩ := MtdOpen.opened.inj h
        exact ⟨e0, he0, rfl⟩

/-- A call that leaves flash as it is and commits nothing. -/
theorem callOk_of_flash_eq {c : Call} {r : Sys × Int} (flash : r.1.flash = sys.flash)
    (fails : c.commits ≠ none → r.2 ≠ 0) : CallOk boot2 sys c r := by
  refine ⟨fun checkHash hcommits hret => ?_, fun s hs => ?_⟩
  · exact absurd hret (fails (by rw [hcommits]; simp))
  · rw [flash, List.drop_length] at hs
    exact absurd hs List.not_mem_nil

/-- Ending a session, with or without closing the handle. -/
theorem InSession.ended (h : InSession boot2 sys) {sys' : Sys} (flash : sys'.flash = sys.flash)
    (hboot2 : sys'.boot2PartitionTable = sys.boot2PartitionTable) (parm : sys'.otaParm = none) :
    InSession boot2 sys' := by
  refine ⟨hboot2.trans h.boot2_eq, by rw [flash]; exact h.active, by rw [flash]; exact h.addresses,
    fun p hp => ?_⟩
  rw [parm] at hp
  exact absurd hp (by simp)

theorem start_ok (h : InSession boot2 sys) {fileSize : Nat} {parmMemory handleMemory : Bool}
    {r : Sys × Int} (safe : SafeCall sys (.start fileSize parmMemory handleMemory))
    (hr : bflbOtaStart sys fileSize parmMemory handleMemory = .ok r) :
    CallOk boot2 sys (.start fileSize parmMemory handleMemory) r ∧ InSession boot2 r.1 := by
  cases hnone : sys.otaParm with
  | some parm =>
    have hopen : bflbOtaStart sys fileSize parmMemory handleMemory = .ok (sys, 0) := by
      rw [bflbOtaStart, hnone, Option.isSome_some, if_pos rfl]
    obtain ⟨⟩ := Except.ok.inj (hopen.symm.trans hr)
    exact ⟨callOk_of_flash_eq rfl fun hcommits => absurd rfl hcommits, h⟩
  | none =>
    obtain ⟨sys', ret⟩ := r
    obtain ⟨hflash, hboot2, hparm⟩ := bflbOtaStart_cases hr
    refine ⟨callOk_of_flash_eq hflash fun hcommits => absurd rfl hcommits, ?_⟩
    rcases hparm with same | closed | ⟨handle, e, hopen, hfw, hsize, opened⟩
    · exact h.ended hflash hboot2 (same.trans hnone)
    · exact h.ended hflash hboot2 closed
    · refine ⟨hboot2.trans h.boot2_eq, by rw [hflash]; exact h.active,
        by rw [hflash]; exact h.addresses, fun parm hsome => ?_⟩
      obtain ⟨⟩ := Option.some.inj (opened.symm.trans hsome)
      rw [h.boot2_eq] at hopen
      obtain ⟨e0, he0, hoffset⟩ := bflbMtdOpen_backup hopen
      have hflashFw : flashFwEntry sys.flash.mem = some e := by
        rw [flashFwEntry_eq (activeTable_eq rfl h.active)]
        exact hfw
      refine ⟨e0, he0, hoffset, ?_, List.length_replicate⟩
      exact safe hnone e e0 hflashFw (by rw [h.boot2_eq]; exact he0) hsize

theorem flashFwEntry_congr {mem mem' : Nor.Mem}
    (h : ∀ id, readTableMem mem' id = readTableMem mem id) :
    flashFwEntry mem' = flashFwEntry mem := by
  rw [flashFwEntry, flashFwEntry, activeTable_congr h]

/-- Image data of the session's size stays in the sectors of the backup bank. -/
theorem update_changedWithin (h : InSession boot2 sys)
    (apart : ∀ e0, ramFwEntry boot2 = some e0 → BanksApart e0)
    {filesize offset : Nat} {buf : Option (List UInt8)} {xip : Bool} {r : Sys × Int}
    (safe : SafeCall sys (.update filesize offset buf xip))
    (hr : bflbOtaUpdate sys filesize offset buf xip = .ok r) :
    r.1 = sys ∨ ∃ e0, ramFwEntry boot2 = some e0 ∧
      sys.flash.ChangedWithin r.1.flash (sectorFloor (e0.startAddress (backupIndex e0)))
        (sectorCeil (e0.startAddress (backupIndex e0) + sectorCeil (e0.maxLen (backupIndex e0)))) ∧
      ∃ parm words, sys.otaParm = some parm ∧ words.length = parm.sectorErased.length ∧
        r.1.otaParm = some { parm with sectorErased := words } ∧
        r.1.boot2PartitionTable = sys.boot2PartitionTable := by
  obtain ⟨sys', ret⟩ := r
  rcases bflbOtaUpdate_cases hr with
    rfl | ⟨parm, data, words, flash₁, hparm, rfl, haccepted, herase, rfl⟩
  · exact .inl rfl
  · obtain ⟨hfit, -⟩ := safe parm hparm haccepted
    obtain ⟨e0, he0, hoffset, hsize, -⟩ := h.parm parm hparm
    have hsmall := (apart e0 he0).small
    have hinside : offset + data.length ≤ e0.maxLen (backupIndex e0) := by
      unfold Accepted at haccepted
      rw [add32_eq hfit] at haccepted
      omega
    have hhi : chunkHi parm.mtdHandle offset data.length ≤
        e0.startAddress (backupIndex e0) + sectorCeil (e0.maxLen (backupIndex e0)) := by
      unfold chunkHi sectorCeil
      omega
    have hlo : e0.startAddress (backupIndex e0) ≤ chunkLo parm.mtdHandle offset := by
      unfold chunkLo
      omega
    have hchanged := (bflbOtaUpdate_changedWithin xip haccepted herase ⟨hfit, by omega⟩).mono
      (show sectorFloor (e0.startAddress (backupIndex e0)) ≤ _ by unfold sectorFloor at *; omega)
      (show _ ≤ sectorCeil (e0.startAddress (backupIndex e0) +
        sectorCeil (e0.maxLen (backupIndex e0))) by unfold sectorCeil at *; omega)
    exact .inr ⟨e0, he0, hchanged, parm, words, hparm, bflbOtaErase_length herase, rfl, rfl⟩

theorem update_tables (h : InSession boot2 sys)
    (apart : ∀ e0, ramFwEntry boot2 = some e0 → BanksApart e0)
    {filesize offset : Nat} {buf : Option (List UInt8)} {xip : Bool} {r : Sys × Int}
    (safe : SafeCall sys (.update filesize offset buf xip))
    (hr : bflbOtaUpdate sys filesize offset buf xip = .ok r) (id : PtTableIdType) :
    readTableMem r.1.flash.mem id = readTableMem sys.flash.mem id := by
  rcases update_changedWithin h apart safe hr with same | ⟨e0, he0, hchanged, -⟩
  · rw [same]
  · exact readTableMem_of_changedWithin hchanged (apart e0 he0).tables

theorem update_ok (h : InSession boot2 sys) (apart : ∀ e0, ramFwEntry boot2 = some e0 → BanksApart e0)
    {filesize offset : Nat} {buf : Option (List UInt8)} {xip : Bool} {r : Sys × Int}
    (safe : SafeCall sys (.update filesize offset buf xip))
    (hr : bflbOtaUpdate sys filesize offset buf xip = .ok r) :
    CallOk boot2 sys (.update filesize offset buf xip) r ∧ InSession boot2 r.1 := by
  have htables := update_tables h apart safe hr
  rcases update_changedWithin h apart safe hr with
    same | ⟨e0, he0, hchanged, parm, words, hparm, hwords, hparm', hboot2⟩
  · rw [same]
    exact ⟨callOk_of_flash_eq (by rw [same]) fun hcommits => absurd rfl hcommits, h⟩
  · refine ⟨⟨fun checkHash hcommits => absurd hcommits (by simp [Call.commits]), ?_⟩, ?_⟩
    · obtain ⟨steps, hext, hsteps⟩ := hchanged
      intro s hs a ht hrun
      rw [hext.log_eq, List.drop_append_length] at hs
      obtain ⟨e0', he0', hge, hlt⟩ := hrun
      obtain ⟨⟩ := Option.some.inj (he0.symm.trans he0')
      have := hsteps s hs a ht
      have := (apart e0 he0).running
      omega
    · refine ⟨hboot2.trans h.boot2_eq, ?_, ?_, fun p hp => ?_⟩
      · rw [selectMem_congr htables]
        exact h.active
      · rw [flashFwEntry_congr htables]
        exact h.addresses
      · obtain ⟨⟩ := Option.some.inj (hparm'.symm.trans hp)
        obtain ⟨e0', he0', hoffset, hsize, hlen⟩ := h.parm parm hparm
        exact ⟨e0', he0', hoffset, hsize, hwords.trans hlen⟩

theorem update_returns (h : InSession boot2 sys) {filesize offset : Nat} {buf : Option (List UInt8)}
    {xip : Bool} (safe : SafeCall sys (.update filesize offset buf xip)) :
    ∃ r, bflbOtaUpdate sys filesize offset buf xip = .ok r :=
  bflbOtaUpdate_inBounds (fun parm hparm => (h.parm parm hparm).elim fun _ hp => hp.2.2.2)
    fun parm data hparm hbuf haccepted => by
      subst hbuf
      exact safe parm hparm haccepted

/-- A table write stays off both banks. -/
theorem inTables_of_touches {id : PtTableIdType} {t : PtTableStuffConfig} {s : Nor.Step}
    (hs : s ∈ tableSteps id t) {a : Nat} (h : s.Touches a) : 0xE000 ≤ a ∧ a < 0x10000 := by
  have hsector := tableSteps_touches hs h
  rcases address_eq id with ha | ha <;> rw [ha] at hsector <;> omega

theorem commit_inSession (h : InSession boot2 sys) (ready : sys.flash.Ready 2)
    (age : ∀ table, activeTable sys.flash.mem = some table → table.age ≠ 2 ^ 32 - 1)
    (fw : flashFwEntry sys.flash.mem = some e) (binSize : Nat) :
    InSession boot2 (otaCommit sys (selectMem sys.flash.mem) e binSize).1 := by
  obtain ⟨t, hflash, hactive, hentry, -⟩ := otaCommit_fwEntry h.active ready age fw binSize
  have hmem : (otaCommit sys (selectMem sys.flash.mem) e binSize).1.flash.mem =
      Nor.run sys.flash.mem (tableSteps (selectMem sys.flash.mem).lnot t) := by
    rw [hflash]
    rfl
  refine ⟨h.boot2_eq, ?_, ?_, fun p hp => absurd hp (by simp [otaCommit, Sys.endSession])⟩
  · rw [hmem]
    intro hinvalid
    rw [activeTable, if_pos hinvalid] at hactive
    exact absurd hactive (by simp)
  · intro e' e0 he' he0 i hi
    rw [hmem, hentry] at he'
    obtain ⟨⟩ := Option.some.inj he'
    rw [startAddress_committedEntry e _ hi]
    exact h.addresses e e0 fw he0 i hi

theorem commit_ok (h : InSession boot2 sys)
    (apart : ∀ e0, ramFwEntry boot2 = some e0 → BanksApart e0) {c : Call} {parm : BflbOtaParm}
    {checkHash : Bool} (hcommits : c.commits = some checkHash) (hparm : sys.otaParm = some parm)
    (hsize : 32 < parm.fileSize) (safe : SafeCommit sys) (fw : flashFwEntry sys.flash.mem = some e)
    (hash : checkHash = true →
      otaDigestMatches sys.flash parm.mtdHandle (parm.fileSize - 32) = true) :
    CallOk boot2 sys c (otaCommit sys (selectMem sys.flash.mem) e (parm.fileSize - 32)) ∧
      InSession boot2 (otaCommit sys (selectMem sys.flash.mem) e (parm.fileSize - 32)).1 := by
  obtain ⟨t, hflash, hactive, hentry, -⟩ :=
    otaCommit_fwEntry h.active safe.ready safe.age fw (parm.fileSize - 32)
  obtain ⟨e0, he0, hoffset, hfile, -⟩ := h.parm parm hparm
  have hapart := apart e0 he0
  have hsmall := hapart.small
  have hindex := safe.index e e0 fw (by rw [h.boot2_eq]; exact he0)
  have hmem : (otaCommit sys (selectMem sys.flash.mem) e (parm.fileSize - 32)).1.flash.mem =
      Nor.run sys.flash.mem (tableSteps (selectMem sys.flash.mem).lnot t) := by
    rw [hflash]
    rfl
  -- the bank lies off the tables, so the image is still what was hashed
  have hframe : ∀ addr n, e0.startAddress (backupIndex e0) ≤ addr →
      addr + n ≤ e0.startAddress (backupIndex e0) + e0.maxLen (backupIndex e0) →
      Nor.read (Nor.run sys.flash.mem (tableSteps (selectMem sys.flash.mem).lnot t)) addr n =
        Nor.read sys.flash.mem addr n := by
    intro addr n hlo hhi
    apply Nor.read_run_of_not_touches
    intro s hs i hi ht
    have := inTables_of_touches hs ht
    have := hapart.tables
    unfold sectorFloor sectorCeil at this
    omega
  refine ⟨⟨?_, ?_⟩, commit_inSession h safe.ready safe.age fw _⟩
  · intro checked hchecked _
    obtain ⟨⟩ := Option.some.inj (hcommits.symm.trans hchecked)
    unfold sectorCeil at hsmall
    have hlen : (committedEntry e (parm.fileSize - 32)).len = parm.fileSize - 32 := by
      apply len_committedEntry
      omega
    refine ⟨parm, hparm, _, by rw [hmem]; exact hentry, ?_, fun hcheck => ?_⟩
    · rw [activeIndex_committedEntry, startAddress_committedEntry e _ (lnot_le _), hindex, hoffset]
      exact h.addresses e e0 fw he0 _ (lnot_le _)
    · have hmatch := hash hcheck
      rw [otaDigestMatches, decide_eq_true_eq, otaDigest_eq _ _ (by omega), bflbMtdRead,
        bflbFlashRead, add32_eq (by omega)] at hmatch
      rw [hlen, hmem, hframe _ _ (by omega) (by omega), hframe _ _ (by omega) (by omega)]
      exact hmatch
  · intro s hs a ht hrun
    rw [hflash] at hs
    change s ∈ (sys.flash.log ++ _).drop sys.flash.log.length at hs
    rw [List.drop_append_length] at hs
    obtain ⟨e0', he0', hge, hlt⟩ := hrun
    obtain ⟨⟩ := Option.some.inj (he0.symm.trans he0')
    have := inTables_of_touches hs ht
    have := hapart.runningTables
    omega

/-- A commit that gives up before it writes a table. -/
theorem failed_ok (h : InSession boot2 sys) {c : Call} {sys' : Sys} (flash : sys'.flash = sys.flash)
    (hboot2 : sys'.boot2PartitionTable = sys.boot2PartitionTable) (parm : sys'.otaParm = none) :
    CallOk boot2 sys c (sys', -1) ∧ InSession boot2 (sys', (-1 : Int)).1 :=
  ⟨callOk_of_flash_eq flash fun _ => (by decide : (-1 : Int) ≠ 0), h.ended flash hboot2 parm⟩

theorem finish_ok (h : InSession boot2 sys)
    (apart : ∀ e0, ramFwEntry boot2 = some e0 → BanksApart e0) {checkHash memory : Bool}
    (safe : SafeCall sys (.finish checkHash memory)) :
    CallOk boot2 sys (.finish checkHash memory) (bflbOtaFinish sys checkHash memory) ∧
      InSession boot2 (bflbOtaFinish sys checkHash memory).1 := by
  unfold bflbOtaFinish
  cases hparm : sys.otaParm with
  | none => exact failed_ok h rfl rfl hparm
  | some parm =>
    dsimp only
    split
    · exact failed_ok h rfl rfl rfl
    · rename_i hsize
      split
      · exact failed_ok h rfl rfl rfl
      · split
        · exact failed_ok h rfl rfl rfl
        · rename_i e hfw
          split
          · exact failed_ok h rfl rfl rfl
          · rename_i hmemory
            split
            · exact failed_ok h rfl rfl rfl
            · rename_i hmatch
              have hhash : checkHash = true → memory = true ∧
                  otaDigestMatches sys.flash parm.mtdHandle (parm.fileSize - 32) = true := by
                intro hcheck
                simpa [hcheck] using And.intro hmemory hmatch
              refine commit_ok h apart rfl hparm (Nat.lt_of_not_le hsize)
                (safe parm hparm (Nat.lt_of_not_le hsize) hhash) ?_ fun hcheck => (hhash hcheck).2
              rw [flashFwEntry_eq (activeTable_eq rfl h.active)]
              exact hfw

theorem apply_ok (h : InSession boot2 sys)
    (apart : ∀ e0, ramFwEntry boot2 = some e0 → BanksApart e0) (safe : SafeCall sys .apply) :
    CallOk boot2 sys .apply (bflbOtaApply sys) ∧ InSession boot2 (bflbOtaApply sys).1 := by
  unfold bflbOtaApply
  cases hparm : sys.otaParm with
  | none => exact failed_ok h rfl rfl hparm
  | some parm =>
    dsimp only
    split
    · exact failed_ok h rfl rfl rfl
    · rename_i hsize
      split
      · exact failed_ok h rfl rfl rfl
      · split
        · exact failed_ok h rfl rfl rfl
        · rename_i e hfw
          refine commit_ok h apart rfl hparm (Nat.lt_of_not_le hsize)
            (safe parm hparm (Nat.lt_of_not_le hsize)) ?_ fun hcheck => absurd hcheck (by decide)
          rw [flashFwEntry_eq (activeTable_eq rfl h.active)]
          exact hfw

theorem check_ok (h : InSession boot2 sys) (memory : Bool) :
    CallOk boot2 sys (.check memory) (bflbOtaCheck sys memory) ∧
      InSession boot2 (bflbOtaCheck sys memory).1 := by
  unfold bflbOtaCheck
  cases hparm : sys.otaParm with
  | none => exact failed_ok h rfl rfl hparm
  | some parm =>
    dsimp only
    split
    · exact failed_ok h rfl rfl rfl
    · split
      · exact failed_ok h rfl rfl rfl
      · split
        · exact failed_ok h rfl rfl rfl
        · exact ⟨callOk_of_flash_eq rfl fun hcommits => absurd rfl hcommits, h⟩

/-- One step of the run. -/
theorem call_ok (h : InSession boot2 sys) (apart : ∀ e0, ramFwEntry boot2 = some e0 → BanksApart e0)
    {c : Call} (safe : SafeCall sys c) :
    call sys c = .error .deadLoop ∨
      ∃ r, call sys c = .ok r ∧ CallOk boot2 sys c r ∧ InSession boot2 r.1 := by
  cases c with
  | start fileSize parmMemory handleMemory =>
    cases hstart : bflbOtaStart sys fileSize parmMemory handleMemory with
    | error halt =>
      have hhalt := bflbOtaStart_error hstart
      subst hhalt
      exact .inl hstart
    | ok r => exact .inr ⟨r, hstart, start_ok h safe hstart⟩
  | update filesize offset buf xip =>
    obtain ⟨r, hr⟩ := update_returns h safe
    exact .inr ⟨r, hr, update_ok h apart safe hr⟩
  | check memory => exact .inr ⟨_, rfl, check_ok h memory⟩
  | finish checkHash memory => exact .inr ⟨_, rfl, finish_ok h apart safe⟩
  | apply => exact .inr ⟨_, rfl, apply_ok h apart safe⟩
  | abort =>
    refine .inr ⟨_, rfl, ?_⟩
    unfold bflbOtaAbort
    cases hparm : sys.otaParm with
    | none => exact ⟨callOk_of_flash_eq rfl fun hcommits => absurd rfl hcommits, h⟩
    | some parm =>
      exact ⟨callOk_of_flash_eq rfl fun hcommits => absurd rfl hcommits, h.ended rfl rfl rfl⟩

theorem InSession.sessionsOk (h : InSession boot2 sys)
    (apart : ∀ e0, ramFwEntry boot2 = some e0 → BanksApart e0) {calls : List Call}
    (safe : SafeCalls sys calls) : SessionsOk boot2 sys calls := by
  induction calls generalizing sys with
  | nil => trivial
  | cons c cs ih =>
    obtain ⟨hsafe, hrest⟩ := safe
    rcases call_ok h apart hsafe with hhang | ⟨r, hr, hok, hkept⟩
    · simp only [SessionsOk, hhang]
    · simp only [SessionsOk, hr]
      exact ⟨hok, ih hkept (hrest r hr)⟩

theorem inSession_booted {flash : Flash} (boot : bflbBoot2Init flash = some boot2) :
    InSession boot2 (Sys.booted flash boot2) := by
  obtain ⟨hactive, rfl⟩ := bflbBoot2Init_eq boot
  refine ⟨rfl, hactive, fun e e0 he he0 i _ => ?_, fun parm hparm => absurd hparm (by simp [Sys.booted])⟩
  dsimp only [Sys.booted] at he
  rw [flashFwEntry_eq (activeTable_eq rfl hactive)] at he
  obtain ⟨⟩ := Option.some.inj (he.symm.trans he0)
  rfl

/-- From any boot on, sessions whose calls meet the condition commit the bank
that they programmed and leave the running one alone. -/
theorem sessionsOk_of_safeCalls (flash : Flash) (boot2 : Boot2PartitionTable)
    (boot : bflbBoot2Init flash = some boot2)
    (apart : ∀ e0, ramFwEntry boot2 = some e0 → BanksApart e0) (calls : List Call)
    (safe : SafeCalls (Sys.booted flash boot2) calls) :
    SessionsOk boot2 (Sys.booted flash boot2) calls :=
  (inSession_booted boot).sessionsOk apart safe

/-! ## One session and two -/

theorem ramFwEntry_fwBoot2 : ramFwEntry fwBoot2 = some fwEntry := by
  rw [ramFwEntry, ptTableGetActiveEntriesByName, fwBoot2, entries_fwTable]
  decide

theorem flashFwEntry_fwSys : flashFwEntry fwSys.flash.mem = some fwEntry := by
  have hactive := activeTable_eq selectMem_fwSys (by decide)
  rw [flashFwEntry_eq hactive, readTableMem_fwSys]
  exact ramFwEntry_fwBoot2

theorem banksApart_fwBoot2 : ∀ e0, ramFwEntry fwBoot2 = some e0 → BanksApart e0 := by
  intro e0 he0
  obtain ⟨⟩ := Option.some.inj (ramFwEntry_fwBoot2.symm.trans he0)
  constructor <;> decide

/-- The session that `bflb_ota_start` opens on this device. -/
def fwParm (fileSize : Nat) : BflbOtaParm :=
  { mtdHandle := { name := blMtdPartitionNameFwDefault, offset := 0x80000, size := 0x70000 }
    fileSize := fileSize
    sectorErased := List.replicate sectorErasedWords 0 }

theorem bflbMtdOpen_fwBoot2 :
    bflbMtdOpen fwBoot2 true blMtdPartitionNameFwDefault true = .opened (fwParm 0).mtdHandle := by
  have hmagic : fwBoot2.table.magicCode = bflbPtMagicCode := magicCode_of_valid valid_fwTable
  have hentry : ptTableGetActiveEntriesByName fwBoot2.table blMtdPartitionNameFwDefault =
      some fwEntry := ramFwEntry_fwBoot2
  have haddr : bflbBoot2PartitionAddrInactive fwBoot2 blMtdPartitionNameFwDefault =
      .ok (0x80000, 0x70000) := by
    simp only [bflbBoot2PartitionAddrInactive, bflbBoot2PartitionAddr, hmagic, hentry, ne_eq,
      not_true_eq_false, if_false]
    decide
  unfold bflbMtdOpen
  rw [if_neg (by decide)]
  simp only [if_true, haddr]
  rfl

theorem start_fwBoot2 (h : InSession fwBoot2 sys) (idle : sys.otaParm = none)
    (fw : flashFwEntry sys.flash.mem = some e) {fileSize : Nat}
    (hsize : fileSize ≤ e.maxLen (lnot e.activeIndex)) :
    ∃ r, bflbOtaStart sys fileSize true true = .ok r ∧ r.1.flash = sys.flash ∧
      r.1.boot2PartitionTable = fwBoot2 ∧ r.1.otaParm = some (fwParm fileSize) := by
  have hactive : ptTableGetActivePartitionNeedLock sys.flash = selectMem sys.flash.mem := rfl
  rw [flashFwEntry_eq (activeTable_eq rfl h.active)] at fw
  unfold bflbOtaStart
  rw [idle, Option.isSome_none, if_neg (by decide), if_neg (by decide)]
  simp only [hactive, if_neg h.active, readTable, fw, h.boot2_eq, bflbMtdOpen_fwBoot2]
  rw [if_neg (Nat.not_lt.mpr hsize)]
  exact ⟨_, rfl, rfl, rfl, rfl⟩

theorem sessionsOk_one_session :
    SessionsOk fwBoot2 fwSys
      [.start 64 true true, .update 64 0 (some [1, 2, 3, 4]) false, .apply] := by
  refine sessionsOk_of_safeCalls _ fwBoot2 boot_fwTable banksApart_fwBoot2 _ ?_
  have hboot : InSession fwBoot2 fwSys := inSession_booted boot_fwTable
  have hstart : SafeCall fwSys (.start 64 true true) := by
    intro _ e e0 he he0 hsize
    obtain ⟨⟩ := Option.some.inj (flashFwEntry_fwSys.symm.trans he)
    obtain ⟨⟩ := Option.some.inj (ramFwEntry_fwBoot2.symm.trans he0)
    exact hsize
  refine ⟨hstart, fun r hr => ?_⟩
  have hcall : bflbOtaStart fwSys 64 true true = .ok (r.1, r.2) := hr
  have hopened := (start_ok hboot hstart hcall).2
  obtain ⟨hflash, -, -⟩ := bflbOtaStart_cases hcall
  have hupdate : SafeCall r.1 (.update 64 0 (some [1, 2, 3, 4]) false) :=
    fun _ _ _ => ⟨by decide, by unfold InBitmap; decide⟩
  refine ⟨hupdate, fun r' hr' => ⟨fun parm _ _ => ?_, fun _ _ => trivial⟩⟩
  have htables : ∀ id, readTableMem r'.1.flash.mem id = readTableMem fwSys.flash.mem id := by
    intro id
    rw [update_tables hopened banksApart_fwBoot2 hupdate hr' id, hflash]
  refine ⟨fun e e0 he he0 => ?_, fun table htable => ?_, ?_⟩
  · rw [flashFwEntry_congr htables, flashFwEntry_fwSys] at he
    rw [(update_ok hopened banksApart_fwBoot2 hupdate hr').2.boot2_eq, ramFwEntry_fwBoot2] at he0
    obtain ⟨⟩ := Option.some.inj he
    obtain ⟨⟩ := Option.some.inj he0
    decide +kernel
  · rw [activeTable_congr htables, activeTable_eq selectMem_fwSys (by decide),
      readTableMem_fwSys] at htable
    obtain ⟨⟩ := Option.some.inj htable
    rw [age_fwTable]
    decide
  · apply Flash.ready_of_no_faults
    rcases update_changedWithin hopened banksApart_fwBoot2 hupdate hr' with
      same | ⟨_, _, hchanged, _⟩
    · rw [same, hflash]
      rfl
    · exact hchanged.faults (by rw [hflash]; rfl)

/-- What a session that writes and checks nothing commits. -/
theorem session_commits (h : InSession fwBoot2 sys) (idle : sys.otaParm = none)
    (faults : sys.flash.faults = []) (fw : flashFwEntry sys.flash.mem = some e)
    (hsize : 64 ≤ e.maxLen (lnot e.activeIndex)) {n : Nat} (hn : n < 2 ^ 32 - 1)
    (age : ∀ table, activeTable sys.flash.mem = some table → table.age = n) {rest : List Call}
    (ok : SessionsOk fwBoot2 sys (.start 64 true true :: .apply :: rest)) :
    (committedEntry e 32).startAddress (committedEntry e 32).activeIndex = 0x80000 ∧
      ∃ sys', InSession fwBoot2 sys' ∧ sys'.otaParm = none ∧ sys'.flash.faults = [] ∧
        flashFwEntry sys'.flash.mem = some (committedEntry e 32) ∧
        (∀ table, activeTable sys'.flash.mem = some table → table.age = n + 1) ∧
        SessionsOk fwBoot2 sys' rest := by
  obtain ⟨r, hr, hflash, hboot2, hparm⟩ := start_fwBoot2 h idle fw hsize
  have hactive : selectMem r.1.flash.mem ≠ .ptTableIdInvalid := by
    rw [hflash]
    exact h.active
  rw [← hflash] at fw age faults
  have hready := Flash.ready_of_no_faults faults 2
  have hage : ∀ table, activeTable r.1.flash.mem = some table → table.age ≠ 2 ^ 32 - 1 := by
    intro table htable
    have := age table htable
    omega
  have happly : bflbOtaApply r.1 = otaCommit r.1 (selectMem r.1.flash.mem) e 32 := by
    have hget : ptTableGetActivePartitionNeedLock r.1.flash = selectMem r.1.flash.mem := rfl
    have hentry := fw
    rw [flashFwEntry_eq (activeTable_eq rfl hactive)] at hentry
    unfold bflbOtaApply
    rw [hparm]
    simp only [fwParm, hget, if_neg hactive, readTable, hentry]
    rfl
  obtain ⟨t, hcommit, htable, hentry, htage⟩ := otaCommit_fwEntry hactive hready hage fw 32
  have hmem : (otaCommit r.1 (selectMem r.1.flash.mem) e 32).1.flash.mem =
      Nor.run r.1.flash.mem (tableSteps (selectMem r.1.flash.mem).lnot t) := by
    rw [hcommit]
    rfl
  have hopened : InSession fwBoot2 r.1 := by
    refine ⟨hboot2, hactive, by rw [hflash]; exact h.addresses, fun parm hsome => ?_⟩
    obtain ⟨⟩ := Option.some.inj (hparm.symm.trans hsome)
    exact ⟨fwEntry, ramFwEntry_fwBoot2, by decide, by decide, List.length_replicate⟩
  simp only [SessionsOk, call, hr, happly] at ok
  obtain ⟨-, hok, hrest⟩ := ok
  obtain ⟨parm, hparm', e', he', haddr, -⟩ := hok.committed false rfl rfl
  obtain ⟨⟩ := Option.some.inj (hparm.symm.trans hparm')
  rw [hmem, hentry] at he'
  obtain ⟨⟩ := Option.some.inj he'
  refine ⟨haddr, _, commit_inSession hopened hready hage fw 32, rfl, ?_, by rw [hmem]; exact hentry,
    fun table hsome => ?_, hrest⟩
  · rw [hcommit]
    simp only [Flash.done, Flash.skip, faults, List.drop_nil]
  · rw [hmem, htable] at hsome
    obtain ⟨⟩ := Option.some.inj hsome
    rw [htage, age _ (activeTable_eq rfl hactive)]

/-- The second session activates the bank of the running image, although what
it programs is the other one. -/
theorem second_session_commits_running :
    ¬ SessionsOk fwBoot2 fwSys
      [.start 64 true true, .apply, .start 64 true true, .apply] := by
  intro ok
  have hfirst : ∀ table, activeTable fwSys.flash.mem = some table → table.age = 0 := by
    intro table htable
    rw [activeTable_eq selectMem_fwSys (by decide), readTableMem_fwSys] at htable
    obtain ⟨⟩ := Option.some.inj htable
    exact age_fwTable
  have hboot : InSession fwBoot2 fwSys := inSession_booted boot_fwTable
  obtain ⟨-, sys', hsession, hidle, hfaults, hentry, hage, hrest⟩ :=
    session_commits hboot rfl rfl flashFwEntry_fwSys (by decide +kernel)
      (show 0 < 2 ^ 32 - 1 by decide) hfirst ok
  obtain ⟨haddr, -⟩ := session_commits hsession hidle hfaults hentry (by decide +kernel)
    (show 0 + 1 < 2 ^ 32 - 1 by decide) hage hrest
  exact absurd haddr (by decide +kernel)

end BouffaloSdk.Ota
