import BouffaloSdk.Ota.Assembly

/-!
# What a return value says

The driver's results pass through three layers. A call that returns 0 should have
carried out its erases and writes, a call that fails should have given back the handle
and the session.
-/

namespace BouffaloSdk.Ota
open Kit Kit.Word BouffaloSdk.Partition Mtd PtTableStuffConfig

/-- The same device with a flash that does its part. -/
def Sys.working (sys : Sys) : Sys := { sys with flash := { sys.flash with faults := [] } }

/-- What was held or taken is given back, each thing once. -/
def Released (sys sys' : Sys) : Prop :=
  sys'.otaParm = none ∧ ∃ events, sys'.events = sys.events ++ events ∧
    events.count .freeParm = events.count .mallocParm + sys.otaParm.toList.length ∧
    events.count .closeMtd = events.count .openMtd + sys.otaParm.toList.length

/-- The table with the committed firmware entry is in the slot that was not active. -/
def TableWritten (sys sys' : Sys) : Prop :=
  ∃ parm e t, sys.otaParm = some parm ∧ flashFwEntry sys.flash.mem = some e ∧
    updatedTable (readTable sys.flash (selectMem sys.flash.mem))
      (committedEntry e (parm.fileSize - 32)) = some t ∧
    sys'.flash.mem = Nor.run sys.flash.mem (tableSteps (selectMem sys.flash.mem).lnot t) ∧
    sys'.flash.log = sys.flash.log ++ tableSteps (selectMem sys.flash.mem).lnot t

/-- What the result of a call that returned should mean. An update needs the steps that
the same call does on a flash that works. -/
def Truthful (sys : Sys) (r : Sys × Int) : Call → Prop
  | .update filesize offset buf xip => r.2 = 0 →
      ∀ clean, bflbOtaUpdate sys.working filesize offset buf xip = .ok clean →
        r.1.flash.log = clean.1.flash.log
  | .start .. | .check .. => r.2 ≠ 0 → Released sys r.1
  | .finish .. | .apply => (r.2 = 0 → TableWritten sys r.1) ∧ (r.2 ≠ 0 → Released sys r.1)
  | .abort => True

/-- The sectors that an update looks up. -/
def otaIndices (offset len : Nat) : List Nat :=
  (List.range (sub32 (add32 offset len) 1 / 4096 + 1 - offset / 4096)).map (offset / 4096 + ·)

/-- How often an update calls the flash driver. -/
def updateCalls (parm : BflbOtaParm) (offset : Nat) (data : List UInt8) (xip : Bool) : Nat :=
  ((otaIndices offset data.length).filter fun i => !erasedBit parm.sectorErased i).length +
    if xip then (data.length + 63) / 64 else 1

/-- A table is active, and if the commit is reached the two driver calls succeed. -/
def CommitWorks (sys : Sys) (checkHash memory : Bool) : Prop :=
  ∀ parm, sys.otaParm = some parm → 32 < parm.fileSize →
    selectMem sys.flash.mem ≠ .ptTableIdInvalid ∧
    ∀ e, flashFwEntry sys.flash.mem = some e →
      (checkHash = true → memory = true ∧
        otaDigestMatches sys.flash parm.mtdHandle (parm.fileSize - 32) = true) →
      sys.flash.Ready 2

/-- None of the driver calls fails that the call needs. -/
def Works (sys : Sys) : Call → Prop
  | .update filesize offset buf xip => ∀ parm data, sys.otaParm = some parm → buf = some data →
      Accepted parm filesize offset data →
      (∀ i ∈ otaIndices offset data.length, i / 32 < parm.sectorErased.length) →
      sys.flash.Ready (updateCalls parm offset data xip)
  | .finish checkHash memory => CommitWorks sys checkHash memory
  | .apply => CommitWorks sys false true
  | _ => True

variable {sys sys' : Sys} {parm : BflbOtaParm} {flash : Flash} {data : List UInt8}
  {offset filesize : Nat} {xip : Bool}

/-! ## Updates -/

theorem nodup_otaIndices (offset len : Nat) : (otaIndices offset len).Nodup :=
  List.Nodup.map (fun _ _ h => Nat.add_left_cancel h) List.nodup_range

/-- The loop stops at an index outside the bitmap. -/
theorem inside_of_foldlM {handle : BflbMtdHandle} {indices : List Nat}
    {state state' : Flash × List Nat}
    (h : indices.foldlM (otaEraseSector handle) state = .ok state') :
    ∀ i ∈ indices, i / 32 < state.2.length := by
  induction indices generalizing state with
  | nil => exact fun i hi => absurd hi List.not_mem_nil
  | cons index indices ih =>
    rw [List.foldlM_cons] at h
    cases hfirst : otaEraseSector handle state index with
    | error halt =>
      rw [hfirst] at h
      cases h
    | ok mid =>
      rw [hfirst] at h
      have hindex : index / 32 < state.2.length := by
        apply Nat.lt_of_not_le
        intro hout
        unfold otaEraseSector at hfirst
        rw [List.getElem?_eq_none hout] at hfirst
        cases hfirst
      intro i hi
      cases List.mem_cons.mp hi with
      | inl heq => exact heq ▸ hindex
      | inr hrest => exact otaEraseSector_length hfirst ▸ ih h i hrest

/-- An accepted update is a list of driver calls whose results do not matter. -/
theorem bflbOtaUpdate_performAll (accepted : Accepted parm filesize offset data)
    (inside : ∀ i ∈ otaIndices offset data.length, i / 32 < parm.sectorErased.length)
    (xip : Bool) :
    ∃ words, ∀ sys, sys.otaParm = some parm →
      bflbOtaUpdate sys filesize offset (some data) xip =
        .ok ({ sys with
          flash := sys.flash.performAll
            (eraseCalls parm.mtdHandle parm.sectorErased (otaIndices offset data.length) ++
              writeCalls parm.mtdHandle offset data xip)
          otaParm := some { parm with sectorErased := words } }, 0) := by
  obtain ⟨words, -, -, hloop⟩ :=
    foldlM_otaEraseSector parm.mtdHandle (nodup_otaIndices offset data.length) inside
  refine ⟨words, fun sys hparm => ?_⟩
  have herase : bflbOtaErase sys.flash parm offset data.length = .ok (sys.flash.performAll
      (eraseCalls parm.mtdHandle parm.sectorErased (otaIndices offset data.length)), words) :=
    hloop sys.flash
  unfold bflbOtaUpdate
  rw [hparm]
  simp only [herase, bflbMtdWrite_eq, ← Flash.performAll_append]
  rw [if_neg accepted]
  rfl

theorem length_writePieces (addr : Nat) (src : List UInt8) :
    (writePieces addr src).length = (src.length + 63) / 64 := by
  fun_induction writePieces addr src with
  | case1 addr src hnil => rw [hnil]; rfl
  | case2 addr src hne piece ih =>
    rw [List.length_cons, ih, List.length_drop]
    omega

theorem length_updateCalls (parm : BflbOtaParm) (offset : Nat) (data : List UInt8) (xip : Bool) :
    (eraseCalls parm.mtdHandle parm.sectorErased (otaIndices offset data.length) ++
      writeCalls parm.mtdHandle offset data xip).length = updateCalls parm offset data xip := by
  rw [List.length_append, eraseCalls, List.length_map, updateCalls]
  cases xip with
  | true => rw [writeCalls, if_pos rfl, length_writePieces, if_pos rfl]
  | false => rfl

theorem ne_nil_of_mem_writePieces {addr : Nat} {src : List UInt8} {steps : List Nor.Step}
    (h : steps ∈ writePieces addr src) : steps ≠ [] := by
  fun_induction writePieces addr src with
  | case1 addr src hnil => cases h
  | case2 addr src hne piece ih =>
    cases List.mem_cons.mp h with
    | inl heq =>
      rw [heq]
      exact List.cons_ne_nil _ _
    | inr hrest => exact ih hrest

theorem ne_nil_of_mem_updateCalls {steps : List Nor.Step}
    (h : steps ∈ eraseCalls parm.mtdHandle parm.sectorErased (otaIndices offset data.length) ++
      writeCalls parm.mtdHandle offset data xip) : steps ≠ [] := by
  cases List.mem_append.mp h with
  | inl herase =>
    obtain ⟨i, -, rfl⟩ := List.mem_map.mp herase
    intro hnil
    have hlen := congrArg List.length hnil
    simp only [sectors, Nor.sectorSize, List.length_map, List.length_range, List.length_nil] at hlen
    omega
  | inr hwrite =>
    unfold writeCalls at hwrite
    cases xip with
    | true => exact ne_nil_of_mem_writePieces hwrite
    | false =>
      rw [List.mem_singleton.mp hwrite]
      exact List.cons_ne_nil _ _

/-- A call that returns 0 was accepted and stayed in the bitmap. -/
theorem accepted_of_returned {buf : Option (List UInt8)} {r : Sys × Int}
    (h : bflbOtaUpdate sys filesize offset buf xip = .ok r) (hzero : r.2 = 0) :
    ∃ parm data, sys.otaParm = some parm ∧ buf = some data ∧
      Accepted parm filesize offset data ∧
      ∀ i ∈ otaIndices offset data.length, i / 32 < parm.sectorErased.length := by
  have hrejected : ∀ {sys' : Sys}, (Except.ok (sys', -1) : Except Halt (Sys × Int)) ≠ .ok r := by
    intro sys' heq
    rw [← Except.ok.inj heq] at hzero
    cases hzero
  unfold bflbOtaUpdate at h
  cases hparm : sys.otaParm with
  | none =>
    simp only [hparm] at h
    exact absurd h hrejected
  | some parm =>
    cases buf with
    | none =>
      simp only [hparm] at h
      exact absurd h hrejected
    | some data =>
      simp only [hparm] at h
      by_cases haccepted : Accepted parm filesize offset data
      · rw [if_neg haccepted] at h
        cases herase : bflbOtaErase sys.flash parm offset data.length with
        | error halt =>
          rw [herase] at h
          cases h
        | ok erased => exact ⟨parm, data, rfl, rfl, haccepted, inside_of_foldlM herase⟩
      · rw [if_pos (not_not.mp haccepted)] at h
        exact absurd h hrejected

theorem log_working (sys : Sys) (calls : List (List Nor.Step)) :
    (sys.working.flash.performAll calls).log = sys.flash.log ++ calls.flatten := by
  have hfaults : sys.working.flash.faults = [] := rfl
  rw [Flash.performAll_of_no_faults hfaults]
  rfl

theorem update_truthful_iff (sys : Sys) (filesize offset : Nat) (buf : Option (List UInt8))
    (xip : Bool) :
    (∀ r, bflbOtaUpdate sys filesize offset buf xip = .ok r →
      Truthful sys r (.update filesize offset buf xip)) ↔
      Works sys (.update filesize offset buf xip) := by
  constructor
  · rintro h parm data hparm rfl accepted inside
    obtain ⟨words, hupdate⟩ := bflbOtaUpdate_performAll accepted inside xip
    have hlog := h _ (hupdate sys hparm) rfl _ (hupdate sys.working hparm)
    rw [← length_updateCalls]
    exact (Flash.performAll_log_iff fun steps hs => ne_nil_of_mem_updateCalls hs).mp
      (hlog.trans (log_working sys _))
  · intro hworks r hr hzero clean hclean
    obtain ⟨parm, data, hparm, rfl, haccepted, inside⟩ := accepted_of_returned hr hzero
    obtain ⟨words, hupdate⟩ := bflbOtaUpdate_performAll haccepted inside xip
    have hready := hworks parm data hparm rfl haccepted inside
    rw [← length_updateCalls] at hready
    obtain ⟨rfl⟩ := Except.ok.inj ((hupdate sys hparm).symm.trans hr)
    obtain ⟨rfl⟩ := Except.ok.inj ((hupdate sys.working hparm).symm.trans hclean)
    exact ((Flash.performAll_log_iff fun steps hs => ne_nil_of_mem_updateCalls hs).mpr
      hready).trans (log_working sys _).symm

/-! ## Commits -/

/-- A call whose result is checked before the next one. -/
theorem log_of_checked {first second : List Nor.Step}
    (hlog : (if (flash.perform first).2 ≠ 0 then (flash.perform first).1
      else ((flash.perform first).1.perform second).1).log = flash.log ++ (first ++ second))
    (hfirst : first ≠ []) (hsecond : second ≠ []) : flash.Ready 2 := by
  have hone := flash.perform_log first
  have htwo := (flash.perform first).1.perform_log second
  have hpos := List.length_pos_of_ne_nil hfirst
  have hpos' := List.length_pos_of_ne_nil hsecond
  rw [flash.ready_succ_iff first, (flash.perform first).1.ready_succ_iff second]
  by_cases hok : (flash.perform first).2 = 0
  · rw [if_neg (not_not.mpr hok), htwo, hone, if_pos hok, ← List.append_assoc] at hlog
    have hsame := List.append_cancel_left hlog
    by_cases hok' : ((flash.perform first).1.perform second).2 = 0
    · exact ⟨hok, hok', fun code hcode => absurd hcode List.not_mem_nil⟩
    · rw [if_neg hok'] at hsame
      exact absurd hsame.symm hsecond
  · rw [if_pos hok, hone, if_neg hok] at hlog
    have hlen := congrArg List.length (List.append_cancel_left hlog)
    rw [List.length_append, List.length_nil] at hlen
    omega

theorem ptTableUpdateEntry_log_iff {id : PtTableIdType} {base t : PtTableStuffConfig}
    {e : PtTableEntryConfig} (hid : id ≠ .ptTableIdInvalid) (hcnt : base.entryCnt ≤ 16)
    (ht : updatedTable base e = some t) :
    (ptTableUpdateEntry flash id base e).1.log = flash.log ++ tableSteps id t ↔
      flash.Ready 2 := by
  constructor
  · intro hlog
    obtain ⟨stored, hstore, rfl⟩ := Option.map_eq_some_iff.mp ht
    have hlen : (sealTable (stored.setAge (add32 stored.age 1))).entriesLen ≤ 576 := by
      have := (storeEntry_stored hcnt hstore).entryCnt
      rw [entriesLen, entryCnt_sealTable, entryCnt_setAge]
      omega
    have hsectors : (sectors id.address
        (16 + (sealTable (stored.setAge (add32 stored.age 1))).entriesLen + 4)).map .erase =
        ([.erase (id.address / Nor.sectorSize)] : List Nor.Step) := by
      rw [sectors_slot (by omega) (by omega)]
      rfl
    refine @log_of_checked flash [.erase (id.address / Nor.sectorSize)] _ (Eq.trans ?_ hlog)
      (List.cons_ne_nil _ _) (List.cons_ne_nil _ [])
    unfold ptTableUpdateEntry bflbFlashErase bflbFlashWrite
    simp only [if_neg hid, hstore, hsectors]
    by_cases hok : (flash.perform [.erase (id.address / Nor.sectorSize)]).2 = 0
    · rw [if_neg (not_not.mpr hok), if_neg (not_not.mpr hok)]
      split
      · rfl
      · rfl
    · rw [if_pos hok, if_pos hok]
  · intro hready
    rw [ptTableUpdateEntry_of_ready hready hid hcnt, ht]
    rfl

/-! ## Failing exits -/

theorem released_of_none (hparm : sys.otaParm = none) : Released sys sys := by
  refine ⟨hparm, [], (List.append_nil _).symm, ?_⟩
  rw [hparm]
  exact ⟨rfl, rfl⟩

theorem released_endSession (hparm : sys.otaParm = some parm) : Released sys sys.endSession := by
  refine ⟨rfl, [.closeMtd, .freeParm], rfl, ?_⟩
  rw [hparm]
  exact ⟨rfl, rfl⟩

/-- The exit for a device without a table keeps the handle open. -/
theorem not_released_freeParm (hparm : sys.otaParm = some parm) : ¬ Released sys sys.freeParm := by
  rintro ⟨-, events, hevents, -, hclosed⟩
  have hsame : [OtaEvent.freeParm] = events := List.append_cancel_left hevents
  rw [← hsame, hparm] at hclosed
  cases hclosed

theorem start_truthful {fileSize : Nat} {parmMemory handleMemory : Bool} {r : Sys × Int}
    (h : bflbOtaStart sys fileSize parmMemory handleMemory = .ok r) (hfailed : r.2 ≠ 0) :
    Released sys r.1 := by
  unfold bflbOtaStart at h
  cases hparm : sys.otaParm with
  | some parm =>
    rw [hparm, if_pos Option.isSome_some] at h
    obtain ⟨rfl⟩ := Except.ok.inj h
    exact absurd rfl hfailed
  | none =>
    have hreleased : ∀ {sys' : Sys} (events : List OtaEvent), sys'.otaParm = none →
        sys'.events = sys.events ++ events → events.count .freeParm = events.count .mallocParm →
        events.count .closeMtd = events.count .openMtd → Released sys sys' := by
      intro sys' events hnone hevents hfree hclose
      refine ⟨hnone, events, hevents, ?_⟩
      rw [hparm]
      exact ⟨hfree, hclose⟩
    rw [hparm, if_neg (by decide)] at h
    split at h
    · obtain ⟨rfl⟩ := Except.ok.inj h
      exact released_of_none hparm
    · simp only [] at h
      split at h
      · obtain ⟨rfl⟩ := Except.ok.inj h
        exact hreleased [.mallocParm, .freeParm] rfl (List.append_assoc ..) rfl rfl
      · split at h
        · obtain ⟨rfl⟩ := Except.ok.inj h
          exact hreleased [.mallocParm, .freeParm] rfl (List.append_assoc ..) rfl rfl
        · split at h
          · cases h
          · obtain ⟨rfl⟩ := Except.ok.inj h
            exact hreleased [.mallocParm, .freeParm] rfl (List.append_assoc ..) rfl rfl
          · split at h
            · obtain ⟨rfl⟩ := Except.ok.inj h
              exact hreleased [.mallocParm, .openMtd, .closeMtd, .freeParm] rfl
                (by simp [Sys.endSession]) rfl rfl
            · obtain ⟨rfl⟩ := Except.ok.inj h
              exact absurd rfl hfailed

theorem check_truthful {memory : Bool} {r : Sys × Int} (h : bflbOtaCheck sys memory = r)
    (hfailed : r.2 ≠ 0) : Released sys r.1 := by
  unfold bflbOtaCheck at h
  cases hparm : sys.otaParm with
  | none =>
    rw [hparm] at h
    obtain ⟨rfl⟩ := h
    exact released_of_none hparm
  | some parm =>
    simp only [hparm] at h
    split at h
    · obtain ⟨rfl⟩ := h
      exact released_endSession hparm
    · split at h
      · obtain ⟨rfl⟩ := h
        exact released_endSession hparm
      · split at h
        · obtain ⟨rfl⟩ := h
          exact released_endSession hparm
        · obtain ⟨rfl⟩ := h
          exact absurd rfl hfailed

/-- The table is written exactly when both driver calls of the commit succeed. -/
theorem otaCommit_truthful_iff (hparm : sys.otaParm = some parm)
    (active : selectMem sys.flash.mem ≠ .ptTableIdInvalid) {e : PtTableEntryConfig}
    (fw : flashFwEntry sys.flash.mem = some e) :
    TableWritten sys (otaCommit sys (selectMem sys.flash.mem) e (parm.fileSize - 32)).1 ↔
      sys.flash.Ready 2 := by
  have hactive := activeTable_eq rfl active
  have hcnt := entryCnt_of_valid (valid_of_selectMem rfl active)
  have hmem := fw
  rw [flashFwEntry_eq hactive] at hmem
  obtain ⟨t, ht⟩ := updatedTable_of_mem (List.mem_of_find?_eq_some hmem)
    (type_committedEntry e (parm.fileSize - 32)).symm
  have hlog := @ptTableUpdateEntry_log_iff sys.flash _ _ t _
    (ne_invalid_lnot (selectMem sys.flash.mem)) hcnt ht
  constructor
  · rintro ⟨parm', e', t', hparm', fw', ht', -, hwritten⟩
    obtain ⟨⟩ := Option.some.inj (hparm.symm.trans hparm')
    obtain ⟨⟩ := Option.some.inj (fw.symm.trans fw')
    obtain ⟨⟩ := Option.some.inj (ht.symm.trans ht')
    exact hlog.mp hwritten
  · intro hready
    refine ⟨parm, e, t, hparm, fw, ht, ?_, hlog.mpr hready⟩
    have hupdate := ptTableUpdateEntry_of_ready (e := committedEntry e (parm.fileSize - 32)) hready
      (ne_invalid_lnot (selectMem sys.flash.mem)) hcnt
    rw [ht] at hupdate
    exact congrArg (fun result => result.1.mem) hupdate

theorem finish_truthful_iff (sys : Sys) (checkHash memory : Bool) :
    Truthful sys (bflbOtaFinish sys checkHash memory) (.finish checkHash memory) ↔
      CommitWorks sys checkHash memory := by
  have hfailed : ∀ {sys' : Sys}, Released sys sys' →
      Truthful sys (sys', -1) (.finish checkHash memory) := by
    intro sys' hreleased
    exact ⟨fun hzero => absurd hzero (show ¬ (-1 : Int) = 0 by decide), fun _ => hreleased⟩
  unfold bflbOtaFinish
  cases hparm : sys.otaParm with
  | none =>
    refine iff_of_true (hfailed (released_of_none hparm)) fun parm hsome => ?_
    exact absurd (hparm.symm.trans hsome) (by simp)
  | some parm =>
    have hended := hfailed (released_endSession hparm)
    simp only []
    by_cases hsmall : parm.fileSize ≤ 32
    · rw [if_pos hsmall]
      refine iff_of_true hended fun parm' hsome hlarge => ?_
      obtain ⟨⟩ := Option.some.inj (hparm.symm.trans hsome)
      omega
    · rw [if_neg hsmall]
      by_cases hinvalid : selectMem sys.flash.mem = .ptTableIdInvalid
      · have hget : ptTableGetActivePartitionNeedLock sys.flash = .ptTableIdInvalid := hinvalid
        rw [if_pos hget]
        refine iff_of_false (fun h => ?_) fun h => ?_
        · exact not_released_freeParm hparm (h.2 (show (-1 : Int) ≠ 0 by decide))
        · exact (h parm hparm (by omega)).1 hinvalid
      · have hget : ¬ ptTableGetActivePartitionNeedLock sys.flash = .ptTableIdInvalid := hinvalid
        have hentry : flashFwEntry sys.flash.mem = ptTableGetActiveEntriesByName (readTable sys.flash
            (ptTableGetActivePartitionNeedLock sys.flash)) blMtdPartitionNameFwDefault :=
          flashFwEntry_eq (activeTable_eq rfl hinvalid)
        rw [if_neg hget, ← hentry]
        have hvacuous : (∀ e, flashFwEntry sys.flash.mem = some e →
            ¬ (checkHash = true → memory = true ∧
              otaDigestMatches sys.flash parm.mtdHandle (parm.fileSize - 32) = true)) →
            CommitWorks sys checkHash memory := by
          intro hno parm' hsome _
          obtain ⟨⟩ := Option.some.inj (hparm.symm.trans hsome)
          exact ⟨hinvalid, fun e he hhash => absurd hhash (hno e he)⟩
        cases hfw : flashFwEntry sys.flash.mem with
        | none => exact iff_of_true hended (hvacuous fun e he => absurd (hfw.symm.trans he) (by simp))
        | some e =>
          simp only []
          by_cases hmemory : checkHash = true ∧ memory = false
          · rw [if_pos hmemory]
            refine iff_of_true hended (hvacuous fun _ _ h => ?_)
            exact absurd ((h hmemory.1).1.symm.trans hmemory.2) (by decide)
          · rw [if_neg hmemory]
            by_cases hdigest : checkHash = true ∧
                otaDigestMatches sys.flash parm.mtdHandle (parm.fileSize - 32) = false
            · rw [if_pos hdigest]
              refine iff_of_true hended (hvacuous fun _ _ h => ?_)
              exact absurd ((h hdigest.1).2.symm.trans hdigest.2) (by decide)
            · rw [if_neg hdigest]
              have hchecked : checkHash = true → memory = true ∧
                  otaDigestMatches sys.flash parm.mtdHandle (parm.fileSize - 32) = true :=
                fun h => ⟨Bool.eq_true_of_not_eq_false fun hf => hmemory ⟨h, hf⟩,
                  Bool.eq_true_of_not_eq_false fun hf => hdigest ⟨h, hf⟩⟩
              have hcommit := otaCommit_truthful_iff hparm hinvalid hfw
              constructor
              · intro h parm' hsome _
                obtain ⟨⟩ := Option.some.inj (hparm.symm.trans hsome)
                exact ⟨hinvalid, fun e' he' _ => hcommit.mp (h.1 rfl)⟩
              · intro h
                have hready := (h parm hparm (by omega)).2 e hfw hchecked
                exact ⟨fun _ => hcommit.mpr hready, fun hne => absurd rfl hne⟩

/-- An apply is a finish without the check. -/
theorem bflbOtaApply_eq (sys : Sys) : bflbOtaApply sys = bflbOtaFinish sys false true := by
  unfold bflbOtaApply bflbOtaFinish
  simp only [Bool.false_eq_true, false_and, if_false]

/-- A call says the truth exactly when the driver calls that it makes succeed and, where it
commits, a table is active. -/
theorem truthful_iff_works (sys : Sys) (c : Call) :
    (∀ r, call sys c = .ok r → Truthful sys r c) ↔ Works sys c := by
  cases c with
  | start fileSize parmMemory handleMemory =>
    exact iff_of_true (fun _ hr => start_truthful hr) trivial
  | update filesize offset buf xip => exact update_truthful_iff sys filesize offset buf xip
  | check memory => exact iff_of_true (fun _ hr => check_truthful (Except.ok.inj hr)) trivial
  | finish checkHash memory =>
    refine Iff.trans ?_ (finish_truthful_iff sys checkHash memory)
    constructor
    · exact fun h => h _ rfl
    · rintro h r hr
      exact Except.ok.inj hr ▸ h
  | apply =>
    refine Iff.trans ?_ (finish_truthful_iff sys false true)
    constructor
    · exact fun h => bflbOtaApply_eq sys ▸ h _ rfl
    · rintro h r hr
      exact Except.ok.inj hr ▸ bflbOtaApply_eq sys ▸ h
  | abort => exact iff_of_true (fun _ _ => trivial) trivial

/-- A session of 64 bytes on a flash that refuses the next two calls. -/
def refusingSys : Sys :=
  { fwSys with
    flash := { fwSys.flash with faults := [-1, -1] }
    otaParm := some (fwParm 64) }

/-- Its update of one byte returns 0. -/
theorem refused_update_returns_zero : ¬ ∀ sys c r, call sys c = .ok r → Truthful sys r c := by
  intro h
  have hworks := (update_truthful_iff refusingSys 64 0 (some [1]) false).mp
    (h refusingSys (.update 64 0 (some [1]) false))
  exact absurd (hworks (fwParm 64) [1] rfl rfl (by unfold Accepted; decide +kernel)
    (by decide +kernel)) (by decide +kernel)

end BouffaloSdk.Ota
