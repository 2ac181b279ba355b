import BouffaloSdk.Ota.Sessions
import Mathlib.Data.List.Nodup

/-!
# Assembling an image

The accepted chunks of a session, in whatever order they come, and what they leave in
the bank. Sectors are erased on the way to the first chunk that meets them, and a
bitmap remembers which.
-/

namespace BouffaloSdk.Ota
open Kit Kit.Word BouffaloSdk.Partition Mtd

/-- The arguments of one call of `bflb_ota_update`. -/
structure Chunk where
  filesize : Nat
  offset : Nat
  data : List UInt8
  xip : Bool
  deriving DecidableEq, Repr

/-- The calls of a session, one after the other. -/
def updates (sys : Sys) (chunks : List Chunk) : Except Halt Sys :=
  chunks.foldlM (fun sys c =>
    (·.1) <$> bflbOtaUpdate sys c.filesize c.offset (some c.data) c.xip) sys

def Chunk.Disjoint (c c' : Chunk) : Prop :=
  c.offset + c.data.length ≤ c'.offset ∨ c'.offset + c'.data.length ≤ c.offset

/-- The chunk lies at `a` in the bank at `base`. -/
def Chunk.Covers (base : Nat) (c : Chunk) (a : Nat) : Prop :=
  base + c.offset ≤ a ∧ a < base + c.offset + c.data.length

/-- The chunk has bytes in sector `i` of the bank. -/
def Chunk.Meets (c : Chunk) (i : Nat) : Prop :=
  c.offset / 4096 ≤ i ∧ i ≤ (c.offset + c.data.length - 1) / 4096

/-- Some chunk has bytes in the sector of `a`. -/
def MetAt (base : Nat) (chunks : List Chunk) (a : Nat) : Prop :=
  ∃ c ∈ chunks, ∃ i, c.Meets i ∧ a / 4096 = base / 4096 + i

/-- The sectors that the loop of an update runs over. -/
def Chunk.sectors (c : Chunk) : List Nat :=
  (List.range ((c.offset + c.data.length - 1) / 4096 + 1 - c.offset / 4096)).map
    (c.offset / 4096 + ·)

/-- What the chunks leave behind: their bytes, blank sectors around them and a log that
erases every sector once and first. -/
structure Assembled (sys : Sys) (parm : BflbOtaParm) (chunks : List Chunk) (sys' : Sys) :
    Prop where
  written : ∀ c ∈ chunks,
    Nor.read sys'.flash.mem (parm.mtdHandle.offset + c.offset) c.data.length = c.data
  blank : ∀ a, (∀ c ∈ chunks, ¬ c.Covers parm.mtdHandle.offset a) →
    MetAt parm.mtdHandle.offset chunks a → sys'.flash.mem a = 0xFF
  kept : ∀ a, ¬ MetAt parm.mtdHandle.offset chunks a → sys'.flash.mem a = sys.flash.mem a
  order : ∃ steps, sys'.flash.log = sys.flash.log ++ steps ∧ Nor.WritesErased ∅ steps ∧
    ∀ s ∈ steps, ∀ a, Nor.Step.Touches s a → parm.mtdHandle.offset ≤ a ∧
      a < parm.mtdHandle.offset + sectorCeil parm.fileSize

/-- The bank is aligned, the flash does its part, and the chunk ends below `2 ^ 32`, in the
address space and in the bitmap. -/
structure SafeChunk (sys : Sys) (parm : BflbOtaParm) (c : Chunk) : Prop where
  works : sys.flash.faults = []
  aligned : parm.mtdHandle.offset % 4096 = 0
  fits : c.offset + c.data.length < 2 ^ 32
  address : parm.mtdHandle.offset + c.offset + c.data.length ≤ 2 ^ 32
  marked : c.offset + c.data.length ≤ hosalOtaFileSizeMax

variable {sys sys' : Sys} {parm : BflbOtaParm} {flash : Flash} {c : Chunk} {chunks : List Chunk}
  {words : List Nat} {handle : BflbMtdHandle} {i j base : Nat}

/-! ## Programs -/

theorem apply_program_nil (m : Nor.Mem) (start : Nat) :
    Nor.Step.apply m (.program start []) = m := by
  funext a
  simp [Nor.Step.apply]

/-- A write is one program, in however many pieces it is carried out. -/
structure Programs (steps : List Nor.Step) (start : Nat) (data : List UInt8) : Prop where
  apply : ∀ m, Nor.run m steps = Nor.Step.apply m (.program start data)
  inside : ∀ s ∈ steps, (∃ at' bytes, s = .program at' bytes) ∧
    ∀ a, s.Touches a → start ≤ a ∧ a < start + data.length

theorem Programs.single (start : Nat) (data : List UInt8) :
    Programs [.program start data] start data := by
  refine ⟨fun _ => rfl, fun s hs => ?_⟩
  rw [List.mem_singleton.mp hs]
  exact ⟨⟨start, data, rfl⟩, fun a ha => ha⟩

/-- The driver calls that write data from flash, 64 bytes each. -/
def writePieces (addr : Nat) (src : List UInt8) : List (List Nor.Step) :=
  if src.length = 0 then []
  else
    let piece := src.take 64
    [.program addr piece] :: writePieces (add32 addr piece.length) (src.drop 64)
termination_by src.length
decreasing_by
  rw [List.length_drop]
  omega

/-- The driver calls of a write through the handle. -/
def writeCalls (handle : BflbMtdHandle) (offset : Nat) (data : List UInt8) (xip : Bool) :
    List (List Nor.Step) :=
  if xip then writePieces (add32 handle.offset offset) data
  else [[.program (add32 handle.offset offset) data]]

theorem mtdWriteCopy2ram_eq (flash : Flash) (addr : Nat) (src : List UInt8) :
    mtdWriteCopy2ram flash addr src = flash.performAll (writePieces addr src) := by
  fun_induction mtdWriteCopy2ram flash addr src with
  | case1 flash addr src hnil =>
    rw [writePieces, if_pos hnil]
    rfl
  | case2 flash addr src hne piece ih =>
    rw [writePieces, if_neg hne]
    exact ih

theorem bflbMtdWrite_eq (flash : Flash) (handle : BflbMtdHandle) (offset : Nat)
    (data : List UInt8) (xip : Bool) :
    bflbMtdWrite flash handle offset data xip =
      (flash.performAll (writeCalls handle offset data xip), 0) := by
  unfold bflbMtdWrite writeCalls
  cases xip with
  | true => simp only [if_true, mtdWriteCopy2ram_eq]
  | false => rfl

theorem writePieces_programs {addr : Nat} {src : List UInt8} (fits : addr + src.length ≤ 2 ^ 32) :
    Programs (writePieces addr src).flatten addr src := by
  fun_induction writePieces addr src with
  | case1 addr src hnil =>
    refine ⟨fun m => ?_, fun s hs => by cases hs⟩
    rw [List.length_eq_zero_iff.mp hnil, apply_program_nil]
    rfl
  | case2 addr src hne piece ih =>
    have hpiece : piece.length = min 64 src.length := List.length_take
    rw [List.flatten_cons]
    by_cases hlast : src.length ≤ 64
    · have hnil : src.drop 64 = [] := List.drop_eq_nil_of_le hlast
      have hall : piece = src := List.take_of_length_le hlast
      rw [hnil, writePieces, if_pos List.length_nil, hall]
      exact Programs.single addr src
    · have haddr : add32 addr piece.length = addr + piece.length := add32_eq (by omega)
      have hrest : (src.drop 64).length = src.length - 64 := List.length_drop
      rw [haddr] at ih ⊢
      have hprograms := ih (by omega)
      refine ⟨fun m => ?_, fun s hs => ?_⟩
      · rw [Nor.run_append, hprograms.apply]
        exact (Nor.program_append ..).trans (by rw [List.take_append_drop])
      · cases List.mem_append.mp hs with
        | inl hfirst =>
          rw [List.mem_singleton.mp hfirst]
          refine ⟨⟨addr, piece, rfl⟩, fun a ha => ?_⟩
          obtain ⟨hle, hlt⟩ := ha
          omega
        | inr hmem =>
          obtain ⟨hprogram, htouch⟩ := hprograms.inside s hmem
          refine ⟨hprogram, fun a ha => ?_⟩
          have := htouch a ha
          omega

theorem writeCalls_programs {handle : BflbMtdHandle} {offset : Nat} {data : List UInt8}
    (xip : Bool) (fits : handle.offset + offset + data.length ≤ 2 ^ 32) (hdata : 0 < data.length) :
    Programs (writeCalls handle offset data xip).flatten (handle.offset + offset) data := by
  have haddr : add32 handle.offset offset = handle.offset + offset := add32_eq (by omega)
  unfold writeCalls
  rw [haddr]
  cases xip with
  | true => exact writePieces_programs fits
  | false => exact Programs.single _ _

/-! ## The bitmap -/

def erasedBit (words : List Nat) (i : Nat) : Bool := (words.getD (i / 32) 0).testBit (i % 32)

theorem and_bit_eq_zero (word k : Nat) : word &&& (1 <<< k) = 0 ↔ word.testBit k = false := by
  rw [Nat.one_shiftLeft, Nat.and_two_pow]
  cases word.testBit k <;> simp

theorem erasedBit_set (hi : i / 32 < words.length) (j : Nat) :
    erasedBit (words.set (i / 32) (words.getD (i / 32) 0 ||| (1 <<< (i % 32)))) j =
      (erasedBit words j || decide (j = i)) := by
  unfold erasedBit
  rw [List.getD_eq_getElem?_getD, List.getElem?_set]
  by_cases hword : i / 32 = j / 32
  · have hsame : decide (i % 32 = j % 32) = decide (j = i) := by
      apply decide_eq_decide.mpr
      omega
    rw [if_pos hword, if_pos hi, Option.getD_some, Nat.testBit_or, Nat.one_shiftLeft,
      Nat.testBit_two_pow, hsame, hword]
  · have hne : j ≠ i := fun heq => hword (by rw [heq])
    rw [if_neg hword, decide_eq_false hne, Bool.or_false, ← List.getD_eq_getElem?_getD]

/-- The driver calls that erase the sectors whose bits are clear. -/
def eraseCalls (handle : BflbMtdHandle) (words indices : List Nat) : List (List Nor.Step) :=
  (indices.filter fun i => !erasedBit words i).map fun i =>
    (sectors (add32 handle.offset (i * 4096)) 4096).map .erase

theorem otaEraseSector_eq (handle : BflbMtdHandle) (hi : i / 32 < words.length) :
    ∃ words', words'.length = words.length ∧
      (∀ j, erasedBit words' j = (erasedBit words j || decide (j = i))) ∧
      ∀ flash, otaEraseSector handle (flash, words) i =
        .ok (flash.performAll (eraseCalls handle words [i]), words') := by
  have hget : words[i / 32]? = some (words.getD (i / 32) 0) := by
    rw [List.getD_eq_getElem?_getD, List.getElem?_eq_getElem hi]
    rfl
  unfold otaEraseSector eraseCalls
  simp only [hget, and_bit_eq_zero]
  cases hbit : erasedBit words i with
  | true =>
    have hset : (words.getD (i / 32) 0).testBit (i % 32) = true := hbit
    refine ⟨words, rfl, fun j => ?_, fun flash => ?_⟩
    · by_cases hji : j = i
      · rw [hji, hbit]
        rfl
      · rw [decide_eq_false hji, Bool.or_false]
    · rw [if_neg (by rw [hset]; decide)]
      simp [hbit, Flash.performAll]
  | false =>
    have hclear : (words.getD (i / 32) 0).testBit (i % 32) = false := hbit
    refine ⟨_, List.length_set, fun j => erasedBit_set hi j, fun flash => ?_⟩
    rw [if_pos hclear]
    simp [hbit, Flash.performAll, bflbMtdErase, bflbFlashErase]

/-- The loop erases the sectors that have not been erased yet. -/
theorem foldlM_otaEraseSector {indices : List Nat} (handle : BflbMtdHandle)
    (hnodup : indices.Nodup) (hindices : ∀ i ∈ indices, i / 32 < words.length) :
    ∃ words', words'.length = words.length ∧
      (∀ j, erasedBit words' j = (erasedBit words j || decide (j ∈ indices))) ∧
      ∀ flash, indices.foldlM (otaEraseSector handle) (flash, words) =
        .ok (flash.performAll (eraseCalls handle words indices), words') := by
  induction indices generalizing words with
  | nil =>
    refine ⟨words, rfl, fun j => ?_, fun flash => rfl⟩
    simp
  | cons i indices ih =>
    obtain ⟨hout, hnodup⟩ := List.nodup_cons.mp hnodup
    have hi := hindices i List.mem_cons_self
    obtain ⟨words₁, hlen₁, hbits₁, hstep⟩ := otaEraseSector_eq handle hi
    have hrest : ∀ j ∈ indices, j / 32 < words₁.length := by
      intro j hj
      rw [hlen₁]
      exact hindices j (List.mem_cons_of_mem _ hj)
    obtain ⟨words₂, hlen₂, hbits₂, hloop⟩ := ih hnodup hrest
    refine ⟨words₂, hlen₂.trans hlen₁, fun j => ?_, fun flash => ?_⟩
    · rw [hbits₂, hbits₁, Bool.or_assoc]
      congr 1
      by_cases hji : j = i
      · simp [hji]
      · simp [hji]
    · have hsame : (indices.filter fun j => !erasedBit words₁ j) =
          indices.filter fun j => !erasedBit words j := by
        apply List.filter_congr
        intro j hj
        have hji : j ≠ i := fun heq => hout (heq ▸ hj)
        rw [hbits₁, decide_eq_false hji, Bool.or_false]
      have hcalls : eraseCalls handle words (i :: indices) =
          eraseCalls handle words [i] ++ eraseCalls handle words₁ indices := by
        unfold eraseCalls
        rw [hsame, ← List.map_append, ← List.filter_append, List.singleton_append]
      rw [List.foldlM_cons, hstep, hcalls, Flash.performAll_append]
      exact hloop _

/-- In a bank that starts a sector, index and sector agree. -/
theorem flatten_eraseCalls {indices : List Nat} (aligned : handle.offset % 4096 = 0)
    (fits : ∀ i ∈ indices, handle.offset + i * 4096 < 2 ^ 32) :
    (eraseCalls handle words indices).flatten =
      (indices.filter fun i => !erasedBit words i).map fun i =>
        .erase (handle.offset / 4096 + i) := by
  have hsingle : ∀ i ∈ indices.filter fun i => !erasedBit words i,
      ((sectors (add32 handle.offset (i * 4096)) 4096).map .erase : List Nor.Step) =
        [.erase (handle.offset / 4096 + i)] := by
    intro i hi
    have hfits := fits i (List.mem_of_mem_filter hi)
    have hfirst : (handle.offset + i * 4096) / 4096 = handle.offset / 4096 + i := by omega
    have hlast : (handle.offset + i * 4096 + 4096 - 1) / 4096 = handle.offset / 4096 + i := by
      omega
    rw [add32_eq hfits]
    simp only [sectors, Nor.sectorSize, hfirst, hlast, Nat.add_sub_cancel_left]
    rfl
  rw [eraseCalls, List.map_congr_left hsingle, ← List.flatMap_def]
  exact List.map_eq_flatMap.symm

/-! ## One chunk -/

theorem Chunk.Covers.metAt {a : Nat} (h : c.Covers base a) (aligned : base % 4096 = 0) :
    c.Meets ((a - base) / 4096) ∧ a / 4096 = base / 4096 + (a - base) / 4096 := by
  obtain ⟨hle, hlt⟩ := h
  unfold Chunk.Meets
  omega

/-- The session after some of its chunks. -/
structure Progress (sys₀ : Sys) (parm : BflbOtaParm) (chunks : List Chunk) (sys : Sys) : Prop where
  session : ∃ words, sys.otaParm = some { parm with sectorErased := words } ∧
    words.length = sectorErasedWords ∧
    ∀ i, erasedBit words i = true ↔ ∃ c ∈ chunks, c.Meets i
  works : sys.flash.faults = []
  assembled : Assembled sys₀ parm chunks sys
  erased : ∀ steps, sys.flash.log = sys₀.flash.log ++ steps → ∀ sector,
    Nor.Step.erase sector ∈ steps ↔
      ∃ c ∈ chunks, ∃ i, c.Meets i ∧ sector = parm.mtdHandle.offset / 4096 + i

theorem Chunk.mem_sectors : i ∈ c.sectors ↔ c.Meets i := by
  rw [sectors, List.mem_map]
  constructor
  · rintro ⟨k, hk, rfl⟩
    rw [List.mem_range] at hk
    exact ⟨Nat.le_add_right _ _, by omega⟩
  · rintro ⟨hle, hge⟩
    exact ⟨i - c.offset / 4096, List.mem_range.mpr (by omega), by omega⟩

theorem Chunk.nodup_sectors (c : Chunk) : c.sectors.Nodup :=
  List.Nodup.map (fun _ _ h => Nat.add_left_cancel h) List.nodup_range

/-- The flash sectors that a chunk is the first to meet. -/
def freshSectors (handle : BflbMtdHandle) (words : List Nat) (c : Chunk) : List Nat :=
  (c.sectors.filter fun i => !erasedBit words i).map (handle.offset / 4096 + ·)

theorem mem_freshSectors {sector : Nat} : sector ∈ freshSectors handle words c ↔
    ∃ i, c.Meets i ∧ erasedBit words i = false ∧ sector = handle.offset / 4096 + i := by
  rw [freshSectors, List.mem_map]
  constructor
  · rintro ⟨i, hi, rfl⟩
    obtain ⟨hi, hfresh⟩ := List.mem_filter.mp hi
    exact ⟨i, Chunk.mem_sectors.mp hi, by simpa using hfresh, rfl⟩
  · rintro ⟨i, hi, hfresh, rfl⟩
    exact ⟨i, List.mem_filter.mpr ⟨Chunk.mem_sectors.mpr hi, by simp [hfresh]⟩, rfl⟩

theorem nodup_freshSectors (handle : BflbMtdHandle) (words : List Nat) (c : Chunk) :
    (freshSectors handle words c).Nodup :=
  List.Nodup.map (fun _ _ h => Nat.add_left_cancel h) (c.nodup_sectors.filter _)

/-- What an accepted chunk does: fresh sectors are erased, then it is written. -/
theorem bflbOtaUpdate_eq (accepted : Accepted parm c.filesize c.offset c.data)
    (hparm : sys.otaParm = some { parm with sectorErased := words })
    (hlen : words.length = sectorErasedWords) (safe : SafeChunk sys parm c) :
    ∃ words' programs, words'.length = words.length ∧
      (∀ j, erasedBit words' j = true ↔ erasedBit words j = true ∨ c.Meets j) ∧
      Programs programs (parm.mtdHandle.offset + c.offset) c.data ∧
      bflbOtaUpdate sys c.filesize c.offset (some c.data) c.xip =
        .ok ({ sys with
          flash := sys.flash.done
            ((freshSectors parm.mtdHandle words c).map .erase ++ programs)
          otaParm := some { parm with sectorErased := words' } }, 0) := by
  obtain ⟨hf, haligned, hfits, haddress, hmarked⟩ := safe
  have hdata : 0 < c.data.length := by
    unfold Accepted at accepted
    omega
  have hwords : sectorErasedWords = 8 := by decide
  have hmax : hosalOtaFileSizeMax = 1048576 := by decide
  have hend : sub32 (add32 c.offset c.data.length) 1 = c.offset + c.data.length - 1 := by
    rw [add32_eq hfits, sub32_eq (by omega) hfits]
  have hindices : ∀ i ∈ c.sectors,
      i / 32 < words.length ∧ parm.mtdHandle.offset + i * 4096 < 2 ^ 32 := by
    intro i hi
    obtain ⟨hle, hge⟩ := Chunk.mem_sectors.mp hi
    omega
  obtain ⟨words', hlen', hbits, hloop⟩ := foldlM_otaEraseSector parm.mtdHandle c.nodup_sectors
    fun i hi => (hindices i hi).1
  have hcalls : sys.flash.performAll (eraseCalls parm.mtdHandle words c.sectors) =
      sys.flash.done ((freshSectors parm.mtdHandle words c).map .erase) := by
    rw [Flash.performAll_of_no_faults hf,
      flatten_eraseCalls haligned fun i hi => (hindices i hi).2, freshSectors, List.map_map]
    rfl
  refine ⟨words', _, hlen', ?_, writeCalls_programs c.xip haddress hdata, ?_⟩
  · intro j
    rw [hbits, Bool.or_eq_true, decide_eq_true_eq, Chunk.mem_sectors]
  · have herase : bflbOtaErase sys.flash { parm with sectorErased := words } c.offset
        c.data.length = .ok (sys.flash.done
          ((freshSectors parm.mtdHandle words c).map .erase), words') := by
      unfold bflbOtaErase
      rw [hend, ← hcalls]
      exact hloop _
    have hwrite := bflbMtdWrite_eq
      (sys.flash.done ((freshSectors parm.mtdHandle words c).map .erase)) parm.mtdHandle c.offset
      c.data c.xip
    have hfaults :
        (sys.flash.done ((freshSectors parm.mtdHandle words c).map .erase)).faults = [] := hf
    rw [Flash.performAll_of_no_faults hfaults] at hwrite
    have hboth : (sys.flash.done ((freshSectors parm.mtdHandle words c).map .erase)).done
          (writeCalls parm.mtdHandle c.offset c.data c.xip).flatten =
        sys.flash.done ((freshSectors parm.mtdHandle words c).map .erase ++
          (writeCalls parm.mtdHandle c.offset c.data c.xip).flatten) := by
      simp only [Flash.done, Nor.run_append, List.append_assoc]
    unfold bflbOtaUpdate
    rw [hparm]
    simp only [herase, hwrite, hboth]
    rw [if_neg accepted]
    rfl

/-- Erasing the fresh sectors leaves every other cell. -/
theorem erase_keeps {m : Nor.Mem} {a : Nat}
    (hfresh : a / Nor.sectorSize ∉ freshSectors handle words c) :
    Nor.run m ((freshSectors handle words c).map .erase) a = m a := by
  apply Nor.run_of_not_touches
  intro s hs htouch
  obtain ⟨sector, hsector, rfl⟩ := List.mem_map.mp hs
  have heq : a / Nor.sectorSize = sector := htouch
  exact hfresh (heq ▸ hsector)

/-- Blank cells after the fresh sectors of one more chunk are erased. -/
theorem Progress.blank_after_erase {sys₀ : Sys} (h : Progress sys₀ parm chunks sys)
    (hbits : ∀ i, erasedBit words i = true ↔ ∃ c ∈ chunks, c.Meets i) {a : Nat}
    (hmet : MetAt parm.mtdHandle.offset (chunks ++ [c]) a)
    (hfree : ∀ c' ∈ chunks, ¬ c'.Covers parm.mtdHandle.offset a) :
    Nor.run sys.flash.mem ((freshSectors parm.mtdHandle words c).map .erase) a = 0xFF := by
  by_cases hfresh : a / Nor.sectorSize ∈ freshSectors parm.mtdHandle words c
  · exact Nor.run_erases hfresh
  · rw [erase_keeps hfresh]
    obtain ⟨c', hc', i, hmeets, hsector⟩ := hmet
    refine h.assembled.blank a hfree ?_
    cases List.mem_append.mp hc' with
    | inl hold => exact ⟨c', hold, i, hmeets, hsector⟩
    | inr hnew =>
      rw [List.mem_singleton.mp hnew] at hmeets
      cases hbit : erasedBit words i with
      | true =>
        obtain ⟨c₁, hc₁, hmeets₁⟩ := (hbits i).mp hbit
        exact ⟨c₁, hc₁, i, hmeets₁, hsector⟩
      | false => exact absurd (mem_freshSectors.mpr ⟨i, hmeets, hbit, hsector⟩) hfresh

theorem not_fresh_of_met (hbits : ∀ i, erasedBit words i = true ↔ ∃ c ∈ chunks, c.Meets i)
    {a : Nat} (hmet : MetAt handle.offset chunks a) :
    a / Nor.sectorSize ∉ freshSectors handle words c := by
  intro hfresh
  obtain ⟨c₁, hc₁, i, hmeets, hsector⟩ := hmet
  obtain ⟨j, -, hclear, hsector'⟩ := mem_freshSectors.mp hfresh
  have hij : j = i := by
    have hsize : a / Nor.sectorSize = a / 4096 := rfl
    omega
  have hset := (hbits i).mpr ⟨c₁, hc₁, hmeets⟩
  rw [hij] at hclear
  exact absurd (hclear.symm.trans hset) (by decide)

theorem Progress.step {sys₀ : Sys} (h : Progress sys₀ parm chunks sys)
    (accepted : Accepted parm c.filesize c.offset c.data) (safe : SafeChunk sys₀ parm c)
    (apart : ∀ c' ∈ chunks, c'.Disjoint c) :
    ∃ sys', bflbOtaUpdate sys c.filesize c.offset (some c.data) c.xip = .ok (sys', 0) ∧
      Progress sys₀ parm (chunks ++ [c]) sys' := by
  obtain ⟨words, hparm, hlen, hbits⟩ := h.session
  have hsafe : SafeChunk sys parm c := { safe with works := h.works }
  have haligned := safe.aligned
  obtain ⟨words', programs, hlen', hbits', hprograms, hupdate⟩ :=
    bflbOtaUpdate_eq accepted hparm hlen hsafe
  have hdata : 0 < c.data.length := by
    unfold Accepted at accepted
    omega
  have hmem : ∀ a, Nor.run sys.flash.mem
      ((freshSectors parm.mtdHandle words c).map .erase ++ programs) a =
      Nor.Step.apply (Nor.run sys.flash.mem ((freshSectors parm.mtdHandle words c).map .erase))
        (.program (parm.mtdHandle.offset + c.offset) c.data) a := by
    intro a
    rw [Nor.run_append, hprograms.apply]
  have hunwritten : ∀ a, ¬ c.Covers parm.mtdHandle.offset a → Nor.run sys.flash.mem
      ((freshSectors parm.mtdHandle words c).map .erase ++ programs) a =
      Nor.run sys.flash.mem ((freshSectors parm.mtdHandle words c).map .erase) a := by
    intro a hout
    rw [hmem]
    exact Nor.Step.apply_of_not_touches hout
  have hcovered : ∀ {c' a}, c' ∈ chunks → c'.Covers parm.mtdHandle.offset a →
      ¬ c.Covers parm.mtdHandle.offset a := by
    intro c' a hc' hin hin'
    obtain ⟨hle, hlt⟩ := hin
    obtain ⟨hle', hlt'⟩ := hin'
    cases apart c' hc' with
    | inl hbefore => omega
    | inr hbehind => omega
  refine ⟨_, hupdate, ⟨words', rfl, hlen'.trans hlen, fun i => ?_⟩, h.works, ⟨?_, ?_, ?_, ?_⟩, ?_⟩
  case refine_1 =>
    rw [hbits', hbits]
    simp only [List.mem_append, List.mem_singleton]
    constructor
    · rintro (⟨c', hc', hmeets⟩ | hmeets)
      · exact ⟨c', .inl hc', hmeets⟩
      · exact ⟨c, .inr rfl, hmeets⟩
    · rintro ⟨c', hc' | rfl, hmeets⟩
      · exact .inl ⟨c', hc', hmeets⟩
      · exact .inr hmeets
  case refine_2 =>
    intro c' hc'
    cases List.mem_append.mp hc' with
    | inl hold =>
      refine Eq.trans (Nor.read_congr fun i hi => ?_) (h.assembled.written c' hold)
      have hin : c'.Covers parm.mtdHandle.offset (parm.mtdHandle.offset + c'.offset + i) :=
        ⟨Nat.le_add_right _ _, by omega⟩
      obtain ⟨hmeets, hsector⟩ := hin.metAt haligned
      have hfresh := @not_fresh_of_met c chunks words parm.mtdHandle hbits _
        ⟨c', hold, _, hmeets, hsector⟩
      exact (hunwritten _ (hcovered hold hin)).trans (erase_keeps hfresh)
    | inr hnew =>
      rw [List.mem_singleton.mp hnew]
      refine Nor.read_eq_of_bytes fun i hi => ?_
      have hin : c.Covers parm.mtdHandle.offset (parm.mtdHandle.offset + c.offset + i) :=
        ⟨Nat.le_add_right _ _, by omega⟩
      obtain ⟨hmeets, hsector⟩ := hin.metAt haligned
      have hblank := h.blank_after_erase hbits (c := c)
        ⟨c, List.mem_append_right _ (List.mem_singleton.mpr rfl), _, hmeets, hsector⟩
        fun c' hc' hin' => hcovered hc' hin' hin
      exact (hmem _).trans (Nor.apply_program_of_erased hi hblank)
  case refine_3 =>
    intro a hfree hmet
    have hout : ¬ c.Covers parm.mtdHandle.offset a :=
      hfree c (List.mem_append_right _ (List.mem_singleton.mpr rfl))
    refine (hunwritten a hout).trans (h.blank_after_erase hbits hmet fun c' hc' => ?_)
    exact hfree c' (List.mem_append_left _ hc')
  case refine_4 =>
    intro a hunmet
    have hout : ¬ c.Covers parm.mtdHandle.offset a := by
      intro hin
      obtain ⟨hmeets, hsector⟩ := hin.metAt haligned
      exact hunmet ⟨c, List.mem_append_right _ (List.mem_singleton.mpr rfl), _, hmeets, hsector⟩
    have hfresh : a / Nor.sectorSize ∉ freshSectors parm.mtdHandle words c := by
      intro hmem
      obtain ⟨i, hmeets, -, hsector⟩ := mem_freshSectors.mp hmem
      exact hunmet ⟨c, List.mem_append_right _ (List.mem_singleton.mpr rfl), i, hmeets, hsector⟩
    refine ((hunwritten a hout).trans (erase_keeps hfresh)).trans (h.assembled.kept a ?_)
    rintro ⟨c', hc', hmet⟩
    exact hunmet ⟨c', List.mem_append_left _ hc', hmet⟩
  case refine_5 =>
    obtain ⟨steps, hlog, hwrites, hinside⟩ := h.assembled.order
    have herased := h.erased steps hlog
    have hsize : c.offset + c.data.length ≤ parm.fileSize := by
      unfold Accepted at accepted
      rw [add32_eq safe.fits] at accepted
      omega
    refine ⟨steps ++ ((freshSectors parm.mtdHandle words c).map .erase ++ programs), ?_, ?_, ?_⟩
    · rw [← List.append_assoc, ← hlog]
      rfl
    · refine hwrites.append (Nor.WritesErased.append ?_ (Nor.writesErased_programs ?_))
      · refine Nor.writesErased_erases (nodup_freshSectors _ _ _) fun sector hfresh hdone => ?_
        obtain ⟨i, -, hclear, rfl⟩ := mem_freshSectors.mp hfresh
        obtain ⟨c', hc', j, hmeets, hsector⟩ :=
          (herased _).mp (hdone.resolve_left (Set.notMem_empty _))
        have hij : i = j := by omega
        have hset := (hbits i).mpr ⟨c', hc', hij ▸ hmeets⟩
        exact absurd (hclear.symm.trans hset) (by decide)
      · intro s hs
        obtain ⟨hprogram, htouch⟩ := hprograms.inside s hs
        refine ⟨hprogram, fun a ha => ?_⟩
        have hin : c.Covers parm.mtdHandle.offset a := htouch a ha
        obtain ⟨hmeets, hsector⟩ := hin.metAt haligned
        have hsize : a / Nor.sectorSize = a / 4096 := rfl
        rw [hsize, hsector]
        cases hbit : erasedBit words ((a - parm.mtdHandle.offset) / 4096) with
        | true =>
          obtain ⟨c', hc', hmeets'⟩ := (hbits _).mp hbit
          exact .inl (.inr ((herased _).mpr ⟨c', hc', _, hmeets', rfl⟩))
        | false =>
          have hfresh : parm.mtdHandle.offset / 4096 + (a - parm.mtdHandle.offset) / 4096 ∈
              freshSectors parm.mtdHandle words c := mem_freshSectors.mpr ⟨_, hmeets, hbit, rfl⟩
          exact .inr (List.mem_map.mpr ⟨_, hfresh, rfl⟩)
    · intro s hs a ha
      cases List.mem_append.mp hs with
      | inl hold => exact hinside s hold a ha
      | inr hnew =>
        unfold sectorCeil
        cases List.mem_append.mp hnew with
        | inl hfresh =>
          obtain ⟨sector, hsector, rfl⟩ := List.mem_map.mp hfresh
          obtain ⟨i, ⟨hle, hge⟩, -, rfl⟩ := mem_freshSectors.mp hsector
          have htouch : a / 4096 = parm.mtdHandle.offset / 4096 + i := ha
          omega
        | inr hwritten =>
          obtain ⟨hle, hlt⟩ := (hprograms.inside s hwritten).2 a ha
          omega
  case refine_6 =>
    intro more hmore sector
    obtain ⟨steps, hlog, -, -⟩ := h.assembled.order
    have hsplit : more = steps ++ ((freshSectors parm.mtdHandle words c).map .erase ++ programs) := by
      have hlog' : sys₀.flash.log ++ more = sys₀.flash.log ++
          (steps ++ ((freshSectors parm.mtdHandle words c).map .erase ++ programs)) := by
        rw [← List.append_assoc, ← hlog]
        exact hmore.symm
      exact List.append_cancel_left hlog'
    have hprogram : Nor.Step.erase sector ∉ programs := by
      intro hmem
      obtain ⟨⟨start, bytes, heq⟩, -⟩ := hprograms.inside _ hmem
      cases heq
    rw [hsplit, List.mem_append, List.mem_append, h.erased steps hlog]
    constructor
    · rintro (⟨c', hc', hmet⟩ | hfresh | hbad)
      · exact ⟨c', List.mem_append_left _ hc', hmet⟩
      · obtain ⟨sector', hsector', heq⟩ := List.mem_map.mp hfresh
        cases heq
        obtain ⟨i, hmeets, -, hsector⟩ := mem_freshSectors.mp hsector'
        exact ⟨c, List.mem_append_right _ (List.mem_singleton.mpr rfl), i, hmeets, hsector⟩
      · exact absurd hbad hprogram
    · rintro ⟨c', hc', i, hmeets, hsector⟩
      cases List.mem_append.mp hc' with
      | inl hold => exact .inl ⟨c', hold, i, hmeets, hsector⟩
      | inr hnew =>
        rw [List.mem_singleton.mp hnew] at hmeets
        cases hbit : erasedBit words i with
        | true =>
          obtain ⟨c₁, hc₁, hmeets₁⟩ := (hbits i).mp hbit
          exact .inl ⟨c₁, hc₁, i, hmeets₁, hsector⟩
        | false =>
          have hfresh : sector ∈ freshSectors parm.mtdHandle words c :=
            mem_freshSectors.mpr ⟨i, hmeets, hbit, hsector⟩
          exact .inr (.inl (List.mem_map.mpr ⟨sector, hfresh, rfl⟩))

/-! ## A session -/

theorem erasedBit_replicate (n i : Nat) : erasedBit (List.replicate n 0) i = false := by
  unfold erasedBit
  rw [List.getD_eq_getElem?_getD, List.getElem?_replicate]
  split <;> exact Nat.zero_testBit _

theorem assembled_nil (sys : Sys) (parm : BflbOtaParm) : Assembled sys parm [] sys where
  written := fun c hc => by cases hc
  blank := fun a _ hmet => by
    obtain ⟨c, hc, -⟩ := hmet
    cases hc
  kept := fun a _ => rfl
  order := ⟨[], (List.append_nil _).symm, trivial, fun s hs => by cases hs⟩

theorem progress_start (hparm : sys.otaParm = some parm)
    (hwords : parm.sectorErased = List.replicate sectorErasedWords 0)
    (works : sys.flash.faults = []) : Progress sys parm [] sys where
  session := by
    refine ⟨parm.sectorErased, hparm, by rw [hwords, List.length_replicate], fun i => ?_⟩
    rw [hwords, erasedBit_replicate]
    simp
  works := works
  assembled := assembled_nil sys parm
  erased := by
    intro steps hsteps sector
    have hnil : steps = [] := by
      have hlog : sys.flash.log ++ [] = sys.flash.log ++ steps := by
        rw [← hsteps, List.append_nil]
      exact (List.append_cancel_left hlog).symm
    simp [hnil]

theorem Progress.updates {sys₀ : Sys} {more : List Chunk} (h : Progress sys₀ parm chunks sys)
    (accepted : ∀ c ∈ more, Accepted parm c.filesize c.offset c.data)
    (safe : ∀ c ∈ more, SafeChunk sys₀ parm c)
    (apart : (chunks ++ more).Pairwise Chunk.Disjoint) :
    ∃ sys', updates sys more = .ok sys' ∧ Progress sys₀ parm (chunks ++ more) sys' := by
  induction more generalizing sys chunks with
  | nil =>
    rw [List.append_nil]
    exact ⟨sys, rfl, h⟩
  | cons c more ih =>
    have hbefore : ∀ c' ∈ chunks, c'.Disjoint c := fun c' hc' =>
      (List.pairwise_append.mp apart).2.2 c' hc' c List.mem_cons_self
    have hsplit : chunks ++ c :: more = (chunks ++ [c]) ++ more := by
      rw [List.append_assoc, List.singleton_append]
    rw [hsplit] at apart ⊢
    obtain ⟨mid, hupdate, hmid⟩ :=
      h.step (accepted c List.mem_cons_self) (safe c List.mem_cons_self) hbefore
    obtain ⟨sys', hrest, hdone⟩ := ih hmid (fun c' hc' => accepted c' (List.mem_cons_of_mem _ hc'))
      (fun c' hc' => safe c' (List.mem_cons_of_mem _ hc')) apart
    refine ⟨sys', ?_, hdone⟩
    rw [Ota.updates, List.foldlM_cons, hupdate]
    exact hrest

theorem bflbOtaStart_words {fileSize : Nat} {parmMemory handleMemory : Bool} {ret : Int}
    (idle : sys.otaParm = none)
    (start : bflbOtaStart sys fileSize parmMemory handleMemory = .ok (sys', ret))
    (hparm : sys'.otaParm = some parm) :
    parm.sectorErased = List.replicate sectorErasedWords 0 := by
  obtain ⟨-, -, hcases⟩ := bflbOtaStart_cases start
  rcases hcases with hsame | hnone | ⟨handle, ptFwEntry, -, -, -, hopened⟩
  · exact absurd ((hsame.trans idle).symm.trans hparm) (by simp)
  · exact absurd (hnone.symm.trans hparm) (by simp)
  · obtain ⟨⟩ := Option.some.inj (hopened.symm.trans hparm)
    rfl

/-- From every accepted start on, disjoint chunks that meet the condition, in any order,
leave exactly their bytes in the bank. -/
theorem assembled_of_safe {fileSize : Nat} {parmMemory handleMemory : Bool} {ret : Int}
    (idle : sys.otaParm = none)
    (start : bflbOtaStart sys fileSize parmMemory handleMemory = .ok (sys', ret))
    (hparm : sys'.otaParm = some parm) (chunks : List Chunk)
    (accepted : ∀ c ∈ chunks, Accepted parm c.filesize c.offset c.data)
    (apart : chunks.Pairwise Chunk.Disjoint) (safe : ∀ c ∈ chunks, SafeChunk sys' parm c) :
    ∃ sys'', updates sys' chunks = .ok sys'' ∧ Assembled sys' parm chunks sys'' := by
  cases chunks with
  | nil => exact ⟨sys', rfl, assembled_nil sys' parm⟩
  | cons c more =>
    have works := (safe c List.mem_cons_self).works
    have hstart := progress_start hparm (bflbOtaStart_words idle start hparm) works
    obtain ⟨sys'', hupdates, hdone⟩ := hstart.updates accepted safe apart
    exact ⟨sys'', hupdates, hdone.assembled⟩

/-- A session of 64 bytes that fills the second half first. -/
theorem assembled_out_of_order :
    ∃ sys sys',
      updates sys [⟨64, 32, [3, 4], false⟩, ⟨64, 0, [1, 2], true⟩] = .ok sys' ∧
      Assembled sys (fwParm 64) [⟨64, 32, [3, 4], false⟩, ⟨64, 0, [1, 2], true⟩] sys' := by
  obtain ⟨⟨sys, ret⟩, hstart, hflash, -, hparm⟩ := start_fwBoot2 (inSession_booted boot_fwTable)
    (show fwSys.otaParm = none from rfl) flashFwEntry_fwSys (show 64 ≤ _ by decide +kernel)
  have hworks : sys.flash.faults = [] := by
    rw [show sys.flash = fwSys.flash from hflash]
    rfl
  refine ⟨sys, assembled_of_safe rfl hstart hparm _ ?_ ?_ ?_⟩
  · unfold Accepted
    decide +kernel
  · unfold Chunk.Disjoint
    decide
  · intro c hc
    have hoffset : c.offset ≤ 32 ∧ c.data.length = 2 := by
      simp only [List.mem_cons, List.not_mem_nil, or_false] at hc
      rcases hc with rfl | rfl <;> decide
    exact ⟨hworks, by decide, by omega, by simp only [fwParm]; omega, by
      simp only [hosalOtaFileSizeMax]; omega⟩

/-! ## A bank behind the bitmap -/

/-- The firmware entry of a 4 MB board: banks of 2 MB and of 1.4 MB. -/
def largeEntry : PtTableEntryConfig :=
  ((((((Record.zero 36).put 3 blMtdPartitionNameFwDefault).putWord 12 4 0x10000).putWord 16 4
    0x210000).putWord 20 4 0x200000).putWord 24 4 0x168000)

def largeTable : PtTableStuffConfig :=
  sealTable ((((Record.zero 596).putWord 0 4 bflbPtMagicCode).put 16 largeEntry.bytes).putWord 6 2 1)

def largeBoot2 : Boot2PartitionTable := { partitionActiveIdx := .ptTableId0, table := largeTable }

theorem valid_largeTable : ptTableValid largeTable = true :=
  valid_sealTable (by decide) (by decide)

theorem largeTable_fw :
    ptTableGetActiveEntriesByName largeTable blMtdPartitionNameFwDefault = some largeEntry := by
  rw [ptTableGetActiveEntriesByName, largeTable, entries_sealTable]
  decide

def largeParm : BflbOtaParm :=
  { mtdHandle := { name := blMtdPartitionNameFwDefault, offset := 0x210000, size := 0x168000 }
    fileSize := 0x168000
    sectorErased := List.replicate sectorErasedWords 0 }

theorem bflbMtdOpen_largeBoot2 :
    bflbMtdOpen largeBoot2 true blMtdPartitionNameFwDefault true = .opened largeParm.mtdHandle := by
  have hmagic : largeBoot2.table.magicCode = bflbPtMagicCode := magicCode_of_valid valid_largeTable
  have hentry : ptTableGetActiveEntriesByName largeBoot2.table blMtdPartitionNameFwDefault =
      some largeEntry := largeTable_fw
  have haddr : bflbBoot2PartitionAddrInactive largeBoot2 blMtdPartitionNameFwDefault =
      .ok (0x210000, 0x168000) := by
    simp only [bflbBoot2PartitionAddrInactive, bflbBoot2PartitionAddr, hmagic, hentry, ne_eq,
      not_true_eq_false, if_false]
    decide
  unfold bflbMtdOpen
  rw [if_neg (by decide)]
  simp only [if_true, haddr]
  rfl

theorem start_largeBoot2 :
    ∃ sys, bflbOtaStart (Sys.boot (flashedMem largeTable) largeBoot2) 0x168000 true true =
      .ok (sys, 0) ∧ sys.otaParm = some largeParm := by
  have hactive : ptTableGetActivePartitionNeedLock (Flash.ofMem (flashedMem largeTable)) =
      .ptTableId0 := selectMem_flashedMem valid_largeTable
  have htable : readTable (Flash.ofMem (flashedMem largeTable)) .ptTableId0 = largeTable :=
    readTableMem_flashedMem
  have hsize : ¬ 0x168000 > largeEntry.maxLen (lnot largeEntry.activeIndex) := by decide
  unfold bflbOtaStart Sys.boot
  simp only [Option.isSome_none, Bool.false_eq_true, if_false, hactive, htable, largeTable_fw,
    bflbMtdOpen_largeBoot2]
  rw [if_neg (by decide), if_neg (by decide), if_neg hsize]
  exact ⟨_, rfl, rfl⟩

/-- An accepted image of 1.4 MB whose last part has no bits. -/
theorem chunk_behind_bitmap :
    ∃ sys, bflbOtaStart (Sys.boot (flashedMem largeTable) largeBoot2) 0x168000 true true =
        .ok (sys, 0) ∧
      sys.otaParm = some largeParm ∧ Accepted largeParm 0x168000 0x100000 [0] ∧
      updates sys [⟨0x168000, 0x100000, [0], false⟩] = .error .outOfBounds := by
  obtain ⟨sys, hstart, hparm⟩ := start_largeBoot2
  refine ⟨sys, hstart, hparm, by unfold Accepted; decide +kernel, ?_⟩
  have herase : ∀ flash, bflbOtaErase flash largeParm 0x100000 1 = .error .outOfBounds := by
    intro flash
    have hrange : (List.range (sub32 (add32 0x100000 1) 1 / 4096 + 1 - 0x100000 / 4096)).map
        (0x100000 / 4096 + ·) = [256] := by decide +kernel
    simp only [bflbOtaErase, hrange]
    rfl
  simp only [updates, List.foldlM_cons, bflbOtaUpdate, hparm, List.length_singleton]
  rw [if_neg (by decide +kernel), herase]
  rfl

end BouffaloSdk.Ota
