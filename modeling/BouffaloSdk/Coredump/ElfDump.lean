import BouffaloSdk.Coredump.ElfRuns
import Mathlib.Data.List.Pairwise

/-!
# When a dump is laid out as its headers say

The end hook's four writes complete the parts. A complete set of writes that
stays in the partition cannot have wrapped anywhere, so its offsets are those of
the slots; what is left to ask for is room for the headers, a header count that
fits its field, and data writes that succeed up to the last one.
-/

namespace BouffaloSdk.Coredump
open Kit Kit.Word

/-- The regions written are pairwise disjoint and inside the partition, and the
program headers tell, in file offsets, where the data writes went. -/
structure LaidOut (partition : CorePartition) (c : CoreBin) : Prop where
  inside : ∀ w ∈ c.written, partition.flashAddr ≤ w.start ∧
    w.start + w.length ≤ partition.flashAddr + partition.flashSize
  disjoint : c.written.Pairwise fun v w => Apart v.stretch w.stretch
  designates : ∀ i h, c.progHeaders[i]? = some h → ∃ w ∈ c.written, w.part = .sectionData i ∧
    w.start = add32 partition.flashAddr h.pOffset ∧ w.length = h.pFilesz

/-- The file of a run: every part is written, each to its slot. -/
structure Complete (flashAddr : Nat) (sections : List DumpSection) (c : CoreBin) : Prop where
  count : c.progHeaders.length = sections.length
  parts : c.written.map (·.part) = parts sections.length
  slots : ∀ w ∈ c.written, w.start = add32 flashAddr (slot (lens sections) w.part).1 ∧
    w.length = (slot (lens sections) w.part).2
  headers : ∀ i h, c.progHeaders[i]? = some h →
    add32 flashAddr h.pOffset = add32 flashAddr (slot (lens sections) (.sectionData i)).1 ∧
      h.pFilesz = (slot (lens sections) (.sectionData i)).2

theorem length_ehdr (num size : Nat) : (createElfHeader num size).toBytes.length = sizeofEhdr := by
  simp [Elf32Ehdr.toBytes, createElfHeader, sizeofEhdr]

theorem append_four {α : Type} (xs : List α) (a b c d : α) :
    xs ++ [a] ++ [b] ++ [c] ++ [d] = xs ++ [a, b, c, d] := by
  simp

theorem endHook_written (c : CoreBin) (flashAddr : Nat) :
    ∃ w₁ w₂ w₃ w₄ : Written, (coreBinEndHook c flashAddr).written = c.written ++ [w₁, w₂, w₃, w₄] ∧
      w₁.For .elfHeader flashAddr c.elfHeader.toBytes.length ∧
      w₂.For (.sectionHeader 0) (add32 flashAddr c.elfHeader.eShoff) sizeofShdr ∧
      w₃.For (.sectionHeader 1)
        (add32 (add32 flashAddr c.elfHeader.eShoff) c.elfHeader.eShentsize) sizeofShdr ∧
      w₄.For .sectionName (add32 flashAddr (add32 c.elfHeader.ePhoff
        (mul32 c.elfHeader.ePhnum c.elfHeader.ePhentsize))) symbolTableSize :=
  ⟨_, _, _, _, append_four _ _ _ _ _, ⟨rfl, rfl, rfl⟩, ⟨rfl, rfl, length_shdr _⟩,
    ⟨rfl, rfl, length_shdr _⟩, ⟨rfl, rfl, rfl⟩⟩

variable {flashAddr : Nat} {sections : List DumpSection} {c : CoreBin}

theorem Placed.complete (hp : Placed flashAddr sections sections.length c)
    (hflash : flashAddr < 2 ^ 32) : Complete flashAddr sections (coreBinEndHook c flashAddr) := by
  obtain ⟨w₁, w₂, w₃, w₄, hw, ⟨hp₁, hs₁, hl₁⟩, ⟨hp₂, hs₂, hl₂⟩, ⟨hp₃, hs₃, hl₃⟩, hp₄, hs₄, hl₄⟩ :=
    endHook_written c flashAddr
  have hshentsize : c.elfHeader.eShentsize = sizeofShdr := by
    rw [hp.header]
    rfl
  refine ⟨hp.count, ?_, ?_, hp.headers⟩
  · rw [hw, List.map_append, hp.parts]
    simp only [List.map_cons, List.map_nil, hp₁, hp₂, hp₃, hp₄, Coredump.parts]
  · intro w hmem
    rw [hw] at hmem
    simp only [List.mem_append, List.mem_cons, List.not_mem_nil, or_false] at hmem
    rcases hmem with hmem | rfl | rfl | rfl | rfl
    · exact hp.slots w hmem
    · rw [hp₁, hs₁, hl₁, hp.header]
      have hzero : add32 flashAddr 0 = flashAddr := add32_eq hflash
      exact ⟨hzero.symm, length_ehdr _ _⟩
    · rw [hp₂, hs₂, hl₂, hp.header, add32_shoff, slot, length_lens]
      exact ⟨rfl, rfl⟩
    · rw [hp₃, hs₃, hl₃, hshentsize, hp.header, add32_shoff, add32_assoc, slot, length_lens,
        Nat.mul_one]
      exact ⟨rfl, rfl⟩
    · rw [hp₄, hs₄, hl₄, hp.header, nameOffset_eq]
      exact ⟨rfl, rfl⟩

/-- What the run finds for a list of sections to dump. -/
def Fits (sections : List DumpSection) (size : Nat) : Prop :=
  fileSize (lens sections) ≤ size ∧ sections.length < 2 ^ 16

theorem slot_pos (hpos : ∀ s ∈ sections, 0 < s.len.toNat) {p : Part}
    (hp : p.Valid sections.length) : 0 < (slot (lens sections) p).2 := by
  cases p with
  | sectionData i =>
    obtain ⟨s, hs⟩ : ∃ s, sections[i]? = some s := ⟨_, List.getElem?_eq_getElem hp⟩
    rw [slot_data hs]
    exact hpos s (List.mem_of_getElem? hs)
  | _ => simp [slot, sizeofEhdr, sizeofPhdr, sizeofShdr, symbolTableSize]

theorem Complete.valid (h : Complete flashAddr sections c) {w : Written} (hw : w ∈ c.written) :
    w.part.Valid sections.length :=
  valid_of_mem_parts (h.parts ▸ List.mem_map_of_mem hw)

theorem Complete.exists_mem (h : Complete flashAddr sections c) {p : Part}
    (hp : p.Valid sections.length) :
    ∃ w ∈ c.written, w.part = p ∧ w.start = add32 flashAddr (slot (lens sections) p).1 ∧
      w.length = (slot (lens sections) p).2 := by
  have hmem := mem_parts_of_valid hp
  rw [← h.parts] at hmem
  obtain ⟨w, hw, rfl⟩ := List.mem_map.mp hmem
  exact ⟨w, hw, rfl, h.slots w hw⟩

theorem Complete.designates (h : Complete flashAddr sections c) (i : Nat) (hdr : Elf32Phdr)
    (hi : c.progHeaders[i]? = some hdr) :
    ∃ w ∈ c.written, w.part = .sectionData i ∧ w.start = add32 flashAddr hdr.pOffset ∧
      w.length = hdr.pFilesz := by
  have hlt : i < sections.length := h.count ▸ (List.getElem?_eq_some_iff.mp hi).1
  obtain ⟨hoff, hsize⟩ := h.headers i hdr hi
  obtain ⟨w, hw, hpart, hstart, hlen⟩ := h.exists_mem (p := .sectionData i) hlt
  exact ⟨w, hw, hpart, hstart.trans hoff.symm, hlen.trans hsize.symm⟩

theorem Complete.laidOut {partition : CorePartition}
    (h : Complete partition.flashAddr sections c) (hfits : Fits sections partition.flashSize)
    (hpos : ∀ s ∈ sections, 0 < s.len.toNat) : LaidOut partition c := by
  have h16 : (lens sections).length < 2 ^ 16 := by
    rw [length_lens]
    exact hfits.2
  have hflash := partition.in_flash
  have hstart : ∀ w ∈ c.written, w.start = partition.flashAddr + (slot (lens sections) w.part).1 ∧
      w.length = (slot (lens sections) w.part).2 ∧
      (slot (lens sections) w.part).1 + w.length ≤ partition.flashSize := by
    intro w hw
    have hvalid := h.valid hw
    obtain ⟨hs, hl⟩ := h.slots w hw
    have hle := (slot_le_fileSize h16 (by rw [length_lens]; exact hvalid)).trans hfits.1
    have hone := slot_pos hpos hvalid
    exact ⟨by rw [hs, add32_eq (by omega)], hl, by rw [hl]; exact hle⟩
  refine ⟨?_, ?_, h.designates⟩
  · intro w hw
    obtain ⟨hs, -, hle⟩ := hstart w hw
    omega
  · have hnodup := nodup_parts sections.length
    rw [← h.parts, List.Nodup, List.pairwise_map] at hnodup
    refine hnodup.imp_of_mem fun {v w} hv hw hne => ?_
    obtain ⟨hsv, hlv, -⟩ := hstart v hv
    obtain ⟨hsw, hlw, -⟩ := hstart w hw
    have hapart := slot_apart h16 (by rw [length_lens]; exact h.valid hv)
      (by rw [length_lens]; exact h.valid hw) hne
    simp only [Apart, Written.stretch, hsv, hsw, hlv, hlw] at hapart ⊢
    omega

/-! ## Back from the layout -/

/-- A stretch inside the partition whose offset has not wrapped ends inside it. -/
theorem offset_le {partition : CorePartition} {off len : Nat} (hoff : off < 2 ^ 32)
    (hlow : partition.flashAddr ≤ add32 partition.flashAddr off)
    (hhigh : add32 partition.flashAddr off + len ≤ partition.flashAddr + partition.flashSize) :
    off + len ≤ partition.flashSize := by
  have hflash := partition.in_flash
  by_cases hwrap : partition.flashAddr + off < 2 ^ 32
  · rw [add32_eq hwrap] at hhigh
    omega
  · have hback : add32 partition.flashAddr off = partition.flashAddr + off - 2 ^ 32 := by
      unfold add32
      rw [Nat.mod_eq_sub_mod (by omega), Nat.mod_eq_of_lt (by omega)]
    omega

/-- Parts that follow each other without a gap end inside the partition. -/
theorem Complete.run_le {partition : CorePartition}
    (h : Complete partition.flashAddr sections c) (hlaid : LaidOut partition c) (f : Nat → Part)
    (m : Nat) (hvalid : ∀ i < m, (f i).Valid sections.length)
    (hfirst : (slot (lens sections) (f 0)).1 < 2 ^ 32)
    (hnext : ∀ i, (slot (lens sections) (f (i + 1))).1 =
      (slot (lens sections) (f i)).1 + (slot (lens sections) (f i)).2) :
    ∀ i < m, (slot (lens sections) (f i)).1 + (slot (lens sections) (f i)).2 ≤
      partition.flashSize := by
  have hfits : ∀ i < m, (slot (lens sections) (f i)).1 < 2 ^ 32 →
      (slot (lens sections) (f i)).1 + (slot (lens sections) (f i)).2 ≤ partition.flashSize := by
    intro i hi hoff
    obtain ⟨w, hw, -, hstart, hlen⟩ := h.exists_mem (hvalid i hi)
    obtain ⟨hlow, hhigh⟩ := hlaid.inside w hw
    rw [hstart, hlen] at hhigh
    rw [hstart] at hlow
    exact offset_le hoff hlow hhigh
  have hsize := partition.size_lt
  intro i
  induction i with
  | zero => exact fun hi => hfits 0 hi hfirst
  | succ i ih =>
    intro hi
    have hprev := ih (by omega)
    exact hfits _ hi (by rw [hnext]; omega)

theorem Complete.few {partition : CorePartition} (h : Complete partition.flashAddr sections c)
    (hlaid : LaidOut partition c) : sections.length < 2 ^ 16 := by
  by_contra hmany
  have hlt : sections.length % 2 ^ 16 < 2 ^ 16 := Nat.mod_lt _ (by decide)
  obtain ⟨v, hv, hvp, hvs, hvl⟩ := h.exists_mem (p := .progHeader (sections.length % 2 ^ 16))
    (show sections.length % 2 ^ 16 < sections.length by omega)
  obtain ⟨w, hw, hwp, hws, hwl⟩ := h.exists_mem (p := .sectionName) trivial
  have hne : v ≠ w := by
    rintro rfl
    rw [hvp] at hwp
    cases hwp
  have : Std.Symm fun v w : Written => Apart v.stretch w.stretch := ⟨fun _ _ => Apart.symm⟩
  have hapart : Apart v.stretch w.stretch := hlaid.disjoint.forall hv hw hne
  simp only [slot, headersSize, length_lens] at hvs hvl hws hwl
  simp only [Apart, Written.stretch, hvs, hws, hvl, hwl, sizeofPhdr, symbolTableSize] at hapart
  omega

theorem Complete.fits {partition : CorePartition} (h : Complete partition.flashAddr sections c)
    (hlaid : LaidOut partition c) : Fits sections partition.flashSize := by
  have h16 := h.few hlaid
  have hmod : sections.length % 2 ^ 16 = sections.length := Nat.mod_eq_of_lt h16
  have hsize := partition.size_lt
  refine ⟨?_, h16⟩
  -- the data end inside the partition, so the section headers begin there
  have hdata : sizeofEhdr + sizeofPhdr * sections.length + symbolTableSize +
      (lens sections).sum < 2 ^ 32 := by
    rcases Nat.eq_zero_or_pos sections.length with hnone | hsome
    · have hnil : sections = [] := List.eq_nil_of_length_eq_zero hnone
      subst hnil
      decide
    · have hfirst : (slot (lens sections) (.sectionData 0)).1 < 2 ^ 32 := by
        simp only [slot, headersSize, length_lens, List.take_zero, List.sum_nil, hmod, sizeofEhdr,
          sizeofPhdr, symbolTableSize]
        omega
      have hlast := h.run_le hlaid .sectionData sections.length (fun i hi => hi) hfirst
        (slot_data_succ _) (sections.length - 1) (by omega)
      have hpred : sections.length - 1 + 1 = sections.length := by omega
      have hall : (lens sections).take sections.length = lens sections := by
        rw [← length_lens, List.take_length]
      rw [← slot_data_succ, hpred] at hlast
      simp only [slot, headersSize, length_lens, hmod, hall] at hlast
      omega
  have hend := h.run_le hlaid .sectionHeader (sections.length + 2) (fun i hi => hi)
    (by simpa only [slot, length_lens, Nat.mul_zero, Nat.add_zero] using hdata)
    (slot_sectionHeader_succ _) (sections.length + 1) (by omega)
  simp only [slot, length_lens, sizeofShdr] at hend
  simp only [fileSize, length_lens, sizeofShdr]
  omega

/-! ## Whole runs -/

theorem written_endHook (c : CoreBin) (flashAddr : Nat) :
    c.written <+: (coreBinEndHook c flashAddr).written := by
  obtain ⟨w₁, w₂, w₃, w₄, hw, -⟩ := endHook_written c flashAddr
  exact hw ▸ List.prefix_append _ _

theorem endHook_dataWritten (n : Nat) (c : CoreBin) (flashAddr : Nat) :
    DataWritten n (coreBinEndHook c flashAddr).written ↔ DataWritten n c.written := by
  obtain ⟨w₁, w₂, w₃, w₄, hw, ⟨hp₁, -⟩, ⟨hp₂, -⟩, ⟨hp₃, -⟩, ⟨hp₄, -⟩⟩ :=
    endHook_written c flashAddr
  rw [hw]
  constructor
  · exact fun h w hmem => h w (List.mem_append_left _ hmem)
  · intro h w hmem i hi
    simp only [List.mem_append, List.mem_cons, List.not_mem_nil, or_false] at hmem
    rcases hmem with hmem | rfl | rfl | rfl | rfl
    · exact h w hmem i hi
    · rw [hp₁] at hi
      cases hi
    · rw [hp₂] at hi
      cases hi
    · rw [hp₃] at hi
      cases hi
    · rw [hp₄] at hi
      cases hi

/-- A dump that starts is laid out as its headers say exactly if the file fits
the partition, its sections fit the 16-bit count, and every data write but the
last one succeeds. -/
theorem laidOut_iff (flash : Flash) (partition : CorePartition) (mem : Nat → UInt8)
    (table : List DumpSection) (c : CoreBin)
    (hrun : blCoredumpRun flash partition mem table = some c) :
    LaidOut partition c ↔
      Fits (dumped table) partition.flashSize ∧ DataWritten (dumped table).length c.written := by
  have hpos : ∀ s ∈ dumped table, 0 < s.len.toNat := fun s hs => len_pos_of_mem_dumped hs
  unfold blCoredumpRun at hrun
  dsimp only at hrun
  split at hrun
  · cases hrun
  rw [Option.some.injEq] at hrun
  obtain ⟨hstart, hlma⟩ := startHook_placed
    (bflbFlashErase flash partition.flashAddr partition.flashSize).1 partition.flashAddr table
  rw [dumpSections_eq] at hrun
  subst hrun
  rw [endHook_dataWritten]
  constructor
  · intro hlaid
    have hpre := List.Pairwise.sublist
      (written_endHook _ partition.flashAddr).sublist hlaid.disjoint
    have hdata := dataWritten_of_apart mem (List.drop_zero) hstart.count hpos
      (fun w hw => absurd hw List.not_mem_nil) hpre
    have hplaced := dumpAll_placed mem hstart (fun _ => hlma) List.drop_zero (Nat.zero_le _) hdata
    exact ⟨(hplaced.complete partition.addr_lt).fits hlaid, hdata⟩
  · rintro ⟨hfits, hdata⟩
    have hplaced := dumpAll_placed mem hstart (fun _ => hlma) List.drop_zero (Nat.zero_le _) hdata
    exact (hplaced.complete partition.addr_lt).laidOut hfits hpos

def smallPartition : CorePartition := ⟨0x100000, 0x2000, by decide, by decide, by decide⟩

def twoSections : List DumpSection := [⟨0x20000000, 4⟩, ⟨0x20001000, 0⟩, ⟨0x20002000, 4⟩, ⟨0, 0⟩]

theorem laidOut_two_sections :
    ∃ c, blCoredumpRun (Flash.ofMem fun _ => 0xFF) smallPartition (fun _ => 0) twoSections =
        some c ∧
      (LaidOut smallPartition c ↔ Fits (dumped twoSections) smallPartition.flashSize ∧
        DataWritten (dumped twoSections).length c.written) := by
  have hstarts : (blCoredumpRun (Flash.ofMem fun _ => 0xFF) smallPartition (fun _ => 0)
      twoSections).isSome := by decide +kernel
  obtain ⟨c, hc⟩ := Option.isSome_iff_exists.mp hstarts
  exact ⟨c, hc, laidOut_iff _ _ _ _ c hc⟩

/-- The first data write fails: the second section's data go to the place that the
first header names. -/
theorem failed_write_not_laidOut :
    ∃ c, blCoredumpRun ⟨fun _ => 0xFF, [0, 0, 0, 0, 1], []⟩ smallPartition (fun _ => 0)
        twoSections = some c ∧ ¬ LaidOut smallPartition c := by
  have hwritten : (blCoredumpRun ⟨fun _ => 0xFF, [0, 0, 0, 0, 1], []⟩ smallPartition (fun _ => 0)
      twoSections).map (·.written.map Written.stretch) =
      some [(0x100034, 32), (0x1000D4, 40), (0x10007C, 4), (0x100054, 32), (0x1000FC, 40),
        (0x10007C, 4), (0x100000, 52), (0x100084, 40), (0x1000AC, 40), (0x100074, 8)] := by
    decide +kernel
  obtain ⟨c, hc, hstretch⟩ := Option.map_eq_some_iff.mp hwritten
  refine ⟨c, hc, fun h => ?_⟩
  have hdisjoint : (c.written.map Written.stretch).Pairwise Apart :=
    List.pairwise_map.mpr h.disjoint
  rw [hstretch] at hdisjoint
  exact absurd hdisjoint (by decide)

end BouffaloSdk.Coredump
