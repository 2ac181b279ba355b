import BouffaloSdk.Coredump.ElfLayout

/-!
# The writes of a dump

What one section adds to the writes, and from it, by induction over the
sections, where all writes of a run go.
-/

namespace BouffaloSdk.Coredump
open Kit Kit.Word

/-! ## The loops over the table -/

theorem lens_cons (s : DumpSection) (sections : List DumpSection) :
    lens (s :: sections) = s.len.toNat :: lens sections := rfl

theorem countSections_eq (table : List DumpSection) :
    countSections table =
      ((dumped table).length % 2 ^ 32, (lens (dumped table)).sum % 2 ^ 32) := by
  induction table with
  | nil => rfl
  | cons s table ih =>
    unfold countSections dumped
    split
    · rfl
    · split
      · rfl
      · split
        · exact ih
        · rw [ih]
          refine Prod.ext ?_ ?_ <;> dsimp only
          · rw [add32_mod_left, List.length_cons, add32]
          · rw [add32_mod_right, lens_cons, List.sum_cons, add32]

theorem len_pos_of_mem_dumped {table : List DumpSection} {s : DumpSection}
    (h : s ∈ dumped table) : 0 < s.len.toNat := by
  induction table with
  | nil => exact absurd h List.not_mem_nil
  | cons t table ih =>
    unfold dumped at h
    split at h
    · exact absurd h List.not_mem_nil
    · split at h
      · exact absurd h List.not_mem_nil
      · split at h
        · exact ih h
        · rename_i hlen
          rcases List.mem_cons.mp h with rfl | h
          · refine Nat.pos_of_ne_zero fun h0 => hlen ?_
            exact UInt32.toNat_inj.mp h0
          · exact ih h

/-- The section hook for each section in turn. -/
def dumpAll (c : CoreBin) (mem : Nat → UInt8) (lma : Nat) : List DumpSection → CoreBin
  | [] => c
  | s :: sections =>
    dumpAll (coreBinSectionsHook c mem lma s).1 mem (coreBinSectionsHook c mem lma s).2 sections

theorem dumpSections_eq (c : CoreBin) (mem : Nat → UInt8) (lma : Nat) (table : List DumpSection) :
    dumpSections c mem lma table = dumpAll c mem lma (dumped table) := by
  induction table generalizing c lma with
  | nil => rfl
  | cons s table ih =>
    unfold dumpSections dumped
    split
    · rfl
    · split
      · rfl
      · split
        · exact ih c lma
        · exact ih _ _

/-! ## One section -/

@[simp] theorem length_phdr (h : Elf32Phdr) : h.toBytes.length = sizeofPhdr := by
  simp [Elf32Phdr.toBytes, sizeofPhdr]

@[simp] theorem length_shdr (h : Elf32Shdr) : h.toBytes.length = sizeofShdr := by
  simp [Elf32Shdr.toBytes, sizeofShdr]

/-- The write is the one of `part`, `length` bytes at `start`. -/
def Written.For (w : Written) (part : Part) (start length : Nat) : Prop :=
  w.part = part ∧ w.start = start ∧ w.length = length

theorem append_three {α : Type} (xs : List α) (a b c : α) :
    xs ++ [a] ++ [b] ++ [c] = xs ++ [a, b, c] := by
  simp

/-- What a section adds: two headers at the places of its number, and its data
where the previous data ended; the end is passed on unless the write failed. -/
structure Added (c : CoreBin) (lma : Nat) (s : DumpSection) (c' : CoreBin) (lma' : Nat) : Prop where
  header : c'.elfHeader = c.elfHeader
  start : c'.flashAddrStart = c.flashAddrStart
  offset : c'.offsetLen = add32 c.offsetLen s.len.toNat
  number : c'.segNum = add32 c.segNum 1
  progHeaders : c'.progHeaders =
    c.progHeaders ++ [(createElfSection c.elfHeader s.addr.toNat s.len.toNat c.offsetLen).1]
  written : ∃ w₁ w₂ w₃ : Written, c'.written = c.written ++ [w₁, w₂, w₃] ∧
    w₁.For (.progHeader c.progHeaders.length) (add32 (add32 c.flashAddrStart c.elfHeader.ePhoff)
      (mul32 c.segNum c.elfHeader.ePhentsize)) sizeofPhdr ∧
    w₂.For (.sectionHeader (c.progHeaders.length + 2))
      (add32 (add32 c.flashAddrStart c.elfHeader.eShoff)
        (mul32 (add32 c.segNum 2) c.elfHeader.eShentsize)) sizeofShdr ∧
    w₃.For (.sectionData c.progHeaders.length) lma s.len.toNat ∧
    lma' = if w₃.ret = 0 then add32 lma s.len.toNat else lma

theorem sectionsHook_added (c : CoreBin) (mem : Nat → UInt8) (lma : Nat) (s : DumpSection) :
    Added c lma s (coreBinSectionsHook c mem lma s).1 (coreBinSectionsHook c mem lma s).2 := by
  refine ⟨rfl, rfl, rfl, rfl, rfl, ?_⟩
  refine ⟨_, _, _, append_three _ _ _ _, ⟨rfl, rfl, length_phdr _⟩, ⟨rfl, rfl, length_shdr _⟩,
    ⟨rfl, rfl, ?_⟩, rfl⟩
  rw [List.length_map, List.length_range]

/-! ## All sections -/

def startHeader (sections : List DumpSection) : Elf32Ehdr :=
  createElfHeader (sections.length % 2 ^ 32) ((lens sections).sum % 2 ^ 32)

theorem length_lens (sections : List DumpSection) : (lens sections).length = sections.length :=
  List.length_map _

theorem nameOffset_eq (sections : List DumpSection) :
    add32 (startHeader sections).ePhoff
      (mul32 (startHeader sections).ePhnum (startHeader sections).ePhentsize) =
      headersSize (lens sections) := by
  have hnum : sections.length % 2 ^ 32 % 2 ^ 16 = sections.length % 2 ^ 16 :=
    Nat.mod_mod_of_dvd _ (by decide)
  have hlt : sections.length % 2 ^ 16 < 65536 := Nat.mod_lt _ (by decide)
  simp only [startHeader, createElfHeader, hnum, headersSize, length_lens, sizeofPhdr, sizeofEhdr]
  generalize sections.length % 2 ^ 16 = m at hlt ⊢
  rw [mul32_eq (by omega), add32_eq (by omega), Nat.mul_comm]

theorem dataOffset_eq (sections : List DumpSection) :
    (startHeader sections).dataOffset = headersSize (lens sections) + symbolTableSize := by
  have hlt : (lens sections).length % 2 ^ 16 < 65536 := Nat.mod_lt _ (by decide)
  rw [Elf32Ehdr.dataOffset, nameOffset_eq, headersSize, sizeofEhdr, sizeofPhdr, symbolTableSize]
  generalize (lens sections).length % 2 ^ 16 = m at hlt ⊢
  exact add32_eq (by omega)

theorem add32_shoff (sections : List DumpSection) (a : Nat) :
    add32 a (startHeader sections).eShoff =
      add32 a (sizeofEhdr + sizeofPhdr * sections.length + symbolTableSize +
        (lens sections).sum) := by
  simp only [startHeader, createElfHeader, mul32_mod_left, add32_mod_right, add32_mul32, add32_assoc,
    add32_add32, Nat.mul_comm sections.length, Nat.add_assoc]

/-- `k` sections are written, each part to its slot. -/
structure Placed (flashAddr : Nat) (sections : List DumpSection) (k : Nat) (c : CoreBin) : Prop where
  header : c.elfHeader = startHeader sections
  start : c.flashAddrStart = flashAddr
  offset : c.offsetLen = ((lens sections).take k).sum % 2 ^ 32
  number : c.segNum = k % 2 ^ 32
  count : c.progHeaders.length = k
  parts : c.written.map (·.part) = sectionParts k
  slots : ∀ w ∈ c.written, w.start = add32 flashAddr (slot (lens sections) w.part).1 ∧
    w.length = (slot (lens sections) w.part).2
  headers : ∀ i h, c.progHeaders[i]? = some h →
    add32 flashAddr h.pOffset = add32 flashAddr (slot (lens sections) (.sectionData i)).1 ∧
      h.pFilesz = (slot (lens sections) (.sectionData i)).2

/-- Where the data of section `k` belong; for the number of sections, their end. -/
def dataAt (flashAddr : Nat) (sections : List DumpSection) (k : Nat) : Nat :=
  add32 flashAddr (slot (lens sections) (.sectionData k)).1

variable {flashAddr k lma lma' : Nat} {sections : List DumpSection} {c c' : CoreBin}
  {s : DumpSection} {rest : List DumpSection}

theorem sum_take_succ (h : sections[k]? = some s) :
    ((lens sections).take (k + 1)).sum = ((lens sections).take k).sum + s.len.toNat := by
  have hk : (lens sections)[k]? = some s.len.toNat := by
    rw [lens, List.getElem?_map, h, Option.map_some]
  rw [List.take_add_one, hk, Option.toList_some, List.sum_append, List.sum_singleton]

theorem slot_data (h : sections[k]? = some s) :
    (slot (lens sections) (.sectionData k)).2 = s.len.toNat := by
  rw [slot, lens, List.getElem?_map, h]
  rfl

theorem dataAt_succ (h : sections[k]? = some s) :
    add32 (dataAt flashAddr sections k) s.len.toNat = dataAt flashAddr sections (k + 1) := by
  simp only [dataAt, slot, sum_take_succ h, add32_assoc, Nat.add_assoc]

theorem Placed.add (hp : Placed flashAddr sections k c) (hs : sections[k]? = some s)
    (hlma : lma = dataAt flashAddr sections k) (ha : Added c lma s c' lma') :
    Placed flashAddr sections (k + 1) c' := by
  obtain ⟨w₁, w₂, w₃, hw, h₁, h₂, h₃, -⟩ := ha.written
  rw [hp.count, hp.header, hp.start, hp.number] at h₁ h₂
  rw [hp.count] at h₃
  obtain ⟨hpart₁, hstart₁, hlen₁⟩ := h₁
  obtain ⟨hpart₂, hstart₂, hlen₂⟩ := h₂
  obtain ⟨hpart₃, hstart₃, hlen₃⟩ := h₃
  refine ⟨ha.header.trans hp.header, ha.start.trans hp.start, ?_, ?_, ?_, ?_, ?_, ?_⟩
  · rw [ha.offset, hp.offset, sum_take_succ hs, add32_mod_left, add32]
  · rw [ha.number, hp.number, add32_mod_left, add32]
  · rw [ha.progHeaders, List.length_append, hp.count, List.length_singleton]
  · rw [hw, List.map_append, hp.parts, sectionParts, sectionParts, List.range_succ,
      List.flatMap_append]
    simp only [List.map_cons, List.map_nil, hpart₁, hpart₂, hpart₃, List.flatMap_cons,
      List.flatMap_nil, List.append_nil]
  · intro w hmem
    rw [hw] at hmem
    simp only [List.mem_append, List.mem_cons, List.not_mem_nil, or_false] at hmem
    rcases hmem with hmem | rfl | rfl | rfl
    · exact hp.slots w hmem
    · rw [hpart₁, hstart₁, hlen₁]
      refine ⟨?_, rfl⟩
      simp only [slot, startHeader, createElfHeader, mul32_mod_left, add32_mul32, add32_assoc,
        Nat.mul_comm k]
    · rw [hpart₂, hstart₂, hlen₂]
      refine ⟨?_, rfl⟩
      have hsize : (startHeader sections).eShentsize = sizeofShdr := rfl
      rw [add32_shoff, hsize, add32_mod_left, mul32_add32, add32_mul32, add32_assoc, slot,
        length_lens, Nat.mul_comm (k + 2)]
    · rw [hpart₃, hstart₃, hlen₃, slot_data hs]
      exact ⟨hlma, rfl⟩
  · intro i h hi
    rw [ha.progHeaders, List.getElem?_append, hp.count] at hi
    split at hi
    · exact hp.headers i h hi
    · have hik : i = k := by
        have := (List.getElem?_eq_some_iff.mp hi).1
        rw [List.length_singleton] at this
        omega
      subst hik
      simp only [Nat.sub_self, List.getElem?_cons_zero, Option.some.injEq] at hi
      subst hi
      have hoff : (createElfSection c.elfHeader s.addr.toNat s.len.toNat c.offsetLen).1.pOffset =
          add32 c.elfHeader.dataOffset c.offsetLen := rfl
      refine ⟨?_, (slot_data hs).symm⟩
      rw [hoff, hp.header, hp.offset, dataOffset_eq, add32_mod_right, add32_add32, slot]

theorem startHook_placed (flash : Flash) (flashAddr : Nat) (table : List DumpSection) :
    Placed flashAddr (dumped table) 0 (coreBinStartHook flash flashAddr table).1 ∧
      (coreBinStartHook flash flashAddr table).2 = dataAt flashAddr (dumped table) 0 := by
  have hheader : (coreBinStartHook flash flashAddr table).1.elfHeader =
      startHeader (dumped table) := by
    have hnum : (countSections table).1 = (dumped table).length % 2 ^ 32 :=
      congrArg Prod.fst (countSections_eq table)
    have hsize : (countSections table).2 = (lens (dumped table)).sum % 2 ^ 32 :=
      congrArg Prod.snd (countSections_eq table)
    rw [startHeader, ← hnum, ← hsize]
    rfl
  refine ⟨⟨hheader, rfl, rfl, rfl, rfl, rfl, fun w hw => absurd hw List.not_mem_nil,
    fun i h hi => by cases hi⟩, ?_⟩
  have hlma : (coreBinStartHook flash flashAddr table).2 =
      add32 flashAddr (coreBinStartHook flash flashAddr table).1.elfHeader.dataOffset := rfl
  rw [hlma, hheader, dataOffset_eq]
  rfl

theorem dumpAll_written (mem : Nat → UInt8) (c : CoreBin) (lma : Nat)
    (sections : List DumpSection) : c.written <+: (dumpAll c mem lma sections).written := by
  induction sections generalizing c lma with
  | nil => exact List.prefix_refl _
  | cons s sections ih =>
    obtain ⟨w₁, w₂, w₃, hw, -⟩ := (sectionsHook_added c mem lma s).written
    exact (hw ▸ List.prefix_append _ _).trans (ih _ _)

/-- Every data write but the last one succeeds. -/
def DataWritten (n : Nat) (written : List Written) : Prop :=
  ∀ w ∈ written, ∀ i, w.part = .sectionData i → i + 1 < n → w.ret = 0

theorem getElem?_of_drop (h : sections.drop k = s :: rest) : sections[k]? = some s := by
  have := congrArg (·[0]?) h
  simpa only [List.getElem?_drop, Nat.add_zero, List.getElem?_cons_zero] using this

theorem drop_succ_of_drop (h : sections.drop k = s :: rest) : sections.drop (k + 1) = rest := by
  rw [← List.drop_drop, h, List.drop_succ_cons, List.drop_zero]

theorem length_of_drop (h : sections.drop k = s :: rest) :
    k + (rest.length + 1) = sections.length := by
  have := congrArg List.length h
  rw [List.length_drop, List.length_cons] at this
  omega

theorem dumpAll_placed (mem : Nat → UInt8) (hp : Placed flashAddr sections k c)
    (hlma : rest ≠ [] → lma = dataAt flashAddr sections k) (hrest : sections.drop k = rest)
    (hk : k ≤ sections.length)
    (hdata : DataWritten sections.length (dumpAll c mem lma rest).written) :
    Placed flashAddr sections sections.length (dumpAll c mem lma rest) := by
  induction rest generalizing k c lma with
  | nil =>
    have hend : k = sections.length := by
      have := congrArg List.length hrest
      rw [List.length_drop, List.length_nil] at this
      omega
    exact hend ▸ hp
  | cons s rest ih =>
    have hadded := sectionsHook_added c mem lma s
    have hnext := hp.add (getElem?_of_drop hrest) (hlma (List.cons_ne_nil _ _)) hadded
    have hlen := length_of_drop hrest
    refine ih hnext ?_ (drop_succ_of_drop hrest) (by omega) hdata
    intro hmore
    obtain ⟨w₁, w₂, w₃, hw, -, -, h₃, hlma'⟩ := hadded.written
    have hret : w₃.ret = 0 := by
      have hmem : w₃ ∈ (dumpAll c mem lma (s :: rest)).written :=
        (dumpAll_written mem _ _ rest).subset (by rw [hw]; simp)
      have hpos := List.length_pos_iff.mpr hmore
      exact hdata w₃ hmem _ h₃.1 (by rw [hp.count]; omega)
    rw [hlma', if_pos hret, hlma (List.cons_ne_nil _ _)]
    exact dataAt_succ (getElem?_of_drop hrest)

def Written.stretch (w : Written) : Nat × Nat := (w.start, w.length)

/-- A failed data write followed by another one: both go to the same place. -/
theorem dataWritten_of_apart (mem : Nat → UInt8) (hrest : sections.drop k = rest)
    (hcount : c.progHeaders.length = k) (hpos : ∀ s ∈ sections, 0 < s.len.toNat)
    (hbefore : ∀ w ∈ c.written, ∀ i, w.part = .sectionData i → w.ret = 0)
    (hapart : (dumpAll c mem lma rest).written.Pairwise fun v w => Apart v.stretch w.stretch) :
    DataWritten sections.length (dumpAll c mem lma rest).written := by
  induction rest generalizing k c lma with
  | nil => exact fun w hw i hi _ => hbefore w hw i hi
  | cons s rest ih =>
    have hadded := sectionsHook_added c mem lma s
    obtain ⟨w₁, w₂, w₃, hw, h₁, h₂, h₃, hlma'⟩ := hadded.written
    have hlen := length_of_drop hrest
    by_cases hret : w₃.ret = 0
    · refine ih (drop_succ_of_drop hrest) ?_ ?_ hapart
      · rw [hadded.progHeaders, List.length_append, hcount, List.length_singleton]
      · intro w hmem i hi
        rw [hw] at hmem
        simp only [List.mem_append, List.mem_cons, List.not_mem_nil, or_false] at hmem
        rcases hmem with hmem | rfl | rfl | rfl
        · exact hbefore w hmem i hi
        · rw [h₁.1] at hi
          cases hi
        · rw [h₂.1] at hi
          cases hi
        · exact hret
    · cases rest with
      | nil =>
        -- the last section: its failure moves nothing
        intro w hmem i hi hlast
        have hmem' : w ∈ (coreBinSectionsHook c mem lma s).1.written := hmem
        rw [hw] at hmem'
        simp only [List.mem_append, List.mem_cons, List.not_mem_nil, or_false] at hmem'
        rcases hmem' with hmem' | rfl | rfl | rfl
        · exact hbefore w hmem' i hi
        · rw [h₁.1] at hi
          cases hi
        · rw [h₂.1] at hi
          cases hi
        · rw [h₃.1] at hi
          cases hi
          rw [List.length_nil] at hlen
          omega
      | cons s' rest =>
        exfalso
        have hagain := sectionsHook_added (coreBinSectionsHook c mem lma s).1 mem
          (coreBinSectionsHook c mem lma s).2 s'
        obtain ⟨v₁, v₂, v₃, hv, -, -, hv₃, -⟩ := hagain.written
        have hsame : (coreBinSectionsHook c mem lma s).2 = lma := by rw [hlma', if_neg hret]
        have hsub : [w₃, v₃].Sublist (dumpAll c mem lma (s :: s' :: rest)).written := by
          refine List.Sublist.trans ?_ (dumpAll_written mem _ _ rest).sublist
          rw [hv, hw]
          exact (List.singleton_sublist.mpr (by simp)).append (List.singleton_sublist.mpr (by simp))
        have hmeet := List.pairwise_pair.mp (hapart.sublist hsub)
        have hw₃ : w₃.stretch = (lma, s.len.toNat) := Prod.ext h₃.2.1 h₃.2.2
        have hv₃ : v₃.stretch = (lma, s'.len.toNat) := Prod.ext (hv₃.2.1.trans hsame) hv₃.2.2
        have hs := hpos s (List.mem_of_getElem? (getElem?_of_drop hrest))
        have hs' := hpos s' (List.mem_of_getElem? (getElem?_of_drop (drop_succ_of_drop hrest)))
        rw [hw₃, hv₃, Apart] at hmeet
        omega

end BouffaloSdk.Coredump
