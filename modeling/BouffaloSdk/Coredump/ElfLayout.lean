import BouffaloSdk.Coredump.BinFmtV2
import Mathlib.Data.List.Nodup

/-!
# The layout of the dump file

Every part of the file has a slot, an offset and a length fixed by the lengths
of the dumped sections. As long as the data writes succeed each write goes to
its part's slot; slots of different parts meet only if the headers are too many
for the 16-bit count. A failed data write is not made up for: the next one goes
to the same place.
-/

namespace BouffaloSdk.Coredump
open Kit Kit.Word

/-! ## Slots -/

/-- The sections that the loops act on. -/
def dumped : List DumpSection → List DumpSection
  | [] => []
  | s :: table =>
    if s.addr = endAddr then []
    else if s.addr = 0 then []
    else if s.len = 0 then dumped table
    else s :: dumped table

def lens (sections : List DumpSection) : List Nat := sections.map fun s => s.len.toNat

/-- The bytes before the section name: the file header and as many program
headers as the 16-bit count tells. -/
def headersSize (lens : List Nat) : Nat := sizeofEhdr + sizeofPhdr * (lens.length % 2 ^ 16)

/-- Offset and length of a part in the file. -/
def slot (lens : List Nat) : Part → Nat × Nat
  | .elfHeader => (0, sizeofEhdr)
  | .progHeader i => (sizeofEhdr + sizeofPhdr * i, sizeofPhdr)
  | .sectionName => (headersSize lens, symbolTableSize)
  | .sectionData i =>
    (headersSize lens + symbolTableSize + (lens.take i).sum, (lens[i]?).getD 0)
  | .sectionHeader i =>
    (sizeofEhdr + sizeofPhdr * lens.length + symbolTableSize + lens.sum + sizeofShdr * i, sizeofShdr)

/-- The parts of a file, in the order of their writes. -/
def sectionParts (n : Nat) : List Part :=
  (List.range n).flatMap fun i => [.progHeader i, .sectionHeader (i + 2), .sectionData i]

def parts (n : Nat) : List Part :=
  sectionParts n ++ [.elfHeader, .sectionHeader 0, .sectionHeader 1, .sectionName]

/-- The size of the whole file. -/
def fileSize (lens : List Nat) : Nat :=
  sizeofEhdr + sizeofPhdr * lens.length + symbolTableSize + lens.sum +
    sizeofShdr * (lens.length + 2)

/-- Two stretches, given by start and length, have nothing in common. -/
def Apart (a b : Nat × Nat) : Prop := a.1 + a.2 ≤ b.1 ∨ b.1 + b.2 ≤ a.1

instance (a b : Nat × Nat) : Decidable (Apart a b) := inferInstanceAs (Decidable (_ ∨ _))

theorem Apart.symm {a b : Nat × Nat} (h : Apart a b) : Apart b a := Or.symm h

theorem sum_take_add_le (lens : List Nat) {i j : Nat} (hij : i < j) :
    (lens.take i).sum + (lens[i]?).getD 0 ≤ (lens.take j).sum := by
  induction lens generalizing i j with
  | nil => simp
  | cons l lens ih =>
    obtain ⟨j, rfl⟩ : ∃ j', j = j' + 1 := ⟨j - 1, by omega⟩
    cases i with
    | zero => simp
    | succ i =>
      have := ih (i := i) (j := j) (by omega)
      simp only [List.take_succ_cons, List.sum_cons, List.getElem?_cons_succ]
      omega

theorem sum_take_le (lens : List Nat) (i : Nat) : (lens.take i).sum ≤ lens.sum := by
  have hsplit : (lens.take i ++ lens.drop i).sum = (lens.take i).sum + (lens.drop i).sum :=
    List.sum_append
  rw [List.take_append_drop] at hsplit
  omega

def Part.Valid (n : Nat) : Part → Prop
  | .progHeader i => i < n
  | .sectionData i => i < n
  | .sectionHeader i => i < n + 2
  | _ => True

/-- The file's order of the kinds of parts. -/
def Part.rank : Part → Nat
  | .elfHeader => 0
  | .progHeader _ => 1
  | .sectionName => 2
  | .sectionData _ => 3
  | .sectionHeader _ => 4

/-- Where the parts of a kind begin. -/
def band (lens : List Nat) : Nat → Nat
  | 0 => 0
  | 1 => sizeofEhdr
  | 2 => sizeofEhdr + sizeofPhdr * lens.length
  | 3 => sizeofEhdr + sizeofPhdr * lens.length + symbolTableSize
  | 4 => sizeofEhdr + sizeofPhdr * lens.length + symbolTableSize + lens.sum
  | _ => fileSize lens

theorem band_le (lens : List Nat) {r r' : Nat} (h : r < r') : band lens (r + 1) ≤ band lens r' := by
  have hstep : ∀ r, band lens r ≤ band lens (r + 1) := by
    intro r
    rcases r with _ | _ | _ | _ | _ | r <;>
      simp only [band, fileSize, sizeofEhdr, sizeofPhdr, symbolTableSize, sizeofShdr] <;> omega
  exact monotone_nat_of_le_succ hstep h

theorem slot_in_band {lens : List Nat} (h16 : lens.length < 2 ^ 16) {p : Part}
    (hp : p.Valid lens.length) :
    band lens p.rank ≤ (slot lens p).1 ∧
      (slot lens p).1 + (slot lens p).2 ≤ band lens (p.rank + 1) := by
  have hmod : lens.length % 2 ^ 16 = lens.length := Nat.mod_eq_of_lt h16
  cases p with
  | elfHeader => simp [slot, band, Part.rank]
  | progHeader i =>
    simp only [Part.Valid] at hp
    simp only [slot, band, Part.rank, sizeofPhdr]
    omega
  | sectionName =>
    simp only [slot, band, Part.rank, headersSize, hmod]
    omega
  | sectionData i =>
    have hle := sum_take_add_le lens (show i < lens.length from hp)
    rw [List.take_length] at hle
    simp only [slot, band, Part.rank, headersSize, hmod]
    omega
  | sectionHeader i =>
    simp only [Part.Valid] at hp
    simp only [slot, band, Part.rank, fileSize, sizeofShdr]
    omega

theorem slot_apart {lens : List Nat} (h16 : lens.length < 2 ^ 16) {p q : Part}
    (hp : p.Valid lens.length) (hq : q.Valid lens.length) (hne : p ≠ q) :
    Apart (slot lens p) (slot lens q) := by
  obtain ⟨hp0, hp1⟩ := slot_in_band h16 hp
  obtain ⟨hq0, hq1⟩ := slot_in_band h16 hq
  rcases Nat.lt_trichotomy p.rank q.rank with hlt | heq | hgt
  · exact .inl (hp1.trans ((band_le lens hlt).trans hq0))
  · -- parts of one kind, told apart by their numbers
    cases p with
    | elfHeader => cases q <;> simp_all [Part.rank]
    | sectionName => cases q <;> simp_all [Part.rank]
    | progHeader i =>
      cases q with
      | progHeader j =>
        have hij : i ≠ j := fun h => hne (h ▸ rfl)
        simp only [Apart, slot, sizeofPhdr]
        omega
      | _ => simp [Part.rank] at heq
    | sectionHeader i =>
      cases q with
      | sectionHeader j =>
        have hij : i ≠ j := fun h => hne (h ▸ rfl)
        simp only [Apart, slot, sizeofShdr]
        omega
      | _ => simp [Part.rank] at heq
    | sectionData i =>
      cases q with
      | sectionData j =>
        have hij : i ≠ j := fun h => hne (h ▸ rfl)
        simp only [Apart, slot]
        rcases Nat.lt_or_gt_of_ne hij with h | h
        · have := sum_take_add_le lens h
          omega
        · have := sum_take_add_le lens h
          omega
      | _ => simp [Part.rank] at heq
  · exact .inr (hq1.trans ((band_le lens hgt).trans hp0))

theorem slot_le_fileSize {lens : List Nat} (h16 : lens.length < 2 ^ 16) {p : Part}
    (hp : p.Valid lens.length) : (slot lens p).1 + (slot lens p).2 ≤ fileSize lens := by
  have hrank : p.rank < 5 := by cases p <;> simp [Part.rank]
  exact (slot_in_band h16 hp).2.trans (band_le lens hrank)

/-- The data lie one behind the other. -/
theorem slot_data_succ (lens : List Nat) (i : Nat) :
    (slot lens (.sectionData (i + 1))).1 =
      (slot lens (.sectionData i)).1 + (slot lens (.sectionData i)).2 := by
  have hsum : (lens.take (i + 1)).sum = (lens.take i).sum + (lens[i]?).getD 0 := by
    rw [List.take_add_one, List.sum_append]
    cases lens[i]? <;> simp
  simp only [slot, hsum, Nat.add_assoc]

theorem slot_sectionHeader_succ (lens : List Nat) (i : Nat) :
    (slot lens (.sectionHeader (i + 1))).1 =
      (slot lens (.sectionHeader i)).1 + (slot lens (.sectionHeader i)).2 := by
  simp only [slot, Nat.mul_add, Nat.mul_one, Nat.add_assoc]

theorem mem_sectionParts {n : Nat} {p : Part} :
    p ∈ sectionParts n ↔ ∃ i < n, p = .progHeader i ∨ p = .sectionHeader (i + 2) ∨
      p = .sectionData i := by
  simp [sectionParts]

theorem valid_of_mem_parts {n : Nat} {p : Part} (h : p ∈ parts n) : p.Valid n := by
  simp only [parts, List.mem_append, mem_sectionParts, List.mem_cons, List.not_mem_nil,
    or_false] at h
  rcases h with ⟨i, hi, rfl | rfl | rfl⟩ | rfl | rfl | rfl | rfl <;> simp [Part.Valid] <;> omega

theorem mem_parts_of_valid {n : Nat} {p : Part} (h : p.Valid n) : p ∈ parts n := by
  simp only [parts, List.mem_append, mem_sectionParts, List.mem_cons, List.not_mem_nil, or_false]
  cases p with
  | elfHeader => simp
  | sectionName => simp
  | progHeader i => exact .inl ⟨i, h, .inl rfl⟩
  | sectionData i => exact .inl ⟨i, h, .inr (.inr rfl)⟩
  | sectionHeader i =>
    rcases i with _ | _ | i
    · simp
    · simp
    · simp only [Part.Valid] at h
      exact .inl ⟨i, by omega, .inr (.inl rfl)⟩

theorem nodup_sectionParts (n : Nat) : (sectionParts n).Nodup := by
  refine List.nodup_flatMap.mpr ⟨fun i _ => by simp, ?_⟩
  refine List.Pairwise.imp ?_ List.nodup_range
  intro i j hij p hi hj
  simp only [List.mem_cons, List.not_mem_nil, or_false] at hi hj
  rcases hi with rfl | rfl | rfl <;> simp [hij] at hj

theorem nodup_parts (n : Nat) : (parts n).Nodup := by
  refine List.nodup_append.mpr ⟨nodup_sectionParts n, by simp, ?_⟩
  rintro p hp q hq rfl
  obtain ⟨i, -, rfl | rfl | rfl⟩ := mem_sectionParts.mp hp <;> simp at hq

end BouffaloSdk.Coredump
