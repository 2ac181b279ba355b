import BouffaloSdk.Kit.Slice
import Mathlib.Data.Set.Insert

/-!
# NOR flash

Erasing sets a whole sector to ones, programming clears bits. A computation
on the flash is the list of its steps; a power loss leaves the memory after a
prefix of them, the step in progress cut short. `Crash` is that relation, and
every fact about it comes from what one step touches.
-/

namespace Kit.Nor

abbrev Mem := Nat → UInt8

inductive Step
  | erase (sector : Nat)
  | program (start : Nat) (bytes : List UInt8)
  deriving DecidableEq, Repr

def sectorSize : Nat := 4096

def Step.apply (m : Mem) : Step → Mem
  | .erase sector => fun a => if a / sectorSize = sector then 0xFF else m a
  | .program start bytes => fun a =>
    if start ≤ a then (bytes[a - start]?).elim (m a) (m a &&& ·) else m a

def run (m : Mem) (steps : List Step) : Mem := steps.foldl Step.apply m

/-- The `n` bytes from `addr` on. -/
def read (m : Mem) (addr n : Nat) : List UInt8 := (List.range n).map fun i => m (addr + i)

/-- The addresses whose contents a step may change. -/
def Step.Touches : Step → Nat → Prop
  | .erase sector, a => a / sectorSize = sector
  | .program start bytes, a => start ≤ a ∧ a < start + bytes.length

/-- A step interrupted after `n` bytes; an erase is not divided. -/
def Step.cut : Step → Nat → Step
  | .erase sector, _ => .erase sector
  | .program start bytes, n => .program start (bytes.take n)

/-- What a power loss during `steps` may leave behind. -/
inductive Crash : Mem → List Step → Mem → Prop
  | before (m : Mem) (steps : List Step) : Crash m steps m
  | within (m : Mem) (s : Step) (steps : List Step) (n : Nat) :
      Crash m (s :: steps) (Step.apply m (s.cut n))
  | after {m m' : Mem} {s : Step} {steps : List Step} (h : Crash (Step.apply m s) steps m') :
      Crash m (s :: steps) m'

@[simp] theorem run_nil (m : Mem) : run m [] = m := rfl

@[simp] theorem run_cons (m : Mem) (s : Step) (steps : List Step) :
    run m (s :: steps) = run (s.apply m) steps := rfl

theorem run_append (m : Mem) (xs ys : List Step) : run m (xs ++ ys) = run (run m xs) ys :=
  List.foldl_append

@[simp] theorem length_read (m : Mem) (addr n : Nat) : (read m addr n).length = n := by
  rw [read, List.length_map, List.length_range]

theorem read_congr {m m' : Mem} {addr n : Nat} (h : ∀ i < n, m (addr + i) = m' (addr + i)) :
    read m addr n = read m' addr n := by
  apply List.map_congr_left
  intro i hi
  exact h i (List.mem_range.mp hi)

theorem read_add (m : Mem) (addr k n : Nat) :
    read m addr (k + n) = read m addr k ++ read m (addr + k) n := by
  simp only [read, List.range_add, List.map_append, List.map_map, Function.comp_def, Nat.add_assoc]

theorem Step.apply_of_not_touches {s : Step} {m : Mem} {a : Nat} (h : ¬ s.Touches a) :
    s.apply m a = m a := by
  cases s with
  | erase sector => exact if_neg h
  | program start bytes =>
    simp only [Step.Touches, not_and, Nat.not_lt] at h
    simp only [Step.apply]
    split
    · rename_i hle
      have hlen := h hle
      rw [List.getElem?_eq_none (by omega)]
      rfl
    · rfl

theorem run_of_not_touches {steps : List Step} {m : Mem} {a : Nat}
    (h : ∀ s ∈ steps, ¬ s.Touches a) : run m steps a = m a := by
  induction steps generalizing m with
  | nil => rfl
  | cons s steps ih =>
    rw [run_cons, ih fun t ht => h t (List.mem_cons_of_mem s ht)]
    exact Step.apply_of_not_touches (h s List.mem_cons_self)

theorem read_run_of_not_touches {steps : List Step} {m : Mem} {addr n : Nat}
    (h : ∀ s ∈ steps, ∀ i < n, ¬ s.Touches (addr + i)) :
    read (run m steps) addr n = read m addr n :=
  read_congr fun i hi => run_of_not_touches fun s hs => h s hs i hi

theorem Step.cut_touches {s : Step} {n a : Nat} (h : (s.cut n).Touches a) : s.Touches a := by
  cases s with
  | erase sector => exact h
  | program start bytes =>
    obtain ⟨hle, hlt⟩ := h
    rw [List.length_take] at hlt
    exact ⟨hle, by omega⟩

/-- A power loss changes nothing that the interrupted steps do not touch. -/
theorem Crash.frame {m m' : Mem} {steps : List Step} (h : Crash m steps m') {a : Nat}
    (untouched : ∀ s ∈ steps, ¬ s.Touches a) : m' a = m a := by
  induction h with
  | before m steps => rfl
  | within m s steps n =>
    apply Step.apply_of_not_touches
    intro ht
    exact untouched s List.mem_cons_self (Step.cut_touches ht)
  | after h ih =>
    rw [ih fun t ht => untouched t (List.mem_cons_of_mem _ ht)]
    exact Step.apply_of_not_touches (untouched _ List.mem_cons_self)

theorem Crash.read_frame {m m' : Mem} {steps : List Step} (h : Crash m steps m') {addr n : Nat}
    (untouched : ∀ s ∈ steps, ∀ i < n, ¬ s.Touches (addr + i)) :
    read m' addr n = read m addr n :=
  read_congr fun i hi => h.frame fun s hs => untouched s hs i hi

/-- Erased cells are all ones. -/
theorem read_erase {m : Mem} {sector addr n : Nat}
    (h : ∀ i < n, (addr + i) / sectorSize = sector) :
    read (Step.apply m (.erase sector)) addr n = List.replicate n 0xFF := by
  rw [List.eq_replicate_iff]
  refine ⟨length_read _ _ _, fun b hb => ?_⟩
  obtain ⟨i, hi, rfl⟩ := List.mem_map.mp hb
  exact if_pos (h i (List.mem_range.mp hi))

theorem run_erases {sectors : List Nat} {m : Mem} {a : Nat} (h : a / sectorSize ∈ sectors) :
    run m (sectors.map .erase) a = 0xFF := by
  induction sectors generalizing m with
  | nil => cases h
  | cons sector sectors ih =>
    rw [List.map_cons, run_cons]
    by_cases hlater : a / sectorSize ∈ sectors
    · exact ih hlater
    · have hfirst : a / sectorSize = sector := by
        cases List.mem_cons.mp h with
        | inl heq => exact heq
        | inr hmem => exact absurd hmem hlater
      rw [run_of_not_touches]
      · exact if_pos hfirst
      · intro s hs htouch
        obtain ⟨other, hother, rfl⟩ := List.mem_map.mp hs
        have htouched : a / sectorSize = other := htouch
        rw [htouched] at hlater
        exact hlater hother

theorem read_erases {sectors : List Nat} {m : Mem} {addr n : Nat}
    (h : ∀ i < n, (addr + i) / sectorSize ∈ sectors) :
    read (run m (sectors.map .erase)) addr n = List.replicate n 0xFF := by
  rw [List.eq_replicate_iff]
  refine ⟨length_read _ _ _, fun b hb => ?_⟩
  obtain ⟨i, hi, rfl⟩ := List.mem_map.mp hb
  exact run_erases (h i (List.mem_range.mp hi))

theorem ones_and (b : UInt8) : 0xFF &&& b = b := by
  apply UInt8.eq_of_toBitVec_eq
  exact BitVec.allOnes_and

/-- Programming erased cells stores the bytes and leaves the rest erased. -/
theorem read_program {m : Mem} {addr n : Nat} {bytes : List UInt8} (hn : bytes.length ≤ n)
    (erased : read m addr n = List.replicate n 0xFF) :
    read (Step.apply m (.program addr bytes)) addr n =
      bytes ++ List.replicate (n - bytes.length) 0xFF := by
  have hcell : ∀ i < n, m (addr + i) = 0xFF := by
    intro i hi
    have hget : (read m addr n)[i]? = some (m (addr + i)) := by
      simp [read, hi]
    rw [erased, List.getElem?_replicate, if_pos hi] at hget
    exact (Option.some.inj hget).symm
  apply List.ext_getElem?
  intro i
  by_cases hi : i < n
  · have hsome : (read (Step.apply m (.program addr bytes)) addr n)[i]? =
        some ((bytes[i]?).elim 0xFF (0xFF &&& ·)) := by
      simp [read, hi, Step.apply, hcell i hi]
    rw [hsome, List.getElem?_append]
    by_cases hb : i < bytes.length
    · rw [if_pos hb, List.getElem?_eq_getElem hb]
      simp [ones_and]
    · rw [if_neg hb, List.getElem?_eq_none (by omega), List.getElem?_replicate, if_pos (by omega)]
      rfl
  · rw [List.getElem?_eq_none (by simp; omega), List.getElem?_eq_none]
    rw [List.length_append, List.length_replicate]
    omega

/-! ## Erasing before writing -/

/-- Every sector is erased at most once, and before anything is programmed in it. Those
of `done` have been erased. -/
def WritesErased : Set Nat → List Step → Prop
  | _, [] => True
  | done, .erase sector :: steps => sector ∉ done ∧ WritesErased (insert sector done) steps
  | done, .program start bytes :: steps =>
    (∀ a, start ≤ a → a < start + bytes.length → a / sectorSize ∈ done) ∧ WritesErased done steps

theorem WritesErased.append {done : Set Nat} {xs ys : List Step} (hxs : WritesErased done xs)
    (hys : WritesErased (done ∪ {sector | .erase sector ∈ xs}) ys) :
    WritesErased done (xs ++ ys) := by
  induction xs generalizing done with
  | nil =>
    have hnone : done ∪ {sector | Step.erase sector ∈ []} = done := by
      simp
    rwa [hnone] at hys
  | cons s xs ih =>
    cases s with
    | erase sector =>
      obtain ⟨hnew, hxs⟩ := hxs
      refine ⟨hnew, ih hxs ?_⟩
      have hsame : insert sector done ∪ {other | Step.erase other ∈ xs} =
          done ∪ {other | Step.erase other ∈ Step.erase sector :: xs} := by
        ext other
        simp only [Set.mem_union, Set.mem_insert_iff, Set.mem_ofPred_eq, List.mem_cons,
          Step.erase.injEq]
        tauto
      rwa [hsame]
    | program start bytes =>
      obtain ⟨hwritten, hxs⟩ := hxs
      refine ⟨hwritten, ih hxs ?_⟩
      have hsame : {other | Step.erase other ∈ Step.program start bytes :: xs} =
          {other | Step.erase other ∈ xs} := by
        ext other
        simp
      rwa [hsame] at hys

/-- Fresh sectors are erased, each once. -/
theorem writesErased_erases {done : Set Nat} {sectors : List Nat} (hnodup : sectors.Nodup)
    (hfresh : ∀ sector ∈ sectors, sector ∉ done) : WritesErased done (sectors.map .erase) := by
  induction sectors generalizing done with
  | nil => trivial
  | cons sector sectors ih =>
    obtain ⟨hout, hnodup⟩ := List.nodup_cons.mp hnodup
    refine ⟨hfresh sector List.mem_cons_self, ih hnodup fun other hother => ?_⟩
    rw [Set.mem_insert_iff, not_or]
    refine ⟨?_, hfresh other (List.mem_cons_of_mem _ hother)⟩
    intro heq
    exact hout (heq ▸ hother)

/-- Programs write erased sectors only. -/
theorem writesErased_programs {done : Set Nat} {steps : List Step}
    (h : ∀ s ∈ steps, (∃ start bytes, s = .program start bytes) ∧
      ∀ a, s.Touches a → a / sectorSize ∈ done) : WritesErased done steps := by
  induction steps with
  | nil => trivial
  | cons s steps ih =>
    obtain ⟨⟨start, bytes, rfl⟩, hdone⟩ := h s List.mem_cons_self
    exact ⟨fun a hle hlt => hdone a ⟨hle, hlt⟩, ih fun s hs => h s (List.mem_cons_of_mem _ hs)⟩

/-- Two programs in a row are one. -/
theorem program_append (m : Mem) (start : Nat) (xs ys : List UInt8) :
    Step.apply (Step.apply m (.program start xs)) (.program (start + xs.length) ys) =
      Step.apply m (.program start (xs ++ ys)) := by
  funext a
  simp only [Step.apply]
  by_cases hle : start ≤ a
  · by_cases hlt : a - start < xs.length
    · rw [if_neg (show ¬ start + xs.length ≤ a by omega), if_pos hle, if_pos hle,
        List.getElem?_append_left hlt]
    · have hsub : a - start - xs.length = a - (start + xs.length) := by omega
      rw [if_pos (show start + xs.length ≤ a by omega), if_pos hle, if_pos hle,
        List.getElem?_append_right (by omega), List.getElem?_eq_none (show xs.length ≤ a - start by omega),
        hsub]
      rfl
  · rw [if_neg (show ¬ start + xs.length ≤ a by omega), if_neg hle, if_neg hle]

theorem apply_program_of_erased {m : Mem} {start i : Nat} {bytes : List UInt8}
    (hi : i < bytes.length) (herased : m (start + i) = 0xFF) :
    Step.apply m (.program start bytes) (start + i) = bytes[i] := by
  simp only [Step.apply]
  rw [if_pos (Nat.le_add_right _ _), Nat.add_sub_cancel_left, List.getElem?_eq_getElem hi, herased]
  exact ones_and _

theorem read_eq_of_bytes {m : Mem} {addr : Nat} {bytes : List UInt8}
    (h : ∀ i (hi : i < bytes.length), m (addr + i) = bytes[i]) :
    read m addr bytes.length = bytes := by
  apply List.ext_getElem (length_read m addr bytes.length)
  intro i _ hi
  simp [read, h i hi]

theorem byte_of_read {m : Mem} {addr n i : Nat} {bytes : List UInt8}
    (h : read m addr n = bytes) (hi : i < n) : bytes[i]? = some (m (addr + i)) := by
  rw [← h]
  simp [read, hi]

attribute [irreducible] read

/-- The byte was programmed after the last erase of its sector. -/
def programmed (log : List Step) (a : Nat) : Bool :=
  log.foldl (fun was s =>
    match s with
    | .erase sector => was && a / sectorSize != sector
    | .program start bytes => was || decide (start ≤ a ∧ a < start + bytes.length)) false

theorem programmed_program (log : List Step) (start : Nat) (bytes : List UInt8) (a : Nat) :
    programmed (log ++ [.program start bytes]) a = true ↔
      programmed log a = true ∨ start ≤ a ∧ a < start + bytes.length := by
  unfold programmed
  rw [List.foldl_append]
  simp only [List.foldl_cons, List.foldl_nil, Bool.or_eq_true, decide_eq_true_eq]

end Kit.Nor
