import Mathlib.Data.List.Basic
import Mathlib.Tactic.Common

/-!
# Scanners for frames in a stream

A header at the front of a stream claims a number of cells, which then make a frame or do
not. What is found in a part of the stream stays found whatever follows it.
-/

namespace Kit

variable {α : Type*}

/-- What a header claims, and whether the cells it claims are a frame. -/
structure Scanner (α : Type*) where
  claim : List α → Option Nat
  good : List α → Bool
  claim_pos : ∀ {s n}, claim s = some n → 0 < n
  claim_append : ∀ {s n} (more : List α), claim s = some n → claim (s ++ more) = some n

namespace Scanner

/-- The frames in a stream of which the first `skip` cells are taken. -/
def framesAfter (S : Scanner α) : (skip : Nat) → List α → List (List α)
  | _, [] => []
  | skip + 1, _ :: t => S.framesAfter skip t
  | 0, a :: t =>
    match S.claim (a :: t) with
    | none => S.framesAfter 0 t
    | some n =>
      if n ≤ (a :: t).length then
        if S.good ((a :: t).take n) then (a :: t).take n :: S.framesAfter (n - 1) t
        else S.framesAfter 0 t
      else []

/-- The frames in a stream. A claim that runs past its end is still waited for. -/
def frames (S : Scanner α) (s : List α) : List (List α) := S.framesAfter 0 s

variable {S : Scanner α} {a : α} {s t u more : List α} {found later : List (List α)} {n k : Nat}

theorem frames_cons (a : α) (t : List α) :
    S.frames (a :: t) = match S.claim (a :: t) with
      | none => S.frames t
      | some n =>
        if n ≤ (a :: t).length then
          if S.good ((a :: t).take n) then (a :: t).take n :: S.framesAfter (n - 1) t
          else S.frames t
        else [] := rfl

theorem framesAfter_eq (skip : Nat) (s : List α) :
    S.framesAfter skip s = S.frames (s.drop skip) := by
  induction s generalizing skip with
  | nil =>
    cases skip with
    | zero => rfl
    | succ skip => rfl
  | cons a t ih =>
    cases skip with
    | zero => rfl
    | succ skip => exact ih skip

theorem frames_unclaimed (h : S.claim (a :: t) = none) : S.frames (a :: t) = S.frames t := by
  rw [frames_cons, h]

theorem frames_bad (h : S.claim (a :: t) = some n) (there : n ≤ (a :: t).length)
    (bad : S.good ((a :: t).take n) = false) : S.frames (a :: t) = S.frames t := by
  rw [frames_cons, h]
  dsimp only
  rw [if_pos there, if_neg (Bool.not_eq_true _ ▸ bad)]

theorem frames_good (h : S.claim s = some n) (there : n ≤ s.length)
    (good : S.good (s.take n) = true) : S.frames s = s.take n :: S.frames (s.drop n) := by
  have hpos := S.claim_pos h
  cases s with
  | nil =>
    rw [List.length_nil] at there
    omega
  | cons a t =>
    obtain ⟨m, rfl⟩ : ∃ m, n = m + 1 := ⟨n - 1, by omega⟩
    rw [frames_cons, h]
    dsimp only
    rw [if_pos there, if_pos good, framesAfter_eq, Nat.add_sub_cancel, List.drop_succ_cons]

theorem frames_short (h : S.claim s = some n) (short : s.length < n) : S.frames s = [] := by
  cases s with
  | nil => rfl
  | cons a t =>
    rw [frames_cons, h]
    exact if_neg (Nat.not_le.mpr short)

/-! ## A part of the stream -/

/-- In `s` the scanner finds `found` and has `rest` left, whatever follows. -/
def Yields (S : Scanner α) (s : List α) (found : List (List α)) (rest : List α) : Prop :=
  ∀ more, S.frames (s ++ more) = found ++ S.frames (rest ++ more)

/-- No header stands first, whatever follows. -/
def Refused (S : Scanner α) (s : List α) : Prop := ∀ more, S.claim (s ++ more) = none

theorem Yields.refl (s : List α) : S.Yields s [] s := fun _ => rfl

theorem Yields.trans {found' : List (List α)} (h : S.Yields s found t)
    (h' : S.Yields t found' u) : S.Yields s (found ++ found') u := by
  intro more
  rw [h, h', List.append_assoc]

theorem Yields.append (h : S.Yields s found t) (more : List α) :
    S.Yields (s ++ more) found (t ++ more) := by
  intro more'
  rw [List.append_assoc, List.append_assoc, h]

theorem yields_refused (h : S.Refused (a :: t)) : S.Yields (a :: t) [] t :=
  fun more => frames_unclaimed (h more)

/-- Cells at which no header stands are passed over. -/
theorem yields_drop (h : ∀ i, i < k → S.Refused (s.drop i)) (hk : k ≤ s.length) :
    S.Yields s [] (s.drop k) := by
  induction k with
  | zero => exact Yields.refl s
  | succ k ih =>
    have hcons := List.drop_eq_getElem_cons (l := s) (i := k) (by omega)
    have hstep : S.Yields (s.drop k) [] (s.drop (k + 1)) := by
      rw [hcons]
      apply yields_refused
      rw [← hcons]
      exact h k (by omega)
    exact (ih (fun i hi => h i (by omega)) (by omega)).trans hstep

theorem yields_bad (h : S.claim s = some n) (there : n ≤ s.length)
    (bad : S.good (s.take n) = false) : S.Yields s [] (s.drop 1) := by
  have hpos := S.claim_pos h
  intro more
  cases s with
  | nil =>
    rw [List.length_nil] at there
    omega
  | cons a t =>
    have hclaim : S.claim (a :: (t ++ more)) = some n := S.claim_append more h
    have htake : (a :: (t ++ more)).take n = (a :: t).take n :=
      List.take_append_of_le_length there
    apply frames_bad hclaim
    · rw [List.length_cons] at there ⊢
      rw [List.length_append]
      omega
    · rw [htake]
      exact bad

theorem yields_good (h : S.claim s = some n) (there : n ≤ s.length)
    (good : S.good (s.take n) = true) : S.Yields s [s.take n] (s.drop n) := by
  intro more
  rw [frames_good (n := n) (S.claim_append more h), List.take_append_of_le_length there,
    List.drop_append_of_le_length there]
  · rfl
  · rw [List.length_append]
    omega
  · rw [List.take_append_of_le_length there]
    exact good

/-! ## Frames among noise -/

/-- A cell of noise or a frame. -/
inductive Piece (α : Type*)
  | noise (cell : α)
  | frame (cells : List α)

def Piece.cells : Piece α → List α
  | .noise a => [a]
  | .frame f => f

/-- For every cell of a piece, whether a frame owns it. -/
def Piece.marks : Piece α → List Bool
  | .noise _ => [false]
  | .frame f => List.replicate f.length true

/-- The stream that the pieces make. -/
def cellsOf (pieces : List (Piece α)) : List α := pieces.flatMap Piece.cells

def marksOf (pieces : List (Piece α)) : List Bool := pieces.flatMap Piece.marks

def framesIn : List (Piece α) → List (List α)
  | [] => []
  | .noise _ :: ps => framesIn ps
  | .frame f :: ps => f :: framesIn ps

/-- A header that stands first takes nothing and keeps no later frame waiting. -/
def Harmless (S : Scanner α) (s : List α) (later : List (List α)) : Prop :=
  ∀ n, S.claim s = some n → if n ≤ s.length then S.good (s.take n) = false else later = []

/-- The noise is harmless. -/
def Quiet (S : Scanner α) : List (Piece α) → Prop
  | [] => True
  | .noise a :: ps => S.Harmless (a :: cellsOf ps) (framesIn ps) ∧ S.Quiet ps
  | .frame _ :: ps => S.Quiet ps

/-- No header stands at the noise. -/
def Headless (S : Scanner α) : List (Piece α) → Prop
  | [] => True
  | .noise a :: ps => S.claim (a :: cellsOf ps) = none ∧ S.Headless ps
  | .frame _ :: ps => S.Headless ps

/-- The cells are just what their header claims, and a frame. -/
def IsFrame (S : Scanner α) (f : List α) : Prop := S.claim f = some f.length ∧ S.good f = true

variable {pieces : List (Piece α)}

theorem frames_harmless (h : S.Harmless (a :: t) later) (ht : S.frames t = later) :
    S.frames (a :: t) = later := by
  cases hclaim : S.claim (a :: t) with
  | none => rw [frames_unclaimed hclaim, ht]
  | some n =>
    have hn := h n hclaim
    by_cases there : n ≤ (a :: t).length
    · rw [if_pos there] at hn
      rw [frames_bad hclaim there hn, ht]
    · rw [if_neg there] at hn
      rw [frames_short hclaim (Nat.not_le.mp there), hn]

theorem frames_isFrame {f : List α} (h : S.IsFrame f) (rest : List α) :
    S.frames (f ++ rest) = f :: S.frames rest := by
  rw [frames_good (S.claim_append rest h.1), List.take_left, List.drop_left]
  · rw [List.length_append]
    omega
  · rw [List.take_left]
    exact h.2

/-- Where the noise is harmless the scanner finds just the frames. -/
theorem frames_cellsOf (quiet : S.Quiet pieces) (built : ∀ f ∈ framesIn pieces, S.IsFrame f) :
    S.frames (cellsOf pieces) = framesIn pieces := by
  induction pieces with
  | nil => rfl
  | cons p ps ih =>
    cases p with
    | noise a => exact frames_harmless quiet.1 (ih quiet.2 built)
    | frame f =>
      have hf := frames_isFrame (built f List.mem_cons_self) (cellsOf ps)
      have hps := ih quiet fun g hg => built g (List.mem_cons_of_mem _ hg)
      rw [hps] at hf
      exact hf

/-- A cell of noise can be left out. -/
theorem frames_drop_succ (quiet : S.Quiet pieces)
    (built : ∀ f ∈ framesIn pieces, S.IsFrame f) (h : (marksOf pieces)[k]? = some false) :
    S.frames ((cellsOf pieces).drop k) = S.frames ((cellsOf pieces).drop (k + 1)) := by
  induction pieces generalizing k with
  | nil => cases h
  | cons p ps ih =>
    cases p with
    | noise a =>
      cases k with
      | zero =>
        have hps := frames_cellsOf quiet.2 built
        exact (frames_harmless quiet.1 hps).trans hps.symm
      | succ k => exact ih quiet.2 built h
    | frame f =>
      have hmarks : marksOf (.frame f :: ps) = List.replicate f.length true ++ marksOf ps := rfl
      have hcells : cellsOf (.frame f :: ps) = f ++ cellsOf ps := rfl
      by_cases inside : k < f.length
      · rw [hmarks, List.getElem?_append_left (by rwa [List.length_replicate]),
          List.getElem?_replicate, if_pos inside] at h
        cases h
      · obtain ⟨j, rfl⟩ : ∃ j, k = f.length + j := ⟨k - f.length, by omega⟩
        rw [hmarks, List.getElem?_append_right (by rw [List.length_replicate]; omega),
          List.length_replicate, Nat.add_sub_cancel_left] at h
        rw [hcells, Nat.add_assoc, List.drop_length_add_append, List.drop_length_add_append]
        exact ih quiet (fun g hg => built g (List.mem_cons_of_mem _ hg)) h

theorem frames_drop_noise (quiet : S.Quiet pieces)
    (built : ∀ f ∈ framesIn pieces, S.IsFrame f) (hnk : n ≤ k)
    (h : ∀ i, n ≤ i → i < k → (marksOf pieces)[i]? = some false) :
    S.frames ((cellsOf pieces).drop n) = S.frames ((cellsOf pieces).drop k) := by
  induction hnk with
  | refl => rfl
  | @step k hnk ih =>
    rw [ih fun i hi hik => h i hi (Nat.lt_succ_of_lt hik)]
    exact frames_drop_succ quiet built (h k hnk (Nat.lt_succ_self k))

end Scanner

end Kit
