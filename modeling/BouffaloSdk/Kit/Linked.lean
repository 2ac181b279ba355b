import Mathlib.Data.List.Basic
import Mathlib.Logic.Function.Basic

/-!
# Linked lists in memory

A list threaded through cells, each holding the address of the next. The
addresses are listed, so that what a store does to the list follows from
whether it hits one of them.
-/

namespace Kit

variable {α : Type*} {next : α → α} {null head a : α} {l : List α}

/-- From `head` the links lead through exactly the cells `l`, then to `null`. -/
def Linked (next : α → α) (null : α) : α → List α → Prop
  | head, [] => head = null
  | head, a :: l => head = a ∧ a ≠ null ∧ Linked next null (next a) l

namespace Linked

theorem eq_nil (h : Linked next null null l) : l = [] := by
  cases l with
  | nil => rfl
  | cons a l => exact absurd h.1.symm h.2.1

theorem exists_cons (h : Linked next null head l) (hl : l ≠ []) :
    ∃ rest, l = head :: rest ∧ Linked next null (next head) rest := by
  cases l with
  | nil => exact absurd rfl hl
  | cons a rest =>
    obtain ⟨rfl, -, hrest⟩ := h
    exact ⟨rest, rfl, hrest⟩

/-- The cells of a list are determined by its links. -/
theorem unique {l' : List α} (h : Linked next null head l) (h' : Linked next null head l') :
    l = l' := by
  induction l generalizing head l' with
  | nil =>
    obtain rfl : head = null := h
    exact h'.eq_nil.symm
  | cons a l ih =>
    obtain ⟨rfl, ha, hl⟩ := h
    cases l' with
    | nil => exact absurd h' ha
    | cons b l' =>
      obtain ⟨rfl, -, hl'⟩ := h'
      rw [ih hl hl']

/-- Links that are the same from the cells. -/
theorem congr {next' : α → α} (h : Linked next null head l) (hsame : ∀ a ∈ l, next' a = next a) :
    Linked next' null head l := by
  induction l generalizing head with
  | nil => exact h
  | cons b l ih =>
    obtain ⟨rfl, hb, hl⟩ := h
    refine ⟨rfl, hb, ?_⟩
    rw [hsame head (List.mem_cons_self ..)]
    exact ih hl fun a ha => hsame a (List.mem_cons_of_mem _ ha)

theorem ne_null (h : Linked next null head l) (ha : a ∈ l) : a ≠ null := by
  induction l generalizing head with
  | nil => cases ha
  | cons b l ih =>
    obtain ⟨rfl, hb, hl⟩ := h
    cases ha with
    | head => exact hb
    | tail _ hmem => exact ih hl hmem

/-- What follows a cell. -/
theorem rest {front back : List α} (h : Linked next null head (front ++ a :: back)) :
    Linked next null (next a) back := by
  induction front generalizing head with
  | nil => exact h.2.2
  | cons b front ih => exact ih h.2.2

/-- The list from one of its cells on. -/
theorem from_cell {front back : List α} (h : Linked next null head (front ++ a :: back)) :
    Linked next null a (a :: back) :=
  ⟨rfl, h.ne_null (List.mem_append_right _ (List.mem_cons_self ..)), h.rest⟩

/-- Other cells behind a cell. -/
theorem graft {next' : α → α} {front back back' : List α}
    (h : Linked next null head (front ++ a :: back)) (hsame : ∀ b ∈ front, next' b = next b)
    (hback : Linked next' null (next' a) back') : Linked next' null head (front ++ a :: back') := by
  induction front generalizing head with
  | nil =>
    obtain ⟨rfl, ha, -⟩ := h
    exact ⟨rfl, ha, hback⟩
  | cons b front ih =>
    obtain ⟨rfl, hb, hl⟩ := h
    refine ⟨rfl, hb, ?_⟩
    rw [hsame head (List.mem_cons_self ..)]
    exact ih hl fun c hc => hsame c (List.mem_cons_of_mem _ hc)

variable [DecidableEq α]

theorem update_of_notMem (h : Linked next null head l) (v : α) (ha : a ∉ l) :
    Linked (Function.update next a v) null head l := by
  induction l generalizing head with
  | nil => exact h
  | cons b l ih =>
    obtain ⟨rfl, hb, hl⟩ := h
    rw [List.mem_cons, not_or] at ha
    refine ⟨rfl, hb, ?_⟩
    rw [Function.update_of_ne (Ne.symm ha.1)]
    exact ih hl ha.2

/-- A new cell in front. -/
theorem push (h : Linked next null head l) (hnull : a ≠ null) (ha : a ∉ l) :
    Linked (Function.update next a head) null a (a :: l) := by
  refine ⟨rfl, hnull, ?_⟩
  rw [Function.update_self]
  exact h.update_of_notMem head ha

theorem linked_singleton (hnull : a ≠ null) : Linked (Function.update next a null) null a [a] :=
  ⟨rfl, hnull, Function.update_self _ _ _⟩

/-- A new cell behind the last. -/
theorem pushBack {b : α} (h : Linked next null head (l ++ [b])) (hl : (l ++ [b]).Nodup)
    (hnull : a ≠ null) (ha : a ∉ l ++ [b]) :
    Linked (Function.update (Function.update next b a) a null) null head (l ++ [b] ++ [a]) := by
  induction l generalizing head with
  | nil =>
    obtain ⟨hhead, hb, -⟩ := h
    have hne : b ≠ a := fun hab => ha (by simp [hab])
    refine ⟨hhead, hb, ?_, hnull, ?_⟩
    · rw [Function.update_of_ne hne, Function.update_self]
    · exact Function.update_self _ _ _
  | cons c l ih =>
    obtain ⟨hhead, hc, hrest⟩ := h
    obtain ⟨hout, hnodup⟩ := List.nodup_cons.mp hl
    have hcb : c ≠ b := fun hcb => hout (by simp [hcb])
    have hca : c ≠ a := fun hca => ha (by simp [hca])
    refine ⟨hhead, hc, ?_⟩
    rw [Function.update_of_ne hca, Function.update_of_ne hcb]
    exact ih hrest hnodup fun hmem => ha (List.mem_cons_of_mem _ hmem)

omit [DecidableEq α] in
/-- Cells that each link to the following one. -/
theorem of_links {f : Nat → α} {n : Nat} (hnull : ∀ i < n, f i ≠ null)
    (links : ∀ i, i + 1 < n → next (f i) = f (i + 1)) (last : next (f (n - 1)) = null) {k : Nat}
    (hk : k < n) : Linked next null (f k) ((List.range' k (n - k)).map f) := by
  induction hm : n - k generalizing k with
  | zero => omega
  | succ m ih =>
    rw [List.range'_succ, List.map_cons]
    refine ⟨rfl, hnull k hk, ?_⟩
    by_cases hlast : k + 1 < n
    · rw [links k hlast]
      exact ih hlast (by omega)
    · obtain rfl : k = n - 1 := by omega
      obtain rfl : m = 0 := by omega
      exact last

end Linked

end Kit
