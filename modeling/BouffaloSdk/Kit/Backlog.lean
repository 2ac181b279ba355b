import Mathlib.Data.List.Basic

/-!
# A backlog of whole messages

A queue of messages of any length within a budget of cells. A new message
drops as many of the oldest as it must, and none that it need not.
-/

namespace Kit

structure Backlog (α : Type*) (cap : Nat) where
  messages : List (List α)
  bounded : messages.flatten.length ≤ cap

namespace Backlog

variable {α : Type*} {cap : Nat}

def empty : Backlog α cap := ⟨[], Nat.zero_le _⟩

def length (q : Backlog α cap) : Nat := q.messages.flatten.length

/-- The oldest messages, dropped until `n` cells more fit. -/
def dropped (cap n : Nat) : List (List α) → List (List α)
  | [] => []
  | m :: ms => if (m :: ms).flatten.length + n ≤ cap then [] else m :: dropped cap n ms

/-- The messages that stay. -/
def kept (cap n : Nat) : List (List α) → List (List α)
  | [] => []
  | m :: ms => if (m :: ms).flatten.length + n ≤ cap then m :: ms else kept cap n ms

theorem dropped_append_kept (cap n : Nat) (ms : List (List α)) :
    dropped cap n ms ++ kept cap n ms = ms := by
  induction ms with
  | nil => rfl
  | cons m ms ih =>
    rw [dropped, kept]
    split
    · rfl
    · rw [List.cons_append, ih]

theorem drop_dropped (cap n : Nat) (ms : List (List α)) :
    ms.drop (dropped cap n ms).length = kept cap n ms := by
  have hsplit := dropped_append_kept cap n ms
  calc ms.drop (dropped cap n ms).length
      = (dropped cap n ms ++ kept cap n ms).drop (dropped cap n ms).length := by rw [hsplit]
    _ = kept cap n ms := List.drop_left

theorem kept_fits {n : Nat} (hn : n ≤ cap) (ms : List (List α)) :
    (kept cap n ms).flatten.length + n ≤ cap := by
  induction ms with
  | nil => simpa [kept] using hn
  | cons m ms ih =>
    rw [kept]
    split
    · assumption
    · exact ih

/-- One message fewer dropped, and the new one does not fit. -/
theorem dropped_minimal (n : Nat) (ms : List (List α)) {k : Nat}
    (hk : k < (dropped cap n ms).length) : cap < (ms.drop k).flatten.length + n := by
  induction ms generalizing k with
  | nil => simp [dropped] at hk
  | cons m ms ih =>
    rw [dropped] at hk
    split at hk
    · simp at hk
    · rename_i hfull
      cases k with
      | zero => exact Nat.not_le.mp hfull
      | succ k =>
        rw [List.drop_succ_cons]
        exact ih (Nat.lt_of_succ_lt_succ hk)

theorem length_dropped_add_kept (cap n : Nat) (ms : List (List α)) :
    (dropped cap n ms).flatten.length + (kept cap n ms).flatten.length = ms.flatten.length := by
  rw [← List.length_append, ← List.flatten_append, dropped_append_kept]

def makeRoom (q : Backlog α cap) (n : Nat) : Backlog α cap :=
  ⟨kept cap n q.messages, by
    have hlength := length_dropped_add_kept cap n q.messages
    have hbounded := q.bounded
    omega⟩

/-- A message behind the others, where it fits. -/
def append (q : Backlog α cap) (m : List α) (h : q.length + m.length ≤ cap) : Backlog α cap :=
  ⟨q.messages ++ [m], by
    rw [length] at h
    simpa using h⟩

def push (q : Backlog α cap) (m : List α) (h : m.length ≤ cap) : Backlog α cap :=
  (q.makeRoom m.length).append m (kept_fits h q.messages)

/-- All but the oldest message. -/
def pop (q : Backlog α cap) : Backlog α cap :=
  ⟨q.messages.tail, by
    refine Nat.le_trans ?_ q.bounded
    cases q.messages with
    | nil => exact Nat.le_refl _
    | cons m ms => simp⟩

theorem dropped_eq_nil {n : Nat} (ms : List (List α)) (h : ms.flatten.length + n ≤ cap) :
    dropped cap n ms = [] := by
  cases ms with
  | nil => rfl
  | cons m ms => rw [dropped, if_pos h]

end Backlog

end Kit
