import Mathlib.Data.List.Basic

/-!
# A bounded queue

What a ring buffer is for: a queue of at most `cap` items. `push` keeps the
longest prefix that fits, `force` keeps the newest `cap` items.
-/

namespace Kit

structure Fifo (α : Type*) (cap : Nat) where
  items : List α
  bounded : items.length ≤ cap

namespace Fifo

variable {α : Type*} {cap : Nat}

def empty : Fifo α cap := ⟨[], Nat.zero_le _⟩

def length (q : Fifo α cap) : Nat := q.items.length

def free (q : Fifo α cap) : Nat := cap - q.length

/-- The longest prefix of `data` that fits is appended; its length is returned. -/
def push (q : Fifo α cap) (data : List α) : Fifo α cap × Nat :=
  (⟨q.items ++ data.take q.free, by
    have := q.bounded
    simp only [List.length_append, List.length_take, free, length]
    omega⟩, min data.length q.free)

/-- The newest `cap` items of the old contents followed by `data`. -/
def force (q : Fifo α cap) (data : List α) : Fifo α cap :=
  ⟨(q.items ++ data).drop ((q.items ++ data).length - cap), by
    rw [List.length_drop]
    omega⟩

/-- The oldest items, at most `n` of them. -/
def peek (q : Fifo α cap) (n : Nat) : List α := q.items.take n

def pop (q : Fifo α cap) (n : Nat) : Fifo α cap :=
  ⟨q.items.drop n, by
    have := q.bounded
    rw [List.length_drop]
    omega⟩

theorem length_add_free (q : Fifo α cap) : q.length + q.free = cap := by
  have := q.bounded
  simp only [free, length]
  omega

theorem push_of_fits (q : Fifo α cap) {data : List α} (h : data.length ≤ q.free) :
    (q.push data).1.items = q.items ++ data := by
  simp [push, List.take_of_length_le h]

/-- Forcing data that fits is an ordinary append. -/
theorem force_of_fits (q : Fifo α cap) {data : List α} (h : data.length ≤ q.free) :
    (q.force data).items = q.items ++ data := by
  have hf := q.length_add_free
  have h0 : (q.items ++ data).length - cap = 0 := by
    rw [List.length_append]
    simp only [length] at hf
    omega
  simp only [force, h0, List.drop_zero]

/-- Data longer than the queue replaces everything by its own tail. -/
theorem force_long (q : Fifo α cap) {data : List α} (h : cap ≤ data.length) :
    (q.force data).items = data.drop (data.length - cap) := by
  simp only [force, List.length_append]
  rw [show q.items.length + data.length - cap = q.items.length + (data.length - cap) by omega,
    List.drop_append]
  simp

end Fifo

end Kit
