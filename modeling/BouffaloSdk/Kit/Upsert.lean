import Mathlib.Data.List.Basic
import Mathlib.Logic.Function.Basic

/-!
# Keyed tables kept in a list

A list whose first element with a key stands for that key. `upsert` replaces
it or appends a new one, and acts on the keys as an update of a function.
-/

namespace Kit.Keyed

variable {α κ : Type*} [DecidableEq κ] (key : α → κ)

def lookup (l : List α) (k : κ) : Option α := l.find? fun x => key x = k

def upsert (l : List α) (e : α) : List α :=
  let i := l.findIdx fun x => key x = key e
  if i = l.length then l ++ [e] else l.set i e

theorem upsert_cons_same {x e : α} (l : List α) (h : key x = key e) :
    upsert key (x :: l) e = e :: l := by
  simp [upsert, List.findIdx_cons, h]

theorem upsert_cons_other {x e : α} (l : List α) (h : key x ≠ key e) :
    upsert key (x :: l) e = x :: upsert key l e := by
  simp only [upsert, List.findIdx_cons, h, decide_false, cond_false, List.length_cons,
    Nat.add_right_cancel_iff]
  split <;> simp

theorem lookup_upsert (l : List α) (e : α) :
    lookup key (upsert key l e) = Function.update (lookup key l) (key e) (some e) := by
  funext k
  induction l with
  | nil =>
    by_cases h : key e = k
    · subst h
      simp [upsert, lookup]
    · simp [upsert, lookup, h, Function.update_of_ne (Ne.symm h)]
  | cons x l ih =>
    by_cases hx : key x = key e
    · rw [upsert_cons_same key l hx]
      by_cases h : key e = k
      · subst h
        simp [lookup]
      · simp [lookup, h, hx, Function.update_of_ne (Ne.symm h)]
    · rw [upsert_cons_other key l hx]
      by_cases h : key x = k
      · subst h
        simp [lookup, Function.update_of_ne hx]
      · have hskip : lookup key (x :: upsert key l e) k = lookup key (upsert key l e) k := by
          simp [lookup, h]
        have hskip' : Function.update (lookup key (x :: l)) (key e) (some e) k =
            Function.update (lookup key l) (key e) (some e) k := by
          by_cases hk : k = key e
          · subst hk
            simp
          · simp [Function.update_of_ne hk, lookup, h]
        rw [hskip, hskip', ih]

/-- Another search that finds an element of the replaced key finds the new
element, if it accepts it. -/
theorem find?_upsert {p : α → Bool} {l : List α} {x e : α} (found : l.find? p = some x)
    (hkey : key x = key e) (accepts : p e = true) : (upsert key l e).find? p = some e := by
  induction l with
  | nil => simp at found
  | cons y l ih =>
    by_cases hy : key y = key e
    · rw [upsert_cons_same key l hy, List.find?_cons_of_pos accepts]
    · rw [upsert_cons_other key l hy]
      by_cases hp : p y = true
      · rw [List.find?_cons_of_pos hp] at found
        exact absurd (Option.some.inj found ▸ hkey) hy
      · rw [List.find?_cons_of_neg hp] at found ⊢
        exact ih found

theorem length_upsert_le (l : List α) (e : α) : (upsert key l e).length ≤ l.length + 1 := by
  unfold upsert
  simp only []
  split <;> simp

end Kit.Keyed
