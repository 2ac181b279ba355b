import Mathlib.Data.List.Basic
import Mathlib.Logic.Equiv.Defs
import Mathlib.Logic.Function.Iterate

/-!
# Stream modes

A transformation that goes over a list one element at a time and carries a state. What
matters for a caller is the state between two calls: passed on (`run_append`), the pieces
of a list give what the whole list gives; forgotten (`frozen_iff`), they do so exactly when
the state came back anyway.
-/

namespace Kit

structure StreamMode (S X Y : Type*) where
  out : S → X → Y
  upd : S → X → S

namespace StreamMode

variable {S X Y : Type*} (M : StreamMode S X Y) {s t : S} {x : X} {xs ys : List X}

def run : S → List X → List Y
  | _, [] => []
  | s, x :: xs => M.out s x :: run (M.upd s x) xs

def next (s : S) (xs : List X) : S := xs.foldl M.upd s

@[simp] theorem run_nil : M.run s [] = [] := rfl

@[simp] theorem next_nil : M.next s [] = s := rfl

@[simp] theorem next_cons : M.next s (x :: xs) = M.next (M.upd s x) xs := rfl

@[simp] theorem length_run : (M.run s xs).length = xs.length := by
  induction xs generalizing s with
  | nil => rfl
  | cons x xs ih => rw [run, List.length_cons, ih, List.length_cons]

theorem run_append : M.run s (xs ++ ys) = M.run s xs ++ M.run (M.next s xs) ys := by
  induction xs generalizing s with
  | nil => rfl
  | cons x xs ih =>
    rw [List.cons_append, run, ih]
    rfl

theorem next_append : M.next s (xs ++ ys) = M.next (M.next s xs) ys := List.foldl_append

/-- Two states that put out the same for some list are one. -/
theorem run_inj (inj : ∀ s t x, M.out s x = M.out t x → s = t) (hne : xs ≠ [])
    (h : M.run s xs = M.run t xs) : s = t := by
  cases xs with
  | nil => exact absurd rfl hne
  | cons x xs => exact inj s t x (List.cons.inj h).1

private theorem frozen_from (inj : ∀ s t x, M.out s x = M.out t x → s = t) (before : List X)
    (pieces : List (List X)) :
    pieces.flatMap (M.run s) = M.run (M.next s before) pieces.flatten ↔
      ∀ pre xs post, pieces = pre ++ xs :: post → xs ≠ [] →
        M.next s (before ++ pre.flatten) = s := by
  induction pieces generalizing before with
  | nil =>
    refine iff_of_true rfl fun pre xs post h => ?_
    exact absurd h (by simp)
  | cons xs pieces ih =>
    have hrest := ih (before ++ xs)
    rw [next_append] at hrest
    rw [List.flatMap_cons, List.flatten_cons, run_append]
    constructor
    · intro h
      obtain ⟨hfirst, hlater⟩ := List.append_inj h (by rw [length_run, length_run])
      intro pre zs post hsplit hne
      cases pre with
      | nil =>
        obtain ⟨rfl, rfl⟩ := List.cons.inj hsplit
        rw [List.flatten_nil, List.append_nil]
        exact (M.run_inj inj hne hfirst).symm
      | cons first pre =>
        obtain ⟨rfl, rfl⟩ := List.cons.inj hsplit
        rw [List.flatten_cons, ← List.append_assoc]
        exact hrest.mp hlater pre zs post rfl hne
    · intro h
      have hlater := hrest.mpr fun pre zs post hsplit hne => by
        have hcut := h (xs :: pre) zs post (by rw [hsplit]; rfl) hne
        rwa [List.flatten_cons, ← List.append_assoc] at hcut
      rw [hlater]
      cases xs with
      | nil => rfl
      | cons x xs =>
        have hsame := h [] (x :: xs) pieces rfl (List.cons_ne_nil _ _)
        rw [List.flatten_nil, List.append_nil] at hsame
        rw [hsame]

/-- With the state forgotten, pieces make no difference exactly when the state is back where
it started before every piece that is not empty. -/
theorem frozen_iff (inj : ∀ s t x, M.out s x = M.out t x → s = t) (pieces : List (List X)) :
    pieces.flatMap (M.run s) = M.run s pieces.flatten ↔
      ∀ pre xs post, pieces = pre ++ xs :: post → xs ≠ [] → M.next s pre.flatten = s :=
  M.frozen_from inj [] pieces

/-- A mode that undoes each element and follows the same states undoes lists. -/
theorem run_run (N : StreamMode S Y X) (undo : ∀ s x, N.out s (M.out s x) = x)
    (follow : ∀ s x, N.upd s (M.out s x) = M.upd s x) : N.run s (M.run s xs) = xs := by
  induction xs generalizing s with
  | nil => rfl
  | cons x xs ih => rw [run, run, undo, follow, ih]

end StreamMode

/-! ## Block cipher modes -/

/-- Blocks that can be masked with each other, as by exclusive or. -/
class Masking (B : Type*) where
  mask : B → B → B
  mask_mask (b k : B) : mask (mask b k) k = b
  mask_inj (b k l : B) : mask b k = mask b l → k = l

section
open Masking

variable {B : Type*} [Masking B] (E : Equiv.Perm B)

def cbcEnc : StreamMode B B B where
  out iv b := E (mask b iv)
  upd iv b := E (mask b iv)

def cbcDec : StreamMode B B B where
  out iv c := mask (E.symm c) iv
  upd _ c := c

def ctr (succ : B → B) : StreamMode B B B where
  out counter b := mask b (E counter)
  upd counter _ := succ counter

theorem cbcEnc_inj (s t x : B) (h : (cbcEnc E).out s x = (cbcEnc E).out t x) : s = t :=
  mask_inj x s t (E.injective h)

theorem cbcDec_inj (s t x : B) (h : (cbcDec E).out s x = (cbcDec E).out t x) : s = t :=
  mask_inj (E.symm x) s t h

theorem ctr_inj (succ : B → B) (s t x : B) (h : (ctr E succ).out s x = (ctr E succ).out t x) :
    s = t :=
  E.injective (mask_inj x _ _ h)

theorem cbcDec_cbcEnc (iv : B) (bs : List B) : (cbcDec E).run iv ((cbcEnc E).run iv bs) = bs := by
  apply StreamMode.run_run
  · intro iv b
    simp only [cbcDec, cbcEnc, Equiv.symm_apply_apply, mask_mask]
  · intro iv b
    rfl

theorem next_ctr (succ : B → B) (counter : B) (bs : List B) :
    (ctr E succ).next counter bs = succ^[bs.length] counter := by
  induction bs generalizing counter with
  | nil => rfl
  | cons b bs ih => exact ih (succ counter)

end

end Kit
