import Mathlib.Data.List.Nodup
import Mathlib.Logic.Function.Basic

/-!
# Tokens with one holder

Tokens are issued in order. Each is held in one place or has been spent once.
-/

namespace Kit

variable {ι : Type*} {issued id : Nat} {spent : List Nat} {held : ι → Option Nat} {i : ι}

structure Tokens (issued : Nat) (spent : List Nat) (held : ι → Option Nat) : Prop where
  place : ∀ id, id < issued ↔ id ∈ spent ∨ ∃ i, held i = some id
  once : spent.Nodup
  apart : ∀ id i, held i = some id → id ∉ spent
  single : ∀ id i j, held i = some id → held j = some id → i = j

namespace Tokens

theorem initial : Tokens 0 [] (fun _ : ι => none) where
  place id := by simp
  once := List.nodup_nil
  apart _ _ hheld := by cases hheld
  single _ _ _ hheld := by cases hheld

theorem not_spent (h : Tokens issued spent held) : issued ∉ spent := fun hmem =>
  Nat.lt_irrefl issued ((h.place issued).mpr (.inl hmem))

theorem not_held (h : Tokens issued spent held) : held i ≠ some issued := fun hheld =>
  Nat.lt_irrefl issued ((h.place issued).mpr (.inr ⟨i, hheld⟩))

/-- A new token is spent at once. -/
theorem pass (h : Tokens issued spent held) : Tokens (issued + 1) (spent ++ [issued]) held where
  place id := by
    rw [Nat.lt_succ_iff_lt_or_eq, h.place, List.mem_append, List.mem_singleton]
    tauto
  once := List.nodup_append.mpr ⟨h.once, List.nodup_singleton _, fun a ha b hb heq =>
    h.not_spent (by rwa [← List.mem_singleton.mp hb, ← heq])⟩
  apart id i hheld hmem := by
    cases List.mem_append.mp hmem with
    | inl hspent => exact h.apart id i hheld hspent
    | inr hnew =>
      rw [List.mem_singleton.mp hnew] at hheld
      exact h.not_held hheld
  single := h.single

variable [DecidableEq ι]

/-- A new token goes to an empty place. -/
theorem hold (h : Tokens issued spent held) (hempty : held i = none) :
    Tokens (issued + 1) spent (Function.update held i (some issued)) := by
  have hother : ∀ {j id}, Function.update held i (some issued) j = some id → id ≠ issued →
      held j = some id := by
    intro j id hheld hne
    by_cases hji : j = i
    · subst hji
      rw [Function.update_self] at hheld
      cases hheld
      exact absurd rfl hne
    · rwa [Function.update_of_ne hji] at hheld
  have hkept : ∀ {j id}, held j = some id → Function.update held i (some issued) j = some id := by
    intro j id hheld
    have hji : j ≠ i := by
      intro heq
      subst heq
      cases hempty.symm.trans hheld
    rwa [Function.update_of_ne hji]
  constructor
  case place =>
    intro id
    constructor
    · intro hid
      by_cases hnew : id = issued
      · subst hnew
        exact .inr ⟨i, Function.update_self ..⟩
      · cases (h.place id).mp (by omega) with
        | inl hspent => exact .inl hspent
        | inr hheld =>
          obtain ⟨j, hj⟩ := hheld
          exact .inr ⟨j, hkept hj⟩
    · intro hid
      by_cases hnew : id = issued
      · omega
      · cases hid with
        | inl hspent => exact Nat.lt_succ_of_lt ((h.place id).mpr (.inl hspent))
        | inr hheld =>
          obtain ⟨j, hj⟩ := hheld
          exact Nat.lt_succ_of_lt ((h.place id).mpr (.inr ⟨j, hother hj hnew⟩))
  case once => exact h.once
  case apart =>
    intro id j hheld
    by_cases hnew : id = issued
    · subst hnew
      exact h.not_spent
    · exact h.apart id j (hother hheld hnew)
  case single =>
    intro id j k hj hk
    by_cases hnew : id = issued
    · have hat : ∀ {l}, Function.update held i (some issued) l = some id → l = i := by
        intro l hl
        by_contra hli
        rw [Function.update_of_ne hli, hnew] at hl
        exact h.not_held hl
      exact (hat hj).trans (hat hk).symm
    · exact h.single id j k (hother hj hnew) (hother hk hnew)

/-- The token of a place is spent. -/
theorem spend (h : Tokens issued spent held) (hheld : held i = some id) :
    Tokens issued (spent ++ [id]) (Function.update held i none) := by
  have hother : ∀ {j id'}, Function.update held i none j = some id' →
      held j = some id' ∧ id' ≠ id := by
    intro j id' hj
    by_cases hji : j = i
    · subst hji
      rw [Function.update_self] at hj
      cases hj
    · rw [Function.update_of_ne hji] at hj
      refine ⟨hj, fun heq => ?_⟩
      subst heq
      exact hji (h.single id' j i hj hheld)
  constructor
  case place =>
    intro id'
    rw [h.place, List.mem_append, List.mem_singleton]
    constructor
    · intro hid
      cases hid with
      | inl hspent => exact .inl (.inl hspent)
      | inr hplace =>
        obtain ⟨j, hj⟩ := hplace
        by_cases hji : j = i
        · subst hji
          cases hheld.symm.trans hj
          exact .inl (.inr rfl)
        · exact .inr ⟨j, by rwa [Function.update_of_ne hji]⟩
    · intro hid
      rcases hid with (hspent | hsame) | ⟨j, hj⟩
      · exact .inl hspent
      · subst hsame
        exact .inr ⟨i, hheld⟩
      · exact .inr ⟨j, (hother hj).1⟩
  case once =>
    refine List.nodup_append.mpr ⟨h.once, List.nodup_singleton _, fun a ha b hb heq => ?_⟩
    rw [List.mem_singleton] at hb
    subst heq
    subst hb
    exact h.apart a i hheld ha
  case apart =>
    intro id' j hj hmem
    cases List.mem_append.mp hmem with
    | inl hspent => exact h.apart id' j (hother hj).1 hspent
    | inr hsame => exact (hother hj).2 (List.mem_singleton.mp hsame)
  case single => exact fun id' j k hj hk => h.single id' j k (hother hj).1 (hother hk).1

/-- A token that is overwritten is gone. -/
theorem not_overwritten (h : Tokens issued spent held) (hheld : held i = some id) :
    ¬ Tokens (issued + 1) spent (Function.update held i (some issued)) := by
  intro hnew
  have hid : id < issued := (h.place id).mpr (.inr ⟨i, hheld⟩)
  cases (hnew.place id).mp (Nat.lt_succ_of_lt hid) with
  | inl hspent => exact h.apart id i hheld hspent
  | inr hplace =>
    obtain ⟨j, hj⟩ := hplace
    by_cases hji : j = i
    · subst hji
      rw [Function.update_self] at hj
      cases hj
      exact Nat.lt_irrefl _ hid
    · rw [Function.update_of_ne hji] at hj
      exact hji (h.single id j i hj hheld)

end Tokens

end Kit
