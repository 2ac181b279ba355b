import Mathlib.Logic.Function.Basic

/-!
# Clients on slots

Each taken slot belongs to one client, and both know the same request.
-/

namespace Kit

variable {κ ι ρ : Type*} {on : κ → Option (ι × ρ)} {slots : ι → Option ρ} {c : κ} {i : ι} {r : ρ}

structure Assigned (on : κ → Option (ι × ρ)) (slots : ι → Option ρ) : Prop where
  live : ∀ c i r, on c = some (i, r) → slots i = some r
  owned : ∀ i r, slots i = some r → ∃ c, on c = some (i, r)
  alone : ∀ c c' i r r', on c = some (i, r) → on c' = some (i, r') → c = c'

namespace Assigned

theorem initial : Assigned (fun _ : κ => none) (fun _ : ι => (none : Option ρ)) where
  live _ _ _ hon := by cases hon
  owned _ _ hslot := by cases hslot
  alone _ _ _ _ _ hon := by cases hon

variable [DecidableEq κ] [DecidableEq ι]

/-- A client takes a free slot. -/
theorem take (h : Assigned on slots) (hidle : on c = none) (hfree : slots i = none) :
    Assigned (Function.update on c (some (i, r))) (Function.update slots i (some r)) := by
  have hother : ∀ {c' j r'}, c' ≠ c → Function.update on c (some (i, r)) c' = some (j, r') →
      on c' = some (j, r') ∧ j ≠ i := by
    intro c' j r' hne hon
    rw [Function.update_of_ne hne] at hon
    refine ⟨hon, fun heq => ?_⟩
    subst heq
    cases hfree.symm.trans (h.live c' j r' hon)
  constructor
  case live =>
    intro c' j r' hon
    by_cases heq : c' = c
    · subst heq
      rw [Function.update_self] at hon
      cases hon
      exact Function.update_self ..
    · obtain ⟨hon, hji⟩ := hother heq hon
      rw [Function.update_of_ne hji]
      exact h.live c' j r' hon
  case owned =>
    intro j r' hslot
    by_cases hji : j = i
    · subst hji
      rw [Function.update_self] at hslot
      cases hslot
      exact ⟨c, Function.update_self ..⟩
    · rw [Function.update_of_ne hji] at hslot
      obtain ⟨c', hon⟩ := h.owned j r' hslot
      have hne : c' ≠ c := by
        intro heq
        subst heq
        cases hidle.symm.trans hon
      exact ⟨c', by rwa [Function.update_of_ne hne]⟩
  case alone =>
    intro c₁ c₂ j r₁ r₂ h₁ h₂
    by_cases heq₁ : c₁ = c
    · subst heq₁
      rw [Function.update_self] at h₁
      cases h₁
      by_contra hne
      exact (hother (Ne.symm hne) h₂).2 rfl
    · obtain ⟨h₁, hji⟩ := hother heq₁ h₁
      by_cases heq₂ : c₂ = c
      · subst heq₂
        rw [Function.update_self] at h₂
        cases h₂
        exact absurd rfl hji
      · exact h.alone c₁ c₂ j r₁ r₂ h₁ (hother heq₂ h₂).1

/-- A client gives its slot back. -/
theorem leave (h : Assigned on slots) (hon : on c = some (i, r)) :
    Assigned (Function.update on c none) (Function.update slots i none) := by
  have hother : ∀ {c' j r'}, Function.update on c none c' = some (j, r') →
      c' ≠ c ∧ on c' = some (j, r') := by
    intro c' j r' hon'
    by_cases heq : c' = c
    · subst heq
      rw [Function.update_self] at hon'
      cases hon'
    · rw [Function.update_of_ne heq] at hon'
      exact ⟨heq, hon'⟩
  constructor
  case live =>
    intro c' j r' hon'
    obtain ⟨hne, hon'⟩ := hother hon'
    have hji : j ≠ i := by
      intro heq
      subst heq
      exact hne (h.alone c' c j r' r hon' hon)
    rw [Function.update_of_ne hji]
    exact h.live c' j r' hon'
  case owned =>
    intro j r' hslot
    by_cases hji : j = i
    · subst hji
      rw [Function.update_self] at hslot
      cases hslot
    · rw [Function.update_of_ne hji] at hslot
      obtain ⟨c', hon'⟩ := h.owned j r' hslot
      have hne : c' ≠ c := by
        intro heq
        subst heq
        cases hon.symm.trans hon'
        exact hji rfl
      exact ⟨c', by rwa [Function.update_of_ne hne]⟩
  case alone =>
    exact fun c₁ c₂ j r₁ r₂ h₁ h₂ => h.alone c₁ c₂ j r₁ r₂ (hother h₁).2 (hother h₂).2

end Assigned

end Kit
