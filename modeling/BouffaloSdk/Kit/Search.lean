import Mathlib.Data.List.Infix
import Mathlib.Tactic.Common

/-!
# Searching a string

A string ends at a stop element, or where its cells do. The search gives the rest of the
string from the first place at which a token stands.
-/

namespace Kit.Search

variable {α : Type*} {stop sep a : α} {token s t pre : List α} {n : Nat}

/-- A token without the separator does not reach over it. -/
theorem isPrefix_of_separated (hsep : sep ∉ token) (h : token <+: s ++ sep :: t) : token <+: s := by
  induction s generalizing token with
  | nil =>
    cases token with
    | nil => exact List.nil_prefix
    | cons a token =>
      obtain ⟨rfl, -⟩ := List.cons_prefix_cons.mp h
      exact absurd List.mem_cons_self hsep
  | cons b s ih =>
    cases token with
    | nil => exact List.nil_prefix
    | cons a token =>
      obtain ⟨rfl, htail⟩ := List.cons_prefix_cons.mp h
      exact List.cons_prefix_cons.mpr
        ⟨rfl, ih (fun hmem => hsep (List.mem_cons_of_mem a hmem)) htail⟩

variable [DecidableEq α]

/-- The first place where the token stands within `n` cells. -/
def search (stop : α) (token : List α) : List α → Nat → Option (List α)
  | [], _ => none
  | a :: s, n =>
    if a = stop ∨ n < token.length then none
    else if token <+: a :: s then some (a :: s)
    else search stop token s (n - 1)

theorem search_short (h : n < token.length) : search stop token s n = none := by
  cases s with
  | nil => rfl
  | cons a s => rw [search, if_pos (.inr h)]

theorem search_here (hne : token ≠ []) (hstop : stop ∉ token) (htoken : token <+: s)
    (hn : token.length ≤ n) : search stop token s n = some s := by
  obtain ⟨t, rfl⟩ := htoken
  cases token with
  | nil => exact absurd rfl hne
  | cons a token =>
    rw [List.cons_append, search, if_neg, if_pos ⟨t, rfl⟩]
    rintro (rfl | hshort)
    · exact hstop List.mem_cons_self
    · exact absurd hshort (Nat.not_lt.mpr hn)

theorem search_cons (hne : token ≠ []) (ha : a ≠ stop) (h : ¬ token <+: a :: s) :
    search stop token (a :: s) n = search stop token s (n - 1) := by
  have hpos : 0 < token.length := List.length_pos_iff.mpr hne
  by_cases hn : n < token.length
  · rw [search_short hn, search_short (by omega)]
  · rw [search, if_neg, if_neg h]
    rintro (heq | hshort)
    · exact ha heq
    · exact hn hshort

/-- Cells at which the token does not stand are passed over. -/
theorem search_append (hne : token ≠ []) (hstop : stop ∉ pre)
    (h : ∀ i, i < pre.length → ¬ token <+: (pre ++ s).drop i) :
    search stop token (pre ++ s) n = search stop token s (n - pre.length) := by
  induction pre generalizing n with
  | nil => rfl
  | cons a pre ih =>
    have ha : a ≠ stop := fun heq => hstop (heq ▸ List.mem_cons_self)
    have hhere : ¬ token <+: a :: (pre ++ s) := h 0 (by simp)
    rw [List.cons_append, search_cons hne ha hhere, ih]
    · rw [List.length_cons]
      congr 1
      omega
    · exact fun hmem => hstop (List.mem_cons_of_mem a hmem)
    · intro i hi
      have hlater := h (i + 1) (by simpa using hi)
      simpa using hlater

/-- What the token does not stand in is passed over up to a separator that it does not hold. -/
theorem search_separated (hne : token ≠ []) (hsep : sep ∉ token) (hstop : stop ∉ pre)
    (hinside : ¬ token <:+: pre) :
    search stop token (pre ++ sep :: t) n = search stop token (sep :: t) (n - pre.length) := by
  apply search_append hne hstop
  intro i hi htoken
  rw [List.drop_append_of_le_length (by omega)] at htoken
  have hdrop := isPrefix_of_separated hsep htoken
  exact hinside (hdrop.isInfix.trans (List.drop_suffix i pre).isInfix)

/-- What does not hold the token's first element is passed over. -/
theorem search_without (ha : a ∉ pre) (hstop : stop ∉ pre) :
    search stop (a :: token) (pre ++ s) n = search stop (a :: token) s (n - pre.length) := by
  apply search_append (List.cons_ne_nil a token) hstop
  intro i hi htoken
  rw [List.drop_append_of_le_length (by omega), List.drop_eq_getElem_cons hi,
    List.cons_append] at htoken
  obtain ⟨heq, -⟩ := List.cons_prefix_cons.mp htoken
  exact ha (heq ▸ List.getElem_mem hi)

theorem search_none_without (ha : a ∉ s) : search stop (a :: token) s n = none := by
  induction s generalizing n with
  | nil => rfl
  | cons b s ih =>
    rw [search]
    split
    · rfl
    · rw [if_neg, ih]
      · exact fun hmem => ha (List.mem_cons_of_mem b hmem)
      · intro htoken
        obtain ⟨rfl, -⟩ := List.cons_prefix_cons.mp htoken
        exact ha List.mem_cons_self

end Kit.Search
