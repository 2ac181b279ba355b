import Mathlib.Data.List.Nodup

/-!
# Lists with two links that end in a null cell

Every cell knows the next one and the one before, and both ends lead to a cell
that is on no list. What the links of that cell hold is never read.
-/

namespace Kit

variable {α : Type*} {next prev next' prev' : α → α} {null before head a : α} {l : List α}

/-- From `head`, reached from `before`, the links lead through `l` to `null` and back. -/
def Chained (next prev : α → α) (null : α) : α → α → List α → Prop
  | _, head, [] => head = null
  | before, head, a :: l => head = a ∧ a ≠ null ∧ prev a = before ∧ Chained next prev null a (next a) l

namespace Chained

theorem congr (h : Chained next prev null before head l) (hnext : ∀ x ∈ l, next' x = next x)
    (hprev : ∀ x ∈ l, prev' x = prev x) : Chained next' prev' null before head l := by
  induction l generalizing before head with
  | nil => exact h
  | cons b l ih =>
    obtain ⟨rfl, hnull, hback, hl⟩ := h
    refine ⟨rfl, hnull, (hprev head List.mem_cons_self).trans hback, ?_⟩
    rw [hnext head List.mem_cons_self]
    apply ih hl
    · exact fun x hx => hnext x (List.mem_cons_of_mem _ hx)
    · exact fun x hx => hprev x (List.mem_cons_of_mem _ hx)

theorem ne_null (h : Chained next prev null before head l) (ha : a ∈ l) : a ≠ null := by
  induction l generalizing before head with
  | nil => exact absurd ha List.not_mem_nil
  | cons b l ih =>
    obtain ⟨rfl, hnull, -, hl⟩ := h
    cases List.mem_cons.mp ha with
    | inl heq => exact heq ▸ hnull
    | inr hmem => exact ih hl hmem

theorem head_eq_null_iff (h : Chained next prev null before head l) : head = null ↔ l = [] := by
  cases l with
  | nil => exact iff_of_true h rfl
  | cons b l => exact iff_of_false (h.1 ▸ h.2.1) (List.cons_ne_nil b l)

theorem head_mem (h : Chained next prev null before head l) (hl : l ≠ []) : head ∈ l := by
  cases l with
  | nil => exact absurd rfl hl
  | cons b l => exact h.1 ▸ List.mem_cons_self

theorem next_mem (h : Chained next prev null before head l) (ha : a ∈ l) :
    next a = null ∨ next a ∈ l := by
  induction l generalizing before head with
  | nil => exact absurd ha List.not_mem_nil
  | cons b l ih =>
    obtain ⟨rfl, -, -, hl⟩ := h
    cases List.mem_cons.mp ha with
    | inl heq =>
      subst heq
      by_cases hnil : l = []
      · exact .inl ((head_eq_null_iff hl).mpr hnil)
      · exact .inr (List.mem_cons_of_mem _ (hl.head_mem hnil))
    | inr hmem => exact (ih hl hmem).imp_right (List.mem_cons_of_mem _)

theorem prev_mem (h : Chained next prev null before head l) (ha : a ∈ l) :
    (head = a ∧ prev a = before) ∨ prev a ∈ l := by
  induction l generalizing before head with
  | nil => exact absurd ha List.not_mem_nil
  | cons b l ih =>
    obtain ⟨rfl, -, hback, hl⟩ := h
    cases List.mem_cons.mp ha with
    | inl heq =>
      subst heq
      exact .inl ⟨rfl, hback⟩
    | inr hmem =>
      cases ih hl hmem with
      | inl hfirst => exact .inr (hfirst.2 ▸ List.mem_cons_self)
      | inr hrest => exact .inr (List.mem_cons_of_mem _ hrest)

/-- A new cell in front, linked from what was the first. -/
theorem push [DecidableEq α] (h : Chained next prev null before head l) (hanull : a ≠ null) (hal : a ∉ l)
    (hnodup : l.Nodup) (hnext : ∀ x ∈ a :: l, next' x = if x = a then head else next x)
    (hprev : ∀ x ∈ a :: l, prev' x = if x = a then before else if x = head then a else prev x) :
    Chained next' prev' null before a (a :: l) := by
  have hfirst : next' a = head := by simp [hnext a List.mem_cons_self]
  have hback : prev' a = before := by simp [hprev a List.mem_cons_self]
  refine ⟨rfl, hanull, hback, hfirst ▸ ?_⟩
  cases l with
  | nil => exact h
  | cons b l =>
    obtain ⟨rfl, hbnull, -, hl⟩ := h
    have hne : head ≠ a := fun heq => hal (heq ▸ List.mem_cons_self)
    have hsame : ∀ x ∈ l, next' x = next x ∧ prev' x = prev x := by
      intro x hx
      have hmem : x ∈ a :: head :: l := List.mem_cons_of_mem _ (List.mem_cons_of_mem _ hx)
      have hxa : x ≠ a := fun heq => hal (heq ▸ List.mem_cons_of_mem _ hx)
      have hxh : x ≠ head := fun heq => (List.nodup_cons.mp hnodup).1 (heq ▸ hx)
      simp [hnext x hmem, hprev x hmem, hxa, hxh]
    have hmem : head ∈ a :: head :: l := List.mem_cons_of_mem _ List.mem_cons_self
    refine ⟨rfl, hbnull, by simp [hprev head hmem, hne], ?_⟩
    rw [hnext head hmem, if_neg hne]
    exact hl.congr (fun x hx => (hsame x hx).1) fun x hx => (hsame x hx).2

/-- A cell taken out by its own links. -/
theorem remove [DecidableEq α] (h : Chained next prev null before head l) (ha : a ∈ l)
    (hnodup : l.Nodup) (hbefore : before ∉ l)
    (hnext : ∀ x ∈ l, x ≠ a → next' x = if x = prev a then next a else next x)
    (hprev : ∀ x ∈ l, x ≠ a → prev' x = if x = next a then prev a else prev x) :
    Chained next' prev' null before (if head = a then next a else head) (l.erase a) := by
  induction l generalizing before head with
  | nil => exact absurd ha List.not_mem_nil
  | cons b l ih =>
    obtain ⟨rfl, hnull, hback, hl⟩ := h
    obtain ⟨hhead, hnodup⟩ := List.nodup_cons.mp hnodup
    have hnext' : ∀ x ∈ l, x ≠ a → next' x = if x = prev a then next a else next x :=
      fun x hx => hnext x (List.mem_cons_of_mem _ hx)
    have hprev' : ∀ x ∈ l, x ≠ a → prev' x = if x = next a then prev a else prev x :=
      fun x hx => hprev x (List.mem_cons_of_mem _ hx)
    by_cases heq : head = a
    · subst heq
      rw [if_pos rfl, List.erase_cons_head]
      cases l with
      | nil => exact hl
      | cons c l =>
        obtain ⟨hc, hcnull, -, hrest⟩ := hl
        have hne : ∀ x ∈ c :: l, x ≠ head := fun x hx heq => hhead (heq ▸ hx)
        have hnot : ∀ x ∈ c :: l, x ≠ prev head := by
          intro x hx heq
          rw [hback] at heq
          exact hbefore (heq ▸ List.mem_cons_of_mem _ hx)
        have hcmem : c ∈ c :: l := List.mem_cons_self
        refine ⟨hc, hcnull, ?_, ?_⟩
        · rw [hprev' c hcmem (hne c hcmem), if_pos hc.symm, hback]
        · rw [hnext' c hcmem (hne c hcmem), if_neg (hnot c hcmem)]
          apply hrest.congr
          · intro x hx
            have hmem := List.mem_cons_of_mem c hx
            rw [hnext' x hmem (hne x hmem), if_neg (hnot x hmem)]
          · intro x hx
            have hmem := List.mem_cons_of_mem c hx
            have hxc : x ≠ next head := by
              rw [hc]
              exact fun heq => (List.nodup_cons.mp hnodup).1 (heq ▸ hx)
            rw [hprev' x hmem (hne x hmem), if_neg hxc]
    · have hal : a ∈ l := (List.mem_cons.mp ha).resolve_left (Ne.symm heq)
      have hback' : head ≠ next a := by
        cases hl.next_mem hal with
        | inl hend => exact hend ▸ hnull
        | inr hmem => exact fun heq => hhead (heq ▸ hmem)
      have hfirst : head = prev a ↔ next head = a := by
        constructor
        · intro hprevA
          cases hl.prev_mem hal with
          | inl hstart => exact hstart.1
          | inr hmem => exact absurd (hprevA ▸ hmem) hhead
        · rintro rfl
          cases hl.prev_mem hal with
          | inl hstart => exact hstart.2.symm
          | inr hmem =>
            cases l with
            | nil => exact absurd hal List.not_mem_nil
            | cons c l =>
              rw [hl.1]
              exact hl.2.2.1.symm
      rw [if_neg heq, List.erase_cons_tail (by simpa using heq)]
      refine ⟨rfl, hnull, ?_, ?_⟩
      · rw [hprev head List.mem_cons_self heq, if_neg hback', hback]
      · have hrest := ih hl hal hnodup hhead hnext' hprev'
        rw [hnext head List.mem_cons_self heq]
        simpa only [hfirst] using hrest

end Chained

end Kit
