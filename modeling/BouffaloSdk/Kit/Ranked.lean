import Mathlib.Data.List.Sort

/-!
# Waiting lists in order of rank

A newcomer goes behind those of its own rank. A list that holds one entry per key
gives up the old entry of a key before the new one enters.
-/

namespace Kit.Ranked

variable {α κ : Type*} {rank : α → Int} {key : α → κ} {p : α → Bool} {l l' : List α} {a b : α}

/-- The ranks ascend. -/
def Sorted (rank : α → Int) (l : List α) : Prop := l.Pairwise fun a b => rank a ≤ rank b

def OncePer (key : α → κ) (l : List α) : Prop := (l.map key).Nodup

/-- `a` before the first entry of a greater rank. -/
def enter (rank : α → Int) (a : α) (l : List α) : List α :=
  l.orderedInsert (fun b c => rank b < rank c) a

theorem perm_enter (rank : α → Int) (a : α) (l : List α) : (enter rank a l).Perm (a :: l) :=
  List.perm_orderedInsert _ a l

@[simp] theorem mem_enter : b ∈ enter rank a l ↔ b = a ∨ b ∈ l :=
  List.mem_orderedInsert _

theorem enter_ne_nil : enter rank a l ≠ [] :=
  List.ne_nil_of_mem (mem_enter.mpr (.inl rfl))

/-! ## Order -/

theorem sorted_nil : Sorted rank [] := List.Pairwise.nil

theorem Sorted.sublist (h : Sorted rank l) (hsub : l'.Sublist l) : Sorted rank l' :=
  List.Pairwise.sublist hsub h

theorem Sorted.enter (h : Sorted rank l) : Sorted rank (enter rank a l) := by
  unfold Ranked.enter
  induction l with
  | nil => exact List.pairwise_singleton _ a
  | cons b l ih =>
    obtain ⟨hhead, htail⟩ := List.pairwise_cons.mp h
    rw [List.orderedInsert_cons]
    by_cases hlt : rank a < rank b
    · rw [if_pos hlt]
      refine List.pairwise_cons.mpr ⟨fun c hc => ?_, h⟩
      cases List.mem_cons.mp hc with
      | inl heq => exact heq ▸ hlt.le
      | inr hmem => exact hlt.le.trans (hhead c hmem)
    · rw [if_neg hlt]
      refine List.pairwise_cons.mpr ⟨fun c hc => ?_, ih htail⟩
      cases (List.mem_orderedInsert _).mp hc with
      | inl heq => exact heq ▸ Int.not_lt.mp hlt
      | inr hmem => exact hhead c hmem

/-- The first entry with a property ranks before all others that have it. -/
theorem Sorted.first_le {before after : List α} (h : Sorted rank (before ++ a :: after))
    (hbefore : ∀ b ∈ before, ¬ p b) (hb : b ∈ before ++ a :: after) (hpb : p b) :
    rank a ≤ rank b := by
  cases List.mem_append.mp hb with
  | inl hin => exact absurd hpb (hbefore b hin)
  | inr hin =>
    cases List.mem_cons.mp hin with
    | inl heq => exact heq ▸ Int.le_refl _
    | inr hafter => exact (List.pairwise_cons.mp (List.pairwise_append.mp h).2.1).1 b hafter

/-! ## One entry per key -/

theorem oncePer_nil : OncePer key [] := List.nodup_nil

theorem OncePer.sublist (h : OncePer key l) (hsub : l'.Sublist l) : OncePer key l' :=
  List.Nodup.sublist (hsub.map key) h

theorem oncePer_enter_iff :
    OncePer key (enter rank a l) ↔ (∀ b ∈ l, key b ≠ key a) ∧ OncePer key l := by
  unfold OncePer
  rw [((perm_enter rank a l).map key).nodup_iff, List.map_cons, List.nodup_cons]
  refine and_congr_left fun _ => ?_
  simp only [List.mem_map, not_exists, not_and, ne_eq]

/-- The first match, with what stands around it. -/
theorem first_match (hfind : l.find? p = some a) :
    p a ∧ ∃ before after, l = before ++ a :: after ∧ (∀ b ∈ before, ¬ p b) ∧
      l.eraseP p = before ++ after := by
  obtain ⟨hpa, before, after, hl, hbefore⟩ := List.find?_eq_some_iff_append.mp hfind
  have hbefore' : ∀ b ∈ before, ¬ p b := fun b hb hpb => by
    have hnot := hbefore b hb
    rw [hpb] at hnot
    cases hnot
  refine ⟨hpa, before, after, hl, hbefore', ?_⟩
  rw [hl, List.eraseP_append_right _ hbefore', List.eraseP_cons_of_pos hpa]

/-- Taking out the first match keeps the others. -/
theorem mem_eraseP_of_ne (hfind : l.find? p = some a) (hb : b ∈ l) (hne : b ≠ a) :
    b ∈ l.eraseP p := by
  obtain ⟨-, before, after, hl, -, herase⟩ := first_match hfind
  rw [herase]
  rw [hl] at hb
  rcases List.mem_append.mp hb with hin | hin
  · exact List.mem_append_left _ hin
  · rcases List.mem_cons.mp hin with rfl | hafter
    · exact absurd rfl hne
    · exact List.mem_append_right _ hafter

theorem OncePer.first_absent (h : OncePer key l) (hfind : l.find? p = some a)
    (hb : b ∈ l.eraseP p) : key b ≠ key a := by
  obtain ⟨-, before, after, hl, -, herase⟩ := first_match hfind
  intro heq
  rw [OncePer, hl, List.map_append, List.map_cons] at h
  have hmid := List.nodup_middle.mp h
  rw [← List.map_append] at hmid
  rw [herase] at hb
  exact (List.nodup_cons.mp hmid).1 (heq ▸ List.mem_map_of_mem hb)

theorem OncePer.mem_eraseP_iff (h : OncePer key l) (hfind : l.find? p = some a) :
    b ∈ l.eraseP p ↔ b ∈ l ∧ b ≠ a := by
  constructor
  · intro hrest
    refine ⟨List.mem_of_mem_eraseP hrest, ?_⟩
    rintro rfl
    exact h.first_absent hfind hrest rfl
  · rintro ⟨hb, hne⟩
    exact mem_eraseP_of_ne hfind hb hne

/-- Once the first match is out no entry has `a`'s key, if the match itself had it or
none had. -/
theorem absent_eraseP_iff (h : OncePer key l) (hp : ∀ b ∈ l, key b = key a → p b) :
    (∀ b ∈ l.eraseP p, key b ≠ key a) ↔
      ∀ c, l.find? p = some c → key c ≠ key a → ∀ b ∈ l, key b ≠ key a := by
  cases hfind : l.find? p with
  | none =>
    have hnone : ∀ b ∈ l, ¬ p b := by simpa using hfind
    rw [List.eraseP_of_forall_not hnone]
    refine iff_of_true (fun b hb heq => hnone b hb (hp b hb heq)) ?_
    intro c hc
    cases hc
  | some c =>
    constructor
    · rintro habsent c' ⟨⟩ hne b hb heq
      exact habsent b (mem_eraseP_of_ne hfind hb (by rintro rfl; exact hne heq)) heq
    · intro hother b hb heq
      by_cases hkey : key c = key a
      · exact h.first_absent hfind hb (heq.trans hkey.symm)
      · exact hother c rfl hkey b (List.mem_of_mem_eraseP hb) heq

/-- The old entry of the key makes way. -/
theorem OncePer.replace (h : OncePer key l) (hp : ∀ b, p b ↔ key b = key a) :
    OncePer key (Ranked.enter rank a (l.eraseP p)) := by
  refine oncePer_enter_iff.mpr ⟨?_, h.sublist List.eraseP_sublist⟩
  refine (absent_eraseP_iff h fun b _ => (hp b).mpr).mpr ?_
  intro c hc hne
  exact absurd ((hp c).mp (List.find?_some hc)) hne

end Kit.Ranked
