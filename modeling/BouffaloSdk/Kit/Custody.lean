import Mathlib.Data.List.Nodup
import Mathlib.Data.List.Count

/-!
# Things handed around

`n` numbered things lie in some places, listed one after the other. Handing one on only
reorders the list.
-/

namespace Kit

variable {n k : Nat} {l l' : List Nat}

/-- The places hold each of the first `n` things, and nothing else, once. -/
def Custody (n : Nat) (l : List Nat) : Prop := l.Perm (List.range n)

namespace Custody

theorem none : Custody 0 [] := List.Perm.refl []

theorem move (h : Custody n l) (hperm : l'.Perm l) : Custody n l' := List.Perm.trans hperm h

/-- The next thing comes into one of the places. -/
theorem issue (h : Custody n l) (hperm : l'.Perm (n :: l)) : Custody (n + 1) l' := by
  unfold Custody at *
  rw [List.range_succ]
  exact hperm.trans ((h.cons n).trans (List.perm_append_singleton n _).symm)

/-- Without the last of them the places hold those before it. -/
theorem issued_iff : Custody (n + 1) (n :: l) ↔ Custody n l := by
  unfold Custody
  rw [List.range_succ]
  constructor
  · intro h
    exact (h.trans (List.perm_append_singleton n _)).cons_inv
  · intro h
    exact (h.cons n).trans (List.perm_append_singleton n _).symm

theorem perm_iff (hperm : l'.Perm l) : Custody n l' ↔ Custody n l :=
  ⟨fun h => h.move hperm.symm, fun h => h.move hperm⟩

theorem length (h : Custody n l) : l.length = n :=
  (List.Perm.length_eq h).trans List.length_range

theorem count (h : Custody n l) (hk : k < n) : l.count k = 1 :=
  (List.Perm.count_eq h k).trans
    (List.count_eq_one_of_mem List.nodup_range (List.mem_range.mpr hk))

theorem lt (h : Custody n l) (hk : k ∈ l) : k < n :=
  List.mem_range.mp (h.mem_iff.mp hk)

end Custody

/-- What one slot of a table holds, beside what the others do. -/
theorem exists_perm_filterMap_set {α β : Type*} (f : α → Option β) (slots : List α) {i : Nat}
    (h : i < slots.length) :
    ∃ others, ∀ e, ((slots.set i e).filterMap f).Perm ((f e).toList ++ others) := by
  refine ⟨(slots.take i).filterMap f ++ (slots.drop (i + 1)).filterMap f, fun e => ?_⟩
  rw [List.set_eq_take_append_cons_drop, if_pos h, List.filterMap_append]
  cases he : f e with
  | none =>
    rw [List.filterMap_cons_none he]
    exact List.Perm.refl _
  | some b =>
    rw [List.filterMap_cons_some he]
    exact List.perm_middle

/-- What one of the places of a table holds, beside what the others do. -/
theorem exists_perm_filterMap {ι β : Type*} (places : List ι) (hplaces : places.Nodup)
    (f : ι → Option β) {i : ι} (h : i ∈ places) :
    ∃ others, ∀ f' : ι → Option β, (∀ j, j ≠ i → f' j = f j) →
      (places.filterMap f').Perm ((f' i).toList ++ others) := by
  obtain ⟨front, back, rfl⟩ := List.append_of_mem h
  have hnot : i ∉ front ∧ i ∉ back := by
    simp only [List.nodup_append, List.nodup_cons, List.mem_cons, forall_eq_or_imp] at hplaces
    exact ⟨fun hi => (hplaces.2.2 i hi).1 rfl, hplaces.2.1.1⟩
  refine ⟨front.filterMap f ++ back.filterMap f, fun f' hf' => ?_⟩
  have hfront : front.filterMap f' = front.filterMap f :=
    List.filterMap_congr fun j hj => hf' j fun heq => hnot.1 (heq ▸ hj)
  have hback : back.filterMap f' = back.filterMap f :=
    List.filterMap_congr fun j hj => hf' j fun heq => hnot.2 (heq ▸ hj)
  rw [List.filterMap_append, hfront]
  cases hi : f' i with
  | none =>
    rw [List.filterMap_cons_none hi, hback]
    exact List.Perm.refl _
  | some b =>
    rw [List.filterMap_cons_some hi, hback]
    exact List.perm_middle

end Kit
