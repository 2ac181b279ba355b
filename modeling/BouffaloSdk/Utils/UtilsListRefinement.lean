import BouffaloSdk.Kit.Linked
import BouffaloSdk.Utils.UtilsList
import Mathlib.Data.List.Sort

/-!
# Intrusive lists are lists

What the operations do to the elements of a list, as long as those put in are in no list. Every
list stays a chain that ends with `NULL`, with `last` at its end.
-/

namespace BouffaloSdk.UtilsList
open Kit

variable {ι : Type*} [DecidableEq ι]

def spliceAfter (prev e : Nat) : List Nat → List Nat
  | [] => []
  | a :: l => if a = prev then a :: e :: l else a :: spliceAfter prev e l

def spliceBefore (nextElement e : Nat) : List Nat → List Nat
  | [] => []
  | a :: l => if a = nextElement then e :: a :: l else a :: spliceBefore nextElement e l

/-- What an operation does to the lists of elements, and the element that it returns. -/
def Op.apply (lists : ι → List Nat) : Op ι → (ι → List Nat) × Nat
  | .init k => (Function.update lists k [], 0)
  | .pushBack k hdr => (Function.update lists k (lists k ++ [hdr]), 0)
  | .pushFront k hdr => (Function.update lists k (hdr :: lists k), 0)
  | .popFront k => (Function.update lists k (lists k).tail, (lists k).headD 0)
  | .extract k hdr => (Function.update lists k ((lists k).erase hdr), 0)
  | .insert k element cmp =>
    (Function.update lists k ((lists k).orderedInsert (fun a b => cmp a b = true) element), 0)
  | .insertAfter k prevElement element =>
    (Function.update lists k
      (if prevElement = 0 then element :: lists k
        else spliceAfter prevElement element (lists k)), 0)
  | .insertBefore k nextElement element =>
    (Function.update lists k
      (if nextElement = 0 then lists k ++ [element]
        else spliceBefore nextElement element (lists k)), 0)
  | .concat list1 list2 =>
    (Function.update (Function.update lists list1 (lists list1 ++ lists list2)) list2 [], 0)
  | .remove k _ element => (Function.update lists k ((lists k).erase element), 0)

/-- The element is in no list. -/
def Fresh (lists : ι → List Nat) (e : Nat) : Prop := e ≠ 0 ∧ ∀ k, e ∉ lists k

/-- An element that is put in is in no list, and one that is removed follows the element named
as the previous one. -/
def Op.Legal (lists : ι → List Nat) : Op ι → Prop
  | .pushBack _ e | .pushFront _ e | .insert _ e _ | .insertAfter _ _ e | .insertBefore _ _ e =>
    Fresh lists e
  | .remove k prevElement element =>
    ∃ front back, lists k = front ++ element :: back ∧ prevElement = front.getLastD 0
  | .init _ | .popFront _ | .extract _ _ | .concat _ _ => True

/-- The lists in the memory are those of the elements: each is a chain without a cycle that ends
with `NULL`, and `last` is its final element. -/
structure Rep (m : Memory ι) (lists : ι → List Nat) : Prop where
  linked : ∀ k, Linked m.next 0 (m.list k).first (lists k)
  nodup : ∀ k, (lists k).Nodup
  last : ∀ k a, (lists k).getLast? = some a → a = (m.list k).last
  disjoint : ∀ k k', k ≠ k' → (lists k).Disjoint (lists k')

variable {m m' : Memory ι} {lists : ι → List Nat} {k : ι} {e p : Nat} {l l' front back : List Nat}
variable {next : Nat → Nat} {turns scan hdr : Nat}

/-! ## Memory -/

section Memory

variable (m : Memory ι) (k : ι) (a v : Nat)

omit [DecidableEq ι] in
@[simp] theorem setNext_list : (m.setNext a v).list = m.list := rfl

omit [DecidableEq ι] in
@[simp] theorem setNext_next_self : (m.setNext a v).next a = v := Function.update_self ..

omit [DecidableEq ι] in
theorem setNext_next_of_ne {a b : Nat} (h : b ≠ a) : (m.setNext a v).next b = m.next b :=
  Function.update_of_ne h ..

@[simp] theorem setFirst_next : (m.setFirst k v).next = m.next := rfl

@[simp] theorem setLast_next : (m.setLast k v).next = m.next := rfl

@[simp] theorem setFirst_list_self : (m.setFirst k v).list k = ⟨v, (m.list k).last⟩ :=
  Function.update_self ..

@[simp] theorem setLast_list_self : (m.setLast k v).list k = ⟨(m.list k).first, v⟩ :=
  Function.update_self ..

theorem setFirst_list_of_ne {k' : ι} (h : k' ≠ k) : (m.setFirst k v).list k' = m.list k' :=
  Function.update_of_ne h ..

theorem setLast_list_of_ne {k' : ι} (h : k' ≠ k) : (m.setLast k v).list k' = m.list k' :=
  Function.update_of_ne h ..

end Memory

/-! ## One list of several -/

/-- The cells of one list and its ends are new, and those of the others as they were. -/
theorem Rep.replace (h : Rep m lists) (hlists : ∀ k', k' ≠ k → m'.list k' = m.list k')
    (hnext : ∀ k', k' ≠ k → ∀ a ∈ lists k', m'.next a = m.next a)
    (hlinked : Linked m'.next 0 (m'.list k).first l) (hnodup : l.Nodup)
    (hlast : ∀ a, l.getLast? = some a → a = (m'.list k).last)
    (hdisjoint : ∀ k', k' ≠ k → l.Disjoint (lists k')) : Rep m' (Function.update lists k l) where
  linked k' := by
    by_cases hk : k' = k
    · subst hk
      rwa [Function.update_self]
    · rw [Function.update_of_ne hk, hlists k' hk]
      exact (h.linked k').congr (hnext k' hk)
  nodup k' := by
    by_cases hk : k' = k
    · subst hk
      rwa [Function.update_self]
    · rw [Function.update_of_ne hk]
      exact h.nodup k'
  last k' := by
    by_cases hk : k' = k
    · subst hk
      rwa [Function.update_self]
    · rw [Function.update_of_ne hk, hlists k' hk]
      exact h.last k'
  disjoint k₁ k₂ hne := by
    by_cases h₁ : k₁ = k
    · subst h₁
      rw [Function.update_self, Function.update_of_ne hne.symm]
      exact hdisjoint k₂ hne.symm
    · rw [Function.update_of_ne h₁]
      by_cases h₂ : k₂ = k
      · subst h₂
        rw [Function.update_self]
        exact fun a ha ha' => hdisjoint k₁ h₁ ha' ha
      · rw [Function.update_of_ne h₂]
        exact h.disjoint k₁ k₂ hne

omit [DecidableEq ι] in
theorem Rep.first_eq_zero (h : Rep m lists) : (m.list k).first = 0 ↔ lists k = [] := by
  have hlinked := h.linked k
  constructor
  · intro hzero
    rw [hzero] at hlinked
    exact hlinked.eq_nil
  · intro hnil
    rw [hnil] at hlinked
    exact hlinked

omit [DecidableEq ι] in
theorem Rep.first_eq (h : Rep m lists) (hl : lists k = e :: back) : (m.list k).first = e := by
  have hlinked := h.linked k
  rw [hl] at hlinked
  exact hlinked.1

omit [DecidableEq ι] in
theorem Rep.next_eq (h : Rep m lists) (hl : lists k = front ++ e :: back) :
    m.next e = back.headD 0 := by
  have hlinked := h.linked k
  rw [hl] at hlinked
  cases back with
  | nil => exact hlinked.rest
  | cons a back => exact hlinked.rest.1

omit [DecidableEq ι] in
theorem Rep.ne_zero (h : Rep m lists) (he : e ∈ lists k) : e ≠ 0 := (h.linked k).ne_null he

/-- An element comes between two parts of a list. -/
theorem Rep.splice (h : Rep m lists) (hl : lists k = front ++ back) (hfresh : Fresh lists e)
    (hlists : ∀ k', k' ≠ k → m'.list k' = m.list k') (hnext : m'.next e = back.headD 0)
    (hprev : ∀ p, front.getLast? = some p → m'.next p = e ∧ (m'.list k).first = (m.list k).first)
    (hfirst : front = [] → (m'.list k).first = e)
    (hother : ∀ a, a ≠ e → front.getLast? ≠ some a → m'.next a = m.next a)
    (hlast : (m'.list k).last = if back = [] then e else (m.list k).last) :
    Rep m' (Function.update lists k (front ++ e :: back)) := by
  have hnodup := h.nodup k
  have hlinked := h.linked k
  rw [hl] at hnodup hlinked
  have hnotin : e ∉ front ++ back := hl ▸ hfresh.2 k
  have hback : Linked m'.next 0 e (e :: back) := by
    refine ⟨rfl, hfresh.1, ?_⟩
    rw [hnext]
    have hsame : ∀ a ∈ back, m'.next a = m.next a := by
      intro a ha
      refine hother a (fun heq => hnotin (heq ▸ List.mem_append_right _ ha)) fun hlast => ?_
      exact (List.nodup_append.mp hnodup).2.2 a (List.mem_of_getLast? hlast) a ha rfl
    cases back with
    | nil => rfl
    | cons b back => exact hlinked.from_cell.congr hsame
  refine h.replace hlists ?_ ?_ ?_ ?_ ?_
  · intro k' hk a ha
    refine hother a (fun heq => hfresh.2 k' (heq ▸ ha)) fun hlast => ?_
    have hmem : a ∈ lists k := hl ▸ List.mem_append_left _ (List.mem_of_getLast? hlast)
    exact h.disjoint k k' hk.symm hmem ha
  · rcases List.eq_nil_or_concat' front with rfl | ⟨front, p, rfl⟩
    · rw [hfirst rfl]
      exact hback
    · obtain ⟨hp, hsame⟩ := hprev p (by simp)
      rw [hsame]
      rw [List.append_assoc] at hlinked hnodup ⊢
      refine hlinked.graft (fun a ha => ?_) (hp ▸ hback)
      refine hother a (fun heq => hnotin ?_) fun hlast => ?_
      · rw [← heq]
        simp [ha]
      · have heq : p = a := by simpa using hlast
        exact (List.nodup_append.mp hnodup).2.2 a ha p (List.mem_cons_self ..) heq.symm
  · have hperm : (front ++ e :: back).Perm (e :: (front ++ back)) := List.perm_middle
    exact hperm.nodup_iff.mpr (List.nodup_cons.mpr ⟨hnotin, hnodup⟩)
  · intro a ha
    rw [hlast]
    cases back with
    | nil =>
      rw [List.getLast?_append_cons, List.getLast?_singleton] at ha
      rw [if_pos rfl]
      exact (Option.some.inj ha).symm
    | cons b back =>
      rw [if_neg (List.cons_ne_nil _ _)]
      refine h.last k a ?_
      rw [hl]
      rw [List.getLast?_append_cons, List.getLast?_cons_cons] at ha
      rw [List.getLast?_append_cons]
      exact ha
  · intro k' hk a ha ha'
    rw [List.mem_append, List.mem_cons] at ha
    have hnot : a ∉ lists k := fun hmem => h.disjoint k k' hk.symm hmem ha'
    rcases ha with ha | rfl | ha
    · exact hnot (hl ▸ List.mem_append_left _ ha)
    · exact hfresh.2 k' ha'
    · exact hnot (hl ▸ List.mem_append_right _ ha)

/-- An element leaves a list. -/
theorem Rep.unsplice (h : Rep m lists) (hl : lists k = front ++ e :: back)
    (hlists : ∀ k', k' ≠ k → m'.list k' = m.list k')
    (hprev : ∀ p, front.getLast? = some p →
      m'.next p = m.next e ∧ (m'.list k).first = (m.list k).first)
    (hfirst : front = [] → (m'.list k).first = m.next e)
    (hother : ∀ a, a ≠ e → front.getLast? ≠ some a → m'.next a = m.next a)
    (hlast : ∀ p, back = [] → front.getLast? = some p → (m'.list k).last = p)
    (hsameLast : back ≠ [] → (m'.list k).last = (m.list k).last) :
    Rep m' (Function.update lists k (front ++ back)) := by
  have hnodup := h.nodup k
  have hlinked := h.linked k
  rw [hl] at hnodup hlinked
  have hcons := (List.perm_middle.nodup_iff.mp hnodup)
  obtain ⟨hnotin, hnodup'⟩ := List.nodup_cons.mp hcons
  have hback : Linked m'.next 0 (m.next e) back := by
    refine hlinked.rest.congr fun a ha => ?_
    refine hother a (fun heq => hnotin (heq ▸ List.mem_append_right _ ha)) fun hlast => ?_
    exact (List.nodup_append.mp hnodup').2.2 a (List.mem_of_getLast? hlast) a ha rfl
  refine h.replace hlists ?_ ?_ hnodup' ?_ ?_
  · intro k' hk a ha
    have hnot : a ∉ lists k := fun hmem => h.disjoint k k' hk.symm hmem ha
    rw [hl] at hnot
    refine hother a (fun heq => hnot (by simp [heq])) fun hlast => ?_
    exact hnot (List.mem_append_left _ (List.mem_of_getLast? hlast))
  · rcases List.eq_nil_or_concat' front with rfl | ⟨front, p, rfl⟩
    · rw [hfirst rfl]
      exact hback
    · obtain ⟨hp, hsame⟩ := hprev p (by simp)
      rw [hsame]
      rw [List.append_assoc] at hlinked hnodup' ⊢
      refine hlinked.graft (fun a ha => ?_) (hp ▸ hback)
      refine hother a (fun heq => hnotin ?_) fun hlast => ?_
      · rw [← heq]
        simp [ha]
      · have heq : p = a := by simpa using hlast
        exact (List.nodup_append.mp hnodup').2.2 a ha p (List.mem_cons_self ..) heq.symm
  · intro a ha
    cases back with
    | nil =>
      rw [List.append_nil] at ha
      exact (hlast a rfl ha).symm
    | cons b back =>
      rw [hsameLast (List.cons_ne_nil _ _)]
      refine h.last k a ?_
      rw [hl, List.getLast?_append_cons, List.getLast?_cons_cons]
      rwa [List.getLast?_append_cons] at ha
  · intro k' hk a ha ha'
    refine h.disjoint k k' hk.symm ?_ ha'
    rw [hl]
    rw [List.mem_append] at ha ⊢
    exact ha.imp_right (List.mem_cons_of_mem _)

theorem Rep.same (h : Rep m lists) (hl : l = lists k) : Rep m (Function.update lists k l) := by
  rwa [hl, Function.update_eq_self]

/-! ## Loops -/

theorem scanBefore_spec {a : Nat} (h : Linked next 0 scan (a :: l)) (hturns : l.length < turns)
    (hne : a ≠ hdr) : ∃ front p back, a :: l = front ++ p :: back ∧
      scanBefore next hdr turns scan = some p ∧ hdr ∉ front ++ [p] ∧
        (back = [] ∨ ∃ back', back = hdr :: back') := by
  obtain ⟨rfl, ha, hl⟩ := h
  induction l generalizing scan turns with
  | nil =>
    obtain ⟨turns, rfl⟩ := Nat.exists_eq_add_of_lt hturns
    refine ⟨[], scan, [], rfl, ?_, by simp [hne.symm], .inl rfl⟩
    have hzero : next scan = 0 := hl
    simp [scanBefore, hzero]
  | cons b l ih =>
    obtain ⟨turns, rfl⟩ := Nat.exists_eq_add_of_lt hturns
    obtain ⟨rfl, hb, hrest⟩ := hl
    by_cases hfound : next scan = hdr
    · refine ⟨[], scan, next scan :: l, rfl, ?_, by simp [hne.symm], .inr ⟨l, by rw [hfound]⟩⟩
      simp [scanBefore, hfound]
    · obtain ⟨front, p, back, hsplit, hscan, hnotin, hback⟩ :=
        ih (show l.length < (next scan :: l).length + turns by simp; omega) hfound hb hrest
      refine ⟨scan :: front, p, back, by rw [hsplit, List.cons_append], ?_, ?_, hback⟩
      · rw [scanBefore, if_pos ⟨hb, hfound⟩]
        exact hscan
      · simp only [List.cons_append, List.mem_cons, not_or]
        exact ⟨hne.symm, hnotin⟩

theorem scanFor_spec (h : Linked next 0 scan l) (hturns : l.length < turns) :
    scanFor next hdr turns scan = some (if hdr ∈ l then hdr else 0) := by
  induction l generalizing scan turns with
  | nil =>
    obtain ⟨turns, rfl⟩ := Nat.exists_eq_add_of_lt hturns
    obtain rfl : scan = 0 := h
    simp [scanFor]
  | cons b l ih =>
    obtain ⟨turns, rfl⟩ := Nat.exists_eq_add_of_lt hturns
    obtain ⟨rfl, hb, hrest⟩ := h
    by_cases hfound : scan = hdr
    · simp [scanFor, hfound]
    · rw [scanFor, if_pos ⟨hfound, hb⟩, ih hrest (by simp; omega)]
      simp [Ne.symm hfound]

theorem scanSorted_spec (cmp : Nat → Nat → Bool) (e : Nat) (h : Linked next 0 scan l)
    (hturns : l.length < turns) (prev : Nat) : ∃ front back, l = front ++ back ∧
      scanSorted next (cmp e) turns prev scan = some (front.getLastD prev, back.headD 0) ∧
        l.orderedInsert (fun a b => cmp a b = true) e = front ++ e :: back := by
  induction l generalizing scan turns prev with
  | nil =>
    obtain ⟨turns, rfl⟩ := Nat.exists_eq_add_of_lt hturns
    obtain rfl : scan = 0 := h
    exact ⟨[], [], rfl, by simp [scanSorted], rfl⟩
  | cons b l ih =>
    obtain ⟨turns, rfl⟩ := Nat.exists_eq_add_of_lt hturns
    obtain ⟨rfl, hb, hrest⟩ := h
    by_cases hfound : cmp e scan = true
    · refine ⟨[], scan :: l, rfl, ?_, ?_⟩
      · simp [scanSorted, hb, hfound]
      · simp [List.orderedInsert, hfound]
    · obtain ⟨front, back, hsplit, hscan, hinsert⟩ :=
        ih hrest (show l.length < (scan :: l).length + turns by simp; omega) scan
      refine ⟨scan :: front, back, by rw [hsplit, List.cons_append], ?_, ?_⟩
      · rw [scanSorted, if_pos hb, if_neg hfound]
        rw [hscan, List.getLastD_cons]
      · simp [List.orderedInsert, hfound, hinsert]

theorem scanNext_spec {a : Nat} (h : Linked next 0 scan (a :: l)) (hturns : l.length + 1 < turns)
    (hzero : hdr ≠ 0) (hne : a ≠ hdr) :
    (hdr ∉ l ∧ scanNext next hdr turns scan = some 0) ∨
      ∃ front p back, a :: l = front ++ p :: hdr :: back ∧
        scanNext next hdr turns scan = some p ∧ hdr ∉ front ++ [p] := by
  obtain ⟨rfl, ha, hl⟩ := h
  induction l generalizing scan turns with
  | nil =>
    obtain ⟨turns, rfl⟩ := Nat.exists_eq_add_of_lt hturns
    left
    have hnext : next scan = 0 := hl
    have hother : next scan ≠ hdr := by rw [hnext]; exact hzero.symm
    refine ⟨List.not_mem_nil, ?_⟩
    rw [scanNext, if_pos ⟨ha, hother⟩, hnext, List.length_nil, Nat.zero_add, Nat.add_comm]
    simp [scanNext]
  | cons b l ih =>
    obtain ⟨turns, rfl⟩ := Nat.exists_eq_add_of_lt hturns
    obtain ⟨rfl, hb, hrest⟩ := hl
    by_cases hfound : next scan = hdr
    · right
      refine ⟨[], scan, l, by rw [hfound]; rfl, ?_, by simp [hne.symm]⟩
      simp [scanNext, hfound]
    · have hstep : scanNext next hdr ((next scan :: l).length + 1 + turns + 1) scan =
          scanNext next hdr ((next scan :: l).length + 1 + turns) (next scan) := by
        rw [scanNext, if_pos ⟨ha, hfound⟩]
      rw [hstep]
      rcases ih (show l.length + 1 < (next scan :: l).length + 1 + turns by simp; omega)
          hfound hb hrest with
        ⟨hnotin, hscan⟩ | ⟨front, p, back, hsplit, hscan, hnotin⟩
      · exact .inl ⟨by simp [hnotin, Ne.symm hfound], hscan⟩
      · refine .inr ⟨scan :: front, p, back, by rw [hsplit, List.cons_append], hscan, ?_⟩
        simp only [List.cons_append, List.mem_cons, not_or]
        exact ⟨hne.symm, hnotin⟩

/-! ## Operations that put an element in -/

omit [DecidableEq ι] in
theorem Rep.first_eq_headD (h : Rep m lists) : (m.list k).first = (lists k).headD 0 := by
  cases hl : lists k with
  | nil => exact h.first_eq_zero.mpr hl
  | cons a l => exact h.first_eq hl

omit [DecidableEq ι] in
theorem Rep.headD_eq_zero (h : Rep m lists) (hl : lists k = front ++ back) :
    back.headD 0 = 0 ↔ back = [] := by
  cases back with
  | nil => simp
  | cons a back =>
    have ha : a ≠ 0 := h.ne_zero (k := k) (by rw [hl]; simp)
    simp [ha]

theorem pushBack_refines (h : Rep m lists) (hfresh : Fresh lists e) :
    Rep (utilsListPushBack m k e) (Function.update lists k (lists k ++ [e])) := by
  have hnotin := hfresh.2 k
  unfold utilsListPushBack
  by_cases hempty : (m.list k).first = 0
  · have hnil := h.first_eq_zero.mp hempty
    simp only [if_pos hempty]
    refine h.splice (List.append_nil _).symm hfresh ?_ ?_ ?_ ?_ ?_ ?_
    · intro k' hk
      rw [setNext_list, setLast_list_of_ne _ _ _ hk, setFirst_list_of_ne _ _ _ hk]
    · simp
    · intro p hp
      rw [hnil] at hp
      cases hp
    · simp
    · intro a ha _
      rw [setNext_next_of_ne _ _ ha]
      rfl
    · simp
  · have hne : lists k ≠ [] := fun hnil => hempty (h.first_eq_zero.mpr hnil)
    simp only [if_neg hempty]
    refine h.splice (List.append_nil _).symm hfresh ?_ ?_ ?_ ?_ ?_ ?_
    · intro k' hk
      rw [setNext_list, setLast_list_of_ne _ _ _ hk, setNext_list]
    · simp
    · intro p hp
      have hpe : p ≠ e := fun heq => hnotin (heq ▸ List.mem_of_getLast? hp)
      rw [setNext_next_of_ne _ _ hpe, setLast_next, h.last k p hp]
      simp
    · exact fun hnil => absurd hnil hne
    · intro a ha hlast
      have hother : a ≠ (m.list k).last := by
        obtain ⟨p, hp⟩ := Option.ne_none_iff_exists'.mp (List.getLast?_eq_none_iff.not.mpr hne)
        rw [← h.last k p hp]
        rintro rfl
        exact hlast hp
      rw [setNext_next_of_ne _ _ ha, setLast_next, setNext_next_of_ne _ _ hother]
    · simp

theorem pushFront_refines (h : Rep m lists) (hfresh : Fresh lists e) :
    Rep (utilsListPushFront m k e) (Function.update lists k (e :: lists k)) := by
  have hfirst := h.first_eq_headD (k := k)
  unfold utilsListPushFront
  refine h.splice (show lists k = [] ++ lists k from rfl) hfresh ?_ ?_ ?_ ?_ ?_ ?_
  · intro k' hk
    rw [setFirst_list_of_ne _ _ _ hk, setNext_list]
    split
    · exact setLast_list_of_ne _ _ _ hk
    · rfl
  · rw [setFirst_next, setNext_next_self, ← hfirst]
    split <;> simp
  · intro p hp
    cases hp
  · simp
  · intro a ha _
    rw [setFirst_next, setNext_next_of_ne _ _ ha]
    split <;> rfl
  · rw [setFirst_list_self, setNext_list]
    dsimp only
    by_cases hempty : (m.list k).first = 0
    · simp [hempty, h.first_eq_zero.mp hempty]
    · have hne : lists k ≠ [] := fun hnil => hempty (h.first_eq_zero.mpr hnil)
      simp [hempty, hne]

theorem insert_refines (h : Rep m lists) (hfresh : Fresh lists e) (cmp : Nat → Nat → Bool)
    (hturns : (lists k).length < turns) : ∃ m', utilsListInsert turns m k e cmp = some m' ∧
      Rep m' (Function.update lists k ((lists k).orderedInsert (fun a b => cmp a b = true) e)) := by
  obtain ⟨front, back, hsplit, hscan, hinsert⟩ := scanSorted_spec cmp e (h.linked k) hturns 0
  unfold utilsListInsert
  rw [hscan, hinsert]
  refine ⟨_, rfl, ?_⟩
  dsimp only
  have hend := h.headD_eq_zero hsplit
  have hnotin : e ∉ front ++ back := hsplit ▸ hfresh.2 k
  rcases List.eq_nil_or_concat' front with rfl | ⟨init, p, rfl⟩
  · rw [if_neg (by simp)]
    refine h.splice hsplit hfresh ?_ ?_ ?_ ?_ ?_ ?_
    · intro k' hk
      rw [setFirst_list_of_ne _ _ _ hk, setNext_list]
      split
      · exact setLast_list_of_ne _ _ _ hk
      · rfl
    · simp
    · intro p hp
      cases hp
    · simp
    · intro a ha _
      rw [setFirst_next, setNext_next_of_ne _ _ ha]
      split <;> rfl
    · rw [setFirst_list_self, setNext_list]
      dsimp only
      by_cases hback : back = []
      · simp [hback]
      · rw [if_neg (mt hend.mp hback), if_neg hback]
  · have hp : p ∈ lists k := by rw [hsplit]; simp
    have hpe : p ≠ e := fun heq => hnotin (by simp [heq])
    have hlastD : (init ++ [p]).getLastD 0 = p := by simp
    rw [hlastD, if_pos (h.ne_zero hp)]
    refine h.splice hsplit hfresh ?_ ?_ ?_ ?_ ?_ ?_
    · intro k' hk
      rw [setNext_list, setNext_list]
      split
      · exact setLast_list_of_ne _ _ _ hk
      · rfl
    · rw [setNext_next_of_ne _ _ hpe.symm, setNext_next_self]
    · intro q hq
      have hqp : p = q := by simpa using hq
      subst hqp
      refine ⟨by simp, ?_⟩
      rw [setNext_list, setNext_list]
      split <;> simp
    · exact fun hnil => absurd hnil (by simp)
    · intro a ha hlast
      have hap : a ≠ p := by
        rintro rfl
        exact hlast (by simp)
      rw [setNext_next_of_ne _ _ hap, setNext_next_of_ne _ _ ha]
      split <;> rfl
    · rw [setNext_list, setNext_list]
      by_cases hback : back = []
      · simp [hback]
      · rw [if_neg (mt hend.mp hback), if_neg hback]

/-- The list is cut behind an element that is in it. -/
theorem spliceAfter_split (hp : p ∉ front) :
    spliceAfter p e (front ++ p :: back) = front ++ p :: e :: back := by
  induction front with
  | nil => simp [spliceAfter]
  | cons a front ih =>
    rw [List.mem_cons, not_or] at hp
    simp [spliceAfter, Ne.symm hp.1, ih hp.2]

theorem spliceAfter_of_notMem (hp : p ∉ l) : spliceAfter p e l = l := by
  induction l with
  | nil => rfl
  | cons a l ih =>
    rw [List.mem_cons, not_or] at hp
    simp [spliceAfter, Ne.symm hp.1, ih hp.2]

theorem spliceBefore_split (hp : p ∉ front) :
    spliceBefore p e (front ++ p :: back) = front ++ e :: p :: back := by
  induction front with
  | nil => simp [spliceBefore]
  | cons a front ih =>
    rw [List.mem_cons, not_or] at hp
    simp [spliceBefore, Ne.symm hp.1, ih hp.2]

theorem spliceBefore_of_notMem (hp : p ∉ l) : spliceBefore p e l = l := by
  induction l with
  | nil => rfl
  | cons a l ih =>
    rw [List.mem_cons, not_or] at hp
    simp [spliceBefore, Ne.symm hp.1, ih hp.2]

theorem insertAfter_refines (h : Rep m lists) (hfresh : Fresh lists e)
    (hturns : (lists k).length < turns) : ∃ m', utilsListInsertAfter turns m k p e = some m' ∧
      Rep m' (Function.update lists k
        (if p = 0 then e :: lists k else spliceAfter p e (lists k))) := by
  unfold utilsListInsertAfter
  by_cases hp : p = 0
  · rw [if_pos hp, if_pos hp]
    exact ⟨_, rfl, pushFront_refines h hfresh⟩
  · rw [if_neg hp, if_neg hp, scanFor_spec (h.linked k) hturns]
    refine ⟨_, rfl, ?_⟩
    dsimp only
    by_cases hmem : p ∈ lists k
    · rw [if_pos hmem, if_pos hp]
      obtain ⟨front, back, hsplit, hnot⟩ := List.eq_append_cons_of_mem hmem
      have hpe : p ≠ e := fun heq => hfresh.2 k (heq ▸ hmem)
      have hnext := h.next_eq hsplit
      have hsplit' : lists k = (front ++ [p]) ++ back := by simp [hsplit]
      have hend := h.headD_eq_zero hsplit'
      rw [setNext_next_of_ne _ _ hpe.symm, setNext_next_self, hnext, hsplit,
        spliceAfter_split hnot, List.append_cons]
      refine h.splice hsplit' hfresh ?_ ?_ ?_ ?_ ?_ ?_
      · intro k' hk
        split
        · exact setLast_list_of_ne _ _ _ hk
        · rfl
      · split
        · rw [setLast_next, setNext_next_of_ne _ _ hpe.symm, setNext_next_self]
        · rw [setNext_next_of_ne _ _ hpe.symm, setNext_next_self]
      · intro q hq
        have hqp : p = q := by simpa using hq
        subst hqp
        split <;> simp
      · exact fun hnil => absurd hnil (by simp)
      · intro a ha hlast
        have hap : a ≠ p := by
          rintro rfl
          exact hlast (by simp)
        have hsame : ((m.setNext e (back.headD 0)).setNext p e).next a = m.next a := by
          rw [setNext_next_of_ne _ _ hap, setNext_next_of_ne _ _ ha]
        split
        · exact hsame
        · exact hsame
      · by_cases hback : back = []
        · simp [hback]
        · rw [if_neg (mt hend.mp hback), if_neg hback]
          rfl
    · rw [if_neg hmem, if_neg (by simp)]
      exact h.same (spliceAfter_of_notMem hmem)

theorem insertBefore_refines (h : Rep m lists) (hfresh : Fresh lists e)
    (hturns : (lists k).length < turns) : ∃ m', utilsListInsertBefore turns m k p e = some m' ∧
      Rep m' (Function.update lists k
        (if p = 0 then lists k ++ [e] else spliceBefore p e (lists k))) := by
  unfold utilsListInsertBefore
  by_cases hp : p = 0
  · rw [if_pos hp, if_pos hp]
    exact ⟨_, rfl, pushBack_refines h hfresh⟩
  rw [if_neg hp, if_neg hp]
  cases hl : lists k with
  | nil =>
    have hzero := h.first_eq_zero.mpr hl
    obtain ⟨turns, rfl⟩ := Nat.exists_eq_add_of_lt hturns
    rw [hzero, if_neg hp]
    refine ⟨m, ?_, h.same (by rw [hl]; rfl)⟩
    simp [scanNext]
  | cons a l =>
    have hfirst := h.first_eq hl
    rw [hfirst]
    by_cases hpa : p = a
    · rw [if_pos hpa, hpa]
      refine ⟨_, rfl, ?_⟩
      have hsplice : spliceBefore a e (a :: l) = e :: lists k := by simp [spliceBefore, hl]
      rw [hsplice]
      exact pushFront_refines h hfresh
    · rw [if_neg hpa]
      have hlinked := h.linked k
      rw [hl, hfirst] at hlinked
      rw [hl] at hturns
      rcases scanNext_spec hlinked hturns hp (Ne.symm hpa) with
        ⟨hnotin, hscan⟩ | ⟨front, q, back, hsplit, hscan, hnotin⟩
      · rw [hscan]
        refine ⟨m, by simp, h.same ?_⟩
        rw [hl]
        exact spliceBefore_of_notMem (by simp [hpa, hnotin])
      · have hsplit' : lists k = (front ++ [q]) ++ p :: back := by rw [hl, hsplit]; simp
        have hq : q ∈ lists k := by rw [hsplit']; simp
        have hqe : q ≠ e := fun heq => hfresh.2 k (heq ▸ hq)
        rw [hscan, ← hl, hsplit', spliceBefore_split hnotin]
        refine ⟨_, rfl, ?_⟩
        dsimp only
        rw [if_pos (h.ne_zero hq)]
        refine h.splice hsplit' hfresh ?_ ?_ ?_ ?_ ?_ ?_
        · intro k' _
          rfl
        · rw [setNext_next_of_ne _ _ hqe.symm, setNext_next_self]
          rfl
        · intro r hr
          have hrq : q = r := by simpa using hr
          subst hrq
          simp
        · exact fun hnil => absurd hnil (by simp)
        · intro b hb hlast
          have hbq : b ≠ q := by
            rintro rfl
            exact hlast (by simp)
          rw [setNext_next_of_ne _ _ hbq, setNext_next_of_ne _ _ hb]
        · rw [if_neg (List.cons_ne_nil _ _)]
          rfl

/-! ## Operations that take an element out -/

theorem setFirst_refines (h : Rep m lists) (hl : lists k = e :: back) :
    Rep (m.setFirst k (m.next e)) (Function.update lists k back) := by
  refine h.unsplice (show lists k = [] ++ e :: back from hl) ?_ ?_ ?_ ?_ ?_ ?_
  · exact fun k' hk => setFirst_list_of_ne _ _ _ hk
  · intro p hp
    cases hp
  · simp
  · intro a _ _
    rfl
  · intro p _ hp
    cases hp
  · simp

theorem popFront_refines (h : Rep m lists) :
    Rep (utilsListPopFront m k).1 (Function.update lists k (lists k).tail) := by
  unfold utilsListPopFront
  dsimp only
  cases hl : lists k with
  | nil =>
    rw [if_neg (not_not.mpr (h.first_eq_zero.mpr hl))]
    exact h.same hl.symm
  | cons a l =>
    have hfirst := h.first_eq hl
    have ha : a ≠ 0 := h.ne_zero (k := k) (by simp [hl])
    rw [hfirst, if_pos ha]
    exact setFirst_refines h hl

omit [DecidableEq ι] in
/-- Which element `last` names. -/
theorem Rep.last_eq_iff (h : Rep m lists) (hl : lists k = front ++ e :: back) :
    (m.list k).last = e ↔ back = [] := by
  have hlast := h.last k
  have hnodup := h.nodup k
  rw [hl] at hlast hnodup
  cases back with
  | nil => simpa using (hlast e (by simp)).symm
  | cons b back =>
    simp only [List.cons_ne_nil, iff_false]
    rintro rfl
    have hmem : (m.list k).last ∈ b :: back := by
      obtain ⟨c, hc⟩ := Option.ne_none_iff_exists'.mp
        (List.getLast?_eq_none_iff.not.mpr (List.cons_ne_nil b back))
      have heq := hlast c (by rw [List.getLast?_append_cons, List.getLast?_cons_cons]; exact hc)
      exact heq ▸ List.mem_of_getLast? hc
    have hcons := (List.nodup_append.mp hnodup).2.1
    exact (List.nodup_cons.mp hcons).1 hmem

/-- An element behind another leaves the list. -/
theorem unlink_refines (h : Rep m lists) (hl : lists k = front ++ [p] ++ e :: back) :
    Rep ((if (m.list k).last = e then m.setLast k p else m).setNext p (m.next e))
      (Function.update lists k (front ++ [p] ++ back)) := by
  have hlast := h.last_eq_iff hl
  refine h.unsplice hl ?_ ?_ ?_ ?_ ?_ ?_
  · intro k' hk
    rw [setNext_list]
    split
    · exact setLast_list_of_ne _ _ _ hk
    · rfl
  · intro q hq
    have hpq : p = q := by simpa using hq
    subst hpq
    refine ⟨by simp, ?_⟩
    rw [setNext_list]
    split <;> simp
  · exact fun hnil => absurd hnil (by simp)
  · intro a _ ha
    have hap : a ≠ p := by
      rintro rfl
      exact ha (by simp)
    rw [setNext_next_of_ne _ _ hap]
    split <;> rfl
  · intro q hback hq
    have hpq : p = q := by simpa using hq
    subst hpq
    rw [setNext_list, if_pos (hlast.mpr hback)]
    simp
  · intro hback
    rw [setNext_list, if_neg (mt hlast.mp hback)]

theorem extract_refines (hdr : Nat) (h : Rep m lists) (hturns : (lists k).length < turns) :
    ∃ m', utilsListExtract turns m k hdr = some m' ∧
      Rep m' (Function.update lists k ((lists k).erase hdr)) := by
  unfold utilsListExtract
  cases hl : lists k with
  | nil =>
    rw [if_pos (h.first_eq_zero.mpr hl)]
    exact ⟨m, rfl, h.same hl.symm⟩
  | cons a l =>
    have hfirst := h.first_eq hl
    have ha : a ≠ 0 := h.ne_zero (k := k) (by simp [hl])
    rw [hfirst, if_neg ha]
    by_cases hah : a = hdr
    · rw [if_pos hah, ← hah, List.erase_cons_head]
      exact ⟨_, rfl, setFirst_refines h hl⟩
    · have hlinked := h.linked k
      rw [hl, hfirst] at hlinked
      rw [hl, List.length_cons] at hturns
      obtain ⟨front, p, back, hsplit, hscan, hnotin, hback⟩ :=
        scanBefore_spec hlinked (Nat.lt_of_succ_lt hturns) hah
      rw [if_neg hah, hscan, hsplit]
      refine ⟨_, rfl, ?_⟩
      dsimp only
      have hsplit' : lists k = (front ++ [p]) ++ back := by rw [hl, hsplit, List.append_cons]
      have hnext := h.next_eq (hl.trans hsplit)
      rcases hback with rfl | ⟨back, rfl⟩
      · rw [hnext, if_neg (by simp)]
        refine h.same ?_
        rw [List.erase_of_not_mem hnotin, hsplit', List.append_nil]
      · have hhdr : hdr ≠ 0 := h.ne_zero (k := k) (by rw [hsplit']; simp)
        rw [hnext, List.headD_cons, if_pos hhdr, List.append_cons, List.erase_append_right _ hnotin,
          List.erase_cons_head]
        have hout := unlink_refines h hsplit'
        by_cases hlast : (m.list k).last = hdr
        · rw [if_pos hlast] at hout ⊢
          exact hout
        · rw [if_neg hlast] at hout ⊢
          exact hout

theorem remove_refines (h : Rep m lists) (hl : lists k = front ++ e :: back)
    (hprev : p = front.getLastD 0) :
    Rep (utilsListRemove m k p e) (Function.update lists k ((lists k).erase e)) := by
  have hnodup := h.nodup k
  rw [hl] at hnodup
  have hout : e ∉ front ++ back := (List.nodup_cons.mp (List.perm_middle.nodup_iff.mp hnodup)).1
  have herase : (lists k).erase e = front ++ back := by
    rw [hl, List.erase_append_right _ fun hmem => hout (List.mem_append_left _ hmem),
      List.erase_cons_head]
  -- the element that has left is in no list, so that its `next` may be cleared
  have hclear : ∀ m' : Memory ι, Rep m' (Function.update lists k (front ++ back)) →
      Rep (m'.setNext e 0) (Function.update lists k (front ++ back)) := by
    intro m' h'
    refine ⟨fun k' => (h'.linked k').congr fun a ha => ?_, h'.nodup, h'.last, h'.disjoint⟩
    refine setNext_next_of_ne _ _ ?_
    rintro rfl
    by_cases hk : k' = k
    · subst hk
      rw [Function.update_self] at ha
      exact hout ha
    · rw [Function.update_of_ne hk] at ha
      exact h.disjoint k k' (Ne.symm hk) (by rw [hl]; simp) ha
  unfold utilsListRemove
  rw [herase]
  refine hclear _ ?_
  rcases List.eq_nil_or_concat' front with rfl | ⟨init, q, rfl⟩
  · obtain rfl : p = 0 := hprev
    rw [if_pos rfl]
    exact setFirst_refines h hl
  · obtain rfl : p = q := by simpa using hprev
    have hp : p ≠ 0 := h.ne_zero (k := k) (by rw [hl]; simp)
    have hunlink := unlink_refines h hl
    rw [if_neg hp]
    dsimp only
    by_cases hlast : (m.list k).last = e
    · rw [if_pos hlast] at hunlink
      rw [setNext_list, if_pos hlast]
      exact hunlink
    · rw [if_neg hlast] at hunlink
      rw [setNext_list, if_neg hlast]
      exact hunlink

/-! ## Whole lists -/

theorem init_refines (h : Rep m lists) : Rep (utilsListInit m k) (Function.update lists k []) := by
  refine h.replace ?_ ?_ ?_ List.nodup_nil ?_ ?_
  · intro k' hk
    exact (setLast_list_of_ne _ _ _ hk).trans (setFirst_list_of_ne _ _ _ hk)
  · intro k' _ a _
    rfl
  · simp [utilsListInit, Linked]
  · intro a ha
    cases ha
  · intro k' _ a ha
    cases ha

theorem setFirst_zero_refines (h : Rep m lists) :
    Rep (m.setFirst k 0) (Function.update lists k []) := by
  refine h.replace ?_ ?_ ?_ List.nodup_nil ?_ ?_
  · exact fun k' hk => setFirst_list_of_ne _ _ _ hk
  · intro k' _ a _
    rfl
  · simp [Linked]
  · intro a ha
    cases ha
  · intro k' _ a ha
    cases ha

omit [DecidableEq ι] in
/-- A list that is not empty ends where `last` says. -/
theorem Rep.getLast_eq (h : Rep m lists) (hne : lists k ≠ []) :
    ∃ init, lists k = init ++ [(m.list k).last] := by
  rcases List.eq_nil_or_concat' (lists k) with hnil | ⟨init, p, hsplit⟩
  · exact absurd hnil hne
  · exact ⟨init, by rw [hsplit, ← h.last k p (by simp [hsplit])]⟩

omit [DecidableEq ι] in
/-- The chain of one list, with that of another behind it. -/
theorem Rep.linked_append (h : Rep m lists) {k₁ k₂ : ι} (hk : k₁ ≠ k₂) (hne : lists k₁ ≠ []) :
    Linked (m.setNext (m.list k₁).last (m.list k₂).first).next 0 (m.list k₁).first
      (lists k₁ ++ lists k₂) := by
  obtain ⟨init, hsplit⟩ := h.getLast_eq hne
  have hlinked := h.linked k₁
  have hnodup := h.nodup k₁
  rw [hsplit] at hlinked hnodup ⊢
  rw [List.append_assoc]
  refine hlinked.graft (fun a ha => setNext_next_of_ne _ _ ?_) ?_
  · exact (List.nodup_append.mp hnodup).2.2 a ha _ (List.mem_singleton_self _)
  · rw [setNext_next_self]
    refine (h.linked k₂).congr fun a ha => setNext_next_of_ne _ _ ?_
    rintro rfl
    exact h.disjoint k₁ k₂ hk (by rw [hsplit]; simp) ha

theorem concat_refines (h : Rep m lists) (list1 list2 : ι) :
    Rep (utilsListConcat m list1 list2)
      (Function.update (Function.update lists list1 (lists list1 ++ lists list2)) list2 []) := by
  unfold utilsListConcat
  by_cases hempty : (m.list list2).first = 0
  · have hnil := h.first_eq_zero.mp hempty
    rw [if_neg (not_not.mpr hempty), hnil, List.append_nil, Function.update_eq_self]
    exact h.same hnil.symm
  rw [if_pos hempty]
  dsimp only
  have hne₂ : lists list2 ≠ [] := fun hnil => hempty (h.first_eq_zero.mpr hnil)
  by_cases hk : list1 = list2
  · -- a list behind itself ends up empty
    subst hk
    rw [Function.update_idem, if_neg hempty]
    obtain ⟨init, hsplit⟩ := h.getLast_eq hne₂
    refine h.replace ?_ ?_ ?_ List.nodup_nil ?_ ?_
    · intro k' hk'
      rw [setFirst_list_of_ne _ _ _ hk', setLast_list_of_ne _ _ _ hk', setNext_list]
    · intro k' hk' a ha
      refine setNext_next_of_ne _ _ ?_
      rintro rfl
      exact h.disjoint list1 k' (Ne.symm hk') (by rw [hsplit]; simp) ha
    · simp [Linked]
    · intro a ha
      cases ha
    · intro k' _ a ha
      cases ha
  · rw [Function.update_comm hk]
    have hzero := setFirst_zero_refines (k := list2) h
    have hnodup : (lists list1 ++ lists list2).Nodup := List.nodup_append.mpr
      ⟨h.nodup list1, h.nodup list2, fun a ha b hb heq => h.disjoint list1 list2 hk ha (heq ▸ hb)⟩
    have hdisjoint : ∀ k', k' ≠ list1 →
        (lists list1 ++ lists list2).Disjoint (Function.update lists list2 [] k') := by
      intro k' hk' a ha ha'
      by_cases hk₂ : k' = list2
      · subst hk₂
        rw [Function.update_self] at ha'
        cases ha'
      · rw [Function.update_of_ne hk₂] at ha'
        rcases List.mem_append.mp ha with ha | ha
        · exact h.disjoint list1 k' (Ne.symm hk') ha ha'
        · exact h.disjoint list2 k' (Ne.symm hk₂) ha ha'
    have hlast : ∀ a, (lists list1 ++ lists list2).getLast? = some a → a = (m.list list2).last := by
      intro a ha
      refine h.last list2 a ?_
      rwa [List.getLast?_append_of_ne_nil _ hne₂] at ha
    by_cases hfirst : (m.list list1).first = 0
    · have hnil := h.first_eq_zero.mp hfirst
      rw [if_pos hfirst]
      refine hzero.replace ?_ ?_ ?_ hnodup ?_ hdisjoint
      · intro k' hk'
        by_cases hk₂ : k' = list2
        · subst hk₂
          rw [setFirst_list_self, setFirst_list_self]
          dsimp only
          rw [Function.update_of_ne hk']
        · rw [setFirst_list_of_ne _ _ _ hk₂, setFirst_list_of_ne _ _ _ hk₂]
          exact Function.update_of_ne hk' ..
      · intro k' _ a _
        rfl
      · rw [setFirst_list_of_ne _ _ _ hk, hnil, List.nil_append]
        dsimp only
        rw [Function.update_self]
        exact h.linked list2
      · rw [setFirst_list_of_ne _ _ _ hk]
        dsimp only
        rw [Function.update_self]
        exact hlast
    · have hne₁ : lists list1 ≠ [] := fun hnil => hfirst (h.first_eq_zero.mpr hnil)
      obtain ⟨init, hsplit⟩ := h.getLast_eq hne₁
      rw [if_neg hfirst]
      refine hzero.replace ?_ ?_ ?_ hnodup ?_ hdisjoint
      · intro k' hk'
        by_cases hk₂ : k' = list2
        · subst hk₂
          rw [setFirst_list_self, setFirst_list_self, setLast_list_of_ne _ _ _ hk', setNext_list]
        · rw [setFirst_list_of_ne _ _ _ hk₂, setFirst_list_of_ne _ _ _ hk₂,
            setLast_list_of_ne _ _ _ hk', setNext_list]
      · intro k' hk' a ha
        refine setNext_next_of_ne _ _ ?_
        rintro rfl
        refine hdisjoint k' hk' ?_ ha
        rw [hsplit]
        simp
      · rw [setFirst_list_of_ne _ _ _ hk, setLast_list_self, setFirst_next, setLast_next, setNext_list]
        exact h.linked_append hk hne₁
      · rw [setFirst_list_of_ne _ _ _ hk, setLast_list_self]
        exact hlast

/-! ## Questions -/

omit [DecidableEq ι] in
theorem utilsListFind_eq (h : Rep m lists) (hzero : hdr ≠ 0) (hturns : (lists k).length < turns) :
    utilsListFind turns m k hdr = some (decide (hdr ∈ lists k)) := by
  rw [utilsListFind, scanFor_spec (h.linked k) hturns]
  by_cases hmem : hdr ∈ lists k
  · simp [hmem]
  · simp [hmem, hzero.symm]

theorem countFrom_eq (h : Linked next 0 scan l) (hturns : l.length < turns) (cnt : Nat) :
    countFrom next turns (cnt % 2 ^ 32) scan = some ((cnt + l.length) % 2 ^ 32) := by
  induction l generalizing scan turns cnt with
  | nil =>
    obtain ⟨turns, rfl⟩ := Nat.exists_eq_add_of_lt hturns
    obtain rfl : scan = 0 := h
    simp [countFrom]
  | cons a l ih =>
    obtain ⟨turns, rfl⟩ := Nat.exists_eq_add_of_lt hturns
    obtain ⟨rfl, ha, hrest⟩ := h
    rw [countFrom, if_pos ha, Nat.mod_add_mod, ih hrest (by simp; omega), List.length_cons]
    congr 2
    omega

omit [DecidableEq ι] in
theorem utilsListCnt_eq (h : Rep m lists) (hturns : (lists k).length < turns) :
    utilsListCnt turns m k = some ((lists k).length % 2 ^ 32) := by
  have hcount := countFrom_eq (h.linked k) hturns 0
  rwa [Nat.zero_mod, Nat.zero_add] at hcount

/-! ## Runs -/

def Op.list : Op ι → ι
  | .init k | .pushBack k _ | .pushFront k _ | .popFront k | .extract k _ | .insert k _ _
  | .insertAfter k _ _ | .insertBefore k _ _ | .concat k _ | .remove k _ _ => k

/-- One operation does in the memory what it does to the lists. -/
theorem step_refines (h : Rep m lists) {op : Op ι} (hlegal : op.Legal lists)
    (hturns : (lists op.list).length < turns) :
    ∃ m', step turns m op = some (m', (op.apply lists).2) ∧ Rep m' (op.apply lists).1 := by
  cases op with
  | init k => exact ⟨_, rfl, init_refines h⟩
  | pushBack k hdr => exact ⟨_, rfl, pushBack_refines h hlegal⟩
  | pushFront k hdr => exact ⟨_, rfl, pushFront_refines h hlegal⟩
  | popFront k =>
    refine ⟨_, ?_, popFront_refines h⟩
    show some (utilsListPopFront m k) = some ((utilsListPopFront m k).1, (lists k).headD 0)
    rw [← h.first_eq_headD]
    rfl
  | extract k hdr =>
    obtain ⟨m', hm', hrep⟩ := extract_refines hdr h hturns
    exact ⟨m', congrArg (Option.map (·, 0)) hm', hrep⟩
  | insert k element cmp =>
    obtain ⟨m', hm', hrep⟩ := insert_refines h hlegal cmp hturns
    exact ⟨m', congrArg (Option.map (·, 0)) hm', hrep⟩
  | insertAfter k prevElement element =>
    obtain ⟨m', hm', hrep⟩ := insertAfter_refines (p := prevElement) h hlegal hturns
    exact ⟨m', congrArg (Option.map (·, 0)) hm', hrep⟩
  | insertBefore k nextElement element =>
    obtain ⟨m', hm', hrep⟩ := insertBefore_refines (p := nextElement) h hlegal hturns
    exact ⟨m', congrArg (Option.map (·, 0)) hm', hrep⟩
  | concat list1 list2 => exact ⟨_, rfl, concat_refines h list1 list2⟩
  | remove k prevElement element =>
    obtain ⟨front, back, hl, hprev⟩ := hlegal
    exact ⟨_, rfl, remove_refines h hl hprev⟩

/-- The operations of a run are legal, and no list is longer than the loops can go. -/
def LegalRun (lists : ι → List Nat) : List (Op ι) → Prop
  | [] => True
  | op :: ops => op.Legal lists ∧ LegalRun (op.apply lists).1 ops

def Within (turns : Nat) (lists : ι → List Nat) : List (Op ι) → Prop
  | [] => True
  | op :: ops => (lists op.list).length < turns ∧ Within turns (op.apply lists).1 ops

/-- The lists after a run, and what its operations have returned. -/
def applyAll (lists : ι → List Nat) : List (Op ι) → (ι → List Nat) × List Nat
  | [] => (lists, [])
  | op :: ops =>
    let (lists', outs) := applyAll (op.apply lists).1 ops
    (lists', (op.apply lists).2 :: outs)

theorem within_of_le {n : Nat} {ops : List (Op ι)} (h : Within n lists ops) (hle : n ≤ turns) :
    Within turns lists ops := by
  induction ops generalizing lists with
  | nil => trivial
  | cons op ops ih => exact ⟨Nat.lt_of_lt_of_le h.1 hle, ih h.2⟩

theorem exists_within (lists : ι → List Nat) (ops : List (Op ι)) : ∃ n, Within n lists ops := by
  induction ops generalizing lists with
  | nil => exact ⟨0, trivial⟩
  | cons op ops ih =>
    obtain ⟨n, hn⟩ := ih (op.apply lists).1
    refine ⟨max ((lists op.list).length + 1) n, ?_, within_of_le hn (Nat.le_max_right _ _)⟩
    exact Nat.lt_of_lt_of_le (Nat.lt_succ_self _) (Nat.le_max_left _ _)

theorem run_refines (h : Rep m lists) {ops : List (Op ι)} (hlegal : LegalRun lists ops)
    (hwithin : Within turns lists ops) :
    ∃ m', run turns m ops = some (m', (applyAll lists ops).2) ∧ Rep m' (applyAll lists ops).1 := by
  induction ops generalizing m lists with
  | nil => exact ⟨m, rfl, h⟩
  | cons op ops ih =>
    obtain ⟨m₁, hstep, hrep₁⟩ := step_refines h hlegal.1 hwithin.1
    obtain ⟨m₂, hrun, hrep₂⟩ := ih hrep₁ hlegal.2 hwithin.2
    refine ⟨m₂, ?_, hrep₂⟩
    rw [run, hstep, Option.bind_some]
    dsimp only
    rw [hrun]
    rfl

omit [DecidableEq ι] in
theorem rep_initialised (next : Nat → Nat) :
    Rep (initialised next : Memory ι) (fun _ => []) where
  linked _ := rfl
  nodup _ := List.nodup_nil
  last _ _ ha := nomatch ha
  disjoint _ _ _ _ ha := nomatch ha

/-- Whatever is done to lists that `utils_list_init` has made, they do as the lists of their
elements, and every one of them ends where `last` says. -/
theorem utils_list_simulates (next : Nat → Nat) (ops : List (Op ι))
    (hlegal : LegalRun (fun _ => []) ops) :
    ∃ bound, ∀ turns, bound ≤ turns → ∃ m,
      run turns (initialised next) ops = some (m, (applyAll (fun _ => []) ops).2) ∧
        Rep m (applyAll (fun _ => []) ops).1 := by
  obtain ⟨bound, hbound⟩ := exists_within (fun _ => []) ops
  exact ⟨bound, fun turns hle => run_refines (rep_initialised next) hlegal (within_of_le hbound hle)⟩

/-- Two lists of which one is put behind the other, and elements that leave at both ends. -/
def concatRun : List (Op Bool) :=
  [.pushBack true 4, .pushFront true 8, .pushBack false 12, .insertAfter false 12 16,
    .concat true false, .extract true 16, .remove true 0 8, .popFront true, .pushBack true 16]

theorem utils_list_simulates_concat : ∃ bound, ∀ turns, bound ≤ turns → ∃ m,
    run turns (initialised fun _ => 0) concatRun = some (m, (applyAll (fun _ => []) concatRun).2) ∧
      Rep m (applyAll (fun _ => []) concatRun).1 := by
  refine utils_list_simulates (fun _ => 0) concatRun ?_
  refine ⟨?_, ?_, ?_, ?_, trivial, trivial, ?_, trivial, ?_, trivial⟩
  · exact ⟨by decide, by decide⟩
  · exact ⟨by decide, by decide⟩
  · exact ⟨by decide, by decide⟩
  · exact ⟨by decide, by decide⟩
  · exact ⟨[], [4, 12], by decide, rfl⟩
  · exact ⟨by decide, by decide⟩

end BouffaloSdk.UtilsList
