import Mathlib.Data.List.Nodup
import Mathlib.Logic.Function.Basic

/-!
# Circular lists with two links

A list starts and ends at a head that holds no data, and every cell knows its
neighbours. A cell is unlinked through its own links alone, so two lists in one
memory stay apart as long as no cell is on both.
-/

namespace Kit

variable {α : Type*}

structure Links (α : Type*) where
  next : α → α
  prev : α → α

variable {m m' : Links α} {a b h : α} {l l' : List α}

namespace Links
variable [DecidableEq α]

def init (m : Links α) (h : α) : Links α where
  next := Function.update m.next h h
  prev := Function.update m.prev h h

def add (m : Links α) (node before after : α) : Links α where
  next := Function.update (Function.update m.next node after) before node
  prev := Function.update (Function.update m.prev node before) after node

def addTail (m : Links α) (node queue : α) : Links α := m.add node (m.prev queue) queue

def del (m : Links α) (node : α) : Links α where
  next := Function.update m.next (m.prev node) (m.next node)
  prev := Function.update m.prev (m.next node) (m.prev node)

def isEmpty (m : Links α) (h : α) : Bool := m.next h == h

end Links

/-- The links lead from `a` through the cells `l` to `b` and back. -/
def Between (m : Links α) (b : α) : α → List α → Prop
  | a, [] => m.next a = b ∧ m.prev b = a
  | a, c :: l => (m.next a = c ∧ m.prev c = a) ∧ Between m b c l

namespace Between

theorem congr (hm : Between m b a l) (hnext : ∀ x ∈ a :: l, m'.next x = m.next x)
    (hprev : ∀ x ∈ b :: l, m'.prev x = m.prev x) : Between m' b a l := by
  induction l generalizing a with
  | nil =>
    obtain ⟨hab, hba⟩ := hm
    exact ⟨(hnext a List.mem_cons_self).trans hab, (hprev b List.mem_cons_self).trans hba⟩
  | cons c l ih =>
    obtain ⟨⟨hac, hca⟩, hm⟩ := hm
    have hc : c ∈ b :: c :: l := List.mem_cons_of_mem _ List.mem_cons_self
    refine ⟨⟨(hnext a List.mem_cons_self).trans hac, (hprev c hc).trans hca⟩, ?_⟩
    refine ih hm (fun x hx => hnext x (List.mem_cons_of_mem _ hx)) fun x hx => hprev x ?_
    cases List.mem_cons.mp hx with
    | inl heq => exact List.mem_cons.mpr (.inl heq)
    | inr hmem => exact List.mem_cons_of_mem _ (List.mem_cons_of_mem _ hmem)

/-- The last link back leads to a cell of the list, or to its start. -/
theorem prev_mem (hm : Between m b a l) : m.prev b ∈ a :: l := by
  induction l generalizing a with
  | nil => exact List.mem_cons.mpr (.inl hm.2)
  | cons c l ih => exact List.mem_cons_of_mem _ (ih hm.2)

theorem unique (hm : Between m b a l) (hm' : Between m b a l') (hb : b ∉ l) (hb' : b ∉ l') :
    l = l' := by
  induction l generalizing a l' with
  | nil =>
    cases l' with
    | nil => rfl
    | cons c l' =>
      refine absurd ?_ hb'
      rw [← hm.1, hm'.1.1]
      exact List.mem_cons_self
  | cons c l ih =>
    cases l' with
    | nil =>
      refine absurd ?_ hb
      rw [← hm'.1, hm.1.1]
      exact List.mem_cons_self
    | cons c' l' =>
      have hc : c = c' := hm.1.1.symm.trans hm'.1.1
      subst hc
      have htail := ih hm.2 hm'.2 (fun hmem => hb (List.mem_cons_of_mem _ hmem))
        fun hmem => hb' (List.mem_cons_of_mem _ hmem)
      rw [htail]

end Between

/-- A list from its head around to it. -/
structure Dlist (m : Links α) (h : α) (l : List α) : Prop where
  links : Between m h h l
  nodup : (h :: l).Nodup

namespace Dlist

theorem not_head_mem (hl : Dlist m h l) : h ∉ l := (List.nodup_cons.mp hl.nodup).1

theorem unique (hl : Dlist m h l) (hl' : Dlist m h l') : l = l' :=
  hl.links.unique hl'.links hl.not_head_mem hl'.not_head_mem

theorem next_head (hl : Dlist m h l) : m.next h = l.headD h := by
  cases l with
  | nil => exact hl.links.1
  | cons a l => exact hl.links.1.1

theorem congr (hl : Dlist m h l) (hnext : ∀ x ∈ h :: l, m'.next x = m.next x)
    (hprev : ∀ x ∈ h :: l, m'.prev x = m.prev x) : Dlist m' h l :=
  ⟨hl.links.congr hnext hprev, hl.nodup⟩

variable [DecidableEq α]

theorem init (m : Links α) (h : α) : Dlist (m.init h) h [] :=
  ⟨⟨Function.update_self .., Function.update_self ..⟩, List.nodup_singleton h⟩

theorem isEmpty_iff (hl : Dlist m h l) : m.isEmpty h = true ↔ l = [] := by
  rw [Links.isEmpty, beq_iff_eq, hl.next_head]
  cases l with
  | nil => exact ⟨fun _ => rfl, fun _ => rfl⟩
  | cons a l =>
    constructor
    · intro heq
      exact absurd (heq ▸ List.mem_cons_self) hl.not_head_mem
    · intro hnil
      cases hnil

/-- A cell that is on no list goes to the end of one. -/
theorem addTail (hl : Dlist m h l) (hh : a ≠ h) (ha : a ∉ l) :
    Dlist (m.addTail a h) h (l ++ [a]) := by
  have hwalk : ∀ {c : α} {k : List α}, Between m h c k → (c :: k).Nodup → a ∉ c :: k → h ∉ k →
      Between (m.addTail a h) h c (k ++ [a]) := by
    intro c k hm hnodup hfree hk
    induction k generalizing c with
    | nil =>
      have hlast : m.prev h = c := hm.2
      have hca : a ≠ c := fun heq => hfree (List.mem_cons.mpr (.inl heq))
      refine ⟨⟨?_, ?_⟩, ?_, ?_⟩
      · simp only [Links.addTail, Links.add, hlast, Function.update_self]
      · simp only [Links.addTail, Links.add, hlast, Function.update_of_ne hh, Function.update_self]
      · simp only [Links.addTail, Links.add, hlast, Function.update_of_ne hca,
          Function.update_self]
      · simp only [Links.addTail, Links.add, Function.update_self]
    | cons d k ih =>
      obtain ⟨⟨hcd, hdc⟩, hm⟩ := hm
      obtain ⟨hc, hnodup⟩ := List.nodup_cons.mp hnodup
      have hlast : c ≠ m.prev h := fun heq => hc (heq ▸ hm.prev_mem)
      have hca : c ≠ a := fun heq => hfree (List.mem_cons.mpr (.inl heq.symm))
      have hfree' : a ∉ d :: k := fun hmem => hfree (List.mem_cons_of_mem _ hmem)
      have hda : d ≠ a := fun heq => hfree' (List.mem_cons.mpr (.inl heq.symm))
      have hdh : d ≠ h := fun heq => hk (List.mem_cons.mpr (.inl heq.symm))
      refine ⟨⟨?_, ?_⟩, ih hm hnodup hfree' fun hmem => hk (List.mem_cons_of_mem _ hmem)⟩
      · simp only [Links.addTail, Links.add, Function.update_of_ne hlast,
          Function.update_of_ne hca, hcd]
      · simp only [Links.addTail, Links.add, Function.update_of_ne hdh,
          Function.update_of_ne hda, hdc]
  have hnew : a ∉ h :: l := by
    intro hmem
    cases List.mem_cons.mp hmem with
    | inl heq => exact hh heq
    | inr hmem => exact ha hmem
  refine ⟨hwalk hl.links hl.nodup hnew hl.not_head_mem, ?_⟩
  have hdisjoint : List.Disjoint (h :: l) [a] := by
    intro x hx hxa
    rw [List.mem_singleton.mp hxa] at hx
    exact hnew hx
  exact hl.nodup.append (List.nodup_singleton a) hdisjoint

/-- Another list does not notice. -/
theorem addTail_other (hl : Dlist m h l) {h' : α} (hl' : Dlist m h' l') (ha : a ∉ h :: l)
    (hapart : List.Disjoint (h :: l) (h' :: l')) : Dlist (m.addTail a h') h l := by
  refine hl.congr ?_ ?_
  · intro x hx
    have hxa : x ≠ a := fun heq => ha (heq ▸ hx)
    have hxp : x ≠ m.prev h' := fun heq => hapart hx (heq ▸ hl'.links.prev_mem)
    simp only [Links.addTail, Links.add, Function.update_of_ne hxp, Function.update_of_ne hxa]
  · intro x hx
    have hxa : x ≠ a := fun heq => ha (heq ▸ hx)
    have hxh : x ≠ h' := fun heq => hapart hx (heq ▸ List.mem_cons_self)
    simp only [Links.addTail, Links.add, Function.update_of_ne hxh, Function.update_of_ne hxa]

/-- The first cell is unlinked. -/
theorem del_head (hl : Dlist m h (a :: l)) : Dlist (m.del a) h l := by
  obtain ⟨⟨⟨hha, hah⟩, hm⟩, hnodup⟩ := hl
  obtain ⟨hh, hal⟩ := List.nodup_cons.mp hnodup
  have hnodup' : (h :: l).Nodup :=
    List.nodup_cons.mpr ⟨fun hmem => hh (List.mem_cons_of_mem _ hmem), (List.nodup_cons.mp hal).2⟩
  refine ⟨?_, hnodup'⟩
  cases l with
  | nil =>
    obtain ⟨hnext, -⟩ := hm
    constructor
    · simp only [Links.del, hah, hnext, Function.update_self]
    · simp only [Links.del, hah, hnext, Function.update_self]
  | cons b l =>
    obtain ⟨⟨hab, -⟩, hm⟩ := hm
    obtain ⟨hb, hbl⟩ := List.nodup_cons.mp hnodup'
    refine ⟨⟨?_, ?_⟩, hm.congr ?_ ?_⟩
    · simp only [Links.del, hah, hab, Function.update_self]
    · simp only [Links.del, hah, hab, Function.update_self]
    · intro x hx
      have hxh : x ≠ h := fun heq => hb (heq ▸ hx)
      simp only [Links.del, hah, Function.update_of_ne hxh]
    · intro x hx
      have hxb : x ≠ b := by
        intro heq
        cases List.mem_cons.mp hx with
        | inl hxh => exact hb (hxh ▸ heq ▸ List.mem_cons_self)
        | inr hxl => exact (List.nodup_cons.mp hbl).1 (heq ▸ hxl)
      simp only [Links.del, hab, Function.update_of_ne hxb]

theorem del_head_other (hl : Dlist m h l) {h' : α} (hl' : Dlist m h' (a :: l'))
    (hapart : List.Disjoint (h :: l) (h' :: a :: l')) : Dlist (m.del a) h l := by
  have hprev : m.prev a = h' := hl'.links.1.2
  have hnext : m.next a ∈ h' :: a :: l' := by
    cases l' with
    | nil => exact List.mem_cons.mpr (.inl hl'.links.2.1)
    | cons b l' =>
      rw [hl'.links.2.1.1]
      exact List.mem_cons_of_mem _ (List.mem_cons_of_mem _ List.mem_cons_self)
  refine hl.congr ?_ ?_
  · intro x hx
    have hxp : x ≠ m.prev a := fun heq => hapart hx (by rw [heq, hprev]; exact List.mem_cons_self)
    simp only [Links.del, Function.update_of_ne hxp]
  · intro x hx
    have hxn : x ≠ m.next a := fun heq => hapart hx (heq ▸ hnext)
    simp only [Links.del, Function.update_of_ne hxn]

end Dlist

end Kit
