import Mathlib.Data.Nat.ModEq
import Mathlib.Logic.Function.Basic

/-!
# Rings of descriptors

A driver fills the slots of a ring in turn and hands them to an engine, which
gives them back in turn. Item `k` lies in slot `k % n`: from `head` on it is
back, from `done` on it is still with the engine.
-/

namespace Kit

/-- What a slot looks like while the engine owns it and once it is back. -/
structure DescLayout (α σ : Type*) where
  Owned : σ → Prop
  Waits : (slot : Nat) → α → σ → Prop
  Back : α → σ → Prop
  owned_of_waits : ∀ {i a s}, Waits i a s → Owned s
  not_owned_of_back : ∀ {a s}, Back a s → ¬ Owned s

variable {α σ : Type*} {L : DescLayout α σ} {n : Nat} {slots : Nat → σ} {items : List α}
  {head done : Nat} {a : α} {s : σ}

structure DescRing (L : DescLayout α σ) (n : Nat) (slots : Nat → σ) (items : List α)
    (head done : Nat) : Prop where
  pos : 0 < n
  head_le : head ≤ done
  done_le : done ≤ items.length
  room : items.length ≤ head + n
  waits : ∀ k a, done ≤ k → items[k]? = some a → L.Waits (k % n) a (slots (k % n))
  back : ∀ k a, head ≤ k → k < done → items[k]? = some a → L.Back a (slots (k % n))
  taken : ∀ i, i < n → L.Owned (slots i) → ∃ k, done ≤ k ∧ k < items.length ∧ k % n = i

/-- Within one turn of the ring every item has its own slot. -/
theorem mod_ne_of_window {k k' : Nat} (hk : head ≤ k) (hk' : k' < head + n) (hlt : k < k') :
    k % n ≠ k' % n := by
  intro heq
  have hdvd : n ∣ k' - k := (Nat.modEq_iff_dvd' hlt.le).mp heq
  have hle := Nat.le_of_dvd (by omega) hdvd
  omega

namespace DescRing

theorem initial (hn : 0 < n) (hidle : ∀ i, i < n → ¬ L.Owned (slots i)) :
    DescRing L n slots [] 0 0 where
  pos := hn
  head_le := Nat.le_refl 0
  done_le := Nat.le_refl 0
  room := Nat.zero_le _
  waits k a _ hitem := by cases hitem
  back k a _ hk := absurd hk (Nat.not_lt_zero k)
  taken i hi howned := absurd howned (hidle i hi)

/-- The next free slot is not with the engine. -/
theorem not_owned_next (h : DescRing L n slots items head done)
    (room : items.length < head + n) : ¬ L.Owned (slots (items.length % n)) := by
  intro howned
  obtain ⟨k, hdone, hk, hslot⟩ := h.taken _ (Nat.mod_lt _ h.pos) howned
  exact mod_ne_of_window (h.head_le.trans hdone) room hk hslot

/-- The oldest item is with the engine as long as none is back. -/
theorem owned_head_iff (h : DescRing L n slots items head done) (hin : head < items.length) :
    L.Owned (slots (head % n)) ↔ head = done := by
  have hitem : items[head]? = some items[head] := List.getElem?_eq_getElem hin
  constructor
  · intro howned
    by_contra hne
    have hlt := Nat.lt_of_le_of_ne h.head_le hne
    exact L.not_owned_of_back (h.back head _ (Nat.le_refl _) hlt hitem) howned
  · intro heq
    exact L.owned_of_waits (h.waits head _ heq.ge hitem)

/-- Nothing is with the engine once all has come back. -/
theorem none_owned_iff (h : DescRing L n slots items head done) :
    (∀ i, i < n → ¬ L.Owned (slots i)) ↔ done = items.length := by
  constructor
  · intro hnone
    by_contra hne
    have hlt := Nat.lt_of_le_of_ne h.done_le hne
    have hitem : items[done]? = some items[done] := List.getElem?_eq_getElem hlt
    have hwaits := h.waits done _ (Nat.le_refl _) hitem
    exact hnone _ (Nat.mod_lt _ h.pos) (L.owned_of_waits hwaits)
  · intro heq i hi howned
    obtain ⟨k, hdone, hk, -⟩ := h.taken i hi howned
    omega

theorem push (h : DescRing L n slots items head done) (room : items.length < head + n)
    (hs : L.Waits (items.length % n) a s) :
    DescRing L n (Function.update slots (items.length % n) s) (items ++ [a]) head done := by
  have hlen : (items ++ [a]).length = items.length + 1 := by
    rw [List.length_append, List.length_singleton]
  have hother : ∀ k, head ≤ k → k < items.length →
      Function.update slots (items.length % n) s (k % n) = slots (k % n) := fun k hk hlt =>
    Function.update_of_ne (mod_ne_of_window hk room hlt) _ _
  have hold : ∀ {k b}, k < items.length → (items ++ [a])[k]? = some b → items[k]? = some b := by
    intro k b hk hitem
    rwa [List.getElem?_append_left hk] at hitem
  have hdone := h.done_le
  refine ⟨h.pos, h.head_le, by omega, by omega, ?_, ?_, ?_⟩
  · intro k b hk hitem
    by_cases hlt : k < items.length
    · rw [hother k (h.head_le.trans hk) hlt]
      exact h.waits k b hk (hold hlt hitem)
    · have hk' : k = items.length := by
        have hin := (List.getElem?_eq_some_iff.mp hitem).1
        omega
      subst hk'
      rw [List.getElem?_concat_length] at hitem
      cases hitem
      rw [Function.update_self]
      exact hs
  · intro k b hk hdone hitem
    have hlt : k < items.length := hdone.trans_le h.done_le
    rw [hother k hk hlt]
    exact h.back k b hk hdone (hold hlt hitem)
  · intro i hi howned
    by_cases heq : i = items.length % n
    · exact ⟨items.length, h.done_le, by omega, heq.symm⟩
    · rw [Function.update_of_ne heq] at howned
      obtain ⟨k, hdone, hk, hslot⟩ := h.taken i hi howned
      exact ⟨k, hdone, by omega, hslot⟩

/-- The engine gives back the oldest item it has. -/
theorem complete (h : DescRing L n slots items head done) (hitem : items[done]? = some a)
    (hs : L.Back a s) :
    DescRing L n (Function.update slots (done % n) s) items head (done + 1) := by
  have hdone : done < items.length := (List.getElem?_eq_some_iff.mp hitem).1
  have hroom := h.room
  refine ⟨h.pos, h.head_le.trans (Nat.le_succ _), hdone, h.room, ?_, ?_, ?_⟩
  · intro k b hk hb
    have hlt := (List.getElem?_eq_some_iff.mp hb).1
    rw [Function.update_of_ne (mod_ne_of_window h.head_le (by omega) hk).symm]
    exact h.waits k b (by omega) hb
  · intro k b hk hlt hb
    by_cases heq : k = done
    · subst heq
      cases hitem.symm.trans hb
      rw [Function.update_self]
      exact hs
    · rw [Function.update_of_ne (mod_ne_of_window hk (by omega) (by omega))]
      exact h.back k b hk (by omega) hb
  · intro i hi howned
    by_cases heq : i = done % n
    · subst heq
      rw [Function.update_self] at howned
      exact absurd howned (L.not_owned_of_back hs)
    · rw [Function.update_of_ne heq] at howned
      obtain ⟨k, hk, hlt, hslot⟩ := h.taken i hi howned
      refine ⟨k, ?_, hlt, hslot⟩
      rcases Nat.lt_or_ge done k with hafter | hupto
      · exact hafter
      · exact absurd (by rw [← hslot, Nat.le_antisymm hupto hk]) heq

/-- The driver has seen that the oldest item is back. -/
theorem reclaim (h : DescRing L n slots items head done) (hback : head < done) :
    DescRing L n slots items (head + 1) done where
  pos := h.pos
  head_le := hback
  done_le := h.done_le
  room := by
    have hroom := h.room
    omega
  waits := h.waits
  back k a hk := h.back k a (by omega)
  taken := h.taken

end DescRing

end Kit
