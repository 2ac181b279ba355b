import Mathlib.Algebra.BigOperators.Group.List.Basic
import Mathlib.Algebra.Order.Group.Nat
import Mathlib.Order.Basic

/-!
# Rows of tiles

Tiles lie one after the other from an address on, each as long as it says. Two of
them never overlap, and one is found by where it starts.
-/

namespace Kit.Tiling

variable {β : Type*} {len : β → ℕ} {a x y : ℕ} {p q : β} {xs ys bs : List β}

/-- Where a row from `a` on ends. -/
def after (len : β → ℕ) (a : ℕ) : List β → ℕ
  | [] => a
  | p :: xs => after len (a + len p) xs

/-- The tiles with where each starts. -/
def place (len : β → ℕ) (a : ℕ) : List β → List (ℕ × β)
  | [] => []
  | p :: xs => (a, p) :: place len (a + len p) xs

@[simp] theorem after_nil : after len a [] = a := rfl

@[simp] theorem after_cons : after len a (p :: xs) = after len (a + len p) xs := rfl

@[simp] theorem place_nil : place len a [] = [] := rfl

@[simp] theorem place_cons : place len a (p :: xs) = (a, p) :: place len (a + len p) xs := rfl

@[simp] theorem after_append : after len a (xs ++ ys) = after len (after len a xs) ys := by
  induction xs generalizing a with
  | nil => rfl
  | cons p xs ih => exact ih

@[simp] theorem place_append :
    place len a (xs ++ ys) = place len a xs ++ place len (after len a xs) ys := by
  induction xs generalizing a with
  | nil => rfl
  | cons p xs ih => simp [ih]

theorem le_after : a ≤ after len a xs := by
  induction xs generalizing a with
  | nil => exact Nat.le_refl a
  | cons p xs ih => exact (Nat.le_add_right a (len p)).trans ih

@[simp] theorem length_place : (place len a xs).length = xs.length := by
  induction xs generalizing a with
  | nil => rfl
  | cons p xs ih => rw [place_cons, List.length_cons, List.length_cons, ih]

theorem mem_place_bounds (h : (x, p) ∈ place len a xs) : a ≤ x ∧ x + len p ≤ after len a xs := by
  induction xs generalizing a with
  | nil => exact absurd h List.not_mem_nil
  | cons q xs ih =>
    cases List.mem_cons.mp h with
    | inl heq =>
      obtain ⟨rfl, rfl⟩ := Prod.mk.injEq .. ▸ heq
      exact ⟨Nat.le_refl x, le_after⟩
    | inr hmem =>
      have hbounds := ih hmem
      exact ⟨(Nat.le_add_right a (len q)).trans hbounds.1, hbounds.2⟩

theorem mem_place_iff :
    (x, p) ∈ place len a bs ↔ ∃ xs ys, bs = xs ++ p :: ys ∧ x = after len a xs := by
  constructor
  · intro h
    induction bs generalizing a with
    | nil => exact absurd h List.not_mem_nil
    | cons q bs ih =>
      cases List.mem_cons.mp h with
      | inl heq =>
        obtain ⟨rfl, rfl⟩ := Prod.mk.injEq .. ▸ heq
        exact ⟨[], bs, rfl, rfl⟩
      | inr hmem =>
        obtain ⟨xs, ys, rfl, rfl⟩ := ih hmem
        exact ⟨q :: xs, ys, rfl, rfl⟩
  · rintro ⟨xs, ys, rfl, rfl⟩
    simp

/-- The tiles come in the order of their addresses, none over another. -/
theorem pairwise_place : (place len a xs).Pairwise fun u v => u.1 + len u.2 ≤ v.1 := by
  induction xs generalizing a with
  | nil => exact List.Pairwise.nil
  | cons p xs ih =>
    apply List.Pairwise.cons
    · rintro ⟨x, q⟩ hmem
      exact (mem_place_bounds hmem).1
    · exact ih

/-- Two tiles are one or lie apart. -/
theorem mem_place_apart (hp : (x, p) ∈ place len a bs) (hq : (y, q) ∈ place len a bs) :
    (x, p) = (y, q) ∨ x + len p ≤ y ∨ y + len q ≤ x := by
  induction bs generalizing a with
  | nil => exact absurd hp List.not_mem_nil
  | cons r bs ih =>
    have hlater : ∀ {z : ℕ} {t : β}, (z, t) ∈ place len (a + len r) bs → a + len r ≤ z :=
      fun hmem => (mem_place_bounds hmem).1
    cases List.mem_cons.mp hp with
    | inl hpeq =>
      cases List.mem_cons.mp hq with
      | inl hqeq => exact .inl (hpeq.trans hqeq.symm)
      | inr hqmem =>
        obtain ⟨rfl, rfl⟩ := Prod.mk.injEq .. ▸ hpeq
        exact .inr (.inl (hlater hqmem))
    | inr hpmem =>
      cases List.mem_cons.mp hq with
      | inl hqeq =>
        obtain ⟨rfl, rfl⟩ := Prod.mk.injEq .. ▸ hqeq
        exact .inr (.inr (hlater hpmem))
      | inr hqmem => exact ih hpmem hqmem

/-- A tile is known by its start, when tiles have a length. -/
theorem mem_place_unique (hp : (x, p) ∈ place len a bs) (hq : (x, q) ∈ place len a bs)
    (hlen : 0 < len p) (hlen' : 0 < len q) : p = q := by
  cases mem_place_apart hp hq with
  | inl heq => exact congrArg Prod.snd heq
  | inr happart => omega

end Kit.Tiling
