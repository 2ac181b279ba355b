import Mathlib.Data.Int.Order.Basic
import Mathlib.Data.List.Basic

/-!
# Credit with grants in flight

A sender spends credit while grants are on their way to it. A grant adds to the
credit or replaces it.
-/

namespace Kit

structure Grant where
  absolute : Bool
  amount : Nat
  deriving DecidableEq

namespace Grant

variable {credit spent : Int} {grant : Grant} {grants : List Grant}

/-- The credit after a grant has arrived. -/
def apply (credit : Int) (grant : Grant) : Int :=
  if grant.absolute then grant.amount else credit + grant.amount

/-- The credit after all grants in flight have arrived. -/
def settle (credit : Int) (grants : List Grant) : Int := grants.foldl apply credit

theorem settle_nil : settle credit [] = credit := rfl

theorem settle_cons : settle credit (grant :: grants) = settle (grant.apply credit) grants := rfl

theorem settle_append : settle credit (grants ++ [grant]) = grant.apply (settle credit grants) :=
  List.foldl_append ..

theorem apply_nonneg (h : 0 ≤ credit) : 0 ≤ apply credit grant := by
  unfold apply
  split <;> omega

theorem settle_nonneg (h : 0 ≤ credit) : 0 ≤ settle credit grants := by
  induction grants generalizing credit with
  | nil => exact h
  | cons grant grants ih => exact ih (apply_nonneg h)

/-- Credit spent is missing in the end when no grant replaces it. -/
theorem settle_sub (h : ∀ grant ∈ grants, grant.absolute = false) :
    settle (credit - spent) grants = settle credit grants - spent := by
  induction grants generalizing credit with
  | nil => rfl
  | cons grant grants ih =>
    have hadd : grant.absolute = false := h grant List.mem_cons_self
    have hmoved : apply (credit - spent) grant = apply credit grant - spent := by
      simp only [apply, hadd, Bool.false_eq_true, if_false]
      omega
    rw [settle_cons, settle_cons, hmoved]
    exact ih fun other hother => h other (List.mem_cons_of_mem _ hother)

/-- A grant that replaces the credit makes up for what was spent before. -/
theorem settle_forgets (h : ∃ grant ∈ grants, grant.absolute = true) :
    settle (credit - spent) grants = settle credit grants := by
  induction grants generalizing credit with
  | nil =>
    obtain ⟨_, hmem, _⟩ := h
    cases hmem
  | cons grant grants ih =>
    rw [settle_cons, settle_cons]
    by_cases hset : grant.absolute = true
    · simp only [apply, hset, if_true]
    · have hmoved : apply (credit - spent) grant = apply credit grant - spent := by
        simp only [apply, if_neg hset]
        omega
      obtain ⟨other, hmem, hother⟩ := h
      rw [hmoved]
      refine ih ⟨other, (List.mem_cons.mp hmem).resolve_left fun heq => ?_, hother⟩
      exact hset (heq ▸ hother)

end Grant

end Kit
