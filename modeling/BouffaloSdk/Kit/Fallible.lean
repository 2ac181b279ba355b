import Mathlib.Data.List.Basic

/-!
# Calls that can fail

A computation makes calls one after the other, each for a value, and stops at the first that
is refused, with what the refusal leaves. What it would go through without one decides which
calls there are.
-/

namespace Kit.Fallible
variable {σ V L : Type}

/-- What the `k`th call leaves when it is refused its value. -/
abbrev Refusals (V L : Type) := Nat → V → Option L

def never : Refusals V L := fun _ _ => none

/-- None of the calls `made` from the `n`th on is refused. -/
def Accepted (refuses : Refusals V L) (n : Nat) (made : List V) : Prop :=
  ∀ k v, made[k]? = some v → refuses (n + k) v = none

variable {refuses : Refusals V L} {n : Nat} {made rest : List V}

theorem accepted_never : Accepted (never : Refusals V L) n made := fun _ _ _ => rfl

theorem accepted_nil : Accepted refuses n [] := by
  intro k v hk
  rw [List.getElem?_nil] at hk
  cases hk

theorem accepted_singleton {v : V} : Accepted refuses n [v] ↔ refuses n v = none := by
  constructor
  · intro h
    exact h 0 v rfl
  · intro h k v' hk
    cases k with
    | zero =>
      cases hk
      exact h
    | succ k => cases hk

theorem accepted_append :
    Accepted refuses n (made ++ rest) ↔
      Accepted refuses n made ∧ Accepted refuses (n + made.length) rest := by
  constructor
  · intro h
    constructor
    · intro k v hk
      apply h k v
      rwa [List.getElem?_append_left (List.getElem?_eq_some_iff.mp hk).1]
    · intro k v hk
      rw [Nat.add_assoc]
      apply h (made.length + k) v
      rwa [List.getElem?_append_right (Nat.le_add_right _ _), Nat.add_sub_cancel_left]
  · rintro ⟨hmade, hrest⟩ k v hk
    rcases Nat.lt_or_ge k made.length with hin | hout
    · rw [List.getElem?_append_left hin] at hk
      exact hmade k v hk
    · rw [List.getElem?_append_right hout] at hk
      have haccepted := hrest _ v hk
      rwa [Nat.add_assoc, Nat.add_sub_cancel' hout] at haccepted

/-- A value that is refused wherever it is called for. -/
theorem not_accepted_of_mem {v : V} (hmem : v ∈ made) (hrefuses : ∀ k, refuses k v ≠ none) :
    ¬ Accepted refuses n made := by
  intro h
  obtain ⟨k, hk⟩ := List.getElem?_of_mem hmem
  exact hrefuses (n + k) (h k v hk)

/-- From `st` on the calls `made` lead to `fin` when none is refused, and to a stop otherwise. -/
structure Makes (calls : σ → List V) (st : σ) (run : Refusals V L → Except σ σ) (fin : σ)
    (made : List V) : Prop where
  log : calls fin = calls st ++ made
  ok : ∀ refuses, Accepted refuses (calls st).length made → run refuses = .ok fin
  stops : ∀ refuses, ¬ Accepted refuses (calls st).length made → ∃ st', run refuses = .error st'

variable {calls : σ → List V} {run : Refusals V L → Except σ σ} {f : Refusals V L → σ → Except σ σ}
  {st mid fin : σ}

/-- What the calls are is seen where none is refused. -/
theorem Makes.exact (h : Makes calls st run fin made) : run never = .ok fin := h.ok _ accepted_never

/-- A change that makes no call. -/
theorem Makes.skip (hcalls : calls fin = calls st) :
    Makes calls st (fun _ : Refusals V L => .ok fin) fin [] :=
  ⟨by rw [hcalls, List.append_nil], fun _ _ => rfl, fun _ h => absurd accepted_nil h⟩

/-- Of the state at the start only its calls matter. -/
theorem Makes.start (h : Makes calls st run fin made) (hcalls : calls mid = calls st) :
    Makes calls mid run fin made := by
  constructor
  · rw [h.log, hcalls]
  · rw [hcalls]
    exact h.ok
  · rw [hcalls]
    exact h.stops

theorem Makes.bind (hrun : Makes calls st run mid made)
    (hf : Makes calls mid (fun refuses => f refuses mid) fin rest) :
    Makes calls st (fun refuses => run refuses >>= f refuses) fin (made ++ rest) := by
  have hlength : (calls mid).length = (calls st).length + made.length := by
    rw [hrun.log, List.length_append]
  constructor
  · rw [hf.log, hrun.log, List.append_assoc]
  · intro refuses h
    obtain ⟨hmade, hrest⟩ := accepted_append.mp h
    rw [← hlength] at hrest
    have hfirst := hrun.ok refuses hmade
    rw [hfirst]
    exact hf.ok refuses hrest
  · intro refuses h
    by_cases hmade : Accepted refuses (calls st).length made
    · have hrest : ¬ Accepted refuses (calls mid).length rest := by
        rw [hlength]
        exact fun hrest => h (accepted_append.mpr ⟨hmade, hrest⟩)
      rw [hrun.ok refuses hmade]
      exact hf.stops refuses hrest
    · obtain ⟨st', hstop⟩ := hrun.stops refuses hmade
      rw [hstop]
      exact ⟨st', rfl⟩

end Kit.Fallible
