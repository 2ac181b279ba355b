import Mathlib.Data.List.Basic

/-!
# Words as sets of bit numbers
-/

namespace Kit.BitSet

variable {n : ℕ} {w : BitVec n} {j k : ℕ}

theorem getLsbD_insert (w : BitVec n) (hk : k < n) (j : ℕ) :
    (w ||| (1#n <<< k)).getLsbD j = (decide (j = k) || w.getLsbD j) := by
  by_cases hj : j = k
  · subst hj
    simp [hk]
  · by_cases hlt : j < k
    · simp [hlt, hj]
    · have hsub : j - k ≠ 0 := by omega
      simp [hj, hsub]

theorem getLsbD_erase (w : BitVec n) (hk : k < n) (j : ℕ) :
    (w &&& ~~~(1#n <<< k)).getLsbD j = (!decide (j = k) && w.getLsbD j) := by
  by_cases hj : j = k
  · subst hj
    simp [hk]
  · by_cases hjn : j < n
    · by_cases hlt : j < k
      · simp [hlt, hj, hjn]
      · have hsub : j - k ≠ 0 := by omega
        simp [hj, hsub, hjn]
    · simp [BitVec.getLsbD_of_ge w j (by omega)]

theorem getLsbD_from (w : BitVec n) (k j : ℕ) :
    (w &&& (BitVec.allOnes n <<< k)).getLsbD j = (decide (k ≤ j) && w.getLsbD j) := by
  by_cases hjn : j < n
  · by_cases hlt : j < k
    · simp [hlt, Nat.not_le_of_lt hlt]
    · simp [hjn, hlt, Nat.le_of_not_lt hlt]
  · simp [BitVec.getLsbD_of_ge w j (by omega)]

theorem getLsbD_only (w : BitVec n) (hk : k < n) :
    w &&& (1#n <<< k) = 0 ↔ w.getLsbD k = false := by
  constructor
  · intro h
    have hbit := congrArg (·.getLsbD k) h
    simpa [hk, show 0 < n by omega] using hbit
  · intro h
    apply BitVec.eq_of_getLsbD_eq
    intro j hj
    by_cases hjk : j = k
    · subst hjk
      simp [h]
    · by_cases hlt : j < k
      · simp [hlt]
      · have hsub : j - k ≠ 0 := by omega
        simp [hsub]

theorem ne_zero_iff (w : BitVec n) : w ≠ 0 ↔ ∃ j, w.getLsbD j = true := by
  constructor
  · intro hne
    by_contra hnone
    apply hne
    apply BitVec.eq_of_getLsbD_eq
    intro j hj
    have hj' := fun hbit => hnone ⟨j, hbit⟩
    simpa using hj'
  · rintro ⟨j, hj⟩ rfl
    simp at hj

/-- The lowest number of the set, the width when it has none. -/
def lowest (w : BitVec n) : ℕ := ((List.range n).find? w.getLsbD).getD n

theorem lowest_spec (hw : w ≠ 0) :
    lowest w < n ∧ w.getLsbD (lowest w) = true ∧ ∀ j < lowest w, w.getLsbD j = false := by
  obtain ⟨j, hj⟩ := (ne_zero_iff w).mp hw
  have hjn : j < n := BitVec.lt_of_getLsbD hj
  cases hfind : (List.range n).find? w.getLsbD with
  | none =>
    have hnone := List.find?_eq_none.mp hfind j (List.mem_range.mpr hjn)
    exact absurd hj hnone
  | some i =>
    obtain ⟨hi, hin, hleast⟩ := List.find?_range_eq_some.mp hfind
    have heq : lowest w = i := by rw [lowest, hfind, Option.getD_some]
    rw [heq]
    exact ⟨List.mem_range.mp hin, hi, fun j hj => by simpa using hleast j hj⟩

end Kit.BitSet
