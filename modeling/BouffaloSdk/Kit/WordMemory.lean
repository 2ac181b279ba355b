import Mathlib.Tactic.Ring

/-!
# Numbers in a memory of words

A number lies in consecutive words of base `w`, the lowest word first.
-/

namespace Kit.WordMemory

variable {w off len i other olen v : ℕ} {mem : ℕ → ℕ}

/-- The number in the `len` words from `off` on. -/
def load (w : ℕ) (mem : ℕ → ℕ) (off : ℕ) : ℕ → ℕ
  | 0 => 0
  | len + 1 => mem off + w * load w mem (off + 1) len

/-- The words of `v` from `off` on. -/
def store (w : ℕ) (mem : ℕ → ℕ) (off len v : ℕ) : ℕ → ℕ :=
  fun a => if off ≤ a ∧ a < off + len then v / w ^ (a - off) % w else mem a

theorem store_outside (h : i < off ∨ off + len ≤ i) : store w mem off len v i = mem i :=
  if_neg (by omega)

theorem load_congr {mem' : ℕ → ℕ} (h : ∀ i, off ≤ i → i < off + len → mem i = mem' i) :
    load w mem off len = load w mem' off len := by
  induction len generalizing off with
  | zero => rfl
  | succ len ih =>
    have hrest : load w mem (off + 1) len = load w mem' (off + 1) len :=
      ih fun i hlow hhigh => h i (by omega) (by omega)
    rw [load, load, h off (Nat.le_refl off) (by omega), hrest]

theorem load_store_disjoint (h : other + olen ≤ off ∨ off + len ≤ other) :
    load w (store w mem off len v) other olen = load w mem other olen :=
  load_congr fun _ _ _ => store_outside (by omega)

theorem load_store_mod : load w (store w mem off len v) off len = v % w ^ len := by
  induction len generalizing off v mem with
  | zero => simp [load, Nat.mod_one]
  | succ len ih =>
    have hfirst : store w mem off (len + 1) v off = v % w := by simp [store]
    have hrest : load w (store w mem off (len + 1) v) (off + 1) len =
        load w (store w mem (off + 1) len (v / w)) (off + 1) len := by
      refine load_congr fun i hlow hhigh => ?_
      have hpow : i - off = (i - (off + 1)) + 1 := by omega
      rw [store, store, if_pos (by omega), if_pos (by omega), hpow, pow_succ', Nat.div_div_eq_div_mul]
    rw [load, hfirst, hrest, ih, pow_succ', Nat.mod_mul]

theorem load_store (h : v < w ^ len) : load w (store w mem off len v) off len = v := by
  rw [load_store_mod, Nat.mod_eq_of_lt h]

/-- A number of one word over words of zeros. -/
theorem store_low (h : v < w) (hlen : 0 < len) :
    store w (store w mem off len 0) off 1 v = store w mem off len v := by
  funext a
  unfold store
  by_cases hfirst : a = off
  · subst hfirst
    simp [hlen]
  by_cases hin : off ≤ a ∧ a < off + len
  · have hpow : v < w ^ (a - off) := h.trans_le (Nat.le_self_pow (by omega) w)
    rw [if_neg (by omega), if_pos hin, if_pos hin, Nat.div_eq_of_lt hpow, Nat.zero_div]
  · rw [if_neg (by omega), if_neg hin, if_neg hin]

end Kit.WordMemory
