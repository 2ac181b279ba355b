import Mathlib.Data.Nat.ModEq
import Mathlib.Data.Int.ModEq
import Mathlib.Tactic.Ring
import Mathlib.Tactic.LinearCombination

/-!
# Montgomery arithmetic

Residues modulo `n` kept multiplied by `r`. A product is reduced by adding the multiple of
`n` that `r` divides, which takes the negated inverse of `n` modulo `r`.
-/

namespace Kit.Montgomery

variable {r n n' a b k x y t : ℕ}

/-- `n'` is `-n⁻¹` modulo `r`. -/
def NegInverse (r n n' : ℕ) : Prop := r ∣ n * n' + 1

/-- `t / r` modulo `n`, where `n'` is `-n⁻¹` modulo `r`. -/
def redc (r n n' t : ℕ) : ℕ :=
  let u := (t + t * n' % r * n) / r
  if n ≤ u then u - n else u

/-- `x` is the residue of `a` in Montgomery form. -/
def Form (r n a x : ℕ) : Prop := x < n ∧ x ≡ a * r [MOD n]

theorem sub_modEq (h : n ≤ t) : t - n ≡ t [MOD n] :=
  (Nat.modEq_iff_dvd' (Nat.sub_le t n)).mpr ⟨1, by omega⟩

/-- One conditional subtraction reduces what is below twice the modulus. -/
theorem reduce_once (h : t < 2 * n) :
    (if n ≤ t then t - n else t) < n ∧ (if n ≤ t then t - n else t) ≡ t [MOD n] := by
  by_cases hn : n ≤ t
  · rw [if_pos hn]
    exact ⟨by omega, sub_modEq hn⟩
  · rw [if_neg hn]
    exact ⟨by omega, Nat.ModEq.refl t⟩

theorem dvd_add_reduction (h : NegInverse r n n') (t : ℕ) : r ∣ t + t * n' % r * n := by
  have hmod : t * n' % r * n ≡ t * n' * n [MOD r] := (Nat.mod_modEq _ _).mul_right n
  have hzero : t + t * n' * n ≡ 0 [MOD r] := by
    obtain ⟨c, hc⟩ := h
    refine (Nat.modEq_zero_iff_dvd).mpr ⟨t * c, ?_⟩
    calc t + t * n' * n = t * (n * n' + 1) := by ring
      _ = r * (t * c) := by rw [hc]; ring
  exact (Nat.modEq_zero_iff_dvd).mp ((hmod.add_left t).trans hzero)

theorem redc_lt_two_mul (hr : 0 < r) (ht : t < n * r) : (t + t * n' % r * n) / r < 2 * n := by
  have hmul : t * n' % r * n ≤ r * n := Nat.mul_le_mul_right n (Nat.mod_lt _ hr).le
  refine Nat.div_lt_of_lt_mul ?_
  calc t + t * n' % r * n < n * r + r * n := by omega
    _ = r * (2 * n) := by ring

theorem redc_lt (hr : 0 < r) (ht : t < n * r) : redc r n n' t < n :=
  (reduce_once (redc_lt_two_mul hr ht)).1

theorem redc_modEq (h : NegInverse r n n') (hr : 0 < r) (ht : t < n * r) :
    redc r n n' t * r ≡ t [MOD n] := by
  have hlt : (t + t * n' % r * n) / r < 2 * n := redc_lt_two_mul hr ht
  have hred := (reduce_once hlt).2
  have hdvd := dvd_add_reduction h t
  calc redc r n n' t * r ≡ (t + t * n' % r * n) / r * r [MOD n] := hred.mul_right r
    _ = t + n * (t * n' % r) := by rw [Nat.div_mul_cancel hdvd, Nat.mul_comm n]
    _ ≡ t [MOD n] := by simp [Nat.ModEq]

/-- What multiplies back to a product of two forms is the form of the product. -/
theorem Form.of_mul (hco : Nat.Coprime n r) (hx : Form r n a x) (hy : Form r n b y) {z : ℕ}
    (hz : z < n) (hmul : z * r ≡ x * y [MOD n]) : Form r n (a * b) z := by
  refine ⟨hz, Nat.ModEq.cancel_right_of_coprime hco ?_⟩
  calc z * r ≡ x * y [MOD n] := hmul
    _ ≡ a * r * (b * r) [MOD n] := hx.2.mul hy.2
    _ = a * b * r * r := by ring

theorem Form.mul (h : NegInverse r n n') (hco : Nat.Coprime n r) (hnr : n ≤ r)
    (hx : Form r n a x) (hy : Form r n b y) : Form r n (a * b) (redc r n n' (x * y)) := by
  have hpos : 0 < n := Nat.zero_lt_of_lt hx.1
  have ht : x * y < n * r := Nat.mul_lt_mul_of_lt_of_le hx.1 (hy.1.le.trans hnr) (by omega)
  exact Form.of_mul hco hx hy (redc_lt (by omega) ht) (redc_modEq h (by omega) ht)

theorem Form.enter (hn : 0 < n) (a : ℕ) : Form r n a (a * r % n) :=
  ⟨Nat.mod_lt _ hn, Nat.mod_modEq _ _⟩

theorem Form.one (hn : 0 < n) : Form r n 1 (r % n) := by
  have h : Form r n 1 (1 * r % n) := .enter hn 1
  rwa [one_mul] at h

/-- What multiplies back to a form is the residue itself. -/
theorem Form.leave (hco : Nat.Coprime n r) (hx : Form r n a x) {z : ℕ} (hz : z < n)
    (hmul : z * r ≡ x [MOD n]) : z = a % n := by
  have hmod : z ≡ a [MOD n] := Nat.ModEq.cancel_right_of_coprime hco (hmul.trans hx.2)
  rwa [Nat.ModEq, Nat.mod_eq_of_lt hz] at hmod

theorem Form.leave_redc (h : NegInverse r n n') (hco : Nat.Coprime n r) (hr : 0 < r)
    (hx : Form r n a x) : redc r n n' (x * 1) = a % n := by
  rw [mul_one]
  have ht : x < n * r := hx.1.trans_le (Nat.le_mul_of_pos_right n hr)
  exact hx.leave hco (redc_lt hr ht) (redc_modEq h hr ht)

theorem Form.congr (hx : Form r n a x) (h : a ≡ b [MOD n]) : Form r n b x :=
  ⟨hx.1, hx.2.trans (h.mul_right r)⟩

/-! ## The power of a form, one multiplication at a time -/

def powRedc (r n n' b : ℕ) : ℕ → ℕ
  | 0 => r % n
  | e + 1 => redc r n n' (powRedc r n n' b e * b)

theorem Form.pow (h : NegInverse r n n') (hco : Nat.Coprime n r) (hnr : n ≤ r)
    (hx : Form r n a x) (e : ℕ) : Form r n (a ^ e) (powRedc r n n' x e) := by
  induction e with
  | zero => exact .one (Nat.zero_lt_of_lt hx.1)
  | succ e ih => exact ih.mul h hco hnr hx

/-! ## Reduction one word at a time

The words of `a` enter one by one, the low word of the sum is cancelled and shifted out. -/

/-- `mm` is `-n⁻¹` modulo the word `w`. -/
def montStep (w b n mm : ℕ) (u d : ℕ) : ℕ :=
  (d + u * b + (d % w + u * (b % w)) * mm % w * n) / w

/-- `k` steps on the low `k` words of `a`. -/
def montLoop (w b n mm : ℕ) : ℕ → ℕ → ℕ → ℕ
  | 0, _, d => d
  | k + 1, a, d => montLoop w b n mm k (a / w) (montStep w b n mm (a % w) d)

theorem montStep_mul {w mm u d : ℕ} (h : NegInverse w n mm) :
    ∃ v, v ≤ w - 1 ∧ montStep w b n mm u d * w = d + u * b + v * n := by
  by_cases hw : w = 0
  · subst hw
    obtain ⟨c, hc⟩ := h
    omega
  refine ⟨(d % w + u * (b % w)) * mm % w, Nat.le_sub_one_of_lt (Nat.mod_lt _ (by omega)), ?_⟩
  have hlow : (d % w + u * (b % w)) * mm % w = (d + u * b) * mm % w :=
    ((Nat.mod_modEq d w).add ((Nat.mod_modEq b w).mul_left u)).mul_right mm
  have hdvd := dvd_add_reduction h (d + u * b)
  rw [montStep, hlow]
  exact Nat.div_mul_cancel hdvd

theorem montLoop_mul {w mm : ℕ} (h : NegInverse w n mm) (k a d : ℕ) :
    ∃ v, v < w ^ k ∧ montLoop w b n mm k a d * w ^ k = d + a % w ^ k * b + v * n := by
  have hw : 0 < w := by
    obtain ⟨c, hc⟩ := h
    rcases Nat.eq_zero_or_pos w with rfl | hw
    · omega
    · exact hw
  induction k generalizing a d with
  | zero => exact ⟨0, by simp, by simp [montLoop, Nat.mod_one]⟩
  | succ k ih =>
    obtain ⟨v, hv, hstep⟩ := montStep_mul (b := b) (u := a % w) (d := d) h
    obtain ⟨v', hv', hloop⟩ := ih (a / w) (montStep w b n mm (a % w) d)
    have hpow : 0 < w ^ k := Nat.pow_pos hw
    refine ⟨v + w * v', ?_, ?_⟩
    · calc v + w * v' < w + w * v' := by omega
        _ = w * (v' + 1) := by ring
        _ ≤ w * w ^ k := Nat.mul_le_mul_left w hv'
        _ = w ^ (k + 1) := by ring
    · have hsplit : a % w ^ (k + 1) = a % w + w * (a / w % w ^ k) := by
        rw [pow_succ', Nat.mod_mul]
      calc montLoop w b n mm (k + 1) a d * w ^ (k + 1)
          = montLoop w b n mm k (a / w) (montStep w b n mm (a % w) d) * w ^ k * w := by
            rw [montLoop]; ring
        _ = montStep w b n mm (a % w) d * w + (a / w % w ^ k * b + v' * n) * w := by
            rw [hloop]; ring
        _ = d + a % w * b + v * n + (a / w % w ^ k * b + v' * n) * w := by rw [hstep]
        _ = d + (a % w + w * (a / w % w ^ k)) * b + (v + w * v') * n := by ring
        _ = d + a % w ^ (k + 1) * b + (v + w * v') * n := by rw [hsplit]

theorem montLoop_modEq {w mm : ℕ} (h : NegInverse w n mm) (k a : ℕ) :
    montLoop w b n mm k a 0 * w ^ k ≡ a % w ^ k * b [MOD n] := by
  obtain ⟨v, -, hloop⟩ := montLoop_mul (b := b) h k a 0
  rw [hloop, zero_add]
  simp [Nat.ModEq]

/-- The sum stays below twice the modulus where one factor is below it and the other
below the power of the word. -/
theorem montLoop_lt {w mm : ℕ} (h : NegInverse w n mm) {k a : ℕ}
    (hab : a % w ^ k * b < n * w ^ k) : montLoop w b n mm k a 0 < 2 * n := by
  obtain ⟨v, hv, hloop⟩ := montLoop_mul (b := b) h k a 0
  have hpos : 0 < w ^ k := by omega
  have hvn : v * n ≤ w ^ k * n := Nat.mul_le_mul_right n hv.le
  refine Nat.lt_of_mul_lt_mul_right (a := w ^ k) ?_
  calc montLoop w b n mm k a 0 * w ^ k = a % w ^ k * b + v * n := by rw [hloop, zero_add]
    _ < n * w ^ k + w ^ k * n := by omega
    _ = 2 * n * w ^ k := by ring

/-! ## Lifting an inverse

An inverse modulo `m` gives one modulo `m²`. -/

theorem inverse_lift {m u c : ℤ} (h : m ∣ u * c - 1) : m * m ∣ (2 * u - u * u * c) * c - 1 := by
  obtain ⟨q, hq⟩ := h
  exact ⟨-(q * q), by linear_combination (-(u * c - 1) - m * q) * hq⟩

end Kit.Montgomery
