import BouffaloSdk.Crypto.BignumAlt

/-!
# The power the accelerator returns

With the negated inverse in its register, each step of the exponent loop multiplies the
powers that its registers stand for.
-/

namespace BouffaloSdk.Bignum
open Kit Kit.Montgomery Pka

variable {sN n prime a b d i j k s t e top wsize : Nat} {ram : Ram}

/-- `R` of the registers of a size. -/
def regRadix (sN : Nat) : Nat := (2 ^ 32) ^ regWords sN

/-- The modulus and its negated inverse are in place. -/
structure Loaded (sN n prime : Nat) (ram : Ram) : Prop where
  modulus : pkaRead ram ⟨sN, 0⟩ = n
  inverse : pkaRead ram ⟨sN, 1⟩ = prime

/-- The modulus and the constant that the registers of size `sN` can work with. -/
structure Workable (sN n prime : Nat) : Prop where
  small : n ≤ regRadix sN
  fits : prime < regRadix sN
  coprime : Nat.Coprime n (regRadix sN)
  inverse : NegInverse (regRadix sN) n prime

/-- Register `i` stands for `a`. -/
def Stands (sN n : Nat) (ram : Ram) (i a : Nat) : Prop :=
  Form (regRadix sN) n a (pkaRead ram ⟨sN, i⟩)

/-- A write to register `d` of size `sN`, seen from the registers of that size. -/
structure Wrote (sN d v : Nat) (ram ram' : Ram) : Prop where
  value : pkaRead ram' ⟨sN, d⟩ = v
  others : ∀ i, i ≠ d → pkaRead ram' ⟨sN, i⟩ = pkaRead ram ⟨sN, i⟩

theorem wrote_pkaWrite {v : Nat} (h : v < regRadix sN) : Wrote sN d v ram (pkaWrite ram ⟨sN, d⟩ v) :=
  ⟨read_write h, fun _ hi => read_write_idx hi⟩

/-- Whatever is written, the other registers keep what they hold. -/
theorem wrote_any (v : Nat) : ∃ v', Wrote sN d v' ram (pkaWrite ram ⟨sN, d⟩ v) :=
  ⟨_, rfl, fun _ hi => read_write_idx hi⟩

theorem Wrote.loaded {v : Nat} {ram' : Ram} (h : Wrote sN d v ram ram') (hd : 2 ≤ d)
    (hram : Loaded sN n prime ram) : Loaded sN n prime ram' :=
  ⟨(h.others 0 (by omega)).trans hram.modulus, (h.others 1 (by omega)).trans hram.inverse⟩

theorem Wrote.stands {v : Nat} {ram' : Ram} (h : Wrote sN d v ram ram') (hi : i ≠ d)
    (hram : Stands sN n ram i a) : Stands sN n ram' i a := by
  unfold Stands
  rw [h.others i hi]
  exact hram

/-- A product, into register `d`. -/
theorem pkaMmul_stands (hw : Workable sN n prime) (hram : Loaded sN n prime ram)
    (hs : Stands sN n ram s a) (ht : Stands sN n ram t b) :
    ∃ v, Wrote sN d v ram (pkaMmul ram ⟨sN, d⟩ ⟨sN, s⟩ ⟨sN, t⟩ ⟨sN, 0⟩) ∧
      Stands sN n (pkaMmul ram ⟨sN, d⟩ ⟨sN, s⟩ ⟨sN, t⟩ ⟨sN, 0⟩) d (a * b) := by
  have hform := hs.mul hw.inverse hw.coprime hw.small ht
  have hnext : pkaRead ram (Reg.next ⟨sN, 0⟩) = prime := hram.inverse
  have hwrote : Wrote sN d (redc (regRadix sN) n prime
      (pkaRead ram ⟨sN, s⟩ * pkaRead ram ⟨sN, t⟩)) ram
      (pkaMmul ram ⟨sN, d⟩ ⟨sN, s⟩ ⟨sN, t⟩ ⟨sN, 0⟩) := by
    unfold pkaMmul
    rw [hram.modulus, hnext]
    exact wrote_pkaWrite (hform.1.trans_le hw.small)
  refine ⟨_, hwrote, ?_⟩
  unfold Stands
  rw [hwrote.value]
  exact hform

theorem pkaMsqr_eq : pkaMsqr ram ⟨sN, d⟩ ⟨sN, s⟩ ⟨sN, 0⟩ = pkaMmul ram ⟨sN, d⟩ ⟨sN, s⟩ ⟨sN, s⟩ ⟨sN, 0⟩ :=
  rfl

theorem pkaMovdat_stands (hw : Workable sN n prime) (hs : Stands sN n ram s a) :
    ∃ v, Wrote sN d v ram (pkaMovdat ram ⟨sN, d⟩ ⟨sN, s⟩) ∧
      Stands sN n (pkaMovdat ram ⟨sN, d⟩ ⟨sN, s⟩) d a := by
  have hwrote : Wrote sN d (pkaRead ram ⟨sN, s⟩) ram (pkaMovdat ram ⟨sN, d⟩ ⟨sN, s⟩) :=
    wrote_pkaWrite (hs.1.trans_le hw.small)
  refine ⟨_, hwrote, ?_⟩
  unfold Stands
  rw [hwrote.value]
  exact hs

/-! ## The table of odd powers -/

/-- The registers from 4 on stand for the first `k` odd powers. -/
def OddPowers (sN n : Nat) (ram : Ram) (a k : Nat) : Prop :=
  ∀ i, i < k → Stands sN n ram (4 + i) (a ^ (2 * i + 1))

theorem Wrote.oddPowers {v : Nat} {ram' : Ram} (h : Wrote sN d v ram ram') (hd : d < 4)
    (hram : OddPowers sN n ram a k) : OddPowers sN n ram' a k :=
  fun i hi => h.stands (by omega) (hram i hi)

/-- The table, with the modulus and its inverse kept. -/
theorem oddPowers_table (hw : Workable sN n prime) (hram : Loaded sN n prime ram)
    (hsquare : Stands sN n ram 3 (a ^ 2)) (hpos : 0 < k) (htable : OddPowers sN n ram a k) (more : Nat) :
    Loaded sN n prime (oddPowers sN more (4 + k) ram) ∧
      OddPowers sN n (oddPowers sN more (4 + k) ram) a (k + more) := by
  induction more generalizing ram k with
  | zero => exact ⟨hram, htable⟩
  | succ more ih =>
    have hlast : Stands sN n ram (4 + k - 1) (a ^ (2 * (k - 1) + 1)) := by
      have hprev := htable (k - 1) (by omega)
      rwa [← Nat.add_sub_assoc hpos] at hprev
    obtain ⟨v, hwrote, hnew⟩ := pkaMmul_stands (d := 4 + k) hw hram hlast hsquare
    have hexp : a ^ (2 * (k - 1) + 1) * a ^ 2 = a ^ (2 * k + 1) := by
      rw [← pow_add]
      congr 1
      omega
    rw [hexp] at hnew
    have hnext : OddPowers sN n (pkaMmul ram ⟨sN, 4 + k⟩ ⟨sN, 4 + k - 1⟩ ⟨sN, 3⟩ ⟨sN, 0⟩) a (k + 1) := by
      intro i hi
      rcases Nat.lt_succ_iff_lt_or_eq.mp hi with hlt | rfl
      · exact hwrote.stands (by omega) (htable i hlt)
      · exact hnew
    have hdone := ih (hwrote.loaded (by omega) hram) (hwrote.stands (by omega) hsquare) (by omega) hnext
    rwa [Nat.add_right_comm k 1 more] at hdone

/-! ## One window -/

theorem bitstringLen_spec {cap : Nat} (hcap : 0 < cap) (hbit : e.testBit (top - 1) = true) :
    0 < bitstringLen e top cap ∧ bitstringLen e top cap ≤ cap ∧
      e.testBit (top - bitstringLen e top cap) = true := by
  induction cap with
  | zero => omega
  | succ cap ih =>
    unfold bitstringLen
    split
    · rename_i hset
      exact ⟨by omega, le_refl _, hset⟩
    · rename_i hclear
      rcases Nat.eq_zero_or_pos cap with rfl | hpos
      · exact absurd hbit hclear
      · obtain ⟨hlow, hhigh, hset⟩ := ih hpos
        exact ⟨hlow, by omega, hset⟩

/-- The modulus, its inverse and the table. -/
structure Ready (sN n prime a wsize : Nat) (ram : Ram) : Prop where
  loaded : Loaded sN n prime ram
  table : OddPowers sN n ram a (2 ^ (wsize - 1))

theorem Wrote.ready {v : Nat} {ram' : Ram} (h : Wrote sN 2 v ram ram')
    (hram : Ready sN n prime a wsize ram) : Ready sN n prime a wsize ram' :=
  ⟨h.loaded (by omega) hram.loaded, h.oddPowers (by omega) hram.table⟩

/-- A squaring of the accumulator. -/
theorem square_accumulated {p : Nat} (hw : Workable sN n prime)
    (hram : Ready sN n prime a wsize ram) (hacc : Stands sN n ram 2 (a ^ p)) :
    Ready sN n prime a wsize (pkaMsqr ram ⟨sN, 2⟩ ⟨sN, 2⟩ ⟨sN, 0⟩) ∧
      Stands sN n (pkaMsqr ram ⟨sN, 2⟩ ⟨sN, 2⟩ ⟨sN, 0⟩) 2 (a ^ (2 * p)) := by
  obtain ⟨v, hwrote, hnew⟩ := pkaMmul_stands (d := 2) hw hram.loaded hacc hacc
  rw [← pow_add, ← two_mul] at hnew
  exact ⟨hwrote.ready hram, hnew⟩

theorem readBits_spec {val : Nat} {first : Bool} (hw : Workable sN n prime) (htop : i + k ≤ top)
    (hram : Ready sN n prime a wsize ram) (hval : val = e >>> (top - i) % 2 ^ i)
    (hacc : first = false → Stands sN n ram 2 (a ^ (e >>> top * 2 ^ i))) :
    (readBits sN e top first k i val ram).1 = e >>> (top - (i + k)) % 2 ^ (i + k) ∧
      Ready sN n prime a wsize (readBits sN e top first k i val ram).2 ∧
      (first = false →
        Stands sN n (readBits sN e top first k i val ram).2 2 (a ^ (e >>> top * 2 ^ (i + k)))) := by
  induction k generalizing i val ram with
  | zero => exact ⟨hval, hram, hacc⟩
  | succ k ih =>
    have hsum : i + (k + 1) = i + 1 + k := by omega
    have hpos : top - 1 - i = top - (i + 1) := by omega
    have hread : e >>> (top - (i + 1)) = 2 * (e >>> (top - i)) + (e.testBit (top - (i + 1))).toNat := by
      have hbit := testBit_shiftRight_succ e (top - (i + 1))
      have hprev : top - (i + 1) + 1 = top - i := by omega
      rw [hprev] at hbit
      exact hbit.symm
    have hnext : (if i = 0 then (e.testBit (top - 1 - i)).toNat
        else val <<< 1 + (e.testBit (top - 1 - i)).toNat) = e >>> (top - (i + 1)) % 2 ^ (i + 1) := by
      rw [hpos, hread, mod_two_pow_succ, ← hval]
      by_cases hi : i = 0
      · subst hi
        have hzero : val = 0 := by rw [hval, pow_zero, Nat.mod_one]
        rw [if_pos rfl, hzero, mul_zero]
        exact (Nat.zero_add _).symm
      · rw [if_neg hi, Nat.shiftLeft_eq, pow_one, Nat.mul_comm]
    unfold readBits
    rw [hsum]
    cases first with
    | true => exact ih (by omega) hram hnext fun hfirst => by cases hfirst
    | false =>
      obtain ⟨hready, hstands⟩ := square_accumulated hw hram (hacc rfl)
      have hexp : 2 * (e >>> top * 2 ^ i) = e >>> top * 2 ^ (i + 1) := by ring
      rw [hexp] at hstands
      exact ih (by omega) hready hnext fun _ => hstands

theorem shiftRight_split (e : Nat) {top len : Nat} (h : len ≤ top) :
    e >>> top * 2 ^ len + e >>> (top - len) % 2 ^ len = e >>> (top - len) := by
  have hhigh : e >>> top = e >>> (top - len) / 2 ^ len := by
    rw [← Nat.shiftRight_eq_div_pow, ← Nat.shiftRight_add, Nat.sub_add_cancel h]
  rw [hhigh]
  exact Nat.div_add_mod' _ _

/-- What the loop keeps: before the first window nothing of the exponent has been read,
after it the accumulator is the power of what has been read. -/
structure Progress (sN n prime a wsize p : Nat) (first : Bool) (ram : Ram) : Prop where
  ready : Ready sN n prime a wsize ram
  unread : first = true → p = 0
  read : first = false → Stands sN n ram 2 (a ^ p)

theorem Progress.done {first : Bool} (h : Progress sN n prime a wsize e first ram) (he : e ≠ 0) :
    Ready sN n prime a wsize ram ∧ Stands sN n ram 2 (a ^ e) := by
  cases first with
  | true => exact absurd (h.unread rfl) he
  | false => exact ⟨h.ready, h.read rfl⟩

/-- A clear bit. -/
theorem Progress.clear {p : Nat} {first : Bool} (hw : Workable sN n prime)
    (h : Progress sN n prime a wsize p first ram) :
    Progress sN n prime a wsize (2 * p) first (pkaMsqr ram ⟨sN, 2⟩ ⟨sN, 2⟩ ⟨sN, 0⟩) := by
  cases first with
  | true =>
    obtain ⟨v, hwrote⟩ := @wrote_any sN 2 ram
      (redc (Reg.bound ⟨sN, 0⟩) (pkaRead ram ⟨sN, 0⟩) (pkaRead ram (Reg.next ⟨sN, 0⟩))
        (pkaRead ram ⟨sN, 2⟩ * pkaRead ram ⟨sN, 2⟩))
    refine ⟨hwrote.ready h.ready, fun _ => ?_, fun hfirst => by cases hfirst⟩
    rw [h.unread rfl]
  | false =>
    obtain ⟨hready, hstands⟩ := square_accumulated hw h.ready (h.read rfl)
    exact ⟨hready, fun hfirst => absurd hfirst (by decide), fun _ => hstands⟩

/-- A window of `len` bits that ends in a set one. -/
theorem Progress.window {len : Nat} {first : Bool} (hw : Workable sN n prime)
    (h : Progress sN n prime a wsize (e >>> top) first ram) (hpos : 0 < len) (hlen : len ≤ top)
    (hsize : len ≤ wsize) (hset : e.testBit (top - len) = true) :
    Progress sN n prime a wsize (e >>> (top - len)) false
      (if first then pkaMovdat (readBits sN e top first len 0 0 ram).2 ⟨sN, 2⟩
          ⟨sN, ((readBits sN e top first len 0 0 ram).1 - 1) >>> 1 + 4⟩
        else pkaMmul (readBits sN e top first len 0 0 ram).2 ⟨sN, 2⟩ ⟨sN, 2⟩
          ⟨sN, ((readBits sN e top first len 0 0 ram).1 - 1) >>> 1 + 4⟩ ⟨sN, 0⟩) := by
  obtain ⟨hval, hready, hsquared⟩ :
      (readBits sN e top first len 0 0 ram).1 = e >>> (top - (0 + len)) % 2 ^ (0 + len) ∧
      Ready sN n prime a wsize (readBits sN e top first len 0 0 ram).2 ∧
      (first = false → Stands sN n (readBits sN e top first len 0 0 ram).2 2
        (a ^ (e >>> top * 2 ^ (0 + len)))) :=
    readBits_spec hw (by omega) h.ready (by rw [pow_zero, Nat.mod_one]) (by simpa using h.read)
  rw [Nat.zero_add] at hval hsquared
  generalize (readBits sN e top first len 0 0 ram).2 = ram' at *
  generalize (readBits sN e top first len 0 0 ram).1 = val at *
  have hodd : val % 2 = 1 := by
    have hbit : (e >>> (top - len)) % 2 = 1 := by
      rwa [Nat.testBit_eq_decide_div_mod_eq, decide_eq_true_eq, ← Nat.shiftRight_eq_div_pow] at hset
    rw [hval, Nat.mod_mod_of_dvd _ (dvd_pow_self 2 (by omega))]
    exact hbit
  have hlt : val < 2 ^ len := by
    rw [hval]
    exact Nat.mod_lt _ (Nat.two_pow_pos len)
  have hentry : Stands sN n ram' ((val - 1) >>> 1 + 4) (a ^ val) := by
    have hindex : (val - 1) >>> 1 < 2 ^ (wsize - 1) := by
      have hpow : 2 ^ len ≤ 2 * 2 ^ (wsize - 1) := by
        rw [← pow_succ', Nat.sub_add_cancel (by omega)]
        exact Nat.pow_le_pow_right (by omega) hsize
      rw [Nat.shiftRight_eq_div_pow, pow_one]
      omega
    have htable := hready.table _ hindex
    have hexp : 2 * ((val - 1) >>> 1) + 1 = val := by
      rw [Nat.shiftRight_eq_div_pow, pow_one]
      omega
    rwa [hexp, Nat.add_comm 4] at htable
  have hsplit : e >>> top * 2 ^ len + val = e >>> (top - len) := by
    rw [hval]
    exact shiftRight_split e hlen
  cases first with
  | true =>
    obtain ⟨v, hwrote, hnew⟩ := pkaMovdat_stands (d := 2) hw hentry
    have hexp : val = e >>> (top - len) := by
      rw [← hsplit, h.unread rfl, zero_mul, zero_add]
    have hpow : a ^ val = a ^ (e >>> (top - len)) := by rw [← hexp]
    rw [hpow] at hnew
    exact ⟨hwrote.ready hready, fun hfirst => absurd hfirst (by decide), fun _ => hnew⟩
  | false =>
    obtain ⟨v, hwrote, hnew⟩ := pkaMmul_stands (d := 2) hw hready.loaded (hsquared rfl) hentry
    rw [← pow_add, hsplit] at hnew
    exact ⟨hwrote.ready hready, fun hfirst => absurd hfirst (by decide), fun _ => hnew⟩

/-- The loop ends with the power in register 2. -/
theorem exponentLoop_power {fuel : Nat} {first : Bool} (hw : Workable sN n prime) (hsize : 0 < wsize)
    (he : e ≠ 0) (hfuel : top ≤ fuel) (h : Progress sN n prime a wsize (e >>> top) first ram) :
    Ready sN n prime a wsize (exponentLoop sN wsize e fuel top first ram) ∧
      Stands sN n (exponentLoop sN wsize e fuel top first ram) 2 (a ^ e) := by
  induction fuel generalizing top first ram with
  | zero =>
    obtain rfl : top = 0 := by omega
    exact h.done he
  | succ fuel ih =>
    unfold exponentLoop
    by_cases htop : top = 0
    · rw [if_pos htop]
      subst htop
      exact h.done he
    rw [if_neg htop]
    by_cases hbit : e.testBit (top - 1) = false
    · rw [if_pos hbit]
      have hread := testBit_shiftRight_succ e (top - 1)
      rw [Nat.sub_add_cancel (by omega), hbit, Bool.toNat_false, add_zero] at hread
      refine ih (by omega) ?_
      rw [← hread]
      exact h.clear hw
    · rw [if_neg hbit]
      have hset : e.testBit (top - 1) = true := Bool.not_eq_false _ ▸ hbit
      obtain ⟨hpos, hcap, hlast⟩ := @bitstringLen_spec e top (if top < wsize then top else wsize)
        (by split <;> omega) hset
      have htopLen : bitstringLen e top (if top < wsize then top else wsize) ≤ top := by
        refine hcap.trans ?_
        split <;> omega
      have hsizeLen : bitstringLen e top (if top < wsize then top else wsize) ≤ wsize := by
        refine hcap.trans ?_
        split <;> omega
      have hnext := h.window hw hpos htopLen hsizeLen hlast
      dsimp only
      cases first with
      | true => exact ih (by omega) hnext
      | false => exact ih (by omega) hnext

/-! ## From the operands to the result -/

/-- The exponent's register lies beyond the first four of the modulus's size. -/
theorem exponent_apart {regSizeE : Nat} (hpos : 0 < regWords regSizeE) (hi : i < 4) :
    Reg.Apart ⟨sN, i⟩
      ⟨regSizeE, (4 * regWords sN + regWords regSizeE - 1) / regWords regSizeE⟩ := by
  refine .inl ?_
  have hceil : 4 * regWords sN ≤
      (4 * regWords sN + regWords regSizeE - 1) / regWords regSizeE * regWords regSizeE := by
    have hdiv := Nat.lt_div_mul_add hpos (a := 4 * regWords sN + regWords regSizeE - 1)
    omega
  calc i * regWords sN + regWords sN = (i + 1) * regWords sN := by ring
    _ ≤ 4 * regWords sN := Nat.mul_le_mul_right _ (by omega)
    _ ≤ _ := hceil

/-- The base's power, whichever of the two ways the window size chooses. -/
theorem powerOnPka_power {bits regSizeE : Nat} (hw : Workable sN n prime)
    (hram : Loaded sN n prime ram) (hbase : Stands sN n ram 3 a) (he : e ≠ 0) (hbits : e < 2 ^ bits)
    (hpos : 0 < regWords regSizeE) (hfits : e < regRadix regSizeE) :
    Loaded sN n prime (powerOnPka sN wsize bits regSizeE e ram) ∧
      Stands sN n (powerOnPka sN wsize bits regSizeE e ram) 2 (a ^ e) := by
  unfold powerOnPka
  by_cases hsize : 1 < wsize
  · rw [if_pos hsize]
    obtain ⟨v, hwrote, hfour⟩ := pkaMovdat_stands (d := 4) hw hbase
    obtain ⟨v', hwrote', hthree⟩ := pkaMmul_stands (d := 3) hw (hwrote.loaded (by omega) hram)
      (hwrote.stands (by omega) hbase) (hwrote.stands (by omega) hbase)
    have hloaded := hwrote'.loaded (by omega) (hwrote.loaded (by omega) hram)
    have hone : OddPowers sN n (pkaMsqr (pkaMovdat ram ⟨sN, 4⟩ ⟨sN, 3⟩) ⟨sN, 3⟩ ⟨sN, 3⟩ ⟨sN, 0⟩) a 1 := by
      intro i hi
      obtain rfl : i = 0 := by omega
      rw [mul_zero, zero_add, pow_one]
      exact hwrote'.stands (by omega) hfour
    rw [← pow_two] at hthree
    obtain ⟨hkept, htable⟩ := oddPowers_table hw hloaded hthree (by omega) hone (1 <<< (wsize - 1) - 1)
    have hcount : 1 + (1 <<< (wsize - 1) - 1) = 2 ^ (wsize - 1) := by
      have hpow := Nat.two_pow_pos (wsize - 1)
      rw [Nat.one_shiftLeft]
      omega
    rw [hcount] at htable
    have hunread : e >>> bits = 0 := by
      rw [Nat.shiftRight_eq_div_pow, Nat.div_eq_of_lt hbits]
    obtain ⟨hready, hpower⟩ := @exponentLoop_power _ _ _ _ _ bits _ _ bits true hw
      (by omega) he (le_refl _) ⟨⟨hkept, htable⟩, fun _ => hunread, fun hfirst => absurd hfirst (by decide)⟩
    exact ⟨hready.loaded, hpower⟩
  · rw [if_neg hsize]
    dsimp only
    rw [mpiRegSizeToWords_eq, mpiRegSizeToWords_eq]
    set regE : Reg := ⟨regSizeE, (4 * regWords sN + regWords regSizeE - 1) / regWords regSizeE⟩ with hregE
    have hkeep : ∀ i, i < 4 → pkaRead (pkaWrite ram regE e) ⟨sN, i⟩ = pkaRead ram ⟨sN, i⟩ :=
      fun i hi => read_write_apart (exponent_apart hpos hi)
    have hexp : pkaRead (pkaWrite ram regE e) regE = e := read_write hfits
    have hnext : pkaRead (pkaWrite ram regE e) (Reg.next ⟨sN, 0⟩) = prime :=
      (hkeep 1 (by omega)).trans hram.inverse
    have hform := hbase.pow hw.inverse hw.coprime hw.small e
    have hwrote : Wrote sN 2 (powRedc (regRadix sN) n prime (pkaRead ram ⟨sN, 3⟩) e)
        (pkaWrite ram regE e) (pkaMexp (pkaWrite ram regE e) ⟨sN, 2⟩ ⟨sN, 3⟩ regE ⟨sN, 0⟩) := by
      unfold pkaMexp
      rw [hexp, hnext, hkeep 0 (by omega), hkeep 3 (by omega), hram.modulus]
      exact wrote_pkaWrite (hform.1.trans_le hw.small)
    have hloaded : Loaded sN n prime (pkaWrite ram regE e) :=
      ⟨(hkeep 0 (by omega)).trans hram.modulus, (hkeep 1 (by omega)).trans hram.inverse⟩
    refine ⟨hwrote.loaded (by omega) hloaded, ?_⟩
    unfold Stands
    rw [hwrote.value]
    exact hform

/-- The sizes of the registers of one call: the operands' is at least the modulus's, and the
temporary's is twice the operands'. -/
structure Sizes (regSize sN regSizeE dRegSize : Nat) : Prop where
  operands : regWords sN ≤ regWords regSize
  temporary : regWords dRegSize = regWords regSize * 2
  exponent : 0 < regWords regSizeE

theorem regRadix_le {small large : Nat} (h : regWords small ≤ regWords large) :
    regRadix small ≤ regRadix large :=
  Nat.pow_le_pow_right (by omega) h

/-- What the conversion leaves in register 3. -/
theorem gf2mont_stands {regSize regSizeE dRegSize : Nat} (hs : Sizes regSize sN regSizeE dRegSize)
    (hn : 0 < n) (hsmall : n < regRadix sN) (ha : a < regRadix regSize) :
    Stands sN n (pkaGf2mont (pkaWrite (pkaWrite ram ⟨sN, 0⟩ n) ⟨regSize, 2⟩ a) ⟨sN, 3⟩ ⟨regSize, 2⟩
        (regWords sN * 32) ⟨dRegSize, 2⟩ ⟨sN, 0⟩) 3 a ∧
      pkaRead (pkaGf2mont (pkaWrite (pkaWrite ram ⟨sN, 0⟩ n) ⟨regSize, 2⟩ a) ⟨sN, 3⟩ ⟨regSize, 2⟩
        (regWords sN * 32) ⟨dRegSize, 2⟩ ⟨sN, 0⟩) ⟨sN, 0⟩ = n := by
  have hradix : 2 ^ (regWords sN * 32) = regRadix sN := by
    rw [regRadix, ← pow_mul, Nat.mul_comm]
  have hoperands := hs.operands
  have htemporary := hs.temporary
  have hapart : Reg.Apart ⟨sN, 0⟩ ⟨regSize, 2⟩ := .inl (by simp only [Reg.words]; omega)
  have hapart' : Reg.Apart ⟨sN, 0⟩ ⟨dRegSize, 2⟩ := .inl (by simp only [Reg.words]; omega)
  unfold pkaGf2mont
  set ram' := pkaWrite (pkaWrite ram ⟨sN, 0⟩ n) ⟨regSize, 2⟩ a with hram'
  have hmod : pkaRead ram' ⟨sN, 0⟩ = n := (read_write_apart hapart).trans (read_write hsmall)
  have hval : pkaRead ram' ⟨regSize, 2⟩ = a := read_write ha
  have hroom : a * regRadix sN < regRadix dRegSize := by
    have hdouble : regRadix dRegSize = regRadix regSize * regRadix regSize := by
      rw [regRadix, htemporary, Nat.mul_two, pow_add]
      rfl
    have hpos : 0 < regRadix sN := Nat.pow_pos (by omega)
    calc a * regRadix sN < regRadix regSize * regRadix sN := Nat.mul_lt_mul_of_pos_right ha hpos
      _ ≤ regRadix regSize * regRadix regSize := Nat.mul_le_mul_left _ (regRadix_le hoperands)
      _ = regRadix dRegSize := hdouble.symm
  rw [hval, hradix]
  set shifted := pkaWrite ram' ⟨dRegSize, 2⟩ (a * regRadix sN) with hshifted
  have hmod' : pkaRead shifted ⟨sN, 0⟩ = n := (read_write_apart hapart').trans hmod
  have hval' : pkaRead shifted ⟨dRegSize, 2⟩ = a * regRadix sN := read_write hroom
  dsimp only
  rw [hval', hmod']
  have hform : Form (regRadix sN) n a (a * regRadix sN % n) := .enter hn a
  have hwrote : Wrote sN 3 (a * regRadix sN % n) shifted
      (pkaWrite shifted ⟨sN, 3⟩ (a * regRadix sN % n)) := wrote_pkaWrite (hform.1.trans hsmall)
  refine ⟨?_, (hwrote.others 0 (by omega)).trans hmod'⟩
  unfold Stands
  rw [hwrote.value]
  exact hform

/-- With the right constant the accelerator returns the power. -/
theorem expOnPka_eq {regSize regSizeE dRegSize bits : Nat} (hs : Sizes regSize sN regSizeE dRegSize)
    (hw : Workable sN n prime) (hbig : 1 < n) (hsmall : n < regRadix sN) (ha : a < regRadix regSize)
    (he : e ≠ 0) (hbits : e < 2 ^ bits) (hfits : e < regRadix regSizeE) :
    expOnPka ram regSize sN regSizeE dRegSize bits n a prime e = a ^ e % n := by
  unfold expOnPka
  rw [mpiRegSizeToWords_eq]
  dsimp only
  obtain ⟨hbase, hmod⟩ := @gf2mont_stands _ _ _ ram _ _ _ hs (by omega) hsmall ha
  generalize pkaGf2mont (pkaWrite (pkaWrite ram ⟨sN, 0⟩ n) ⟨regSize, 2⟩ a) ⟨sN, 3⟩ ⟨regSize, 2⟩
    (regWords sN * 32) ⟨dRegSize, 2⟩ ⟨sN, 0⟩ = start at *
  have hprime : Wrote sN 1 prime start (pkaWrite start ⟨sN, 1⟩ prime) := wrote_pkaWrite hw.fits
  have hloaded : Loaded sN n prime (pkaWrite start ⟨sN, 1⟩ prime) :=
    ⟨(hprime.others 0 (by omega)).trans hmod, hprime.value⟩
  obtain ⟨hkept, hpower⟩ := @powerOnPka_power _ _ _ _ _ (windowSize bits (regWords sN)) _ _ _ hw hloaded
    (hprime.stands (by omega) hbase) he hbits hs.exponent hfits
  generalize powerOnPka sN (windowSize bits (regWords sN)) bits regSizeE e
    (pkaWrite start ⟨sN, 1⟩ prime) = ram' at *
  have hone : Wrote sN 3 1 ram' (pkaWrite ram' ⟨sN, 3⟩ 1) := wrote_pkaWrite (by omega)
  have hloaded' := hone.loaded (by omega) hkept
  have hnext : pkaRead (pkaWrite ram' ⟨sN, 3⟩ 1) (Reg.next ⟨sN, 0⟩) = prime := hloaded'.inverse
  have hresult := hpower.leave_redc hw.inverse hw.coprime (by omega)
  unfold pkaMmul
  rw [hloaded'.modulus, hnext, hone.value, hone.others 2 (by omega)]
  change pkaRead (pkaWrite _ ⟨sN, 4⟩ (redc (regRadix sN) n prime (pkaRead ram' ⟨sN, 2⟩ * 1))) ⟨sN, 4⟩ = _
  rw [hresult]
  exact read_write ((Nat.mod_lt _ (by omega)).trans hsmall)

end BouffaloSdk.Bignum
