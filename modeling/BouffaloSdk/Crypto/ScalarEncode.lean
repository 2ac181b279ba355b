import BouffaloSdk.Crypto.BignumExt

/-!
# Signed windows of a scalar

`mpi_scalar_encode` of `mbedtls/port/hw_acc/bignum_ext.c`: odd digits below half the window
and zeros, the lowest first.
-/

namespace BouffaloSdk.Ecp
open Bignum

/-- The loop's variables and the output. -/
structure Encoding where
  pos : Nat
  carry : Nat
  outputLen : Nat
  output : Nat → Int

/-- The bits of the scalar from `pos` on, `w` of them at least. -/
def bitBuf (scalar : Nat → Nat) (scalarLen w pos : Nat) : Nat :=
  let u32Idx := pos / 32
  let bitIdx := pos % 32
  if bitIdx < 32 - w then scalar u32Idx >>> bitIdx
  else if u32Idx + 1 < scalarLen then
    scalar u32Idx >>> bitIdx ||| scalar (u32Idx + 1) <<< (32 - bitIdx) % 2 ^ 32
  else scalar u32Idx >>> bitIdx

/-- The loop; `fuel` is the passes left to it. -/
def encodeLoop (scalar : Nat → Nat) (scalarLen w : Nat) : Nat → Encoding → Encoding
  | 0, st => st
  | fuel + 1, st =>
    if st.pos < scalarLen * 32 then
      let window := st.carry + (bitBuf scalar scalarLen w st.pos &&& (1 <<< w - 1))
      if window &&& 1 = 0 then encodeLoop scalar scalarLen w fuel { st with pos := st.pos + 1 }
      else if window < 1 <<< w / 2 then
        encodeLoop scalar scalarLen w fuel
          ⟨st.pos + w, 0, st.pos + 1, Function.update st.output st.pos window⟩
      else
        encodeLoop scalar scalarLen w fuel
          ⟨st.pos + w, 1, st.pos + 1,
            Function.update st.output st.pos ((window : Int) - (1 <<< w : Nat))⟩
    else st

/-- The carry that is left over is a digit of its own. -/
def finishEncoding (st : Encoding) : Encoding :=
  if st.carry ≠ 0 then
    { st with outputLen := st.pos + 1, output := Function.update st.output st.pos 1 }
  else st

/-- `mpi_scalar_encode`: the digits and their number, or nothing for bad arguments. -/
def mpiScalarEncode (scalar : Nat → Nat) (scalarLen w : Nat) : Option ((Nat → Int) × Nat) :=
  if scalarLen = 0 then none
  else if ¬ (2 ≤ w ∧ w ≤ 8) then none
  else
    let st := finishEncoding (encodeLoop scalar scalarLen w (scalarLen * 32) ⟨0, 0, 0, fun _ => 0⟩)
    some (st.output, if 0 < st.outputLen then st.outputLen else 1)

/-! ## The value of the digits -/

/-- The value of the next `count` digits from `k` on. -/
def highValue (d : Nat → Int) : Nat → Nat → Int
  | 0, _ => 0
  | count + 1, k => d k + 2 * highValue d count (k + 1)

/-- One digit off the low end, the digits from `len` on being zero. -/
theorem highValue_step {d : Nat → Int} {len k : Nat} (h : len ≤ k → d k = 0) :
    highValue d (len - k) k = d k + 2 * highValue d (len - (k + 1)) (k + 1) := by
  by_cases hk : len ≤ k
  · have hzero : len - k = 0 := by omega
    have hzero' : len - (k + 1) = 0 := by omega
    rw [hzero, hzero', h hk]
    rfl
  · obtain ⟨c, hc⟩ : ∃ c, len - k = c + 1 := ⟨len - (k + 1), by omega⟩
    have hc' : len - (k + 1) = c := by omega
    rw [hc, hc']
    rfl

/-- Zeros only double what is above them. -/
theorem highValue_zeros {d : Nat → Int} {len k : Nat} (hlen : ∀ i, len ≤ i → d i = 0) (j : Nat)
    (h : ∀ i, i < j → d (k + i) = 0) :
    highValue d (len - k) k = 2 ^ j * highValue d (len - (k + j)) (k + j) := by
  induction j with
  | zero => simp
  | succ j ih =>
    have hstep := @highValue_step d len (k + j) (hlen _)
    rw [ih fun i hi => h i (by omega), hstep, h j (by omega), zero_add, pow_succ]
    ring_nf

/-! ## The window of bits -/

/-- The limbs of `m`. -/
def limbsOf (m : Nat) : Nat → Nat := fun i => m / 2 ^ (32 * i) % 2 ^ 32

theorem bitBuf_window {m scalarLen w pos : Nat} (hm : m < 2 ^ (32 * scalarLen)) (hw : w ≤ 8) :
    bitBuf (limbsOf m) scalarLen w pos &&& (1 <<< w - 1) = m / 2 ^ pos % 2 ^ w := by
  have hpos : 32 * (pos / 32) + pos % 32 = pos := Nat.div_add_mod pos 32
  have hrem : pos % 32 < 32 := Nat.mod_lt _ (by omega)
  refine Nat.eq_of_testBit_eq fun i => ?_
  have hlow : (limbsOf m (pos / 32) >>> (pos % 32)).testBit i =
      (decide (pos % 32 + i < 32) && m.testBit (pos + i)) := by
    have hsum : pos % 32 + i + 32 * (pos / 32) = pos + i := by omega
    rw [Nat.testBit_shiftRight, limbsOf, Nat.testBit_mod_two_pow, Nat.testBit_div_two_pow, hsum]
  rw [Nat.one_shiftLeft, Nat.testBit_and, Nat.testBit_two_pow_sub_one, Nat.testBit_mod_two_pow,
    Nat.testBit_div_two_pow, Nat.add_comm i pos]
  by_cases hi : i < w
  swap
  · simp [hi]
  unfold bitBuf
  dsimp only
  split
  · have hin : pos % 32 + i < 32 := by omega
    rw [hlow]
    simp [hi, hin]
  split
  · rename_i hnext
    have hhigh : ((limbsOf m (pos / 32 + 1) <<< (32 - pos % 32)) % 2 ^ 32).testBit i =
        (decide (32 ≤ pos % 32 + i) && m.testBit (pos + i)) := by
      rw [Nat.testBit_mod_two_pow, Nat.testBit_shiftLeft]
      by_cases hover : 32 ≤ pos % 32 + i
      · have hsum : i - (32 - pos % 32) + 32 * (pos / 32 + 1) = pos + i := by omega
        have hbit : i - (32 - pos % 32) < 32 := by omega
        have hge : 32 - pos % 32 ≤ i := by omega
        have hlt : i < 32 := by omega
        rw [limbsOf, Nat.testBit_mod_two_pow, Nat.testBit_div_two_pow, hsum]
        simp [hover, hbit, hge, hlt]
      · have hge : ¬ 32 - pos % 32 ≤ i := by omega
        simp [hover, hge]
    rw [Nat.testBit_or, hlow, hhigh]
    by_cases hover : 32 ≤ pos % 32 + i
    · have hin : ¬ pos % 32 + i < 32 := by omega
      simp [hover, hin, hi]
    · have hin : pos % 32 + i < 32 := by omega
      simp [hover, hin, hi]
  · rename_i hlast
    rw [hlow]
    by_cases hin : pos % 32 + i < 32
    · simp [hin, hi]
    · -- beyond the last limb every bit is clear
      have hout : m.testBit (pos + i) = false := by
        refine Nat.testBit_lt_two_pow (hm.trans_le (Nat.pow_le_pow_right (by omega) ?_))
        omega
      simp [hin, hout]

/-! ## The loop -/

variable {m scalarLen w fuel : Nat} {st fin : Encoding}

/-- The number whose digits begin at `k`. -/
def Encoding.valueFrom (st : Encoding) (k : Nat) : Int := highValue st.output (st.outputLen - k) k

/-- A digit is 0, or odd and below half the window. -/
def Digit (w : Nat) (d : Int) : Prop := d = 0 ∨ d % 2 = 1 ∧ d.natAbs < 2 ^ (w - 1)

/-- The output ends with its last digit, where one has been written. -/
structure Encoding.Trimmed (st : Encoding) : Prop where
  clear : ∀ i, st.outputLen ≤ i → st.output i = 0
  last : st.outputLen ≠ 0 → st.output (st.outputLen - 1) ≠ 0

theorem Encoding.Trimmed.valueFrom_step (h : st.Trimmed) (k : Nat) :
    st.valueFrom k = st.output k + 2 * st.valueFrom (k + 1) :=
  highValue_step (h.clear k)

theorem Encoding.Trimmed.valueFrom_zeros (h : st.Trimmed) {j k : Nat}
    (hzero : ∀ i, i < j → st.output (k + i) = 0) :
    st.valueFrom k = 2 ^ j * st.valueFrom (k + j) :=
  highValue_zeros h.clear j hzero

theorem Encoding.valueFrom_end {k : Nat} (h : st.outputLen ≤ k) : st.valueFrom k = 0 := by
  rw [valueFrom, Nat.sub_eq_zero_of_le h]
  rfl

/-- Before a pass: nothing is written from `pos` on, and a carry lies inside the output. -/
structure Encoding.Ready (bits : Nat) (st : Encoding) : Prop where
  trimmed : st.Trimmed
  below : st.outputLen ≤ st.pos
  carry : st.carry ≤ 1
  room : st.carry = 1 → st.pos ≤ bits
  short : st.outputLen ≤ bits

/-- What is written from `st` on. -/
structure Encodes (m w bits : Nat) (st fin : Encoding) : Prop where
  trimmed : fin.Trimmed
  same : ∀ i, i < st.pos → fin.output i = st.output i
  value : fin.valueFrom st.pos = (m / 2 ^ st.pos + st.carry : Nat)
  nonneg : ∀ k, st.pos ≤ k → 0 ≤ fin.valueFrom k
  digit : ∀ i, st.pos ≤ i → Digit w (fin.output i)
  short : fin.outputLen ≤ bits + 1

/-- One pass over a window that ends in a clear bit. -/
theorem encodeLoop_even (hm : m < 2 ^ (32 * scalarLen)) (hw : w ≤ 8) (hpos : st.pos < scalarLen * 32)
    (hw2 : 2 ≤ w) (heven : (m / 2 ^ st.pos + st.carry) % 2 = 0) :
    encodeLoop (limbsOf m) scalarLen w (fuel + 1) st =
      encodeLoop (limbsOf m) scalarLen w fuel { st with pos := st.pos + 1 } := by
  have hlow : m / 2 ^ st.pos % 2 ^ w % 2 = m / 2 ^ st.pos % 2 :=
    Nat.mod_mod_of_dvd _ (dvd_pow_self 2 (by omega))
  rw [encodeLoop, if_pos hpos]
  dsimp only
  rw [bitBuf_window hm hw, Nat.and_one_is_mod, if_pos (by omega)]

/-- One pass over a window that ends in a set bit. -/
theorem encodeLoop_odd (hm : m < 2 ^ (32 * scalarLen)) (hw : w ≤ 8) (hpos : st.pos < scalarLen * 32)
    (hw2 : 2 ≤ w) (hready : st.Ready (scalarLen * 32))
    (hodd : (m / 2 ^ st.pos + st.carry) % 2 = 1) :
    ∃ (c : Nat) (d : Int), d = (m / 2 ^ st.pos % 2 ^ w + st.carry : Nat) - 2 ^ w * c ∧ c ≤ 1 ∧
      (c = 1 → st.pos + w ≤ scalarLen * 32) ∧ d % 2 = 1 ∧ d.natAbs < 2 ^ (w - 1) ∧
      encodeLoop (limbsOf m) scalarLen w (fuel + 1) st =
        encodeLoop (limbsOf m) scalarLen w fuel
          ⟨st.pos + w, c, st.pos + 1, Function.update st.output st.pos d⟩ := by
  have hlow : m / 2 ^ st.pos % 2 ^ w % 2 = m / 2 ^ st.pos % 2 :=
    Nat.mod_mod_of_dvd _ (dvd_pow_self 2 (by omega))
  have hhalf : 2 ^ w = 2 * 2 ^ (w - 1) := by rw [← pow_succ', Nat.sub_add_cancel (by omega)]
  have hquarter : 2 ^ (w - 1) = 2 * 2 ^ (w - 2) := by
    rw [← pow_succ']
    congr 1
    omega
  have hlt : m / 2 ^ st.pos % 2 ^ w < 2 ^ w := Nat.mod_lt _ (Nat.two_pow_pos w)
  have hcarry := hready.carry
  rw [encodeLoop, if_pos hpos]
  dsimp only
  rw [bitBuf_window hm hw, Nat.and_one_is_mod, if_neg (by omega), Nat.one_shiftLeft,
    Nat.add_comm st.carry]
  generalize hwin : m / 2 ^ st.pos % 2 ^ w + st.carry = window at *
  split
  · refine ⟨0, window, by simp, by omega, by omega, by omega, by omega, rfl⟩
  · refine ⟨1, (window : Int) - (2 ^ w : Nat), by simp, by omega, fun _ => ?_, by omega, by omega, rfl⟩
    -- the highest bit of the window is set
    by_contra hover
    have hsmall : m / 2 ^ st.pos < 2 ^ (w - 1) := by
      refine Nat.div_lt_of_lt_mul (hm.trans_le ?_)
      rw [← pow_add]
      exact Nat.pow_le_pow_right (by omega) (by omega)
    have hmod := Nat.mod_le (m / 2 ^ st.pos) (2 ^ w)
    omega

/-- After the last pass. -/
theorem finishEncoding_encodes (hm : m < 2 ^ (32 * scalarLen)) (hw2 : 2 ≤ w) (hend : scalarLen * 32 ≤ st.pos)
    (hready : st.Ready (scalarLen * 32)) :
    Encodes m w (scalarLen * 32) st (finishEncoding st) := by
  have hzero : m / 2 ^ st.pos = 0 :=
    Nat.div_eq_of_lt (hm.trans_le (Nat.pow_le_pow_right (by omega) (by omega)))
  have hbelow := hready.below
  have hshort := hready.short
  unfold finishEncoding
  split
  · rename_i hcarry
    have hone : st.carry = 1 := by
      have hle := hready.carry
      omega
    have hroom := hready.room hone
    have hclear : ∀ i, st.pos + 1 ≤ i → Function.update st.output st.pos 1 i = 0 := by
      intro i hi
      rw [Function.update_of_ne (by omega)]
      exact hready.trimmed.clear i (by omega)
    have hvalue : ∀ k, st.pos + 1 ≤ k → Encoding.valueFrom
        { st with outputLen := st.pos + 1, output := Function.update st.output st.pos 1 } k = 0 :=
      fun k hk => Encoding.valueFrom_end hk
    have htrimmed : Encoding.Trimmed
        { st with outputLen := st.pos + 1, output := Function.update st.output st.pos 1 } := by
      refine ⟨hclear, fun _ => ?_⟩
      simp
    have hlast : Encoding.valueFrom
        { st with outputLen := st.pos + 1, output := Function.update st.output st.pos 1 } st.pos = 1 := by
      rw [htrimmed.valueFrom_step, hvalue _ (le_refl _)]
      simp
    refine ⟨htrimmed, fun i hi => Function.update_of_ne (by omega) _ _, ?_, fun k hk => ?_,
      fun i hi => ?_, ?_⟩
    · rw [hlast, hzero, hone]
      rfl
    · rcases Nat.eq_or_lt_of_le hk with rfl | hlt
      · omega
      · rw [hvalue k hlt]
    · rcases Nat.eq_or_lt_of_le hi with rfl | hlt
      · right
        have hbig : 1 < 2 ^ (w - 1) := Nat.one_lt_two_pow (by omega)
        simpa using hbig
      · exact .inl (hclear i hlt)
    · change st.pos + 1 ≤ _
      omega
  · rename_i hcarry
    refine ⟨hready.trimmed, fun _ _ => rfl, ?_, fun k hk => ?_, fun i hi => ?_, by omega⟩
    · rw [Encoding.valueFrom_end hbelow, hzero, not_not.mp hcarry]
      rfl
    · rw [Encoding.valueFrom_end (hbelow.trans hk)]
    · exact .inl (hready.trimmed.clear i (hbelow.trans hi))

/-- A pass that writes nothing. -/
theorem Encodes.even {bits : Nat} (hready : st.Ready bits)
    (h : Encodes m w bits { st with pos := st.pos + 1 } fin)
    (heven : (m / 2 ^ st.pos + st.carry) % 2 = 0) : Encodes m w bits st fin := by
  have hzero : fin.output st.pos = 0 := by
    rw [h.same st.pos (Nat.lt_succ_self _)]
    exact hready.trimmed.clear _ hready.below
  have hdouble : fin.valueFrom st.pos = 2 * fin.valueFrom (st.pos + 1) := by
    rw [h.trimmed.valueFrom_step, hzero, zero_add]
  have hnext : fin.valueFrom (st.pos + 1) = (m / 2 ^ (st.pos + 1) + st.carry : Nat) := h.value
  have hvalue : fin.valueFrom st.pos = (m / 2 ^ st.pos + st.carry : Nat) := by
    have hcarry := hready.carry
    rw [hdouble, hnext, pow_succ, ← Nat.div_div_eq_div_mul]
    omega
  refine ⟨h.trimmed, fun i hi => h.same i (Nat.lt_succ_of_lt hi), hvalue, fun k hk => ?_,
    fun i hi => ?_, h.short⟩
  · rcases Nat.eq_or_lt_of_le hk with rfl | hlt
    · rw [hvalue]
      exact Int.natCast_nonneg _
    · exact h.nonneg k hlt
  · rcases Nat.eq_or_lt_of_le hi with rfl | hlt
    · exact .inl hzero
    · exact h.digit i hlt

/-- A pass that writes the digit `d` and leaves the carry `c`. -/
theorem Encodes.odd {bits c : Nat} {d : Int} (hready : st.Ready bits) (hpos : 0 < w)
    (hd : d = (m / 2 ^ st.pos % 2 ^ w + st.carry : Nat) - 2 ^ w * c) (hdigit : Digit w d)
    (h : Encodes m w bits ⟨st.pos + w, c, st.pos + 1, Function.update st.output st.pos d⟩ fin) :
    Encodes m w bits st fin := by
  have hfirst : fin.output st.pos = d := by
    rw [h.same st.pos (Nat.lt_add_of_pos_right hpos)]
    exact Function.update_self ..
  have hgap : ∀ i, st.pos < i → i < st.pos + w → fin.output i = 0 := by
    intro i hlow hhigh
    rw [h.same i hhigh]
    exact (Function.update_of_ne (by omega) _ _).trans
      (hready.trimmed.clear i (hready.below.trans hlow.le))
  have hnext : fin.valueFrom (st.pos + w) = (m / 2 ^ (st.pos + w) + c : Nat) := h.value
  have hinside : ∀ j, 0 < j → j ≤ w →
      fin.valueFrom (st.pos + j) = 2 ^ (w - j) * fin.valueFrom (st.pos + w) := by
    intro j hj hle
    have hsum : st.pos + j + (w - j) = st.pos + w := by omega
    rw [h.trimmed.valueFrom_zeros (j := w - j) fun i hi => hgap _ (by omega) (by omega), hsum]
  have hvalue : fin.valueFrom st.pos = (m / 2 ^ st.pos + st.carry : Nat) := by
    have hpow : (2 : Int) * 2 ^ (w - 1) = 2 ^ w := by rw [← pow_succ', Nat.sub_add_cancel hpos]
    have hsplit : (m / 2 ^ st.pos : Nat) = 2 ^ w * (m / 2 ^ (st.pos + w)) + m / 2 ^ st.pos % 2 ^ w := by
      rw [pow_add, ← Nat.div_div_eq_div_mul, Nat.div_add_mod]
    calc fin.valueFrom st.pos = d + 2 * (2 ^ (w - 1) * fin.valueFrom (st.pos + w)) := by
          rw [h.trimmed.valueFrom_step, hfirst, hinside 1 (by omega) hpos]
      _ = d + 2 ^ w * (m / 2 ^ (st.pos + w) + c : Nat) := by rw [hnext, ← mul_assoc, hpow]
      _ = (m / 2 ^ st.pos + st.carry : Nat) := by
          rw [hd]
          generalize m / 2 ^ (st.pos + w) = q at *
          generalize m / 2 ^ st.pos % 2 ^ w = r at *
          rw [hsplit]
          push_cast
          ring
  refine ⟨h.trimmed, fun i hi => ?_, hvalue, fun k hk => ?_, fun i hi => ?_, h.short⟩
  · rw [h.same i (Nat.lt_add_right w hi)]
    exact Function.update_of_ne hi.ne _ _
  · rcases Nat.eq_or_lt_of_le hk with rfl | hlt
    · rw [hvalue]
      exact Int.natCast_nonneg _
    by_cases hin : k < st.pos + w
    · obtain ⟨j, rfl⟩ : ∃ j, k = st.pos + j := ⟨k - st.pos, by omega⟩
      rw [hinside j (by omega) (by omega), hnext]
      positivity
    · exact h.nonneg k (Nat.le_of_not_lt hin)
  · rcases Nat.eq_or_lt_of_le hi with rfl | hlt
    · rwa [hfirst]
    by_cases hin : i < st.pos + w
    · exact .inl (hgap i hlt hin)
    · exact h.digit i (Nat.le_of_not_lt hin)

theorem Encoding.Ready.even {bits : Nat} (h : st.Ready bits) (hpos : st.pos < bits) :
    Encoding.Ready bits { st with pos := st.pos + 1 } :=
  ⟨⟨h.trimmed.1, h.trimmed.2⟩, h.below.trans (Nat.le_succ _), h.carry, fun _ => hpos, h.short⟩

theorem Encoding.Ready.odd {bits c : Nat} {d : Int} (h : st.Ready bits) (hpos : st.pos < bits)
    (hw : 0 < w) (hd : d ≠ 0) (hc : c ≤ 1) (hroom : c = 1 → st.pos + w ≤ bits) :
    Encoding.Ready bits ⟨st.pos + w, c, st.pos + 1, Function.update st.output st.pos d⟩ := by
  refine ⟨⟨fun i hi => ?_, fun _ => ?_⟩, Nat.add_le_add_left hw _, hc, hroom, hpos⟩
  · have hbelow := h.below
    change st.pos + 1 ≤ i at hi
    exact (Function.update_of_ne (by omega) _ _).trans (h.trimmed.clear i (by omega))
  · change Function.update st.output st.pos d st.pos ≠ 0
    rwa [Function.update_self]

/-- The digits that are written from `st` on have the value of the bits from there on and
the carry. -/
theorem encodeLoop_encodes (hm : m < 2 ^ (32 * scalarLen)) (hw2 : 2 ≤ w) (hw : w ≤ 8)
    (hready : st.Ready (scalarLen * 32)) (hfuel : scalarLen * 32 ≤ st.pos + fuel) :
    Encodes m w (scalarLen * 32) st
      (finishEncoding (encodeLoop (limbsOf m) scalarLen w fuel st)) := by
  induction fuel generalizing st with
  | zero => exact finishEncoding_encodes hm hw2 hfuel hready
  | succ fuel ih =>
    by_cases hpos : st.pos < scalarLen * 32
    swap
    · rw [encodeLoop, if_neg hpos]
      exact finishEncoding_encodes hm hw2 (by omega) hready
    rcases Nat.mod_two_eq_zero_or_one (m / 2 ^ st.pos + st.carry) with heven | hodd
    · rw [encodeLoop_even hm hw hpos hw2 heven]
      refine Encodes.even hready (ih (hready.even hpos) ?_) heven
      change scalarLen * 32 ≤ st.pos + 1 + fuel
      omega
    · obtain ⟨c, d, hd, hc, hroom, hdodd, hdlt, hloop⟩ :=
        encodeLoop_odd hm hw hpos hw2 hready hodd
      rw [hloop]
      refine Encodes.odd hready (by omega) hd (.inr ⟨hdodd, hdlt⟩)
        (ih (hready.odd hpos (by omega) (by omega) hc hroom) ?_)
      change scalarLen * 32 ≤ st.pos + w + fuel
      omega

/-- Digits that are not zero are `w` places apart. -/
theorem encodeLoop_apart (hm : m < 2 ^ (32 * scalarLen)) (hw2 : 2 ≤ w) (hw : w ≤ 8)
    (hready : st.Ready (scalarLen * 32)) (hfuel : scalarLen * 32 ≤ st.pos + fuel) {i j : Nat}
    (hi : st.pos ≤ i) (hij : i < j)
    (hdi : (finishEncoding (encodeLoop (limbsOf m) scalarLen w fuel st)).output i ≠ 0)
    (hdj : (finishEncoding (encodeLoop (limbsOf m) scalarLen w fuel st)).output j ≠ 0) :
    i + w ≤ j := by
  -- behind the end at most one digit, the carry, is left to write
  have hend : ∀ st : Encoding, st.Ready (scalarLen * 32) → st.pos ≤ i →
      (finishEncoding st).output j = 0 := by
    intro st hready hi
    have hclear := hready.trimmed.clear j (hready.below.trans (hi.trans hij.le))
    unfold finishEncoding
    split
    · exact (Function.update_of_ne (by omega) _ _).trans hclear
    · exact hclear
  induction fuel generalizing st with
  | zero => exact absurd (hend st hready hi) hdj
  | succ fuel ih =>
    by_cases hpos : st.pos < scalarLen * 32
    swap
    · rw [encodeLoop, if_neg hpos] at hdj
      exact absurd (hend st hready hi) hdj
    rcases Nat.mod_two_eq_zero_or_one (m / 2 ^ st.pos + st.carry) with heven | hodd
    · rw [encodeLoop_even hm hw hpos hw2 heven] at hdi hdj
      have hnext := hready.even hpos
      have hfuel' : scalarLen * 32 ≤ st.pos + 1 + fuel := by omega
      have hencodes := encodeLoop_encodes hm hw2 hw hnext hfuel'
      rcases Nat.eq_or_lt_of_le hi with rfl | hlt
      · rw [hencodes.same st.pos (Nat.lt_succ_self _)] at hdi
        exact absurd (hready.trimmed.clear _ hready.below) hdi
      · exact ih hnext hfuel' hlt hdi hdj
    · obtain ⟨c, d, -, hc, hroom, hdodd, -, hloop⟩ := encodeLoop_odd hm hw hpos hw2 hready hodd
      rw [hloop] at hdi hdj
      have hnext := hready.odd hpos (show 0 < w by omega) (show d ≠ 0 by omega) hc hroom
      have hfuel' : scalarLen * 32 ≤ st.pos + w + fuel := by omega
      have hencodes := encodeLoop_encodes hm hw2 hw hnext hfuel'
      have hgap : ∀ k, st.pos < k → k < st.pos + w →
          (finishEncoding (encodeLoop (limbsOf m) scalarLen w fuel
            ⟨st.pos + w, c, st.pos + 1, Function.update st.output st.pos d⟩)).output k = 0 := by
        intro k hlow hhigh
        rw [hencodes.same k hhigh]
        exact (Function.update_of_ne (by omega) _ _).trans
          (hready.trimmed.clear k (hready.below.trans hlow.le))
      rcases Nat.eq_or_lt_of_le hi with rfl | hlt
      · by_contra hnear
        exact hdj (hgap j hij (by omega))
      · rcases Nat.lt_or_ge i (st.pos + w) with hin | hout
        · exact absurd (hgap i hlt hin) hdi
        · exact ih hnext hfuel' hout hdi hdj

/-- The digits of a scalar: their values from each place on are at least 0, and from the
lowest place it is the scalar. -/
theorem mpiScalarEncode_spec (hm : m < 2 ^ (32 * scalarLen)) (hpos : 0 < scalarLen) (hw2 : 2 ≤ w)
    (hw : w ≤ 8) :
    ∃ st : Encoding, mpiScalarEncode (limbsOf m) scalarLen w = some (st.output, max st.outputLen 1) ∧
      st.Trimmed ∧ st.valueFrom 0 = m ∧ (∀ k, 0 ≤ st.valueFrom k) ∧ (∀ i, Digit w (st.output i)) ∧
      st.outputLen ≤ scalarLen * 32 + 1 := by
  have hready : Encoding.Ready (scalarLen * 32) ⟨0, 0, 0, fun _ => 0⟩ :=
    ⟨⟨fun _ _ => rfl, fun hne => absurd rfl hne⟩, le_refl _, Nat.zero_le _, by simp, by simp⟩
  have hencodes := encodeLoop_encodes hm hw2 hw hready
    (show scalarLen * 32 ≤ 0 + scalarLen * 32 by simp)
  refine ⟨_, ?_, hencodes.trimmed, ?_, fun k => hencodes.nonneg k (Nat.zero_le _),
    fun i => hencodes.digit i (Nat.zero_le _), hencodes.short⟩
  · rw [mpiScalarEncode, if_neg (by omega), if_neg (by omega)]
    dsimp only
    congr 2
    split <;> omega
  · have hvalue := hencodes.value
    simpa using hvalue

end BouffaloSdk.Ecp
