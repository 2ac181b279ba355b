import BouffaloSdk.Crypto.BignumExt
import Mathlib.Algebra.Ring.Int.Parity
import Mathlib.Data.Nat.Bitwise
import Mathlib.Data.Nat.Prime.Basic

/-!
# Exponentiation in software

`mbedtls_mpi_exp_mod_original` of `mbedtls/port/bignum.c`, with its Montgomery product.
-/

namespace BouffaloSdk.Bignum
open Kit Kit.Montgomery

def errMpiBadInputData : Int := -0x0004
def errMpiBufferTooSmall : Int := -0x0008
def errMpiAllocFailed : Int := -0x0010

/-- `MBEDTLS_MPI_MAX_BITS`. -/
def mpiMaxBits : Nat := 8 * 1024

/-- `MBEDTLS_MPI_WINDOW_SIZE`. -/
def mpiWindowSize : Nat := 6

/-- A value in an unsigned limb. -/
def u32 (z : Int) : Nat := (z % 2 ^ 32).toNat

def montgStep (m0 x : Nat) : Nat := u32 (x * (2 - m0 * x))

/-- `mpi_montg_init`, from the low limb of the modulus. -/
def mpiMontgInit (m0 : Nat) : Nat :=
  let x := u32 ((m0 + ((m0 + 2 &&& 4) <<< 1) : Nat))
  -- `i` is 32, 16 and 8
  let x := montgStep m0 (montgStep m0 (montgStep m0 x))
  u32 (-x)

/-- `R` of the modulus: a power of two of its limbs. -/
def Mpi.radix (n : Mpi) : Nat := (2 ^ 32) ^ n.n

/-- `mpi_montmul`. Limbs of `b` beyond those of the modulus are not read. -/
def mpiMontmul (n : Mpi) (mm a b : Nat) : Nat :=
  let d := montLoop (2 ^ 32) (b % n.radix) n.val.natAbs mm n.n a 0
  if n.val.natAbs ≤ d then d - n.val.natAbs else d

/-- `mpi_montred`. -/
def mpiMontred (n : Mpi) (mm a : Nat) : Nat := mpiMontmul n mm a 1

/-! ## The sliding window -/

/-- The accumulator `W[x_index]`, the scanner's state and the bits of the open window. -/
structure Scan where
  acc : Nat
  state : Nat
  nbits : Nat
  window : Nat
  deriving DecidableEq, Repr

def windowBitsize (bits : Nat) : Nat :=
  let size := if 671 < bits then 6 else if 239 < bits then 5 else if 79 < bits then 4
    else if 23 < bits then 3 else 1
  if mpiWindowSize < size then mpiWindowSize else size

section
variable (mul : Nat → Nat → Nat)

/-- `x` squared `k` times over. -/
def squares : Nat → Nat → Nat
  | 0, x => x
  | k + 1, x => squares k (mul x x)

/-- `W[i] = W[i - 1] * W[1]` for the next `k` entries. -/
def fillTable : Nat → Nat → (Nat → Nat) → Nat → Nat
  | 0, _, w => w
  | k + 1, i, w => fillTable k (i + 1) (Function.update w i (mul (w (i - 1)) (w 1)))

/-- The entries from the middle of the table on, `W[1]` being set. -/
def windowTable (bitsize : Nat) (w : Nat → Nat) : Nat → Nat :=
  if 1 < bitsize then
    let j := 2 ^ bitsize / 2
    fillTable mul (2 ^ bitsize - (j + 1)) (j + 1)
      (Function.update w j (squares mul (bitsize - 1) (w 1)))
  else w

/-- One bit of the exponent. -/
def scanBit (w : Nat → Nat) (bitsize : Nat) (s : Scan) (ei : Bool) : Scan :=
  if ei = false ∧ s.state = 0 then s
  else if ei = false ∧ s.state = 1 then { s with acc := mul s.acc s.acc }
  else
    let nbits := s.nbits + 1
    let window := s.window ||| ei.toNat <<< (bitsize - nbits)
    if nbits = bitsize then
      ⟨mul (squares mul bitsize s.acc) (w window), 1, 0, 0⟩
    else ⟨s.acc, 2, nbits, window⟩

/-- The bits of `e` below `k`, from the top. -/
def scanBits (w : Nat → Nat) (bitsize e : Nat) : Nat → Scan → Scan
  | 0, s => s
  | k + 1, s => scanBits w bitsize e k (scanBit mul w bitsize s (e.testBit k))

/-- The bits of a window that is still open. -/
def remainingBits (w : Nat → Nat) (bitsize : Nat) : Nat → Nat → Nat → Nat
  | 0, _, acc => acc
  | k + 1, window, acc =>
    let acc := mul acc acc
    let window := window <<< 1
    remainingBits w bitsize k window
      (if window &&& 1 <<< bitsize ≠ 0 then mul acc (w 1) else acc)

/-- The power of `w 1` to `e`, an exponent of `32 * limbs` bits; `one` is the first
accumulator. -/
def slidingWindow (bitsize limbs e one : Nat) (w : Nat → Nat) : Nat :=
  let w := windowTable mul bitsize w
  let s := scanBits mul w bitsize e (32 * limbs) ⟨one, 0, 0, 0⟩
  remainingBits mul w bitsize s.nbits s.window s.acc

end

/-! ## The function -/

/-- The helper number of the caller: no argument, a number without limbs, or a value. -/
inductive Helper
  | null
  | unused
  | holds (v : Nat)
  deriving DecidableEq, Repr

/-- Where the software finds memory: for the temporaries, for the helper constant and for
the rest of the computation. The copy into `X` is not checked: `stale` is what `X` holds
where it finds none. -/
structure SoftHeap where
  temporaries : Bool
  constant : Bool
  rest : Bool
  stale : Option Int

/-- `R² mod N`, the constant of the software. -/
def softConstant (n : Mpi) : Nat := n.radix * n.radix % n.val.natAbs

/-- The constant in use and the caller's helper, which takes over one that is computed. -/
def softHelper (constant : Bool) (n : Mpi) : Helper → Option (Nat × Helper)
  | .holds v => some (v, .holds v)
  | .null => if constant then some (softConstant n, .null) else none
  | .unused => if constant then some (softConstant n, .holds (softConstant n)) else none

/-- `mbedtls_mpi_exp_mod_original`: `X` or an error, and the helper afterwards. -/
def mbedtlsMpiExpModOriginal (heap : SoftHeap) (a e n : Mpi) (precRR : Helper) :
    Except Int Int × Helper :=
  if n.val ≤ 0 ∨ n.limb 0 % 2 = 0 then (.error errMpiBadInputData, precRR)
  else if e.val < 0 then (.error errMpiBadInputData, precRR)
  else if mpiMaxBits < e.bitlen ∨ mpiMaxBits < n.bitlen then (.error errMpiBadInputData, precRR)
  else
    let mm := mpiMontgInit (n.limb 0)
    let bitsize := windowBitsize e.bitlen
    if heap.temporaries = false then (.error errMpiAllocFailed, precRR)
    else
      let mag := a.val.natAbs
      match softHelper heap.constant n precRR with
      | none => (.error errMpiAllocFailed, precRR)
      | some (rr, helper) =>
        if heap.rest = false then (.error errMpiAllocFailed, helper)
        else
          let base := if n.val.natAbs ≤ mag then mag % n.val.natAbs else mag
          let w1 := mpiMontmul n mm base rr
          let one := mpiMontred n mm rr
          let power := slidingWindow (mpiMontmul n mm) bitsize e.n e.val.natAbs one fun _ => w1
          let x := mpiMontred n mm power
          let result := if a.val < 0 ∧ e.n ≠ 0 ∧ e.limb 0 % 2 = 1 then n.val - x else x
          (.ok (heap.stale.getD result), helper)

/-! ## The word inverse -/

theorem u32_lt (z : Int) : u32 z < 2 ^ 32 := by
  unfold u32
  omega

theorem u32_modEq (z : Int) : (u32 z : Int) ≡ z [ZMOD 2 ^ 32] := by
  unfold u32
  rw [Int.toNat_of_nonneg (Int.emod_nonneg _ (by omega))]
  exact Int.mod_modEq z _

/-- The first guess is right in four bits. -/
theorem montg_guess {m0 : Nat} (h : m0 % 2 = 1) :
    InverseTo m0 ((m0 + ((m0 + 2 &&& 4) <<< 1) : Nat) : Int) 4 := by
  have hbit : m0 + 2 &&& 4 = (m0 + 2) / 4 % 2 * 4 := by
    have hand := Nat.and_two_pow (m0 + 2) 2
    rwa [Nat.toNat_testBit] at hand
  rw [hbit, Nat.shiftLeft_eq]
  obtain ⟨q, r, hr, rfl⟩ : ∃ q r, r < 8 ∧ m0 = 8 * q + r := ⟨m0 / 8, m0 % 8, by omega, by omega⟩
  have hcase : r = 1 ∨ r = 3 ∨ r = 5 ∨ r = 7 := by omega
  unfold InverseTo
  rcases hcase with rfl | rfl | rfl | rfl
  · have hq : (8 * q + 1 + 2) / 4 % 2 = 0 := by omega
    rw [hq]
    push_cast
    exact ⟨4 * q * q + q, by ring⟩
  · have hq : (8 * q + 3 + 2) / 4 % 2 = 1 := by omega
    rw [hq]
    push_cast
    exact ⟨4 * q * q + 7 * q + 2, by ring⟩
  · have hq : (8 * q + 5 + 2) / 4 % 2 = 1 := by omega
    rw [hq]
    push_cast
    exact ⟨4 * q * q + 9 * q + 4, by ring⟩
  · have hq : (8 * q + 7 + 2) / 4 % 2 = 0 := by omega
    rw [hq]
    push_cast
    exact ⟨4 * q * q + 7 * q + 3, by ring⟩

theorem inverseTo_u32 {a x : Int} {k : Nat} (h : InverseTo a x k) (hk : k ≤ 32) :
    InverseTo a (u32 x) k := by
  have hmod : (u32 x : Int) ≡ x [ZMOD 2 ^ k] := (u32_modEq x).of_dvd (pow_dvd_pow 2 hk)
  exact (Int.ModEq.dvd_iff ((hmod.mul_right a).sub_right 1)).mpr h

theorem montgStep_inverse {m0 x k : Nat} (h : InverseTo m0 x k) (hk : k + k ≤ 32) :
    InverseTo m0 (montgStep m0 x) (k + k) := by
  refine inverseTo_u32 ?_ hk
  have hlift := inverse_lift h
  rw [← pow_add] at hlift
  have hsame : (x : Int) * (2 - m0 * x) * m0 - 1 = (2 * x - x * x * m0) * m0 - 1 := by ring
  rwa [InverseTo, hsame]

theorem mpiMontgInit_negInverse {m0 : Nat} (h : m0 % 2 = 1) :
    NegInverse (2 ^ 32) m0 (mpiMontgInit m0) := by
  have hstart := inverseTo_u32 (montg_guess h) (by omega)
  have hdone := montgStep_inverse (montgStep_inverse (montgStep_inverse hstart (by omega))
    (by omega)) (by omega)
  unfold mpiMontgInit
  set x := montgStep m0 (montgStep m0 (montgStep m0 (u32 ((m0 + ((m0 + 2 &&& 4) <<< 1) : Nat)))))
  have hsum : (m0 : Int) * u32 (-x) + 1 ≡ m0 * -x + 1 [ZMOD 2 ^ 32] :=
    ((u32_modEq (-x)).mul_left m0).add_right 1
  have hdvd : (2 : Int) ^ 32 ∣ m0 * -x + 1 := by
    obtain ⟨c, hc⟩ := hdone
    exact ⟨-c, by linear_combination (-1 : Int) * hc⟩
  have hresult := (Int.ModEq.dvd_iff hsum).mpr hdvd
  unfold NegInverse
  exact_mod_cast hresult

/-! ## Powers along the window

`Power k x` says that `x` stands for the `k`-th power; a product stands for the sum of the
exponents. -/

section
variable {mul : Nat → Nat → Nat} {Power : Nat → Nat → Prop} {w : Nat → Nat}
variable {bitsize e k i j x : Nat}

theorem squares_power (hmul : ∀ {i j x y}, Power i x → Power j y → Power (i + j) (mul x y))
    (h : Power i x) (k : Nat) : Power (i * 2 ^ k) (squares mul k x) := by
  induction k generalizing i x with
  | zero => simpa [squares] using h
  | succ k ih =>
    have hexp : i * 2 ^ (k + 1) = (i + i) * 2 ^ k := by ring
    rw [hexp]
    exact ih (hmul h h)

theorem fillTable_below {k i m : Nat} (h : m < i) : fillTable mul k i w m = w m := by
  induction k generalizing i w with
  | zero => rfl
  | succ k ih =>
    rw [fillTable, ih (by omega), Function.update_of_ne (by omega)]

theorem fillTable_power (hmul : ∀ {i j x y}, Power i x → Power j y → Power (i + j) (mul x y))
    (hi : 1 < i) (hprev : Power (i - 1) (w (i - 1))) (hone : Power 1 (w 1)) {m : Nat}
    (hm : i - 1 ≤ m) (hlast : m < i + k) : Power m (fillTable mul k i w m) := by
  induction k generalizing i w with
  | zero =>
    have hsame : m = i - 1 := by omega
    rwa [hsame]
  | succ k ih =>
    have hnew : Power i (mul (w (i - 1)) (w 1)) := by
      have hsum := hmul hprev hone
      rwa [Nat.sub_add_cancel (by omega)] at hsum
    rw [fillTable]
    rcases Nat.eq_or_lt_of_le hm with rfl | hlt
    · rw [fillTable_below (by omega), Function.update_of_ne (by omega)]
      exact hprev
    · refine ih (by omega) ?_ ?_ (by omega) (by omega)
      · rwa [Nat.add_sub_cancel, Function.update_self]
      · rwa [Function.update_of_ne (by omega)]

/-- Every entry that a full window names is the power of its index. -/
theorem windowTable_power (hmul : ∀ {i j x y}, Power i x → Power j y → Power (i + j) (mul x y))
    (hone : Power 1 (w 1)) (hpos : 0 < bitsize) :
    Power 1 (windowTable mul bitsize w 1) ∧
      ∀ m, 2 ^ (bitsize - 1) ≤ m → m < 2 ^ bitsize → Power m (windowTable mul bitsize w m) := by
  obtain ⟨c, rfl⟩ : ∃ c, bitsize = c + 1 := ⟨bitsize - 1, by omega⟩
  rcases Nat.eq_zero_or_pos c with rfl | hc
  · refine ⟨hone, fun m hlow hhigh => ?_⟩
    obtain rfl : m = 1 := by simp at hlow hhigh; omega
    exact hone
  · have hhalf : 2 ^ (c + 1) / 2 = 2 ^ c := by rw [pow_succ]; omega
    have htwo : 2 ^ 1 ≤ 2 ^ c := Nat.pow_le_pow_right (by omega) hc
    have hmid : Power (2 ^ c) (squares mul c (w 1)) := by
      simpa using squares_power hmul hone c
    have hdouble : 2 ^ (c + 1) = 2 ^ c + 2 ^ c := by rw [pow_succ]; omega
    unfold windowTable
    rw [if_pos (by omega), Nat.add_sub_cancel, hhalf]
    have hone' : Function.update w (2 ^ c) (squares mul c (w 1)) 1 = w 1 :=
      Function.update_of_ne (by omega) _ _
    refine ⟨?_, fun m hlow hhigh => ?_⟩
    · rw [fillTable_below (by omega), hone']
      exact hone
    · refine fillTable_power hmul (by omega) ?_ (by rwa [hone']) (by omega) (by omega)
      rwa [Nat.add_sub_cancel, Function.update_self]

/-- What the scanner has read is `p`: the accumulator is the power before the open window,
whose bits are the last ones of `p` from the top of the window down. -/
structure Scanned (Power : Nat → Nat → Prop) (bitsize p : Nat) (s : Scan) : Prop where
  acc : Power (p >>> s.nbits) s.acc
  short : s.nbits < bitsize
  window : s.window = p % 2 ^ s.nbits * 2 ^ (bitsize - s.nbits)
  leading : 0 < s.nbits → 2 ^ (s.nbits - 1) ≤ p % 2 ^ s.nbits
  closed : s.state ≤ 1 ↔ s.nbits = 0
  fresh : s.state = 0 → p = 0

theorem mod_two_pow_succ (p : Nat) (ei : Bool) (n : Nat) :
    (2 * p + ei.toNat) % 2 ^ (n + 1) = 2 * (p % 2 ^ n) + ei.toNat := by
  have hbit : ei.toNat < 2 := Bool.toNat_lt ei
  have hdiv : (2 * p + ei.toNat) / 2 = p := by omega
  have hmod : (2 * p + ei.toNat) % 2 = ei.toNat := by omega
  rw [pow_succ', Nat.mod_mul, hdiv, hmod]
  omega

theorem shiftRight_succ_bit (p : Nat) (ei : Bool) (n : Nat) :
    (2 * p + ei.toNat) >>> (n + 1) = p >>> n := by
  have hbit : ei.toNat < 2 := Bool.toNat_lt ei
  have hdiv : (2 * p + ei.toNat) / 2 = p := by omega
  rw [Nat.shiftRight_eq_div_pow, Nat.shiftRight_eq_div_pow, pow_succ', ← Nat.div_div_eq_div_mul,
    hdiv]

/-- One more bit in the window. -/
theorem window_push {p n : Nat} (ei : Bool) (h : n < bitsize) :
    p % 2 ^ n * 2 ^ (bitsize - n) ||| ei.toNat <<< (bitsize - (n + 1)) =
      (2 * p + ei.toNat) % 2 ^ (n + 1) * 2 ^ (bitsize - (n + 1)) := by
  obtain ⟨c, rfl⟩ : ∃ c, bitsize = n + 1 + c := ⟨bitsize - (n + 1), by omega⟩
  have hn : n + 1 + c - n = c + 1 := by omega
  have hc : n + 1 + c - (n + 1) = c := by omega
  have hbit : ei.toNat * 2 ^ c < 2 ^ (c + 1) := by
    have hle : ei.toNat ≤ 1 := Bool.toNat_le ei
    have hpos : 0 < 2 ^ c := Nat.two_pow_pos c
    calc ei.toNat * 2 ^ c ≤ 1 * 2 ^ c := Nat.mul_le_mul_right _ hle
      _ < 2 ^ (c + 1) := by rw [pow_succ]; omega
  rw [hn, hc, mod_two_pow_succ, Nat.shiftLeft_eq, ← Nat.shiftLeft_eq (p % 2 ^ n),
    ← Nat.shiftLeft_add_eq_or_of_lt hbit, Nat.shiftLeft_eq]
  ring

theorem scanBit_scanned (hmul : ∀ {i j x y}, Power i x → Power j y → Power (i + j) (mul x y))
    (htable : ∀ m, 2 ^ (bitsize - 1) ≤ m → m < 2 ^ bitsize → Power m (w m)) {p : Nat} {s : Scan}
    (h : Scanned Power bitsize p s) (ei : Bool) :
    Scanned Power bitsize (2 * p + ei.toNat) (scanBit mul w bitsize s ei) := by
  unfold scanBit
  by_cases hskip : ei = false ∧ s.state = 0
  · rw [if_pos hskip]
    obtain ⟨rfl, hstate⟩ := hskip
    have hp : p = 0 := h.fresh hstate
    subst hp
    exact h
  rw [if_neg hskip]
  by_cases hsquare : ei = false ∧ s.state = 1
  · rw [if_pos hsquare]
    obtain ⟨rfl, hstate⟩ := hsquare
    have hnone : s.nbits = 0 := h.closed.mp (by omega)
    have hacc : Power p s.acc := by simpa [hnone] using h.acc
    refine ⟨?_, h.short, ?_, ?_, h.closed, ?_⟩
    · simpa [hnone, two_mul] using hmul hacc hacc
    · change s.window = _
      rw [h.window, hnone]
      simp [Nat.mod_one]
    · intro hpos
      change 0 < s.nbits at hpos
      omega
    · intro hzero
      change s.state = 0 at hzero
      omega
  rw [if_neg hsquare]
  have hwindow : s.window ||| ei.toNat <<< (bitsize - (s.nbits + 1)) =
      (2 * p + ei.toNat) % 2 ^ (s.nbits + 1) * 2 ^ (bitsize - (s.nbits + 1)) := by
    rw [h.window]
    exact window_push ei h.short
  -- a window opens with a bit that is set
  have hleading : 2 ^ s.nbits ≤ (2 * p + ei.toNat) % 2 ^ (s.nbits + 1) := by
    rw [mod_two_pow_succ]
    rcases Nat.eq_zero_or_pos s.nbits with hnone | hpos
    · have hstate : s.state = 0 ∨ s.state = 1 := by
        have hle := h.closed.mpr hnone
        omega
      have hset : ei = true := by
        cases ei with
        | true => rfl
        | false =>
          rcases hstate with hzero | hone
          · exact absurd ⟨rfl, hzero⟩ hskip
          · exact absurd ⟨rfl, hone⟩ hsquare
      rw [hset, hnone]
      simp
    · have hlead := h.leading hpos
      have hpow : 2 ^ s.nbits = 2 * 2 ^ (s.nbits - 1) := by
        rw [← pow_succ', Nat.sub_add_cancel hpos]
      omega
  have hshort := h.short
  dsimp only
  rw [hwindow]
  by_cases hfull : s.nbits + 1 = bitsize
  · rw [if_pos hfull, hfull, Nat.sub_self, pow_zero, mul_one]
    rw [hfull] at hleading
    have hentry : Power ((2 * p + ei.toNat) % 2 ^ bitsize) (w ((2 * p + ei.toNat) % 2 ^ bitsize)) := by
      refine htable _ ?_ (Nat.mod_lt _ (Nat.two_pow_pos _))
      have hlast : bitsize - 1 = s.nbits := by omega
      rwa [hlast]
    have hbefore := squares_power hmul h.acc bitsize
    have hsame : p >>> s.nbits = (2 * p + ei.toNat) / 2 ^ bitsize := by
      rw [← shiftRight_succ_bit p ei, hfull, Nat.shiftRight_eq_div_pow]
    have hexp : p >>> s.nbits * 2 ^ bitsize + (2 * p + ei.toNat) % 2 ^ bitsize = 2 * p + ei.toNat := by
      rw [hsame]
      exact Nat.div_add_mod' _ _
    refine ⟨?_, Nat.zero_lt_of_lt hshort, by simp [Nat.mod_one], by simp, by simp, by simp⟩
    have hall := hmul hbefore hentry
    rwa [hexp] at hall
  · rw [if_neg hfull]
    refine ⟨?_, by dsimp only; omega, rfl, fun _ => hleading, by simp, by simp⟩
    dsimp only
    rw [shiftRight_succ_bit]
    exact h.acc

theorem testBit_shiftRight_succ (e k : Nat) : 2 * (e >>> (k + 1)) + (e.testBit k).toNat = e >>> k := by
  rw [Nat.toNat_testBit, Nat.shiftRight_eq_div_pow, Nat.shiftRight_eq_div_pow, pow_succ,
    ← Nat.div_div_eq_div_mul]
  omega

theorem scanBits_scanned (hmul : ∀ {i j x y}, Power i x → Power j y → Power (i + j) (mul x y))
    (htable : ∀ m, 2 ^ (bitsize - 1) ≤ m → m < 2 ^ bitsize → Power m (w m)) {s : Scan}
    (h : Scanned Power bitsize (e >>> k) s) :
    Scanned Power bitsize e (scanBits mul w bitsize e k s) := by
  induction k generalizing s with
  | zero => exact h
  | succ k ih =>
    have hnext := scanBit_scanned hmul htable h (e.testBit k)
    rw [testBit_shiftRight_succ] at hnext
    exact ih hnext

/-- The bits of the window that are still in it are the low bits of `e` from `k` down. -/
theorem remainingBits_power
    (hmul : ∀ {i j x y}, Power i x → Power j y → Power (i + j) (mul x y)) (hone : Power 1 (w 1))
    {window acc c : Nat} (hk : k ≤ bitsize) (hacc : Power (e >>> k) acc)
    (hwindow : window = c * 2 ^ bitsize + e % 2 ^ k * 2 ^ (bitsize - k)) :
    Power e (remainingBits mul w bitsize k window acc) := by
  induction k generalizing window acc c with
  | zero => exact hacc
  | succ k ih =>
    have hpos : 0 < 2 ^ bitsize := Nat.two_pow_pos bitsize
    have hlow : e % 2 ^ k * 2 ^ (bitsize - k) < 2 ^ bitsize := by
      calc e % 2 ^ k * 2 ^ (bitsize - k) < 2 ^ k * 2 ^ (bitsize - k) :=
            Nat.mul_lt_mul_of_pos_right (Nat.mod_lt _ (Nat.two_pow_pos k)) (Nat.two_pow_pos _)
        _ = 2 ^ bitsize := by rw [← pow_add, Nat.add_sub_cancel' (by omega)]
    have hshift : window <<< 1 =
        (2 * c + e / 2 ^ k % 2) * 2 ^ bitsize + e % 2 ^ k * 2 ^ (bitsize - k) := by
      have hdouble : 2 ^ (bitsize - k) = 2 ^ (bitsize - (k + 1)) * 2 := by
        rw [← pow_succ]
        congr 1
        omega
      have hall : 2 ^ bitsize = 2 ^ k * 2 ^ (bitsize - k) := by
        rw [← pow_add, Nat.add_sub_cancel' (by omega)]
      rw [Nat.shiftLeft_eq, hwindow, Nat.mod_pow_succ, hall, hdouble]
      ring
    have hbit : (window <<< 1 &&& 1 <<< bitsize ≠ 0) ↔ e.testBit k = true := by
      have hdiv : window <<< 1 / 2 ^ bitsize = 2 * c + e / 2 ^ k % 2 := by
        rw [hshift, Nat.mul_comm _ (2 ^ bitsize), Nat.mul_add_div hpos, Nat.div_eq_of_lt hlow,
          add_zero]
      have htest : (window <<< 1).testBit bitsize = e.testBit k := by
        rw [Nat.testBit_eq_decide_div_mod_eq, Nat.testBit_eq_decide_div_mod_eq, hdiv]
        congr 1
        exact propext (by omega)
      rw [Nat.one_shiftLeft, Nat.and_two_pow, htest]
      cases e.testBit k <;> simp
    have hsquare := hmul hacc hacc
    have hread := testBit_shiftRight_succ e k
    unfold remainingBits
    dsimp only
    by_cases hset : e.testBit k = true
    · rw [if_pos (hbit.mpr hset)]
      refine ih (by omega) ?_ hshift
      have hsum := hmul hsquare hone
      rw [hset, Bool.toNat_true] at hread
      rwa [← two_mul, hread] at hsum
    · rw [if_neg (fun h => hset (hbit.mp h))]
      refine ih (by omega) ?_ hshift
      rw [Bool.eq_false_iff.mpr hset, Bool.toNat_false, add_zero] at hread
      rwa [← two_mul, hread] at hsquare

/-- The whole exponentiation. -/
theorem slidingWindow_power
    (hmul : ∀ {i j x y}, Power i x → Power j y → Power (i + j) (mul x y)) {limbs one : Nat}
    (hpos : 0 < bitsize) (he : e < 2 ^ (32 * limbs)) (hzero : Power 0 one) (hone : Power 1 (w 1)) :
    Power e (slidingWindow mul bitsize limbs e one w) := by
  obtain ⟨hone', htable⟩ := windowTable_power hmul hone hpos
  have hstart : Scanned Power bitsize (e >>> (32 * limbs)) ⟨one, 0, 0, 0⟩ := by
    have hempty : e >>> (32 * limbs) = 0 := by
      rw [Nat.shiftRight_eq_div_pow, Nat.div_eq_of_lt he]
    rw [hempty]
    exact ⟨hzero, hpos, by simp, by simp, by simp, fun _ => rfl⟩
  have hdone := scanBits_scanned hmul htable hstart
  unfold slidingWindow
  refine remainingBits_power hmul hone' hdone.short.le hdone.acc (c := 0) ?_
  rw [hdone.window, zero_mul, zero_add]

end

/-! ## What the software computes -/

section
variable {n : Mpi} {a b k x y : Nat}

/-- The moduli that both paths accept, 1 excluded. -/
structure Modulus (n : Mpi) : Prop where
  odd : n.val % 2 = 1
  big : 1 < n.val

theorem Modulus.natAbs_eq (h : Modulus n) : (n.val.natAbs : Int) = n.val := by
  have hbig := h.big
  omega

theorem Modulus.limb_odd (h : Modulus n) : n.limb 0 % 2 = 1 := by
  have hodd := h.odd
  have hbig := h.big
  unfold Mpi.limb
  rw [mul_zero, pow_zero, Nat.div_one]
  omega

theorem Modulus.coprime (h : Modulus n) (k : Nat) : Nat.Coprime n.val.natAbs ((2 ^ 32) ^ k) := by
  have hodd : Odd n.val.natAbs := Int.natAbs_odd.mpr (Int.odd_iff.mpr h.odd)
  have hcop : Nat.Coprime n.val.natAbs 2 := Nat.coprime_two_right.mpr hodd
  exact (hcop.pow_right 32).pow_right k

theorem lt_radix (n : Mpi) : n.val.natAbs < n.radix := by
  have hfits := n.fits
  rwa [pow_mul] at hfits

theorem Modulus.negInverse (h : Modulus n) :
    NegInverse (2 ^ 32) n.val.natAbs (mpiMontgInit (n.limb 0)) := by
  have hlow := mpiMontgInit_negInverse h.limb_odd
  have hmod : n.limb 0 ≡ n.val.natAbs [MOD 2 ^ 32] := by
    unfold Mpi.limb
    rw [mul_zero, pow_zero, Nat.div_one]
    exact Nat.mod_modEq _ _
  exact (Nat.ModEq.dvd_iff ((hmod.mul_right _).add_right 1) (dvd_refl _)).mp hlow

/-- `mpi_montmul` of a number below the modulus. -/
theorem mpiMontmul_spec (h : Modulus n) (ha : a % n.radix * (b % n.radix) < n.val.natAbs * n.radix) :
    mpiMontmul n (mpiMontgInit (n.limb 0)) a b < n.val.natAbs ∧
      mpiMontmul n (mpiMontgInit (n.limb 0)) a b * n.radix ≡
        a % n.radix * (b % n.radix) [MOD n.val.natAbs] := by
  have hlt := montLoop_lt (b := b % n.radix) h.negInverse ha
  obtain ⟨hsmall, hmod⟩ := reduce_once hlt
  exact ⟨hsmall, (hmod.mul_right _).trans (montLoop_modEq h.negInverse n.n a)⟩

theorem Form.montmul (h : Modulus n) (hx : Form n.radix n.val.natAbs a x)
    (hy : Form n.radix n.val.natAbs b y) :
    Form n.radix n.val.natAbs (a * b) (mpiMontmul n (mpiMontgInit (n.limb 0)) x y) := by
  have hxr : x % n.radix = x := Nat.mod_eq_of_lt (hx.1.trans (lt_radix n))
  have hyr : y % n.radix = y := Nat.mod_eq_of_lt (hy.1.trans (lt_radix n))
  have hprod : x % n.radix * (y % n.radix) < n.val.natAbs * n.radix := by
    rw [hxr, hyr]
    exact Nat.mul_lt_mul_of_lt_of_le hx.1 (hy.1.trans (lt_radix n)).le (Nat.zero_lt_of_lt (lt_radix n))
  obtain ⟨hsmall, hmod⟩ := mpiMontmul_spec h hprod
  rw [hxr, hyr] at hmod
  exact Form.of_mul (h.coprime n.n) hx hy hsmall hmod

theorem softConstant_lt (h : Modulus n) : softConstant n < n.val.natAbs := by
  have hbig := h.big
  exact Nat.mod_lt _ (by omega)

/-- A product with the constant enters Montgomery form. -/
theorem montmul_constant (h : Modulus n) (hx : x < n.val.natAbs) :
    Form n.radix n.val.natAbs x (mpiMontmul n (mpiMontgInit (n.limb 0)) x (softConstant n)) := by
  have hxr : x % n.radix = x := Nat.mod_eq_of_lt (hx.trans (lt_radix n))
  have hcr : softConstant n % n.radix = softConstant n :=
    Nat.mod_eq_of_lt ((softConstant_lt h).trans (lt_radix n))
  have hprod : x % n.radix * (softConstant n % n.radix) < n.val.natAbs * n.radix := by
    rw [hxr, hcr]
    exact Nat.mul_lt_mul_of_lt_of_le hx ((softConstant_lt h).trans (lt_radix n)).le
      (Nat.zero_lt_of_lt (lt_radix n))
  obtain ⟨hsmall, hmod⟩ := mpiMontmul_spec h hprod
  rw [hxr, hcr] at hmod
  refine ⟨hsmall, Nat.ModEq.cancel_right_of_coprime (h.coprime n.n) (hmod.trans ?_)⟩
  have hconst : softConstant n ≡ n.radix * n.radix [MOD n.val.natAbs] := Nat.mod_modEq _ _
  have hprod := hconst.mul_left x
  rwa [← mul_assoc] at hprod

theorem montred_mul (h : Modulus n) (hx : x < n.val.natAbs) :
    mpiMontred n (mpiMontgInit (n.limb 0)) x < n.val.natAbs ∧
      mpiMontred n (mpiMontgInit (n.limb 0)) x * n.radix ≡ x [MOD n.val.natAbs] := by
  have hbig := h.big
  have hlt := lt_radix n
  have hxr : x % n.radix = x := Nat.mod_eq_of_lt (hx.trans hlt)
  have hone : 1 % n.radix = 1 := Nat.mod_eq_of_lt (by omega)
  have hprod : x % n.radix * (1 % n.radix) < n.val.natAbs * n.radix := by
    rw [hxr, hone]
    exact Nat.mul_lt_mul_of_lt_of_le hx (by omega) (by omega)
  have hspec := mpiMontmul_spec h hprod
  rwa [hxr, hone, mul_one] at hspec

/-- The software's result, before the sign. -/
theorem soft_power (h : Modulus n) {bitsize : Nat} (hpos : 0 < bitsize) {limbs e base : Nat}
    (he : e < 2 ^ (32 * limbs)) (hbase : base < n.val.natAbs) :
    mpiMontred n (mpiMontgInit (n.limb 0))
      (slidingWindow (mpiMontmul n (mpiMontgInit (n.limb 0))) bitsize limbs e
        (mpiMontred n (mpiMontgInit (n.limb 0)) (softConstant n))
        fun _ => mpiMontmul n (mpiMontgInit (n.limb 0)) base (softConstant n)) =
      base ^ e % n.val.natAbs := by
  have hone : Form n.radix n.val.natAbs (base ^ 0)
      (mpiMontred n (mpiMontgInit (n.limb 0)) (softConstant n)) := by
    obtain ⟨hsmall, hmod⟩ := montred_mul h (softConstant_lt h)
    refine ⟨hsmall, Nat.ModEq.cancel_right_of_coprime (h.coprime n.n) (hmod.trans ?_)⟩
    rw [pow_zero, one_mul]
    exact Nat.mod_modEq _ _
  have hbaseForm : Form n.radix n.val.natAbs (base ^ 1)
      (mpiMontmul n (mpiMontgInit (n.limb 0)) base (softConstant n)) := by
    rw [pow_one]
    exact montmul_constant h hbase
  have hpower := @slidingWindow_power _ (fun k x => Form n.radix n.val.natAbs (base ^ k) x)
    (fun _ => mpiMontmul n (mpiMontgInit (n.limb 0)) base (softConstant n)) _ _
    (fun {i j x y} hx hy => by rw [pow_add]; exact Form.montmul h hx hy) _ _ hpos he hone hbaseForm
  obtain ⟨hsmall, hmod⟩ := montred_mul h hpower.1
  exact hpower.leave (h.coprime n.n) hsmall hmod

end

/-! ## The sign of the result -/

/-- The power of the magnitude, taken from the modulus for a negative base and an odd
exponent. -/
def compensated (n a : Int) (k : Nat) : Int :=
  if a < 0 ∧ k % 2 = 1 then n - (a.natAbs ^ k % n.natAbs : Nat) else (a.natAbs ^ k % n.natAbs : Nat)

theorem natAbs_pow_even {a : Int} {k : Nat} (hk : k % 2 = 0) : ((a.natAbs ^ k : Nat) : Int) = a ^ k := by
  rw [Nat.cast_pow, Int.natCast_natAbs]
  exact (Nat.even_iff.mpr hk).pow_abs a

theorem natAbs_pow_neg {a : Int} {k : Nat} (ha : a < 0) (hk : k % 2 = 1) :
    ((a.natAbs ^ k : Nat) : Int) = -a ^ k := by
  have hneg : (a.natAbs : Int) = -a := by omega
  rw [Nat.cast_pow, hneg]
  exact (Nat.odd_iff.mpr hk).neg_pow a

/-- The compensation is right where the power is not a multiple of the modulus. -/
theorem compensated_eq {n a : Int} {k : Nat} (hn : 0 < n) (h : ¬ (a < 0 ∧ k % 2 = 1 ∧ n ∣ a ^ k)) :
    compensated n a k = a ^ k % n := by
  have hcast : ((a.natAbs ^ k % n.natAbs : Nat) : Int) = ((a.natAbs ^ k : Nat) : Int) % n := by
    have hsame : (n.natAbs : Int) = n := by omega
    rw [Int.natCast_mod, hsame]
  unfold compensated
  by_cases hneg : a < 0 ∧ k % 2 = 1
  · rw [if_pos hneg, hcast, natAbs_pow_neg hneg.1 hneg.2]
    have hdvd : ¬ n ∣ a ^ k := fun hd => h ⟨hneg.1, hneg.2, hd⟩
    have hrem : a ^ k % n ≠ 0 := fun hz => hdvd (Int.dvd_of_emod_eq_zero hz)
    have hnonneg := Int.emod_nonneg (a ^ k) hn.ne'
    have hlt := Int.emod_lt_of_pos (a ^ k) hn
    have hflip : -a ^ k % n = n - a ^ k % n := by
      have hmod : -a ^ k ≡ n - a ^ k % n [ZMOD n] :=
        (Int.mod_modEq (a ^ k) n).symm.neg.trans (Int.modEq_iff_dvd.mpr ⟨1, by ring⟩)
      rw [hmod, Int.emod_eq_of_lt (by omega) (by omega)]
    omega
  · rw [if_neg hneg, hcast]
    by_cases ha : a < 0
    · rw [natAbs_pow_even (by omega)]
    · have hsame : (a.natAbs : Int) = a := by omega
      rw [Nat.cast_pow, hsame]

/-! ## The function's result -/

theorem Mpi.limb_zero_odd {e : Mpi} : e.limb 0 % 2 = 1 ↔ e.val.natAbs % 2 = 1 := by
  unfold Mpi.limb
  rw [mul_zero, pow_zero, Nat.div_one]
  omega

theorem Mpi.pos_of_odd {e : Mpi} (h : e.limb 0 % 2 = 1) : e.n ≠ 0 := by
  intro hn
  have hfits := e.fits
  rw [hn, mul_zero, pow_zero] at hfits
  have hodd := Mpi.limb_zero_odd.mp h
  omega

theorem windowBitsize_pos (bits : Nat) : 0 < windowBitsize bits := by
  unfold windowBitsize mpiWindowSize
  dsimp only
  split_ifs <;> omega

/-- A helper that holds nothing but `constant`. -/
def Helper.IsFor (constant : Nat) (helper : Helper) : Prop := ∀ v, helper = .holds v → v = constant

theorem softHelper_cases {constant : Bool} {n : Mpi} {helper after : Helper} {rr : Nat}
    (h : softHelper constant n helper = some (rr, after)) :
    (after = helper ∨ helper = .unused ∧ after = .holds (softConstant n)) ∧
      (helper.IsFor (softConstant n) → rr = softConstant n) := by
  cases helper with
  | null =>
    simp only [softHelper, Option.ite_none_right_eq_some, Option.some.injEq, Prod.mk.injEq] at h
    exact ⟨.inl h.2.2.symm, fun _ => h.2.1.symm⟩
  | unused =>
    simp only [softHelper, Option.ite_none_right_eq_some, Option.some.injEq, Prod.mk.injEq] at h
    exact ⟨.inr ⟨rfl, h.2.2.symm⟩, fun _ => h.2.1.symm⟩
  | holds v =>
    simp only [softHelper, Option.some.injEq, Prod.mk.injEq] at h
    exact ⟨.inl h.2.symm, fun hfor => h.1 ▸ hfor v rfl⟩

/-- What a call of the software can do: the helper it leaves, how far a call gets that
returns 0, and its result where the helper it reads is right and the copy into `X` succeeds. -/
theorem mbedtlsMpiExpModOriginal_cases {heap : SoftHeap} {a e n : Mpi} {helper : Helper}
    (h : Modulus n) :
    ((mbedtlsMpiExpModOriginal heap a e n helper).2 = helper ∨
      helper = .unused ∧ (mbedtlsMpiExpModOriginal heap a e n helper).2 = .holds (softConstant n)) ∧
    ∀ x, (mbedtlsMpiExpModOriginal heap a e n helper).1 = .ok x →
      (0 ≤ e.val ∧ e.bitlen ≤ mpiMaxBits ∧ n.bitlen ≤ mpiMaxBits ∧ heap.temporaries = true) ∧
      (heap.stale = none → helper.IsFor (softConstant n) →
        x = compensated n.val a.val e.val.natAbs) := by
  have hbig := h.big
  unfold mbedtlsMpiExpModOriginal
  split
  · exact ⟨.inl rfl, fun x hx => by cases hx⟩
  split
  · exact ⟨.inl rfl, fun x hx => by cases hx⟩
  rename_i he
  split
  · exact ⟨.inl rfl, fun x hx => by cases hx⟩
  rename_i hbits
  dsimp only
  split
  · exact ⟨.inl rfl, fun x hx => by cases hx⟩
  rename_i htemporaries
  have hreached : 0 ≤ e.val ∧ e.bitlen ≤ mpiMaxBits ∧ n.bitlen ≤ mpiMaxBits ∧
      heap.temporaries = true :=
    ⟨by omega, by omega, by omega, Bool.not_eq_false _ ▸ htemporaries⟩
  cases hhelper : softHelper heap.constant n helper with
  | none => exact ⟨.inl rfl, fun x hx => by cases hx⟩
  | some used =>
    obtain ⟨rr, after⟩ := used
    obtain ⟨hafter, hconst⟩ := softHelper_cases hhelper
    dsimp only
    split
    · exact ⟨hafter, fun x hx => by cases hx⟩
    refine ⟨hafter, fun x hx => ⟨hreached, fun hstale hfor => ?_⟩⟩
    obtain rfl := hconst hfor
    set base := if n.val.natAbs ≤ a.val.natAbs then a.val.natAbs % n.val.natAbs else a.val.natAbs
      with hbase
    have hbaseMod : base ≡ a.val.natAbs [MOD n.val.natAbs] ∧ base < n.val.natAbs := by
      rw [hbase]
      split
      · exact ⟨Nat.mod_modEq _ _, Nat.mod_lt _ (by omega)⟩
      · exact ⟨Nat.ModEq.refl _, by omega⟩
    have hpower := soft_power h (windowBitsize_pos e.bitlen) e.fits hbaseMod.2
    have hres : base ^ e.val.natAbs % n.val.natAbs = a.val.natAbs ^ e.val.natAbs % n.val.natAbs :=
      hbaseMod.1.pow _
    rw [hstale, hpower, hres] at hx
    have hvalue := Except.ok.inj hx
    rw [← hvalue, Option.getD_none]
    unfold compensated
    have hiff : a.val < 0 ∧ e.n ≠ 0 ∧ e.limb 0 % 2 = 1 ↔ a.val < 0 ∧ e.val.natAbs % 2 = 1 :=
      ⟨fun hneg => ⟨hneg.1, Mpi.limb_zero_odd.mp hneg.2.2⟩, fun hneg =>
        ⟨hneg.1, Mpi.pos_of_odd (Mpi.limb_zero_odd.mpr hneg.2), Mpi.limb_zero_odd.mpr hneg.2⟩⟩
    simp only [hiff]

end BouffaloSdk.Bignum
