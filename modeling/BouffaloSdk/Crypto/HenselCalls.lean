import BouffaloSdk.Crypto.BignumExt
import BouffaloSdk.Kit.Fallible

/-!
# The lifting, call by call

`mpi_hensel_quad_mod_inv_prime_n` of `mbedtls/port/hw_acc/bignum_ext.c` with the library calls
it checks. A call can fail, and does where its result has more limbs than the library keeps.
-/

namespace BouffaloSdk.Bignum
open Kit Kit.Fallible

/-- `MBEDTLS_MPI_MAX_LIMBS`. -/
def mpiMaxLimbs : Nat := 10000

/-- The numbers `U`, `tmp` and the `R` of `mpi_mod_2n`, the loop's counter, and the results
of the calls so far. -/
structure Hensel where
  u : Int
  tmp : Int
  r : Int
  i : Nat
  calls : List Int

inductive Operand
  | u
  | tmp
  | r
  deriving DecidableEq

def Hensel.get (st : Hensel) : Operand → Int
  | .u => st.u
  | .tmp => st.tmp
  | .r => st.r

def Hensel.put (st : Hensel) (v : Int) : Operand → Hensel
  | .u => { st with u := v }
  | .tmp => { st with tmp := v }
  | .r => { st with r := v }

/-- `MBEDTLS_MPI_CHK` of a call that sets `x` to `v`; one that fails leaves something there. -/
def chk (x : Operand) (v : Int) (refuses : Refusals Int Int) (st : Hensel) : Except Hensel Hensel :=
  let called := { st with calls := st.calls ++ [v] }
  match refuses st.calls.length v with
  | some left => .error (called.put left x)
  | none => .ok (called.put v x)

/-- `mpi_mod_2n`. -/
def mpiMod2nChk (x : Operand) (n : Nat) (refuses : Refusals Int Int) (st : Hensel) :
    Except Hensel Hensel :=
  let low := mpiClearUpperBits (st.get x) n
  if st.get x < 0 then do
    let st ← chk .r (2 ^ n) refuses (st.put low x)
    let st ← chk x (st.get x + st.r) refuses st
    chk x (mpiClearBit (st.get x) n) refuses st
  else .ok (st.put low x)

/-- The six calls of a pass, to `n` bits. -/
def henselPassChk (a : Int) (n : Nat) (refuses : Refusals Int Int) (st : Hensel) :
    Except Hensel Hensel := do
  let st ← chk .tmp (st.u * st.u) refuses st
  let st ← mpiMod2nChk .tmp n refuses st
  let st ← chk .tmp (st.tmp * a) refuses st
  let st ← mpiMod2nChk .tmp n refuses st
  let st ← chk .u (2 * st.u) refuses st
  chk .u (st.u - st.tmp) refuses st

/-- The loop; `fuel` is the passes to it. -/
def henselLoopChk (a : Int) (m : Nat) : Nat → Refusals Int Int → Hensel → Except Hensel Hensel
  | 0, _, st => .ok st
  | fuel + 1, refuses, st =>
    if st.i < m then do
      let st ← henselPassChk a st.i refuses st
      henselLoopChk a m fuel refuses { st with i := st.i * 2 % 2 ^ 32 }
    else .ok st

/-- More passes than there can be before a call fails or the counter is at `m`. -/
def henselFuel : Nat := 2 ^ 19

/-- From the first call to `cleanup`. -/
def henselChk (a : Int) (m : Nat) (refuses : Refusals Int Int) (st : Hensel) :
    Except Hensel Hensel := do
  let st ← chk .u 1 refuses st
  let st ← henselLoopChk a m henselFuel refuses { st with i := 2 }
  let st ← henselPassChk a m refuses st
  let st ← mpiMod2nChk .u m refuses st
  let st ← chk .u (0 - st.u) refuses st
  mpiMod2nChk .u m refuses st

/-- What the caller sees, and whether a call failed. -/
structure HenselResult where
  ret : Int
  u : Int
  failed : Bool
  deriving DecidableEq

/-- The function's result, or nothing where its loop does not end. -/
def mpiHenselQuadModInvPrimeNChk (refuses : Refusals Int Int) (u : Int) (a : Mpi) (m : Nat) :
    Option HenselResult :=
  if m = 0 then some ⟨-1, u, false⟩
  else if a.limb 0 % 2 = 0 then some ⟨-1, u, false⟩
  else match henselChk a.val m refuses ⟨u, 0, 0, 0, []⟩ with
    | .error st => some ⟨0, st.u, true⟩
    | .ok st => if st.i < m then none else some ⟨0, st.u, false⟩

/-- Calls fail as the library finds memory, and where the result does not fit. -/
def mpiRefuses (fails : Nat → Bool) (left : Nat → Int) : Refusals Int Int := fun k v =>
  if fails k ∨ 2 ^ (32 * mpiMaxLimbs) ≤ v.natAbs then some (left k) else none

/-- The results of the calls when none fails. -/
def henselCalls (a : Int) (m : Nat) : List Int :=
  match henselChk a m never ⟨0, 0, 0, 0, []⟩ with
  | .error st => st.calls
  | .ok st => st.calls

/-! ## The calls and what they lead to -/

variable {a : Int} {m n k fuel : Nat} {st : Hensel}

@[simp] theorem put_calls (st : Hensel) (v : Int) (x : Operand) : (st.put v x).calls = st.calls := by
  cases x <;> rfl

@[simp] theorem put_i (st : Hensel) (v : Int) (x : Operand) : (st.put v x).i = st.i := by
  cases x <;> rfl

@[simp] theorem get_put (st : Hensel) (v : Int) (x : Operand) : (st.put v x).get x = v := by
  cases x <;> rfl

theorem get_put_of_ne {x y : Operand} (h : y ≠ x) (st : Hensel) (v : Int) :
    (st.put v x).get y = st.get y := by
  cases x <;> cases y <;> first | rfl | exact absurd rfl h

@[simp] theorem get_called (st : Hensel) (calls : List Int) (x : Operand) :
    ({ st with calls := calls } : Hensel).get x = st.get x := by
  cases x <;> rfl

theorem chk_makes (x : Operand) (v : Int) (st : Hensel) :
    Makes Hensel.calls st (chk x v · st) (({ st with calls := st.calls ++ [v] } : Hensel).put v x)
      [v] := by
  constructor
  · rw [put_calls]
  · intro refuses h
    rw [chk, accepted_singleton.mp h]
  · intro refuses h
    cases hrefused : refuses st.calls.length v with
    | none => exact absurd (accepted_singleton.mpr hrefused) h
    | some left =>
      rw [chk, hrefused]
      exact ⟨_, rfl⟩

/-- The reduction leaves the other number alone. -/
theorem mpiMod2nChk_makes {x : Operand} (hx : x ≠ .r) (n : Nat) (st : Hensel) :
    ∃ fin made, Makes Hensel.calls st (mpiMod2nChk x n · st) fin made ∧
      fin.get x = mpiMod2n (st.get x) n ∧ (∀ y, y ≠ x → y ≠ .r → fin.get y = st.get y) ∧
      fin.i = st.i := by
  by_cases hneg : st.get x < 0
  swap
  · refine ⟨st.put (mpiClearUpperBits (st.get x) n) x, [], ?_, ?_, ?_, ?_⟩
    · simp only [mpiMod2nChk, if_neg hneg]
      exact Makes.skip (put_calls ..)
    · rw [get_put, mpiMod2n, if_neg hneg]
    · intro y hy _
      exact get_put_of_ne hy st _
    · exact put_i ..
  · have hset := chk_makes .r (2 ^ n) (st.put (mpiClearUpperBits (st.get x) n) x)
    set one := Hensel.put _ (2 ^ n) .r with hone
    have hadd := chk_makes x (one.get x + one.r) one
    set two := Hensel.put _ (one.get x + one.r) x with htwo
    have hclear := chk_makes x (mpiClearBit (two.get x) n) two
    set three := Hensel.put _ (mpiClearBit (two.get x) n) x with hthree
    have hlow : one.get x = mpiClearUpperBits (st.get x) n := by
      rw [hone, get_put_of_ne hx, get_called, get_put]
    have hr : one.r = 2 ^ n := get_put _ (2 ^ n) .r
    refine ⟨three, [2 ^ n] ++ ([one.get x + one.r] ++ [mpiClearBit (two.get x) n]), ?_, ?_, ?_, ?_⟩
    · simp only [mpiMod2nChk, if_pos hneg]
      apply (hset.start (put_calls ..).symm).bind
      apply hadd.bind
      exact hclear
    · rw [hthree, get_put, htwo, get_put, hlow, hr, mpiMod2n, if_pos hneg]
    · intro y hy hyr
      rw [hthree, get_put_of_ne hy, get_called, htwo, get_put_of_ne hy, get_called, hone,
        get_put_of_ne hyr, get_called, get_put_of_ne hy]
    · rw [hthree, put_i, htwo, put_i, hone, put_i]
      exact put_i ..

/-- A pass makes the step, and doubles `U` in one of its calls. -/
theorem henselPassChk_makes (a : Int) (n : Nat) (st : Hensel) :
    ∃ fin made, Makes Hensel.calls st (henselPassChk a n · st) fin made ∧
      fin.u = henselStep a n st.u ∧ fin.i = st.i ∧ 2 * st.u ∈ made := by
  have hsquare := chk_makes .tmp (st.u * st.u) st
  set one := Hensel.put _ (st.u * st.u) .tmp with hone
  obtain ⟨two, made₁, hmod, htwo, htwo', htwoi⟩ :=
    mpiMod2nChk_makes (show Operand.tmp ≠ .r by decide) n one
  have hmul := chk_makes .tmp (two.tmp * a) two
  set three := Hensel.put _ (two.tmp * a) .tmp with hthree
  obtain ⟨four, made₂, hmod', hfour, hfour', hfouri⟩ :=
    mpiMod2nChk_makes (show Operand.tmp ≠ .r by decide) n three
  have hshift := chk_makes .u (2 * four.u) four
  set five := Hensel.put _ (2 * four.u) .u with hfive
  have hsub := chk_makes .u (five.u - five.tmp) five
  set six := Hensel.put _ (five.u - five.tmp) .u with hsix
  have hu : four.u = st.u :=
    calc four.u = three.u := hfour' .u (by decide) (by decide)
      _ = two.u := rfl
      _ = one.u := htwo' .u (by decide) (by decide)
  have htmp : four.tmp = mpiMod2n (mpiMod2n (st.u * st.u) n * a) n :=
    calc four.tmp = mpiMod2n (two.tmp * a) n := hfour
      _ = mpiMod2n (mpiMod2n (st.u * st.u) n * a) n := by rw [show two.tmp = _ from htwo]; rfl
  refine ⟨six, [st.u * st.u] ++ (made₁ ++ ([two.tmp * a] ++ (made₂ ++ ([2 * four.u] ++
    [five.u - five.tmp])))), ?_, ?_, ?_, ?_⟩
  · apply hsquare.bind
    apply hmod.bind
    apply hmul.bind
    apply hmod'.bind
    apply hshift.bind
    exact hsub
  · change 2 * four.u - four.tmp = _
    rw [hu, htmp, henselStep]
  · calc four.i = three.i := hfouri
      _ = two.i := rfl
      _ = one.i := htwoi
  · rw [← hu]
    simp

/-- One pass and what follows it. -/
theorem henselLoopChk_pass {mid fin : Hensel} {made rest : List Int} (hlt : st.i < m)
    (hpass : Makes Hensel.calls st (henselPassChk a st.i · st) mid made)
    (hrest : Makes Hensel.calls { mid with i := mid.i * 2 % 2 ^ 32 }
      (henselLoopChk a m fuel · { mid with i := mid.i * 2 % 2 ^ 32 }) fin rest) :
    Makes Hensel.calls st (henselLoopChk a m (fuel + 1) · st) fin (made ++ rest) := by
  simp only [henselLoopChk, if_pos hlt]
  apply hpass.bind
  exact hrest.start rfl

/-- Up to `2 ^ 31` bits the loop ends, with an inverse to half of them. -/
theorem henselLoopChk_makes (hm : m ≤ 2 ^ 31) (hk : InverseTo a st.u k) (hi : st.i ≤ k + k)
    (hpos : 0 < st.i) (hfuel : m ≤ st.i * 2 ^ fuel) :
    ∃ fin made k', Makes Hensel.calls st (henselLoopChk a m fuel · st) fin made ∧
      m ≤ fin.i ∧ m ≤ k' + k' ∧ InverseTo a fin.u k' := by
  induction fuel generalizing st k with
  | zero =>
    have hend : m ≤ st.i := by simpa using hfuel
    exact ⟨st, [], k, Makes.skip rfl, hend, hend.trans hi, hk⟩
  | succ fuel ih =>
    by_cases hlt : st.i < m
    swap
    · have hend : m ≤ st.i := Nat.le_of_not_lt hlt
      refine ⟨st, [], k, ?_, hend, hend.trans hi, hk⟩
      simp only [henselLoopChk, if_neg hlt]
      exact Makes.skip rfl
    · obtain ⟨mid, made, hpass, hu, hmid, -⟩ := henselPassChk_makes a st.i st
      have hnext : mid.i * 2 % 2 ^ 32 = st.i * 2 := by
        rw [hmid]
        exact Nat.mod_eq_of_lt (by omega)
      have hinverse : InverseTo a mid.u st.i := by
        rw [hu]
        exact henselStep_inverse hk hi
      have hdouble : m ≤ st.i * 2 * 2 ^ fuel := by
        rw [Nat.mul_assoc, ← pow_succ']
        exact hfuel
      set next : Hensel := { mid with i := mid.i * 2 % 2 ^ 32 } with hdef
      have hi' : next.i = st.i * 2 := hnext
      obtain ⟨fin, rest, k', hloop, hend, hhalf, hfin⟩ :=
        ih (show InverseTo a next.u st.i from hinverse) (by omega) (by omega)
          (by rw [hi']; exact hdouble)
      exact ⟨fin, made ++ rest, k', henselLoopChk_pass hlt hpass hloop, hend, hhalf, hfin⟩

/-- With its counter at 0 the loop doubles `U` on and on. -/
theorem henselLoopChk_stuck (hm : 0 < m) (hi : st.i = 0) :
    ∃ fin made, Makes Hensel.calls st (henselLoopChk a m (fuel + 1) · st) fin made ∧
      st.u * 2 ^ (fuel + 1) ∈ made := by
  induction fuel generalizing st with
  | zero =>
    obtain ⟨mid, made, hpass, -, -, hmem⟩ := henselPassChk_makes a st.i st
    have hrest : Makes Hensel.calls { mid with i := mid.i * 2 % 2 ^ 32 }
        (henselLoopChk a m 0 · { mid with i := mid.i * 2 % 2 ^ 32 }) _ [] := Makes.skip rfl
    refine ⟨_, _, henselLoopChk_pass (by omega) hpass hrest, ?_⟩
    rw [List.append_nil, pow_one, mul_comm]
    exact hmem
  | succ fuel ih =>
    obtain ⟨mid, made, hpass, hu, hmid, -⟩ := henselPassChk_makes a st.i st
    have hstep : mid.u = st.u * 2 := by
      rw [hu, hi, henselStep, mpiMod2n_eq, pow_zero, Int.emod_one]
      ring
    set next : Hensel := { mid with i := mid.i * 2 % 2 ^ 32 } with hdef
    have hnext : next.i = 0 := by
      change mid.i * 2 % 2 ^ 32 = 0
      omega
    obtain ⟨fin, rest, hloop, hin⟩ := ih hnext
    refine ⟨fin, _, henselLoopChk_pass (by omega) hpass hloop, List.mem_append_right _ ?_⟩
    change mid.u * 2 ^ (fuel + 1) ∈ rest at hin
    rwa [hstep, mul_assoc, ← pow_succ'] at hin

/-- A number that inverts another is not 0. -/
theorem InverseTo.ne_zero {u : Int} (h : InverseTo a u k) (hk : 0 < k) : u ≠ 0 := by
  rintro rfl
  have hunit : (2 : Int) ^ k ∣ 1 := by
    have hneg : (2 : Int) ^ k ∣ -1 := by simpa [InverseTo] using h
    exact (Int.dvd_neg).mp hneg
  have hle := Int.le_of_dvd one_pos hunit
  have hlt : (1 : Int) < 2 ^ k := one_lt_pow₀ (by decide) hk.ne'
  omega

/-- Above `2 ^ 31` bits the counter wraps to 0 and a call has to hold what no number can. -/
theorem henselLoopChk_overflows {left : Nat} (hm : 2 ^ 31 < m) (hk : InverseTo a st.u k)
    (hpos : 0 < k) (hi : st.i ≤ k + k) (hleft : left ≤ 31) (hst : st.i = 2 ^ (32 - left) % 2 ^ 32)
    (hfuel : left + 32 * mpiMaxLimbs < fuel) :
    ∃ fin made, Makes Hensel.calls st (henselLoopChk a m fuel · st) fin made ∧
      ∃ v ∈ made, 2 ^ (32 * mpiMaxLimbs) ≤ v.natAbs := by
  induction left generalizing st k fuel with
  | zero =>
    obtain ⟨fuel, rfl⟩ : ∃ fuel', fuel = fuel' + 1 := ⟨fuel - 1, by omega⟩
    obtain ⟨fin, made, hloop, hmem⟩ := @henselLoopChk_stuck a m fuel st (by omega) (by simpa using hst)
    refine ⟨fin, made, hloop, _, hmem, ?_⟩
    have hne : 0 < st.u.natAbs := Int.natAbs_pos.mpr (hk.ne_zero hpos)
    rw [Int.natAbs_mul, Int.natAbs_pow]
    calc 2 ^ (32 * mpiMaxLimbs) ≤ 2 ^ (fuel + 1) := Nat.pow_le_pow_right (by decide) (by omega)
      _ ≤ st.u.natAbs * 2 ^ (fuel + 1) := Nat.le_mul_of_pos_left _ hne
  | succ left ih =>
    obtain ⟨fuel, rfl⟩ : ∃ fuel', fuel = fuel' + 1 := ⟨fuel - 1, by omega⟩
    have hsmall : 2 ^ (32 - (left + 1)) ≤ 2 ^ 31 := Nat.pow_le_pow_right (by decide) (by omega)
    have hpow : st.i = 2 ^ (32 - (left + 1)) := by
      rw [hst]
      exact Nat.mod_eq_of_lt (by omega)
    have hdouble : 2 ^ (32 - (left + 1)) * 2 = 2 ^ (32 - left) := by
      rw [← pow_succ]
      congr 1
      omega
    obtain ⟨mid, made, hpass, hu, hmid, -⟩ := henselPassChk_makes a st.i st
    have hone : 0 < st.i := by
      rw [hpow]
      exact Nat.two_pow_pos _
    have hinverse : InverseTo a mid.u st.i := by
      rw [hu]
      exact henselStep_inverse hk hi
    set next : Hensel := { mid with i := mid.i * 2 % 2 ^ 32 } with hdef
    have hdoubled : st.i * 2 = 2 ^ (32 - left) := by rw [hpow, hdouble]
    have hnext : next.i = 2 ^ (32 - left) % 2 ^ 32 := by
      change mid.i * 2 % 2 ^ 32 = _
      rw [hmid, hdoubled]
    have hbound : next.i ≤ st.i + st.i := by
      have hle := Nat.mod_le (2 ^ (32 - left)) (2 ^ 32)
      omega
    obtain ⟨fin, rest, hloop, v, hv, hbig⟩ :=
      ih (show InverseTo a next.u st.i from hinverse) hone hbound (by omega) hnext
        (show left + 32 * mpiMaxLimbs < fuel by omega)
    exact ⟨fin, made ++ rest, henselLoopChk_pass (by omega) hpass hloop, v,
      List.mem_append_right _ hv, hbig⟩

/-! ## All calls -/

/-- The state the loop starts in. -/
def henselStart : Hensel := ⟨1, 0, 0, 2, [1]⟩

/-- What follows the loop. -/
theorem henselChk_makes_of_loop {mid : Hensel} {made : List Int}
    (hloop : Makes Hensel.calls henselStart (henselLoopChk a m henselFuel · henselStart) mid made) :
    ∃ fin rest, (∀ u, Makes Hensel.calls ⟨u, 0, 0, 0, []⟩ (henselChk a m · ⟨u, 0, 0, 0, []⟩) fin
        ([1] ++ (made ++ rest))) ∧
      fin.i = mid.i ∧ fin.u = (0 - henselStep a m mid.u % 2 ^ m) % 2 ^ m := by
  have hu : Operand.u ≠ .r := by decide
  obtain ⟨one, made₁, hpass, hone, honei, -⟩ := henselPassChk_makes a m mid
  obtain ⟨two, made₂, hmod, htwo, -, htwoi⟩ := mpiMod2nChk_makes hu m one
  have hneg := chk_makes .u (0 - two.u) two
  set three := Hensel.put _ (0 - two.u) .u with hthree
  obtain ⟨four, made₃, hmod', hfour, -, hfouri⟩ := mpiMod2nChk_makes hu m three
  refine ⟨four, made₁ ++ (made₂ ++ ([0 - two.u] ++ made₃)), fun u => ?_, ?_, ?_⟩
  · have hset : Makes Hensel.calls ⟨u, 0, 0, 0, []⟩ (chk .u 1 · ⟨u, 0, 0, 0, []⟩) ⟨1, 0, 0, 0, [1]⟩ [1] :=
      chk_makes .u 1 ⟨u, 0, 0, 0, []⟩
    have hpasses : Makes Hensel.calls ⟨1, 0, 0, 0, [1]⟩
        (henselLoopChk a m henselFuel · henselStart) mid made := hloop.start rfl
    apply hset.bind
    apply hpasses.bind
    apply hpass.bind
    apply hmod.bind
    apply hneg.bind
    exact hmod'
  · rw [hfouri, hthree, put_i, htwoi, honei]
  · have hlow : two.u = henselStep a m mid.u % 2 ^ m := by
      rw [← hone, ← mpiMod2n_eq]
      exact htwo
    have hresult : four.u = mpiMod2n (0 - two.u) m := hfour
    rw [hresult, mpiMod2n_eq, hlow]

/-- Up to `2 ^ 31` bits the calls lead to the inverse of `a`, negated. -/
theorem henselChk_makes (hm : m ≤ 2 ^ 31) (ha : Odd a) :
    ∃ fin made u, (∀ v, Makes Hensel.calls ⟨v, 0, 0, 0, []⟩ (henselChk a m · ⟨v, 0, 0, 0, []⟩) fin
        made) ∧
      m ≤ fin.i ∧ fin.u = (0 - u % 2 ^ m) % 2 ^ m ∧ InverseTo a u m := by
  have hfuel : m ≤ henselStart.i * 2 ^ henselFuel :=
    calc m ≤ 2 ^ 31 := hm
      _ ≤ 2 ^ henselFuel := Nat.pow_le_pow_right (by decide) (by decide)
      _ ≤ henselStart.i * 2 ^ henselFuel := Nat.le_mul_of_pos_left _ (by decide)
  obtain ⟨mid, made, k, hloop, hend, hhalf, hinverse⟩ :=
    henselLoopChk_makes hm (odd_inverse ha : InverseTo a henselStart.u 1) (by decide) (by decide) hfuel
  obtain ⟨fin, rest, hmakes, hi, hu⟩ := henselChk_makes_of_loop hloop
  refine ⟨fin, _, henselStep a m mid.u, hmakes, ?_, hu, henselStep_inverse hinverse hhalf⟩
  rw [hi]
  exact hend

/-- Above that a call has to hold what no number can. -/
theorem henselChk_overflows (hm : 2 ^ 31 < m) (ha : Odd a) :
    ∃ fin made, (∀ v, Makes Hensel.calls ⟨v, 0, 0, 0, []⟩ (henselChk a m · ⟨v, 0, 0, 0, []⟩) fin
        made) ∧
      ∃ v ∈ made, 2 ^ (32 * mpiMaxLimbs) ≤ v.natAbs := by
  obtain ⟨mid, made, hloop, v, hv, hbig⟩ :=
    henselLoopChk_overflows hm (odd_inverse ha : InverseTo a henselStart.u 1) one_pos
      (show henselStart.i ≤ 1 + 1 by decide) (le_refl 31) rfl (show 31 + 32 * mpiMaxLimbs < henselFuel by decide)
  obtain ⟨fin, rest, hmakes, -, -⟩ := henselChk_makes_of_loop hloop
  refine ⟨fin, _, hmakes, v, ?_, hbig⟩
  exact List.mem_append_right _ (List.mem_append_left _ hv)

/-- Without a refusal the calls are those of `henselCalls`. -/
theorem henselCalls_eq {fin : Hensel} {made : List Int}
    (h : ∀ v, Makes Hensel.calls ⟨v, 0, 0, 0, []⟩ (henselChk a m · ⟨v, 0, 0, 0, []⟩) fin made) :
    henselCalls a m = made := by
  have hexact := (h 0).exact
  rw [henselCalls, hexact]
  exact (h 0).log

/-! ## The result -/

/-- `u` is below `2 ^ m` and its product with `a` is -1 there. -/
structure NegInverseOf (a : Int) (m : Nat) (u : Int) : Prop where
  nonneg : 0 ≤ u
  lt : u < 2 ^ m
  product : a * u ≡ -1 [ZMOD 2 ^ m]

theorem NegInverseOf.unique {u v : Int} (hu : NegInverseOf a m u) (hv : NegInverseOf a m v) : v = u := by
  have hsame : a * v ≡ a * u [ZMOD 2 ^ m] := hv.product.trans hu.product.symm
  have hcancel : v ≡ u [ZMOD 2 ^ m] :=
    calc v ≡ -(a * u) * v [ZMOD 2 ^ m] := by
          have hone := (hu.product.neg.mul_right v).symm
          simpa using hone
      _ = -(a * v) * u := by ring
      _ ≡ -(a * u) * u [ZMOD 2 ^ m] := hsame.neg.mul_right u
      _ ≡ u [ZMOD 2 ^ m] := by
          have hone := hu.product.neg.mul_right u
          simpa using hone
  calc v = v % 2 ^ m := (Int.emod_eq_of_lt hv.nonneg hv.lt).symm
    _ = u % 2 ^ m := hcancel
    _ = u := Int.emod_eq_of_lt hu.nonneg hu.lt

theorem negated_inverse {u : Int} (h : InverseTo a u m) : NegInverseOf a m ((0 - u % 2 ^ m) % 2 ^ m) := by
  have hpos : (0 : Int) < 2 ^ m := by positivity
  refine ⟨Int.emod_nonneg _ hpos.ne', Int.emod_lt_of_pos _ hpos, ?_⟩
  have hneg : (0 - u % 2 ^ m) % 2 ^ m ≡ -u [ZMOD 2 ^ m] :=
    calc (0 - u % 2 ^ m) % 2 ^ m ≡ 0 - u % 2 ^ m [ZMOD 2 ^ m] := Int.mod_modEq _ _
      _ ≡ 0 - u [ZMOD 2 ^ m] := (Int.mod_modEq _ _).sub_left 0
      _ = -u := by ring
  have hone : u * a ≡ 1 [ZMOD 2 ^ m] := (Int.modEq_iff_dvd.mpr h).symm
  calc a * ((0 - u % 2 ^ m) % 2 ^ m) ≡ a * -u [ZMOD 2 ^ m] := hneg.mul_left a
    _ = -(u * a) := by ring
    _ ≡ -1 [ZMOD 2 ^ m] := hone.neg

/-- A call that fails is reported, and otherwise `U` is the inverse of `-a`. -/
def HenselRight (a : Int) (m : Nat) (r : HenselResult) : Prop :=
  if r.failed then r.ret ≠ 0
  else r.ret = 0 ∧ NegInverseOf a m r.u ∧ ∀ v, NegInverseOf a m v → v = r.u

/-- No call of the computation fails. -/
def HenselServed (fails : Nat → Bool) (a : Int) (m : Nat) : Prop :=
  ∀ k v, (henselCalls a m)[k]? = some v → fails k = false ∧ v.natAbs < 2 ^ (32 * mpiMaxLimbs)

theorem accepted_mpiRefuses {fails : Nat → Bool} {left : Nat → Int} :
    Accepted (mpiRefuses fails left) 0 (henselCalls a m) ↔ HenselServed fails a m := by
  apply forall_congr'
  intro k
  apply forall_congr'
  intro v
  rw [Nat.zero_add, mpiRefuses]
  simp

theorem limb_odd {a : Mpi} (ha : Odd a.val) : a.limb 0 % 2 ≠ 0 := by
  have hodd : Odd a.val.natAbs := Int.natAbs_odd.mpr ha
  have hmod := Nat.odd_iff.mp hodd
  rw [Mpi.limb, Nat.mul_zero, pow_zero, Nat.div_one]
  omega

/-- The number -3. -/
def mpiMinusThree : Mpi := ⟨-3, 1, by decide⟩

end BouffaloSdk.Bignum
