import BouffaloSdk.Crypto.Bignum

/-!
# Exponentiation on the accelerator

`bl_mpi_exp_mod_wo_lock` of `mbedtls/port/hw_acc/bignum_alt.c`. Operands of up to 256 bytes
go to the accelerator, larger ones to the software, with the same helper argument.
-/

namespace BouffaloSdk.Bignum
open Kit Kit.Montgomery Pka

/-- Where the accelerator's path finds memory. `stopped` is what the number being computed
for the helper holds where its computation finds none. -/
structure HardHeap where
  lset : Bool
  grow : Bool
  buffer : Bool
  stopped : Option (Option Nat)
  copy : Bool
  readBack : Bool
  compensate : Bool

/-! ## The exponent loop

Register 2 is the accumulator, 3 the square of the base, and from 4 on stand its odd
powers. `top` is `e_bit_idx + 1`. -/

def windowSize (bits wordsN : Nat) : Nat :=
  let wsize := if 79 < bits then 4 else if 23 < bits then 3 else 1
  if 128 / 4 < wordsN ∧ 1 < wsize then 3 else wsize

/-- The next `k` odd powers, into the registers from `ri` on. -/
def oddPowers (sN : Nat) : Nat → Nat → Ram → Ram
  | 0, _, ram => ram
  | k + 1, ri, ram =>
    oddPowers sN k (ri + 1) (pkaMmul ram ⟨sN, ri⟩ ⟨sN, ri - 1⟩ ⟨sN, 3⟩ ⟨sN, 0⟩)

/-- The longest string of at most so many bits below `top` that ends in a set one. -/
def bitstringLen (e top : Nat) : Nat → Nat
  | 0 => 0
  | len + 1 => if e.testBit (top - (len + 1)) then len + 1 else bitstringLen e top len

/-- The value of the next `k` bits below `top - i`, with a squaring for each. -/
def readBits (sN e top : Nat) (first : Bool) : Nat → Nat → Nat → Ram → Nat × Ram
  | 0, _, val, ram => (val, ram)
  | k + 1, i, val, ram =>
    let cur := (e.testBit (top - 1 - i)).toNat
    readBits sN e top first k (i + 1) (if i = 0 then cur else val <<< 1 + cur)
      (if first then ram else pkaMsqr ram ⟨sN, 2⟩ ⟨sN, 2⟩ ⟨sN, 0⟩)

/-- The loop over the bits of `e`; `fuel` is the passes left to it. -/
def exponentLoop (sN wsize e : Nat) : Nat → Nat → Bool → Ram → Ram
  | 0, _, _, ram => ram
  | fuel + 1, top, first, ram =>
    if top = 0 then ram
    else if e.testBit (top - 1) = false then
      exponentLoop sN wsize e fuel (top - 1) first (pkaMsqr ram ⟨sN, 2⟩ ⟨sN, 2⟩ ⟨sN, 0⟩)
    else
      let len := bitstringLen e top (if top < wsize then top else wsize)
      let read := readBits sN e top first len 0 0 ram
      let i := (read.1 - 1) >>> 1 + 4
      if first then
        exponentLoop sN wsize e fuel (top - len) false (pkaMovdat read.2 ⟨sN, 2⟩ ⟨sN, i⟩)
      else
        exponentLoop sN wsize e fuel (top - len) false
          (pkaMmul read.2 ⟨sN, 2⟩ ⟨sN, 2⟩ ⟨sN, i⟩ ⟨sN, 0⟩)

/-- The power in register 2, from the base in register 3. -/
def powerOnPka (sN wsize bits regSizeE e : Nat) (ram : Ram) : Ram :=
  if 1 < wsize then
    let ram := pkaMovdat ram ⟨sN, 4⟩ ⟨sN, 3⟩
    let ram := pkaMsqr ram ⟨sN, 3⟩ ⟨sN, 3⟩ ⟨sN, 0⟩
    exponentLoop sN wsize e bits bits true (oddPowers sN (1 <<< (wsize - 1) - 1) 5 ram)
  else
    let wordsE := mpiRegSizeToWords regSizeE
    let regIdxE := (4 * mpiRegSizeToWords sN + wordsE - 1) / wordsE
    let ram := pkaWrite ram ⟨regSizeE, regIdxE⟩ e
    pkaMexp ram ⟨sN, 2⟩ ⟨sN, 3⟩ ⟨regSizeE, regIdxE⟩ ⟨sN, 0⟩

/-- What is read back from the accelerator: `a` is the magnitude of the base. -/
def expOnPka (ram : Ram) (regSize sN regSizeE dRegSize bits n a prime e : Nat) : Nat :=
  let wordsN := mpiRegSizeToWords sN
  let ram := pkaWrite ram ⟨sN, 0⟩ n
  let ram := pkaWrite ram ⟨regSize, 2⟩ a
  let ram := pkaGf2mont ram ⟨sN, 3⟩ ⟨regSize, 2⟩ (wordsN * 32) ⟨dRegSize, 2⟩ ⟨sN, 0⟩
  let ram := pkaWrite ram ⟨sN, 1⟩ prime
  let ram := powerOnPka sN (windowSize bits wordsN) bits regSizeE e ram
  let ram := pkaWrite ram ⟨sN, 3⟩ 1
  let ram := pkaMmul ram ⟨sN, 4⟩ ⟨sN, 2⟩ ⟨sN, 3⟩ ⟨sN, 0⟩
  pkaRead ram ⟨sN, 4⟩

/-! ## The function -/

/-- `PrimeN`, `none` for no limbs, and the caller's helper, which becomes a copy of one
that is computed. -/
def primeHelper (heap : HardHeap) (n : Mpi) (wordsN : Nat) :
    Helper → Except Int (Option Nat) × Helper
  | .holds v => (.ok (some v), .holds v)
  | .null =>
    let (ret, u) := mpiHenselQuadModInvPrimeN heap.stopped n (wordsN * 32)
    if ret ≠ 0 then (.error ret, .null) else (.ok u, .null)
  | .unused =>
    let (ret, u) := mpiHenselQuadModInvPrimeN heap.stopped n (wordsN * 32)
    if ret ≠ 0 then (.error ret, .unused)
    else match u with
      | none => (.ok none, .unused)
      | some v => if heap.copy then (.ok (some v), .holds v) else (.error errMpiAllocFailed, .unused)

/-- `bl_mpi_exp_mod_wo_lock`: `X` or an error, and the helper afterwards. `xIsA` says that
the caller passes the base for the result too, `ram` is what the accelerator holds. -/
def blMpiExpModWoLock (heap : HardHeap) (soft : SoftHeap) (ram : Ram) (xIsA : Bool)
    (a e n : Mpi) (rn : Helper) : Except Int Int × Helper :=
  let mWords := max (mpiWords a) (max (mpiWords e) (mpiWords n))
  let regSize := mpiWordsToRegSize mWords
  let words := mpiRegSizeToWords regSize
  let sN := mpiWordsToRegSize (mpiWords n)
  let wordsN := mpiRegSizeToWords sN
  let regSizeE := mpiWordsToRegSize (mpiWords e)
  let dRegSize := mpiWordsToRegSize (mpiRegSizeToWords regSize * 2)
  if regSize256 < regSize then mbedtlsMpiExpModOriginal soft a e n rn
  else if n.val ≤ 0 ∨ n.limb 0 % 2 = 0 then (.error errMpiBadInputData, rn)
  else if e.val < 0 then (.error errMpiBadInputData, rn)
  else if e.val = 0 then
    if heap.lset then (.ok 1, rn) else (.error errMpiAllocFailed, rn)
  else if heap.grow = false then (.error errMpiAllocFailed, rn)
  -- an operand beyond every register leaves no bytes to ask for, and `calloc` gives none
  else if heap.buffer = false ∨ words = 0 then (.error errMpiAllocFailed, rn)
  else match primeHelper heap n wordsN rn with
    | (.error ret, helper) => (.error ret, helper)
    | (.ok prime, helper) =>
      if 2 ^ (32 * wordsN) ≤ prime.getD 0 then (.error errMpiBufferTooSmall, helper)
      else
        let x := expOnPka ram regSize sN regSizeE dRegSize e.bitlen n.val.natAbs a.val.natAbs
          (prime.getD 0) e.val.natAbs
        if heap.readBack = false then (.error errMpiAllocFailed, helper)
        -- the result's sign is 1 by now, and the base's too where it is the same number
        else if (a.val < 0 ∧ xIsA = false) ∧ e.limb 0 % 2 = 1 then
          if heap.compensate then (.ok (n.val - x), helper) else (.error errMpiAllocFailed, helper)
        else (.ok x, helper)

end BouffaloSdk.Bignum
