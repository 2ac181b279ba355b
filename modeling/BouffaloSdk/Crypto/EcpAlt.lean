import BouffaloSdk.Crypto.PkaPrograms
import BouffaloSdk.Crypto.ScalarEncode

/-!
# Scalar multiplication on the accelerator

`ecp_mul_swst` of `mbedtls/port/hw_acc/ecp_alt.c`, for short Weierstrass curves. Register 2
holds what brings a number into Montgomery form, register 3 the number 1, and 4, 5 and 8 the
field's 2, 3 and `A`.
-/

namespace BouffaloSdk.Ecp
open Pka Bignum

def errMpiNotAcceptable : Int := -0x000E
def errEcpAllocFailed : Int := -0x4D80
def errEcpBadInputData : Int := -0x4F80

/-- The entries of `T`, two coordinates each. -/
abbrev Table := Nat → Nat × Nat

/-- `mbedtls_ecp_group`, but for what calls change. `a` is none where `A.p` is NULL. -/
structure Group where
  p : Mpi
  a : Option Nat
  gx : Nat
  gy : Nat
  pbits : Nat

/-- `PrimeN` and `Table` of the group, none for NULL. -/
structure Caches where
  primeN : Option Nat
  table : Option Table

structure EcpPoint where
  x : Nat
  y : Nat
  z : Nat

/-- Where a call finds memory. `stopped` is what `PrimeN` holds where its computation finds
none. -/
structure EcpHeap where
  initBuf : Bool
  primeBuf : Bool
  stopped : Option (Option Nat)
  tmpBuf : Bool
  encoding : Bool
  table : Bool
  tableZ : Bool
  products : Bool
  readX : Bool
  readY : Bool
  lset : Bool

/-! ## Points in the registers -/

def ecpNormalizeSwst (dst src : Nat) : List PkaOp :=
  [.minv 9 (src + 2), .msqr 10 9, .mmul dst src 10, .mmul (dst + 1) (src + 1) 10,
    .mmul (dst + 1) (dst + 1) 9]

/-- `3 X² + A Z⁴`, into register 9. -/
def doubleSlope (src : Nat) : Option Nat → List PkaOp
  | none =>
    [.msqr 10 (src + 2), .madd 11 src 10, .msub 12 src 10, .mmul 10 11 12, .mmul 9 10 5, .mrem 9 9]
  | some a =>
    [.msqr 10 src, .mmul 9 10 5, .mrem 9 9] ++
      if a ≠ 0 then [.msqr 10 (src + 2), .msqr 11 10, .mmul 10 11 8, .madd 9 9 10] else []

def doubleRest (dst src : Nat) : List PkaOp :=
  [.msqr 11 (src + 1), .mmul 11 11 4, .mmul 10 src 11, .mmul 10 10 4,
    .msqr 12 11, .mmul 12 12 4,
    .msqr 11 9, .msub 11 11 10, .msub 11 11 10,
    .msub 10 10 11, .mmul 10 10 9, .msub 10 10 12,
    .mmul 12 (src + 1) (src + 2), .mmul 12 12 4,
    .move dst 11, .move (dst + 1) 10, .move (dst + 2) 12]

def ecpDoubleSwst (a : Option Nat) (dst src : Nat) : List PkaOp :=
  doubleSlope src a ++ doubleRest dst src

/-- The distances of the two points' coordinates, into registers 9 and 10. -/
def addDistances (src1 src2 : Nat) : List PkaOp :=
  [.msqr 9 (src1 + 2), .mmul 10 9 (src1 + 2), .mmul 9 9 src2, .mmul 10 10 (src2 + 1),
    .msub 9 9 src1, .msub 10 10 (src1 + 1)]

def addRest (dst src1 : Nat) : List PkaOp :=
  [.mmul 15 (src1 + 2) 9, .msqr 11 9, .mmul 12 11 9, .mmul 11 11 src1, .move 9 11, .mmul 9 9 4,
    .msqr 13 10, .msub 13 13 9, .msub 13 13 12, .msub 11 11 13, .mmul 11 11 10,
    .mmul 12 12 (src1 + 1), .msub 11 11 12,
    .move dst 13, .move (dst + 1) 11, .move (dst + 2) 15]

/-- The second component is what the function returns: 1 for opposite points, whose sum it
does not write. -/
def ecpAddMixedSwst (a : Option Nat) (s dst src1 src2 : Nat) (ram : Ram) : Ram × Int :=
  let ram := runOps s (addDistances src1 src2) ram
  if pkaLcmp ram ⟨s, 9⟩ ⟨s, 3⟩ then
    if pkaLcmp ram ⟨s, 10⟩ ⟨s, 3⟩ then (runOps s (ecpDoubleSwst a dst src1) ram, 0)
    else (ram, 1)
  else (runOps s (addRest dst src1) ram, 0)

/-! ## Tables -/

/-- The loop that fills `c`, from `i` on. -/
def productsLoop (s : Nat) (tz : Nat → Nat) : Nat → Nat → Ram → (Nat → Nat) → Ram × (Nat → Nat)
  | 0, _, ram, c => (ram, c)
  | k + 1, i, ram, c =>
    let ram := runOps s [.regw 9 (c (i - 1)), .regw 10 (tz i), .mmul 11 9 10] ram
    productsLoop s tz k (i + 1) ram (Function.update c i (pkaRead ram ⟨s, 11⟩))

/-- The entry `i` with its inverse in register 10. -/
def normalizeEntry (s : Nat) (i : Nat) (ram : Ram) (t : Table) : Ram × Table :=
  let ram := runOps s [.msqr 11 10, .regw 12 (t i).1, .regw 13 (t i).2, .mmul 12 12 11,
    .mmul 13 13 11, .mmul 13 13 10] ram
  (ram, Function.update t i (pkaRead ram ⟨s, 12⟩, pkaRead ram ⟨s, 13⟩))

/-- The loop down from `i`. -/
def normalizeLoop (s : Nat) (c tz : Nat → Nat) : Nat → Ram → Table → Ram × Table
  | 0, ram, t => normalizeEntry s 0 (runOps s [.move 10 9] ram) t
  | i + 1, ram, t =>
    let ram := runOps s [.regw 12 (c i), .regw 13 (tz (i + 1)), .mmul 10 9 12, .mmul 9 9 13] ram
    let r := normalizeEntry s (i + 1) ram t
    normalizeLoop s c tz i r.1 r.2

def ecpNormalizeManySwst (heap : EcpHeap) (s : Nat) (t : Table) (tz : Nat → Nat) (tSize : Nat)
    (ram : Ram) : Except Int (Ram × Table) :=
  if heap.products = false then .error errEcpAllocFailed
  else
    let r := productsLoop s tz (tSize - 1) 1 ram (Function.update (fun _ => 0) 0 (tz 0))
    let ram := runOps s [.regw 10 (r.2 (tSize - 1)), .minv 9 10] r.1
    .ok (normalizeLoop s r.2 tz (tSize - 1) ram t)

/-- The loop of `ecp_mul_swst` that adds twice the point, from entry `i` on. -/
def oddMultiples (a : Option Nat) (s tStartIdx : Nat) :
    Nat → Nat → Ram → Table → (Nat → Nat) → Ram × Table × (Nat → Nat)
  | 0, _, ram, t, tz => (ram, t, tz)
  | k + 1, i, ram, t, tz =>
    let ram := (ecpAddMixedSwst a s 17 17 tStartIdx ram).1
    oddMultiples a s tStartIdx k (i + 1) ram
      (Function.update t i (pkaRead ram ⟨s, 17⟩, pkaRead ram ⟨s, 18⟩))
      (Function.update tz (i - 1) (pkaRead ram ⟨s, 19⟩))

/-! ## The group's registers -/

/-- `LOAD_C`. -/
def loadC (s r v : Nat) (ram : Ram) : Ram := pkaSlir (pkaClir ram ⟨s, r⟩) ⟨s, r⟩ v

/-- `grp->PrimeN`, which is computed when there is none. -/
def initPrimeN (heap : EcpHeap) (grp : Group) (opWs : Nat) : Option Nat → Except Int Nat × Option Nat
  | some prime => (.ok prime, some prime)
  | none =>
    if heap.primeBuf = false then (.error errEcpAllocFailed, none)
    else
      let (ret, u) := mpiHenselQuadModInvPrimeN heap.stopped grp.p (opWs * 4 * 8)
      if ret ≠ 0 then (.error ret, some 0)
      else if 2 ^ (32 * opWs) ≤ u.getD 0 then (.error errMpiBufferTooSmall, some 0)
      else (.ok (u.getD 0), some (u.getD 0))

/-- The modulus, `PrimeN` and the square of the radix. -/
def loadModulus (s r2s p prime : Nat) (ram : Ram) : Ram :=
  let ram := pkaWrite ram ⟨s, 0⟩ p
  let ram := pkaWrite ram ⟨s, 1⟩ prime
  let ram := loadC r2s 2 1 ram
  let ram := pkaLmul2n ram ⟨r2s, 2⟩ ⟨r2s, 2⟩ (mpiRegSizeToWords s * 32 * 2)
  pkaMrem ram ⟨s, 2⟩ ⟨r2s, 2⟩ ⟨s, 0⟩

/-- The constants, `A` among them. -/
def loadConstants (s a : Nat) (ram : Ram) : Ram :=
  let ram := loadC s 7 8 (loadC s 6 4 (loadC s 5 3 (loadC s 4 2 (loadC s 3 1 ram))))
  runOps s [.regw 8 a, .mmul 4 4 2, .mmul 5 5 2, .mmul 6 6 2, .mmul 7 7 2, .mmul 8 8 2] ram

/-- `s`, the size of the group's registers. -/
def Group.regSize (grp : Group) : Nat := mpiWordsToRegSize (((grp.pbits + 7) / 8 + 3) / 4)

/-- The size of the registers, and what they hold. -/
def ecpInitSwst (heap : EcpHeap) (grp : Group) (ram : Ram) (caches : Caches) :
    Except Int (Nat × Ram) × Caches :=
  let s := grp.regSize
  let opWs := mpiRegSizeToWords s
  let r2s := mpiWordsToRegSize (opWs * 2 + 1)
  if s = 0 then (.error errMpiNotAcceptable, caches)
  else if r2s = 0 then (.error errMpiNotAcceptable, caches)
  else if heap.initBuf = false then (.error errEcpAllocFailed, caches)
  else match initPrimeN heap grp opWs caches.primeN with
    | (.error ret, primeN) => (.error ret, { caches with primeN := primeN })
    | (.ok prime, primeN) =>
      let caches := { caches with primeN := primeN }
      if 2 ^ (32 * opWs) ≤ grp.p.val.natAbs then (.error errMpiBufferTooSmall, caches)
      else if 2 ^ (32 * opWs) ≤ grp.a.getD 0 then (.error errMpiBufferTooSmall, caches)
      else
        let ram := loadConstants s (grp.a.getD 0) (loadModulus s r2s grp.p.val.natAbs prime ram)
        (.ok (s, ram), caches)

/-! ## The multiplication -/

/-- `p_eq_g`. -/
def pEqG (grp : Group) (pt : EcpPoint) : Bool := decide (pt.y = grp.gy ∧ pt.x = grp.gx)

/-- The group's table, if it has one and it is the point's. -/
def Caches.tableOf (grp : Group) (caches : Caches) (pt : EcpPoint) : Option Table :=
  if pEqG grp pt then caches.table else none

/-- The programs that load a point. -/
def loadPoint (pt : EcpPoint) : List PkaOp :=
  [.regw 17 pt.x, .regw 18 pt.y, .regw 19 pt.z, .mmul 17 17 2, .mmul 18 18 2, .mmul 19 19 2]

/-- A new `T`, for the point in registers 17 to 19. -/
def newTable (heap : EcpHeap) (a : Option Nat) (s : Nat) (ram : Ram) : Except Int (Ram × Table) :=
  let t := Function.update (fun _ => (0, 0)) 0 (pkaRead ram ⟨s, 17⟩, pkaRead ram ⟨s, 18⟩)
  let ram := runOps s (ecpDoubleSwst a 20 17 ++ ecpNormalizeSwst 24 20) ram
  let r := oddMultiples a s 24 7 1 ram t fun _ => 0
  match ecpNormalizeManySwst heap s (fun i => r.2.1 (i + 1)) r.2.2 7 r.1 with
  | .error ret => .error ret
  | .ok rest => .ok (rest.1, fun i => if i = 0 then r.2.1 0 else rest.2 (i - 1))

/-- `T`: the group's for the generator, once it has one, and a new one otherwise. -/
def ecpTable (heap : EcpHeap) (grp : Group) (s : Nat) (ram : Ram) (caches : Caches) (pt : EcpPoint) :
    Except Int (Ram × Table) × Caches :=
  let bound := 2 ^ (32 * mpiRegSizeToWords s)
  if (caches.tableOf grp pt).isNone ∧ (heap.table = false ∨ heap.tableZ = false) then
    (.error errEcpAllocFailed, caches)
  else if bound ≤ pt.x ∨ bound ≤ pt.y ∨ bound ≤ pt.z then (.error errMpiBufferTooSmall, caches)
  else
    let ram := runOps s (loadPoint pt) ram
    match caches.tableOf grp pt with
    | some t => (.ok (ram, t), caches)
    | none =>
      match newTable heap grp.a s ram with
      | .error ret => (.error ret, caches)
      | .ok r => (.ok r, if pEqG grp pt then { caches with table := some r.2 } else caches)

/-- One digit: `R_zero` and the registers afterwards. -/
def mulDigit (a : Option Nat) (s : Nat) (t : Table) (symbol : Int) (rZero : Bool) (ram : Ram) :
    Bool × Ram :=
  let ram := if rZero then ram else runOps s (ecpDoubleSwst a 17 17) ram
  if symbol = 0 then (rZero, ram)
  else
    let index := symbol.natAbs / 2
    let ram := runOps s [.regw 20 (t index).1, .regw 21 (t index).2] ram
    let ram := if symbol < 0 then runOps s [.negate 21 21] ram else ram
    if rZero then
      (false, runOps s [.mmul 19 19 2] (loadC s 19 1 (runOps s [.move 17 20, .move 18 21] ram)))
    else (false, (ecpAddMixedSwst a s 17 17 20 ram).1)

/-- The highest `k` of the `len` digits. -/
def mulDigits (a : Option Nat) (s : Nat) (t : Table) (d : Nat → Int) (len : Nat) (ram : Ram) :
    Nat → Bool × Ram
  | 0 => (true, ram)
  | k + 1 =>
    let r := mulDigits a s t d len ram k
    mulDigit a s t (d (len - 1 - k)) r.1 r.2

/-- What the loop over the digits begins with. -/
structure MulStart where
  s : Nat
  ram : Ram
  t : Table
  encoding : Nat → Int
  encodingLen : Nat

/-- `ecp_mul_swst` up to that loop. -/
def ecpMulStart (heap : EcpHeap) (grp : Group) (ram : Ram) (caches : Caches) (m : Mpi) (pt : EcpPoint) :
    Except Int MulStart × Caches :=
  match ecpInitSwst heap grp ram caches with
  | (.error ret, caches) => (.error ret, caches)
  | (.ok (s, ram), caches) =>
    if heap.tmpBuf = false ∨ heap.encoding = false then (.error errEcpAllocFailed, caches)
    else match mpiScalarEncode m.limb (mpiWords m) 5 with
      | none => (.error errEcpBadInputData, caches)
      | some (encoding, encodingLen) =>
        match ecpTable heap grp s ram caches pt with
        | (.error ret, caches) => (.error ret, caches)
        | (.ok (ram, t), caches) => (.ok ⟨s, ram, t, encoding, encodingLen⟩, caches)

/-- The registers after the highest `k` digits. -/
def MulStart.digits (st : MulStart) (a : Option Nat) (k : Nat) : Bool × Ram :=
  mulDigits a st.s st.t st.encoding st.encodingLen st.ram k

/-- `ecp_mul_swst`: the coordinates of `R`, or an error. `ram` is what the accelerator holds
at first. -/
def ecpMulSwst (heap : EcpHeap) (grp : Group) (ram : Ram) (caches : Caches) (m : Mpi) (pt : EcpPoint) :
    Except Int (Nat × Nat) × Caches :=
  match ecpMulStart heap grp ram caches m pt with
  | (.error ret, caches) => (.error ret, caches)
  | (.ok st, caches) =>
    let ram := (st.digits grp.a st.encodingLen).2
    let ram := runOps st.s (ecpNormalizeSwst 17 17 ++ [.mmul 17 17 3, .mmul 18 18 3]) ram
    if heap.readX = false ∨ heap.readY = false ∨ heap.lset = false then
      (.error errMpiAllocFailed, caches)
    else (.ok (pkaRead ram ⟨st.s, 17⟩, pkaRead ram ⟨st.s, 18⟩), caches)

end BouffaloSdk.Ecp
