import BouffaloSdk.Crypto.PkaPowers
import Mathlib.Algebra.Field.ZMod

/-!
# Programs of the accelerator over the field

A routine queues operations on registers of one size. In Montgomery form they are the
operations of the field, on the elements that the registers hold.
-/

namespace BouffaloSdk.Ecp
open Kit Kit.Montgomery Pka Bignum

/-- `MMUL`, `MSQR`, `MADD`, `MSUB`, `MREM`, `MINV`, `MOVE` and `REGW`; `negate` is `MSUB` from
the modulus in register 0. The first argument is the register written. -/
inductive PkaOp
  | mmul (d i j : Nat)
  | msqr (d i : Nat)
  | madd (d i j : Nat)
  | msub (d i j : Nat)
  | negate (d i : Nat)
  | mrem (d i : Nat)
  | minv (d i : Nat)
  | move (d i : Nat)
  | regw (d v : Nat)
  deriving DecidableEq, Repr

def PkaOp.dest : PkaOp → Nat
  | .mmul d _ _ | .msqr d _ | .madd d _ _ | .msub d _ _ | .negate d _ | .mrem d _ | .minv d _
  | .move d _ | .regw d _ => d

/-- The registers whose elements the operation reads. -/
def PkaOp.reads : PkaOp → List Nat
  | .mmul _ i j | .madd _ i j | .msub _ i j => [i, j]
  | .msqr _ i | .negate _ i | .mrem _ i | .minv _ i | .move _ i => [i]
  | .regw _ _ => []

/-- The operation on registers of size `s`, modulo the number in register 0. -/
def PkaOp.run (s : Nat) : PkaOp → Ram → Ram
  | .mmul d i j, ram => pkaMmul ram ⟨s, d⟩ ⟨s, i⟩ ⟨s, j⟩ ⟨s, 0⟩
  | .msqr d i, ram => pkaMsqr ram ⟨s, d⟩ ⟨s, i⟩ ⟨s, 0⟩
  | .madd d i j, ram => pkaMadd ram ⟨s, d⟩ ⟨s, i⟩ ⟨s, j⟩ ⟨s, 0⟩
  | .msub d i j, ram => pkaMsub ram ⟨s, d⟩ ⟨s, i⟩ ⟨s, j⟩ ⟨s, 0⟩
  | .negate d i, ram => pkaMsub ram ⟨s, d⟩ ⟨s, 0⟩ ⟨s, i⟩ ⟨s, 0⟩
  | .mrem d i, ram => pkaMrem ram ⟨s, d⟩ ⟨s, i⟩ ⟨s, 0⟩
  | .minv d i, ram => pkaMinv ram ⟨s, d⟩ ⟨s, i⟩ ⟨s, 0⟩
  | .move d i, ram => pkaMovdat ram ⟨s, d⟩ ⟨s, i⟩
  | .regw d v, ram => pkaWrite ram ⟨s, d⟩ v

def runOps (s : Nat) (ops : List PkaOp) (ram : Ram) : Ram :=
  ops.foldl (fun ram op => op.run s ram) ram

section
variable {p : Nat} [Fact p.Prime]

/-- `R` of the registers as an element. -/
def radix (p s : Nat) : ZMod p := (regRadix s : ZMod p)

/-- The element that the operation leaves, from those in the registers. -/
def PkaOp.value (s : Nat) : PkaOp → (Nat → ZMod p) → ZMod p
  | .mmul _ i j, f => f i * f j
  | .msqr _ i, f => f i * f i
  | .madd _ i j, f => f i + f j
  | .msub _ i j, f => f i - f j
  | .negate _ i, f => -f i
  | .mrem _ i, f => f i
  | .minv _ i, f => (f i)⁻¹
  | .move _ i, f => f i
  | .regw _ v, _ => v * (radix p s)⁻¹

def evalOps (s : Nat) (ops : List PkaOp) (f : Nat → ZMod p) : Nat → ZMod p :=
  ops.foldl (fun f op => Function.update f op.dest (op.value s f)) f

/-- Register `i` holds the element `x`. -/
def Holds (s : Nat) (ram : Ram) (i : Nat) (x : ZMod p) : Prop :=
  pkaRead ram ⟨s, i⟩ < p ∧ (pkaRead ram ⟨s, i⟩ : ZMod p) = x * radix p s

/-- The registers in `live` hold the elements of `f`. -/
def HoldsAll (s : Nat) (live : List Nat) (ram : Ram) (f : Nat → ZMod p) : Prop :=
  ∀ i, i ∈ live → Holds s ram i (f i)

/-- What the operation reads is live, and it leaves the modulus and its inverse alone. -/
def PkaOp.Ok (p : Nat) (live : List Nat) (op : PkaOp) : Prop :=
  (∀ i, i ∈ op.reads → i ∈ live) ∧ 2 ≤ op.dest ∧ ∀ d v, op = .regw d v → v < p

/-- The same for every operation, with what those before it leave. -/
def OpsOk (p : Nat) : List Nat → List PkaOp → Prop
  | _, [] => True
  | live, op :: ops => op.Ok p live ∧ OpsOk p (op.dest :: live) ops

/-- The registers that hold elements afterwards. -/
def liveAfter (live : List Nat) (ops : List PkaOp) : List Nat :=
  ops.foldl (fun live op => op.dest :: live) live

/-! ## One operation -/

variable {s prime d i j v : Nat} {ram : Ram} {x y : ZMod p} {live : List Nat} {f : Nat → ZMod p}

/-- The registers are large enough for the field, and the constant is right. -/
structure Field.Fits (p s prime : Nat) : Prop where
  work : Workable s p prime
  room : p < regRadix s

theorem Field.Fits.radix_ne_zero (h : Field.Fits p s prime) : radix p s ≠ 0 := by
  intro hzero
  have hdvd : p ∣ regRadix s := (ZMod.natCast_eq_zero_iff _ _).mp hzero
  have hone : p = 1 := Nat.Coprime.eq_one_of_dvd h.work.coprime hdvd
  exact (Fact.out : p.Prime).one_lt.ne' hone

theorem Holds.congr {ram' : Ram} (h : Holds s ram i x)
    (hread : pkaRead ram' ⟨s, i⟩ = pkaRead ram ⟨s, i⟩) : Holds s ram' i x := by
  unfold Holds
  rw [hread]
  exact h

theorem holds_write (hfits : Field.Fits p s prime) (hv : v < p) (hx : (v : ZMod p) = x * radix p s) :
    Holds s (pkaWrite ram ⟨s, d⟩ v) d x := by
  have hread : pkaRead (pkaWrite ram ⟨s, d⟩ v) ⟨s, d⟩ = v := read_write (hv.trans hfits.room)
  unfold Holds
  rw [hread]
  exact ⟨hv, hx⟩

theorem mmul_holds (hfits : Field.Fits p s prime) (hram : Loaded s p prime ram)
    (hx : Holds s ram i x) (hy : Holds s ram j y) :
    Holds s (pkaMmul ram ⟨s, d⟩ ⟨s, i⟩ ⟨s, j⟩ ⟨s, 0⟩) d (x * y) := by
  have hnext : pkaRead ram (Reg.next ⟨s, 0⟩) = prime := hram.inverse
  have hpos : 0 < p := (Fact.out : p.Prime).pos
  have ht : pkaRead ram ⟨s, i⟩ * pkaRead ram ⟨s, j⟩ < p * regRadix s :=
    Nat.mul_lt_mul_of_lt_of_le hx.1 (hy.1.trans hfits.room).le (hpos.trans hfits.room)
  have hmod := redc_modEq hfits.work.inverse (hpos.trans hfits.room) ht
  unfold pkaMmul
  rw [hram.modulus, hnext]
  refine holds_write hfits (redc_lt (hpos.trans hfits.room) ht) ?_
  refine mul_right_cancel₀ hfits.radix_ne_zero ?_
  have hcast := (ZMod.natCast_eq_natCast_iff _ _ _).mpr hmod
  push_cast at hcast
  rw [hx.2, hy.2] at hcast
  calc _ = x * radix p s * (y * radix p s) := hcast
    _ = x * y * radix p s * radix p s := by ring

theorem madd_holds (hfits : Field.Fits p s prime) (hram : Loaded s p prime ram)
    (hx : Holds s ram i x) (hy : Holds s ram j y) :
    Holds s (pkaMadd ram ⟨s, d⟩ ⟨s, i⟩ ⟨s, j⟩ ⟨s, 0⟩) d (x + y) := by
  unfold pkaMadd
  rw [hram.modulus]
  refine holds_write hfits (Nat.mod_lt _ (Fact.out : p.Prime).pos) ?_
  rw [ZMod.natCast_mod, Nat.cast_add, hx.2, hy.2, add_mul]

/-- A difference, the first number being given as it stands in its register. -/
theorem msub_holds (hfits : Field.Fits p s prime) (hram : Loaded s p prime ram)
    (hx : (pkaRead ram ⟨s, i⟩ : ZMod p) = x * radix p s) (hy : Holds s ram j y) :
    Holds s (pkaMsub ram ⟨s, d⟩ ⟨s, i⟩ ⟨s, j⟩ ⟨s, 0⟩) d (x - y) := by
  unfold pkaMsub
  rw [hram.modulus, Nat.mod_eq_of_lt hy.1]
  refine holds_write hfits (Nat.mod_lt _ (Fact.out : p.Prime).pos) ?_
  rw [ZMod.natCast_mod, Nat.cast_add, Nat.cast_sub hy.1.le, hx, hy.2, ZMod.natCast_self, sub_mul]
  ring

theorem mrem_holds (hfits : Field.Fits p s prime) (hram : Loaded s p prime ram)
    (hx : Holds s ram i x) : Holds s (pkaMrem ram ⟨s, d⟩ ⟨s, i⟩ ⟨s, 0⟩) d x := by
  unfold pkaMrem
  rw [hram.modulus]
  refine holds_write hfits (Nat.mod_lt _ (Fact.out : p.Prime).pos) ?_
  rw [ZMod.natCast_mod, hx.2]

theorem move_holds (hfits : Field.Fits p s prime) (hx : Holds s ram i x) :
    Holds s (pkaMovdat ram ⟨s, d⟩ ⟨s, i⟩) d x :=
  holds_write hfits hx.1 hx.2

/-- The search for the inverse finds it, and finds nothing for 0. -/
theorem minv_holds (hfits : Field.Fits p s prime) (hram : Loaded s p prime ram)
    (hx : Holds s ram i x) : Holds s (pkaMinv ram ⟨s, d⟩ ⟨s, i⟩ ⟨s, 0⟩) d x⁻¹ := by
  have hpos : 0 < p := (Fact.out : p.Prime).pos
  have hr := hfits.radix_ne_zero
  have hbound : (Reg.bound ⟨s, 0⟩ : ZMod p) = radix p s := rfl
  have hiff : ∀ y, pkaRead ram ⟨s, i⟩ * y % p = Reg.bound ⟨s, 0⟩ * Reg.bound ⟨s, 0⟩ % p ↔
      x * (y : ZMod p) = radix p s := by
    intro y
    have hmod := ZMod.natCast_eq_natCast_iff (pkaRead ram ⟨s, i⟩ * y)
      (Reg.bound ⟨s, 0⟩ * Reg.bound ⟨s, 0⟩) p
    unfold Nat.ModEq at hmod
    rw [← hmod, Nat.cast_mul, Nat.cast_mul, hx.2, hbound]
    constructor
    · intro h
      refine mul_right_cancel₀ hr ?_
      rw [← h]
      ring
    · intro h
      calc x * radix p s * (y : ZMod p) = x * (y : ZMod p) * radix p s := by ring
        _ = radix p s * radix p s := by rw [h]
  unfold pkaMinv
  dsimp only
  rw [hram.modulus]
  cases hfind : (List.range p).find?
      fun y => pkaRead ram ⟨s, i⟩ * y % p = Reg.bound ⟨s, 0⟩ * Reg.bound ⟨s, 0⟩ % p with
  | none =>
    refine holds_write hfits hpos ?_
    by_cases hzero : x = 0
    · rw [hzero, inv_zero, zero_mul, Option.getD_none, Nat.cast_zero]
    · exfalso
      rw [List.find?_eq_none] at hfind
      refine hfind (x⁻¹ * radix p s).val (List.mem_range.mpr (ZMod.val_lt _)) ?_
      rw [decide_eq_true_eq, hiff, ZMod.natCast_zmod_val, ← mul_assoc, mul_inv_cancel₀ hzero, one_mul]
  | some y =>
    have hfound := List.find?_some hfind
    rw [decide_eq_true_eq, hiff] at hfound
    have hzero : x ≠ 0 := by
      intro hx
      rw [hx, zero_mul] at hfound
      exact hr hfound.symm
    refine holds_write hfits (List.mem_range.mp (List.mem_of_find?_eq_some hfind)) ?_
    rw [Option.getD_some, ← hfound, ← mul_assoc, inv_mul_cancel₀ hzero, one_mul]

theorem modulus_element (hram : Loaded s p prime ram) :
    (pkaRead ram ⟨s, 0⟩ : ZMod p) = 0 * radix p s := by
  rw [hram.modulus, ZMod.natCast_self, zero_mul]

theorem PkaOp.run_wrote (op : PkaOp) (ram : Ram) : ∃ v, Wrote s op.dest v ram (op.run s ram) := by
  cases op <;> exact wrote_any _

/-- An operation on live registers leaves its value in its register. -/
theorem PkaOp.run_holds {op : PkaOp} (hfits : Field.Fits p s prime) (hram : Loaded s p prime ram)
    (hok : op.Ok p live) (hlive : HoldsAll s live ram f) :
    Holds s (op.run s ram) op.dest (op.value s f) := by
  have hread : ∀ i, i ∈ op.reads → Holds s ram i (f i) := fun i hi => hlive i (hok.1 i hi)
  cases op with
  | mmul d i j => exact mmul_holds hfits hram (hread i (by simp [reads])) (hread j (by simp [reads]))
  | msqr d i => exact mmul_holds hfits hram (hread i (by simp [reads])) (hread i (by simp [reads]))
  | madd d i j => exact madd_holds hfits hram (hread i (by simp [reads])) (hread j (by simp [reads]))
  | msub d i j =>
    exact msub_holds hfits hram (hread i (by simp [reads])).2 (hread j (by simp [reads]))
  | negate d i =>
    have hneg := msub_holds (d := d) hfits hram (modulus_element hram) (hread i (by simp [reads]))
    rwa [zero_sub] at hneg
  | mrem d i => exact mrem_holds hfits hram (hread i (by simp [reads]))
  | minv d i => exact minv_holds hfits hram (hread i (by simp [reads]))
  | move d i => exact move_holds hfits (hread i (by simp [reads]))
  | regw d v =>
    refine holds_write hfits (hok.2.2 d v rfl) ?_
    rw [PkaOp.value, mul_assoc, inv_mul_cancel₀ hfits.radix_ne_zero, mul_one]

theorem PkaOp.run_step {op : PkaOp} (hfits : Field.Fits p s prime) (hram : Loaded s p prime ram)
    (hok : op.Ok p live) (hlive : HoldsAll s live ram f) :
    Loaded s p prime (op.run s ram) ∧ HoldsAll s (op.dest :: live) (op.run s ram)
      (Function.update f op.dest (op.value s f)) := by
  obtain ⟨v, hwrote⟩ := op.run_wrote (s := s) ram
  refine ⟨hwrote.loaded hok.2.1 hram, fun i hi => ?_⟩
  by_cases hd : i = op.dest
  · subst hd
    rw [Function.update_self]
    exact op.run_holds hfits hram hok hlive
  · rw [Function.update_of_ne hd]
    refine (hlive i ?_).congr (hwrote.others i hd)
    exact (List.mem_cons.mp hi).resolve_left hd

/-- A program computes over the field what its operations say. -/
theorem runOps_holds {ops : List PkaOp} (hfits : Field.Fits p s prime)
    (hram : Loaded s p prime ram) (hok : OpsOk p live ops) (hlive : HoldsAll s live ram f) :
    Loaded s p prime (runOps s ops ram) ∧
      HoldsAll s (liveAfter live ops) (runOps s ops ram) (evalOps s ops f) := by
  induction ops generalizing ram f live with
  | nil => exact ⟨hram, hlive⟩
  | cons op ops ih =>
    obtain ⟨hloaded, hstep⟩ := op.run_step hfits hram hok.1 hlive
    exact ih hloaded hok.2 hstep

theorem mem_liveAfter {ops : List PkaOp} :
    i ∈ liveAfter live ops ↔ i ∈ live ∨ i ∈ ops.map PkaOp.dest := by
  induction ops generalizing live with
  | nil => simp [liveAfter]
  | cons op ops ih =>
    have hstep : liveAfter live (op :: ops) = liveAfter (op.dest :: live) ops := rfl
    rw [hstep, ih, List.mem_cons, List.map_cons, List.mem_cons]
    tauto

/-- Registers that a program does not write keep their elements. -/
theorem evalOps_of_notMem {ops : List PkaOp} (h : i ∉ ops.map PkaOp.dest) :
    evalOps s ops f i = f i := by
  induction ops generalizing f with
  | nil => rfl
  | cons op ops ih =>
    rw [List.map_cons, List.mem_cons, not_or] at h
    have hstep : evalOps s (op :: ops) f =
        evalOps s ops (Function.update f op.dest (op.value s f)) := rfl
    rw [hstep, ih h.2, Function.update_of_ne h.1]

theorem HoldsAll.mono {live' : List Nat} (h : HoldsAll s live ram f)
    (hsub : ∀ i, i ∈ live' → i ∈ live) : HoldsAll s live' ram f :=
  fun i hi => h i (hsub i hi)

/-- The comparison with 1, which register `j` holds as it stands. -/
theorem lcmp_one (hfits : Field.Fits p s prime) (hx : Holds s ram i x)
    (hone : pkaRead ram ⟨s, j⟩ = 1) : pkaLcmp ram ⟨s, i⟩ ⟨s, j⟩ = true ↔ x = 0 := by
  rw [pkaLcmp, hone, decide_eq_true_eq, Nat.lt_one_iff]
  constructor
  · intro hzero
    have helement := hx.2
    rw [hzero, Nat.cast_zero] at helement
    exact (mul_eq_zero.mp helement.symm).resolve_right hfits.radix_ne_zero
  · intro hzero
    have helement := hx.2
    rw [hzero, zero_mul] at helement
    exact Nat.eq_zero_of_dvd_of_lt ((ZMod.natCast_eq_zero_iff _ _).mp helement) hx.1

/-- What a register holds, as it is read back. -/
theorem Holds.read_eq (h : Holds s ram i x) : pkaRead ram ⟨s, i⟩ = (x * radix p s).val := by
  rw [← h.2, ZMod.val_natCast, Nat.mod_eq_of_lt h.1]

end

end BouffaloSdk.Ecp
