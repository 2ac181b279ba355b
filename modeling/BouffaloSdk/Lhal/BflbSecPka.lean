import BouffaloSdk.Kit.Montgomery
import BouffaloSdk.Kit.WordMemory

/-!
# The public key accelerator

The operations of `bflb_sec_pka.h` on its register memory. Register `idx` of a size starts
at `idx` times the size, so that registers of different sizes share words. Modular products
are exact Montgomery products: the modulus is the third operand and the register after it
holds the modulus's negated inverse.
-/

namespace BouffaloSdk.Pka
open Kit Kit.WordMemory Kit.Montgomery

def regSize8 : Nat := 1
def regSize16 : Nat := 2
def regSize32 : Nat := 3
def regSize64 : Nat := 4
def regSize96 : Nat := 5
def regSize128 : Nat := 6
def regSize192 : Nat := 7
def regSize256 : Nat := 8
def regSize384 : Nat := 9
def regSize512 : Nat := 10

/-- The words of a register of a size. -/
def regWords : Nat → Nat
  | 1 => 8 / 4
  | 2 => 16 / 4
  | 3 => 32 / 4
  | 4 => 64 / 4
  | 5 => 96 / 4
  | 6 => 128 / 4
  | 7 => 192 / 4
  | 8 => 256 / 4
  | 9 => 384 / 4
  | 10 => 512 / 4
  | _ => 0

/-- A register, as the operations name it. -/
structure Reg where
  size : Nat
  idx : Nat
  deriving DecidableEq, Repr

def Reg.words (r : Reg) : Nat := regWords r.size

def Reg.next (r : Reg) : Reg := { r with idx := r.idx + 1 }

/-- The power of two a register's content stays below. -/
def Reg.bound (r : Reg) : Nat := (2 ^ 32) ^ r.words

/-- The register memory, by word. -/
abbrev Ram := Nat → Nat

def pkaRead (ram : Ram) (r : Reg) : Nat := load (2 ^ 32) ram (r.idx * r.words) r.words

def pkaWrite (ram : Ram) (r : Reg) (v : Nat) : Ram := store (2 ^ 32) ram (r.idx * r.words) r.words v

def pkaMovdat (ram : Ram) (d s0 : Reg) : Ram := pkaWrite ram d (pkaRead ram s0)

def pkaMmul (ram : Ram) (d s0 s1 s2 : Reg) : Ram :=
  pkaWrite ram d
    (redc s2.bound (pkaRead ram s2) (pkaRead ram s2.next) (pkaRead ram s0 * pkaRead ram s1))

def pkaMsqr (ram : Ram) (d s0 s2 : Reg) : Ram :=
  pkaWrite ram d
    (redc s2.bound (pkaRead ram s2) (pkaRead ram s2.next) (pkaRead ram s0 * pkaRead ram s0))

/-- The power of a residue in Montgomery form, to the exponent in `s1`. -/
def pkaMexp (ram : Ram) (d s0 s1 s2 : Reg) : Ram :=
  pkaWrite ram d
    (powRedc s2.bound (pkaRead ram s2) (pkaRead ram s2.next) (pkaRead ram s0) (pkaRead ram s1))

/-- Into Montgomery form: `s` moves left by `size` bits in `t`, which is then reduced. -/
def pkaGf2mont (ram : Ram) (d s : Reg) (size : Nat) (t p : Reg) : Ram :=
  let shifted := pkaWrite ram t (pkaRead ram s * 2 ^ size)
  pkaWrite shifted d (pkaRead shifted t % pkaRead shifted p)

def pkaMadd (ram : Ram) (d s0 s1 s2 : Reg) : Ram :=
  pkaWrite ram d ((pkaRead ram s0 + pkaRead ram s1) % pkaRead ram s2)

def pkaMsub (ram : Ram) (d s0 s1 s2 : Reg) : Ram :=
  pkaWrite ram d
    ((pkaRead ram s0 + (pkaRead ram s2 - pkaRead ram s1 % pkaRead ram s2)) % pkaRead ram s2)

def pkaMrem (ram : Ram) (d s0 s2 : Reg) : Ram := pkaWrite ram d (pkaRead ram s0 % pkaRead ram s2)

/-- The Montgomery form of the inverse: what multiplies with `s0` to the form of 1. -/
def pkaMinv (ram : Ram) (d s0 s2 : Reg) : Ram :=
  let n := pkaRead ram s2
  pkaWrite ram d
    (((List.range n).find? fun y => pkaRead ram s0 * y % n = s2.bound * s2.bound % n).getD 0)

def pkaLmul2n (ram : Ram) (d s0 : Reg) (bitShift : Nat) : Ram :=
  pkaWrite ram d (pkaRead ram s0 * 2 ^ bitShift)

def pkaClir (ram : Ram) (d : Reg) : Ram := pkaWrite ram d 0

/-- The lowest word of the register. -/
def pkaSlir (ram : Ram) (d : Reg) (v : Nat) : Ram := store (2 ^ 32) ram (d.idx * d.words) 1 v

/-- The first register holds less than the second. -/
def pkaLcmp (ram : Ram) (s0 s1 : Reg) : Bool := decide (pkaRead ram s0 < pkaRead ram s1)

/-! ## What the other registers keep -/

/-- The words of two registers do not overlap. -/
def Reg.Apart (r s : Reg) : Prop :=
  r.idx * r.words + r.words ≤ s.idx * s.words ∨ s.idx * s.words + s.words ≤ r.idx * r.words

theorem Reg.apart_of_idx_ne {size i j : Nat} (h : i ≠ j) : Reg.Apart ⟨size, i⟩ ⟨size, j⟩ := by
  have hstep : ∀ {a b w : Nat}, a < b → a * w + w ≤ b * w := fun {a b w} hab =>
    calc a * w + w = (a + 1) * w := by ring
      _ ≤ b * w := Nat.mul_le_mul_right w hab
  rcases Nat.lt_or_gt_of_ne h with hlt | hgt
  · exact .inl (hstep hlt)
  · exact .inr (hstep hgt)

theorem read_write {ram : Ram} {r : Reg} {v : Nat} (h : v < r.bound) :
    pkaRead (pkaWrite ram r v) r = v :=
  load_store h

theorem read_write_apart {ram : Ram} {r s : Reg} {v : Nat} (h : r.Apart s) :
    pkaRead (pkaWrite ram s v) r = pkaRead ram r :=
  load_store_disjoint h

theorem read_write_idx {ram : Ram} {size i j v : Nat} (h : i ≠ j) :
    pkaRead (pkaWrite ram ⟨size, j⟩ v) ⟨size, i⟩ = pkaRead ram ⟨size, i⟩ :=
  read_write_apart (Reg.apart_of_idx_ne h)

end BouffaloSdk.Pka
