import Mathlib.Data.List.Basic
import Mathlib.Tactic.Ring

/-!
# Little-endian numbers

A number in a byte buffer, least significant byte first.
-/

namespace Kit

/-- The number that `bytes` encode. -/
def ofLE : List UInt8 → Nat
  | [] => 0
  | b :: bs => b.toNat + 256 * ofLE bs

/-- The `k` bytes that encode `v`, reduced to their width. -/
def toLE : (k : Nat) → (v : Nat) → List UInt8
  | 0, _ => []
  | k + 1, v => UInt8.ofNat v :: toLE k (v / 256)

@[simp] theorem length_toLE (k v : Nat) : (toLE k v).length = k := by
  induction k generalizing v with
  | zero => rfl
  | succ k ih => rw [toLE, List.length_cons, ih]

theorem ofLE_toLE (k v : Nat) : ofLE (toLE k v) = v % 256 ^ k := by
  induction k generalizing v with
  | zero => rw [toLE, ofLE, Nat.pow_zero, Nat.mod_one]
  | succ k ih =>
    rw [toLE, ofLE, ih, Nat.pow_succ', Nat.mod_mul]
    rfl

theorem ofLE_toLE_of_lt {k v : Nat} (h : v < 256 ^ k) : ofLE (toLE k v) = v := by
  rw [ofLE_toLE, Nat.mod_eq_of_lt h]

theorem ofLE_lt (bytes : List UInt8) : ofLE bytes < 256 ^ bytes.length := by
  induction bytes with
  | nil => exact Nat.one_pos
  | cons b bs ih =>
    have hb := b.toNat_lt
    rw [ofLE, List.length_cons, Nat.pow_succ']
    omega

theorem toLE_ofLE (bytes : List UInt8) : toLE bytes.length (ofLE bytes) = bytes := by
  induction bytes with
  | nil => rfl
  | cons b bs ih =>
    have hb : b.toNat < 256 := b.toNat_lt
    have hlow : UInt8.ofNat (b.toNat + 256 * ofLE bs) = b := by
      apply UInt8.toNat_inj.mp
      rw [UInt8.toNat_ofNat', Nat.add_mul_mod_self_left, Nat.mod_eq_of_lt hb]
    have hhigh : (b.toNat + 256 * ofLE bs) / 256 = ofLE bs := by omega
    rw [List.length_cons, ofLE, toLE, hlow, hhigh, ih]

theorem toLE_append (j k v : Nat) : toLE (j + k) v = toLE j v ++ toLE k (v / 256 ^ j) := by
  induction j generalizing v with
  | zero => rw [Nat.zero_add, toLE, List.nil_append, Nat.pow_zero, Nat.div_one]
  | succ j ih =>
    rw [Nat.succ_add, toLE, ih, toLE, List.cons_append, Nat.div_div_eq_div_mul, Nat.pow_succ']

theorem toLE_mod (k v : Nat) : toLE k (v % 256 ^ k) = toLE k v := by
  induction k generalizing v with
  | zero => rfl
  | succ k ih =>
    have hlow : UInt8.ofNat (v % 256 ^ (k + 1)) = UInt8.ofNat v := by
      apply UInt8.toNat_inj.mp
      rw [UInt8.toNat_ofNat', UInt8.toNat_ofNat']
      exact Nat.mod_mod_of_dvd v (Dvd.intro_left (256 ^ k) rfl)
    have hhigh : v % 256 ^ (k + 1) / 256 = v / 256 % 256 ^ k := by
      rw [Nat.pow_succ', Nat.mod_mul_right_div_self]
    rw [toLE, toLE, hlow, hhigh, ih]

/-- The `k` bytes that encode `v`, most significant first. -/
def toBE (k v : Nat) : List UInt8 := (toLE k v).reverse

theorem toBE_append (j k v : Nat) : toBE (j + k) v = toBE j (v / 256 ^ k) ++ toBE k v := by
  rw [toBE, Nat.add_comm, toLE_append, List.reverse_append]
  rfl

end Kit
