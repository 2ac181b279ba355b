import BouffaloSdk.Kit.LittleEndian

/-!
# Bitmaps in words

An array of 32-bit words as a map from bit numbers to bits, and its bytes in
memory.
-/

namespace Kit.Bitmap

variable {words : List (BitVec 32)} {n m : Nat}

def word (words : List (BitVec 32)) (n : Nat) : BitVec 32 := words.getD (n / 32) 0

def bit (words : List (BitVec 32)) (n : Nat) : Bool := (word words n).getLsbD (n % 32)

def mask (n : Nat) : BitVec 32 := 1#32 <<< (n % 32)

def toBytes (words : List (BitVec 32)) : List UInt8 := words.flatMap fun w => toLE 4 w.toNat

def ofBytes : List UInt8 → List (BitVec 32)
  | a :: b :: c :: d :: rest => BitVec.ofNat 32 (ofLE [a, b, c, d]) :: ofBytes rest
  | _ => []

theorem getLsbD_mask (n : Nat) {k : Nat} (h : k < 32) :
    (mask n).getLsbD k = decide (k = n % 32) := by
  unfold mask
  rw [BitVec.getLsbD_shiftLeft, BitVec.getLsbD_one]
  simp only [h, decide_true, Bool.true_and]
  by_cases hk : k = n % 32
  · simp [hk]
  · by_cases hlt : k < n % 32
    · simp [hk, hlt]
    · simp [hk, hlt, Nat.sub_eq_zero_iff_le, show ¬ k ≤ n % 32 by omega]

theorem and_mask_eq_zero (w : BitVec 32) (n : Nat) :
    w &&& mask n = 0 ↔ w.getLsbD (n % 32) = false := by
  have hlt : n % 32 < 32 := Nat.mod_lt _ (by decide)
  constructor
  · intro h
    have hbit := congrArg (·.getLsbD (n % 32)) h
    simpa [BitVec.getLsbD_and, getLsbD_mask n hlt] using hbit
  · intro h
    apply BitVec.eq_of_getLsbD_eq
    intro k hk
    rw [BitVec.getLsbD_and, getLsbD_mask n hk]
    by_cases heq : k = n % 32
    · subst heq
      simp [h]
    · simp [heq]

theorem bit_set (h : n / 32 < words.length) (w : BitVec 32) (m : Nat) :
    bit (words.set (n / 32) w) m =
      if m / 32 = n / 32 then w.getLsbD (m % 32) else bit words m := by
  unfold bit word
  rw [List.getD_eq_getElem?_getD, List.getD_eq_getElem?_getD]
  by_cases heq : m / 32 = n / 32
  · rw [heq, List.getElem?_set_self h, if_pos rfl]
    rfl
  · rw [List.getElem?_set_ne (Ne.symm heq), if_neg heq]

theorem eq_of_div_mod (hdiv : m / 32 = n / 32) (hmod : m % 32 = n % 32) : m = n := by
  omega

theorem bit_or_mask (h : n / 32 < words.length) (m : Nat) :
    bit (words.set (n / 32) (word words n ||| mask n)) m = (bit words m || decide (m = n)) := by
  rw [bit_set h]
  split
  case isTrue hdiv =>
    have hword : word words n = word words m := by rw [word, word, hdiv]
    have heq : (m % 32 = n % 32) ↔ m = n :=
      ⟨eq_of_div_mod hdiv, fun h => by rw [h]⟩
    rw [BitVec.getLsbD_or, getLsbD_mask n (Nat.mod_lt _ (by decide)), hword, bit]
    simp only [heq]
  case isFalse hdiv =>
    have hne : m ≠ n := fun h => hdiv (by rw [h])
    simp [hne]

theorem bit_and_not_mask (h : n / 32 < words.length) (m : Nat) :
    bit (words.set (n / 32) (word words n &&& ~~~ mask n)) m =
      (bit words m && !decide (m = n)) := by
  have hlt : m % 32 < 32 := Nat.mod_lt _ (by decide)
  rw [bit_set h]
  split
  case isTrue hdiv =>
    have hword : word words n = word words m := by rw [word, word, hdiv]
    have heq : (m % 32 = n % 32) ↔ m = n :=
      ⟨eq_of_div_mod hdiv, fun h => by rw [h]⟩
    rw [BitVec.getLsbD_and, BitVec.getLsbD_not, getLsbD_mask n hlt, hword, bit]
    simp only [heq, hlt, decide_true, Bool.true_and]
  case isFalse hdiv =>
    have hne : m ≠ n := fun h => hdiv (by rw [h])
    simp [hne]

theorem bit_zeros (len n : Nat) : bit (List.replicate len 0) n = false := by
  unfold bit word
  rw [List.getD_eq_getElem?_getD, List.getElem?_replicate]
  split <;> simp

theorem ofBytes_toBytes (words : List (BitVec 32)) : ofBytes (toBytes words) = words := by
  induction words with
  | nil => rfl
  | cons w words ih =>
    have hlt : w.toNat < 256 ^ 4 := w.isLt
    have hlist : toLE 4 w.toNat = [UInt8.ofNat w.toNat, UInt8.ofNat (w.toNat / 256),
      UInt8.ofNat (w.toNat / 256 / 256), UInt8.ofNat (w.toNat / 256 / 256 / 256)] := rfl
    have hvalue := ofLE_toLE_of_lt hlt
    rw [hlist] at hvalue
    have hcons : toBytes (w :: words) = toLE 4 w.toNat ++ toBytes words := rfl
    rw [hcons, hlist, List.cons_append, List.cons_append, List.cons_append, List.cons_append,
      List.nil_append, ofBytes, ih, hvalue, BitVec.ofNat_toNat, BitVec.setWidth_eq]

theorem length_toBytes (words : List (BitVec 32)) : (toBytes words).length = 4 * words.length := by
  unfold toBytes
  rw [List.length_flatMap]
  simp [Nat.mul_comm]

theorem length_ofBytes : ∀ bytes : List UInt8, (ofBytes bytes).length = bytes.length / 4
  | a :: b :: c :: d :: rest => by
    rw [ofBytes, List.length_cons, length_ofBytes rest]
    simp only [List.length_cons]
    omega
  | [] => rfl
  | [_] => by simp [ofBytes]
  | [_, _] => by simp [ofBytes]
  | [_, _, _] => by simp [ofBytes]

end Kit.Bitmap
