import Mathlib.Data.List.Basic

/-!
# Hexadecimal text

Bytes written as pairs of upper-case digits, high half first, and read back.
-/

namespace Kit.Hex

def digit (n : Nat) : Char := if n < 10 then Char.ofNat (48 + n) else Char.ofNat (55 + n)

def digitValue (c : Char) : Option Nat :=
  if '0' ≤ c ∧ c ≤ '9' then some (c.toNat - 48)
  else if 'A' ≤ c ∧ c ≤ 'F' then some (c.toNat - 55)
  else none

def byte (b : UInt8) : List Char := [digit (b.toNat / 16), digit (b.toNat % 16)]

def encode (bytes : List UInt8) : List Char := bytes.flatMap byte

def decode : List Char → Option (List UInt8)
  | [] => some []
  | [_] => none
  | high :: low :: rest =>
    (digitValue high).bind fun h => (digitValue low).bind fun l =>
      (decode rest).map (UInt8.ofNat (16 * h + l) :: ·)

/-- A lower-case digit, as `%x` prints it. -/
def lowerDigit (n : Nat) : Char := if n < 10 then Char.ofNat (48 + n) else Char.ofNat (87 + n)

/-- `%04x` of a 16-bit number. -/
def printf04x (n : UInt16) : List Char :=
  [lowerDigit (n.toNat / 4096), lowerDigit (n.toNat / 256 % 16), lowerDigit (n.toNat / 16 % 16),
    lowerDigit (n.toNat % 16)]

theorem digitValue_digit : ∀ n < 16, digitValue (digit n) = some n := by
  decide

theorem digit_ne_of_eol : ∀ n < 16, digit n ≠ '\r' ∧ digit n ≠ '\n' := by
  decide

theorem decode_byte_append (b : UInt8) (rest : List Char) :
    decode (byte b ++ rest) = (decode rest).map (b :: ·) := by
  have hb := b.toNat_lt
  have hvalue : UInt8.ofNat (16 * (b.toNat / 16) + b.toNat % 16) = b := by
    rw [Nat.div_add_mod]
    exact UInt8.ofNat_toNat
  simp only [byte, List.cons_append, List.nil_append, decode,
    digitValue_digit (b.toNat / 16) (by omega), digitValue_digit (b.toNat % 16) (by omega),
    Option.bind_some, hvalue]

theorem decode_encode (bytes : List UInt8) : decode (encode bytes) = some bytes := by
  induction bytes with
  | nil => rfl
  | cons b bytes ih =>
    have hcons : encode (b :: bytes) = byte b ++ encode bytes := rfl
    rw [hcons, decode_byte_append, ih, Option.map_some]

/-- Hexadecimal text stays on its line. -/
theorem ne_eol_of_mem_encode {bytes : List UInt8} {c : Char} (h : c ∈ encode bytes) :
    c ≠ '\r' ∧ c ≠ '\n' := by
  obtain ⟨b, -, hc⟩ := List.mem_flatMap.mp h
  have hb := b.toNat_lt
  simp only [byte, List.mem_cons, List.not_mem_nil, or_false] at hc
  rcases hc with rfl | rfl
  · exact digit_ne_of_eol _ (by omega)
  · exact digit_ne_of_eol _ (by omega)

theorem lowerDigit_inj : ∀ m < 16, ∀ n < 16, lowerDigit m = lowerDigit n → m = n := by
  decide

theorem lowerDigit_ne : ∀ n < 16, lowerDigit n ≠ '/' ∧ lowerDigit n ≠ '-' := by
  decide

theorem printf04x_injective : Function.Injective printf04x := by
  intro m n h
  have hm := m.toNat_lt
  have hn := n.toNat_lt
  simp only [printf04x, List.cons.injEq, and_true] at h
  obtain ⟨h₃, h₂, h₁, h₀⟩ := h
  have e₃ := lowerDigit_inj _ (by omega) _ (by omega) h₃
  have e₂ := lowerDigit_inj _ (by omega) _ (by omega) h₂
  have e₁ := lowerDigit_inj _ (by omega) _ (by omega) h₁
  have e₀ := lowerDigit_inj _ (by omega) _ (by omega) h₀
  exact UInt16.toNat_inj.mp (by omega)

theorem slash_notMem_printf04x (n : UInt16) : '/' ∉ printf04x n := by
  have hn := n.toNat_lt
  simp only [printf04x, List.mem_cons, List.not_mem_nil, or_false, not_or]
  exact ⟨(lowerDigit_ne _ (by omega)).1.symm, (lowerDigit_ne _ (by omega)).1.symm,
    (lowerDigit_ne _ (by omega)).1.symm, (lowerDigit_ne _ (by omega)).1.symm⟩

/-! ## Numbers of any length -/

/-- `%x` of a number. -/
def printfX (n : Nat) : List Char := Nat.toDigits 16 n

theorem digitChar_inj : ∀ m < 16, ∀ n < 16, m.digitChar = n.digitChar → m = n := by
  decide

theorem digitChar_ne : ∀ n < 16, n.digitChar ≠ '-' ∧ n.digitChar ≠ 'm' := by
  decide

theorem printfX_eq (n : Nat) : printfX n =
    if n < 16 then [n.digitChar] else printfX (n / 16) ++ [(n % 16).digitChar] :=
  Nat.toDigits_eq_if (by decide)

theorem printfX_ne_nil (n : Nat) : printfX n ≠ [] := Nat.toDigits_ne_nil

theorem printfX_injective : Function.Injective printfX := by
  intro m
  induction m using Nat.strongRecOn with
  | ind m ih =>
    intro n h
    rw [printfX_eq m, printfX_eq n] at h
    split at h <;> split at h
    case isTrue.isTrue hm hn => exact digitChar_inj m hm n hn (List.cons.inj h).1
    case isTrue.isFalse =>
      have hlen := congrArg List.length h
      have hpos := List.length_pos_of_ne_nil (printfX_ne_nil (n / 16))
      simp only [List.length_append, List.length_singleton] at hlen
      omega
    case isFalse.isTrue =>
      have hlen := congrArg List.length h
      have hpos := List.length_pos_of_ne_nil (printfX_ne_nil (m / 16))
      simp only [List.length_append, List.length_singleton] at hlen
      omega
    case isFalse.isFalse hm hn =>
      obtain ⟨hhigh, hlow⟩ := List.append_inj' h rfl
      have hdiv := ih (m / 16) (by omega) hhigh
      have hmod := digitChar_inj _ (Nat.mod_lt m (by decide)) _ (Nat.mod_lt n (by decide))
        (List.cons.inj hlow).1
      omega

theorem ne_of_mem_printfX (n : Nat) {c : Char} (h : c ∈ printfX n) : c ≠ '-' ∧ c ≠ 'm' := by
  induction n using Nat.strongRecOn with
  | ind n ih =>
    rw [printfX_eq] at h
    split at h
    case isTrue hn =>
      rw [List.mem_singleton.mp h]
      exact digitChar_ne n hn
    case isFalse hn =>
      cases List.mem_append.mp h with
      | inl hhigh => exact ih (n / 16) (by omega) hhigh
      | inr hlow =>
        rw [List.mem_singleton.mp hlow]
        exact digitChar_ne _ (Nat.mod_lt n (by decide))

end Kit.Hex
