import Mathlib.Data.Nat.Bitwise

/-!
# The software CRCs of `bflb_common.c`

The CRC-32: reflected polynomial `0x04C11DB7`, one bit at a time, complemented before and
after. The CRC-16: reflected polynomial `0x8005`, one bit at a time where the code has tables.
-/

namespace BouffaloSdk

def crcBit (crc : Nat) : Nat :=
  if crc &&& 1 = 0 then crc >>> 1 else (crc >>> 1) ^^^ 0xEDB88320

def crcByte (crc : Nat) (data : UInt8) : Nat :=
  Nat.repeat crcBit 8 (crc ^^^ data.toNat)

def bflbSoftCrc32Ex (initial : Nat) (data : List UInt8) : Nat :=
  data.foldl crcByte (initial ^^^ 0xFFFFFFFF) ^^^ 0xFFFFFFFF

def bflbSoftCrc32 (data : List UInt8) : Nat := bflbSoftCrc32Ex 0 data

theorem crcBit_lt {crc : Nat} (h : crc < 2 ^ 32) : crcBit crc < 2 ^ 32 := by
  have hshift : crc >>> 1 < 2 ^ 32 := by
    rw [Nat.shiftRight_eq_div_pow]
    omega
  unfold crcBit
  split
  · exact hshift
  · exact Nat.xor_lt_two_pow hshift (by decide)

theorem crcByte_lt {crc : Nat} (data : UInt8) (h : crc < 2 ^ 32) : crcByte crc data < 2 ^ 32 := by
  have hdata : data.toNat < 2 ^ 32 := Nat.lt_trans data.toNat_lt (by decide)
  have hbits : ∀ n, Nat.repeat crcBit n (crc ^^^ data.toNat) < 2 ^ 32 := by
    intro n
    induction n with
    | zero => exact Nat.xor_lt_two_pow h hdata
    | succ n ih => exact crcBit_lt ih
  exact hbits 8

theorem bflbSoftCrc32Ex_lt {initial : Nat} (h : initial < 2 ^ 32) (data : List UInt8) :
    bflbSoftCrc32Ex initial data < 2 ^ 32 := by
  have hfold : ∀ crc < 2 ^ 32, data.foldl crcByte crc < 2 ^ 32 := by
    induction data with
    | nil => exact fun crc hcrc => hcrc
    | cons b bs ih => exact fun crc hcrc => ih _ (crcByte_lt b hcrc)
  exact Nat.xor_lt_two_pow (hfold _ (Nat.xor_lt_two_pow h (by decide))) (by decide)

theorem bflbSoftCrc32_lt (data : List UInt8) : bflbSoftCrc32 data < 2 ^ 32 :=
  bflbSoftCrc32Ex_lt (by decide) data

/-- The CRC of the nine digits, as every CRC-32 reference gives it. -/
example : bflbSoftCrc32 [0x31, 0x32, 0x33, 0x34, 0x35, 0x36, 0x37, 0x38, 0x39] = 0xCBF43926 := by
  decide +kernel

def crc16Bit (crc : Nat) : Nat :=
  if crc &&& 1 = 0 then crc >>> 1 else (crc >>> 1) ^^^ 0xA001

def bflbSoftCrc16 (data : List UInt8) : Nat :=
  data.foldl (fun crc b => Nat.repeat crc16Bit 8 (crc ^^^ b.toNat)) 0xFFFF

/-- The same digits under the CRC-16. -/
example : bflbSoftCrc16 [0x31, 0x32, 0x33, 0x34, 0x35, 0x36, 0x37, 0x38, 0x39] = 0x4B37 := by
  decide +kernel

end BouffaloSdk
