import BouffaloSdk.Kit.Hex
import BouffaloSdk.Kit.Word
import Mathlib.Data.UInt

/-!
# The text core dump

`encoder_v2.c` and `coredump_print_n_k` of `coredump.c`. Memory is a function
of the 32-bit address; the console is the text printed. `init` is the static
flag of `coredump_print`.
-/

namespace BouffaloSdk.Coredump
open Kit Kit.Word

def coredumpStartStr : List Char :=
  "\r\n-+-+-+- BFLB COREDUMP v1.0.0 +-+-+-+\r\n\r\n".toList

/-- `printf("%02X", n)`. -/
def printf02X (n : Nat) : List Char :=
  let digits := (Nat.toDigits 16 n).map Char.toUpper
  if digits.length < 2 then '0' :: digits else digits

def maxLineLength : Nat := 100

def maxDataLength : Nat := maxLineLength / 2

/-- One turn of the loop: the record of `line` at `addr`. -/
def srecLine (line : List UInt8) (addr : Nat) : List Char :=
  let bytesToRead := line.length
  let addrBytes := (List.range 4).map fun i => UInt8.ofNat (addr / 2 ^ (8 * (3 - i)) % 256)
  let sum := line.sum + addrBytes.sum + UInt8.ofNat (bytesToRead + 4 + 1)
  ['S', '3'] ++ printf02X (bytesToRead + 4 + 1) ++ addrBytes.flatMap (fun b => printf02X b.toNat) ++
    line.flatMap (fun b => printf02X b.toNat) ++ printf02X (~~~sum).toNat ++ ['\r', '\n']

def srecEncode (mem : Nat → UInt8) (data dataLength addr : Nat) : List Char :=
  if dataLength > 0 then
    let bytesToRead := if dataLength > maxDataLength then maxDataLength else dataLength
    let line := (List.range bytesToRead).map fun i => mem (add32 data i)
    srecLine line addr ++
      srecEncode mem (add32 data bytesToRead) (dataLength - bytesToRead) (add32 addr bytesToRead)
  else []
  termination_by dataLength
  decreasing_by
    grind [maxDataLength, maxLineLength]

def coredumpPrint (mem : Nat → UInt8) (init : Bool) (addr lmaAddr len : Nat) : List Char × Bool :=
  ((if init then [] else coredumpStartStr ++ ['\n']) ++ srecEncode mem lmaAddr len addr, true)

def coredumpPrintSegNK : Nat := 1

/-- The loop from segment `seg` on. It has no result while it runs. -/
def coredumpPrintNKFrom (mem : Nat → UInt8) (addr lmaAddr len : Nat) :
    Nat → Bool → Nat → Option (List Char × Bool)
  | 0, _, _ => none
  | fuel + 1, init, seg =>
    let printedLen := mul32 seg (coredumpPrintSegNK * 1024)
    if printedLen < len then
      let (text, init) := coredumpPrint mem init (add32 addr printedLen) (add32 lmaAddr printedLen)
        (if sub32 len printedLen ≥ coredumpPrintSegNK * 1024 then coredumpPrintSegNK * 1024
         else sub32 len printedLen)
      (coredumpPrintNKFrom mem addr lmaAddr len fuel init (add32 seg 1)).map fun (rest, init) =>
        (text ++ rest, init)
    else some ([], init)

def coredumpPrintNK (mem : Nat → UInt8) (fuel : Nat) (init : Bool) (addr lmaAddr len : Nat) :
    Option (List Char × Bool) :=
  coredumpPrintNKFrom mem addr lmaAddr len fuel init 0

end BouffaloSdk.Coredump
