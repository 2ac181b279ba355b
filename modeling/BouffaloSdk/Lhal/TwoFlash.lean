import Mathlib.Algebra.Order.Ring.Nat
import Mathlib.Data.Nat.ModEq

/-!
# Two flash chips behind one address range

`bflb_flash_erase`, `bflb_flash_write` and `bflb_flash_read` of
`drivers/lhal/src/bflb_flash.c` on a BL616 with a second flash. The addresses of the second
chip follow those of the first.
-/

namespace BouffaloSdk

inductive FlashBank
  | flash1
  | flash2
  deriving DecidableEq, Repr

inductive FlashOp
  | erase
  | write
  | read
  deriving DecidableEq, Repr

/-- Bytes of one chip that an operation is for, with their place in the caller's buffer. -/
structure FlashPart where
  bank : FlashBank
  op : FlashOp
  addr : Nat
  len : Nat
  data : Nat
  deriving DecidableEq, Repr

/-- `flash1_size` and `flash2_size`. -/
structure TwoFlash where
  flash1Size : BitVec 32
  flash2Size : BitVec 32
  deriving DecidableEq, Repr

namespace TwoFlash

def size (f : TwoFlash) : FlashBank → BitVec 32
  | .flash1 => f.flash1Size
  | .flash2 => f.flash2Size

/-- The part that a range of command addresses is. A chip looks only at the address bits that
its size has. -/
def part (f : TwoFlash) (bank : FlashBank) (op : FlashOp) (addr : BitVec 32) (len data : Nat) :
    List FlashPart :=
  if len = 0 then [] else [⟨bank, op, addr.toNat % (f.size bank).toNat, len, data⟩]

/-- `bflb_sflash_erase` on a chip, up to the last address; `stat` is what its commands come
to. -/
def sflashErase (f : TwoFlash) (stat : FlashBank → Int) (bank : FlashBank)
    (startAddr endAddr : BitVec 32) : Int × List FlashPart :=
  if endAddr < startAddr then (-1, [])
  else (stat bank, f.part bank .erase startAddr (endAddr.toNat - startAddr.toNat + 1) 0)

/-- `bflb_xip_sflash_erase_need_lock`. -/
def xipSflashErase (f : TwoFlash) (stat : FlashBank → Int) (bank : FlashBank)
    (startAddr len : BitVec 32) : Int × List FlashPart :=
  f.sflashErase stat bank startAddr (startAddr + len - 1)

/-- `bflb_sflash_program` and `bflb_sflash_read`, also under their `xip` names. -/
def sflashTransfer (f : TwoFlash) (stat : FlashBank → Int) (bank : FlashBank) (op : FlashOp)
    (addr : BitVec 32) (data : Nat) (len : BitVec 32) : Int × List FlashPart :=
  (stat bank, f.part bank op addr len.toNat data)

/-- The three cases of an operation: `low` for a range of the first chip, `high` for one of
the second, and `rest` for what is left of a range that began in the first. -/
def byBank (f : TwoFlash) (addr len : BitVec 32) (low : BitVec 32 → Int × List FlashPart)
    (high rest : Int × List FlashPart) : Int × List FlashPart :=
  if f.flash1Size + f.flash2Size < addr + len then (-12, [])
  else if addr + len ≤ f.flash1Size then low len
  else if f.flash1Size ≤ addr then high
  else
    let (stat, parts) := low (f.flash1Size - addr)
    if stat ≠ 0 then (stat, parts) else (rest.1, parts ++ rest.2)

def bflbFlashErase (f : TwoFlash) (stat : FlashBank → Int) (startaddr len : BitVec 32) :
    Int × List FlashPart :=
  f.byBank startaddr len (f.xipSflashErase stat .flash1 startaddr)
    (f.sflashErase stat .flash2 startaddr (startaddr + len - 1))
    (f.sflashErase stat .flash2 f.flash1Size (startaddr + len - f.flash1Size - 1))

/-- What `bflb_flash_write` and `bflb_flash_read` share. -/
def transfer (f : TwoFlash) (stat : FlashBank → Int) (op : FlashOp) (addr len : BitVec 32) :
    Int × List FlashPart :=
  f.byBank addr len (f.sflashTransfer stat .flash1 op addr 0)
    (f.sflashTransfer stat .flash2 op addr 0 len)
    (f.sflashTransfer stat .flash2 op f.flash1Size (f.flash1Size - addr).toNat
      (addr + len - f.flash1Size))

def bflbFlashWrite (f : TwoFlash) (stat : FlashBank → Int) (addr len : BitVec 32) :
    Int × List FlashPart :=
  f.transfer stat .write addr len

def bflbFlashRead (f : TwoFlash) (stat : FlashBank → Int) (addr len : BitVec 32) :
    Int × List FlashPart :=
  f.transfer stat .read addr len

def call (f : TwoFlash) (stat : FlashBank → Int) : FlashOp → BitVec 32 → BitVec 32 →
    Int × List FlashPart
  | .erase => f.bflbFlashErase stat
  | .write => f.bflbFlashWrite stat
  | .read => f.bflbFlashRead stat

/-! ## What the calls are for -/

/-- The parts of a range on the two chips, each in the addresses of its chip. -/
def split (f : TwoFlash) (op : FlashOp) (addr len : Nat) : List FlashPart :=
  let n := f.flash1Size.toNat
  let low := min (addr + len) n - addr
  let high := addr + len - max addr n
  (if low = 0 then [] else [⟨.flash1, op, addr, low, 0⟩]) ++
    if high = 0 then [] else
      [⟨.flash2, op, max addr n - n, high, if op = .erase then 0 else low⟩]

/-- The parts up to the first that fails. -/
def attempted (stat : FlashBank → Int) : List FlashPart → List FlashPart
  | [] => []
  | p :: parts => p :: if stat p.bank = 0 then attempted stat parts else []

/-- The range lies in the two chips. -/
def Within (f : TwoFlash) (addr len : Nat) : Prop :=
  addr + len ≤ f.flash1Size.toNat + f.flash2Size.toNat

instance (f : TwoFlash) (addr len : Nat) : Decidable (f.Within addr len) :=
  inferInstanceAs (Decidable (_ ≤ _))

/-- Whatever the chips return, the operation is done on the parts of the range and nowhere
else, and 0 means that the range is there and every part succeeded. -/
def SplitsRight (f : TwoFlash) (op : FlashOp) (addr len : BitVec 32) : Prop :=
  ∀ stat : FlashBank → Int,
    (f.call stat op addr len).2 =
      (if f.Within addr.toNat len.toNat then
        attempted stat (f.split op addr.toNat len.toNat) else []) ∧
    ((f.call stat op addr len).1 = 0 → f.Within addr.toNat len.toNat ∧
      ∀ p ∈ f.split op addr.toNat len.toNat, stat p.bank = 0)

/-- When that is so. A range that is not there has to be refused by the sum of 32 bits, or, by
an erase, for its last address before its first. A range that is there has to pass the sums,
and reaches the right bytes of the second chip where the size of that chip divides that of the
first; an erase across the border never does. -/
def Splittable (f : TwoFlash) (op : FlashOp) (addr len : BitVec 32) : Prop :=
  if f.Within addr.toNat len.toNat then
    if len = 0 then op = .erase → addr ≠ 0
    else
      addr.toNat + len.toNat < 2 ^ 32 ∧ addr + len ≤ f.flash1Size + f.flash2Size ∧
        (addr + len ≤ f.flash1Size ∨ f.flash2Size.toNat ∣ f.flash1Size.toNat ∧
          (op = .erase → f.flash1Size ≤ addr))
  else f.flash1Size + f.flash2Size < addr + len ∨ op = .erase ∧ addr + len ≠ 0

section Split
variable {f : TwoFlash} {op : FlashOp} {a n : Nat}

theorem split_empty (f : TwoFlash) (op : FlashOp) (a : Nat) : f.split op a 0 = [] := by
  unfold split
  dsimp only
  rw [if_pos (by omega), if_pos (by omega), List.append_nil]

theorem split_low (hn : n ≠ 0) (hlow : a + n ≤ f.flash1Size.toNat) :
    f.split op a n = [⟨.flash1, op, a, n, 0⟩] := by
  have hlen : min (a + n) f.flash1Size.toNat - a = n := by omega
  unfold split
  dsimp only
  rw [if_neg (by omega), if_pos (by omega), List.append_nil, hlen]

theorem split_high (hn : n ≠ 0) (hhigh : f.flash1Size.toNat ≤ a) :
    f.split op a n = [⟨.flash2, op, a - f.flash1Size.toNat, n, 0⟩] := by
  have hlow : min (a + n) f.flash1Size.toNat - a = 0 := by omega
  have hlen : a + n - max a f.flash1Size.toNat = n := by omega
  have hmax : max a f.flash1Size.toNat = a := by omega
  unfold split
  dsimp only
  rw [hlow, hlen, hmax, if_pos rfl, if_neg hn, ite_self, List.nil_append]

theorem split_cross (op : FlashOp) (hlow : a < f.flash1Size.toNat) (hhigh : f.flash1Size.toNat < a + n) :
    f.split op a n =
      [⟨.flash1, op, a, f.flash1Size.toNat - a, 0⟩,
        ⟨.flash2, op, 0, a + n - f.flash1Size.toNat,
          if op = .erase then 0 else f.flash1Size.toNat - a⟩] := by
  have hlen : min (a + n) f.flash1Size.toNat - a = f.flash1Size.toNat - a := by omega
  have hmax : max a f.flash1Size.toNat = f.flash1Size.toNat := by omega
  unfold split
  dsimp only
  rw [hlen, hmax, if_neg (by omega), if_neg (by omega), Nat.sub_self]
  rfl

end Split

/-- A chip finds a byte behind the first chip at the right place when its size divides that of
the first. -/
theorem mod_size_eq_iff {a n₁ : Nat} (n₂ : Nat) (hle : n₁ ≤ a) (hlt : a < n₁ + n₂) :
    a % n₂ = a - n₁ ↔ n₂ ∣ n₁ := by
  have hsub : (a - n₁) % n₂ = a - n₁ := Nat.mod_eq_of_lt (by omega)
  constructor
  · intro h
    have hmodEq : a ≡ a - n₁ [MOD n₂] := by
      unfold Nat.ModEq
      rw [hsub, h]
    have hdvd := (Nat.modEq_iff_dvd' (Nat.sub_le a n₁)).1 hmodEq.symm
    rwa [Nat.sub_sub_self hle] at hdvd
  · rintro ⟨k, rfl⟩
    have hback : a = a - n₂ * k + n₂ * k := by omega
    conv_lhs => rw [hback, Nat.add_mul_mod_self_left]
    exact hsub

theorem lt_or_le (a b : BitVec 32) : a < b ∨ b ≤ a := by
  rw [← BitVec.not_lt]
  exact Decidable.em (a < b)

section Calls
variable {f : TwoFlash} {stat : FlashBank → Int} {op : FlashOp} {addr len : BitVec 32}

theorem part_of_pos {bank : FlashBank} {n data : Nat} (hn : n ≠ 0) :
    f.part bank op addr n data =
      [⟨bank, op, addr.toNat % (f.size bank).toNat, n, data⟩] :=
  if_neg hn

theorem part_zero {bank : FlashBank} {data : Nat} : f.part bank op addr 0 data = [] :=
  if_pos rfl

/-- The bits of the sums that the calls make. -/
structure Sums (f : TwoFlash) (addr len : BitVec 32) : Prop where
  addr_lt : addr.toNat < 2 ^ 32
  len_lt : len.toNat < 2 ^ 32
  flash1_lt : f.flash1Size.toNat < 2 ^ 32
  flash2_lt : f.flash2Size.toNat < 2 ^ 32
  last : (addr + len).toNat = (addr.toNat + len.toNat) % 2 ^ 32
  total : (f.flash1Size + f.flash2Size).toNat =
    (f.flash1Size.toNat + f.flash2Size.toNat) % 2 ^ 32

theorem sums (f : TwoFlash) (addr len : BitVec 32) : Sums f addr len :=
  ⟨addr.isLt, len.isLt, f.flash1Size.isLt, f.flash2Size.isLt, BitVec.toNat_add _ _,
    BitVec.toNat_add _ _⟩

theorem byBank_refused {low high rest} (h : f.flash1Size + f.flash2Size < addr + len) :
    f.byBank addr len low high rest = (-12, []) :=
  if_pos h

theorem byBank_low {low high rest} (h : addr + len ≤ f.flash1Size + f.flash2Size)
    (hlow : addr + len ≤ f.flash1Size) : f.byBank addr len low high rest = low len := by
  rw [byBank, if_neg (BitVec.not_lt.2 h), if_pos hlow]

theorem byBank_high {low high rest} (h : addr + len ≤ f.flash1Size + f.flash2Size)
    (hlow : f.flash1Size < addr + len) (hhigh : f.flash1Size ≤ addr) :
    f.byBank addr len low high rest = high := by
  rw [byBank, if_neg (BitVec.not_lt.2 h), if_neg (BitVec.not_le.2 hlow), if_pos hhigh]

theorem byBank_cross {low high rest} (h : addr + len ≤ f.flash1Size + f.flash2Size)
    (hlow : f.flash1Size < addr + len) (hhigh : addr < f.flash1Size) :
    f.byBank addr len low high rest =
      if (low (f.flash1Size - addr)).1 ≠ 0 then low (f.flash1Size - addr)
      else (rest.1, (low (f.flash1Size - addr)).2 ++ rest.2) := by
  rw [byBank, if_neg (BitVec.not_lt.2 h), if_neg (BitVec.not_le.2 hlow),
    if_neg (BitVec.not_le.2 hhigh)]

/-- An erase whose last address is not before its first. -/
theorem sflashErase_of_le {bank : FlashBank} {startAddr endAddr : BitVec 32}
    (h : startAddr.toNat ≤ endAddr.toNat) :
    f.sflashErase stat bank startAddr endAddr =
      (stat bank, [⟨bank, .erase, startAddr.toNat % (f.size bank).toNat,
        endAddr.toNat - startAddr.toNat + 1, 0⟩]) := by
  rw [sflashErase, if_neg (by rw [BitVec.lt_def]; omega), part_of_pos (by omega)]

theorem sflashErase_of_lt {bank : FlashBank} {startAddr endAddr : BitVec 32}
    (h : endAddr.toNat < startAddr.toNat) :
    f.sflashErase stat bank startAddr endAddr = (-1, []) :=
  if_pos (BitVec.lt_def.2 h)

/-- The last address of an erase. -/
theorem toNat_end (startAddr len : BitVec 32) :
    (startAddr + len - 1).toNat = (startAddr.toNat + len.toNat + (2 ^ 32 - 1)) % 2 ^ 32 := by
  have hone : (1 : BitVec 32).toNat = 1 := rfl
  rw [BitVec.toNat_sub, BitVec.toNat_add, hone]
  omega

/-- A range of the first chip whose sum does not wrap. -/
theorem call_low (hlen : len.toNat ≠ 0) (hwrap : addr.toNat + len.toNat < 2 ^ 32)
    (htotal : addr + len ≤ f.flash1Size + f.flash2Size) (hlow : addr + len ≤ f.flash1Size) :
    f.call stat op addr len =
      (stat .flash1, [⟨.flash1, op, addr.toNat % f.flash1Size.toNat, len.toNat, 0⟩]) := by
  have hlast := toNat_end addr len
  cases op with
  | erase =>
    have hend : (addr + len - 1).toNat = addr.toNat + len.toNat - 1 := by omega
    show f.bflbFlashErase stat addr len = _
    rw [bflbFlashErase, byBank_low htotal hlow, xipSflashErase, sflashErase_of_le (by omega), hend]
    have hcount : addr.toNat + len.toNat - 1 - addr.toNat + 1 = len.toNat := by omega
    rw [hcount]
    rfl
  | write =>
    show f.transfer stat .write addr len = _
    rw [transfer, byBank_low htotal hlow, sflashTransfer, part_of_pos hlen]
    rfl
  | read =>
    show f.transfer stat .read addr len = _
    rw [transfer, byBank_low htotal hlow, sflashTransfer, part_of_pos hlen]
    rfl

/-- A range of the second chip whose sum does not wrap. -/
theorem call_high (hlen : len.toNat ≠ 0) (hwrap : addr.toNat + len.toNat < 2 ^ 32)
    (htotal : addr + len ≤ f.flash1Size + f.flash2Size) (hlow : f.flash1Size < addr + len)
    (hhigh : f.flash1Size ≤ addr) :
    f.call stat op addr len =
      (stat .flash2, [⟨.flash2, op, addr.toNat % f.flash2Size.toNat, len.toNat, 0⟩]) := by
  have hlast := toNat_end addr len
  cases op with
  | erase =>
    have hend : (addr + len - 1).toNat = addr.toNat + len.toNat - 1 := by omega
    show f.bflbFlashErase stat addr len = _
    rw [bflbFlashErase, byBank_high htotal hlow hhigh, sflashErase_of_le (by omega), hend]
    have hcount : addr.toNat + len.toNat - 1 - addr.toNat + 1 = len.toNat := by omega
    rw [hcount]
    rfl
  | write =>
    show f.transfer stat .write addr len = _
    rw [transfer, byBank_high htotal hlow hhigh, sflashTransfer, part_of_pos hlen]
    rfl
  | read =>
    show f.transfer stat .read addr len = _
    rw [transfer, byBank_high htotal hlow hhigh, sflashTransfer, part_of_pos hlen]
    rfl

/-- A transfer across the border. -/
theorem transfer_cross (hwrap : addr.toNat + len.toNat < 2 ^ 32)
    (htotal : addr + len ≤ f.flash1Size + f.flash2Size) (hlow : f.flash1Size < addr + len)
    (hhigh : addr < f.flash1Size) :
    f.transfer stat op addr len =
      let low : FlashPart := ⟨.flash1, op, addr.toNat % f.flash1Size.toNat,
        f.flash1Size.toNat - addr.toNat, 0⟩
      if stat .flash1 ≠ 0 then (stat .flash1, [low])
      else (stat .flash2, [low, ⟨.flash2, op, f.flash1Size.toNat % f.flash2Size.toNat,
        addr.toNat + len.toNat - f.flash1Size.toNat, f.flash1Size.toNat - addr.toNat⟩]) := by
  have hsums := sums f addr len
  have hlowNat := BitVec.lt_def.1 hlow
  have hhighNat := BitVec.lt_def.1 hhigh
  rw [hsums.last, Nat.mod_eq_of_lt hwrap] at hlowNat
  have hfirst : (f.flash1Size - addr).toNat = f.flash1Size.toNat - addr.toNat :=
    BitVec.toNat_sub_of_le (BitVec.le_def.2 (by omega))
  have hrest : (addr + len - f.flash1Size).toNat =
      addr.toNat + len.toNat - f.flash1Size.toNat := by
    rw [BitVec.toNat_sub_of_le (BitVec.le_of_lt hlow), hsums.last, Nat.mod_eq_of_lt hwrap]
  rw [transfer, byBank_cross htotal hlow hhigh]
  simp only [sflashTransfer]
  rw [hfirst, hrest, part_of_pos (by omega), part_of_pos (by omega)]
  rfl

/-- An erase across the border passes an end counted from the second chip with a start counted
from the first. -/
theorem erase_cross (hstat : ∀ bank, stat bank = 0) (hwrap : addr.toNat + len.toNat < 2 ^ 32)
    (htotal : addr + len ≤ f.flash1Size + f.flash2Size) (hlow : f.flash1Size < addr + len)
    (hhigh : addr < f.flash1Size) :
    ∀ p ∈ (f.bflbFlashErase stat addr len).2, p.bank = .flash2 →
      p.len ≠ addr.toNat + len.toNat - f.flash1Size.toNat := by
  have hsums := sums f addr len
  have hlowNat := BitVec.lt_def.1 hlow
  have hhighNat := BitVec.lt_def.1 hhigh
  rw [hsums.last, Nat.mod_eq_of_lt hwrap] at hlowNat
  have hfirst : (f.flash1Size - addr).toNat = f.flash1Size.toNat - addr.toNat :=
    BitVec.toNat_sub_of_le (BitVec.le_def.2 (by omega))
  have hone : (1 : BitVec 32).toNat = 1 := rfl
  have hlowEnd := toNat_end addr (f.flash1Size - addr)
  have hrest : (addr + len - f.flash1Size - 1).toNat =
      addr.toNat + len.toNat - f.flash1Size.toNat - 1 := by
    rw [BitVec.toNat_sub, BitVec.toNat_sub, hsums.last, hone]
    have := hsums.flash1_lt
    omega
  intro p hp hbank
  rw [bflbFlashErase, byBank_cross htotal hlow hhigh, xipSflashErase,
    sflashErase_of_le (by omega)] at hp
  simp only [hstat, ne_eq, not_true_eq_false, if_false, List.singleton_append,
    List.mem_cons] at hp
  rcases hp with rfl | hp
  · exact absurd hbank (by simp)
  rcases Nat.lt_or_ge (addr + len - f.flash1Size - 1).toNat f.flash1Size.toNat with hlt | hge
  · rw [sflashErase_of_lt hlt] at hp
    exact absurd hp List.not_mem_nil
  · rw [sflashErase_of_le hge, hrest] at hp
    rw [List.mem_singleton.1 hp]
    dsimp only
    omega

/-! ## When the split is right -/

theorem splitsRight_of_part {p : FlashPart} (hwithin : f.Within addr.toNat len.toNat)
    (hsplit : f.split op addr.toNat len.toNat = [p])
    (hcall : ∀ stat, f.call stat op addr len = (stat p.bank, [p])) :
    SplitsRight f op addr len := by
  intro stat
  rw [hcall stat, hsplit, if_pos hwithin]
  refine ⟨?_, fun hzero => ⟨hwithin, fun q hq => ?_⟩⟩
  · simp only [attempted, ite_self]
  · rw [List.mem_singleton.1 hq]
    exact hzero

/-- Right or not, a call that is asked for parts is asked for those of the range. -/
theorem parts_of_splitsRight (h : SplitsRight f op addr len)
    (hwithin : f.Within addr.toNat len.toNat) :
    (f.call (fun _ => 0) op addr len).2 = f.split op addr.toNat len.toNat := by
  have hattempted : ∀ parts, attempted (fun _ => 0) parts = parts := by
    intro parts
    induction parts with
    | nil => rfl
    | cons p parts ih => rw [attempted, if_pos rfl, ih]
  have hparts := (h fun _ => 0).1
  rwa [if_pos hwithin, hattempted] at hparts

/-- A range of the first chip. -/
theorem splitsRight_low (hlen : len.toNat ≠ 0) (hwrap : addr.toNat + len.toNat < 2 ^ 32)
    (hwithin : f.Within addr.toNat len.toNat)
    (htotal : addr + len ≤ f.flash1Size + f.flash2Size) (hlow : addr + len ≤ f.flash1Size) :
    SplitsRight f op addr len := by
  have hlowNat := BitVec.le_def.1 hlow
  rw [(sums f addr len).last, Nat.mod_eq_of_lt hwrap] at hlowNat
  refine splitsRight_of_part hwithin (split_low hlen hlowNat) fun stat => ?_
  rw [call_low hlen hwrap htotal hlow, Nat.mod_eq_of_lt (by omega)]

/-- A range of the second chip. -/
theorem splitsRight_high_iff (hlen : len.toNat ≠ 0) (hwrap : addr.toNat + len.toNat < 2 ^ 32)
    (hwithin : f.Within addr.toNat len.toNat)
    (htotal : addr + len ≤ f.flash1Size + f.flash2Size) (hlow : f.flash1Size < addr + len)
    (hhigh : f.flash1Size ≤ addr) :
    SplitsRight f op addr len ↔ f.flash2Size.toNat ∣ f.flash1Size.toNat := by
  have hhighNat := BitVec.le_def.1 hhigh
  have hwithinNat : addr.toNat + len.toNat ≤ f.flash1Size.toNat + f.flash2Size.toNat := hwithin
  have hplace := mod_size_eq_iff f.flash2Size.toNat hhighNat
    (show addr.toNat < _ by omega)
  constructor
  · intro h
    have hparts := parts_of_splitsRight h hwithin
    rw [call_high hlen hwrap htotal hlow hhigh, split_high hlen hhighNat] at hparts
    simp only [List.cons.injEq, FlashPart.mk.injEq, and_true, true_and] at hparts
    exact hplace.1 hparts
  · intro hdvd
    refine splitsRight_of_part hwithin (split_high hlen hhighNat) fun stat => ?_
    rw [call_high hlen hwrap htotal hlow hhigh, hplace.2 hdvd]

/-- A range across the border. -/
theorem splitsRight_cross_iff (hwrap : addr.toNat + len.toNat < 2 ^ 32)
    (hwithin : f.Within addr.toNat len.toNat)
    (htotal : addr + len ≤ f.flash1Size + f.flash2Size) (hlow : f.flash1Size < addr + len)
    (hhigh : addr < f.flash1Size) :
    SplitsRight f op addr len ↔
      f.flash2Size.toNat ∣ f.flash1Size.toNat ∧ op ≠ .erase := by
  have hlowNat := BitVec.lt_def.1 hlow
  have hhighNat := BitVec.lt_def.1 hhigh
  rw [(sums f addr len).last, Nat.mod_eq_of_lt hwrap] at hlowNat
  have hsplit := split_cross op hhighNat hlowNat
  by_cases herase : op = .erase
  · subst herase
    refine iff_of_false (fun h => ?_) fun h => h.2 rfl
    have hparts := parts_of_splitsRight h hwithin
    rw [hsplit] at hparts
    refine erase_cross (fun _ => rfl) hwrap htotal hlow hhigh _
      (hparts ▸ List.mem_cons_of_mem _ List.mem_cons_self) rfl rfl
  · have hcall : ∀ stat, f.call stat op addr len = f.transfer stat op addr len := by
      intro stat
      cases op with
      | erase => exact absurd rfl herase
      | write => rfl
      | read => rfl
    have hlowMod : addr.toNat % f.flash1Size.toNat = addr.toNat := Nat.mod_eq_of_lt hhighNat
    rw [if_neg herase] at hsplit
    constructor
    · intro h
      have hparts := parts_of_splitsRight h hwithin
      rw [hcall, transfer_cross hwrap htotal hlow hhigh, hsplit] at hparts
      simp only [ne_eq, not_true_eq_false, if_false, List.cons.injEq, FlashPart.mk.injEq,
        and_true, true_and] at hparts
      exact ⟨Nat.dvd_of_mod_eq_zero hparts.2, herase⟩
    · rintro ⟨hdvd, -⟩ stat
      rw [hcall, transfer_cross hwrap htotal hlow hhigh, hsplit, if_pos hwithin, hlowMod,
        Nat.mod_eq_zero_of_dvd hdvd]
      dsimp only
      by_cases hstat : stat .flash1 = 0
      · rw [if_neg (by simp [hstat])]
        refine ⟨by simp [attempted, hstat], fun hzero => ⟨hwithin, ?_⟩⟩
        intro p hp
        rcases List.mem_cons.1 hp with rfl | hp
        · exact hstat
        · rw [List.mem_singleton.1 hp]
          exact hzero
      · rw [if_pos hstat]
        exact ⟨by simp [attempted, hstat], fun hzero => absurd hzero hstat⟩

/-- A call that is asked for no part and returns no 0 is right for a range that is not
there. -/
theorem splitsRight_of_refused (hwithin : ¬ f.Within addr.toNat len.toNat) {code : Int}
    (hcode : code ≠ 0) (hcall : ∀ stat, f.call stat op addr len = (code, [])) :
    SplitsRight f op addr len := by
  intro stat
  rw [hcall stat, if_neg hwithin]
  exact ⟨rfl, fun hzero => absurd hzero hcode⟩

theorem call_refused (h : f.flash1Size + f.flash2Size < addr + len) :
    f.call stat op addr len = (-12, []) := by
  cases op with
  | erase => exact byBank_refused h
  | write => exact byBank_refused h
  | read => exact byBank_refused h

/-- An erase whose last address lies before its first. -/
theorem erase_backwards (htotal : addr + len ≤ f.flash1Size + f.flash2Size)
    (hcase : addr + len ≤ f.flash1Size ∨ f.flash1Size ≤ addr)
    (hend : (addr + len - 1).toNat < addr.toNat) :
    f.call stat .erase addr len = (-1, []) := by
  show f.bflbFlashErase stat addr len = _
  rw [bflbFlashErase]
  by_cases hlow : addr + len ≤ f.flash1Size
  · rw [byBank_low htotal hlow, xipSflashErase, sflashErase_of_lt hend]
  · rw [byBank_high htotal (BitVec.not_le.1 hlow) (hcase.resolve_left hlow), sflashErase_of_lt hend]

/-- An erase up to the last address there is. -/
theorem erase_all (hzero : addr + len = 0) :
    (f.call stat .erase addr len).2 ≠ [] ∧
      ∀ p ∈ (f.call stat .erase addr len).2, p.bank = .flash1 := by
  have htotal : addr + len ≤ f.flash1Size + f.flash2Size := by
    rw [hzero, BitVec.le_def]
    exact Nat.zero_le _
  have hlow : addr + len ≤ f.flash1Size := by
    rw [hzero, BitVec.le_def]
    exact Nat.zero_le _
  have hend : (addr + len - 1).toNat = 2 ^ 32 - 1 := by
    rw [hzero]
    rfl
  have hlt := addr.isLt
  show (f.bflbFlashErase stat addr len).2 ≠ [] ∧ ∀ p ∈ (f.bflbFlashErase stat addr len).2, _
  rw [bflbFlashErase, byBank_low htotal hlow, xipSflashErase, sflashErase_of_le (by omega)]
  refine ⟨List.cons_ne_nil _ _, fun p hp => ?_⟩
  rw [List.mem_singleton.1 hp]

theorem transfer_zero (hlen : len.toNat = 0) (htotal : addr + len ≤ f.flash1Size + f.flash2Size) :
    (f.transfer stat op addr len).2 = [] := by
  have hlast := (sums f addr len).last
  rw [hlen, Nat.add_zero, Nat.mod_eq_of_lt addr.isLt] at hlast
  rw [transfer]
  by_cases hlow : addr + len ≤ f.flash1Size
  · rw [byBank_low htotal hlow, sflashTransfer, hlen, part_zero]
  · have hhigh : f.flash1Size ≤ addr := by
      rw [BitVec.le_def] at hlow ⊢
      omega
    rw [byBank_high htotal (BitVec.not_le.1 hlow) hhigh, sflashTransfer, hlen, part_zero]

/-- A range that wraps around and passes the sums is taken for one of the first chip or of the
second, wherever it is. -/
theorem transfer_wrapped (hwrap : 2 ^ 32 ≤ addr.toNat + len.toNat)
    (htotal : addr + len ≤ f.flash1Size + f.flash2Size) :
    ∃ p, (f.transfer stat op addr len).2 = [p] ∧
      (p.bank = .flash1 ∨ f.flash1Size < addr + len) := by
  have hsums := sums f addr len
  have haddr := hsums.addr_lt
  rw [transfer]
  by_cases hlow : addr + len ≤ f.flash1Size
  · rw [byBank_low htotal hlow, sflashTransfer, part_of_pos (by have := hsums.len_lt; omega)]
    exact ⟨_, rfl, .inl rfl⟩
  · have hhigh : f.flash1Size ≤ addr := by
      have hlast := hsums.last
      have hlen := hsums.len_lt
      rw [BitVec.le_def] at hlow ⊢
      omega
    rw [byBank_high htotal (BitVec.not_le.1 hlow) hhigh, sflashTransfer,
      part_of_pos (by have := hsums.len_lt; omega)]
    exact ⟨_, rfl, .inr (BitVec.not_le.1 hlow)⟩

/-- An empty range. -/
theorem splitsRight_empty_iff (hlen : len = 0) (hwithin : f.Within addr.toNat len.toNat) :
    SplitsRight f op addr len ↔ (op = .erase → addr ≠ 0) := by
  have hzero : len.toNat = 0 := by rw [hlen]; rfl
  have hsum : addr + len = addr := by rw [hlen]; exact BitVec.add_zero addr
  have hsplit : f.split op addr.toNat len.toNat = [] := by rw [hzero, split_empty]
  have hright : (∀ stat, (f.call stat op addr len).2 = []) → SplitsRight f op addr len := by
    intro hnone stat
    rw [hnone stat, hsplit, if_pos hwithin]
    exact ⟨rfl, fun _ => ⟨hwithin, fun p hp => absurd hp List.not_mem_nil⟩⟩
  constructor
  · rintro h rfl haddr
    have hparts := parts_of_splitsRight h hwithin
    rw [hsplit] at hparts
    exact (erase_all (by rw [hsum, haddr])).1 hparts
  · intro h
    refine hright fun stat => ?_
    rcases lt_or_le (f.flash1Size + f.flash2Size) (addr + len) with hrefused | htotal
    · rw [call_refused hrefused]
    cases op with
    | erase =>
      have haddr : addr.toNat ≠ 0 := fun hnat => h rfl (BitVec.eq_of_toNat_eq hnat)
      have hlt := addr.isLt
      have hend := toNat_end addr len
      have hcase := (lt_or_le f.flash1Size addr).symm
      rw [erase_backwards htotal (by rw [hsum]; exact hcase.imp_right BitVec.le_of_lt) (by omega)]
    | write => exact transfer_zero hzero htotal
    | read => exact transfer_zero hzero htotal

/-- A range that is not there. -/
theorem splitsRight_absent_iff (hwithin : ¬ f.Within addr.toNat len.toNat) :
    SplitsRight f op addr len ↔
      f.flash1Size + f.flash2Size < addr + len ∨ op = .erase ∧ addr + len ≠ 0 := by
  have hsums := sums f addr len
  rcases lt_or_le (f.flash1Size + f.flash2Size) (addr + len) with hrefused | htotal
  · exact iff_of_true (splitsRight_of_refused hwithin (by decide) fun _ => call_refused hrefused)
      (.inl hrefused)
  have hwithinNat : f.flash1Size.toNat + f.flash2Size.toNat < addr.toNat + len.toNat :=
    Nat.not_le.1 hwithin
  have hwrap : 2 ^ 32 ≤ addr.toNat + len.toNat := by
    have htotalNat := BitVec.le_def.1 htotal
    rw [hsums.last, hsums.total] at htotalNat
    omega
  by_cases hback : op = .erase ∧ addr + len ≠ 0
  · refine iff_of_true ?_ (.inr hback)
    obtain ⟨rfl, hsum⟩ := hback
    have hlast := hsums.last
    have haddr := hsums.addr_lt
    have hlen := hsums.len_lt
    have hend := toNat_end addr len
    have hpos : (addr + len).toNat ≠ 0 := fun hnat => hsum (BitVec.eq_of_toNat_eq hnat)
    refine splitsRight_of_refused hwithin (by decide : (-1 : Int) ≠ 0) fun stat => ?_
    refine erase_backwards htotal ?_ (by omega)
    rcases (lt_or_le f.flash1Size (addr + len)).symm with hlow | hlow
    · exact .inl hlow
    · right
      rw [BitVec.lt_def] at hlow
      rw [BitVec.le_def]
      omega
  · refine iff_of_false (fun h => ?_) fun h => hback (h.resolve_left (BitVec.not_lt.2 htotal))
    have hparts := (h fun _ => 0).1
    rw [if_neg hwithin] at hparts
    cases op with
    | erase =>
      have hzero : addr + len = 0 := by
        by_contra hne
        exact hback ⟨rfl, hne⟩
      exact (erase_all hzero).1 hparts
    | write =>
      obtain ⟨p, hp, -⟩ := transfer_wrapped hwrap htotal
      exact absurd (hp.symm.trans hparts) (List.cons_ne_nil _ _)
    | read =>
      obtain ⟨p, hp, -⟩ := transfer_wrapped hwrap htotal
      exact absurd (hp.symm.trans hparts) (List.cons_ne_nil _ _)

/-- A range that is there and not refused must not wrap around. -/
theorem not_splitsRight_wrapped (hlen : len.toNat ≠ 0)
    (hwithin : f.Within addr.toNat len.toNat) (hwrap : 2 ^ 32 ≤ addr.toNat + len.toNat)
    (htotal : addr + len ≤ f.flash1Size + f.flash2Size) : ¬ SplitsRight f op addr len := by
  intro h
  have hsums := sums f addr len
  have hwithinNat : addr.toNat + len.toNat ≤ f.flash1Size.toNat + f.flash2Size.toNat := hwithin
  have hlow : addr + len ≤ f.flash1Size := by
    have htotalNat := BitVec.le_def.1 htotal
    rw [hsums.last, hsums.total] at htotalNat
    rw [BitVec.le_def, hsums.last]
    have := hsums.flash2_lt
    have := hsums.addr_lt
    have := hsums.len_lt
    omega
  have hparts := parts_of_splitsRight h hwithin
  -- the range reaches the second chip, and the call only asks the first
  have hsecond : ∃ p ∈ f.split op addr.toNat len.toNat, p.bank = .flash2 := by
    have hflash1 := hsums.flash1_lt
    rcases Nat.lt_or_ge addr.toNat f.flash1Size.toNat with hlt | hge
    · rw [split_cross _ hlt (by omega)]
      exact ⟨_, List.mem_cons_of_mem _ List.mem_cons_self, rfl⟩
    · rw [split_high hlen hge]
      exact ⟨_, List.mem_cons_self, rfl⟩
  obtain ⟨p, hp, hbank⟩ := hsecond
  rw [← hparts] at hp
  have hfirst : p.bank = .flash1 := by
    cases op with
    | erase =>
      by_cases hzero : addr + len = 0
      · exact (erase_all hzero).2 p hp
      · have hpos : (addr + len).toNat ≠ 0 := fun hnat => hzero (BitVec.eq_of_toNat_eq hnat)
        have hend := toNat_end addr len
        have hlast := hsums.last
        have haddr := hsums.addr_lt
        have hlt := hsums.len_lt
        rw [erase_backwards htotal (.inl hlow) (by omega)] at hp
        exact absurd hp List.not_mem_nil
    | write =>
      obtain ⟨q, hq, hcase⟩ := transfer_wrapped hwrap htotal
      have hpq : p = q := List.mem_singleton.1 (hq ▸ hp)
      exact hpq ▸ hcase.resolve_right (BitVec.not_lt.2 hlow)
    | read =>
      obtain ⟨q, hq, hcase⟩ := transfer_wrapped hwrap htotal
      have hpq : p = q := List.mem_singleton.1 (hq ▸ hp)
      exact hpq ▸ hcase.resolve_right (BitVec.not_lt.2 hlow)
  rw [hfirst] at hbank
  exact absurd hbank (by decide)

theorem not_splitsRight_refused (hlen : len.toNat ≠ 0)
    (hwithin : f.Within addr.toNat len.toNat)
    (hrefused : f.flash1Size + f.flash2Size < addr + len) : ¬ SplitsRight f op addr len := by
  intro h
  have hparts := parts_of_splitsRight h hwithin
  rw [call_refused hrefused] at hparts
  rcases Nat.lt_or_ge addr.toNat f.flash1Size.toNat with hlt | hge
  · rcases Nat.lt_or_ge f.flash1Size.toNat (addr.toNat + len.toNat) with hcross | hlow
    · rw [split_cross _ hlt hcross] at hparts
      exact absurd hparts (List.cons_ne_nil _ _).symm
    · rw [split_low hlen hlow] at hparts
      exact absurd hparts (List.cons_ne_nil _ _).symm
  · rw [split_high hlen hge] at hparts
    exact absurd hparts (List.cons_ne_nil _ _).symm

end Calls

end TwoFlash
end BouffaloSdk
