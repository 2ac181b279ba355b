import BouffaloSdk.Kit.Word
import Mathlib.Data.List.Basic

/-!
# Descriptor chains of a DMA channel

`drivers/lhal/src/bflb_dma.c` cuts each transfer into nodes of at most 4095 units and
links them in a pool of the caller's. The channel registers have the layout of a node, so
they are one. The pool is what lies in memory from its first entry on; its caller owns the
first `maxLliCount` entries.
-/

namespace BouffaloSdk
open Kit.Word

/-- A control word. `other` holds the bits that the driver copies as they are. -/
structure DmaLliControl where
  transferSize : BitVec 12
  sWidth : BitVec 2
  si : Bool
  di : Bool
  i : Bool
  other : BitVec 15
  deriving DecidableEq, Repr

structure DmaLli where
  srcAddr : BitVec 32
  dstAddr : BitVec 32
  nextlli : BitVec 32
  control : DmaLliControl
  deriving DecidableEq, Repr

structure DmaLliTransfer where
  srcAddr : BitVec 32
  dstAddr : BitVec 32
  nbytes : BitVec 32
  deriving DecidableEq, Repr

/-- `written` lists the pool entries that were stored to. -/
structure DmaPool where
  lli : Nat → DmaLli
  written : List Nat

structure DmaChannel where
  regs : DmaLli
  pool : DmaPool

inductive DmaError
  | unaligned
  | noMem
  deriving DecidableEq, Repr

namespace DmaPool

/-- The address of an entry of the pool at `base`. -/
def addr (base : BitVec 32) (k : Nat) : BitVec 32 := base + BitVec.ofNat 32 (16 * k)

def store (p : DmaPool) (k : Nat) (f : DmaLli → DmaLli) : DmaPool where
  lli := fun j => if j = k then f (p.lli k) else p.lli j
  written := p.written ++ [k]

@[simp] theorem store_written (p : DmaPool) (k : Nat) (f : DmaLli → DmaLli) :
    (p.store k f).written = p.written ++ [k] := rfl

theorem store_lli_self (p : DmaPool) (k : Nat) (f : DmaLli → DmaLli) :
    (p.store k f).lli k = f (p.lli k) := if_pos rfl

theorem store_lli_of_ne (p : DmaPool) {k j : Nat} (f : DmaLli → DmaLli) (h : j ≠ k) :
    (p.store k f).lli j = p.lli j := if_neg h

end DmaPool

namespace Dma

/-- The rounds of `bflb_dma_lli_config` from entry `i` of `&lli_pool[first]` on. -/
def lliConfigLoop (base : BitVec 32) (first lliCount : Nat) (transferOffset : BitVec 32)
    (lastTransferLen : Nat) :
    Nat → Nat → BitVec 32 → BitVec 32 → DmaLliControl → DmaPool → DmaPool
  | 0, _, _, _, _, p => p
  | left + 1, i, src, dst, ctrl, p =>
    let p := p.store (first + i) fun e => { e with srcAddr := src, dstAddr := dst, nextlli := 0 }
    let src := if ctrl.si then src + transferOffset else src
    let dst := if ctrl.di then dst + transferOffset else dst
    let ctrl :=
      if i + 1 = lliCount then
        { ctrl with transferSize := BitVec.ofNat 12 lastTransferLen, i := true }
      else ctrl
    let p :=
      if i = 0 then p
      else p.store (first + i - 1) fun e => { e with nextlli := DmaPool.addr base (first + i) }
    let p := p.store (first + i) fun e => { e with control := ctrl }
    lliConfigLoop base first lliCount transferOffset lastTransferLen left (i + 1) src dst ctrl p

/-- `bflb_dma_lli_config` on `&lli_pool[first]`; `ctrl` is what the control register holds. -/
def lliConfig (ctrl : DmaLliControl) (base : BitVec 32) (first lliCount : Nat)
    (src dst transferOffset : BitVec 32) (lastTransferLen : Nat) (p : DmaPool) : DmaPool :=
  lliConfigLoop base first lliCount transferOffset lastTransferLen lliCount 0 src dst
    { ctrl with transferSize := 4064, i := false } p

/-- `actual_transfer_offset` for a source width. -/
def actualTransferOffset (sWidth : BitVec 2) : BitVec 32 :=
  match sWidth with
  | 0 => 4064
  | 1 => 4064 <<< 1
  | 2 => 4064 <<< 2
  | _ => 0

/-- `actual_transfer_len`: the units of a transfer, none where the source returns -1. The
reserved width leaves the variable at its initial zero. -/
def actualTransferLen (sWidth : BitVec 2) (nbytes : BitVec 32) : Option Nat :=
  match sWidth with
  | 0 => some nbytes.toNat
  | 1 => if nbytes.toNat % 2 ≠ 0 then none else some (nbytes.toNat >>> 1)
  | 2 => if nbytes.toNat % 4 ≠ 0 then none else some (nbytes.toNat >>> 2)
  | _ => some 0

/-- `current_lli_count` and `last_transfer_len` for a transfer of so many units. -/
def lliCut (actualTransferLen : Nat) : Nat × Nat :=
  let currentLliCount := actualTransferLen / 4064 + 1
  let lastTransferLen := actualTransferLen % 4064
  if 1 < currentLliCount ∧ lastTransferLen < 4095 - 4064 then
    (currentLliCount - 1, lastTransferLen + 4064)
  else (currentLliCount, lastTransferLen)

/-- The loop of `bflb_dma_channel_lli_reload` over the transfers; `used` is
`lli_count_used_offset` and `isFirst` whether `i` is still zero. -/
def lliReloadLoop (ctrl : DmaLliControl) (base : BitVec 32) (maxLliCount : Nat) :
    Bool → Nat → List DmaLliTransfer → DmaPool → Except DmaError Nat × DmaPool
  | _, used, [], p => (.ok used, p)
  | isFirst, used, t :: transfers, p =>
    match actualTransferLen ctrl.sWidth t.nbytes with
    | none => (.error .unaligned, p)
    | some len =>
      let (currentLliCount, lastTransferLen) := lliCut len
      let p := lliConfig ctrl base used currentLliCount t.srcAddr t.dstAddr
        (actualTransferOffset ctrl.sWidth) lastTransferLen p
      let p :=
        if isFirst then p
        else p.store (used - 1) fun e => { e with nextlli := DmaPool.addr base used }
      let used := add32 used currentLliCount
      if maxLliCount < used then (.error .noMem, p)
      else lliReloadLoop ctrl base maxLliCount false used transfers p

/-- `bflb_dma_channel_lli_reload` on the pool at `base`. -/
def lliReload (base : BitVec 32) (maxLliCount : Nat) (transfers : List DmaLliTransfer)
    (c : DmaChannel) : Except DmaError Nat × DmaChannel :=
  match lliReloadLoop c.regs.control base maxLliCount true 0 transfers c.pool with
  | (.ok used, p) => (.ok used, { regs := p.lli 0, pool := p })
  | (.error e, p) => (.error e, { c with pool := p })

/-- `bflb_dma_channel_lli_link_head`. -/
def lliLinkHead (base : BitVec 32) (usedLliCount : Nat) (c : DmaChannel) : DmaChannel :=
  let p := c.pool.store (usedLliCount - 1) fun e => { e with nextlli := DmaPool.addr base 0 }
  { regs := { c.regs with nextlli := (p.lli 0).nextlli }, pool := p }

/-! ## The entries of one transfer -/

section LliConfig
variable (ctrl : DmaLliControl) (base : BitVec 32) (first lliCount : Nat)
variable (src dst transferOffset : BitVec 32) (lastTransferLen : Nat)

/-- Entry `i` of a cut transfer while its first `n` entries are filled. -/
def cutEntry (n i : Nat) : DmaLli where
  srcAddr := if ctrl.si then src + BitVec.ofNat 32 i * transferOffset else src
  dstAddr := if ctrl.di then dst + BitVec.ofNat 32 i * transferOffset else dst
  nextlli := if i + 1 < n then DmaPool.addr base (first + (i + 1)) else 0
  control :=
    if i + 1 = lliCount then
      { ctrl with transferSize := BitVec.ofNat 12 lastTransferLen, i := true }
    else { ctrl with transferSize := 4064, i := false }

/-- The pool after `n` rounds of `lliConfig`. -/
structure CutTo (p₀ : DmaPool) (n : Nat) (p : DmaPool) : Prop where
  inside : ∀ i < n,
    p.lli (first + i) = cutEntry ctrl base first lliCount src dst transferOffset lastTransferLen n i
  outside : ∀ k, k < first ∨ first + n ≤ k → p.lli k = p₀.lli k
  written : ∀ k, k ∈ p.written ↔ k ∈ p₀.written ∨ first ≤ k ∧ k < first + n

variable {ctrl base first lliCount src dst transferOffset lastTransferLen}

theorem cutTo_zero (p : DmaPool) :
    CutTo ctrl base first lliCount src dst transferOffset lastTransferLen p 0 p where
  inside i hi := absurd hi (Nat.not_lt_zero i)
  outside _ _ := rfl
  written k := by
    constructor
    · exact Or.inl
    · rintro (h | h)
      · exact h
      · omega

/-- One round stores entry `n` and links the entry before it. -/
theorem CutTo.step {p₀ p : DmaPool} {n : Nat}
    (h : CutTo ctrl base first lliCount src dst transferOffset lastTransferLen p₀ n p)
    {q : DmaPool}
    (hself : q.lli (first + n) =
      cutEntry ctrl base first lliCount src dst transferOffset lastTransferLen (n + 1) n)
    (hprev : ∀ i, i + 1 = n → q.lli (first + i) =
      { p.lli (first + i) with nextlli := DmaPool.addr base (first + n) })
    (hother : ∀ k, k ≠ first + n → k + 1 ≠ first + n ∨ n = 0 → q.lli k = p.lli k)
    (hwritten : ∀ k, k ∈ q.written ↔ k ∈ p.written ∨ k = first + n ∨ 0 < n ∧ k + 1 = first + n) :
    CutTo ctrl base first lliCount src dst transferOffset lastTransferLen p₀ (n + 1) q where
  inside i hi := by
    rcases Nat.lt_or_ge (i + 1) n with hlt | hge
    · rw [hother _ (by omega) (by omega), h.inside i (by omega)]
      simp [cutEntry, hlt, show i + 1 < n + 1 by omega]
    · rcases Nat.lt_or_ge i n with hin | hin
      · obtain rfl : i + 1 = n := by omega
        rw [hprev i rfl, h.inside i (by omega)]
        simp [cutEntry]
      · obtain rfl : i = n := by omega
        exact hself
  outside k hk := by
    rw [hother k (by omega) (by omega)]
    exact h.outside k (by omega)
  written k := by
    rw [hwritten k, h.written k]
    grind

/-- The stores of round `n`. -/
def lliConfigRound (base : BitVec 32) (first n : Nat) (src dst : BitVec 32) (ctrl : DmaLliControl)
    (p : DmaPool) : DmaPool :=
  let p := p.store (first + n) fun e => { e with srcAddr := src, dstAddr := dst, nextlli := 0 }
  let p :=
    if n = 0 then p
    else p.store (first + n - 1) fun e => { e with nextlli := DmaPool.addr base (first + n) }
  p.store (first + n) fun e => { e with control := ctrl }

theorem lliConfigRound_self (n : Nat) (p : DmaPool) :
    (lliConfigRound base first n src dst ctrl p).lli (first + n) = ⟨src, dst, 0, ctrl⟩ := by
  unfold lliConfigRound
  by_cases hn : n = 0
  · simp [hn, DmaPool.store_lli_self]
  · have hne : first + n ≠ first + n - 1 := by omega
    simp only [hn, if_false]
    rw [DmaPool.store_lli_self, DmaPool.store_lli_of_ne _ _ hne, DmaPool.store_lli_self]

theorem lliConfigRound_prev {n i : Nat} (p : DmaPool) (hi : i + 1 = n) :
    (lliConfigRound base first n src dst ctrl p).lli (first + i) =
      { p.lli (first + i) with nextlli := DmaPool.addr base (first + n) } := by
  unfold lliConfigRound
  have hne : first + i ≠ first + n := by omega
  have hprev : first + n - 1 = first + i := by omega
  rw [DmaPool.store_lli_of_ne _ _ hne, if_neg (by omega), hprev, DmaPool.store_lli_self,
    DmaPool.store_lli_of_ne _ _ hne]

theorem lliConfigRound_other {n k : Nat} (p : DmaPool) (hk : k ≠ first + n)
    (hprev : k + 1 ≠ first + n ∨ n = 0) :
    (lliConfigRound base first n src dst ctrl p).lli k = p.lli k := by
  unfold lliConfigRound
  rw [DmaPool.store_lli_of_ne _ _ hk]
  by_cases hn : n = 0
  · rw [if_pos hn, DmaPool.store_lli_of_ne _ _ hk]
  · rw [if_neg hn, DmaPool.store_lli_of_ne _ _ (by omega), DmaPool.store_lli_of_ne _ _ hk]

theorem lliConfigRound_written (n k : Nat) (p : DmaPool) :
    k ∈ (lliConfigRound base first n src dst ctrl p).written ↔
      k ∈ p.written ∨ k = first + n ∨ 0 < n ∧ k + 1 = first + n := by
  unfold lliConfigRound
  by_cases hn : n = 0
  · simp [hn]
  · simp only [hn, if_false, DmaPool.store_written, List.mem_append, List.mem_singleton]
    grind

theorem CutTo.round {p₀ p : DmaPool} {n : Nat}
    (h : CutTo ctrl base first lliCount src dst transferOffset lastTransferLen p₀ n p) :
    CutTo ctrl base first lliCount src dst transferOffset lastTransferLen p₀ (n + 1)
      (lliConfigRound base first n
        (if ctrl.si then src + BitVec.ofNat 32 n * transferOffset else src)
        (if ctrl.di then dst + BitVec.ofNat 32 n * transferOffset else dst)
        (if n + 1 = lliCount then
          { ctrl with transferSize := BitVec.ofNat 12 lastTransferLen, i := true }
        else { ctrl with transferSize := 4064, i := false }) p) := by
  apply h.step
  · rw [lliConfigRound_self]
    simp [cutEntry]
  · exact fun i hi => lliConfigRound_prev p hi
  · exact fun k hk hprev => lliConfigRound_other p hk hprev
  · exact fun k => lliConfigRound_written n k p

theorem lliConfigLoop_cutTo {p₀ p : DmaPool} {left n : Nat} (hn : n + left = lliCount)
    (h : CutTo ctrl base first lliCount src dst transferOffset lastTransferLen p₀ n p) :
    CutTo ctrl base first lliCount src dst transferOffset lastTransferLen p₀ lliCount
      (lliConfigLoop base first lliCount transferOffset lastTransferLen left n
        (if ctrl.si then src + BitVec.ofNat 32 n * transferOffset else src)
        (if ctrl.di then dst + BitVec.ofNat 32 n * transferOffset else dst)
        { ctrl with transferSize := 4064, i := false } p) := by
  induction left generalizing n p with
  | zero =>
    obtain rfl : n = lliCount := by omega
    exact h
  | succ left ih =>
    have hadd : ∀ (a : BitVec 32) (inc : Bool),
        (if inc then (if inc then a + BitVec.ofNat 32 n * transferOffset else a) + transferOffset
          else (if inc then a + BitVec.ofNat 32 n * transferOffset else a)) =
        if inc then a + BitVec.ofNat 32 (n + 1) * transferOffset else a := by
      intro a inc
      cases inc with
      | false => rfl
      | true =>
        simp only [if_true]
        rw [BitVec.ofNat_add, BitVec.add_mul, BitVec.one_mul, BitVec.add_assoc]
    have hround := h.round
    by_cases hlast : n + 1 = lliCount
    · -- the last round: whatever the loop holds afterwards is not used
      obtain rfl : left = 0 := by omega
      rw [if_pos hlast] at hround
      simp only [lliConfigLoop, hlast, if_true]
      exact hlast ▸ hround
    · rw [if_neg hlast] at hround
      have hrest := ih (by omega) hround
      rw [lliConfigLoop]
      simp only [hlast, if_false, hadd]
      exact hrest

/-- What `lliConfig` leaves: its entries linked in order, the last one marked. -/
theorem lliConfig_cutTo (p : DmaPool) :
    CutTo ctrl base first lliCount src dst transferOffset lastTransferLen p lliCount
      (lliConfig ctrl base first lliCount src dst transferOffset lastTransferLen p) := by
  have hstart : CutTo ctrl base first lliCount src dst transferOffset lastTransferLen p 0 p :=
    cutTo_zero p
  have h := lliConfigLoop_cutTo (Nat.zero_add lliCount) hstart
  simpa [lliConfig] using h

end LliConfig

end Dma
end BouffaloSdk
