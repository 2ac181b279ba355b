import BouffaloSdk.Lhal.BflbDma
import BouffaloSdk.Kit.Linked
import Mathlib.Algebra.BigOperators.Group.List.Basic
import Mathlib.Tactic.Ring

/-!
# What a reload of the descriptor pool leaves behind

A reload that succeeds leaves one chain through the pool whose nodes cover every transfer
from end to end. It looks for room only after it has stored the nodes of a transfer, so a
pool that is too small is overrun before that is reported.
-/

namespace BouffaloSdk
open Kit Kit.Word

namespace Dma

/-- The bytes of one transfer unit. -/
def unitBytes (sWidth : BitVec 2) : Nat := 2 ^ sWidth.toNat

theorem sWidth_cases (sWidth : BitVec 2) :
    sWidth = 0 ∨ sWidth = 1 ∨ sWidth = 2 ∨ sWidth = 3 := by
  revert sWidth
  decide

theorem actualTransferOffset_eq {sWidth : BitVec 2} (h : sWidth ≠ 3) :
    actualTransferOffset sWidth = BitVec.ofNat 32 (4064 * unitBytes sWidth) := by
  rcases sWidth_cases sWidth with rfl | rfl | rfl | rfl
  · rfl
  · rfl
  · rfl
  · exact absurd rfl h

theorem actualTransferLen_mul {sWidth : BitVec 2} {nbytes : BitVec 32} {len : Nat}
    (h : sWidth ≠ 3) (hlen : actualTransferLen sWidth nbytes = some len) :
    len * unitBytes sWidth = nbytes.toNat := by
  rcases sWidth_cases sWidth with rfl | rfl | rfl | rfl
  · simp [actualTransferLen] at hlen
    simp [unitBytes, hlen]
  · simp [actualTransferLen, Nat.shiftRight_eq_div_pow] at hlen
    simp [unitBytes]
    omega
  · simp [actualTransferLen, Nat.shiftRight_eq_div_pow] at hlen
    simp [unitBytes]
    omega
  · exact absurd rfl h

theorem actualTransferLen_lt {sWidth : BitVec 2} {nbytes : BitVec 32} {len : Nat}
    (hlen : actualTransferLen sWidth nbytes = some len) : len < 2 ^ 32 := by
  have hn := nbytes.isLt
  rcases sWidth_cases sWidth with rfl | rfl | rfl | rfl
  all_goals simp [actualTransferLen, Nat.shiftRight_eq_div_pow] at hlen
  all_goals omega

/-- How many nodes a transfer of so many units takes. -/
def lliNodes (units : Nat) : Nat := (units - 31) / 4064 + 1

theorem lliCut_count (len : Nat) : (lliCut len).1 = lliNodes len := by
  unfold lliCut lliNodes
  simp only
  split <;> simp only <;> omega

theorem lliCut_total (len : Nat) : ((lliCut len).1 - 1) * 4064 + (lliCut len).2 = len := by
  unfold lliCut
  simp only
  split <;> simp only <;> omega

theorem lliCut_last_le (len : Nat) : (lliCut len).2 ≤ 4094 := by
  unfold lliCut
  simp only
  split <;> simp only <;> omega

theorem lliCut_last_pos {len : Nat} (h : 0 < len) : 1 ≤ (lliCut len).2 := by
  unfold lliCut
  simp only
  split <;> simp only <;> omega

theorem lliNodes_pos (len : Nat) : 0 < lliNodes len := Nat.succ_pos _

/-! ## The chain -/

/-- The node at an address of the pool. -/
def nodeAt (base : BitVec 32) (lli : Nat → DmaLli) (a : BitVec 32) : DmaLli :=
  lli ((a - base).toNat / 16)

/-- Following `nextlli` from the first entry to a zero link visits exactly `nodes`. -/
def Visits (base : BitVec 32) (lli : Nat → DmaLli) (nodes : List DmaLli) : Prop :=
  ∃ addrs, Linked (fun a => (nodeAt base lli a).nextlli) 0 base addrs ∧
    addrs.map (nodeAt base lli) = nodes

/-- Units that the nodes move. -/
def unitsOf (nodes : List DmaLli) : Nat := (nodes.map fun e => e.control.transferSize.toNat).sum

theorem unitsOf_append (xs ys : List DmaLli) : unitsOf (xs ++ ys) = unitsOf xs + unitsOf ys := by
  rw [unitsOf, List.map_append, List.sum_append, unitsOf, unitsOf]

/-- The nodes carry out the transfer `t` with the width and increments of `ctrl`. -/
structure Tiles (ctrl : DmaLliControl) (t : DmaLliTransfer) (nodes : List DmaLli) : Prop where
  nonempty : nodes ≠ []
  sizes : ∀ e ∈ nodes, 1 ≤ e.control.transferSize.toNat ∧ e.control.transferSize.toNat ≤ 4095
  total : unitsOf nodes * unitBytes ctrl.sWidth = t.nbytes.toNat
  src : ∀ i e, nodes[i]? = some e → e.srcAddr =
    if ctrl.si then t.srcAddr + BitVec.ofNat 32 (unitsOf (nodes.take i) * unitBytes ctrl.sWidth)
    else t.srcAddr
  dst : ∀ i e, nodes[i]? = some e → e.dstAddr =
    if ctrl.di then t.dstAddr + BitVec.ofNat 32 (unitsOf (nodes.take i) * unitBytes ctrl.sWidth)
    else t.dstAddr
  interrupt : ∀ i e, nodes[i]? = some e → (e.control.i = true ↔ i + 1 = nodes.length)
  keeps : ∀ e ∈ nodes, ∃ size i, e.control = { ctrl with transferSize := size, i := i }

section Cut
variable {ctrl : DmaLliControl} {t : DmaLliTransfer} {lli : Nat → DmaLli} {first len : Nat}

/-- The entries from `first` on are those of `t`, up to their links. -/
def CutAt (ctrl : DmaLliControl) (t : DmaLliTransfer) (len first : Nat) (lli : Nat → DmaLli) :
    Prop :=
  ∀ i < lliNodes len, { lli (first + i) with nextlli := 0 } =
    cutEntry ctrl 0 first (lliNodes len) t.srcAddr t.dstAddr (actualTransferOffset ctrl.sWidth)
      (lliCut len).2 0 i

theorem CutAt.control (h : CutAt ctrl t len first lli) {i : Nat} (hi : i < lliNodes len) :
    (lli (first + i)).control =
      if i + 1 = lliNodes len then
        { ctrl with transferSize := BitVec.ofNat 12 (lliCut len).2, i := true }
      else { ctrl with transferSize := 4064, i := false } :=
  congrArg DmaLli.control (h i hi)

theorem CutAt.size (h : CutAt ctrl t len first lli) {i : Nat} (hi : i < lliNodes len) :
    (lli (first + i)).control.transferSize.toNat =
      if i + 1 = lliNodes len then (lliCut len).2 else 4064 := by
  rw [h.control hi]
  have hle := lliCut_last_le len
  split
  · rw [BitVec.toNat_ofNat, Nat.mod_eq_of_lt (by omega)]
  · rfl

theorem CutAt.size_pos (h : CutAt ctrl t len first lli) (hlen : 0 < len) {i : Nat}
    (hi : i < lliNodes len) : 1 ≤ (lli (first + i)).control.transferSize.toNat := by
  rw [h.size hi]
  have hlast := lliCut_last_pos hlen
  split <;> omega

theorem CutAt.unitsOf_take (h : CutAt ctrl t len first lli) {i : Nat} (hi : i < lliNodes len) :
    unitsOf (((List.range (lliNodes len)).map fun i => lli (first + i)).take i) = 4064 * i := by
  rw [← List.map_take, List.take_range, Nat.min_eq_left (Nat.le_of_lt hi), unitsOf, List.map_map]
  have hall : ∀ j ∈ List.range i,
      ((fun e : DmaLli => e.control.transferSize.toNat) ∘ fun i => lli (first + i)) j = 4064 := by
    intro j hj
    have hji := List.mem_range.mp hj
    rw [Function.comp_apply, h.size (by omega), if_neg (by omega)]
  rw [List.map_congr_left hall]
  simp [Nat.mul_comm]

theorem CutAt.units (h : CutAt ctrl t len first lli) :
    unitsOf ((List.range (lliNodes len)).map fun i => lli (first + i)) = len := by
  have hnodes := lliNodes_pos len
  obtain ⟨m, hm⟩ : ∃ m, lliNodes len = m + 1 := ⟨lliNodes len - 1, by omega⟩
  have htake := h.unitsOf_take (show m < lliNodes len by omega)
  have htotal := lliCut_total len
  rw [lliCut_count, hm, Nat.add_sub_cancel] at htotal
  rw [hm, ← List.map_take, List.take_range, Nat.min_eq_left (Nat.le_succ m)] at htake
  have hlast := h.size (show m < lliNodes len by omega)
  rw [if_pos hm.symm] at hlast
  rw [unitsOf, List.map_map] at htake
  rw [hm, unitsOf, List.range_succ, List.map_append, List.map_append, List.sum_append,
    List.map_map, htake]
  simp only [List.map_cons, List.map_nil, List.sum_cons, List.sum_nil, hlast]
  omega

/-- Address `a` advanced to entry `i`. -/
theorem advance_eq {a : BitVec 32} {i : Nat} (hwidth : ctrl.sWidth ≠ 3) :
    a + BitVec.ofNat 32 i * actualTransferOffset ctrl.sWidth =
      a + BitVec.ofNat 32 (4064 * i * unitBytes ctrl.sWidth) := by
  rw [actualTransferOffset_eq hwidth, ← BitVec.ofNat_mul]
  congr 2
  ring

theorem CutAt.tiles (h : CutAt ctrl t len first lli) (hwidth : ctrl.sWidth ≠ 3)
    (hlen : actualTransferLen ctrl.sWidth t.nbytes = some len) (hpos : t.nbytes ≠ 0) :
    Tiles ctrl t ((List.range (lliNodes len)).map fun i => lli (first + i)) := by
  have hbytes := actualTransferLen_mul hwidth hlen
  have hlen0 : 0 < len := by
    rcases Nat.eq_zero_or_pos len with rfl | hl
    · rw [Nat.zero_mul] at hbytes
      exact absurd (BitVec.eq_of_toNat_eq hbytes.symm) hpos
    · exact hl
  have hnodes := lliNodes_pos len
  have hget : ∀ i e, ((List.range (lliNodes len)).map fun i => lli (first + i))[i]? = some e →
      i < lliNodes len ∧ e = lli (first + i) := by
    intro i e he
    obtain ⟨hi, rfl⟩ := List.getElem?_eq_some_iff.mp he
    simp only [List.length_map, List.length_range] at hi
    exact ⟨hi, by simp⟩
  have hmem : ∀ e ∈ (List.range (lliNodes len)).map fun i => lli (first + i),
      ∃ i < lliNodes len, e = lli (first + i) := by
    intro e he
    obtain ⟨i, hi, rfl⟩ := List.mem_map.mp he
    exact ⟨i, List.mem_range.mp hi, rfl⟩
  constructor
  · intro hnil
    have hzero := congrArg List.length hnil
    simp only [List.length_map, List.length_range, List.length_nil] at hzero
    omega
  · intro e he
    obtain ⟨i, hi, rfl⟩ := hmem e he
    refine ⟨h.size_pos hlen0 hi, ?_⟩
    rw [h.size hi]
    have hle := lliCut_last_le len
    split <;> omega
  · rw [h.units]
    exact hbytes
  · intro i e he
    obtain ⟨hi, rfl⟩ := hget i e he
    rw [h.unitsOf_take hi, ← advance_eq hwidth]
    exact congrArg DmaLli.srcAddr (h i hi)
  · intro i e he
    obtain ⟨hi, rfl⟩ := hget i e he
    rw [h.unitsOf_take hi, ← advance_eq hwidth]
    exact congrArg DmaLli.dstAddr (h i hi)
  · intro i e he
    obtain ⟨hi, rfl⟩ := hget i e he
    rw [h.control hi, List.length_map, List.length_range]
    split
    · simp [*]
    · simp [*]
  · intro e he
    obtain ⟨i, hi, rfl⟩ := hmem e he
    rw [h.control hi]
    split
    · exact ⟨_, _, rfl⟩
    · exact ⟨_, _, rfl⟩

end Cut

/-! ## The loop over the transfers -/

section Loop
variable {ctrl : DmaLliControl} {base : BitVec 32} {maxLliCount used n : Nat}
variable {transfers : List DmaLliTransfer} {isFirst : Bool} {p q : DmaPool}

/-- The entries from `used` to `n` are those of the transfers in order. -/
def CutAll (ctrl : DmaLliControl) (lli : Nat → DmaLli) (n : Nat) : Nat → List DmaLliTransfer → Prop
  | used, [] => used = n
  | used, t :: transfers => ∃ len, actualTransferLen ctrl.sWidth t.nbytes = some len ∧
      CutAt ctrl t len used lli ∧ CutAll ctrl lli n (used + lliNodes len) transfers

/-- The first `n` entries form one chain. -/
def Chained (base : BitVec 32) (lli : Nat → DmaLli) (n : Nat) : Prop :=
  ∀ k < n, (lli k).nextlli = if k + 1 < n then DmaPool.addr base (k + 1) else 0

/-- The pool after the nodes of one transfer are stored and linked to those before. -/
def storeTransfer (ctrl : DmaLliControl) (base : BitVec 32) (isFirst : Bool) (used len : Nat)
    (t : DmaLliTransfer) (p : DmaPool) : DmaPool :=
  let p := lliConfig ctrl base used (lliCut len).1 t.srcAddr t.dstAddr
    (actualTransferOffset ctrl.sWidth) (lliCut len).2 p
  if isFirst then p
  else p.store (used - 1) fun e => { e with nextlli := DmaPool.addr base used }

theorem lliReloadLoop_cons {t : DmaLliTransfer} {len : Nat}
    (hlen : actualTransferLen ctrl.sWidth t.nbytes = some len) (hmax : maxLliCount < 2 ^ 31)
    (hused : used ≤ maxLliCount) :
    lliReloadLoop ctrl base maxLliCount isFirst used (t :: transfers) p =
      if maxLliCount < used + lliNodes len then
        (.error .noMem, storeTransfer ctrl base isFirst used len t p)
      else lliReloadLoop ctrl base maxLliCount false (used + lliNodes len) transfers
        (storeTransfer ctrl base isFirst used len t p) := by
  have hbound : lliNodes len < 2 ^ 31 := by
    have := actualTransferLen_lt hlen
    unfold lliNodes
    omega
  have hadd : add32 used (lliCut len).1 = used + lliNodes len := by
    rw [lliCut_count, add32_eq (by omega)]
  rw [lliReloadLoop, hlen]
  simp only [hadd, storeTransfer]

/-- What one transfer stores: its own entries, and the link to them. -/
structure Stored (ctrl : DmaLliControl) (base : BitVec 32) (used len : Nat) (t : DmaLliTransfer)
    (p q : DmaPool) : Prop where
  cut : CutAt ctrl t len used q.lli
  before : ∀ k < used, { q.lli k with nextlli := 0 } = { p.lli k with nextlli := 0 }
  links : ∀ k < used + lliNodes len, k + 1 ≠ used → (q.lli k).nextlli =
    if k < used then (p.lli k).nextlli
    else if k + 1 < used + lliNodes len then DmaPool.addr base (k + 1) else 0
  joined : ∀ k, k + 1 = used → (q.lli k).nextlli = DmaPool.addr base used
  written : ∀ k, k ∈ q.written ↔
    k ∈ p.written ∨ (used ≤ k ∧ k < used + lliNodes len) ∨ k + 1 = used

theorem storeTransfer_stored {t : DmaLliTransfer} {len : Nat} (hfirst : isFirst = true ↔ used = 0) :
    Stored ctrl base used len t p (storeTransfer ctrl base isFirst used len t p) := by
  have hcut : CutTo ctrl base used (lliNodes len) t.srcAddr t.dstAddr
      (actualTransferOffset ctrl.sWidth) (lliCut len).2 p (lliNodes len)
      (lliConfig ctrl base used (lliCut len).1 t.srcAddr t.dstAddr
        (actualTransferOffset ctrl.sWidth) (lliCut len).2 p) := by
    rw [lliCut_count]
    exact lliConfig_cutTo p
  unfold storeTransfer
  generalize lliConfig ctrl base used (lliCut len).1 t.srcAddr t.dstAddr
    (actualTransferOffset ctrl.sWidth) (lliCut len).2 p = q at hcut ⊢
  have hlink : ∀ k, used ≤ k → k < used + lliNodes len → (q.lli k).nextlli =
      if k + 1 < used + lliNodes len then DmaPool.addr base (k + 1) else 0 := by
    intro k hk hlt
    obtain ⟨i, rfl⟩ := Nat.exists_eq_add_of_le hk
    rw [hcut.inside i (by omega), Nat.add_assoc used i 1]
    simp only [cutEntry, Nat.add_lt_add_iff_left]
  have hentry : CutAt ctrl t len used q.lli := by
    intro i hi
    rw [hcut.inside i hi]
    simp [cutEntry]
  have hmem : ∀ k, k ∈ q.written ↔ k ∈ p.written ∨ used ≤ k ∧ k < used + lliNodes len :=
    hcut.written
  by_cases hzero : used = 0
  · rw [hfirst.mpr hzero, if_pos rfl]
    subst hzero
    exact {
      cut := hentry
      before := fun k hk => absurd hk (Nat.not_lt_zero k)
      links := by
        intro k hk _
        rw [if_neg (Nat.not_lt_zero k)]
        exact hlink k (Nat.zero_le k) hk
      joined := fun k hk => absurd hk (Nat.succ_ne_zero k)
      written := by
        intro k
        rw [hmem k]
        simp }
  · have hnot : isFirst = false := by
      rw [← Bool.not_eq_true, hfirst]
      exact hzero
    rw [hnot, if_neg (by simp)]
    constructor
    · intro i hi
      rw [DmaPool.store_lli_of_ne _ _ (by omega)]
      exact hentry i hi
    · intro k hk
      by_cases hlast : k = used - 1
      · rw [hlast, DmaPool.store_lli_self, hcut.outside _ (Or.inl (by omega))]
      · rw [DmaPool.store_lli_of_ne _ _ hlast, hcut.outside _ (Or.inl hk)]
    · intro k hk hlast
      rw [DmaPool.store_lli_of_ne _ _ (by omega)]
      split
      · rw [hcut.outside _ (Or.inl ‹_›)]
      · exact hlink k (by omega) hk
    · intro k hk
      obtain rfl : k = used - 1 := by omega
      rw [DmaPool.store_lli_self]
    · intro k
      rw [DmaPool.store_written, List.mem_append, List.mem_singleton, hmem k]
      grind

theorem Stored.chained {t : DmaLliTransfer} {len : Nat} (h : Stored ctrl base used len t p q)
    (hchain : Chained base p.lli used) : Chained base q.lli (used + lliNodes len) := by
  have hnodes := lliNodes_pos len
  intro k hk
  by_cases hlast : k + 1 = used
  · rw [h.joined k hlast, if_pos (by omega), hlast]
  · rw [h.links k hk hlast]
    split
    · rw [hchain k ‹_›, if_pos (by omega), if_pos (by omega)]
    · rfl

theorem CutAt.congr {t : DmaLliTransfer} {lli lli' : Nat → DmaLli} {first len : Nat}
    (h : CutAt ctrl t len first lli)
    (heq : ∀ k < first + lliNodes len,
      { lli' k with nextlli := 0 } = { lli k with nextlli := 0 }) : CutAt ctrl t len first lli' := by
  intro i hi
  rw [heq _ (by omega)]
  exact h i hi

theorem CutAll.le {lli : Nat → DmaLli} (h : CutAll ctrl lli n used transfers) : used ≤ n := by
  induction transfers generalizing used with
  | nil => exact Nat.le_of_eq h
  | cons t transfers ih =>
    obtain ⟨len, -, -, hrest⟩ := h
    have hle := ih hrest
    omega

/-- What a successful loop has stored from `used` on. -/
theorem lliReloadLoop_ok (hmax : maxLliCount < 2 ^ 31) (hused : used ≤ maxLliCount)
    (hfirst : isFirst = true ↔ used = 0) (hchain : Chained base p.lli used)
    (h : lliReloadLoop ctrl base maxLliCount isFirst used transfers p = (.ok n, q)) :
    CutAll ctrl q.lli n used transfers ∧ Chained base q.lli n ∧ used ≤ n ∧ n ≤ maxLliCount ∧
      ∀ k < used, { q.lli k with nextlli := 0 } = { p.lli k with nextlli := 0 } := by
  induction transfers generalizing isFirst used p with
  | nil =>
    cases h
    exact ⟨rfl, hchain, Nat.le_refl _, hused, fun k _ => rfl⟩
  | cons t transfers ih =>
    cases hlen : actualTransferLen ctrl.sWidth t.nbytes with
    | none => simp [lliReloadLoop, hlen] at h
    | some len =>
      rw [lliReloadLoop_cons hlen hmax hused] at h
      split at h
      · cases h
      have hstored : Stored ctrl base used len t p (storeTransfer ctrl base isFirst used len t p) :=
        storeTransfer_stored hfirst
      have hnodes := lliNodes_pos len
      obtain ⟨hall, hlinked, hle, hn, hkept⟩ :=
        ih (by omega) (by simp; omega) (hstored.chained hchain) h
      refine ⟨⟨len, hlen, hstored.cut.congr hkept, hall⟩, hlinked, by omega, hn, ?_⟩
      intro k hk
      rw [hkept k (by omega)]
      exact hstored.before k hk

theorem CutAll.tiles {lli : Nat → DmaLli} (h : CutAll ctrl lli n used transfers)
    (hwidth : ctrl.sWidth ≠ 3) (hpos : ∀ t ∈ transfers, t.nbytes ≠ 0) :
    ∃ groups, List.Forall₂ (Tiles ctrl) transfers groups ∧
      groups.flatten = (List.range' used (n - used)).map lli := by
  induction transfers generalizing used with
  | nil =>
    cases h
    exact ⟨[], List.Forall₂.nil, by simp⟩
  | cons t transfers ih =>
    obtain ⟨len, hlen, hcut, hrest⟩ := h
    obtain ⟨groups, htiles, hflat⟩ := ih hrest fun t ht => hpos t (List.mem_cons_of_mem _ ht)
    have hle := hrest.le
    refine ⟨_ :: groups, List.Forall₂.cons (hcut.tiles hwidth hlen (hpos t List.mem_cons_self)) htiles,
      ?_⟩
    have hsplit : n - used = lliNodes len + (n - (used + lliNodes len)) := by omega
    rw [List.flatten_cons, hflat, hsplit, ← List.range'_append_1, List.map_append]
    congr 1
    rw [List.range'_eq_map_range, List.map_map]
    rfl

theorem CutAll.bytes {lli : Nat → DmaLli} (h : CutAll ctrl lli n used transfers)
    (hwidth : ctrl.sWidth ≠ 3) :
    unitsOf ((List.range' used (n - used)).map lli) * unitBytes ctrl.sWidth =
      (transfers.map fun t => t.nbytes.toNat).sum := by
  induction transfers generalizing used with
  | nil =>
    cases h
    simp [unitsOf]
  | cons t transfers ih =>
    obtain ⟨len, hlen, hcut, hrest⟩ := h
    have hle := hrest.le
    have hsplit : n - used = lliNodes len + (n - (used + lliNodes len)) := by omega
    have hunits : unitsOf ((List.range' used (lliNodes len)).map lli) = len := by
      rw [List.range'_eq_map_range, List.map_map]
      exact hcut.units
    rw [hsplit, ← List.range'_append_1, List.map_append, unitsOf_append, hunits, Nat.add_mul,
      ih hrest, actualTransferLen_mul hwidth hlen, List.map_cons, List.sum_cons]

/-- Every node keeps the source width of the channel. -/
theorem CutAll.sWidth {lli : Nat → DmaLli} (h : CutAll ctrl lli n used transfers) {k : Nat}
    (hk : used ≤ k) (hn : k < n) : (lli k).control.sWidth = ctrl.sWidth := by
  induction transfers generalizing used with
  | nil =>
    cases h
    omega
  | cons t transfers ih =>
    obtain ⟨len, -, hcut, hrest⟩ := h
    rcases Nat.lt_or_ge k (used + lliNodes len) with hlt | hge
    · obtain ⟨i, rfl⟩ := Nat.exists_eq_add_of_le hk
      rw [hcut.control (by omega)]
      split <;> rfl
    · exact ih hrest hge

end Loop

theorem nodeAt_addr {base : BitVec 32} {lli : Nat → DmaLli} {k : Nat} (h : 16 * k < 2 ^ 32) :
    nodeAt base lli (DmaPool.addr base k) = lli k := by
  have hoff : (DmaPool.addr base k - base).toNat = 16 * k := by
    rw [DmaPool.addr, BitVec.add_comm, BitVec.add_sub_cancel, BitVec.toNat_ofNat,
      Nat.mod_eq_of_lt h]
  rw [nodeAt, hoff, Nat.mul_div_cancel_left k (by decide)]

theorem addr_ne_zero {base : BitVec 32} {k : Nat} (hbase : base ≠ 0)
    (h : base.toNat + 16 * k < 2 ^ 32) : DmaPool.addr base k ≠ 0 := by
  intro hzero
  have hnat := congrArg BitVec.toNat hzero
  rw [DmaPool.addr, BitVec.toNat_add, BitVec.toNat_ofNat, Nat.add_mod_mod,
    Nat.mod_eq_of_lt h] at hnat
  have hbase0 : base.toNat = 0 := by
    simp only [BitVec.ofNat_eq_ofNat, BitVec.toNat_ofNat, Nat.zero_mod] at hnat
    omega
  exact hbase (BitVec.eq_of_toNat_eq hbase0)

/-- A chain through the first entries of a pool that lies in memory. -/
theorem Chained.visits {base : BitVec 32} {lli : Nat → DmaLli} {n : Nat}
    (h : Chained base lli n) (hbase : base ≠ 0) (hmem : base.toNat + 16 * n ≤ 2 ^ 32)
    (hn : 0 < n) : Visits base lli ((List.range' 0 n).map lli) := by
  have hat : ∀ k < n, nodeAt base lli (DmaPool.addr base k) = lli k :=
    fun k hk => nodeAt_addr (by omega)
  refine ⟨(List.range' 0 n).map (DmaPool.addr base), ?_, ?_⟩
  · have hhead : DmaPool.addr base 0 = base := by
      simp [DmaPool.addr]
    have hlinked : Linked (fun a => (nodeAt base lli a).nextlli) 0 (DmaPool.addr base 0)
        ((List.range' 0 (n - 0)).map (DmaPool.addr base)) := by
      apply Linked.of_links
      · exact fun i hi => addr_ne_zero hbase (by omega)
      · intro i hi
        simp only [hat i (by omega), h i (by omega), hi, if_true]
      · simp only [hat (n - 1) (by omega), h (n - 1) (by omega)]
        rw [if_neg (by omega)]
      · exact hn
    rw [hhead] at hlinked
    exact hlinked
  · rw [List.map_map]
    refine List.map_congr_left fun k hk => ?_
    have hkn : k < n := by simpa using hk
    exact hat k hkn

/-- A reload that succeeds has run its loop to the end. -/
theorem lliReload_ok {base : BitVec 32} {maxLliCount n : Nat} {transfers : List DmaLliTransfer}
    {c d : DmaChannel} (hmax : maxLliCount < 2 ^ 31)
    (hret : lliReload base maxLliCount transfers c = (.ok n, d)) :
    CutAll c.regs.control d.pool.lli n 0 transfers ∧ Chained base d.pool.lli n ∧
      n ≤ maxLliCount ∧ d.regs = d.pool.lli 0 := by
  unfold lliReload at hret
  cases hloop : lliReloadLoop c.regs.control base maxLliCount true 0 transfers c.pool with
  | mk ret p =>
    rw [hloop] at hret
    cases ret with
    | error e => simp at hret
    | ok used =>
      obtain ⟨rfl, rfl⟩ : used = n ∧ (⟨p.lli 0, p⟩ : DmaChannel) = d := by simpa using hret
      have hempty : Chained base c.pool.lli 0 := fun k hk => absurd hk (Nat.not_lt_zero k)
      obtain ⟨hall, hchain, -, hle, -⟩ :=
        lliReloadLoop_ok hmax (Nat.zero_le _) (by simp) hempty hloop
      exact ⟨hall, hchain, hle, rfl⟩

theorem CutAll.pos {ctrl : DmaLliControl} {lli : Nat → DmaLli} {n used : Nat}
    {transfers : List DmaLliTransfer} (h : CutAll ctrl lli n used transfers)
    (hne : transfers ≠ []) : used < n := by
  cases transfers with
  | nil => exact absurd rfl hne
  | cons t transfers =>
    obtain ⟨len, -, -, hrest⟩ := h
    have := hrest.le
    have := lliNodes_pos len
    omega

/-- Whatever transfers a reload accepts, the chain from the first entry of the pool carries
them out one after another: each in full, in nodes the engine can take, with an interrupt
on its last one, and nothing after the last. -/
theorem lli_reload_tiles {base : BitVec 32} {maxLliCount n : Nat}
    {transfers : List DmaLliTransfer} {c d : DmaChannel} (hbase : base ≠ 0)
    (hmem : base.toNat + 16 * maxLliCount ≤ 2 ^ 32) (hwidth : c.regs.control.sWidth ≠ 3)
    (hpos : ∀ t ∈ transfers, t.nbytes ≠ 0)
    (hret : lliReload base maxLliCount transfers c = (.ok n, d)) :
    ∃ groups, List.Forall₂ (Tiles c.regs.control) transfers groups ∧ groups.flatten.length = n ∧
      (transfers ≠ [] → Visits base d.pool.lli groups.flatten ∧
        groups.flatten.head? = some d.regs) := by
  obtain ⟨hall, hchain, hle, hregs⟩ := lliReload_ok (by omega) hret
  obtain ⟨groups, htiles, hflat⟩ := hall.tiles hwidth hpos
  rw [Nat.sub_zero] at hflat
  refine ⟨groups, htiles, by rw [hflat]; simp, fun hne => ?_⟩
  have hn := hall.pos hne
  rw [hflat, hregs]
  refine ⟨hchain.visits hbase (by omega) hn, ?_⟩
  obtain ⟨m, rfl⟩ : ∃ m, n = m + 1 := ⟨n - 1, by omega⟩
  simp [List.range'_succ]

def idleChannel : DmaChannel where
  regs := ⟨0, 0, 0, ⟨0, 0, true, true, false, 0⟩⟩
  pool := ⟨fun _ => ⟨0, 0, 0, ⟨0, 0, false, false, false, 0⟩⟩, []⟩

theorem lli_reload_tiles_two :
    ∃ groups, List.Forall₂ (Tiles idleChannel.regs.control) [⟨0x1000, 0x8000, 8128⟩] groups ∧
      groups.flatten.length = 2 ∧
      ([⟨0x1000, 0x8000, 8128⟩] ≠ ([] : List DmaLliTransfer) →
        Visits 0x22020000
          (lliReload 0x22020000 4 [⟨0x1000, 0x8000, 8128⟩] idleChannel).2.pool.lli groups.flatten ∧
        groups.flatten.head? =
          some (lliReload 0x22020000 4 [⟨0x1000, 0x8000, 8128⟩] idleChannel).2.regs) := by
  have hret : lliReload 0x22020000 4 [⟨0x1000, 0x8000, 8128⟩] idleChannel =
      (.ok 2, (lliReload 0x22020000 4 [⟨0x1000, 0x8000, 8128⟩] idleChannel).2) :=
    Prod.ext (by decide +kernel) rfl
  exact lli_reload_tiles (by decide) (by decide) (by decide) (by decide) hret

/-! ## A pool that is too small -/

section Room
variable {ctrl : DmaLliControl} {base : BitVec 32} {maxLliCount used n : Nat}
variable {transfers : List DmaLliTransfer} {isFirst : Bool} {p : DmaPool}

/-- The nodes of the transfers before the first whose byte count the width does not divide. -/
def nodesNeeded (sWidth : BitVec 2) (transfers : List DmaLliTransfer) : Nat :=
  ((transfers.takeWhile fun t => (actualTransferLen sWidth t.nbytes).isSome).map
    fun t => lliNodes ((actualTransferLen sWidth t.nbytes).getD 0)).sum

theorem nodesNeeded_of_none {sWidth : BitVec 2} {t : DmaLliTransfer}
    (hlen : actualTransferLen sWidth t.nbytes = none) :
    nodesNeeded sWidth (t :: transfers) = 0 := by
  simp [nodesNeeded, hlen]

theorem nodesNeeded_of_some {sWidth : BitVec 2} {t : DmaLliTransfer} {len : Nat}
    (hlen : actualTransferLen sWidth t.nbytes = some len) :
    nodesNeeded sWidth (t :: transfers) = lliNodes len + nodesNeeded sWidth transfers := by
  simp [nodesNeeded, hlen]

theorem lliReloadLoop_fits (hmax : maxLliCount < 2 ^ 31)
    (hfirst : isFirst = true ↔ used = 0)
    (hfits : used + nodesNeeded ctrl.sWidth transfers ≤ maxLliCount) :
    (lliReloadLoop ctrl base maxLliCount isFirst used transfers p).1 ≠ .error .noMem ∧
      ∀ k ∈ (lliReloadLoop ctrl base maxLliCount isFirst used transfers p).2.written,
        k ∈ p.written ∨ k < maxLliCount := by
  induction transfers generalizing isFirst used p with
  | nil => exact ⟨by simp [lliReloadLoop], fun k hk => Or.inl hk⟩
  | cons t transfers ih =>
    cases hlen : actualTransferLen ctrl.sWidth t.nbytes with
    | none =>
      simp only [lliReloadLoop, hlen]
      exact ⟨by simp, fun k hk => Or.inl hk⟩
    | some len =>
      rw [nodesNeeded_of_some hlen] at hfits
      have hstored : Stored ctrl base used len t p (storeTransfer ctrl base isFirst used len t p) :=
        storeTransfer_stored hfirst
      have hnodes := lliNodes_pos len
      rw [lliReloadLoop_cons hlen hmax (by omega), if_neg (by omega)]
      have hnext : false = true ↔ used + lliNodes len = 0 := by
        simp
        omega
      obtain ⟨hret, hwritten⟩ := @ih (used + lliNodes len) false
        (storeTransfer ctrl base isFirst used len t p) hnext (by omega)
      refine ⟨hret, fun k hk => ?_⟩
      rcases hwritten k hk with hold | hlt
      · rcases (hstored.written k).mp hold with h | h | h
        · exact Or.inl h
        · exact Or.inr (by omega)
        · exact Or.inr (by omega)
      · exact Or.inr hlt

theorem lliReloadLoop_overruns (hmax : maxLliCount < 2 ^ 31) (hused : used ≤ maxLliCount)
    (hfirst : isFirst = true ↔ used = 0)
    (hover : maxLliCount < used + nodesNeeded ctrl.sWidth transfers) :
    ∃ k ∈ (lliReloadLoop ctrl base maxLliCount isFirst used transfers p).2.written,
      maxLliCount ≤ k := by
  induction transfers generalizing isFirst used p with
  | nil =>
    simp [nodesNeeded] at hover
    omega
  | cons t transfers ih =>
    cases hlen : actualTransferLen ctrl.sWidth t.nbytes with
    | none =>
      rw [nodesNeeded_of_none hlen] at hover
      omega
    | some len =>
      rw [nodesNeeded_of_some hlen] at hover
      have hstored : Stored ctrl base used len t p (storeTransfer ctrl base isFirst used len t p) :=
        storeTransfer_stored hfirst
      have hnodes := lliNodes_pos len
      rw [lliReloadLoop_cons hlen hmax hused]
      split
      · refine ⟨used + lliNodes len - 1, (hstored.written _).mpr (Or.inr (Or.inl ?_)), ?_⟩
        · omega
        · omega
      · exact ih (by omega) (by simp; omega) (by omega)

end Room

/-- The call stores to nothing past the pool, and one that finds no room leaves the
registers and the pool as they were. -/
def Contained (maxLliCount : Nat) (c : DmaChannel) (result : Except DmaError Nat × DmaChannel) :
    Prop :=
  (∀ k ∈ result.2.pool.written, k < maxLliCount) ∧
    (result.1 = .error .noMem → result.2.regs = c.regs ∧ result.2.pool.lli = c.pool.lli)

/-- A reload stays within its pool and undoes nothing exactly when the nodes of the
transfers it gets to fit. -/
theorem lli_reload_contained_iff (regs : DmaLli) (lli : Nat → DmaLli) (base : BitVec 32)
    (maxLliCount : Nat) (transfers : List DmaLliTransfer) (hmem : 16 * maxLliCount ≤ 2 ^ 32) :
    Contained maxLliCount ⟨regs, ⟨lli, []⟩⟩
        (lliReload base maxLliCount transfers ⟨regs, ⟨lli, []⟩⟩) ↔
      nodesNeeded regs.control.sWidth transfers ≤ maxLliCount := by
  have hmax : maxLliCount < 2 ^ 31 := by omega
  have hwritten : (lliReload base maxLliCount transfers ⟨regs, ⟨lli, []⟩⟩).2.pool =
      (lliReloadLoop regs.control base maxLliCount true 0 transfers ⟨lli, []⟩).2 := by
    unfold lliReload
    cases lliReloadLoop regs.control base maxLliCount true 0 transfers ⟨lli, []⟩ with
    | mk ret p => cases ret <;> rfl
  constructor
  · intro h
    by_contra hover
    have hbad : ∃ k ∈ (lliReloadLoop regs.control base maxLliCount true 0 transfers
        ⟨lli, []⟩).2.written, maxLliCount ≤ k :=
      lliReloadLoop_overruns hmax (Nat.zero_le _) (by simp) (by omega)
    obtain ⟨k, hk, hle⟩ := hbad
    have := h.1 k (hwritten ▸ hk)
    omega
  · intro hfits
    have hgood : (lliReloadLoop regs.control base maxLliCount true 0 transfers
          ⟨lli, []⟩).1 ≠ .error .noMem ∧
        ∀ k ∈ (lliReloadLoop regs.control base maxLliCount true 0 transfers ⟨lli, []⟩).2.written,
          k ∈ (⟨lli, []⟩ : DmaPool).written ∨ k < maxLliCount :=
      lliReloadLoop_fits hmax (by simp) (by omega)
    obtain ⟨hret, hin⟩ := hgood
    constructor
    · intro k hk
      rw [hwritten] at hk
      exact (hin k hk).resolve_left List.not_mem_nil
    · intro herr
      refine absurd ?_ hret
      unfold lliReload at herr
      cases hloop : lliReloadLoop regs.control base maxLliCount true 0 transfers ⟨lli, []⟩ with
      | mk ret p =>
        rw [hloop] at herr
        cases ret with
        | ok used => simp at herr
        | error e => exact herr

theorem lli_reload_contained_iff_two :
    Contained 2 ⟨idleChannel.regs, ⟨idleChannel.pool.lli, []⟩⟩
        (lliReload 0x22020000 2 [⟨0x1000, 0x8000, 8128⟩]
          ⟨idleChannel.regs, ⟨idleChannel.pool.lli, []⟩⟩) ↔
      nodesNeeded idleChannel.regs.control.sWidth [⟨0x1000, 0x8000, 8128⟩] ≤ 2 :=
  lli_reload_contained_iff _ _ _ 2 _ (by decide)

/-- Two nodes in a pool of one: the second is stored past its end. -/
theorem lli_reload_overruns : ¬ Contained 1 idleChannel
    (lliReload 0x22020000 1 [⟨0x1000, 0x8000, 8128⟩] idleChannel) := by
  intro h
  exact absurd (h.1 1 (by decide +kernel)) (by decide)

end Dma
end BouffaloSdk
