import BouffaloSdk.HostRouter.SdiowifiTxBuf
import BouffaloSdk.Kit.Runs
import Mathlib.Data.List.Nodup
import Mathlib.Data.List.Perm.Subperm
import Mathlib.Data.List.Range

/-!
# The accounts of the transmit buffers

How the list, the counters and the critical section fit together over whole
runs, with the buffers that the network stack has.
-/

namespace BouffaloSdk.SdiowifiTxBuf
open Kit Kit.Word Kit.Runs

/-- The buffers with those handed out, the number of frees since they were set
up, and the memory that contexts were placed in, by address and size. -/
structure Device where
  tb : TxBuf
  out : List Nat
  frees : Nat
  blocks : List (Nat × Nat)

inductive TxOp
  | init
  | lpmemRegister
  | memRegister (mem size : Nat) (malloc : Option Nat)
  | alloc
  | free (tp : Nat)

/-- What `pvPortMalloc` returns lies in the address space and off all that is
in use. -/
def Fresh (blocks : List (Nat × Nat)) (ctx n : Nat) : Prop :=
  (0 < ctx ∧ ctx + n ≤ 2 ^ 32) ∧ ∀ b ∈ blocks, ctx + n ≤ b.1 ∨ b.1 + b.2 ≤ ctx

instance (blocks : List (Nat × Nat)) (ctx n : Nat) : Decidable (Fresh blocks ctx n) :=
  inferInstanceAs (Decidable (_ ∧ _))

variable (c : Config)

/-- One call; only a buffer that was handed out is freed. -/
def txStep (w : Device) : TxOp → Option Device
  | .init => some { w with tb := w.tb.init, frees := 0 }
  | .lpmemRegister => some { w with tb := w.tb.lpmemRegister c }
  | .memRegister mem size none => some { w with tb := (w.tb.memRegister c mem size none).1 }
  | .memRegister mem size (some ctx) =>
    if Fresh w.blocks ctx (TxBuf.mallocSize c mem size) then
      some { w with
        tb := (w.tb.memRegister c mem size (some ctx)).1
        blocks := (ctx, TxBuf.mallocSize c mem size) :: w.blocks }
    else none
  | .alloc =>
    some { w with tb := (w.tb.alloc c).1, out := (w.tb.alloc c).2.toList ++ w.out }
  | .free tp =>
    if tp ∈ w.out then
      some { w with tb := w.tb.free tp, out := w.out.erase tp, frees := w.frees + 1 }
    else none

/-- The counters are those of the list, of the buffers handed out and of the
frees. -/
structure Accounted (w : Device) : Prop where
  free_size : ∃ l, Linked w.tb.next 0 w.tb.first l ∧ w.tb.freeSize = l.length
  window_size : w.tb.freeSize + w.out.length = w.tb.windowSize
  una_seq : w.tb.unaSeq = w.frees

/-- The accounts are right, and the call left what it entered. -/
def KeepsAccounts (w : Device) (_ : TxOp) (t : Device) : Prop :=
  Accounted t ∧ t.tb.critical = w.tb.critical

def lpContext (i : Nat) : Nat := c.txpbufContext + c.txPbufSize * i

/-- Buffers are set up only when the window is just what is handed out, and
registered only while none is handed out: the static ones when none of them is
in the list, others with room for one and a context for it. The frees since
the setup stay below the range of the counter. -/
def Registers (w : Device) (op : TxOp) (_ : Device) : Prop :=
  match op with
  | .init => w.tb.windowSize = w.out.length
  | .lpmemRegister => w.out = [] ∧
      ∃ l, Linked w.tb.next 0 w.tb.first l ∧ ∀ i < c.normalBufferCount, lpContext c i ∉ l
  | .memRegister mem size malloc =>
      mem = 0 ∨ (w.out = [] ∧ TxBuf.txCount c mem size ≠ 0 ∧ malloc ≠ none)
  | .alloc => True
  | .free _ => w.frees + 1 < 2 ^ 32

variable {c} {tb : TxBuf} {l : List Nat} {hdr : Nat} {w t : Device} {op : TxOp}

/-! ## The list -/

/-- The list holds `l`. -/
structure Listed (tb : TxBuf) (l : List Nat) : Prop where
  linked : Linked tb.next 0 tb.first l
  last : ∀ b ∈ l.getLast?, tb.last = b

theorem Listed.pushBack (h : Listed tb l) (hnodup : l.Nodup) (hpos : hdr ≠ 0) (hnew : hdr ∉ l) :
    Listed (tb.pushBack hdr) (l ++ [hdr]) := by
  refine ⟨?_, fun b hb => ?_⟩
  · rcases List.eq_nil_or_concat l with rfl | ⟨front, b, rfl⟩
    · have hfirst : tb.first = 0 := h.linked
      unfold TxBuf.pushBack
      rw [if_pos hfirst, if_pos hfirst]
      exact Linked.linked_singleton hpos
    · have hfirst : tb.first ≠ 0 := by
        intro hzero
        have hnil := h.linked
        rw [hzero] at hnil
        exact absurd hnil.eq_nil (by simp)
      have hlast : tb.last = b := h.last b (by simp)
      unfold TxBuf.pushBack
      rw [if_neg hfirst, if_neg hfirst, hlast]
      have hlinked := h.linked
      rw [List.concat_eq_append] at hlinked hnodup hnew ⊢
      exact hlinked.pushBack hnodup hpos hnew
  · rw [List.getLast?_append, List.getLast?_singleton, Option.some_or] at hb
    exact Option.some.inj hb

theorem Listed.popFront_nil (h : Listed tb []) : tb.popFront = (tb, 0) := by
  have hfirst : tb.first = 0 := h.linked
  unfold TxBuf.popFront
  rw [if_pos hfirst]

theorem Listed.popFront_cons {a : Nat} (h : Listed tb (a :: l)) :
    tb.popFront = ({ tb with first := tb.next a }, a) ∧ a ≠ 0 ∧
      Listed { tb with first := tb.next a } l := by
  obtain ⟨hfirst, hne, hrest⟩ := h.linked
  refine ⟨?_, hne, hrest, fun b hb => h.last b ?_⟩
  · unfold TxBuf.popFront
    rw [hfirst, if_neg hne]
  · cases l with
    | nil => cases hb
    | cons a' l => rwa [List.getLast?_cons_cons]

/-- What both registrations do, once they have memory. -/
def TxBuf.registered (c : Config) (tb : TxBuf) (ctx p n : Nat) : TxBuf :=
  let tb := tb.enterCritical.registerAll c ctx p n
  { tb with windowSize := tb.freeSize }.exitCritical.updateCredit

/-- What registration leaves alone. -/
structure SameFrame (a b : TxBuf) : Prop where
  window : b.windowSize = a.windowSize
  una : b.unaSeq = a.unaSeq
  critical : b.critical = a.critical

/-- New contexts that follow each other join the list in order. -/
theorem Listed.registerAll (h : Listed tb l) (hfree : tb.freeSize = l.length) {ctx n : Nat}
    (p : Nat) (hpos : 0 < ctx)
    (hnodup : (l ++ (List.range n).map (fun i => ctx + c.txPbufSize * i)).Nodup)
    (hlen : l.length + n < 2 ^ 32) :
    Listed (tb.registerAll c ctx p n) (l ++ (List.range n).map fun i => ctx + c.txPbufSize * i) ∧
      (tb.registerAll c ctx p n).freeSize = l.length + n ∧
      SameFrame tb (tb.registerAll c ctx p n) := by
  induction n with
  | zero => simpa [TxBuf.registerAll] using ⟨h, hfree, ⟨rfl, rfl, rfl⟩⟩
  | succ n ih =>
    rw [List.range_succ, List.map_append, List.map_singleton, ← List.append_assoc] at hnodup ⊢
    obtain ⟨hfront, -, hnew⟩ := List.nodup_append.mp hnodup
    obtain ⟨hlisted, hsize, hframe⟩ := ih hfront (by omega)
    have hstep : tb.registerAll c ctx p (n + 1) =
        (tb.registerAll c ctx p n).register (ctx + c.txPbufSize * n) (p + c.payloadSize * n) := by
      unfold TxBuf.registerAll
      rw [List.range_succ, List.foldl_append, List.foldl_cons, List.foldl_nil]
    have hout : ctx + c.txPbufSize * n ∉ l ++ (List.range n).map fun i => ctx + c.txPbufSize * i :=
      fun hmem => hnew _ hmem _ List.mem_cons_self rfl
    rw [hstep]
    refine ⟨?_, ?_, ⟨hframe.window, hframe.una, hframe.critical⟩⟩
    · have hpayload : Listed { tb.registerAll c ctx p n with
          payloadBuf := Function.update (tb.registerAll c ctx p n).payloadBuf
            (ctx + c.txPbufSize * n) (p + c.payloadSize * n) } _ :=
        ⟨hlisted.linked, hlisted.last⟩
      have hpushed := hpayload.pushBack hfront (by omega) hout
      exact ⟨hpushed.linked, hpushed.last⟩
    · change add32 (tb.registerAll c ctx p n).freeSize 1 = _
      rw [hsize, add32_eq (by omega), Nat.add_assoc]

/-! ## The accounts -/

/-- `l` is the list, of buffers in known memory, apart from those handed out. -/
structure Holds (c : Config) (w : Device) (l : List Nat) : Prop where
  listed : Listed w.tb l
  nodup : (l ++ w.out).Nodup
  inside : ∀ p ∈ l ++ w.out, ∃ b ∈ w.blocks, b.1 ≤ p ∧ p < b.1 + b.2
  blocks : ∀ b ∈ w.blocks, 0 < b.1 ∧ b.1 + b.2 ≤ 2 ^ 32
  static : (c.txpbufContext, c.normalBufferCount * c.txPbufSize) ∈ w.blocks
  free : w.tb.freeSize = l.length
  window : w.tb.windowSize = l.length + w.out.length
  una : w.tb.unaSeq = w.frees

theorem Holds.accounted (h : Holds c w l) : Accounted w :=
  ⟨⟨l, h.listed.linked, h.free⟩, by rw [h.free, h.window], h.una⟩

/-- There are fewer addresses than a 32-bit counter can count. -/
theorem length_lt {ps : List Nat} (hnodup : ps.Nodup) (hps : ∀ p ∈ ps, 0 < p ∧ p < 2 ^ 32) :
    ps.length < 2 ^ 32 := by
  have hsub : ps ⊆ List.range' 1 (2 ^ 32 - 1) := by
    intro p hp
    have hbounds := hps p hp
    exact List.mem_range'_1.mpr ⟨hbounds.1, by omega⟩
  have hlen := (hnodup.subperm hsub).length_le
  rw [List.length_range'] at hlen
  omega

theorem Holds.addresses (h : Holds c w l) : ∀ p ∈ l ++ w.out, 0 < p ∧ p < 2 ^ 32 := by
  intro p hp
  obtain ⟨b, hb, hlow, hhigh⟩ := h.inside p hp
  have hbounds := h.blocks b hb
  omega

/-- New contexts in memory that has none of the buffers join the list. -/
theorem Holds.registered (h : Holds c w l) (hout : w.out = []) {ctx n : Nat} (p : Nat)
    {blocks : List (Nat × Nat)} (hblocks : ∀ b ∈ blocks, 0 < b.1 ∧ b.1 + b.2 ≤ 2 ^ 32)
    (hmore : w.blocks ⊆ blocks) (hblock : (ctx, n * c.txPbufSize) ∈ blocks)
    (hnew : ∀ i < n, ctx + c.txPbufSize * i ∉ l) :
    KeepsAccounts w op { w with tb := w.tb.registered c ctx p n, blocks := blocks } ∧
      ∃ l', Holds c { w with tb := w.tb.registered c ctx p n, blocks := blocks } l' := by
  have hsize := c.size_pos
  have hctx := hblocks _ hblock
  have hplace : ∀ i < n, ctx + c.txPbufSize * i < ctx + n * c.txPbufSize := by
    intro i hi
    have hlt := Nat.mul_lt_mul_of_pos_right hi hsize
    rw [Nat.mul_comm c.txPbufSize i]
    omega
  have hnodup : (l ++ (List.range n).map (fun i => ctx + c.txPbufSize * i)).Nodup := by
    have hl : l.Nodup := by
      have hboth := h.nodup
      rwa [hout, List.append_nil] at hboth
    have hinj : Function.Injective fun i => ctx + c.txPbufSize * i :=
      fun i j hij => Nat.eq_of_mul_eq_mul_left hsize (Nat.add_left_cancel hij)
    refine List.nodup_append.mpr ⟨hl, List.Nodup.map hinj List.nodup_range, ?_⟩
    · intro a ha b hb hab
      obtain ⟨i, hi, hib⟩ := List.mem_map.mp hb
      exact hnew i (List.mem_range.mp hi) (by rw [hib, ← hab]; exact ha)
  have haddresses : ∀ q ∈ l ++ (List.range n).map (fun i => ctx + c.txPbufSize * i),
      ∃ b ∈ blocks, b.1 ≤ q ∧ q < b.1 + b.2 := by
    intro q hq
    rcases List.mem_append.mp hq with hold | hfresh
    · obtain ⟨b, hb, hin⟩ := h.inside q (List.mem_append_left _ hold)
      exact ⟨b, hmore hb, hin⟩
    · obtain ⟨i, hi, rfl⟩ := List.mem_map.mp hfresh
      exact ⟨_, hblock, Nat.le_add_right _ _, hplace i (List.mem_range.mp hi)⟩
  have hlen : l.length + n < 2 ^ 32 := by
    have hlt := length_lt hnodup (by
      intro q hq
      obtain ⟨b, hb, hlow, hhigh⟩ := haddresses q hq
      have hbounds := hblocks b hb
      omega)
    simpa using hlt
  have hentered : Listed w.tb.enterCritical l := ⟨h.listed.linked, h.listed.last⟩
  obtain ⟨hlisted, hfree, hframe⟩ := hentered.registerAll h.free p hctx.1 hnodup hlen
  have hcount : (w.tb.registered c ctx p n).freeSize =
      (l ++ (List.range n).map fun i => ctx + c.txPbufSize * i).length := by
    refine hfree.trans ?_
    simp
  have hholds : Holds c { w with tb := w.tb.registered c ctx p n, blocks := blocks }
      (l ++ (List.range n).map fun i => ctx + c.txPbufSize * i) := by
    refine ⟨⟨hlisted.linked, hlisted.last⟩, ?_, ?_, hblocks, hmore h.static, hcount, ?_, ?_⟩
    · rw [hout, List.append_nil]
      exact hnodup
    · rw [hout, List.append_nil]
      exact haddresses
    · rw [hout, List.length_nil, Nat.add_zero]
      exact hcount
    · exact hframe.una.trans h.una
  have hcritical : (w.tb.registered c ctx p n).critical = w.tb.critical := by
    change (w.tb.enterCritical.registerAll c ctx p n).critical - 1 = w.tb.critical
    rw [hframe.critical]
    change w.tb.critical + 1 - 1 = w.tb.critical
    omega
  exact ⟨⟨hholds.accounted, hcritical⟩, _, hholds⟩

/-! ## One call -/

theorem init_keeps (h : Holds c w l) (hwindow : w.tb.windowSize = w.out.length) :
    KeepsAccounts w .init { w with tb := w.tb.init, frees := 0 } ∧
      ∃ l', Holds c { w with tb := w.tb.init, frees := 0 } l' := by
  have hholds : Holds c { w with tb := w.tb.init, frees := 0 } [] := by
    refine ⟨⟨rfl, fun b hb => by cases hb⟩, ?_, ?_, h.blocks, h.static, rfl, ?_, rfl⟩
    · exact (List.nodup_append.mp h.nodup).2.1
    · intro p hp
      exact h.inside p (List.mem_append_right _ hp)
    · change w.tb.windowSize = _
      simpa using hwindow
  exact ⟨⟨hholds.accounted, rfl⟩, [], hholds⟩

theorem lpmemRegister_keeps (h : Holds c w l) (hout : w.out = [])
    (hnew : ∃ l, Linked w.tb.next 0 w.tb.first l ∧ ∀ i < c.normalBufferCount, lpContext c i ∉ l) :
    KeepsAccounts w .lpmemRegister { w with tb := w.tb.lpmemRegister c } ∧
      ∃ l', Holds c { w with tb := w.tb.lpmemRegister c } l' := by
  obtain ⟨l', hl', hnew⟩ := hnew
  obtain rfl := hl'.unique h.listed.linked
  exact h.registered hout _ h.blocks (List.Subset.refl _) h.static hnew

/-- Memory that is fresh has none of the buffers. -/
theorem Holds.notMem_of_fresh (h : Holds c w l) {ctx n : Nat} (hfresh : Fresh w.blocks ctx n)
    {q : Nat} (hlow : ctx ≤ q) (hhigh : q < ctx + n) : q ∉ l := by
  intro hq
  obtain ⟨b, hb, hin⟩ := h.inside q (List.mem_append_left _ hq)
  have hapart := hfresh.2 b hb
  omega

theorem Holds.more (h : Holds c w l) {b : Nat × Nat} (hb : 0 < b.1 ∧ b.1 + b.2 ≤ 2 ^ 32) :
    Holds c { w with blocks := b :: w.blocks } l := by
  refine ⟨h.listed, h.nodup, ?_, ?_, List.mem_cons_of_mem _ h.static, h.free, h.window, h.una⟩
  · intro p hp
    obtain ⟨b', hb', hin⟩ := h.inside p hp
    exact ⟨b', List.mem_cons_of_mem _ hb', hin⟩
  · intro b' hb'
    rcases List.mem_cons.mp hb' with rfl | hold
    · exact hb
    · exact h.blocks b' hold

theorem memRegister_zero {malloc : Option Nat} (size : Nat) :
    (tb.memRegister c 0 size malloc).1 = tb := by
  unfold TxBuf.memRegister
  rw [if_pos rfl]

theorem mallocSize_eq (c : Config) (mem size : Nat) :
    TxBuf.mallocSize c mem size = TxBuf.txCount c mem size * c.txPbufSize := by
  have hpayload : txPbufFrameLen ≤ c.payloadSize := by
    unfold Config.payloadSize Config.payloadLen txPbufFrameLen
    omega
  have hcount : TxBuf.txCount c mem size * c.payloadSize < 2 ^ 32 := by
    refine Nat.lt_of_le_of_lt (Nat.div_mul_le_self _ _) ?_
    unfold sub32
    split
    · exact Nat.mod_lt _ (by decide)
    · exact Nat.mod_lt _ (by decide)
  refine mul32_eq (Nat.lt_of_le_of_lt ?_ hcount)
  exact Nat.mul_le_mul_left _ (Nat.le_trans c.size_le hpayload)

theorem memRegister_keeps (h : Holds c w l) (hout : w.out = []) {mem size ctx : Nat}
    (hcount : TxBuf.txCount c mem size ≠ 0) (hmem : mem ≠ 0)
    (hfresh : Fresh w.blocks ctx (TxBuf.mallocSize c mem size)) :
    KeepsAccounts w op { w with
        tb := (w.tb.memRegister c mem size (some ctx)).1
        blocks := (ctx, TxBuf.mallocSize c mem size) :: w.blocks } ∧
      ∃ l', Holds c { w with
        tb := (w.tb.memRegister c mem size (some ctx)).1
        blocks := (ctx, TxBuf.mallocSize c mem size) :: w.blocks } l' := by
  have hregistered : (w.tb.memRegister c mem size (some ctx)).1 =
      w.tb.registered c ctx (alignPtrHigh mem) (TxBuf.txCount c mem size) := by
    unfold TxBuf.memRegister
    rw [if_neg hmem, if_neg hcount]
    rfl
  rw [mallocSize_eq] at hfresh ⊢
  rw [hregistered]
  refine h.registered hout _ ?_ (List.subset_cons_self _ _) List.mem_cons_self ?_
  · intro b hb
    rcases List.mem_cons.mp hb with rfl | hold
    · exact hfresh.1
    · exact h.blocks b hold
  · intro i hi
    refine h.notMem_of_fresh hfresh (Nat.le_add_right _ _) ?_
    have hlt := Nat.mul_lt_mul_of_pos_right hi c.size_pos
    rw [Nat.mul_comm c.txPbufSize i]
    omega

/-- `alloc` on an empty list. -/
theorem alloc_nil (h : Listed tb []) :
    tb.alloc c = (tb.enterCritical.exitCritical.notifyTxBufStatus, none) := by
  have hentered : Listed tb.enterCritical [] := ⟨h.linked, h.last⟩
  unfold TxBuf.alloc
  rw [hentered.popFront_nil]
  rfl

theorem pbufAllocedCustom_eq (c : Config) (tp : Nat) : TxBuf.pbufAllocedCustom c tp = some tp := by
  have haligned := c.headroom_aligned
  unfold TxBuf.pbufAllocedCustom Config.payloadLen
  rw [if_neg (by omega)]

theorem alloc_cons {a : Nat} (h : Listed tb (a :: l)) :
    tb.alloc c =
      ({ tb.enterCritical with
          first := tb.next a
          freeSize := sub32 tb.freeSize 1 }.exitCritical.notifyTxBufStatus, some a) := by
  have hentered : Listed tb.enterCritical (a :: l) := ⟨h.linked, h.last⟩
  obtain ⟨hpop, hne, -⟩ := hentered.popFront_cons
  unfold TxBuf.alloc
  rw [hpop]
  dsimp only
  rw [if_pos hne, if_pos hne, pbufAllocedCustom_eq]
  rfl

/-- The hook for the sleep changes nothing else. -/
theorem notifyTxBufStatus_eq (tb : TxBuf) :
    ∃ prevent, tb.notifyTxBufStatus = { tb with prevent := prevent } :=
  ⟨_, rfl⟩

theorem alloc_keeps (h : Holds c w l) :
    KeepsAccounts w .alloc
        { w with tb := (w.tb.alloc c).1, out := (w.tb.alloc c).2.toList ++ w.out } ∧
      ∃ l', Holds c
        { w with tb := (w.tb.alloc c).1, out := (w.tb.alloc c).2.toList ++ w.out } l' := by
  cases l with
  | nil =>
    obtain ⟨prevent, hprevent⟩ := notifyTxBufStatus_eq w.tb.enterCritical.exitCritical
    rw [alloc_nil h.listed, hprevent]
    have hholds : Holds c { w with
        tb := { w.tb.enterCritical.exitCritical with prevent := prevent } } [] :=
      ⟨⟨h.listed.linked, h.listed.last⟩, h.nodup, h.inside, h.blocks, h.static, h.free, h.window,
        h.una⟩
    exact ⟨⟨hholds.accounted, rfl⟩, [], hholds⟩
  | cons a l =>
    obtain ⟨prevent, hprevent⟩ := notifyTxBufStatus_eq { w.tb.enterCritical with
      first := w.tb.next a
      freeSize := sub32 w.tb.freeSize 1 }.exitCritical
    rw [alloc_cons h.listed, hprevent]
    obtain ⟨-, -, hrest⟩ := h.listed.popFront_cons
    have hperm : (l ++ a :: w.out).Perm (a :: l ++ w.out) := List.perm_middle
    have hcount : sub32 w.tb.freeSize 1 = l.length := by
      have hlen := length_lt h.nodup h.addresses
      have hfree := h.free
      rw [List.length_append, List.length_cons] at hlen
      rw [List.length_cons] at hfree
      rw [hfree, sub32_eq (by omega) (by omega), Nat.add_sub_cancel]
    have hwindow : w.tb.windowSize = l.length + (a :: w.out).length := by
      have hwindow := h.window
      simp only [List.length_cons] at hwindow ⊢
      omega
    have hholds : Holds c { w with
        tb := { { w.tb.enterCritical with
            first := w.tb.next a
            freeSize := sub32 w.tb.freeSize 1 }.exitCritical with prevent := prevent }
        out := a :: w.out } l := by
      refine ⟨⟨hrest.linked, hrest.last⟩, hperm.nodup_iff.mpr h.nodup, ?_, h.blocks, h.static,
        hcount, hwindow, h.una⟩
      intro p hp
      exact h.inside p (hperm.mem_iff.mp hp)
    refine ⟨⟨hholds.accounted, ?_⟩, l, hholds⟩
    change w.tb.critical + 1 - 1 = w.tb.critical
    omega

theorem free_keeps (h : Holds c w l) {tp : Nat} (htp : tp ∈ w.out) (hfrees : w.frees + 1 < 2 ^ 32) :
    KeepsAccounts w (.free tp)
        { w with tb := w.tb.free tp, out := w.out.erase tp, frees := w.frees + 1 } ∧
      ∃ l', Holds c
        { w with tb := w.tb.free tp, out := w.out.erase tp, frees := w.frees + 1 } l' := by
  have hentered : Listed w.tb.enterCritical l := ⟨h.listed.linked, h.listed.last⟩
  obtain ⟨hl, -, hapart⟩ := List.nodup_append.mp h.nodup
  have hnew : tp ∉ l := fun hmem => hapart tp hmem tp htp rfl
  have haddress := h.addresses tp (List.mem_append_right _ htp)
  have hpushed := hentered.pushBack hl (Nat.pos_iff_ne_zero.mp haddress.1) hnew
  have hperm : (l ++ [tp] ++ w.out.erase tp).Perm (l ++ w.out) := by
    rw [List.append_assoc]
    exact (List.perm_cons_erase htp).symm.append_left l
  have hlen := length_lt h.nodup h.addresses
  have hout := List.length_erase_add_one htp
  rw [List.length_append] at hlen
  have hcount : add32 w.tb.freeSize 1 = (l ++ [tp]).length := by
    rw [h.free, add32_eq (by omega), List.length_append, List.length_singleton]
  have hwindow : w.tb.windowSize = (l ++ [tp]).length + (w.out.erase tp).length := by
    have hwindow := h.window
    rw [List.length_append, List.length_singleton]
    omega
  have huna : add32 w.tb.unaSeq 1 = w.frees + 1 := by
    rw [h.una, add32_eq hfrees]
  obtain ⟨prevent, hprevent⟩ := notifyTxBufStatus_eq { w.tb.enterCritical.pushBack tp with
    freeSize := add32 w.tb.freeSize 1
    unaSeq := add32 w.tb.unaSeq 1 }.updateCredit.exitCritical
  have hfree : w.tb.free tp =
      { { w.tb.enterCritical.pushBack tp with
          freeSize := add32 w.tb.freeSize 1
          unaSeq := add32 w.tb.unaSeq 1 }.updateCredit.exitCritical with prevent := prevent } :=
    hprevent
  rw [hfree]
  have hholds : Holds c { w with
      tb := { { w.tb.enterCritical.pushBack tp with
          freeSize := add32 w.tb.freeSize 1
          unaSeq := add32 w.tb.unaSeq 1 }.updateCredit.exitCritical with prevent := prevent }
      out := w.out.erase tp
      frees := w.frees + 1 } (l ++ [tp]) := by
    refine ⟨⟨hpushed.linked, hpushed.last⟩, hperm.nodup_iff.mpr h.nodup, ?_, h.blocks, h.static,
      hcount, hwindow, huna⟩
    intro p hp
    exact h.inside p (hperm.mem_iff.mp hp)
  refine ⟨⟨hholds.accounted, ?_⟩, _, hholds⟩
  change w.tb.critical + 1 - 1 = w.tb.critical
  omega

/-! ## Any calls -/

theorem keepsAccounts_step (h : ∃ l, Holds c w l) (hstep : txStep c w op = some t)
    (hsafe : Registers c w op t) : KeepsAccounts w op t ∧ ∃ l, Holds c t l := by
  obtain ⟨l, h⟩ := h
  cases op with
  | init =>
    cases hstep
    exact init_keeps h hsafe
  | lpmemRegister =>
    cases hstep
    exact lpmemRegister_keeps h hsafe.1 hsafe.2
  | memRegister mem size malloc =>
    cases malloc with
    | none =>
      cases hstep
      have hmem : mem = 0 := by
        rcases hsafe with hmem | ⟨-, -, hmalloc⟩
        · exact hmem
        · exact absurd rfl hmalloc
      rw [hmem, memRegister_zero]
      exact ⟨⟨h.accounted, rfl⟩, l, h⟩
    | some ctx =>
      dsimp only [txStep] at hstep
      split at hstep
      · rename_i hfresh
        cases hstep
        by_cases hmem : mem = 0
        · have hmore := h.more (b := (ctx, TxBuf.mallocSize c mem size)) hfresh.1
          rw [hmem, memRegister_zero]
          rw [hmem] at hmore
          exact ⟨⟨hmore.accounted, rfl⟩, l, hmore⟩
        · obtain ⟨hout, hcount, -⟩ := hsafe.resolve_left hmem
          exact memRegister_keeps h hout hcount hmem hfresh
      · cases hstep
  | alloc =>
    cases hstep
    exact alloc_keeps h
  | free tp =>
    dsimp only [txStep] at hstep
    split at hstep
    · rename_i htp
      cases hstep
      exact free_keeps h htp hsafe
    · cases hstep

/-- The buffers as `sdiowifi_mgmr_start` clears them. -/
def clearedDevice (c : Config) : Device :=
  { tb :=
      { first := 0, last := 0, next := fun _ => 0, payloadBuf := fun _ => 0, windowSize := 0
        freeSize := 0, unaSeq := 0, critical := 0, credit := 0, prevent := false }
    out := []
    frees := 0
    blocks := [(c.txpbufContext, c.normalBufferCount * c.txPbufSize)] }

theorem holds_cleared (c : Config) : Holds c (clearedDevice c) [] := by
  refine ⟨⟨rfl, fun b hb => by cases hb⟩, List.nodup_nil, ?_, ?_, List.mem_singleton_self _, rfl,
    rfl, rfl⟩
  · intro p hp
    cases hp
  · intro b hb
    obtain rfl := List.mem_singleton.mp hb
    exact ⟨c.context_pos, c.context_fits⟩

/-- In every run of calls whose setups and registrations find the buffers at
rest, the accounts are right after every call and no critical section is left
open. -/
theorem accounts_along (c : Config) (ops : List TxOp)
    (h : Along (txStep c) (Registers c) (clearedDevice c) ops) :
    Along (txStep c) KeepsAccounts (clearedDevice c) ops :=
  along_of_invariant (fun _ _ _ => keepsAccounts_step) ⟨[], holds_cleared c⟩ h

/-- The contexts of eleven static buffers. -/
def sampleConfig : Config where
  linkEncapsulationHlen := 48
  txPbufSize := 40
  normalBufferCount := 11
  txpbufContext := 0x62fc0000
  txpbufPayloadNormal := 0x22fc0000
  headroom_aligned := rfl
  headroom_le := by decide
  size_pos := by decide
  size_le := by decide
  context_pos := by decide
  context_fits := by decide

theorem accounts_along_sample :
    Along (txStep sampleConfig) KeepsAccounts (clearedDevice sampleConfig)
      [.init, .lpmemRegister, .alloc, .free 0x62fc0000] := by
  apply accounts_along
  intro t ht
  cases ht
  refine ⟨rfl, ?_⟩
  intro t ht
  cases ht
  refine ⟨⟨rfl, [], rfl, fun _ _ h => by cases h⟩, ?_⟩
  intro t ht
  cases ht
  refine ⟨trivial, ?_⟩
  intro t ht
  have hfrees : (0 : Nat) + 1 < 2 ^ 32 := by decide
  exact ⟨hfrees, along_nil⟩

/-- The window loses the buffer that is out when memory for two more is
registered, and too little memory leaves the critical section open. -/
theorem accounts_lost :
    ¬ Along (txStep sampleConfig) KeepsAccounts (clearedDevice sampleConfig)
        ([.init, .lpmemRegister, .alloc] ++ [.memRegister 0x63000000 3200 (some 0x62fd0000)]) ∧
      ¬ Along (txStep sampleConfig) KeepsAccounts (clearedDevice sampleConfig)
        ([.init, .lpmemRegister] ++ [.memRegister 0x63000000 1000 none]) := by
  constructor
  · intro h
    have hend : (run (txStep sampleConfig) (clearedDevice sampleConfig)
        ([.init, .lpmemRegister, .alloc] ++
          [.memRegister 0x63000000 3200 (some 0x62fd0000)])).map
            (fun w => (w.tb.freeSize, w.out.length, w.tb.windowSize)) = some (12, 1, 12) := by
      decide +kernel
    obtain ⟨t, hrun, hcounts⟩ := Option.map_eq_some_iff.mp hend
    obtain ⟨w, haccounts, -⟩ := along_last h hrun
    have hwindow := haccounts.window_size
    simp only [Prod.mk.injEq] at hcounts
    omega
  · refine not_along_of_run rfl rfl fun h => ?_
    exact absurd h.2 (by decide +kernel)

end BouffaloSdk.SdiowifiTxBuf
