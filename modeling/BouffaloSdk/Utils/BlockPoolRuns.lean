import BouffaloSdk.Kit.RoundUp
import BouffaloSdk.Utils.BflbBlockPool
import Mathlib.Data.Nat.Bitwise
import Mathlib.Data.List.Perm.Subperm

/-!
# Block pools over whole runs

A pool is sound when its free list and the blocks handed out divide the pool
between them. A run keeps that exactly when no call frees what is not
allocated, apart from the few cases in which the pool notices.
-/

namespace BouffaloSdk.BlockPool
open Kit Kit.Word

/-- Where the pool's link words and blocks lie. -/
structure Layout (pool : BflbBlockPool) : Prop where
  poolAddr_pos : 0 < pool.poolAddr
  blkSize_pos : 0 < pool.blkSize
  links : pool.poolAddr + 4 * pool.blkTotal ≤ pool.blkAddr
  blocks : pool.blkAddr + pool.blkTotal * pool.blkSize < 2 ^ 32

namespace BflbBlockPool

/-- The link word of block `i`. -/
def node (pool : BflbBlockPool) (i : Nat) : Nat := pool.poolAddr + 4 * i

/-- The start of block `i`. -/
def block (pool : BflbBlockPool) (i : Nat) : Nat := pool.blkAddr + i * pool.blkSize

end BflbBlockPool

/-- The state in which the blocks at `out` are allocated. -/
structure PoolOk (sys : Sys) (out : List Nat) : Prop where
  nodup : out.Nodup
  blocks : ∀ a ∈ out, ∃ i < sys.pool.blkTotal, a = sys.pool.block i
  free : ∃ free : List Nat,
    Linked sys.mem 0 sys.pool.freeList (free.map sys.pool.node) ∧ free.Nodup ∧
      (∀ i, i ∈ free ↔ i < sys.pool.blkTotal ∧ sys.pool.block i ∉ out) ∧
      free.length = sys.pool.blkFree
  unlocked : sys.locked = false
  count : sys.pool.sem = true → sys.count = sys.pool.blkFree

inductive Op
  | alloc (semTimeout mtxTimeout : Bool)
  | free (addr : Nat) (mtxTimeout : Bool)

/-- The pool is sound after every call, no call crashes, and to free what is
not allocated is an error without effect. -/
def RunOk : Sys → List Nat → List Op → Prop
  | sys, out, [] => PoolOk sys out
  | sys, out, .alloc semTimeout mtxTimeout :: ops =>
    PoolOk sys out ∧
      match bflbBlockPoolAlloc sys semTimeout mtxTimeout with
      | .error .nullCall => False
      | .ok (sys', none) => RunOk sys' out ops
      | .ok (sys', some addr) => RunOk sys' (addr :: out) ops
  | sys, out, .free addr mtxTimeout :: ops =>
    PoolOk sys out ∧
      (addr ∉ out → (bflbBlockPoolFree sys addr mtxTimeout).2 ≠ 0 ∧
        (bflbBlockPoolFree sys addr mtxTimeout).1 = sys) ∧
      RunOk (bflbBlockPoolFree sys addr mtxTimeout).1
        (if (bflbBlockPoolFree sys addr mtxTimeout).2 = 0 then out.erase addr else out) ops

/-- A wait for the mutex fails only where a semaphore can be given back. -/
def SafeAlloc (sys : Sys) (mtxTimeout : Bool) : Prop :=
  sys.pool.mtx = true → mtxTimeout = true → sys.pool.blkFree ≠ 0 → sys.pool.sem = true

/-- The address is that of an allocated block, or the call stops before it
looks at it, or there is no mutex and the address is rejected. -/
def SafeFree (sys : Sys) (out : List Nat) (addr : Nat) (mtxTimeout : Bool) : Prop :=
  addr ∈ out ∨ (sys.pool.mtx = true ∧ mtxTimeout = true) ∨
    (sys.pool.mtx = false ∧
      (sys.pool.blkTotal = sys.pool.blkFree ∨
        sub32 addr sys.pool.blkAddr / sys.pool.blkSize > sys.pool.blkTotal))

def SafeRun : Sys → List Nat → List Op → Prop
  | _, _, [] => True
  | sys, out, .alloc semTimeout mtxTimeout :: ops =>
    SafeAlloc sys mtxTimeout ∧
      ∀ sys' addr, bflbBlockPoolAlloc sys semTimeout mtxTimeout = .ok (sys', addr) →
        SafeRun sys' (addr.toList ++ out) ops
  | sys, out, .free addr mtxTimeout :: ops =>
    SafeFree sys out addr mtxTimeout ∧
      SafeRun (bflbBlockPoolFree sys addr mtxTimeout).1
        (if (bflbBlockPoolFree sys addr mtxTimeout).2 = 0 then out.erase addr else out) ops

/-! ## Addresses -/

variable {pool : BflbBlockPool} {sys : Sys} {out : List Nat} {i j addr : Nat}

theorem Layout.blkTotal_lt (h : Layout pool) : pool.blkTotal < 2 ^ 30 := by
  have := h.links
  have := h.blocks
  have : 0 ≤ pool.blkTotal * pool.blkSize := Nat.zero_le _
  omega

theorem node_inj (h : pool.node i = pool.node j) : i = j := by
  unfold BflbBlockPool.node at h
  omega

theorem Layout.node_ne_zero (h : Layout pool) (i : Nat) : pool.node i ≠ 0 := by
  have := h.poolAddr_pos
  unfold BflbBlockPool.node
  omega

theorem Layout.block_inj (h : Layout pool) (hij : pool.block i = pool.block j) : i = j := by
  unfold BflbBlockPool.block at hij
  exact Nat.eq_of_mul_eq_mul_right h.blkSize_pos (by omega)

theorem Layout.block_lt (h : Layout pool) (hi : i < pool.blkTotal) :
    pool.block i < 2 ^ 32 ∧ i * pool.blkSize < 2 ^ 32 := by
  have hle : i * pool.blkSize ≤ pool.blkTotal * pool.blkSize :=
    Nat.mul_le_mul_right _ (Nat.le_of_lt hi)
  have := h.blocks
  unfold BflbBlockPool.block
  omega

theorem Layout.node_lt (h : Layout pool) (hi : i < pool.blkTotal) : pool.node i < 2 ^ 32 := by
  have := h.links
  have := h.blocks
  have : 0 ≤ pool.blkTotal * pool.blkSize := Nat.zero_le _
  unfold BflbBlockPool.node
  omega

/-- The index that `bflb_block_pool_alloc` recovers from a link word. -/
theorem Layout.index_node (h : Layout pool) (hi : i < pool.blkTotal) :
    sub32 (pool.node i) pool.poolAddr / 4 = i := by
  have hlt := h.node_lt hi
  unfold BflbBlockPool.node at hlt ⊢
  rw [sub32_eq (Nat.le_add_right _ _) hlt]
  omega

theorem Layout.addr_block (h : Layout pool) (hi : i < pool.blkTotal) :
    add32 pool.blkAddr (mul32 i pool.blkSize) = pool.block i := by
  obtain ⟨hblock, hmul⟩ := h.block_lt hi
  unfold BflbBlockPool.block at hblock ⊢
  rw [mul32, Nat.mod_eq_of_lt hmul, add32_eq hblock]

/-- The index that `bflb_block_pool_free` recovers from a block. -/
theorem Layout.index_block (h : Layout pool) (hi : i < pool.blkTotal) :
    sub32 (pool.block i) pool.blkAddr / pool.blkSize = i := by
  obtain ⟨hblock, -⟩ := h.block_lt hi
  unfold BflbBlockPool.block at hblock ⊢
  rw [sub32_eq (Nat.le_add_right _ _) hblock, Nat.add_sub_cancel_left,
    Nat.mul_div_cancel _ h.blkSize_pos]

theorem Layout.addr_node (h : Layout pool) (hi : i < pool.blkTotal) :
    add32 pool.poolAddr (mul32 i 4) = pool.node i := by
  have hlt := h.node_lt hi
  have htotal := h.blkTotal_lt
  unfold BflbBlockPool.node at hlt ⊢
  rw [mul32, Nat.mod_eq_of_lt (by omega), Nat.mul_comm, add32_eq hlt]

/-- The numbers below a bound that a list without duplicates can have. -/
theorem length_le_of_lt {l : List Nat} {n : Nat} (hl : l.Nodup) (h : ∀ i ∈ l, i < n) :
    l.length ≤ n := by
  have hsub : l ⊆ List.range n := fun i hi => List.mem_range.mpr (h i hi)
  have hle := (hl.subperm hsub).length_le
  rwa [List.length_range] at hle

/-! ## One call -/

theorem PoolOk.blkFree_le (h : PoolOk sys out) : sys.pool.blkFree ≤ sys.pool.blkTotal := by
  obtain ⟨free, -, hnodup, hfree, hlen⟩ := h.free
  rw [← hlen]
  exact length_le_of_lt hnodup fun i hi => ((hfree i).mp hi).1

/-- While a block is allocated the pool is not all free. -/
theorem PoolOk.blkFree_lt (h : PoolOk sys out) (hi : i < sys.pool.blkTotal)
    (hout : sys.pool.block i ∈ out) : sys.pool.blkFree < sys.pool.blkTotal := by
  obtain ⟨free, -, hnodup, hfree, hlen⟩ := h.free
  rw [← hlen]
  apply length_le_of_lt (l := i :: free)
  · exact List.nodup_cons.mpr ⟨fun hmem => ((hfree i).mp hmem).2 hout, hnodup⟩
  · intro j hj
    rcases List.mem_cons.mp hj with rfl | hj
    · exact hi
    · exact ((hfree j).mp hj).1

/-- The state after an allocation has taken the first block of the free list. -/
def Sys.taken (sys : Sys) : Sys :=
  { sys with
    pool :=
      { sys.pool with
        freeList := sys.mem sys.pool.freeList
        blkFree := sub32 sys.pool.blkFree 1 }
    count := if sys.pool.sem then sys.count - 1 else sys.count }

def Sys.takenAddr (sys : Sys) : Nat :=
  add32 sys.pool.blkAddr (mul32 (sub32 sys.pool.freeList sys.pool.poolAddr / 4) sys.pool.blkSize)

/-- What an allocation does: it crashes, or leaves the pool as it is, or takes
a block. -/
theorem PoolOk.alloc_cases (h : PoolOk sys out) (semTimeout mtxTimeout : Bool) :
    (¬ SafeAlloc sys mtxTimeout ∧
        bflbBlockPoolAlloc sys semTimeout mtxTimeout = .error .nullCall) ∨
      (SafeAlloc sys mtxTimeout ∧
        (bflbBlockPoolAlloc sys semTimeout mtxTimeout = .ok (sys, none) ∨
          (sys.pool.blkFree ≠ 0 ∧ bflbBlockPoolAlloc sys semTimeout mtxTimeout =
            .ok (sys.taken, some sys.takenAddr)))) := by
  have hlocked := h.unlocked
  have hcount := h.count
  unfold SafeAlloc bflbBlockPoolAlloc Sys.semGet Sys.mtxGet Sys.mtxPut Sys.semPut
  by_cases hsem : sys.pool.sem = true
  · refine .inr ⟨fun _ _ _ => hsem, ?_⟩
    by_cases htimeout : semTimeout = true ∨ sys.count = 0
    · exact .inl (by simp [hsem, htimeout])
    · have hne : sys.pool.blkFree ≠ 0 := by
        rw [← hcount hsem]
        exact fun hzero => htimeout (.inr hzero)
      by_cases hwait : sys.pool.mtx = true ∧ mtxTimeout = true
      · -- the semaphore is given back
        have hback : sys.count - 1 + 1 = sys.count := by
          have := hcount hsem
          omega
        exact .inl (by simp [hsem, htimeout, hne, hwait, hback])
      · refine .inr ⟨hne, ?_⟩
        by_cases hmtx : sys.pool.mtx = true
        · simp_all [Sys.taken, Sys.takenAddr]
        · simp [hsem, htimeout, hne, hmtx, Sys.taken, Sys.takenAddr]
  · by_cases hne : sys.pool.blkFree = 0
    · exact .inr ⟨fun _ _ hfree => absurd hne hfree, .inl (by simp [hsem, hne])⟩
    · by_cases hmtx : sys.pool.mtx = true
      · by_cases hwait : mtxTimeout = true
        · exact .inl ⟨fun hsafe => hsem (hsafe hmtx hwait hne), by simp [hsem, hne, hmtx, hwait]⟩
        · refine .inr ⟨fun _ hwait' => absurd hwait' hwait, .inr ⟨hne, ?_⟩⟩
          simp [hsem, hne, hmtx, hwait, hlocked, Sys.taken, Sys.takenAddr]
      · refine .inr ⟨fun hmtx' => absurd hmtx' hmtx, .inr ⟨hne, ?_⟩⟩
        simp [hsem, hne, hmtx, Sys.taken, Sys.takenAddr]

theorem PoolOk.taken (h : PoolOk sys out) (layout : Layout sys.pool) (hne : sys.pool.blkFree ≠ 0) :
    PoolOk sys.taken (sys.takenAddr :: out) := by
  have hle := h.blkFree_le
  have htotal := layout.blkTotal_lt
  obtain ⟨free, hlinked, hnodup, hfree, hlen⟩ := h.free
  cases free with
  | nil => exact absurd hlen.symm hne
  | cons i rest =>
    obtain ⟨hhead, -, hrest⟩ := hlinked
    rw [List.nodup_cons] at hnodup
    obtain ⟨hi, hiout⟩ := (hfree i).mp List.mem_cons_self
    have haddr : sys.takenAddr = sys.pool.block i := by
      rw [Sys.takenAddr, hhead, layout.index_node hi, layout.addr_block hi]
    have hcnt : sub32 sys.pool.blkFree 1 = sys.pool.blkFree - 1 := sub32_eq (by omega) (by omega)
    rw [haddr]
    refine ⟨List.nodup_cons.mpr ⟨hiout, h.nodup⟩, ?_, ⟨rest, ?_, hnodup.2, ?_, ?_⟩, h.unlocked, ?_⟩
    · intro a ha
      rcases List.mem_cons.mp ha with rfl | ha
      · exact ⟨i, hi, rfl⟩
      · exact h.blocks a ha
    · rw [← hhead] at hrest
      exact hrest
    · intro j
      change _ ↔ j < sys.pool.blkTotal ∧ sys.pool.block j ∉ _
      constructor
      · intro hj
        obtain ⟨hlt, hout⟩ := (hfree j).mp (List.mem_cons_of_mem i hj)
        refine ⟨hlt, fun hmem => ?_⟩
        rcases List.mem_cons.mp hmem with heq | hmem
        · exact hnodup.1 (layout.block_inj heq ▸ hj)
        · exact hout hmem
      · rintro ⟨hlt, hout⟩
        rw [List.mem_cons, not_or] at hout
        have hmem := (hfree j).mpr ⟨hlt, hout.2⟩
        rcases List.mem_cons.mp hmem with rfl | hj
        · exact absurd rfl hout.1
        · exact hj
    · change rest.length = sub32 sys.pool.blkFree 1
      rw [hcnt, ← hlen, List.length_cons, Nat.add_sub_cancel]
    · intro hsem
      change sys.pool.sem = true at hsem
      change (if sys.pool.sem = true then sys.count - 1 else sys.count) = sub32 sys.pool.blkFree 1
      rw [hcnt, if_pos hsem, h.count hsem]

/-- The state after the block with index `i` has been put in front of the
free list. -/
def Sys.released (sys : Sys) (i : Nat) : Sys :=
  { sys with
    pool :=
      { sys.pool with
        freeList := add32 sys.pool.poolAddr (mul32 i 4)
        blkFree := add32 sys.pool.blkFree 1 }
    mem := Function.update sys.mem (add32 sys.pool.poolAddr (mul32 i 4)) sys.pool.freeList
    count := if sys.pool.sem then sys.count + 1 else sys.count }

/-- What a free does. -/
theorem PoolOk.free_cases (h : PoolOk sys out) (addr : Nat) (mtxTimeout : Bool) :
    if sys.pool.mtx = true ∧ mtxTimeout = true then
      bflbBlockPoolFree sys addr mtxTimeout = (sys, -1)
    else if sys.pool.blkTotal = sys.pool.blkFree ∨
        sub32 addr sys.pool.blkAddr / sys.pool.blkSize > sys.pool.blkTotal then
      bflbBlockPoolFree sys addr mtxTimeout = ({ sys with locked := sys.pool.mtx }, -1)
    else
      bflbBlockPoolFree sys addr mtxTimeout =
        (sys.released (sub32 addr sys.pool.blkAddr / sys.pool.blkSize), 0) := by
  have hlocked := h.unlocked
  have hsame : { sys with locked := false } = sys := by
    rw [← hlocked]
  unfold bflbBlockPoolFree Sys.mtxGet Sys.mtxPut Sys.semPut
  by_cases hwait : sys.pool.mtx = true ∧ mtxTimeout = true
  · rw [if_pos hwait]
    simp [hwait]
  · rw [if_neg hwait]
    have hget : (if sys.pool.mtx = true then
        if (mtxTimeout || sys.locked) = true then none else some { sys with locked := true }
        else some sys) = some { sys with locked := sys.pool.mtx } := by
      by_cases hmtx : sys.pool.mtx = true
      · simp_all
      · rw [if_neg hmtx, Bool.eq_false_iff.mpr hmtx, hsame]
    rw [hget]
    dsimp only
    by_cases hfree : sys.pool.blkTotal = sys.pool.blkFree
    · rw [if_pos (.inl hfree), if_pos hfree]
    · by_cases hindex : sub32 addr sys.pool.blkAddr / sys.pool.blkSize > sys.pool.blkTotal
      · rw [if_pos (.inr hindex), if_neg hfree, if_pos hindex]
      · rw [if_neg (by simp only [hfree, hindex, or_self, not_false_eq_true]), if_neg hfree,
          if_neg hindex]
        by_cases hmtx : sys.pool.mtx = true
        · by_cases hsem : sys.pool.sem = true
          · simp [hmtx, hsem, hlocked, Sys.released]
          · simp [hmtx, hsem, hlocked, Sys.released]
        · by_cases hsem : sys.pool.sem = true
          · simp [hmtx, hsem, hlocked, Sys.released]
          · simp [hmtx, hsem, hlocked, Sys.released]

theorem PoolOk.released (h : PoolOk sys out) (layout : Layout sys.pool) (hi : i < sys.pool.blkTotal)
    (hout : sys.pool.block i ∈ out) :
    PoolOk (sys.released i) (out.erase (sys.pool.block i)) := by
  have hlt := h.blkFree_lt hi hout
  have htotal := layout.blkTotal_lt
  obtain ⟨free, hlinked, hnodup, hfree, hlen⟩ := h.free
  have hcnt : add32 sys.pool.blkFree 1 = sys.pool.blkFree + 1 := add32_eq (by omega)
  have hnode := layout.addr_node hi
  have hifree : i ∉ free := fun hmem => ((hfree i).mp hmem).2 hout
  refine ⟨h.nodup.erase _, fun a ha => h.blocks a (List.mem_of_mem_erase ha),
    ⟨i :: free, ?_, List.nodup_cons.mpr ⟨hifree, hnodup⟩, ?_, ?_⟩, h.unlocked, ?_⟩
  · simp only [Sys.released, hnode]
    apply hlinked.push (layout.node_ne_zero i)
    intro hmem
    obtain ⟨j, hj, heq⟩ := List.mem_map.mp hmem
    exact hifree (node_inj heq ▸ hj)
  · intro j
    change _ ↔ j < sys.pool.blkTotal ∧ sys.pool.block j ∉ _
    rw [List.mem_cons, hfree j, h.nodup.mem_erase_iff]
    constructor
    · rintro (rfl | ⟨hj, hjout⟩)
      · exact ⟨hi, fun hmem => hmem.1 rfl⟩
      · exact ⟨hj, fun hmem => hjout hmem.2⟩
    · rintro ⟨hj, hjout⟩
      by_cases hji : j = i
      · exact .inl hji
      · refine .inr ⟨hj, fun hmem => hjout ⟨fun heq => hji (layout.block_inj heq), hmem⟩⟩
  · change (i :: free).length = add32 sys.pool.blkFree 1
    rw [hcnt, List.length_cons, hlen]
  · intro hsem
    change sys.pool.sem = true at hsem
    change (if sys.pool.sem = true then sys.count + 1 else sys.count) = add32 sys.pool.blkFree 1
    rw [hcnt, if_pos hsem, h.count hsem]

/-! ## Whole runs -/

theorem Layout.taken (layout : Layout sys.pool) : Layout sys.taken.pool :=
  ⟨layout.poolAddr_pos, layout.blkSize_pos, layout.links, layout.blocks⟩

theorem Layout.released (layout : Layout sys.pool) (i : Nat) : Layout (sys.released i).pool :=
  ⟨layout.poolAddr_pos, layout.blkSize_pos, layout.links, layout.blocks⟩

/-- An allocated block is not rejected. -/
theorem PoolOk.not_rejected (h : PoolOk sys out) (layout : Layout sys.pool) (hout : addr ∈ out) :
    ¬ (sys.pool.blkTotal = sys.pool.blkFree ∨
      sub32 addr sys.pool.blkAddr / sys.pool.blkSize > sys.pool.blkTotal) := by
  obtain ⟨i, hi, rfl⟩ := h.blocks addr hout
  have hlt := h.blkFree_lt hi hout
  rw [layout.index_block hi]
  omega

/-- A call that is not safe breaks the pool at once. -/
theorem not_runOk_of_not_safeFree (h : PoolOk sys out) {mtxTimeout : Bool} {ops : List Op} (unsafeFree : ¬ SafeFree sys out addr mtxTimeout) :
    ¬ RunOk sys out (.free addr mtxTimeout :: ops) := by
  rintro ⟨-, hinvalid, -⟩
  unfold SafeFree at unsafeFree
  rw [not_or, not_or] at unsafeFree
  obtain ⟨hout, hwait, hreject⟩ := unsafeFree
  obtain ⟨hret, hsame⟩ := hinvalid hout
  have hcases := h.free_cases addr mtxTimeout
  rw [if_neg hwait] at hcases
  split at hcases
  · rename_i hrejected
    rw [hcases] at hsame
    have hlocked : sys.pool.mtx = sys.locked := congrArg Sys.locked hsame
    rw [h.unlocked] at hlocked
    exact hreject ⟨hlocked, hrejected⟩
  · rw [hcases] at hret
    exact hret rfl

/-- The run of a pool is sound if and only if each of its calls is safe. -/
theorem PoolOk.runOk_iff (h : PoolOk sys out) (layout : Layout sys.pool) {ops : List Op} :
    RunOk sys out ops ↔ SafeRun sys out ops := by
  induction ops generalizing sys out with
  | nil => exact ⟨fun _ => trivial, fun _ => h⟩
  | cons op ops ih =>
    cases op with
    | alloc semTimeout mtxTimeout =>
      rcases h.alloc_cases semTimeout mtxTimeout with
        ⟨hbad, hcrash⟩ | ⟨hsafe, hnone | ⟨hne, htaken⟩⟩
      · simp only [RunOk, SafeRun, hcrash, and_false, false_iff]
        exact fun hrun => hbad hrun.1
      · have hrest := ih h layout
        simp only [RunOk, SafeRun, hnone]
        constructor
        · rintro ⟨-, hrun⟩
          refine ⟨hsafe, fun sys' addr heq => ?_⟩
          obtain ⟨rfl, rfl⟩ := Prod.mk.inj (Except.ok.inj heq)
          exact hrest.mp hrun
        · rintro ⟨-, hrun⟩
          exact ⟨h, hrest.mpr (hrun sys none rfl)⟩
      · have hrest := ih (h.taken layout hne) layout.taken
        simp only [RunOk, SafeRun, htaken]
        constructor
        · rintro ⟨-, hrun⟩
          refine ⟨hsafe, fun sys' addr heq => ?_⟩
          obtain ⟨rfl, rfl⟩ := Prod.mk.inj (Except.ok.inj heq)
          exact hrest.mp hrun
        · rintro ⟨-, hrun⟩
          exact ⟨h, hrest.mpr (hrun sys.taken (some sys.takenAddr) rfl)⟩
    | free addr mtxTimeout =>
      by_cases hsafe : SafeFree sys out addr mtxTimeout
      · have hcases := h.free_cases addr mtxTimeout
        have hsame : sys.pool.mtx = false → { sys with locked := sys.pool.mtx } = sys := by
          intro hmtx
          rw [hmtx, ← h.unlocked]
        split at hcases
        · have hrest := ih h layout
          simp only [RunOk, SafeRun, hcases]
          constructor
          · rintro ⟨-, -, hrun⟩
            exact ⟨hsafe, hrest.mp hrun⟩
          · rintro ⟨-, hrun⟩
            exact ⟨h, fun _ => ⟨by decide, trivial⟩, hrest.mpr hrun⟩
        · rename_i hwait
          split at hcases
          · rename_i hrejected
            have hmtx : sys.pool.mtx = false := by
              rcases hsafe with hout | htimeout | ⟨hmtx, -⟩
              · exact absurd hrejected (h.not_rejected layout hout)
              · exact absurd htimeout hwait
              · exact hmtx
            rw [hsame hmtx] at hcases
            have hrest := ih h layout
            simp only [RunOk, SafeRun, hcases]
            constructor
            · rintro ⟨-, -, hrun⟩
              exact ⟨hsafe, hrest.mp hrun⟩
            · rintro ⟨-, hrun⟩
              exact ⟨h, fun _ => ⟨by decide, trivial⟩, hrest.mpr hrun⟩
          · rename_i haccepted
            have hout : addr ∈ out := by
              rcases hsafe with hout | htimeout | ⟨-, hrejected⟩
              · exact hout
              · exact absurd htimeout hwait
              · exact absurd hrejected haccepted
            obtain ⟨i, hi, rfl⟩ := h.blocks addr hout
            rw [layout.index_block hi] at hcases
            have hrest := ih (h.released layout hi hout) (layout.released i)
            simp only [RunOk, SafeRun, hcases, if_true]
            constructor
            · rintro ⟨-, -, hrun⟩
              exact ⟨hsafe, hrest.mp hrun⟩
            · rintro ⟨-, hrun⟩
              exact ⟨h, fun habsent => absurd hout habsent, hrest.mpr hrun⟩
      · constructor
        · exact fun hrun => absurd hrun (not_runOk_of_not_safeFree h hsafe)
        · exact fun hrun => absurd hrun.1 hsafe

/-! ## Creation -/

/-- What `bflb_block_pool_create` is called with: the checks of its debug
build, and no wrap when sizes and addresses are rounded up. -/
structure Arguments (blkSize blkAlign poolAddr poolSize : Nat) : Prop where
  blkSize_pos : 0 < blkSize
  blkAlign_le : blkAlign ≤ 7
  poolAddr_pos : 0 < poolAddr
  roundedSize : blkSize + 2 ^ blkAlign + 4 ≤ 2 ^ 32
  roundedEnd : poolAddr + poolSize + 2 ^ blkAlign ≤ 2 ^ 32

theorem alignUp_eq {x : Nat} (blkAlign : Nat) (hx : x < 2 ^ 32) :
    alignUp x blkAlign = roundUp x (2 ^ blkAlign) % 2 ^ 32 := by
  have hpos : 0 < 2 ^ blkAlign := Nat.two_pow_pos blkAlign
  unfold alignUp
  dsimp only
  rw [Nat.one_shiftLeft, Nat.and_two_pow_sub_one_eq_mod]
  by_cases hrem : x % 2 ^ blkAlign = 0
  · rw [if_neg (not_not_intro hrem), roundUp_of_dvd hpos (Nat.dvd_of_mod_eq_zero hrem),
      Nat.mod_eq_of_lt hx]
  · rw [if_pos hrem, roundUp_of_not_dvd hpos (fun h => hrem (Nat.mod_eq_zero_of_dvd h)), add32]

theorem foldl_links (mem : Memory) (poolAddr : Nat) {n : Nat} (hi : i < n) :
    (List.range n).foldl
        (fun mem i => Function.update mem (poolAddr + 4 * i) (poolAddr + 4 * (i + 1))) mem
        (poolAddr + 4 * i) = poolAddr + 4 * (i + 1) := by
  induction n with
  | zero => exact absurd hi (Nat.not_lt_zero i)
  | succ n ih =>
    rw [List.range_succ, List.foldl_concat]
    by_cases hlast : i = n
    · subst hlast
      rw [Function.update_self]
    · rw [Function.update_of_ne (by omega)]
      exact ih (by omega)

theorem linked_buildList {poolAddr : Nat} (mem : Memory) (hpos : 0 < poolAddr) {n : Nat}
    (hn : 0 < n) :
    Linked (buildList mem poolAddr n) 0 poolAddr
      ((List.range n).map fun i => poolAddr + 4 * i) := by
  have hlinked : Linked (buildList mem poolAddr n) 0 (poolAddr + 4 * 0)
      ((List.range' 0 (n - 0)).map fun i => poolAddr + 4 * i) := by
    refine Linked.of_links (f := fun i => poolAddr + 4 * i) (k := 0) ?_ ?_ ?_ hn
    · intro i _
      omega
    · intro i hi
      unfold buildList
      rw [Function.update_of_ne (by omega)]
      exact foldl_links mem poolAddr (by omega)
    · unfold buildList
      rw [Function.update_self]
  rw [List.range_eq_range']
  exact hlinked

theorem newPool_ok {poolAddr address blkSize blkAlign blkCount : Nat} (mem : Memory)
    (layout : Layout (newPool poolAddr address blkSize blkAlign blkCount)) (hcount : 0 < blkCount)
    (mtx sem : Bool) :
    PoolOk (Sys.ofPool (newPool poolAddr address blkSize blkAlign blkCount)
      (buildList mem poolAddr blkCount) mtx sem) [] := by
  refine ⟨List.nodup_nil, fun a ha => absurd ha List.not_mem_nil,
    ⟨List.range blkCount, linked_buildList mem layout.poolAddr_pos hcount, List.nodup_range,
      fun i => ?_, List.length_range⟩, rfl, fun hsem => ?_⟩
  · rw [List.mem_range]
    exact ⟨fun hi => ⟨hi, List.not_mem_nil⟩, fun hi => hi.1⟩
  · change (if sem = true then blkCount else 0) = blkCount
    exact if_pos hsem

/-- The number of blocks as first estimated, for blocks of `size` bytes. -/
def estimate (size poolSize : Nat) : Nat := poolSize / (4 + size)

/-- The end of that many blocks behind their link words. -/
def estimatedEnd (size blkAlign poolAddr poolSize : Nat) : Nat :=
  roundUp (poolAddr + 4 * estimate size poolSize) (2 ^ blkAlign) + estimate size poolSize * size

/-- Where the blocks of a created pool lie, when nothing wraps. One block less
makes room for any alignment. -/
theorem create_spec {mem mem' : Memory} {blkSize blkAlign poolAddr poolSize size : Nat}
    (hsize : size = roundUp blkSize (2 ^ blkAlign)) (pos : 0 < blkSize) (hunit : size + 4 < 2 ^ 32)
    (hregion : poolAddr + poolSize < 2 ^ 32)
    (hend : estimatedEnd size blkAlign poolAddr poolSize < 2 ^ 32)
    (h : bflbBlockPoolCreate mem blkSize blkAlign poolAddr poolSize = some (pool, mem')) :
    ∃ address blkCount, 0 < blkCount ∧ pool = newPool poolAddr address size blkAlign blkCount ∧
      mem' = buildList mem poolAddr blkCount ∧ 2 ^ blkAlign ∣ address ∧
      poolAddr + 4 * blkCount ≤ address ∧ address + blkCount * size ≤ poolAddr + poolSize := by
  have hpow : 0 < 2 ^ blkAlign := Nat.two_pow_pos blkAlign
  have hlow := @le_roundUp blkSize _ hpow
  have hsizeAlign : 2 ^ blkAlign ≤ size := by
    rw [hsize]
    exact Nat.le_of_dvd (by omega) (dvd_roundUp _ _)
  have hrounded : alignUp blkSize blkAlign = size := by
    rw [alignUp_eq blkAlign (by omega), ← hsize, Nat.mod_eq_of_lt (by omega)]
  have hcount : estimate size poolSize * (4 + size) ≤ poolSize := Nat.div_mul_le_self _ _
  have hdiv : divu32 poolSize (add32 4 size) = estimate size poolSize := by
    rw [add32_eq (by omega), divu32, if_neg (by omega), estimate]
  unfold bflbBlockPoolCreate at h
  dsimp only at h
  rw [hrounded, hdiv] at h
  unfold estimatedEnd at hend
  generalize estimate size poolSize = count at hcount hend h
  rw [Nat.mul_add] at hcount
  by_cases hzero : count = 0
  · rw [if_pos hzero] at h
    exact absurd h (by simp)
  rw [if_neg hzero] at h
  obtain ⟨n, rfl⟩ : ∃ n, count = n + 1 := ⟨count - 1, by omega⟩
  have hlast : (n + 1) * size = n * size + size := Nat.succ_mul n size
  have haddress : ∀ k ≤ n + 1, alignUp (add32 poolAddr (mul32 4 k)) blkAlign =
      roundUp (poolAddr + 4 * k) (2 ^ blkAlign) := by
    intro k hk
    have hhigh := @roundUp_lt (poolAddr + 4 * k) _ hpow
    have hfour : mul32 4 k = 4 * k := Nat.mod_eq_of_lt (by omega)
    rw [hfour, add32_eq (by omega), alignUp_eq blkAlign (by omega), Nat.mod_eq_of_lt (by omega)]
  have hbytes : mul32 (n + 1) size = (n + 1) * size := Nat.mod_eq_of_lt (by omega)
  rw [haddress _ (Nat.le_refl _), hbytes, add32_eq hend, add32_eq hregion, Nat.add_sub_cancel,
    haddress n (Nat.le_succ n)] at h
  by_cases hover : roundUp (poolAddr + 4 * (n + 1)) (2 ^ blkAlign) + (n + 1) * size >
      poolAddr + poolSize
  · rw [if_pos hover] at h
    by_cases hfew : n = 0
    · rw [if_pos hfew] at h
      exact absurd h (by simp)
    · rw [if_neg hfew] at h
      obtain ⟨rfl, rfl⟩ := Prod.mk.inj (Option.some.inj h)
      have hhigh := @roundUp_lt (poolAddr + 4 * n) _ hpow
      exact ⟨_, n, by omega, rfl, rfl, dvd_roundUp _ _, le_roundUp hpow, by omega⟩
  · rw [if_neg hover] at h
    obtain ⟨rfl, rfl⟩ := Prod.mk.inj (Option.some.inj h)
    exact ⟨_, n + 1, by omega, rfl, rfl, dvd_roundUp _ _, le_roundUp hpow, by omega⟩

theorem Arguments.estimatedEnd_lt {blkSize blkAlign poolAddr poolSize : Nat}
    (args : Arguments blkSize blkAlign poolAddr poolSize) :
    estimatedEnd (roundUp blkSize (2 ^ blkAlign)) blkAlign poolAddr poolSize < 2 ^ 32 := by
  have hend := args.roundedEnd
  have hcount : estimate (roundUp blkSize (2 ^ blkAlign)) poolSize *
      (4 + roundUp blkSize (2 ^ blkAlign)) ≤ poolSize := Nat.div_mul_le_self _ _
  have hhigh := @roundUp_lt
    (poolAddr + 4 * estimate (roundUp blkSize (2 ^ blkAlign)) poolSize) _ (Nat.two_pow_pos blkAlign)
  rw [Nat.mul_add] at hcount
  unfold estimatedEnd
  omega

/-- A created pool has its links and its blocks apart and is all free. -/
theorem create_ok {mem mem' : Memory} {blkSize blkAlign poolAddr poolSize : Nat}
    (args : Arguments blkSize blkAlign poolAddr poolSize)
    (h : bflbBlockPoolCreate mem blkSize blkAlign poolAddr poolSize = some (pool, mem'))
    (mtx sem : Bool) : Layout pool ∧ PoolOk (Sys.ofPool pool mem' mtx sem) [] := by
  have hpow : 0 < 2 ^ blkAlign := Nat.two_pow_pos blkAlign
  have hlow := @le_roundUp blkSize _ hpow
  have hhigh := @roundUp_lt blkSize _ hpow
  have hsize := args.blkSize_pos
  have hunit := args.roundedSize
  have hregion := args.roundedEnd
  obtain ⟨address, count, hpos, rfl, rfl, -, hlinks, hblocks⟩ :=
    create_spec rfl hsize (by omega) (by omega) args.estimatedEnd_lt h
  have hlayout : Layout (newPool poolAddr address (roundUp blkSize (2 ^ blkAlign)) blkAlign count) :=
    ⟨args.poolAddr_pos, by change 0 < roundUp _ _; omega, hlinks, by
      change address + count * roundUp blkSize (2 ^ blkAlign) < 2 ^ 32
      omega⟩
  exact ⟨hlayout, newPool_ok mem hlayout hpos mtx sem⟩

/-- A created pool stays sound through a run if and only if each call of the
run is safe. -/
theorem runOk_iff_safeRun (mem mem' : Memory) (blkSize blkAlign poolAddr poolSize : Nat)
    (args : Arguments blkSize blkAlign poolAddr poolSize) (pool : BflbBlockPool)
    (h : bflbBlockPoolCreate mem blkSize blkAlign poolAddr poolSize = some (pool, mem'))
    (mtx sem : Bool) (ops : List Op) :
    RunOk (Sys.ofPool pool mem' mtx sem) [] ops ↔ SafeRun (Sys.ofPool pool mem' mtx sem) [] ops := by
  obtain ⟨layout, hok⟩ := create_ok args h mtx sem
  exact hok.runOk_iff ⟨layout.poolAddr_pos, layout.blkSize_pos, layout.links, layout.blocks⟩

/-- A pool of four blocks of 32 bytes. -/
def fourBlocks : BflbBlockPool := newPool 0x1000 0x1010 32 2 4

theorem create_fourBlocks :
    bflbBlockPoolCreate (fun _ => 0) 32 2 0x1000 144 =
      some (fourBlocks, buildList (fun _ => 0) 0x1000 4) := by
  with_unfolding_all rfl

theorem arguments_fourBlocks : Arguments 32 2 0x1000 144 := by
  constructor <;> decide

theorem runOk_alloc_free :
    RunOk (Sys.ofPool fourBlocks (buildList (fun _ => 0) 0x1000 4) true true) []
      [.alloc false false, .free 0x1010 false] := by
  refine (runOk_iff_safeRun (fun _ => 0) _ 32 2 0x1000 144 arguments_fourBlocks fourBlocks
    create_fourBlocks true true _).mpr ?_
  refine ⟨fun _ hwait => absurd hwait (by decide), fun sys addr halloc => ⟨.inl ?_, trivial⟩⟩
  obtain ⟨rfl, rfl⟩ := Prod.mk.inj (Except.ok.inj halloc)
  decide +kernel

/-- The address one past the last block is accepted. -/
theorem free_past_last_accepted :
    ¬ RunOk (Sys.ofPool fourBlocks (buildList (fun _ => 0) 0x1000 4) false false) []
      [.alloc false false, .free 0x1090 false] := by
  intro hrun
  obtain ⟨layout, hok⟩ := create_ok arguments_fourBlocks create_fourBlocks false false
  obtain ⟨-, hfree⟩ := (hok.runOk_iff layout).mp hrun
  obtain ⟨hsafe, -⟩ := hfree _ _ rfl
  revert hsafe
  unfold SafeFree
  decide +kernel

end BouffaloSdk.BlockPool
