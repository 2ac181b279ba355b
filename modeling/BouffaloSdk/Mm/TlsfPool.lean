import BouffaloSdk.Mm.TlsfCalls

/-!
# Making a pool and walking it

A new pool is one free block. A walk reports the row, and the checks find nothing
wrong with a heap that has one.
-/

namespace BouffaloSdk.Mm

open Kit Kit.Tiling Tlsf

variable {h h' g : Heap} {a n s start bytes fl sl x : ℕ} {f pf : Bool} {p : Piece}
  {xs ys bs : List Piece} {F : List (ℕ × ℕ)} {lists : ℕ → ℕ → List ℕ} {l : List ℕ} {status : ℤ}

/-! ## A new pool -/

theorem controlConstruct_listed (mem : ℕ → ℕ) (control : ℕ) :
    Listed (controlConstruct mem control) [] fun _ _ => [] where
  chained _ _ _ _ := rfl
  nodup _ _ := List.nodup_nil
  mem _ _ x := by simp
  slBit _ _ sl := by simp [controlConstruct, Heap.setNextFree, Heap.setPrevFreeLink, Heap.setWord]
  flBit _ := by simp [controlConstruct, Heap.setNextFree, Heap.setPrevFreeLink, Heap.setWord]

/-- What `tlsf_add_pool` does once the size is known. -/
theorem tlsfAddPool_eq (hmem : (a + 4) % 4 = 0) (hsize : alignDown (sub32 bytes 8) 4 = s)
    (hmin : 12 ≤ s) (hmax : s ≤ 2 ^ 30) (hroom : a < 2 ^ 32)
    (hg : (((h.blockSetSize a s).blockSetFree a).blockSetPrevUsed a).blockInsert a = g)
    (hnext : g.blockNext a = n) :
    (h.tlsfAddPool (a + 4) bytes).1 =
      (((g.setPrevPhysBlock n a).blockSetSize n 0).blockSetUsed n).blockSetPrevFree n := by
  have hblock : sub32 (a + 4) blockHeaderOverhead = a := by
    unfold sub32 blockHeaderOverhead
    omega
  have hmem' : ¬ (a + 4) % alignSize ≠ 0 := not_not.mpr hmem
  have hsize' : alignDown (sub32 bytes tlsfPoolOverhead) alignSize = s := hsize
  have hfits : ¬ (s < blockSizeMin ∨ s > blockSizeMax) := by
    unfold blockSizeMin blockSizeMax
    omega
  unfold Heap.tlsfAddPool
  simp only [if_neg hmem', hsize', if_neg hfits, hblock, hg, Heap.blockLinkNext, hnext]

theorem tlsfAddPool_ok (hl : Listed h [] lists) (hnull : h.blockNull + 16 ≤ a) (hdvd : 4 ∣ a)
    (hs : RequestSize s) (htop : a + 4 + s + 8 ≤ 2 ^ 32)
    (hsize : alignDown (sub32 bytes 8) 4 = s) :
    Ok (h.tlsfAddPool (a + 4) bytes).1 a [⟨s, true⟩] ∧
      (h.tlsfAddPool (a + 4) bytes).1.blockNull = h.blockNull := by
  have hmin := hs.min
  have hmax := hs.max
  obtain ⟨f, pf, hb₁⟩ := exists_setSize h (b := a) ⟨hs.aligned, by omega⟩ (by omega)
  have hb₂ := hb₁.setFree.setPrevUsed
  have hframe₂ : Frame h (((h.blockSetSize a s).blockSetFree a).blockSetPrevUsed a) (wordAt (a + 4)) :=
    (((setWord_frame ..).trans (setWord_frame ..)).trans (setWord_frame ..)).mono fun y hy => by
      rcases hy with (hy | hy) | hy <;> exact hy
  have hl₂ : Listed (((h.blockSetSize a s).blockSetFree a).blockSetPrevUsed a) ([] ++ []) lists :=
    hl.frame hframe₂ ⟨rfl, rfl, rfl⟩ fun _ _ hmem => absurd hmem List.not_mem_nil
  have hspaced : Spaced h.blockNull [(a, s)] :=
    ⟨List.pairwise_singleton .., by simpa using hnull, by simpa using hmax, by simp; omega⟩
  have hnull₂ := hframe₂.blockNull
  have hspaced₂ : Spaced (((h.blockSetSize a s).blockSetFree a).blockSetPrevUsed a).blockNull
      ([] ++ (a, s) :: []) := by
    rw [hnull₂]
    exact hspaced
  obtain ⟨hl₃, hframe₃⟩ := hl₂.insert hspaced₂ hb₂.blockSize
  generalize hg : (((h.blockSetSize a s).blockSetFree a).blockSetPrevUsed a).blockInsert a = g
    at hl₃ hframe₃
  rw [hnull₂] at hframe₃
  have hb₃ : Header g a s true false := by
    apply hb₂.frame hframe₃
    rintro y ⟨hlow, hhigh⟩ ⟨c, rfl | ⟨t, hc⟩, hlow', hhigh'⟩
    · omega
    · obtain ⟨rfl, -⟩ := Prod.mk.inj (List.mem_singleton.mp hc)
      omega
  have hnext := hb₃.blockNext (by omega)
  obtain ⟨f', pf', hn⟩ := exists_setSize (g.setPrevPhysBlock (a + 4 + s) a) (b := a + 4 + s)
    WordSize.zero (by omega)
  rw [tlsfAddPool_eq (by omega) hsize hmin (by omega) (by omega) hg hnext]
  have hframe₄ : Frame g ((((g.setPrevPhysBlock (a + 4 + s) a).blockSetSize (a + 4 + s) 0).blockSetUsed
      (a + 4 + s)).blockSetPrevFree (a + 4 + s)) fun y => a + 4 + s ≤ y :=
    ((((setWord_frame ..).trans (setWord_frame ..)).trans (setWord_frame ..)).trans
      (setWord_frame ..)).mono fun y hy => by
        simp only [wordAt] at hy
        omega
  have hnull₄ := hframe₄.blockNull.trans (hframe₃.blockNull.trans hnull₂)
  have hl₄ := hl₃.frame hframe₄ ⟨rfl, rfl, rfl⟩ (by
    intro y t hy z hlow hhigh
    obtain ⟨rfl, -⟩ := Prod.mk.inj (List.mem_singleton.mp hy)
    omega)
  refine ⟨⟨⟨?_, ⟨_, by simpa using hl₄⟩, ?_, ?_⟩, by simp [Coalesced]⟩, hnull₄⟩
  · refine ⟨?_, fun _ => ?_, ?_, fun hfree => absurd hfree Bool.false_ne_true, trivial⟩
    · refine (hb₃.frame hframe₄ fun y hy => ?_).word
      simp only [wordAt] at hy
      omega
    · rw [span_mk, ← Nat.add_assoc]
      refine (word_setWord_of_disjoint (by omega)).trans ?_
      refine (word_setWord_of_disjoint (by omega)).trans ?_
      refine (word_setWord_of_disjoint (by omega)).trans ?_
      exact setPrevPhysBlock_word (by omega)
    · rw [span_mk, ← Nat.add_assoc]
      exact hn.setUsed.setPrevFree.word
  · rw [hnull₄]
    refine ⟨?_, hnull, hdvd, ?_, ?_⟩
    · intro p hp
      obtain rfl := List.mem_singleton.mp hp
      exact ⟨hs.aligned, hmin⟩
    · simp only [after_cons, after_nil, span_mk]
      omega
    · simp only [after_cons, after_nil, span_mk]
      omega
  · simp

/-- What is left for blocks of `bytes` from an aligned start. -/
def poolBytes (bytes : ℕ) : ℕ := bytes - 3196 - bytes % 4

/-- The heap as created: one free block over the whole pool. -/
theorem tlsfCreateWithPool_ok (mem : ℕ → ℕ) (hdvd : 4 ∣ start) (htop : start + bytes ≤ 2 ^ 32)
    (hmin : 12 ≤ poolBytes bytes) (hmax : poolBytes bytes < 2 ^ 30) :
    ∃ h, tlsfCreateWithPool mem start bytes = some h ∧ h.blockNull = start ∧
      Ok h (start + 3184) [⟨poolBytes bytes, true⟩] := by
  unfold poolBytes at *
  have hcreate : tlsfCreateWithPool mem start bytes =
      some ((controlConstruct mem start).tlsfAddPool (start + 3184 + 4) (sub32 bytes 3188)).1 := by
    have hstart : ¬ start % alignSize ≠ 0 := not_not.mpr (Nat.mod_eq_zero_of_dvd hdvd)
    have hpool : add32 start tlsfSize = start + 3184 + 4 := by
      unfold add32 tlsfSize
      omega
    unfold tlsfCreateWithPool
    rw [if_neg hstart, hpool]
    rfl
  have hsize : alignDown (sub32 (sub32 bytes 3188) 8) 4 = bytes - 3196 - bytes % 4 := by
    have hsub : sub32 (sub32 bytes 3188) 8 = bytes - 3196 := by
      unfold sub32
      omega
    have hdown := alignDown_eq (x := bytes - 3196) (k := 2)
    rw [hsub]
    refine hdown.trans ?_
    omega
  obtain ⟨hok, hnull⟩ := tlsfAddPool_ok (controlConstruct_listed mem start)
    (a := start + 3184) (s := bytes - 3196 - bytes % 4)
    (show start + 16 ≤ start + 3184 by omega) (by omega) ⟨by omega, hmin, hmax⟩ (by omega) hsize
  exact ⟨_, hcreate, hnull, hok⟩

/-! ## Walking -/

namespace Laid

/-- The sentinel behind the row. -/
theorem last (hl : Laid h a bs F) : Header h (after Piece.span a bs) 0 false (lastFree false bs) where
  word := (Seg.append.mp hl.seg).2.1
  fits := WordSize.zero
  room := by simpa using hl.fits.top

end Laid

/-- What a walk says of a block. -/
def reported (u : ℕ × Piece) : ℕ × ℕ × Bool := (u.1 + 8, u.2.size, !u.2.free)

namespace Laid

theorem walkFrom (hl : Laid h a (xs ++ ys) F) (k : ℕ) :
    h.walkFrom (ys.length + 1 + k) (after Piece.span a xs) =
      some ((place Piece.span (after Piece.span a xs) ys).map reported) := by
  induction ys generalizing xs with
  | nil =>
    have hlast := hl.last.blockSize
    rw [List.append_nil] at hlast
    rw [List.length_nil, Nat.zero_add, Nat.add_comm 1 k, Heap.walkFrom, if_pos]
    · rfl
    · rw [Heap.blockIsLast, hlast]
      exact .inr rfl
  | cons p ys ih =>
    have hstart := hl.fits.start
    have hle := @le_after _ Piece.span a xs
    have hmin := (hl.fits.piece p (by simp)).2
    have hgo : ¬ (after Piece.span a xs = 0 ∨ h.blockIsLast (after Piece.span a xs) = true) := by
      rw [Heap.blockIsLast, hl.header.blockSize, beq_iff_eq]
      omega
    have hfuel : (p :: ys).length + 1 + k = ys.length + 1 + k + 1 := by
      rw [List.length_cons]
      omega
    have hcons : Laid h a (xs ++ [p] ++ ys) F := by simpa using hl
    have hrest := ih hcons
    rw [hfuel, Heap.walkFrom, if_neg hgo, hl.blockNext, hrest, hl.header.blockToPtr (by omega),
      hl.header.blockSize, hl.header.blockIsFree]
    simp [reported]

/-- A walk reports the row, block by block. -/
theorem tlsfWalkPool (hl : Laid h a bs F) (k : ℕ) :
    h.tlsfWalkPool (bs.length + 1 + k) (a + 4) = some ((place Piece.span a bs).map reported) := by
  have hle := @le_after _ Piece.span a bs
  have htop := hl.fits.top
  have hstart : offsetToBlock (a + 4) (sub32 0 blockHeaderOverhead) = a := by
    unfold offsetToBlock add32 sub32 blockHeaderOverhead
    omega
  have hall : Laid h a ([] ++ bs) F := hl
  have hwalk := hall.walkFrom k
  rw [Heap.tlsfWalkPool, hstart]
  exact hwalk

theorem integrityWalker (hl : Laid h a (xs ++ p :: ys) F) (status : ℤ) :
    h.integrityWalker ⟨lastFree false xs, status⟩ (reported (after Piece.span a xs, p)) =
      ⟨p.free, status⟩ := by
  have hroom := hl.header.room
  have hmin := (hl.fits.piece p (by simp)).2
  simp only [Heap.integrityWalker, reported, blockFromPtr_add (show after Piece.span a xs < 2 ^ 32 by omega),
    hl.header.blockIsPrevFree, hl.header.blockSize, hl.header.blockIsFree, Heap.insist, beq_self_eq_true,
    ↓reduceIte, Int.add_zero]

theorem foldl_integrityWalker (hl : Laid h a (xs ++ ys) F) (status : ℤ) :
    ((place Piece.span (after Piece.span a xs) ys).map reported).foldl h.integrityWalker
      ⟨lastFree false xs, status⟩ = ⟨lastFree (lastFree false xs) ys, status⟩ := by
  induction ys generalizing xs with
  | nil => rfl
  | cons p ys ih =>
    have hcons : Laid h a (xs ++ [p] ++ ys) F := by simpa using hl
    have hrest := ih hcons
    rw [place_cons, List.map_cons, List.foldl_cons, hl.integrityWalker status]
    simpa [lastFree] using hrest

theorem tlsfCheckPool (hl : Laid h a bs F) (k : ℕ) :
    h.tlsfCheckPool (bs.length + 1 + k) (a + 4) = some 0 := by
  have hall : Laid h a ([] ++ bs) F := hl
  have hfold := hall.foldl_integrityWalker 0
  simp only [lastFree, after_nil] at hfold
  rw [Heap.tlsfCheckPool, hl.tlsfWalkPool k, Option.map_some, hfold]

end Laid

/-! ## Checking the lists -/

theorem foldlM_some {α β : Type*} {f : β → α → Option β} {b : β} {xs : List α}
    (hf : ∀ x ∈ xs, f b x = some b) : xs.foldlM f b = some b := by
  induction xs with
  | nil => rfl
  | cons x xs ih =>
    rw [List.foldlM_cons, hf x List.mem_cons_self]
    exact ih fun y hy => hf y (List.mem_cons_of_mem _ hy)

/-- What `tlsf_check` asks of a free block is so. -/
theorem Ok.free_block (ho : Ok h a bs) (hx : (x, s) ∈ frees a bs) :
    h.blockIsFree x = true ∧ h.blockIsPrevFree x = false ∧ h.blockIsFree (h.blockNext x) = false ∧
      h.blockIsPrevFree (h.blockNext x) = true ∧ h.blockSize x = s ∧ 12 ≤ s := by
  obtain ⟨xs, ys, rfl, rfl⟩ := mem_place_iff.mp (mem_frees.mp hx)
  have hl := ho.laid
  have hmin := (hl.fits.piece ⟨s, true⟩ (by simp)).2
  obtain ⟨q, rest, hrest, -, -, hnext, -⟩ := hl.next
  obtain ⟨-, hnot, hys⟩ := coalesced_append.mp ho.coalesced
  have hq : q.free = false := by
    cases ys with
    | nil =>
      obtain ⟨rfl, -⟩ := List.cons.inj hrest
      rfl
    | cons q' ys =>
      obtain ⟨rfl, -⟩ := List.cons.inj hrest
      simpa using hys.1
  have hprev : lastFree false xs = false := by simpa using hnot
  have haddr := hl.header.blockNext (le_trans (by decide) hmin)
  rw [haddr, hnext.blockIsFree, hnext.blockIsPrevFree, hl.header.blockIsFree,
    hl.header.blockIsPrevFree, hl.header.blockSize, hq, hprev]
  exact ⟨rfl, rfl, rfl, rfl, rfl, hmin⟩

theorem Ok.checkList (ho : Ok h a bs) {before head : ℕ}
    (hc : Chained h.nextFree h.prevFree h.blockNull before head l)
    (hmem : ∀ x ∈ l, ∃ s, (x, s) ∈ frees a bs ∧ mappingInsert s = (fl, sl)) {fuel : ℕ}
    (hfuel : l.length < fuel) : h.checkList fl sl fuel head status = some status := by
  induction l generalizing before head fuel with
  | nil =>
    obtain ⟨fuel, rfl⟩ := Nat.exists_eq_succ_of_ne_zero (Nat.ne_zero_of_lt hfuel)
    have hnull : head = h.blockNull := hc
    rw [Heap.checkList, if_pos hnull]
  | cons x l ih =>
    obtain ⟨rfl, hne, -, hrest⟩ := hc
    obtain ⟨fuel, rfl⟩ := Nat.exists_eq_succ_of_ne_zero (Nat.ne_zero_of_lt hfuel)
    obtain ⟨s, hx, hclass⟩ := hmem head List.mem_cons_self
    obtain ⟨hfree, hprev, hnext, hback, hsize, hmin⟩ := ho.free_block hx
    have hlarge : (12 : ℕ) ≥ blockSizeMin := by decide
    have hrec := ih hrest (fun y hy => hmem y (List.mem_cons_of_mem _ hy))
      (Nat.lt_of_succ_lt_succ hfuel)
    rw [Heap.checkList, if_neg hne]
    simp only [hfree, hprev, hnext, hback, hsize, hclass, Heap.insist, Bool.not_false, ↓reduceIte,
      beq_self_eq_true, decide_eq_true (show s ≥ blockSizeMin from hmin)]
    exact hrec

theorem Ok.checkClass (ho : Ok h a bs) (hfl : fl < 24) (hsl : sl < 32) {fuel : ℕ}
    (hfuel : bs.length < fuel) : h.checkClass fuel status fl sl = some status := by
  obtain ⟨lists, hlisted⟩ := ho.laid.lists
  have hchain := hlisted.chained fl hfl sl hsl
  have hmap : h.flBitmap &&& (1#32 <<< fl) = 0 → h.slBitmap fl = 0 := by
    intro hzero
    by_contra hne
    have hbit := (hlisted.flBit fl).mpr ⟨hfl, hne⟩
    rw [(BitSet.getLsbD_only _ (show fl < 32 by omega)).mp hzero] at hbit
    cases hbit
  have hfirst : (if h.flBitmap &&& (1#32 <<< fl) = 0 then
      Heap.insist status (h.slBitmap fl &&& (1#32 <<< sl) == 0) else status) = status := by
    split
    · next hzero =>
      rw [hmap hzero]
      simp [Heap.insist]
    · rfl
  simp only [Heap.checkClass]
  rw [hfirst]
  by_cases hbit : h.slBitmap fl &&& (1#32 <<< sl) = 0
  · have hnil : lists fl sl = [] := by
      by_contra hne
      have hset := (hlisted.slBit fl hfl sl).mpr ⟨hsl, hne⟩
      rw [(BitSet.getLsbD_only _ hsl).mp hbit] at hset
      cases hset
    rw [if_pos hbit, hchain.head_eq_null_iff.mpr hnil]
    simp [Heap.insist]
  · have hset : (h.slBitmap fl).getLsbD sl = true := by
      by_contra hclear
      exact hbit ((BitSet.getLsbD_only _ hsl).mpr (by simpa using hclear))
    have hne := ((hlisted.slBit fl hfl sl).mp hset).2
    have hsl0 : h.slBitmap fl ≠ 0 := (BitSet.ne_zero_iff _).mpr ⟨sl, hset⟩
    have hhead : h.blocks fl sl ≠ h.blockNull := fun heq => hne (hchain.head_eq_null_iff.mp heq)
    have hshort : (lists fl sl).length ≤ bs.length := by
      have hsub : (lists fl sl).Subperm ((frees a bs).map Prod.fst) := by
        apply List.subperm_of_subset (hlisted.nodup fl sl)
        intro x hx
        obtain ⟨s, hs, -⟩ := (hlisted.mem fl sl x).mp hx
        exact List.mem_map.mpr ⟨(x, s), hs, rfl⟩
      have hlen : (frees a bs).length ≤ bs.length := by
        rw [frees, List.length_map, ← @length_place _ Piece.span a bs]
        exact List.length_filter_le ..
      have hle := hsub.length_le
      rw [List.length_map] at hle
      exact hle.trans hlen
    have hinsist₁ : Heap.insist status (h.slBitmap fl != 0) = status := if_pos (bne_iff_ne.mpr hsl0)
    have hinsist₂ : Heap.insist status (h.blocks fl sl != h.blockNull) = status :=
      if_pos (bne_iff_ne.mpr hhead)
    rw [if_neg hbit, hinsist₁, hinsist₂]
    exact ho.checkList hchain (fun x hx => (hlisted.mem fl sl x).mp hx) (by omega)

theorem Ok.tlsfCheck (ho : Ok h a bs) (k : ℕ) : h.tlsfCheck (bs.length + 1 + k) = some 0 := by
  apply foldlM_some
  intro i hi
  have hlt := List.mem_range.mp hi
  simp only [flIndexCount, slIndexCount] at hlt ⊢
  exact ho.checkClass (by omega) (by omega) (by omega)

end BouffaloSdk.Mm
