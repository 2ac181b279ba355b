import BouffaloSdk.Mm.TlsfOps

/-!
# The calls on a heap with its row

Each call of the interface takes a heap that is its row's to one that is the next
row's, and stores nothing into what is handed out.
-/

namespace BouffaloSdk.Mm

open Kit.Tiling Tlsf

variable {h h' g g₁ g₂ : Heap} {a b c d n s t x y size : ℕ} {f pf : Bool} {p q : Piece}
  {xs ys bs mid : List Piece} {P : ℕ → Prop}

/-! ## Free -/

theorem tlsfFree_eq (hb : blockFromPtr (b + 8) = b)
    (hprev : (h.blockMarkAsFree b).blockMergePrev b = (g₁, c)) (hnext : g₁.blockMergeNext c = (g₂, d)) :
    h.tlsfFree (b + 8) = g₂.blockInsert d := by
  unfold Heap.tlsfFree
  rw [if_pos (Nat.succ_ne_zero _), hb]
  simp only [hprev, hnext]

/-- What is given back is free and joined with its free neighbours. -/
theorem tlsfFree_spec (ho : Ok h a (xs ++ ⟨s, false⟩ :: ys)) :
    Ok (h.tlsfFree (after Piece.span a xs + 8)) a (released xs s ys) ∧
      Frame h (h.tlsfFree (after Piece.span a xs + 8))
        fun y => ¬ Payload a (xs ++ ⟨s, true⟩ :: ys) y := by
  have hroom := ho.laid.header.room
  have hmin := (ho.laid.fits.piece ⟨s, false⟩ (by simp)).2
  have hblock := blockFromPtr_add (b := after Piece.span a xs) (by omega)
  obtain ⟨hheld₁, hframe₁⟩ := (Held.of_used ho.laid).markAsFree
  obtain ⟨hprev, hheld₂, hframe₂⟩ := hheld₁.blockMergePrev
  generalize hg₁ : (h.blockMarkAsFree (after Piece.span a xs)).blockMergePrev
    (after Piece.span a xs) = r₁ at hprev hheld₂ hframe₂
  obtain ⟨g₁, c⟩ := r₁
  obtain rfl : c = after Piece.span a (joinPrev xs s).1 := hprev
  obtain ⟨hnext, hheld₃, hframe₃⟩ := hheld₂.blockMergeNext
  generalize hg₂ : g₁.blockMergeNext (after Piece.span a (joinPrev xs s).1) = r₂
    at hnext hheld₃ hframe₃
  obtain ⟨g₂, d⟩ := r₂
  obtain rfl : d = after Piece.span a (joinPrev xs s).1 := hnext
  have hlast : Held g₂ a (joinPrev xs s).1 ([] ++ [⟨(joinNext (joinPrev xs s).2 ys).1, true⟩])
      (joinNext (joinPrev xs s).2 ys).2 := hheld₃
  obtain ⟨hheld₄, hframe₄⟩ := hlast.give
  rw [List.append_nil] at hheld₄ hframe₄
  rw [tlsfFree_eq hblock hg₁ hg₂]
  refine ⟨⟨?_, coalesced_released ho.coalesced rfl⟩, ?_⟩
  · unfold Held at hheld₄
    rw [List.append_nil, List.nil_append, ← frees_append] at hheld₄
    exact hheld₄
  · apply (((hframe₁.trans hframe₂).trans hframe₃).trans hframe₄).mono
    have hsame₃ : ∀ y, Payload a ((joinPrev xs s).1 ++ ⟨(joinPrev xs s).2, true⟩ :: ys) y ↔
        Payload a (xs ++ ⟨s, true⟩ :: ys) y := fun y => payload_congr useds_joinPrev
    have hsame₄ : ∀ y, Payload a (released xs s ys) y ↔ Payload a (xs ++ ⟨s, true⟩ :: ys) y :=
      fun y => payload_congr useds_released
    rintro y (((hy | hy) | hy) | hy)
    · exact hy
    · exact hy
    · exact (hsame₃ y).not.mp hy
    · exact (hsame₄ y).not.mp hy

/-! ## Malloc -/

/-- A block is taken off its list and held, unless all are smaller than the request rounded to a
class. -/
theorem Ok.locate (ho : Ok h a bs) (hr : RequestSize size) :
    (∃ xs s ys g, bs = xs ++ ⟨s, true⟩ :: ys ∧ size ≤ s ∧
        h.blockLocateFree size = (g, after Piece.span a xs) ∧ Held g a xs [⟨s, true⟩] ys ∧
        Frame h g fun y => ¬ Payload a bs y) ∨
      (∀ x s, (x, s) ∈ frees a bs → s < size + searchRound size) ∧
        h.blockLocateFree size = (h, 0) := by
  obtain ⟨lists, hlisted⟩ := ho.laid.lists
  have hpos : 0 < size := lt_of_lt_of_le (by decide) hr.min
  rcases blockLocateFree_spec hlisted ho.laid.fits.spaced hr.aligned hpos hr.max with
    ⟨x, s, hmem, hle, heq⟩ | hnone
  · obtain ⟨xs, ys, rfl, rfl⟩ := mem_place_iff.mp (mem_frees.mp hmem)
    have hlaid := ho.laid
    rw [frees_append, frees_cons_free] at hlaid
    obtain ⟨hheld, hframe⟩ := hlaid.remove
    refine .inl ⟨xs, s, ys, _, rfl, hle, heq, ?_, hframe⟩
    unfold Held
    simpa using hheld
  · exact .inr hnone

/-- A block cut at `size`: what both parts know, and what was stored for it. -/
structure Cut (h h' : Heap) (b s size t : ℕ) (u pf : Bool) : Prop where
  frame : Frame h h' fun y => wordAt (b + 4) y ∨ (b + 4 + size ≤ y ∧ y < b + 4 + s + 8)
  same : SameLists h h'
  block : Header h' b size true pf
  remaining : Header h' (b + 4 + size) (s - size - 4) true true
  back : h'.prevPhysBlock (b + 4 + size) = b
  back_next : h'.prevPhysBlock (b + 4 + s) = b + 4 + size
  next : Header h' (b + 4 + s) t u true

namespace Cut

variable {u : Bool} {v : Bool}

/-- The order of `block_trim_free`. -/
theorem linked (hb : Header h b s true pf) (hn : Header h (b + 4 + s) t u v) (hdvd : 4 ∣ size)
    (hmin : 12 ≤ size) (hfits : size + 16 ≤ s) :
    Cut h (((h.blockSplit b size).1.blockLinkNext b).1.blockSetPrevFree (b + 4 + size)) b s size t u
      pf := by
  have hroom := hb.room
  have hsame := blockSplit_same h b size
  obtain ⟨-, hb₁, ⟨pf', hr₁⟩, hn₁, hback₁, hframe₁⟩ := blockSplit_spec hb hn hdvd hmin hfits
  generalize (h.blockSplit b size).1 = g at *
  have hlink : (g.blockLinkNext b).1 = g.setPrevPhysBlock (b + 4 + size) b := by
    simp only [Heap.blockLinkNext, hb₁.blockNext (show 4 ≤ size by omega)]
  have hr₂ : Header (g.setPrevPhysBlock (b + 4 + size) b) (b + 4 + size) (s - size - 4) true pf' :=
    hr₁.setWord (by omega)
  rw [hlink]
  refine ⟨?_, ?_, ?_, hr₂.setPrevFree, ?_, ?_, ?_⟩
  · apply ((hframe₁.trans (setWord_frame ..)).trans (setWord_frame ..)).mono
    intro y hy
    simp only [splitAt, wordAt] at hy ⊢
    omega
  · exact (hsame.trans (setWord_same ..)).trans (setWord_same ..)
  · exact (hb₁.setWord (by omega)).setWord (by omega)
  · refine (word_setWord_of_disjoint (by omega)).trans ?_
    exact setPrevPhysBlock_word (by omega)
  · refine (word_setWord_of_disjoint (by omega)).trans ?_
    exact (word_setWord_of_disjoint (by omega)).trans hback₁
  · exact (hn₁.setWord (by omega)).setWord (by omega)

/-- The order of `block_trim_free_leading`. -/
theorem flagged (hb : Header h b s true pf) (hn : Header h (b + 4 + s) t u v) (hdvd : 4 ∣ size)
    (hmin : 12 ≤ size) (hfits : size + 16 ≤ s) :
    Cut h (((h.blockSplit b size).1.blockSetPrevFree (b + 4 + size)).blockLinkNext b).1 b s size t u
      pf := by
  have hroom := hb.room
  have hsame := blockSplit_same h b size
  obtain ⟨-, hb₁, ⟨pf', hr₁⟩, hn₁, hback₁, hframe₁⟩ := blockSplit_spec hb hn hdvd hmin hfits
  generalize (h.blockSplit b size).1 = g at *
  have hb₂ : Header (g.blockSetPrevFree (b + 4 + size)) b size true pf := hb₁.setWord (by omega)
  have hlink : ((g.blockSetPrevFree (b + 4 + size)).blockLinkNext b).1 =
      (g.blockSetPrevFree (b + 4 + size)).setPrevPhysBlock (b + 4 + size) b := by
    simp only [Heap.blockLinkNext, hb₂.blockNext (show 4 ≤ size by omega)]
  rw [hlink]
  refine ⟨?_, ?_, ?_, hr₁.setPrevFree.setWord (by omega), ?_, ?_, ?_⟩
  · apply ((hframe₁.trans (setWord_frame ..)).trans (setWord_frame ..)).mono
    intro y hy
    simp only [splitAt, wordAt] at hy ⊢
    omega
  · exact (hsame.trans (setWord_same ..)).trans (setWord_same ..)
  · exact hb₂.setWord (by omega)
  · exact setPrevPhysBlock_word (by omega)
  · refine (word_setWord_of_disjoint (by omega)).trans ?_
    exact (word_setWord_of_disjoint (by omega)).trans hback₁
  · exact (hn₁.setWord (by omega)).setWord (by omega)

end Cut

namespace Held

theorem cut (hl : Held h a xs [⟨s, true⟩] ys) (hdvd : 4 ∣ size) (hmin : 12 ≤ size)
    (hfits : size + 16 ≤ s)
    (hcut : ∀ q rest, ys ++ [sentinel] = q :: rest →
      Cut h h' (after Piece.span a xs) s size q.size q.free (lastFree false xs)) :
    Held h' a xs [⟨size, true⟩, ⟨s - size - 4, true⟩] ys ∧
      Frame h h' fun y => ¬ Payload a (xs ++ ⟨s, true⟩ :: ys) y := by
  obtain ⟨q, rest, hrest, hroom, -, -, hseg⟩ := hl.one.next
  obtain ⟨hframe, hsame, hb, hrem, hback, hback', hn⟩ := hcut q rest hrest
  have hs := hl.fits.piece ⟨s, true⟩ (by simp)
  have hend : after Piece.span a (xs ++ [⟨s, true⟩]) = after Piece.span a xs + 4 + s := by
    simp only [after_append, after_cons, after_nil, span_mk]
    omega
  have hwindow : ∀ y, (wordAt (after Piece.span a xs + 4) y ∨
      (after Piece.span a xs + 4 + size ≤ y ∧ y < after Piece.span a xs + 4 + s + 8)) →
      after Piece.span a xs + 4 ≤ y ∧ y < after Piece.span a (xs ++ [⟨s, true⟩]) + 8 := by
    intro y hy
    simp only [wordAt] at hy
    omega
  refine ⟨?_, hframe.mono fun y hy => ?_⟩
  · apply hl.edit hframe hwindow hsame
    · simp only [List.cons_append, List.nil_append, hrest]
      apply hseg.of_split hroom hfits hframe ?_ hb hrem (fun _ => hback) hback' hn
      intro y hy
      simp only [wordAt] at hy ⊢
      omega
    · simp only [after_append, after_cons, after_nil, span_mk]
      omega
    · intro p hp
      simp only [List.mem_cons, List.not_mem_nil, or_false] at hp
      simp only at hs
      rcases hp with rfl | rfl <;> simp only <;> omega
  · obtain ⟨hlow, hhigh⟩ := hwindow y hy
    have hnot : ¬ Payload a (xs ++ ([⟨s, true⟩] ++ ys)) y := not_payload_window (by simp) hlow hhigh
    exact hnot

theorem blockCanSplit (hl : Held h a xs (⟨s, f⟩ :: mid) ys) (hmax : size < 2 ^ 31) :
    h.blockCanSplit (after Piece.span a xs) size = decide (size + 16 ≤ s) := by
  have hsize : h.blockSize (after Piece.span a xs) = s := by
    unfold Held at hl
    exact hl.header.blockSize
  have hadd : add32 sizeofBlockHeader size = size + 16 := by
    unfold add32 sizeofBlockHeader
    omega
  rw [Heap.blockCanSplit, hsize, hadd]

theorem blockTrimFree (hl : Held h a xs [⟨s, true⟩] ys) (hr : RequestSize size) :
    Held (h.blockTrimFree (after Piece.span a xs) size) a xs [⟨(carve s size).1, true⟩]
        ((carve s size).2 ++ ys) ∧
      Frame h (h.blockTrimFree (after Piece.span a xs) size)
        fun y => ¬ Payload a (xs ++ ⟨s, true⟩ :: ys) y := by
  have hmax := hr.max
  have hcan := hl.blockCanSplit (show size < 2 ^ 31 by omega)
  by_cases hfits : size + 16 ≤ s
  · obtain ⟨q, rest, hrest, -, -, hnext, -⟩ := hl.one.next
    have hremaining := (blockSplit_spec hl.one.header hnext hr.aligned hr.min hfits).1
    obtain ⟨hheld, hframe⟩ := hl.cut hr.aligned hr.min hfits fun q' rest' hrest' => by
      obtain ⟨rfl, -⟩ := List.cons.inj (hrest.symm.trans hrest')
      exact Cut.linked hl.one.header hnext hr.aligned hr.min hfits
    have htwo : Held (((h.blockSplit (after Piece.span a xs) size).1.blockLinkNext
        (after Piece.span a xs)).1.blockSetPrevFree (after Piece.span a xs + 4 + size)) a xs
        ([⟨size, true⟩] ++ [⟨s - size - 4, true⟩]) ys := hheld
    obtain ⟨hheld', hframe'⟩ := htwo.give
    have hstart : after Piece.span a (xs ++ [⟨size, true⟩]) = after Piece.span a xs + 4 + size := by
      simp only [after_append, after_cons, after_nil, span_mk]
      omega
    have heq : h.blockTrimFree (after Piece.span a xs) size =
        (((h.blockSplit (after Piece.span a xs) size).1.blockLinkNext
          (after Piece.span a xs)).1.blockSetPrevFree (after Piece.span a xs + 4 + size)).blockInsert
            (after Piece.span a (xs ++ [⟨size, true⟩])) := by
      rw [hstart]
      unfold Heap.blockTrimFree
      rw [hcan, if_pos (decide_eq_true hfits)]
      simp only [hremaining]
    have hsame : ∀ y, Payload a (xs ++ ([⟨size, true⟩] ++ ⟨s - size - 4, true⟩ :: ys)) y ↔
        Payload a (xs ++ ⟨s, true⟩ :: ys) y := by
      refine fun y => payload_congr ?_
      have hend : after Piece.span a xs + (4 + size) + (4 + (s - size - 4)) =
          after Piece.span a xs + (4 + s) := by omega
      simp [hend]
    rw [heq, carve, if_pos hfits]
    refine ⟨hheld', (hframe.trans hframe').mono ?_⟩
    rintro y (hy | hy)
    · exact hy
    · exact (hsame y).not.mp hy
  · have heq : h.blockTrimFree (after Piece.span a xs) size = h := by
      rw [Heap.blockTrimFree, hcan, if_neg (by simpa using hfits)]
    rw [heq, carve, if_neg hfits]
    exact ⟨hl, Frame.refl h⟩

end Held

theorem blockTrimFree_useds (xs ys : List Piece) (s size : ℕ) :
    useds a (xs ++ ⟨(carve s size).1, true⟩ :: ((carve s size).2 ++ ys)) =
      useds a (xs ++ ⟨s, true⟩ :: ys) := by
  unfold carve
  split
  · have hend : after Piece.span a xs + (4 + size) + (4 + (s - size - 4)) =
        after Piece.span a xs + (4 + s) := by omega
    simp [hend]
  · simp

/-- The row when a request for `size` bytes takes the free block between `xs` and `ys`. -/
def taken (xs : List Piece) (s size : ℕ) (ys : List Piece) : List Piece :=
  xs ++ ⟨(carve s size).1, false⟩ :: ((carve s size).2 ++ ys)

theorem le_carve (hle : size ≤ s) : size ≤ (carve s size).1 := by
  unfold carve
  split <;> simp only <;> omega

theorem after_taken (xs ys : List Piece) (s size : ℕ) :
    after Piece.span a (taken xs s size ys) = after Piece.span a (xs ++ ⟨s, true⟩ :: ys) := by
  unfold taken carve
  split
  · simp only [after_append, after_cons, span_mk, List.cons_append, List.nil_append]
    congr 1
    omega
  · simp

theorem mem_useds_taken (xs ys : List Piece) (s size x t : ℕ) :
    (x, t) ∈ useds a (taken xs s size ys) ↔
      (x, t) = (after Piece.span a xs, (carve s size).1) ∨
        (x, t) ∈ useds a (xs ++ ⟨s, true⟩ :: ys) := by
  have hsame := blockTrimFree_useds (a := a) xs ys s size
  rw [← hsame, taken]
  simp only [useds_append, useds_cons_free, useds_cons_used, List.mem_append, List.mem_cons]
  tauto

theorem coalesced_of_true (hc : Coalesced true ys) : Coalesced false ys := by
  cases ys with
  | nil => trivial
  | cons q ys => exact ⟨by simp, hc.2⟩

theorem coalesced_taken (hc : Coalesced false (xs ++ ⟨s, true⟩ :: ys)) (size : ℕ) :
    Coalesced false (taken xs s size ys) := by
  obtain ⟨hxs, -, hys⟩ := coalesced_append.mp hc
  refine coalesced_append.mpr ⟨hxs, by simp, ?_⟩
  unfold carve
  split
  · exact ⟨by simp, hys⟩
  · exact coalesced_of_true hys

theorem Held.blockPrepareUsed (hl : Held h a xs [⟨s, true⟩] ys) (hr : RequestSize size) :
    (h.blockPrepareUsed (after Piece.span a xs) size).2 = after Piece.span a xs + 8 ∧
      Laid (h.blockPrepareUsed (after Piece.span a xs) size).1 a (taken xs s size ys)
        (frees a (taken xs s size ys)) ∧
      Frame h (h.blockPrepareUsed (after Piece.span a xs) size).1
        fun y => ¬ Payload a (xs ++ ⟨s, true⟩ :: ys) y := by
  have hstart := hl.fits.start
  have hle := @le_after _ Piece.span a xs
  have hs := hl.fits.piece ⟨s, true⟩ (by simp)
  have hptr := hl.one.header.blockToPtr (le_trans (by decide) hs.2)
  obtain ⟨hheld, hframe⟩ := hl.blockTrimFree hr
  obtain ⟨hheld', hframe'⟩ := hheld.markAsUsed
  have heq : h.blockPrepareUsed (after Piece.span a xs) size =
      ((h.blockTrimFree (after Piece.span a xs) size).blockMarkAsUsed (after Piece.span a xs),
        after Piece.span a xs + 8) := by
    rw [Heap.blockPrepareUsed, if_pos (show after Piece.span a xs ≠ 0 by omega), hptr]
  have hsame : ∀ y, Payload a (xs ++ ⟨(carve s size).1, true⟩ :: ((carve s size).2 ++ ys)) y ↔
      Payload a (xs ++ ⟨s, true⟩ :: ys) y := fun y => payload_congr (blockTrimFree_useds ..)
  rw [heq]
  refine ⟨rfl, hheld'.to_used, (hframe.trans hframe').mono ?_⟩
  rintro y (hy | hy)
  · exact hy
  · exact (hsame y).not.mp hy

theorem tlsfMalloc_eq (hne : adjustRequestSize size 4 ≠ 0)
    (hloc : h.blockLocateFree (adjustRequestSize size 4) = (g, b)) :
    h.tlsfMalloc size = g.blockPrepareUsed b (adjustRequestSize size 4) := by
  have hne' : adjustRequestSize size alignSize ≠ 0 := hne
  have hloc' : h.blockLocateFree (adjustRequestSize size alignSize) = (g, b) := hloc
  unfold Heap.tlsfMalloc
  simp only [if_neg hne', hloc']
  rfl

theorem tlsfMalloc_zero (hzero : adjustRequestSize size 4 = 0) : h.tlsfMalloc size = (h, 0) :=
  if_pos hzero

/-- A request takes a free block that is large enough, or changes nothing: then it is for no
bytes, for more than a block can have, or for more than every free block once rounded to a class. -/
theorem tlsfMalloc_spec (ho : Ok h a bs) (hsize : size < 2 ^ 32) :
    (∃ xs s ys, bs = xs ++ ⟨s, true⟩ :: ys ∧ 0 < size ∧ size ≤ adjustRequestSize size 4 ∧
        adjustRequestSize size 4 ≤ s ∧ (h.tlsfMalloc size).2 = after Piece.span a xs + 8 ∧
        Ok (h.tlsfMalloc size).1 a (taken xs s (adjustRequestSize size 4) ys) ∧
        Frame h (h.tlsfMalloc size).1 fun y => ¬ Payload a bs y) ∨
      h.tlsfMalloc size = (h, 0) ∧ (size = 0 ∨ 2 ^ 30 - 4 < size ∨
        ∀ x s, (x, s) ∈ frees a bs →
          s < adjustRequestSize size 4 + searchRound (adjustRequestSize size 4)) := by
  by_cases hne : adjustRequestSize size 4 = 0
  · refine .inr ⟨?_, ?_⟩
    · exact tlsfMalloc_zero hne
    · have hpos := adjustRequestSize_pos_iff hsize
      simp only [ne_eq, hne, not_true_eq_false, false_iff] at hpos
      omega
  · obtain ⟨hr, hle, hpos, -⟩ := adjustRequestSize_spec hsize hne
    rcases ho.locate hr with ⟨xs, s, ys, g, rfl, hs, hloc, hheld, hframe⟩ | ⟨hsmall, hloc⟩
    · obtain ⟨hptr, hlaid, hframe'⟩ := hheld.blockPrepareUsed hr
      rw [tlsfMalloc_eq hne hloc]
      refine .inl ⟨xs, s, ys, rfl, hpos, hle, hs, hptr, ⟨hlaid, ?_⟩, ?_⟩
      · exact coalesced_taken ho.coalesced _
      · exact (hframe.trans hframe').mono fun y hy => hy.elim id id
    · refine .inr ⟨?_, .inr (.inr hsmall)⟩
      rw [tlsfMalloc_eq hne hloc, Heap.blockPrepareUsed, if_neg (by simp)]

/-! ## Requests for an alignment -/

/-- The gap is none or a whole block, and less than the request has been enlarged by. -/
theorem alignmentGap_spec {k ptr : ℕ} (hk : 3 ≤ k) (hk' : k ≤ 31) (hptr : 4 ∣ ptr)
    (hroom : ptr + 2 ^ k + 28 ≤ 2 ^ 32) :
    4 ∣ Heap.alignmentGap ptr (2 ^ k) ∧
      (Heap.alignmentGap ptr (2 ^ k) = 0 ∨ 16 ≤ Heap.alignmentGap ptr (2 ^ k)) ∧
      Heap.alignmentGap ptr (2 ^ k) ≤ 2 ^ k + 12 ∧ 2 ^ k ∣ ptr + Heap.alignmentGap ptr (2 ^ k) := by
  have hpos : 0 < 2 ^ k := Nat.two_pow_pos k
  have hle : ptr ≤ Kit.roundUp ptr (2 ^ k) := Kit.le_roundUp hpos
  have hlt : Kit.roundUp ptr (2 ^ k) < ptr + 2 ^ k := Kit.roundUp_lt hpos
  have hdvd : 2 ^ k ∣ Kit.roundUp ptr (2 ^ k) := Kit.dvd_roundUp ..
  have hfour : 4 ∣ Kit.roundUp ptr (2 ^ k) := (pow_dvd_pow 2 (show 2 ≤ k by omega)).trans hdvd
  have hup : alignUp ptr (2 ^ k) = Kit.roundUp ptr (2 ^ k) := alignUp_eq (by omega) (by omega)
  generalize Kit.roundUp ptr (2 ^ k) = aligned at *
  have hgap : sub32 aligned ptr = aligned - ptr := by
    unfold sub32
    omega
  unfold Heap.alignmentGap
  simp only [hup, hgap, sizeofBlockHeader]
  by_cases hsmall : aligned - ptr ≠ 0 ∧ aligned - ptr < 16
  · rw [if_pos hsmall]
    obtain ⟨hne, hlt16⟩ := hsmall
    by_cases hthree : k = 3
    · subst hthree
      have hadd : add32 aligned (max (16 - (aligned - ptr)) (2 ^ 3)) = aligned + 12 := by
        unfold add32
        omega
      have hround : Kit.roundUp (aligned + 12) (2 ^ 3) = aligned + 16 := by
        unfold Kit.roundUp
        omega
      rw [hadd, alignUp_eq (by decide) (by omega), hround]
      have hsub : sub32 (aligned + 16) ptr = aligned + 16 - ptr := by
        unfold sub32
        omega
      rw [hsub]
      omega
    · have hlarge : 2 ^ 4 ≤ 2 ^ k := Nat.pow_le_pow_right (by decide) (by omega)
      have hadd : add32 aligned (max (16 - (aligned - ptr)) (2 ^ k)) = aligned + 2 ^ k := by
        rw [Nat.max_eq_right (by omega), add32, Nat.mod_eq_of_lt (by omega)]
      have hdvd' : 2 ^ k ∣ aligned + 2 ^ k := Nat.dvd_add hdvd (Nat.dvd_refl _)
      -- a multiple of the alignment below the last address is that far below it
      have htop : aligned + 2 ^ k + 2 ^ k ≤ 2 ^ 32 := by
        obtain ⟨m, hm⟩ := hdvd'
        have hsplit : 2 ^ 32 = 2 ^ k * 2 ^ (32 - k) := by
          rw [← Nat.pow_add, Nat.add_sub_cancel' (by omega)]
        have hm' : 2 ^ k * m < 2 ^ k * 2 ^ (32 - k) := by
          rw [← hsplit]
          omega
        have hstep : 2 ^ k * (m + 1) ≤ 2 ^ k * 2 ^ (32 - k) :=
          Nat.mul_le_mul_left _ (Nat.lt_of_mul_lt_mul_left hm')
        rw [Nat.mul_succ, ← hsplit] at hstep
        omega
      have hsub : sub32 (aligned + 2 ^ k) ptr = aligned + 2 ^ k - ptr := by
        unfold sub32
        omega
      rw [hadd, alignUp_eq (by omega) (by omega), Kit.roundUp_of_dvd hpos hdvd', hsub]
      have hsum : ptr + (aligned + 2 ^ k - ptr) = aligned + 2 ^ k := by omega
      have hfour' : 4 ∣ 2 ^ k := pow_dvd_pow 2 (show 2 ≤ k by omega)
      refine ⟨by omega, .inr (by omega), by omega, ?_⟩
      rw [hsum]
      exact hdvd'
  · rw [if_neg hsmall]
    have hsum : ptr + (aligned - ptr) = aligned := by omega
    refine ⟨by omega, by omega, by omega, ?_⟩
    rw [hsum]
    exact hdvd

theorem alignmentGap_of_dvd {k ptr : ℕ} (hk : k ≤ 31) (hptr : 2 ^ k ∣ ptr)
    (hroom : ptr + 2 ^ k ≤ 2 ^ 32) : Heap.alignmentGap ptr (2 ^ k) = 0 := by
  have hpos : 0 < 2 ^ k := Nat.two_pow_pos k
  have hgap : sub32 ptr ptr = 0 := by
    unfold sub32
    omega
  simp only [Heap.alignmentGap]
  rw [alignUp_eq (by omega) (by omega), Kit.roundUp_of_dvd hpos hptr, hgap]
  rfl

theorem Held.blockTrimFreeLeading {gap : ℕ} (hl : Held h a xs [⟨s, true⟩] ys) (hdvd : 4 ∣ gap)
    (hmin : 16 ≤ gap) (hfits : gap + 16 ≤ s) :
    (h.blockTrimFreeLeading (after Piece.span a xs) gap).2 =
        after Piece.span a (xs ++ [⟨gap - 4, true⟩]) ∧
      Held (h.blockTrimFreeLeading (after Piece.span a xs) gap).1 a (xs ++ [⟨gap - 4, true⟩])
        [⟨s - gap, true⟩] ys ∧
      Frame h (h.blockTrimFreeLeading (after Piece.span a xs) gap).1
        fun y => ¬ Payload a (xs ++ ⟨s, true⟩ :: ys) y := by
  have hmax := (hl.fits.size ⟨s, true⟩ (by simp)).max
  simp only at hmax
  have hcan := hl.blockCanSplit (show gap < 2 ^ 31 by omega)
  have hsub : sub32 gap blockHeaderOverhead = gap - 4 := by
    unfold sub32 blockHeaderOverhead
    omega
  obtain ⟨q, rest, hrest, -, -, hnext, -⟩ := hl.one.next
  have hremaining := (blockSplit_spec hl.one.header hnext (show 4 ∣ gap - 4 by omega) (by omega)
    (by simp only; omega)).1
  obtain ⟨hheld, hframe⟩ := hl.cut (show 4 ∣ gap - 4 by omega) (by omega) (by omega)
    fun q' rest' hrest' => by
      obtain ⟨rfl, -⟩ := List.cons.inj (hrest.symm.trans hrest')
      exact Cut.flagged hl.one.header hnext (by omega) (by omega) (by omega)
  obtain ⟨hheld', hframe'⟩ := hheld.give_before
  have hstart : after Piece.span a (xs ++ [⟨gap - 4, true⟩]) =
      after Piece.span a xs + 4 + (gap - 4) := by
    simp only [after_append, after_cons, after_nil, span_mk]
    omega
  have heq : h.blockTrimFreeLeading (after Piece.span a xs) gap =
      ((((h.blockSplit (after Piece.span a xs) (gap - 4)).1.blockSetPrevFree
        (after Piece.span a xs + 4 + (gap - 4))).blockLinkNext (after Piece.span a xs)).1.blockInsert
          (after Piece.span a xs), after Piece.span a (xs ++ [⟨gap - 4, true⟩])) := by
    rw [hstart]
    unfold Heap.blockTrimFreeLeading
    rw [hcan, if_pos (decide_eq_true hfits), hsub]
    simp only [hremaining]
  have hleft : s - (gap - 4) - 4 = s - gap := by omega
  have hsame : ∀ y, Payload a (xs ++ (⟨gap - 4, true⟩ :: [⟨s - (gap - 4) - 4, true⟩] ++ ys)) y ↔
      Payload a (xs ++ ⟨s, true⟩ :: ys) y := by
    refine fun y => payload_congr ?_
    have hend : after Piece.span a xs + (4 + (gap - 4)) + (4 + (s - (gap - 4) - 4)) =
        after Piece.span a xs + (4 + s) := by omega
    simp [hend]
  rw [heq]
  refine ⟨rfl, hleft ▸ hheld', (hframe.trans hframe').mono ?_⟩
  rintro y (hy | hy)
  · exact hy
  · exact (hsame y).not.mp hy

/-- A request has been granted: the row has one used block more, which is large enough. -/
structure Granted (h h' : Heap) (a : ℕ) (bs : List Piece) (ptr size : ℕ) : Prop where
  ok : ∃ bs', Ok h' a bs' ∧ after Piece.span a bs' = after Piece.span a bs ∧
    ∃ x s, ptr = x + 8 ∧ size ≤ s ∧ (∀ t, (x, t) ∉ useds a bs) ∧
      ∀ y t, (y, t) ∈ useds a bs' ↔ (y, t) = (x, s) ∨ (y, t) ∈ useds a bs
  frame : Frame h h' fun y => ¬ Payload a bs y

theorem not_mem_useds_of_free (hmem : (x, ⟨s, true⟩) ∈ place Piece.span a bs) (t : ℕ) :
    (x, t) ∉ useds a bs := by
  intro hused
  have heq := mem_place_unique hmem (mem_useds.mp hused) (by unfold Piece.span; omega)
    (by unfold Piece.span; omega)
  cases heq

theorem granted_of_taken {req : ℕ} (hreq : req ≤ size)
    (hle : size ≤ s)
    (hok : Ok h' a (taken xs s size ys)) (hframe : Frame h h' fun y =>
      ¬ Payload a (xs ++ ⟨s, true⟩ :: ys) y) :
    Granted h h' a (xs ++ ⟨s, true⟩ :: ys) (after Piece.span a xs + 8) req := by
  have hmem : (after Piece.span a xs, (⟨s, true⟩ : Piece)) ∈
      place Piece.span a (xs ++ ⟨s, true⟩ :: ys) := mem_place_iff.mpr ⟨xs, ys, rfl, rfl⟩
  refine ⟨⟨_, hok, after_taken .., after Piece.span a xs, (carve s size).1, rfl, ?_, ?_, ?_⟩, hframe⟩
  · exact hreq.trans (le_carve hle)
  · exact not_mem_useds_of_free hmem
  · exact fun y t => mem_useds_taken xs ys s size y t

theorem tlsfMalloc_granted (ho : Ok h a bs) (hsize : size < 2 ^ 32) :
    0 < size ∧ Granted h (h.tlsfMalloc size).1 a bs (h.tlsfMalloc size).2 size ∨
      h.tlsfMalloc size = (h, 0) := by
  rcases tlsfMalloc_spec ho hsize with ⟨xs, s, ys, rfl, hpos, hle, hs, hptr, hok, hframe⟩ | ⟨hfail, -⟩
  · rw [hptr]
    exact .inl ⟨hpos, granted_of_taken hle hs hok hframe⟩
  · exact .inr hfail

theorem Fits.after_aligned {null : ℕ} (hf : Fits null a (xs ++ ys)) : 4 ∣ after Piece.span a xs := by
  have hpiece : ∀ p ∈ xs, 4 ∣ p.size := fun p hp => (hf.piece p (List.mem_append_left _ hp)).1
  have haligned := hf.aligned
  clear hf
  induction xs generalizing a with
  | nil => exact haligned
  | cons p xs ih =>
    have hp := hpiece p List.mem_cons_self
    apply ih fun q hq => hpiece q (List.mem_cons_of_mem _ hq)
    unfold Piece.span
    omega

theorem adjustRequestSize_aligned {k : ℕ} (hk : 2 ≤ k) (hk' : k ≤ 31) (hx : x < 2 ^ 32)
    (hmin : 12 ≤ x) (hne : adjustRequestSize x (2 ^ k) ≠ 0) :
    RequestSize (adjustRequestSize x (2 ^ k)) ∧ x ≤ adjustRequestSize x (2 ^ k) := by
  have heq := adjustRequestSize_eq hk' hx
  have hle : x ≤ Kit.roundUp x (2 ^ k) := Kit.le_roundUp (Nat.two_pow_pos k)
  have hdvd : 4 ∣ Kit.roundUp x (2 ^ k) := (pow_dvd_pow 2 hk).trans (Kit.dvd_roundUp ..)
  split at heq
  · next hcond =>
    rw [Nat.max_eq_left (by omega)] at heq
    rw [heq]
    exact ⟨⟨hdvd, by omega, hcond.2⟩, hle⟩
  · exact absurd heq hne

/-- What is looked for so that a block of `adjust` bytes can be aligned in it. -/
def alignedSize (align size : ℕ) : ℕ :=
  if adjustRequestSize size alignSize ≠ 0 ∧ align > alignSize then
    adjustRequestSize (add32 (add32 (adjustRequestSize size alignSize) align) sizeofBlockHeader) align
  else adjustRequestSize size alignSize

theorem alignedSize_of_lt {align : ℕ} (hne : adjustRequestSize size 4 ≠ 0) (hlt : 4 < align) :
    alignedSize align size = adjustRequestSize (add32 (add32 (adjustRequestSize size 4) align)
      sizeofBlockHeader) align :=
  if_pos ⟨hne, hlt⟩

theorem alignedSize_of_le {align : ℕ} (hle : align ≤ 4) :
    alignedSize align size = adjustRequestSize size 4 :=
  if_neg fun hc => Nat.not_lt.mpr hle hc.2

theorem tlsfMemalign_eq {align : ℕ} (hne : adjustRequestSize size 4 ≠ 0)
    (hgap : adjustRequestSize (add32 (add32 (adjustRequestSize size 4) align) sizeofBlockHeader)
      align ≠ 0) (hloc : h.blockLocateFree (alignedSize align size) = (g, b)) :
    h.tlsfMemalign align size =
      if b ≠ 0 then
        if Heap.alignmentGap (blockToPtr b) align ≠ 0 then
          (g.blockTrimFreeLeading b (Heap.alignmentGap (blockToPtr b) align)).1.blockPrepareUsed
            (g.blockTrimFreeLeading b (Heap.alignmentGap (blockToPtr b) align)).2
            (adjustRequestSize size 4)
        else g.blockPrepareUsed b (adjustRequestSize size 4)
      else g.blockPrepareUsed b (adjustRequestSize size 4) := by
  have hne' : adjustRequestSize size alignSize ≠ 0 := hne
  have hgap' : adjustRequestSize (add32 (add32 (adjustRequestSize size alignSize) align)
    sizeofBlockHeader) align ≠ 0 := hgap
  unfold alignedSize at hloc
  unfold Heap.tlsfMemalign
  simp only [if_neg hne', if_neg hgap', hloc]
  rfl

theorem Granted.of_leading {gap S : ℕ} (ho : Ok h a (xs ++ ⟨S, true⟩ :: ys)) {req : ℕ}
    (hgap : 16 ≤ gap) (hfits : gap + 16 ≤ S) (hreq : req ≤ size) (hle : size ≤ S - gap)
    (hlaid : Laid h' a (taken (xs ++ [⟨gap - 4, true⟩]) (S - gap) size ys)
      (frees a (taken (xs ++ [⟨gap - 4, true⟩]) (S - gap) size ys)))
    (hframe : Frame h h' fun y => ¬ Payload a (xs ++ ⟨S, true⟩ :: ys) y) :
    Granted h h' a (xs ++ ⟨S, true⟩ :: ys) (after Piece.span a (xs ++ [⟨gap - 4, true⟩]) + 8)
      req := by
  obtain ⟨hxs, hnot, hys⟩ := coalesced_append.mp ho.coalesced
  have hlast : lastFree false xs = false := by simpa using hnot
  have hcoal : Coalesced false (taken (xs ++ [⟨gap - 4, true⟩]) (S - gap) size ys) := by
    refine coalesced_append.mpr ⟨coalesced_append.mpr ⟨hxs, by simp [hlast], trivial⟩, by simp, ?_⟩
    unfold carve
    split
    · exact ⟨by simp, hys⟩
    · exact coalesced_of_true hys
  have hend : after Piece.span a xs + (4 + (gap - 4)) + (4 + (S - gap)) =
      after Piece.span a xs + (4 + S) := by omega
  have hsame : useds a (xs ++ [⟨gap - 4, true⟩] ++ ⟨S - gap, true⟩ :: ys) =
      useds a (xs ++ ⟨S, true⟩ :: ys) := by
    simp [hend]
  have hafter : after Piece.span a (xs ++ [⟨gap - 4, true⟩] ++ ⟨S - gap, true⟩ :: ys) =
      after Piece.span a (xs ++ ⟨S, true⟩ :: ys) := by
    simp [hend]
  have hmem : (after Piece.span a (xs ++ [⟨gap - 4, true⟩]), (⟨S - gap, true⟩ : Piece)) ∈
      place Piece.span a (xs ++ [⟨gap - 4, true⟩] ++ ⟨S - gap, true⟩ :: ys) :=
    mem_place_iff.mpr ⟨_, ys, rfl, rfl⟩
  refine ⟨⟨_, ⟨hlaid, hcoal⟩, (after_taken ..).trans hafter, _, (carve (S - gap) size).1, rfl, ?_,
    ?_, ?_⟩, hframe⟩
  · exact hreq.trans (le_carve hle)
  · intro t
    rw [← hsame]
    exact not_mem_useds_of_free hmem t
  · intro y t
    rw [← hsame]
    exact mem_useds_taken ..

/-- A request for an alignment is granted with it, or changes nothing. -/
theorem tlsfMemalign_granted {k : ℕ} (ho : Ok h a bs) (hk : k ≤ 31) (hsize : size < 2 ^ 32) :
    0 < size ∧ Granted h (h.tlsfMemalign (2 ^ k) size).1 a bs (h.tlsfMemalign (2 ^ k) size).2 size ∧
        2 ^ k ∣ (h.tlsfMemalign (2 ^ k) size).2 ∨
      h.tlsfMemalign (2 ^ k) size = (h, 0) := by
  by_cases hne : adjustRequestSize size 4 = 0
  · exact .inr (if_pos hne)
  obtain ⟨hr, hle, hpos, -⟩ := adjustRequestSize_spec hsize hne
  have hrmax := hr.max
  have hrmin := hr.min
  have hpow : 2 ^ k ≤ 2 ^ 31 := Nat.pow_le_pow_right (by decide) hk
  have hpow0 : 0 < 2 ^ k := Nat.two_pow_pos k
  have hsum : add32 (add32 (adjustRequestSize size 4) (2 ^ k)) sizeofBlockHeader =
      adjustRequestSize size 4 + 2 ^ k + 16 := by
    unfold add32 sizeofBlockHeader
    omega
  by_cases hgap0 : adjustRequestSize (add32 (add32 (adjustRequestSize size 4) (2 ^ k))
      sizeofBlockHeader) (2 ^ k) = 0
  · exact .inr ((if_neg hne).trans (if_pos hgap0))
  have hreq : RequestSize (alignedSize (2 ^ k) size) ∧
      adjustRequestSize size 4 ≤ alignedSize (2 ^ k) size ∧
      (3 ≤ k → adjustRequestSize size 4 + 2 ^ k + 16 ≤ alignedSize (2 ^ k) size) := by
    by_cases hthree : 3 ≤ k
    · have hpow3 : 2 ^ 3 ≤ 2 ^ k := Nat.pow_le_pow_right (by decide) hthree
      obtain ⟨hr', hle'⟩ := adjustRequestSize_aligned (by omega) hk (by rw [hsum]; omega)
        (by rw [hsum]; omega) hgap0
      rw [hsum] at hr' hle'
      rw [alignedSize_of_lt hne (by omega), hsum]
      exact ⟨hr', by omega, fun _ => hle'⟩
    · have hpow2 : 2 ^ k ≤ 2 ^ 2 := Nat.pow_le_pow_right (by decide) (by omega)
      rw [alignedSize_of_le (by omega)]
      exact ⟨hr, Nat.le_refl _, fun h3 => absurd h3 hthree⟩
  obtain ⟨hr', hle', hlarge⟩ := hreq
  rcases ho.locate hr' with ⟨xs, s, ys, g, rfl, hs, hloc, hheld, hframe⟩ | ⟨-, hloc⟩
  · left
    have hstart := ho.laid.fits.start
    have hlea := @le_after _ Piece.span a xs
    have hroom := ho.laid.header.room
    have hptr := hheld.one.header.blockToPtr (by simp only; omega)
    have haligned := ho.laid.fits.after_aligned
    simp only at hroom hptr
    rw [tlsfMemalign_eq hne hgap0 hloc, if_pos (by omega), hptr]
    by_cases hgap : Heap.alignmentGap (after Piece.span a xs + 8) (2 ^ k) = 0
    · rw [if_neg (by simpa using hgap)]
      obtain ⟨hres, hlaid, hframe'⟩ := hheld.blockPrepareUsed hr
      rw [hres]
      refine ⟨hpos, granted_of_taken hle (by omega) ⟨hlaid, coalesced_taken ho.coalesced _⟩
        ((hframe.trans hframe').mono fun y hy => hy.elim id id), ?_⟩
      by_cases hthree : 3 ≤ k
      · have hlarge' := hlarge hthree
        have hspec := (alignmentGap_spec hthree hk (by omega)
          (show after Piece.span a xs + 8 + 2 ^ k + 28 ≤ 2 ^ 32 by omega)).2.2.2
        rwa [hgap, Nat.add_zero] at hspec
      · exact (pow_dvd_pow 2 (show k ≤ 2 by omega)).trans (by omega)
    · have hthree : 3 ≤ k := by
        by_contra hsmall
        apply hgap
        have hpow2 : 2 ^ k ≤ 2 ^ 2 := Nat.pow_le_pow_right (by decide) (by omega)
        apply alignmentGap_of_dvd hk
        · exact (pow_dvd_pow 2 (show k ≤ 2 by omega)).trans (by omega)
        · omega
      have hlarge' := hlarge hthree
      obtain ⟨hgdvd, hgmin, hgmax, hgal⟩ := alignmentGap_spec hthree hk (by omega)
        (show after Piece.span a xs + 8 + 2 ^ k + 28 ≤ 2 ^ 32 by omega)
      rw [if_pos hgap]
      generalize Heap.alignmentGap (after Piece.span a xs + 8) (2 ^ k) = gap at *
      have hgmin' : 16 ≤ gap := hgmin.resolve_left hgap
      obtain ⟨hblock, hheld', hframe'⟩ := hheld.blockTrimFreeLeading hgdvd hgmin' (by omega)
      rw [hblock]
      obtain ⟨hres, hlaid, hframe''⟩ := hheld'.blockPrepareUsed hr
      have hend : after Piece.span a xs + (4 + (gap - 4)) + (4 + (s - gap)) =
          after Piece.span a xs + (4 + s) := by omega
      have hsame : ∀ y, Payload a (xs ++ [⟨gap - 4, true⟩] ++ ⟨s - gap, true⟩ :: ys) y ↔
          Payload a (xs ++ ⟨s, true⟩ :: ys) y :=
        fun y => payload_congr (by simp [hend])
      rw [hres]
      refine ⟨hpos, Granted.of_leading ho hgmin' (by omega) hle (by omega) hlaid
        (((hframe.trans hframe').trans hframe'').mono ?_), ?_⟩
      · rintro y ((hy | hy) | hy)
        · exact hy
        · exact hy
        · exact (hsame y).not.mp hy
      · have hsum' : after Piece.span a (xs ++ [⟨gap - 4, true⟩]) + 8 =
            after Piece.span a xs + 8 + gap := by
          simp only [after_append, after_cons, after_nil, span_mk]
          omega
        rw [hsum']
        exact hgal
  · right
    rw [tlsfMemalign_eq hne hgap0 hloc, if_neg (by simp), Heap.blockPrepareUsed, if_neg (by simp)]

end BouffaloSdk.Mm
