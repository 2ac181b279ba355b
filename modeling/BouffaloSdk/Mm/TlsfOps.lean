import BouffaloSdk.Mm.TlsfRow

/-!
# Allocating and freeing on the row

What the row is after each operation, as a function of the row before: a request
carves its block out of a free one, and a block given back is joined with the free
ones next to it.
-/

namespace BouffaloSdk.Mm

open Kit.Tiling Tlsf

/-- The size of a block cut down to `size`, with what is left of it when that is enough for a
block. -/
def carve (s size : ℕ) : ℕ × List Piece :=
  if size + 16 ≤ s then (size, [⟨s - size - 4, true⟩]) else (s, [])

/-- A free block of size `s` behind `xs`, one with the block before it if that is free. -/
def joinPrev (xs : List Piece) (s : ℕ) : List Piece × ℕ :=
  match xs.getLast? with
  | some ⟨t, true⟩ => (xs.dropLast, t + s + 4)
  | _ => (xs, s)

/-- A free block of size `s` before `ys`, one with the block behind it if that is free. -/
def joinNext (s : ℕ) : List Piece → ℕ × List Piece
  | ⟨t, true⟩ :: ys => (s + t + 4, ys)
  | ys => (s, ys)

/-- The row when the block between `xs` and `ys` is given back. -/
def released (xs : List Piece) (s : ℕ) (ys : List Piece) : List Piece :=
  (joinPrev xs s).1 ++ ⟨(joinNext (joinPrev xs s).2 ys).1, true⟩ :: (joinNext (joinPrev xs s).2 ys).2

variable {h h' : Heap} {a b n s t x y null size : ℕ} {f pf : Bool} {p q : Piece}
  {xs ys bs mid mid' : List Piece} {F : List (ℕ × ℕ)} {P : ℕ → Prop}

theorem joinPrev_cases (xs : List Piece) (s : ℕ) :
    (∃ us t, xs = us ++ [⟨t, true⟩] ∧ joinPrev xs s = (us, t + s + 4)) ∨
      lastFree false xs = false ∧ joinPrev xs s = (xs, s) := by
  rcases List.eq_nil_or_concat' xs with rfl | ⟨us, ⟨t, f⟩, rfl⟩
  · exact .inr ⟨rfl, rfl⟩
  · cases f with
    | true => exact .inl ⟨us, t, rfl, by simp [joinPrev]⟩
    | false => exact .inr ⟨by simp [lastFree], by simp [joinPrev]⟩

theorem joinNext_cases (s : ℕ) (ys : List Piece) :
    (∃ t vs, ys = ⟨t, true⟩ :: vs ∧ joinNext s ys = (s + t + 4, vs)) ∨
      (∀ q vs, ys = q :: vs → q.free = false) ∧ joinNext s ys = (s, ys) := by
  cases ys with
  | nil => exact .inr ⟨nofun, rfl⟩
  | cons q vs =>
    obtain ⟨t, f⟩ := q
    cases f with
    | true => exact .inl ⟨t, vs, rfl, rfl⟩
    | false =>
      refine .inr ⟨fun q' vs' heq => ?_, rfl⟩
      obtain ⟨rfl, -⟩ := List.cons.inj heq
      rfl

namespace Laid

/-- The link back over a free block. -/
theorem back (hl : Laid h a (xs ++ ⟨t, true⟩ :: ys) F) :
    h.prevPhysBlock (after Piece.span a (xs ++ [⟨t, true⟩])) = after Piece.span a xs := by
  have hseg := hl.seg
  rw [List.append_assoc, List.cons_append] at hseg
  rw [after_append]
  exact (Seg.append.mp hseg).2.2.1 rfl

/-- A block of the row with the one behind it. -/
theorem next (hl : Laid h a (xs ++ p :: ys) F) :
    ∃ q rest, ys ++ [sentinel] = q :: rest ∧ Room (after Piece.span a xs) p.size q ∧
      (q = sentinel ∨ q ∈ ys) ∧
      Header h (after Piece.span a xs + 4 + p.size) q.size q.free p.free ∧
      Seg h (after Piece.span a xs) (lastFree false xs) (p :: q :: rest) := by
  obtain ⟨q, rest, hrest, hroom, hq⟩ := hl.fits.room
  have hseg := hl.seg
  rw [List.append_assoc, List.cons_append, hrest] at hseg
  have hseg' := (Seg.append.mp hseg).2
  exact ⟨q, rest, hrest, hroom, hq, hroom.next hseg', hseg'⟩

theorem blockNext (hl : Laid h a (xs ++ p :: ys) F) :
    h.blockNext (after Piece.span a xs) = after Piece.span a (xs ++ [p]) := by
  have hmin := (hl.fits.piece p (by simp)).2
  have hspan : p.span = 4 + p.size := rfl
  rw [hl.header.blockNext (by omega), after_append, after_cons, after_nil]
  omega

end Laid

namespace Held

theorem absorb (hl : Held h a xs [⟨s, true⟩, ⟨t, true⟩] ys) :
    Held (h.blockAbsorb (after Piece.span a xs) (after Piece.span a (xs ++ [⟨s, true⟩]))).1 a xs
        [⟨s + t + 4, true⟩] ys ∧
      Frame h (h.blockAbsorb (after Piece.span a xs) (after Piece.span a (xs ++ [⟨s, true⟩]))).1
        fun y => ¬ Payload a (xs ++ ([⟨s, true⟩, ⟨t, true⟩] ++ ys)) y := by
  have hlaid : Laid h a (xs ++ [⟨s, true⟩] ++ ⟨t, true⟩ :: ys)
      (frees a xs ++ frees (after Piece.span a (xs ++ [⟨s, true⟩, ⟨t, true⟩])) ys) := by
    simpa [Held] using hl
  obtain ⟨q, rest, hrest, hroom, -, -, -⟩ := hlaid.next
  have hs := hl.fits.piece ⟨s, true⟩ (by simp)
  have ht := hl.fits.piece ⟨t, true⟩ (by simp)
  have hseg := hl.seg
  rw [List.append_assoc] at hseg
  have hseg' := (Seg.append.mp hseg).2
  simp only [List.cons_append, List.nil_append, hrest] at hseg'
  have hstart : after Piece.span a (xs ++ [⟨s, true⟩]) = after Piece.span a xs + 4 + s := by
    simp only [after_append, after_cons, after_nil, span_mk]
    omega
  obtain ⟨hnew, hframe⟩ := Seg.absorb hroom hseg' hs.1 hs.2 hstart.symm
  have hend : after Piece.span a (xs ++ [⟨s, true⟩, ⟨t, true⟩]) =
      after Piece.span a xs + 8 + s + t := by
    simp only [after_append, after_cons, after_nil, span_mk]
    omega
  have hwindow : ∀ y, (wordAt (after Piece.span a xs + 4) y ∨
      wordAt (after Piece.span a xs + 8 + s + t) y) → after Piece.span a xs + 4 ≤ y ∧
        y < after Piece.span a (xs ++ [⟨s, true⟩, ⟨t, true⟩]) + 8 := by
    intro y hy
    simp only [wordAt] at hy
    omega
  refine ⟨?_, hframe.mono fun y hy => ?_⟩
  · apply hl.edit hframe hwindow (blockAbsorb_same ..)
    · simp only [List.cons_append, List.nil_append, hrest]
      exact hnew
    · simp only [after_append, after_cons, after_nil, span_mk]
      omega
    · intro p hp
      obtain rfl := List.mem_singleton.mp hp
      simp only at hs ht ⊢
      omega
  · obtain ⟨hlow, hhigh⟩ := hwindow y hy
    exact not_payload_window (by simp) hlow hhigh

theorem one (hl : Held h a xs [p] ys) :
    Laid h a (xs ++ p :: ys) (frees a xs ++ frees (after Piece.span a (xs ++ [p])) ys) := hl

theorem blockMergePrev (hl : Held h a xs [⟨s, true⟩] ys) :
    (h.blockMergePrev (after Piece.span a xs)).2 = after Piece.span a (joinPrev xs s).1 ∧
      Held (h.blockMergePrev (after Piece.span a xs)).1 a (joinPrev xs s).1
        [⟨(joinPrev xs s).2, true⟩] ys ∧
      Frame h (h.blockMergePrev (after Piece.span a xs)).1
        fun y => ¬ Payload a (xs ++ ⟨s, true⟩ :: ys) y := by
  have hflag := hl.header.blockIsPrevFree
  rcases joinPrev_cases xs s with ⟨us, t, rfl, hjoin⟩ | ⟨hlast, hjoin⟩
  · have hfree : lastFree false (us ++ [⟨t, true⟩]) = true := by simp [lastFree]
    have hback : h.blockPrev (after Piece.span a (us ++ [⟨t, true⟩])) = after Piece.span a us := by
      have hlaid := hl
      unfold Held at hlaid
      rw [List.append_assoc] at hlaid
      exact hlaid.back
    obtain ⟨hheld, hframe⟩ := hl.take_before
    obtain ⟨hheld', hframe'⟩ := hheld.absorb
    have heq : h.blockMergePrev (after Piece.span a (us ++ [⟨t, true⟩])) =
        (h.blockRemove (after Piece.span a us)).blockAbsorb (after Piece.span a us)
          (after Piece.span a (us ++ [⟨t, true⟩])) := by
      rw [Heap.blockMergePrev, hflag, hfree, if_pos rfl, hback]
    rw [heq, hjoin]
    refine ⟨rfl, hheld', (hframe.trans hframe').mono fun y hy => ?_⟩
    simpa using hy
  · rw [Heap.blockMergePrev, hflag, hlast, hjoin]
    exact ⟨rfl, hl, Frame.refl h⟩

theorem blockMergeNext (hl : Held h a xs [⟨s, true⟩] ys) :
    (h.blockMergeNext (after Piece.span a xs)).2 = after Piece.span a xs ∧
      Held (h.blockMergeNext (after Piece.span a xs)).1 a xs [⟨(joinNext s ys).1, true⟩]
        (joinNext s ys).2 ∧
      Frame h (h.blockMergeNext (after Piece.span a xs)).1
        fun y => ¬ Payload a (xs ++ ⟨s, true⟩ :: ys) y := by
  obtain ⟨q, rest, hrest, -, -, hnext, -⟩ := hl.one.next
  have haddr := hl.one.blockNext
  have hflag : h.blockIsFree (after Piece.span a (xs ++ [⟨s, true⟩])) = q.free := by
    have hstart : after Piece.span a (xs ++ [⟨s, true⟩]) = after Piece.span a xs + 4 + s := by
      simp only [after_append, after_cons, after_nil, span_mk]
      omega
    rw [hstart]
    exact hnext.blockIsFree
  rcases joinNext_cases s ys with ⟨t, vs, rfl, hjoin⟩ | ⟨hused, hjoin⟩
  · obtain ⟨rfl, -⟩ := List.cons.inj hrest
    obtain ⟨hheld, hframe⟩ := hl.take
    obtain ⟨hheld', hframe'⟩ := hheld.absorb
    have heq : h.blockMergeNext (after Piece.span a xs) =
        (h.blockRemove (after Piece.span a (xs ++ [⟨s, true⟩]))).blockAbsorb (after Piece.span a xs)
          (after Piece.span a (xs ++ [⟨s, true⟩])) := by
      rw [Heap.blockMergeNext, haddr, hflag, if_pos rfl]
    rw [heq, hjoin]
    refine ⟨rfl, hheld', (hframe.trans hframe').mono fun y hy => ?_⟩
    simpa using hy
  · have hq : q.free = false := by
      cases ys with
      | nil =>
        obtain ⟨rfl, -⟩ := List.cons.inj hrest
        rfl
      | cons q' vs =>
        obtain ⟨rfl, -⟩ := List.cons.inj hrest
        exact hused q' vs rfl
    rw [Heap.blockMergeNext, haddr, hflag, hq, hjoin]
    exact ⟨rfl, hl, Frame.refl h⟩

theorem markAsFree (hl : Held h a xs [⟨s, f⟩] ys) :
    Held (h.blockMarkAsFree (after Piece.span a xs)) a xs [⟨s, true⟩] ys ∧
      Frame h (h.blockMarkAsFree (after Piece.span a xs))
        fun y => ¬ Payload a (xs ++ ⟨s, true⟩ :: ys) y := by
  obtain ⟨q, rest, hrest, hroom, -, hnext, hseg⟩ := hl.one.next
  have hs := hl.fits.piece ⟨s, f⟩ (by simp)
  obtain ⟨-, -, -, hframe⟩ := blockMarkAsFree_spec hl.one.header hnext hs.2
  have hend : after Piece.span a (xs ++ [⟨s, f⟩]) = after Piece.span a xs + 4 + s := by
    simp only [after_append, after_cons, after_nil, span_mk]
    omega
  have hwindow : ∀ y, editAt (after Piece.span a xs) (after Piece.span a xs + 4 + s) y →
      after Piece.span a xs + 4 ≤ y ∧ y < after Piece.span a (xs ++ [⟨s, f⟩]) + 8 := by
    intro y hy
    simp only [editAt, wordAt] at hy
    omega
  refine ⟨?_, hframe.mono fun y hy => ?_⟩
  · apply hl.edit hframe hwindow (blockMarkAsFree_same ..)
    · simp only [List.cons_append, List.nil_append, hrest]
      exact hseg.markAsFree hroom
    · simp
    · intro p hp
      obtain rfl := List.mem_singleton.mp hp
      exact hs
  · obtain ⟨hlow, hhigh⟩ := hwindow y hy
    have hend' : after Piece.span a (xs ++ [⟨s, true⟩]) = after Piece.span a (xs ++ [⟨s, f⟩]) := by
      simp
    have hnot : ¬ Payload a (xs ++ ([⟨s, true⟩] ++ ys)) y :=
      not_payload_window (by simp) hlow (hend' ▸ hhigh)
    simpa using hnot

theorem markAsUsed (hl : Held h a xs [⟨s, true⟩] ys) :
    Held (h.blockMarkAsUsed (after Piece.span a xs)) a xs [⟨s, false⟩] ys ∧
      Frame h (h.blockMarkAsUsed (after Piece.span a xs))
        fun y => ¬ Payload a (xs ++ ⟨s, true⟩ :: ys) y := by
  obtain ⟨q, rest, hrest, hroom, -, hnext, hseg⟩ := hl.one.next
  have hs := hl.fits.piece ⟨s, true⟩ (by simp)
  obtain ⟨-, -, hframe⟩ := blockMarkAsUsed_spec hl.one.header hnext hs.2
  have hend : after Piece.span a (xs ++ [⟨s, true⟩]) = after Piece.span a xs + 4 + s := by
    simp only [after_append, after_cons, after_nil, span_mk]
    omega
  have hwindow : ∀ y, editAt (after Piece.span a xs) (after Piece.span a xs + 4 + s) y →
      after Piece.span a xs + 4 ≤ y ∧ y < after Piece.span a (xs ++ [⟨s, true⟩]) + 8 := by
    intro y hy
    simp only [editAt, wordAt] at hy
    omega
  refine ⟨?_, hframe.mono fun y hy => ?_⟩
  · apply hl.edit hframe hwindow (blockMarkAsUsed_same ..)
    · simp only [List.cons_append, List.nil_append, hrest]
      exact hseg.markAsUsed hroom
    · simp
    · intro p hp
      obtain rfl := List.mem_singleton.mp hp
      exact hs
  · obtain ⟨hlow, hhigh⟩ := hwindow y hy
    have hnot : ¬ Payload a (xs ++ ([⟨s, true⟩] ++ ys)) y :=
      not_payload_window (by simp) hlow hhigh
    simpa using hnot

end Held

/-! ## Giving a block back -/

/-- The heap with its row: every free block is listed, and no two are neighbours. -/
structure Ok (h : Heap) (a : ℕ) (bs : List Piece) : Prop where
  laid : Laid h a bs (frees a bs)
  coalesced : Coalesced false bs

theorem Held.of_used (hl : Laid h a (xs ++ ⟨s, false⟩ :: ys) (frees a (xs ++ ⟨s, false⟩ :: ys))) :
    Held h a xs [⟨s, false⟩] ys := by
  unfold Held
  simpa using hl

theorem Held.to_used (hl : Held h a xs [⟨s, false⟩] ys) :
    Laid h a (xs ++ ⟨s, false⟩ :: ys) (frees a (xs ++ ⟨s, false⟩ :: ys)) := by
  unfold Held at hl
  simpa using hl

@[simp] theorem useds_joinPrev :
    useds a ((joinPrev xs s).1 ++ ⟨(joinPrev xs s).2, true⟩ :: ys) =
      useds a (xs ++ ⟨s, true⟩ :: ys) := by
  rcases joinPrev_cases xs s with ⟨us, t, rfl, hjoin⟩ | ⟨-, hjoin⟩
  · have hend : after Piece.span a us + (4 + (t + s + 4)) =
        after Piece.span a us + (4 + t) + (4 + s) := by omega
    simp [hjoin, hend]
  · rw [hjoin]

@[simp] theorem useds_joinNext :
    useds a (xs ++ ⟨(joinNext s ys).1, true⟩ :: (joinNext s ys).2) =
      useds a (xs ++ ⟨s, true⟩ :: ys) := by
  rcases joinNext_cases s ys with ⟨t, vs, rfl, hjoin⟩ | ⟨-, hjoin⟩
  · have hend : after Piece.span a xs + (4 + (s + t + 4)) =
        after Piece.span a xs + (4 + s) + (4 + t) := by omega
    simp [hjoin, hend]
  · rw [hjoin]

theorem useds_released : useds a (released xs s ys) = useds a (xs ++ ⟨s, true⟩ :: ys) := by
  simp only [released]
  rw [useds_joinNext, useds_joinPrev]

theorem after_released :
    after Piece.span a (released xs s ys) = after Piece.span a (xs ++ ⟨s, f⟩ :: ys) := by
  have hprev : ∀ zs, after Piece.span a ((joinPrev xs s).1 ++ ⟨(joinPrev xs s).2, true⟩ :: zs) =
      after Piece.span a (xs ++ ⟨s, f⟩ :: zs) := by
    intro zs
    rcases joinPrev_cases xs s with ⟨us, t, rfl, hjoin⟩ | ⟨-, hjoin⟩
    · simp only [hjoin, after_append, after_cons, after_nil, span_mk]
      congr 1
      omega
    · simp [hjoin]
  have hnext : ∀ us s', after Piece.span a (us ++ ⟨(joinNext s' ys).1, true⟩ :: (joinNext s' ys).2) =
      after Piece.span a (us ++ ⟨s', true⟩ :: ys) := by
    intro us s'
    rcases joinNext_cases s' ys with ⟨t, vs, rfl, hjoin⟩ | ⟨-, hjoin⟩
    · simp only [hjoin, after_append, after_cons, span_mk]
      congr 1
      omega
    · simp [hjoin]
  rw [released, hnext, hprev]

/-- Joined with its free neighbours a block has none. -/
theorem coalesced_released (hc : Coalesced false (xs ++ ⟨s, f⟩ :: ys)) (hf : f = false) :
    Coalesced false (released xs s ys) := by
  subst hf
  obtain ⟨hxs, -, hys⟩ := coalesced_append.mp hc
  have hprev : Coalesced false (joinPrev xs s).1 ∧ lastFree false (joinPrev xs s).1 = false := by
    rcases joinPrev_cases xs s with ⟨us, t, rfl, hjoin⟩ | ⟨hlast, hjoin⟩
    · obtain ⟨hus, hnot, -⟩ := coalesced_append.mp hxs
      rw [hjoin]
      exact ⟨hus, by simpa using hnot⟩
    · rw [hjoin]
      exact ⟨hxs, hlast⟩
  have hnext : ∀ s', Coalesced true (joinNext s' ys).2 := by
    intro s'
    rcases joinNext_cases s' ys with ⟨t, vs, rfl, hjoin⟩ | ⟨hused, hjoin⟩
    · rw [hjoin]
      exact hys.2
    · rw [hjoin]
      cases ys with
      | nil => trivial
      | cons q vs => exact ⟨by simp [hused q vs rfl], hys.2⟩
  refine coalesced_append.mpr ⟨hprev.1, ?_, hnext _⟩
  simp [hprev.2]

theorem blockFromPtr_add (hb : b < 2 ^ 32) : blockFromPtr (b + 8) = b := by
  unfold blockFromPtr sub32 blockStartOffset
  omega

end BouffaloSdk.Mm
