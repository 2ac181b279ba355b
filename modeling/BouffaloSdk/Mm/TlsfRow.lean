import BouffaloSdk.Mm.TlsfEdits
import BouffaloSdk.Mm.TlsfLists

/-!
# A heap with its row of blocks

The row, the free lists and where both are in memory, and how unlisting, listing and
edits of one block change them. No store reaches what is handed out.
-/

namespace BouffaloSdk.Mm

open Kit.Tiling Tlsf

/-- The free blocks of a row from `a` on. -/
def frees (a : ℕ) (bs : List Piece) : List (ℕ × ℕ) :=
  ((place Piece.span a bs).filter fun u => u.2.free).map fun u => (u.1, u.2.size)

/-- The used blocks of a row from `a` on. -/
def useds (a : ℕ) (bs : List Piece) : List (ℕ × ℕ) :=
  ((place Piece.span a bs).filter fun u => !u.2.free).map fun u => (u.1, u.2.size)

/-- The bytes of a row that are handed out. -/
def Payload (a : ℕ) (bs : List Piece) (y : ℕ) : Prop :=
  ∃ x p, (x, p) ∈ place Piece.span a bs ∧ p.free = false ∧ x + 8 ≤ y ∧ y < x + 8 + p.size

/-- No two free blocks are neighbours. -/
def Coalesced : Bool → List Piece → Prop
  | _, [] => True
  | pf, p :: ps => ¬ (pf = true ∧ p.free = true) ∧ Coalesced p.free ps

/-- Where a row may be: behind the null block and before addresses end, and not larger than
blocks can be. -/
structure Fits (null a : ℕ) (bs : List Piece) : Prop where
  piece : ∀ p ∈ bs, 4 ∣ p.size ∧ 12 ≤ p.size
  start : null + 16 ≤ a
  aligned : 4 ∣ a
  top : after Piece.span a bs + 8 ≤ 2 ^ 32
  total : after Piece.span a bs < a + 4 + 2 ^ 30

variable {h h' : Heap} {a b n s t x y null : ℕ} {f pf : Bool} {p q : Piece} {xs ys bs : List Piece}
  {F l₁ l₂ : List (ℕ × ℕ)} {P : ℕ → Prop}

@[simp] theorem frees_nil : frees a [] = [] := rfl

@[simp] theorem frees_append :
    frees a (xs ++ ys) = frees a xs ++ frees (after Piece.span a xs) ys := by
  simp [frees]

@[simp] theorem frees_cons_free :
    frees a (⟨s, true⟩ :: ys) = (a, s) :: frees (a + (4 + s)) ys := by
  simp [frees]

@[simp] theorem frees_cons_used : frees a (⟨s, false⟩ :: ys) = frees (a + (4 + s)) ys := by
  simp [frees]

theorem mem_frees : (x, s) ∈ frees a bs ↔ (x, ⟨s, true⟩) ∈ place Piece.span a bs := by
  simp only [frees, List.mem_map, List.mem_filter, Prod.exists, Prod.mk.injEq]
  constructor
  · rintro ⟨x, ⟨s, f⟩, ⟨hmem, rfl⟩, rfl, rfl⟩
    exact hmem
  · exact fun hmem => ⟨x, ⟨s, true⟩, ⟨hmem, rfl⟩, rfl, rfl⟩

@[simp] theorem useds_nil : useds a [] = [] := rfl

@[simp] theorem useds_append :
    useds a (xs ++ ys) = useds a xs ++ useds (after Piece.span a xs) ys := by
  simp [useds]

@[simp] theorem useds_cons_free : useds a (⟨s, true⟩ :: ys) = useds (a + (4 + s)) ys := by
  simp [useds]

@[simp] theorem useds_cons_used :
    useds a (⟨s, false⟩ :: ys) = (a, s) :: useds (a + (4 + s)) ys := by
  simp [useds]

theorem mem_useds : (x, s) ∈ useds a bs ↔ (x, ⟨s, false⟩) ∈ place Piece.span a bs := by
  simp only [useds, List.mem_map, List.mem_filter, Bool.not_eq_true', Prod.exists, Prod.mk.injEq]
  constructor
  · rintro ⟨x, ⟨s, f⟩, ⟨hmem, rfl⟩, rfl, rfl⟩
    exact hmem
  · exact fun hmem => ⟨x, ⟨s, false⟩, ⟨hmem, rfl⟩, rfl, rfl⟩

theorem coalesced_append :
    Coalesced pf (xs ++ ys) ↔ Coalesced pf xs ∧ Coalesced (lastFree pf xs) ys := by
  induction xs generalizing pf with
  | nil => simp [Coalesced, lastFree]
  | cons p xs ih =>
    simp only [List.cons_append, Coalesced, lastFree, and_assoc]
    rw [ih]

/-! ## Payload -/

theorem payload_iff : Payload a bs y ↔ ∃ u ∈ useds a bs, u.1 + 8 ≤ y ∧ y < u.1 + 8 + u.2 := by
  constructor
  · rintro ⟨x, ⟨s, f⟩, hmem, rfl, hy⟩
    exact ⟨(x, s), mem_useds.mpr hmem, hy⟩
  · rintro ⟨⟨x, s⟩, hmem, hy⟩
    exact ⟨x, ⟨s, false⟩, mem_useds.mp hmem, rfl, hy⟩

theorem payload_congr {cs : List Piece} (h : useds a bs = useds a cs) :
    Payload a bs y ↔ Payload a cs y := by
  rw [payload_iff, payload_iff, h]

theorem payload_append :
    Payload a (xs ++ ys) y ↔ Payload a xs y ∨ Payload (after Piece.span a xs) ys y := by
  simp only [payload_iff, useds_append, List.mem_append, or_and_right, exists_or]

theorem payload_bounds (hy : Payload a bs y) :
    a + 8 ≤ y ∧ y < after Piece.span a bs + 4 := by
  obtain ⟨x, p, hmem, -, hlow, hhigh⟩ := hy
  have hbounds := mem_place_bounds hmem
  unfold Piece.span at hbounds ⊢
  omega

/-- Of the bytes of one block, its size word and all of a free one are not handed out. -/
theorem not_payload_of_mem (hmem : (x, p) ∈ place Piece.span a bs) (hlow : x + 4 ≤ y)
    (hhigh : y < x + 8 + p.size) (hspare : p.free = true ∨ y < x + 8) : ¬ Payload a bs y := by
  rintro ⟨x', p', hmem', hused, hlow', hhigh'⟩
  rcases mem_place_apart hmem hmem' with heq | hleft | hright
  · obtain ⟨rfl, rfl⟩ := Prod.mk.inj heq
    rcases hspare with hfree | hword
    · rw [hfree] at hused
      cases hused
    · omega
  · unfold Piece.span at hleft
    omega
  · unfold Piece.span at hright
    omega

/-! ## Geometry -/

namespace Fits

theorem size (hf : Fits null a bs) : ∀ p ∈ bs, RequestSize p.size := by
  intro p hp
  obtain ⟨us, vs, rfl⟩ := List.append_of_mem hp
  obtain ⟨hdvd, hmin⟩ := hf.piece p hp
  have hmem : (after Piece.span a us, p) ∈ place Piece.span a (us ++ p :: vs) :=
    mem_place_iff.mpr ⟨us, vs, rfl, rfl⟩
  have hbounds := mem_place_bounds hmem
  have hspan : p.span = 4 + p.size := rfl
  have htotal := hf.total
  exact ⟨hdvd, hmin, by omega⟩

theorem spaced (hf : Fits null a bs) : Spaced null (frees a bs) where
  apart := by
    have hpair := @pairwise_place _ Piece.span a bs
    refine List.pairwise_map.mpr (hpair.filter _ |>.imp_of_mem ?_)
    rintro ⟨x, p⟩ ⟨y, q⟩ hp - hlt
    have hmem := (List.mem_filter.mp hp).1
    obtain ⟨xs, ys, rfl, -⟩ := mem_place_iff.mp hmem
    have hmin := (hf.size p (by simp)).min
    unfold Piece.span at hlt
    simp only at hlt ⊢
    omega
  start u hu := by
    have hbounds := mem_place_bounds (mem_frees.mp hu)
    have hstart := hf.start
    omega
  size u hu := by
    obtain ⟨xs, ys, rfl, -⟩ := mem_place_iff.mp (mem_frees.mp hu)
    exact (hf.size ⟨u.2, true⟩ (by simp)).max
  top u hu := by
    have hbounds := mem_place_bounds (mem_frees.mp hu)
    obtain ⟨xs, ys, rfl, -⟩ := mem_place_iff.mp (mem_frees.mp hu)
    have hmin := (hf.size ⟨u.2, true⟩ (by simp)).min
    have htop := hf.top
    simp only [span_mk] at hbounds hmin
    omega

/-- The block behind a split of the row, with the one behind it or the sentinel. -/
theorem room (hf : Fits null a (xs ++ p :: ys)) :
    ∃ q rest, ys ++ [sentinel] = q :: rest ∧
      Room (after Piece.span a xs) p.size q ∧ (q = sentinel ∨ q ∈ ys) := by
  have hp := hf.size p (by simp)
  have htop := hf.top
  rw [after_append, after_cons] at htop
  cases ys with
  | nil =>
    refine ⟨sentinel, [], rfl, ⟨hp.aligned, hp.min, Nat.dvd_zero 4, nofun, ?_⟩, .inl rfl⟩
    have hspan : p.span = 4 + p.size := rfl
    rw [after_nil] at htop
    simp only [sentinel]
    omega
  | cons q ys =>
    have hq := hf.size q (by simp)
    refine ⟨q, ys ++ [sentinel], rfl, ⟨hp.aligned, hp.min, hq.aligned, fun _ => ?_, ?_⟩,
      .inr List.mem_cons_self⟩
    · exact le_trans (by decide) hq.min
    · have hle := @le_after _ Piece.span (after Piece.span a xs + p.span + q.span) ys
      have hspan : p.span = 4 + p.size := rfl
      have hspan' : q.span = 4 + q.size := rfl
      rw [after_cons] at htop
      omega

/-- The links of free blocks are clear of the size words and of the links back. -/
theorem not_link_size (hf : Fits null a bs) (hsub : F.Sublist (frees a bs))
    (hmem : (x, p) ∈ place Piece.span a (bs ++ [sentinel])) (hy : wordAt (x + 4) y) :
    ¬ linkAt null F y := by
  rintro ⟨c, hc, hlow, hhigh⟩
  have hbounds := mem_place_bounds hmem
  have hstart := hf.start
  obtain ⟨hy₁, hy₂⟩ := hy
  rcases hc with rfl | ⟨s, hc⟩
  · omega
  · have hcmem := mem_frees.mp (hsub.subset hc)
    obtain ⟨us, vs, hsplit, -⟩ := mem_place_iff.mp hcmem
    have hmin := (hf.size ⟨s, true⟩ (by simp [hsplit])).min
    have hcmem' : (c, ⟨s, true⟩) ∈ place Piece.span a (bs ++ [sentinel]) := by
      rw [place_append]
      exact List.mem_append_left _ hcmem
    have hspan : p.span = 4 + p.size := rfl
    rcases mem_place_apart hmem hcmem' with heq | hleft | hright
    · obtain ⟨rfl, -⟩ := Prod.mk.inj heq
      omega
    · omega
    · simp only [span_mk] at hright hmin
      omega

theorem not_link_back (hf : Fits null a bs) (hsub : F.Sublist (frees a bs))
    (hmem : (x, p) ∈ place Piece.span a (bs ++ [sentinel])) (hfree : p.free = true)
    (hy : wordAt (x + p.span) y) : ¬ linkAt null F y := by
  rintro ⟨c, hc, hlow, hhigh⟩
  have hbounds := mem_place_bounds hmem
  have hstart := hf.start
  obtain ⟨hy₁, hy₂⟩ := hy
  have hspan : p.span = 4 + p.size := rfl
  have hpmin : 12 ≤ p.size := by
    rw [place_append] at hmem
    cases List.mem_append.mp hmem with
    | inl hin =>
      obtain ⟨us, vs, rfl, -⟩ := mem_place_iff.mp hin
      exact (hf.size p (by simp)).min
    | inr hlast =>
      obtain ⟨-, rfl⟩ := Prod.mk.inj (List.mem_singleton.mp hlast)
      cases hfree
  rcases hc with rfl | ⟨s, hc⟩
  · omega
  · have hcmem := mem_frees.mp (hsub.subset hc)
    have hcmem' : (c, ⟨s, true⟩) ∈ place Piece.span a (bs ++ [sentinel]) := by
      rw [place_append]
      exact List.mem_append_left _ hcmem
    obtain ⟨us, vs, hsplit, -⟩ := mem_place_iff.mp hcmem
    have hmin : 12 ≤ s := (hf.size ⟨s, true⟩ (by simp [hsplit])).min
    rcases mem_place_apart hmem hcmem' with heq | hleft | hright
    · obtain ⟨rfl, -⟩ := Prod.mk.inj heq
      omega
    · omega
    · simp only [span_mk] at hright
      omega

theorem not_payload_link (hf : Fits null a bs) (hsub : F.Sublist (frees a bs))
    (hy : linkAt null F y) : ¬ Payload a bs y := by
  obtain ⟨c, rfl | ⟨s, hc⟩, hlow, hhigh⟩ := hy
  · intro hpay
    have hbounds := payload_bounds hpay
    have hstart := hf.start
    omega
  · have hmem := mem_frees.mp (hsub.subset hc)
    obtain ⟨us, vs, hsplit, -⟩ := mem_place_iff.mp hmem
    have hmin : 12 ≤ s := (hf.size ⟨s, true⟩ (by simp [hsplit])).min
    exact not_payload_of_mem hmem (by omega) (by simp only; omega) (.inl rfl)

end Fits

/-! ## The heap -/

/-- The blocks are those of the row, and those of `F` are on the lists. -/
structure Laid (h : Heap) (a : ℕ) (bs : List Piece) (F : List (ℕ × ℕ)) : Prop where
  seg : Seg h a false (bs ++ [sentinel])
  lists : ∃ lists, Listed h F lists
  fits : Fits h.blockNull a bs
  sub : F.Sublist (frees a bs)

namespace Laid

theorem keep_seg (hl : Laid h a bs F) (hf : Frame h h' (linkAt h.blockNull F)) :
    Seg h' a false (bs ++ [sentinel]) := by
  apply hl.seg.frame hf
  · exact fun x p hmem y hy => hl.fits.not_link_size hl.sub hmem hy
  · exact fun x p hmem hfree y hy => hl.fits.not_link_back hl.sub hmem hfree hy

theorem header (hl : Laid h a (xs ++ p :: ys) F) :
    Header h (after Piece.span a xs) p.size p.free (lastFree false xs) := by
  obtain ⟨q, rest, hrest, hroom, -⟩ := hl.fits.room
  have hseg := hl.seg
  rw [List.append_assoc, List.cons_append, hrest] at hseg
  exact hroom.header (Seg.append.mp hseg).2

/-- A block of the lists taken off. -/
theorem remove (hl : Laid h a bs (l₁ ++ (x, s) :: l₂)) :
    Laid (h.removeFreeBlock x (mappingInsert s).1 (mappingInsert s).2) a bs (l₁ ++ l₂) ∧
      Frame h (h.removeFreeBlock x (mappingInsert s).1 (mappingInsert s).2)
        fun y => ¬ Payload a bs y := by
  obtain ⟨lists, hlisted⟩ := hl.lists
  have hclass : mappingInsert s = ((mappingInsert s).1, (mappingInsert s).2) := rfl
  obtain ⟨hlisted', hframe⟩ := hlisted.remove (hl.fits.spaced.sublist hl.sub) hclass
  refine ⟨⟨hl.keep_seg hframe, ⟨_, hlisted'⟩, ?_, ?_⟩, ?_⟩
  · rw [hframe.blockNull]
    exact hl.fits
  · exact ((List.sublist_cons_self _ _).append_left l₁).trans hl.sub
  · exact hframe.mono fun y hy => hl.fits.not_payload_link hl.sub hy

theorem blockRemove (hl : Laid h a bs (l₁ ++ (x, s) :: l₂)) :
    Laid (h.blockRemove x) a bs (l₁ ++ l₂) ∧
      Frame h (h.blockRemove x) fun y => ¬ Payload a bs y := by
  have hmem := mem_frees.mp (hl.sub.subset (List.mem_append_right l₁ List.mem_cons_self))
  obtain ⟨us, vs, rfl, rfl⟩ := mem_place_iff.mp hmem
  have hsize : h.blockSize (after Piece.span a us) = s := hl.header.blockSize
  rw [Heap.blockRemove, hsize]
  exact hl.remove

/-- A free block of the row put on its list. -/
theorem blockInsert (hl : Laid h a bs (l₁ ++ l₂))
    (hsub : (l₁ ++ (x, s) :: l₂).Sublist (frees a bs)) :
    Laid (h.blockInsert x) a bs (l₁ ++ (x, s) :: l₂) ∧
      Frame h (h.blockInsert x) fun y => ¬ Payload a bs y := by
  have hmem := mem_frees.mp (hsub.subset (List.mem_append_right l₁ List.mem_cons_self))
  obtain ⟨us, vs, rfl, rfl⟩ := mem_place_iff.mp hmem
  obtain ⟨lists, hlisted⟩ := hl.lists
  obtain ⟨hlisted', hframe⟩ := hlisted.insert (hl.fits.spaced.sublist hsub) hl.header.blockSize
  have hseg : Seg (h.blockInsert (after Piece.span a us)) a false
      (us ++ ⟨s, true⟩ :: vs ++ [sentinel]) := by
    apply hl.seg.frame hframe
    · exact fun x p hmem y hy => hl.fits.not_link_size hsub hmem hy
    · exact fun x p hmem hfree y hy => hl.fits.not_link_back hsub hmem hfree hy
  refine ⟨⟨hseg, ⟨_, hlisted'⟩, ?_, hsub⟩, ?_⟩
  · rw [hframe.blockNull]
    exact hl.fits
  · exact hframe.mono fun y hy => hl.fits.not_payload_link hsub hy

end Laid

/-! ## Blocks held off the lists -/

/-- The row is `xs`, then blocks that are on no list, then `ys`. -/
def Held (h : Heap) (a : ℕ) (xs mid ys : List Piece) : Prop :=
  Laid h a (xs ++ (mid ++ ys)) (frees a xs ++ frees (after Piece.span a (xs ++ mid)) ys)

variable {mid mid' : List Piece}

/-- Storage between two blocks is not handed out when the blocks in it are free. -/
theorem not_payload_window (hmid : ∀ p ∈ mid, p.free = true)
    (hlow : after Piece.span a xs + 4 ≤ y) (hhigh : y < after Piece.span a (xs ++ mid) + 8) :
    ¬ Payload a (xs ++ (mid ++ ys)) y := by
  rw [payload_append, payload_append, ← after_append]
  rintro (hleft | hin | hright)
  · have hbounds := payload_bounds hleft
    omega
  · obtain ⟨x, p, hmem, hused, -⟩ := hin
    obtain ⟨us, vs, rfl, -⟩ := mem_place_iff.mp hmem
    rw [hmid p (by simp)] at hused
    cases hused
  · have hbounds := payload_bounds hright
    omega

namespace Held

/-- Held blocks rewritten by stores between their start and what follows. -/
theorem edit (hl : Held h a xs mid ys) (hf : Frame h h' P)
    (hin : ∀ y, P y → after Piece.span a xs + 4 ≤ y ∧ y < after Piece.span a (xs ++ mid) + 8)
    (hsame : SameLists h h')
    (hseg : Seg h' (after Piece.span a xs) (lastFree false xs) (mid' ++ (ys ++ [sentinel])))
    (hafter : after Piece.span a (xs ++ mid') = after Piece.span a (xs ++ mid))
    (hsize : ∀ p ∈ mid', 4 ∣ p.size ∧ 12 ≤ p.size) : Held h' a xs mid' ys := by
  obtain ⟨lists, hlisted⟩ := hl.lists
  have hfits : Fits h.blockNull a (xs ++ (mid' ++ ys)) := by
    have hend : after Piece.span a (xs ++ (mid' ++ ys)) = after Piece.span a (xs ++ (mid ++ ys)) := by
      rw [← List.append_assoc, after_append, hafter, ← after_append, List.append_assoc]
    refine ⟨?_, hl.fits.start, hl.fits.aligned, hend ▸ hl.fits.top, hend ▸ hl.fits.total⟩
    intro p hp
    have hold := hl.fits.piece
    simp only [List.mem_append] at hp hold
    rcases hp with hleft | hmid | hright
    · exact hold p (.inl hleft)
    · exact hsize p hmid
    · exact hold p (.inr (.inr hright))
  have hfar : ∀ x s, (x, s) ∈ frees a xs ++ frees (after Piece.span a (xs ++ mid)) ys →
      ∀ y, x + 8 ≤ y → y < x + 16 → ¬ P y := by
    intro x s hmem y hlow hhigh hP
    obtain ⟨hlow', hhigh'⟩ := hin y hP
    cases List.mem_append.mp hmem with
    | inl hleft =>
      have hbounds := mem_place_bounds (mem_frees.mp hleft)
      obtain ⟨us, vs, rfl, -⟩ := mem_place_iff.mp (mem_frees.mp hleft)
      have hmin : 12 ≤ s := (hl.fits.size ⟨s, true⟩ (by simp)).min
      simp only [span_mk] at hbounds
      omega
    | inr hright =>
      have hbounds := mem_place_bounds (mem_frees.mp hright)
      omega
  refine ⟨?_, ⟨lists, ?_⟩, ?_, ?_⟩
  · rw [List.append_assoc, List.append_assoc]
    have hseg₀ := hl.seg
    rw [List.append_assoc] at hseg₀
    exact hseg₀.behind hf (fun y hy => (hin y hy).1) hseg
  · rw [hafter]
    exact hlisted.frame hf hsame hfar
  · rw [hf.blockNull]
    exact hfits
  · rw [frees_append, frees_append, after_append]
    exact (List.sublist_append_right _ _).append_left _

/-- The first of the blocks behind, when free, is held too. -/
theorem take (hl : Held h a xs mid (⟨t, true⟩ :: ys)) :
    Held (h.blockRemove (after Piece.span a (xs ++ mid))) a xs (mid ++ [⟨t, true⟩]) ys ∧
      Frame h (h.blockRemove (after Piece.span a (xs ++ mid)))
        fun y => ¬ Payload a (xs ++ (mid ++ ⟨t, true⟩ :: ys)) y := by
  unfold Held at hl ⊢
  rw [frees_cons_free] at hl
  have hremove := hl.blockRemove
  simpa using hremove

/-- The last of the blocks before, when free, is held too. -/
theorem take_before (hl : Held h a (xs ++ [⟨t, true⟩]) mid ys) :
    Held (h.blockRemove (after Piece.span a xs)) a xs (⟨t, true⟩ :: mid) ys ∧
      Frame h (h.blockRemove (after Piece.span a xs))
        fun y => ¬ Payload a (xs ++ (⟨t, true⟩ :: mid ++ ys)) y := by
  unfold Held at hl ⊢
  rw [frees_append, frees_cons_free, frees_nil, List.append_assoc, List.singleton_append,
    List.append_assoc, List.singleton_append] at hl
  have hremove := hl.blockRemove
  simpa using hremove

/-- The last held block, when free, is put on its list. -/
theorem give (hl : Held h a xs (mid ++ [⟨t, true⟩]) ys) :
    Held (h.blockInsert (after Piece.span a (xs ++ mid))) a xs mid (⟨t, true⟩ :: ys) ∧
      Frame h (h.blockInsert (after Piece.span a (xs ++ mid)))
        fun y => ¬ Payload a (xs ++ (mid ++ ⟨t, true⟩ :: ys)) y := by
  unfold Held at hl ⊢
  have hsub : (frees a xs ++ (after Piece.span a (xs ++ mid), t) ::
      frees (after Piece.span a (xs ++ (mid ++ [⟨t, true⟩]))) ys).Sublist
        (frees a (xs ++ (mid ++ [⟨t, true⟩] ++ ys))) := by
    simp only [frees_append, after_append, frees_cons_free, List.append_assoc,
      List.cons_append, List.nil_append, after_cons, after_nil, span_mk]
    exact (List.sublist_append_right _ _).append_left _
  have hinsert := hl.blockInsert hsub
  simpa using hinsert

/-- The first held block, when free, is put on its list. -/
theorem give_before (hl : Held h a xs (⟨t, true⟩ :: mid) ys) :
    Held (h.blockInsert (after Piece.span a xs)) a (xs ++ [⟨t, true⟩]) mid ys ∧
      Frame h (h.blockInsert (after Piece.span a xs))
        fun y => ¬ Payload a (xs ++ (⟨t, true⟩ :: mid ++ ys)) y := by
  unfold Held at hl ⊢
  have hsub : (frees a xs ++ (after Piece.span a xs, t) ::
      frees (after Piece.span a (xs ++ (⟨t, true⟩ :: mid))) ys).Sublist
        (frees a (xs ++ (⟨t, true⟩ :: mid ++ ys))) := by
    simp only [frees_append, after_append, frees_cons_free, List.cons_append, after_cons, span_mk]
    exact ((List.sublist_append_right _ _).cons_cons _).append_left _
  have hinsert := hl.blockInsert hsub
  simpa using hinsert

end Held
end BouffaloSdk.Mm
