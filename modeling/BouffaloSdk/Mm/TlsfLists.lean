import BouffaloSdk.Kit.BitSet
import BouffaloSdk.Kit.FreeList
import BouffaloSdk.Mm.TlsfClasses
import BouffaloSdk.Mm.TlsfWords

/-!
# The free lists

Every free block is on the list of its class, and the bitmaps say which lists have
one.
-/

namespace BouffaloSdk.Mm

open Kit Tlsf

/-- The free blocks, each with its size, are listed by class. -/
structure Listed (h : Heap) (F : List (ℕ × ℕ)) (lists : ℕ → ℕ → List ℕ) : Prop where
  chained : ∀ fl < 24, ∀ sl < 32,
    Chained h.nextFree h.prevFree h.blockNull h.blockNull (h.blocks fl sl) (lists fl sl)
  nodup : ∀ fl sl, (lists fl sl).Nodup
  mem : ∀ fl sl x, x ∈ lists fl sl ↔ ∃ s, (x, s) ∈ F ∧ mappingInsert s = (fl, sl)
  slBit : ∀ fl < 24, ∀ sl, (h.slBitmap fl).getLsbD sl = true ↔ sl < 32 ∧ lists fl sl ≠ []
  flBit : ∀ fl, h.flBitmap.getLsbD fl = true ↔ fl < 24 ∧ h.slBitmap fl ≠ 0

/-- Where free blocks are: apart from each other and from the null block. -/
structure Spaced (null : ℕ) (F : List (ℕ × ℕ)) : Prop where
  apart : F.Pairwise fun u v => u.1 + 16 ≤ v.1
  start : ∀ u ∈ F, null + 16 ≤ u.1
  size : ∀ u ∈ F, u.2 < 2 ^ 30
  top : ∀ u ∈ F, u.1 + 16 ≤ 2 ^ 32

/-- Bytes of the links of the null block or of a block of `F`. -/
def linkAt (null : ℕ) (F : List (ℕ × ℕ)) (y : ℕ) : Prop :=
  ∃ x, (x = null ∨ ∃ s, (x, s) ∈ F) ∧ x + 8 ≤ y ∧ y < x + 16

variable {h h' : Heap} {F l₁ l₂ : List (ℕ × ℕ)} {lists : ℕ → ℕ → List ℕ} {P : ℕ → Prop}
  {b c s t null : ℕ}

namespace Spaced

theorem sublist {G : List (ℕ × ℕ)} (hF : Spaced null F) (hsub : G.Sublist F) : Spaced null G where
  apart := hF.apart.sublist hsub
  start u hu := hF.start u (hsub.subset hu)
  size u hu := hF.size u (hsub.subset hu)
  top u hu := hF.top u (hsub.subset hu)

theorem without (hF : Spaced null (l₁ ++ (b, s) :: l₂)) : Spaced null (l₁ ++ l₂) :=
  hF.sublist ((List.sublist_cons_self _ _).append_left l₁)

theorem eq_or_apart (hF : Spaced null F) (hb : (b, s) ∈ F) (hc : (c, t) ∈ F) :
    (b, s) = (c, t) ∨ b + 16 ≤ c ∨ c + 16 ≤ b := by
  have hpair := hF.apart
  clear hF
  induction F with
  | nil => exact absurd hb List.not_mem_nil
  | cons u F ih =>
    obtain ⟨hu, hpair⟩ := List.pairwise_cons.mp hpair
    cases List.mem_cons.mp hb with
    | inl hbu =>
      cases List.mem_cons.mp hc with
      | inl hcu => exact .inl (hbu.trans hcu.symm)
      | inr hmem =>
        subst hbu
        exact .inr (.inl (hu _ hmem))
    | inr hbmem =>
      cases List.mem_cons.mp hc with
      | inl hcu =>
        subst hcu
        exact .inr (.inr (hu _ hbmem))
      | inr hcmem => exact ih hbmem hcmem hpair

theorem not_mem_rest (hF : Spaced null (l₁ ++ (b, s) :: l₂)) (t : ℕ) : (b, t) ∉ l₁ ++ l₂ := by
  intro hmem
  obtain ⟨-, hcons, hcross⟩ := List.pairwise_append.mp hF.apart
  cases List.mem_append.mp hmem with
  | inl hleft =>
    have hfar := hcross (b, t) hleft (b, s) List.mem_cons_self
    simp only at hfar
    omega
  | inr hright =>
    have hfar := (List.pairwise_cons.mp hcons).1 (b, t) hright
    simp only at hfar
    omega

/-- Cells of the lists: blocks of `F` and the null block. Two are one or lie apart. -/
theorem cells_apart (hF : Spaced null F) (hb : b = null ∨ ∃ s, (b, s) ∈ F)
    (hc : c = null ∨ ∃ s, (c, s) ∈ F) : b = c ∨ b + 16 ≤ c ∨ c + 16 ≤ b := by
  rcases hb with rfl | ⟨s, hb⟩ <;> rcases hc with rfl | ⟨t, hc⟩
  · exact .inl rfl
  · exact .inr (.inl (hF.start _ hc))
  · exact .inr (.inr (hF.start _ hb))
  · exact (hF.eq_or_apart hb hc).imp_left (congrArg Prod.fst)

end Spaced

namespace Listed

theorem frame (hl : Listed h F lists) (hf : Frame h h' P)
    (hsame : SameLists h h')
    (hout : ∀ x s, (x, s) ∈ F → ∀ y, x + 8 ≤ y → y < x + 16 → ¬ P y) : Listed h' F lists := by
  obtain ⟨hfl, hsl, hblocks⟩ := hsame
  refine ⟨?_, hl.nodup, hl.mem, ?_, ?_⟩
  · intro fl hfl sl hsl
    rw [hblocks, hf.blockNull]
    apply (hl.chained fl hfl sl hsl).congr
    · intro x hx
      obtain ⟨s, hmem, -⟩ := (hl.mem fl sl x).mp hx
      exact hf.word fun y hy => hout x s hmem y hy.1 (by have := hy.2; omega)
    · intro x hx
      obtain ⟨s, hmem, -⟩ := (hl.mem fl sl x).mp hx
      exact hf.word fun y hy => hout x s hmem y (by have := hy.1; omega) (by have := hy.2; omega)
  · rw [hsl]
    exact hl.slBit
  · rw [hfl, hsl]
    exact hl.flBit

/-- The first cell of a list is a free block, or the null block. -/
theorem head_cell (hl : Listed h F lists) {fl sl : ℕ} (hfl : fl < 24) (hsl : sl < 32) :
    h.blocks fl sl = h.blockNull ∨ ∃ s, (h.blocks fl sl, s) ∈ F := by
  have hchain := hl.chained fl hfl sl hsl
  by_cases hnil : lists fl sl = []
  · exact .inl (hchain.head_eq_null_iff.mpr hnil)
  · obtain ⟨s, hmem, -⟩ := (hl.mem fl sl _).mp (hchain.head_mem hnil)
    exact .inr ⟨s, hmem⟩

theorem next_cell (hl : Listed h F lists) {fl sl : ℕ} (hfl : fl < 24) (hsl : sl < 32)
    (hb : b ∈ lists fl sl) : h.nextFree b = h.blockNull ∨ ∃ s, (h.nextFree b, s) ∈ F := by
  apply ((hl.chained fl hfl sl hsl).next_mem hb).imp_right
  intro hmem
  obtain ⟨s, hmem, -⟩ := (hl.mem fl sl _).mp hmem
  exact ⟨s, hmem⟩

theorem prev_cell (hl : Listed h F lists) {fl sl : ℕ} (hfl : fl < 24) (hsl : sl < 32)
    (hb : b ∈ lists fl sl) : h.prevFree b = h.blockNull ∨ ∃ s, (h.prevFree b, s) ∈ F := by
  cases (hl.chained fl hfl sl hsl).prev_mem hb with
  | inl hfirst => exact .inl hfirst.2
  | inr hmem =>
    obtain ⟨s, hmem, -⟩ := (hl.mem fl sl _).mp hmem
    exact .inr ⟨s, hmem⟩

end Listed

/-- A block is on one list only. -/
theorem Listed.class_unique (hl : Listed h F lists) (hF : Spaced null F) {fl sl fl' sl' x : ℕ}
    (hx : x ∈ lists fl sl) (hx' : x ∈ lists fl' sl') : fl' = fl ∧ sl' = sl := by
  obtain ⟨s, hmem, hclass⟩ := (hl.mem fl sl x).mp hx
  obtain ⟨t, hmem', hclass'⟩ := (hl.mem fl' sl' x).mp hx'
  cases hF.eq_or_apart hmem hmem' with
  | inl heq =>
    obtain rfl : s = t := congrArg Prod.snd heq
    exact Prod.mk.inj (hclass'.symm.trans hclass)
  | inr happart => omega

theorem update_update {α : Type*} (f : ℕ → ℕ → α) (i j : ℕ) (v : α) (i' j' : ℕ) :
    Function.update f i (Function.update (f i) j v) i' j' =
      if i' = i ∧ j' = j then v else f i' j' := by
  by_cases hi : i' = i
  · subst hi
    rw [Function.update_self, Function.update_apply]
    simp only [true_and]
  · rw [Function.update_of_ne hi, if_neg (fun hboth => hi hboth.1)]

/-! ## One block in or out -/

section Insert

variable {fl sl x : ℕ}

theorem insertFreeBlock_links (hF : Spaced h.blockNull F) (hb : (b, s) ∈ F)
    (hcur : h.blocks fl sl = h.blockNull ∨ ∃ t, (h.blocks fl sl, t) ∈ F)
    (hne : h.blocks fl sl ≠ b) (hx : ∃ t, (x, t) ∈ F) :
    (h.insertFreeBlock b fl sl).nextFree x = (if x = b then h.blocks fl sl else h.nextFree x) ∧
      (h.insertFreeBlock b fl sl).prevFree x =
        if x = b then h.blockNull else if x = h.blocks fl sl then b else h.prevFree x := by
  have hnull := hF.start _ hb
  have htop := hF.top _ hb
  have hcurlt : h.blocks fl sl < 256 ^ 4 := by
    rcases hcur with heq | ⟨t, hmem⟩
    · omega
    · have := hF.top _ hmem
      omega
  have hxb := hF.cells_apart (.inr hx) (.inr ⟨s, hb⟩)
  have hxcur := hF.cells_apart (.inr hx) hcur
  have hbcur := hF.cells_apart (.inr ⟨s, hb⟩) hcur
  simp only [Heap.insertFreeBlock, Heap.setBits, Heap.setBlocks, Heap.nextFree, Heap.prevFree,
    Heap.setNextFree, Heap.setPrevFreeLink] at *
  generalize h.blocks fl sl = cur at *
  constructor
  · change (((h.setWord (b + 8) cur).setWord (b + 12) h.blockNull).setWord (cur + 12) b).word (x + 8) = _
    rw [word_setWord_of_disjoint (by omega), word_setWord_of_disjoint (by omega)]
    split
    · next heq => rw [heq, word_setWord hcurlt]
    · rw [word_setWord_of_disjoint (by omega)]
  · change (((h.setWord (b + 8) cur).setWord (b + 12) h.blockNull).setWord (cur + 12) b).word (x + 12) =
      _
    split
    · next heq =>
      rw [heq, word_setWord_of_disjoint (by omega), word_setWord (by omega)]
    · split
      · next heq => rw [heq, word_setWord (by omega)]
      · rw [word_setWord_of_disjoint (by omega), word_setWord_of_disjoint (by omega),
          word_setWord_of_disjoint (by omega)]

theorem insertFreeBlock_frame
    (hcur : h.blocks fl sl = h.blockNull ∨ ∃ t, (h.blocks fl sl, t) ∈ F) (hb : (b, s) ∈ F) :
    Frame h (h.insertFreeBlock b fl sl) (linkAt h.blockNull F) := by
  have hframe := ((setWord_frame h (b + 8) (h.blocks fl sl)).trans
    (setWord_frame _ (b + 12) h.blockNull)).trans (setWord_frame _ (h.blocks fl sl + 12) b)
  refine Frame.mono (P := _) ⟨hframe.mem, hframe.blockNull⟩ ?_
  rintro y ((hy | hy) | hy) <;> obtain ⟨hlow, hhigh⟩ := hy
  · exact ⟨b, .inr ⟨s, hb⟩, by omega, by omega⟩
  · exact ⟨b, .inr ⟨s, hb⟩, by omega, by omega⟩
  · exact ⟨h.blocks fl sl, hcur, by omega, by omega⟩

theorem Listed.insert (hl : Listed h (l₁ ++ l₂) lists)
    (hF : Spaced h.blockNull (l₁ ++ (b, s) :: l₂)) (hsize : h.blockSize b = s) :
    Listed (h.blockInsert b) (l₁ ++ (b, s) :: l₂)
        (Function.update lists (mappingInsert s).1
          (Function.update (lists (mappingInsert s).1) (mappingInsert s).2
            (b :: lists (mappingInsert s).1 (mappingInsert s).2))) ∧
      Frame h (h.blockInsert b) (linkAt h.blockNull (l₁ ++ (b, s) :: l₂)) := by
  have hb : (b, s) ∈ l₁ ++ (b, s) :: l₂ := List.mem_append_right _ List.mem_cons_self
  have hmem : ∀ u, u ∈ l₁ ++ (b, s) :: l₂ ↔ u = (b, s) ∨ u ∈ l₁ ++ l₂ := by
    intro u
    simp only [List.mem_append, List.mem_cons]
    tauto
  have hnot := hF.not_mem_rest
  obtain ⟨fl, sl, hclass⟩ : ∃ fl sl, mappingInsert s = (fl, sl) := ⟨_, _, rfl⟩
  have hfl : fl < 24 := by
    have hlt := mappingInsert_fl_lt_iff.mpr (hF.size _ hb)
    rwa [hclass] at hlt
  have hsl : sl < 32 := by
    have hlt := mappingInsert_sl_lt s
    rwa [hclass] at hlt
  have hcur : h.blocks fl sl = h.blockNull ∨ ∃ t, (h.blocks fl sl, t) ∈ l₁ ++ (b, s) :: l₂ :=
    (hl.head_cell hfl hsl).imp_right fun ⟨t, ht⟩ => ⟨t, (hmem _).mpr (.inr ht)⟩
  have hne : h.blocks fl sl ≠ b := by
    intro heq
    rcases hl.head_cell hfl hsl with hnull | ⟨t, ht⟩
    · have hstart := hF.start _ hb
      rw [heq] at hnull
      simp only at hstart
      omega
    · exact hnot t (heq ▸ ht)
  have heq : h.blockInsert b = h.insertFreeBlock b fl sl := by
    simp only [Heap.blockInsert, hsize, hclass]
  have hlinks : ∀ x t, (x, t) ∈ l₁ ++ (b, s) :: l₂ → _ := fun x t hx =>
    insertFreeBlock_links hF hb hcur hne ⟨t, hx⟩
  have hnull : (h.insertFreeBlock b fl sl).blockNull = h.blockNull := rfl
  rw [heq, hclass]
  refine ⟨⟨?_, ?_, ?_, ?_, ?_⟩, insertFreeBlock_frame hcur hb⟩
  · intro fl' hfl' sl' hsl'
    have hchain := hl.chained fl' hfl' sl' hsl'
    have hblocks : (h.insertFreeBlock b fl sl).blocks fl' sl' =
        if fl' = fl ∧ sl' = sl then b else h.blocks fl' sl' := update_update ..
    rw [hblocks, update_update, hnull]
    split
    · next hsame =>
      obtain ⟨rfl, rfl⟩ := hsame
      have hbl : b ∉ lists fl' sl' := fun hmem' => by
        obtain ⟨t, ht, -⟩ := (hl.mem fl' sl' b).mp hmem'
        exact hnot t ht
      have hbnull : b ≠ h.blockNull := by
        have hstart := hF.start _ hb
        simp only at hstart
        omega
      have hcells : ∀ x ∈ b :: lists fl' sl', ∃ t, (x, t) ∈ l₁ ++ (b, s) :: l₂ := by
        intro x hx
        cases List.mem_cons.mp hx with
        | inl hxb => exact ⟨s, hxb ▸ hb⟩
        | inr hxl =>
          obtain ⟨t, ht, -⟩ := (hl.mem fl' sl' x).mp hxl
          exact ⟨t, (hmem _).mpr (.inr ht)⟩
      apply hchain.push hbnull hbl (hl.nodup fl' sl')
      · intro x hx
        obtain ⟨t, ht⟩ := hcells x hx
        exact (hlinks x t ht).1
      · intro x hx
        obtain ⟨t, ht⟩ := hcells x hx
        exact (hlinks x t ht).2
    · next hother =>
      have hkeep : ∀ x ∈ lists fl' sl', x ≠ b ∧ x ≠ h.blocks fl sl ∧
          ∃ t, (x, t) ∈ l₁ ++ (b, s) :: l₂ := by
        intro x hx
        obtain ⟨t, ht, -⟩ := (hl.mem fl' sl' x).mp hx
        refine ⟨fun hxb => hnot t (hxb ▸ ht), ?_, t, (hmem _).mpr (.inr ht)⟩
        intro hxcur
        have hcurl : x ∈ lists fl sl := by
          rw [hxcur]
          apply (hl.chained fl hfl sl hsl).head_mem
          intro hnil
          have hend := (hl.chained fl hfl sl hsl).head_eq_null_iff.mpr hnil
          exact hchain.ne_null hx (hxcur.trans hend)
        exact hother (hl.class_unique hF.without hcurl hx)
      apply hchain.congr
      · intro x hx
        obtain ⟨hxb, -, t, ht⟩ := hkeep x hx
        exact (hlinks x t ht).1.trans (if_neg hxb)
      · intro x hx
        obtain ⟨hxb, hxcur, t, ht⟩ := hkeep x hx
        exact (hlinks x t ht).2.trans ((if_neg hxb).trans (if_neg hxcur))
  · intro fl' sl'
    rw [update_update]
    split
    · next hsame =>
      refine List.nodup_cons.mpr ⟨fun hmem' => ?_, hl.nodup fl sl⟩
      obtain ⟨t, ht, -⟩ := (hl.mem fl sl b).mp hmem'
      exact hnot t ht
    · exact hl.nodup fl' sl'
  · intro fl' sl' x
    rw [update_update]
    simp only [hmem]
    split
    · next hsame =>
      obtain ⟨rfl, rfl⟩ := hsame
      rw [List.mem_cons, hl.mem]
      constructor
      · rintro (rfl | ⟨t, ht, hcls⟩)
        · exact ⟨s, .inl rfl, hclass⟩
        · exact ⟨t, .inr ht, hcls⟩
      · rintro ⟨t, heq | ht, hcls⟩
        · exact .inl (congrArg Prod.fst heq)
        · exact .inr ⟨t, ht, hcls⟩
    · next hother =>
      rw [hl.mem]
      constructor
      · rintro ⟨t, ht, hcls⟩
        exact ⟨t, .inr ht, hcls⟩
      · rintro ⟨t, heq | ht, hcls⟩
        · obtain ⟨-, rfl⟩ := Prod.mk.inj heq
          exact absurd (Prod.mk.inj (hcls.symm.trans hclass)) hother
        · exact ⟨t, ht, hcls⟩
  · intro fl' hfl' sl'
    have hbits : (h.insertFreeBlock b fl sl).slBitmap fl' =
        if fl' = fl then h.slBitmap fl ||| (1#32 <<< sl) else h.slBitmap fl' :=
      Function.update_apply ..
    rw [hbits, update_update]
    by_cases hsame : fl' = fl
    · subst hsame
      rw [if_pos rfl, BitSet.getLsbD_insert _ hsl, Bool.or_eq_true, decide_eq_true_iff,
        hl.slBit fl' hfl']
      by_cases hsl' : sl' = sl
      · simp [hsl', hsl]
      · simp [hsl']
    · rw [if_neg hsame, if_neg fun hboth => hsame hboth.1, hl.slBit fl' hfl']
  · intro fl'
    have hbits : (h.insertFreeBlock b fl sl).slBitmap fl' =
        if fl' = fl then h.slBitmap fl ||| (1#32 <<< sl) else h.slBitmap fl' :=
      Function.update_apply ..
    have hfbits : (h.insertFreeBlock b fl sl).flBitmap = h.flBitmap ||| (1#32 <<< fl) := rfl
    rw [hbits, hfbits, BitSet.getLsbD_insert _ (by omega), Bool.or_eq_true, decide_eq_true_iff,
      hl.flBit]
    by_cases hsame : fl' = fl
    · subst hsame
      have hset : h.slBitmap fl' ||| (1#32 <<< sl) ≠ 0 :=
        (BitSet.ne_zero_iff _).mpr ⟨sl, by rw [BitSet.getLsbD_insert _ hsl]; simp⟩
      rw [if_pos rfl]
      exact iff_of_true (.inl rfl) ⟨hfl, hset⟩
    · simp [hsame]

end Insert

section Remove

variable {fl sl x : ℕ}

/-- The two stores of an unlinking, before the heads and the bitmaps. -/
def unlinked (h : Heap) (b : ℕ) : Heap :=
  (h.setPrevFreeLink (h.nextFree b) (h.prevFree b)).setNextFree (h.prevFree b) (h.nextFree b)

/-- The same with its list's bit cleared, and its bit in turn when no list is left. -/
def cleared (h : Heap) (fl sl : ℕ) : Heap :=
  if (h.clearSl fl sl).slBitmap fl = 0 then (h.clearSl fl sl).clearFl fl else h.clearSl fl sl

theorem removeFreeBlock_eq : h.removeFreeBlock b fl sl =
    if h.blocks fl sl = b then
      if h.nextFree b = h.blockNull then cleared ((unlinked h b).setBlocks fl sl (h.nextFree b)) fl sl
      else (unlinked h b).setBlocks fl sl (h.nextFree b)
    else unlinked h b := rfl

theorem cleared_slBitmap : (cleared h fl sl).slBitmap =
    Function.update h.slBitmap fl (h.slBitmap fl &&& ~~~(1#32 <<< sl)) :=
  (apply_ite Heap.slBitmap ..).trans (ite_self _)

theorem cleared_blocks : (cleared h fl sl).blocks = h.blocks :=
  (apply_ite Heap.blocks ..).trans (ite_self _)

theorem cleared_mem : (cleared h fl sl).mem = h.mem :=
  (apply_ite Heap.mem ..).trans (ite_self _)

theorem cleared_blockNull : (cleared h fl sl).blockNull = h.blockNull :=
  (apply_ite Heap.blockNull ..).trans (ite_self _)

theorem cleared_flBitmap : (cleared h fl sl).flBitmap =
    if h.slBitmap fl &&& ~~~(1#32 <<< sl) = 0 then h.flBitmap &&& ~~~(1#32 <<< fl)
    else h.flBitmap := by
  have hself : (h.clearSl fl sl).slBitmap fl = h.slBitmap fl &&& ~~~(1#32 <<< sl) :=
    Function.update_self ..
  rw [cleared, hself, apply_ite Heap.flBitmap]
  rfl

theorem removeFreeBlock_frame : (h.removeFreeBlock b fl sl).mem = (unlinked h b).mem ∧
    (h.removeFreeBlock b fl sl).blockNull = h.blockNull := by
  rw [removeFreeBlock_eq]
  split
  · split
    · exact ⟨cleared_mem, cleared_blockNull⟩
    · exact ⟨rfl, rfl⟩
  · exact ⟨rfl, rfl⟩

/-- The head of its list and of no other becomes the next block. -/
theorem removeFreeBlock_blocks (fl' sl' : ℕ) : (h.removeFreeBlock b fl sl).blocks fl' sl' =
    if fl' = fl ∧ sl' = sl ∧ h.blocks fl sl = b then h.nextFree b else h.blocks fl' sl' := by
  have hset : ((unlinked h b).setBlocks fl sl (h.nextFree b)).blocks fl' sl' =
      if fl' = fl ∧ sl' = sl then h.nextFree b else h.blocks fl' sl' := update_update ..
  rw [removeFreeBlock_eq]
  by_cases hhead : h.blocks fl sl = b
  · simp only [hhead, ↓reduceIte, and_true]
    split
    · rw [cleared_blocks, hset]
    · exact hset
  · simp only [hhead, ↓reduceIte, and_false]
    rfl

theorem unlinked_links (hF : Spaced h.blockNull F)
    (hnext : h.nextFree b = h.blockNull ∨ ∃ t, (h.nextFree b, t) ∈ F)
    (hprev : h.prevFree b = h.blockNull ∨ ∃ t, (h.prevFree b, t) ∈ F) (hb : ∃ t, (b, t) ∈ F)
    (hx : ∃ t, (x, t) ∈ F) :
    (unlinked h b).nextFree x = (if x = h.prevFree b then h.nextFree b else h.nextFree x) ∧
      (unlinked h b).prevFree x = if x = h.nextFree b then h.prevFree b else h.prevFree x := by
  have hlt : ∀ c, c = h.blockNull ∨ (∃ t, (c, t) ∈ F) → c < 256 ^ 4 := by
    obtain ⟨t, hb⟩ := hb
    have hstart := hF.start _ hb
    have htop := hF.top _ hb
    rintro c (rfl | ⟨t', hc⟩)
    · omega
    · have := hF.top _ hc
      omega
  have hxnext := hF.cells_apart (.inr hx) hnext
  have hxprev := hF.cells_apart (.inr hx) hprev
  have hnextlt := hlt _ hnext
  have hprevlt := hlt _ hprev
  simp only [unlinked, Heap.setNextFree, Heap.setPrevFreeLink]
  generalize h.nextFree b = next at *
  generalize h.prevFree b = prev at *
  have hboth : prev = next ∨ prev + 16 ≤ next ∨ next + 16 ≤ prev :=
    hF.cells_apart hprev hnext
  constructor
  · change ((h.setWord (next + 12) prev).setWord (prev + 8) next).word (x + 8) = _
    split
    · next heq => rw [heq, word_setWord hnextlt]
    · rw [word_setWord_of_disjoint (by omega), word_setWord_of_disjoint (by omega)]
      rfl
  · change ((h.setWord (next + 12) prev).setWord (prev + 8) next).word (x + 12) = _
    rw [word_setWord_of_disjoint (by omega)]
    split
    · next heq => rw [heq, word_setWord hprevlt]
    · rw [word_setWord_of_disjoint (by omega)]
      rfl

theorem unlinked_frame (h : Heap) (b : ℕ) :
    Frame h (unlinked h b) fun y => wordAt (h.nextFree b + 12) y ∨ wordAt (h.prevFree b + 8) y :=
  (setWord_frame ..).trans (setWord_frame ..)

/-- The lists once `b` is off its own, all but the bitmaps. -/
theorem Listed.remove_chained (hl : Listed h F lists) (hF : Spaced h.blockNull F) (hb : (b, s) ∈ F)
    (hclass : mappingInsert s = (fl, sl)) {fl' sl' : ℕ} (hfl : fl' < 24) (hsl : sl' < 32) :
    Chained (h.removeFreeBlock b fl sl).nextFree (h.removeFreeBlock b fl sl).prevFree h.blockNull
      h.blockNull ((h.removeFreeBlock b fl sl).blocks fl' sl')
      (Function.update lists fl (Function.update (lists fl) sl ((lists fl sl).erase b)) fl' sl') := by
  have hbl : b ∈ lists fl sl := (hl.mem fl sl b).mpr ⟨s, hb, hclass⟩
  have hfl₀ : fl < 24 := by
    have hlt := mappingInsert_fl_lt_iff.mpr (hF.size _ hb)
    rwa [hclass] at hlt
  have hsl₀ : sl < 32 := by
    have hlt := mappingInsert_sl_lt s
    rwa [hclass] at hlt
  have hnext : (h.removeFreeBlock b fl sl).nextFree = (unlinked h b).nextFree := by
    funext x
    simp only [Heap.nextFree, Heap.word, removeFreeBlock_frame.1]
  have hprev : (h.removeFreeBlock b fl sl).prevFree = (unlinked h b).prevFree := by
    funext x
    simp only [Heap.prevFree, Heap.word, removeFreeBlock_frame.1]
  have hlinks : ∀ x, (∃ t, (x, t) ∈ F) → _ := fun x hx =>
    unlinked_links hF (hl.next_cell hfl₀ hsl₀ hbl) (hl.prev_cell hfl₀ hsl₀ hbl) ⟨s, hb⟩ hx
  have hcell : ∀ fl' sl' x, x ∈ lists fl' sl' → ∃ t, (x, t) ∈ F := by
    intro fl' sl' x hx
    obtain ⟨t, ht, -⟩ := (hl.mem fl' sl' x).mp hx
    exact ⟨t, ht⟩
  rw [hnext, hprev, removeFreeBlock_blocks, update_update]
  by_cases hsame : fl' = fl ∧ sl' = sl
  · obtain ⟨rfl, rfl⟩ := hsame
    have hchain := hl.chained fl' hfl sl' hsl
    have hnull : h.blockNull ∉ lists fl' sl' := fun hmem => hchain.ne_null hmem rfl
    simp only [true_and, and_self, ↓reduceIte]
    apply hchain.remove hbl (hl.nodup fl' sl') hnull
    · exact fun x hx _ => (hlinks x (hcell fl' sl' x hx)).1
    · exact fun x hx _ => (hlinks x (hcell fl' sl' x hx)).2
  · rw [if_neg fun hall => hsame ⟨hall.1, hall.2.1⟩, if_neg hsame]
    have hchain := hl.chained fl' hfl sl' hsl
    have hfar : ∀ x ∈ lists fl' sl', ∀ c, c = h.blockNull ∨ c ∈ lists fl sl → x ≠ c := by
      rintro x hx c (rfl | hc) rfl
      · exact hchain.ne_null hx rfl
      · exact hsame (hl.class_unique hF hc hx)
    have hprevcell : h.prevFree b = h.blockNull ∨ h.prevFree b ∈ lists fl sl :=
      ((hl.chained fl hfl₀ sl hsl₀).prev_mem hbl).imp_left fun hfirst => hfirst.2
    have hnextcell : h.nextFree b = h.blockNull ∨ h.nextFree b ∈ lists fl sl :=
      (hl.chained fl hfl₀ sl hsl₀).next_mem hbl
    apply hchain.congr
    · exact fun x hx => (hlinks x (hcell fl' sl' x hx)).1.trans (if_neg (hfar x hx _ hprevcell))
    · exact fun x hx => (hlinks x (hcell fl' sl' x hx)).2.trans (if_neg (hfar x hx _ hnextcell))

theorem removeFreeBlock_bits (hempty : (h.blocks fl sl = b ∧ h.nextFree b = h.blockNull) ↔
      (lists fl sl).erase b = []) (fl' : ℕ) :
    (h.removeFreeBlock b fl sl).slBitmap fl' =
        (if fl' = fl ∧ (lists fl sl).erase b = [] then h.slBitmap fl &&& ~~~(1#32 <<< sl)
        else h.slBitmap fl') ∧
      (h.removeFreeBlock b fl sl).flBitmap =
        if (lists fl sl).erase b = [] ∧ h.slBitmap fl &&& ~~~(1#32 <<< sl) = 0 then
          h.flBitmap &&& ~~~(1#32 <<< fl)
        else h.flBitmap := by
  rw [removeFreeBlock_eq]
  by_cases hnil : (lists fl sl).erase b = []
  · obtain ⟨hhead, hnext⟩ := hempty.mpr hnil
    rw [if_pos hhead, if_pos hnext, cleared_slBitmap, cleared_flBitmap, Function.update_apply]
    simp only [hnil, and_true, true_and]
    exact ⟨rfl, rfl⟩
  · have hnot : ¬ (h.blocks fl sl = b ∧ h.nextFree b = h.blockNull) := mt hempty.mp hnil
    simp only [hnil, and_false, false_and, ↓reduceIte]
    by_cases hhead : h.blocks fl sl = b
    · rw [if_pos hhead, if_neg fun hnext => hnot ⟨hhead, hnext⟩]
      exact ⟨rfl, rfl⟩
    · rw [if_neg hhead]
      exact ⟨rfl, rfl⟩

theorem Listed.remove (hl : Listed h (l₁ ++ (b, s) :: l₂) lists)
    (hF : Spaced h.blockNull (l₁ ++ (b, s) :: l₂)) (hclass : mappingInsert s = (fl, sl)) :
    Listed (h.removeFreeBlock b fl sl) (l₁ ++ l₂)
        (Function.update lists fl (Function.update (lists fl) sl ((lists fl sl).erase b))) ∧
      Frame h (h.removeFreeBlock b fl sl) (linkAt h.blockNull (l₁ ++ (b, s) :: l₂)) := by
  have hb : (b, s) ∈ l₁ ++ (b, s) :: l₂ := List.mem_append_right _ List.mem_cons_self
  have hbl : b ∈ lists fl sl := (hl.mem fl sl b).mpr ⟨s, hb, hclass⟩
  have hfl : fl < 24 := by
    have hlt := mappingInsert_fl_lt_iff.mpr (hF.size _ hb)
    rwa [hclass] at hlt
  have hsl : sl < 32 := by
    have hlt := mappingInsert_sl_lt s
    rwa [hclass] at hlt
  have hchain := fun fl' (hfl' : fl' < 24) sl' (hsl' : sl' < 32) =>
    hl.remove_chained hF hb hclass hfl' hsl'
  have hempty : (h.blocks fl sl = b ∧ h.nextFree b = h.blockNull) ↔ (lists fl sl).erase b = [] := by
    have hhead := (hchain fl hfl sl hsl).head_eq_null_iff
    rw [removeFreeBlock_blocks, update_update] at hhead
    simp only [true_and, and_self, ↓reduceIte] at hhead
    rw [← hhead]
    split
    · next heq => exact and_iff_right heq
    · next hne =>
      refine iff_of_false (fun hboth => hne hboth.1) fun hnull => ?_
      have hnil := (hl.chained fl hfl sl hsl).head_eq_null_iff.mp hnull
      exact List.not_mem_nil (hnil ▸ hbl)
  have hbits := removeFreeBlock_bits hempty
  refine ⟨⟨?_, ?_, ?_, ?_, ?_⟩, ?_⟩
  · rw [removeFreeBlock_frame.2]
    exact hchain
  · intro fl' sl'
    rw [update_update]
    split
    · exact (hl.nodup fl sl).erase b
    · exact hl.nodup fl' sl'
  · intro fl' sl' x
    have hrest : ∀ t, (x, t) ∈ l₁ ++ l₂ ↔ x ≠ b ∧ (x, t) ∈ l₁ ++ (b, s) :: l₂ := by
      intro t
      constructor
      · intro hmem
        refine ⟨fun hxb => hF.not_mem_rest t (hxb ▸ hmem), ?_⟩
        exact ((List.sublist_cons_self _ _).append_left l₁).subset hmem
      · rintro ⟨hxb, hmem⟩
        simp only [List.mem_append, List.mem_cons] at hmem ⊢
        rcases hmem with hleft | heq | hright
        · exact .inl hleft
        · exact absurd (congrArg Prod.fst heq) hxb
        · exact .inr hright
    rw [update_update]
    simp only [hrest]
    split
    · next hsame =>
      obtain ⟨rfl, rfl⟩ := hsame
      rw [(hl.nodup fl' sl').mem_erase_iff, hl.mem]
      constructor
      · rintro ⟨hxb, t, ht, hcls⟩
        exact ⟨t, ⟨hxb, ht⟩, hcls⟩
      · rintro ⟨t, ⟨hxb, ht⟩, hcls⟩
        exact ⟨hxb, t, ht, hcls⟩
    · next hother =>
      rw [hl.mem]
      constructor
      · rintro ⟨t, ht, hcls⟩
        refine ⟨t, ⟨fun hxb => hother ?_, ht⟩, hcls⟩
        subst hxb
        exact hl.class_unique hF hbl ((hl.mem fl' sl' x).mpr ⟨t, ht, hcls⟩)
      · rintro ⟨t, ⟨-, ht⟩, hcls⟩
        exact ⟨t, ht, hcls⟩
  · intro fl' hfl' sl'
    rw [(hbits fl').1, update_update]
    by_cases hsame : fl' = fl
    · subst hsame
      simp only [true_and]
      by_cases hnil : (lists fl' sl).erase b = []
      · rw [if_pos hnil, BitSet.getLsbD_erase _ hsl, Bool.and_eq_true, hl.slBit fl' hfl']
        by_cases hsl' : sl' = sl
        · simp [hsl', hnil]
        · simp [hsl']
      · rw [if_neg hnil, hl.slBit fl' hfl']
        by_cases hsl' : sl' = sl
        · simp [hsl', hnil, List.ne_nil_of_mem hbl]
        · simp [hsl']
    · simp only [hsame, false_and, ↓reduceIte]
      exact hl.slBit fl' hfl' sl'
  · intro fl'
    rw [(hbits fl').1, (hbits fl').2]
    by_cases hnil : (lists fl sl).erase b = []
    · simp only [hnil, and_true, true_and]
      by_cases hsame : fl' = fl
      · subst hsame
        by_cases hzero : h.slBitmap fl' &&& ~~~(1#32 <<< sl) = 0
        · simp only [hzero, ↓reduceIte, BitSet.getLsbD_erase _ (show fl' < 32 by omega)]
          simp
        · simp only [hzero, ↓reduceIte, hl.flBit, hfl, true_and]
          refine iff_of_true ?_ hzero
          exact (BitSet.ne_zero_iff _).mpr ⟨sl, (hl.slBit fl' hfl sl).mpr ⟨hsl, List.ne_nil_of_mem hbl⟩⟩
      · simp only [hsame, ↓reduceIte]
        rw [← hl.flBit]
        split
        · rw [BitSet.getLsbD_erase _ (show fl < 32 by omega)]
          simp [hsame]
        · rfl
    · simp only [hnil, and_false, false_and, ↓reduceIte]
      exact hl.flBit fl'
  · have hframe : Frame h (h.removeFreeBlock b fl sl)
        fun y => wordAt (h.nextFree b + 12) y ∨ wordAt (h.prevFree b + 8) y :=
      ⟨fun y hy => (congrFun removeFreeBlock_frame.1 y).trans ((unlinked_frame h b).mem y hy),
        removeFreeBlock_frame.2⟩
    apply hframe.mono
    rintro y (⟨hlow, hhigh⟩ | ⟨hlow, hhigh⟩)
    · exact ⟨_, hl.next_cell hfl hsl hbl, by omega, by omega⟩
    · exact ⟨_, hl.prev_cell hfl hsl hbl, by omega, by omega⟩

end Remove

/-! ## Looking for a block -/

section Search

variable {fl sl size : ℕ}

theorem Listed.head_of_bit (hl : Listed h F lists) (hfl : fl < 24)
    (hbit : (h.slBitmap fl).getLsbD sl = true) :
    ∃ s, (h.blocks fl sl, s) ∈ F ∧ mappingInsert s = (fl, sl) := by
  obtain ⟨hsl, hne⟩ := (hl.slBit fl hfl sl).mp hbit
  exact (hl.mem fl sl _).mp ((hl.chained fl hfl sl hsl).head_mem hne)

theorem Listed.bit_of_mem (hl : Listed h F lists) (hb : (b, s) ∈ F)
    (hlt : (mappingInsert s).1 < 24) :
    (h.slBitmap (mappingInsert s).1).getLsbD (mappingInsert s).2 = true := by
  refine (hl.slBit _ hlt _).mpr ⟨mappingInsert_sl_lt s, ?_⟩
  exact List.ne_nil_of_mem ((hl.mem _ _ b).mpr ⟨s, hb, rfl⟩)

/-- The search finds a block of the class or of a later one, or there is none. -/
theorem searchSuitableBlock_spec (hl : Listed h F lists) (hF : Spaced null F) (hfl : fl < 24)
    (hsl : sl < 32) :
    (∃ x s, (x, s) ∈ F ∧ classMin fl sl ≤ s ∧
        h.searchSuitableBlock fl sl = (x, mappingInsert s)) ∨
      (∀ x s, (x, s) ∈ F → s < classMin fl sl) ∧ (h.searchSuitableBlock fl sl).1 = 0 := by
  simp only [Heap.searchSuitableBlock]
  by_cases hslMap : h.slBitmap fl &&& (BitVec.allOnes 32 <<< sl) = 0
  · rw [if_pos hslMap]
    by_cases hflMap : h.flBitmap &&& (BitVec.allOnes 32 <<< (fl + 1)) = 0
    · rw [if_pos hflMap]
      refine .inr ⟨fun x s hx => ?_, rfl⟩
      by_contra hle
      have hlt := mappingInsert_fl_lt_iff.mpr (hF.size _ hx)
      have hbit := hl.bit_of_mem hx hlt
      rcases (mapping_le_iff hsl).mpr (Nat.le_of_not_lt hle) with hlater | ⟨hsame, hge⟩
      · have hset : h.flBitmap.getLsbD (mappingInsert s).1 = true :=
          (hl.flBit _).mpr ⟨hlt, (BitSet.ne_zero_iff _).mpr ⟨_, hbit⟩⟩
        refine (BitSet.ne_zero_iff _).mpr ⟨(mappingInsert s).1, ?_⟩ hflMap
        rw [BitSet.getLsbD_from, hset, Bool.and_true, decide_eq_true_iff]
        omega
      · refine (BitSet.ne_zero_iff _).mpr ⟨(mappingInsert s).2, ?_⟩ hslMap
        rw [BitSet.getLsbD_from, hsame, hbit, Bool.and_true, decide_eq_true_iff]
        exact hge
    · rw [if_neg hflMap]
      obtain ⟨-, hbit, -⟩ := BitSet.lowest_spec hflMap
      rw [BitSet.getLsbD_from, Bool.and_eq_true, decide_eq_true_iff, hl.flBit] at hbit
      obtain ⟨hlater, hlt, hne⟩ := hbit
      obtain ⟨-, hbit', -⟩ := BitSet.lowest_spec hne
      obtain ⟨s, hmem, hclass⟩ := hl.head_of_bit hlt hbit'
      refine .inl ⟨_, s, hmem, ?_, by rw [hclass]; rfl⟩
      exact (mapping_le_iff hsl).mp (.inl (by rw [hclass]; exact hlater))
  · rw [if_neg hslMap]
    obtain ⟨-, hbit, -⟩ := BitSet.lowest_spec hslMap
    rw [BitSet.getLsbD_from, Bool.and_eq_true, decide_eq_true_iff] at hbit
    obtain ⟨hge, hbit⟩ := hbit
    obtain ⟨s, hmem, hclass⟩ := hl.head_of_bit hfl hbit
    refine .inl ⟨_, s, hmem, ?_, by rw [hclass]; rfl⟩
    exact (mapping_le_iff hsl).mp (.inr (by rw [hclass]; exact ⟨rfl, hge⟩))

/-- A block large enough is taken off its list, unless all are smaller than the request rounded
to a class. -/
theorem blockLocateFree_spec (hl : Listed h F lists) (hF : Spaced h.blockNull F)
    (hdvd : 4 ∣ size) (hpos : 0 < size) (hmax : size < 2 ^ 30) :
    (∃ x s, (x, s) ∈ F ∧ size ≤ s ∧
        h.blockLocateFree size = (h.removeFreeBlock x (mappingInsert s).1 (mappingInsert s).2, x)) ∨
      (∀ x s, (x, s) ∈ F → s < size + searchRound size) ∧ h.blockLocateFree size = (h, 0) := by
  have hclass : classMin (mappingSearch size).1 (mappingSearch size).2 ≤ size + searchRound size := by
    rw [mappingSearch_eq hmax]
    exact classMin_mappingInsert_le _
  have hsl : (mappingSearch size).2 < 32 := by
    rw [mappingSearch_eq hmax]
    exact mappingInsert_sl_lt _
  have hne : size ≠ 0 := by omega
  by_cases hfl : (mappingSearch size).1 < 24
  · cases searchSuitableBlock_spec hl hF hfl hsl with
    | inl hfound =>
      obtain ⟨x, s, hmem, hle, heq⟩ := hfound
      have hx : x ≠ 0 := by
        have hstart := hF.start _ hmem
        simp only at hstart
        omega
      refine .inl ⟨x, s, hmem, (le_classMin_mappingSearch hmax hdvd).trans hle, ?_⟩
      simp only [Heap.blockLocateFree, flIndexCount, hne, hfl, heq, hx, ne_eq, not_false_eq_true,
        ↓reduceIte]
    | inr hnone =>
      obtain ⟨hsmall, heq⟩ := hnone
      refine .inr ⟨fun x s hx => (hsmall x s hx).trans_le hclass, ?_⟩
      simp only [Heap.blockLocateFree, flIndexCount, hne, hfl, heq, ne_eq, not_true_eq_false,
        not_false_eq_true, ↓reduceIte]
  · refine .inr ⟨fun x s hx => ?_, by simp only [Heap.blockLocateFree, flIndexCount, hne, hfl,
      ne_eq, not_false_eq_true, ↓reduceIte]⟩
    have hbound := (classMin_bounds (show 0 < (mappingSearch size).1 by omega) hsl).1
    have hpow : 2 ^ 30 ≤ 2 ^ ((mappingSearch size).1 + 6) :=
      Nat.pow_le_pow_right (by decide) (by omega)
    have hlt := hF.size _ hx
    simp only at hlt
    omega

end Search
end BouffaloSdk.Mm
