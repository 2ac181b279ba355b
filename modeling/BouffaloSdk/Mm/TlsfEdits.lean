import BouffaloSdk.Mm.TlsfChain

/-!
# Edits of one block

What marking, splitting and absorbing do to the headers they touch, and that they
touch no other byte; then the same as edits of the row.
-/

namespace BouffaloSdk.Mm

open Kit.Tiling Kit.WordMemory Tlsf

variable {h h' : Heap} {b n s t size x : ℕ} {f g u pf : Bool} {q : Piece} {ys : List Piece}

/-! ## On headers -/

/-- What is written to mark the block at `b`, which ends at `n`. -/
def editAt (b n x : ℕ) : Prop := wordAt (b + 4) x ∨ (n ≤ x ∧ x < n + 8)

/-- What is written to end the block at `b` at `r` and not at `n`. -/
def splitAt (b r n x : ℕ) : Prop := wordAt (b + 4) x ∨ (r + 4 ≤ x ∧ x < n + 8)

theorem setSize_header (ht : WordSize t) (hroom : b + 8 + t ≤ 2 ^ 32) {v : ℕ}
    (hv : v = tagged t f pf) : Header (h.setSize b v) b t f pf where
  word := by
    subst hv
    exact word_setWord ht.tagged_lt
  fits := ht
  room := hroom

namespace Header

theorem setPrevFree (hb : Header h b s f pf) :
    Header (h.blockSetPrevFree b) b s f true :=
  setSize_header hb.fits hb.room (by rw [hb.word, hb.fits.or_prevFree])

theorem setPrevUsed (hb : Header h b s f pf) :
    Header (h.blockSetPrevUsed b) b s f false :=
  setSize_header hb.fits hb.room (by rw [hb.word, hb.fits.and_prevUsed])

theorem setFree (hb : Header h b s f pf) : Header (h.blockSetFree b) b s true pf :=
  setSize_header hb.fits hb.room (by rw [hb.word, hb.fits.or_free])

theorem setUsed (hb : Header h b s f pf) : Header (h.blockSetUsed b) b s false pf :=
  setSize_header hb.fits hb.room (by rw [hb.word, hb.fits.and_used])

/-- A store elsewhere. -/
theorem setWord (hb : Header h b s f pf) {a v : ℕ} (hd : b + 8 ≤ a ∨ a + 4 ≤ b + 4) :
    Header (h.setWord a v) b s f pf :=
  { hb with word := (word_setWord_of_disjoint (by omega)).trans hb.word }

end Header

/-- Whatever a word held, over its flags a new size makes a header. -/
theorem exists_setSize (h : Heap) (hs : WordSize s) (hroom : b + 8 + s ≤ 2 ^ 32) :
    ∃ f pf, Header (h.blockSetSize b s) b s f pf := by
  obtain ⟨k, hk, hmul⟩ := hs.exists_mul
  have hlow : h.size b &&& 3 < 2 ^ 2 := Nat.and_lt_two_pow _ (by decide)
  have hor : s ||| (h.size b &&& 3) = s + (h.size b &&& 3) := by
    have hadd := Kit.Tagged.or_tag (a := k) (r := 0) (i := 2) (by decide) hlow
    rwa [Nat.add_zero, ← hmul, Nat.zero_or] at hadd
  refine ⟨decide ((h.size b &&& 3) % 2 = 1), decide ((h.size b &&& 3) / 2 = 1), ?_, hs, hroom⟩
  have htag : s + (h.size b &&& 3) =
      tagged s (decide ((h.size b &&& 3) % 2 = 1)) (decide ((h.size b &&& 3) / 2 = 1)) := by
    have hbits : ∀ r < 2 ^ 2, r = (decide (r % 2 = 1)).toNat + 2 * (decide (r / 2 = 1)).toNat := by
      decide
    exact congrArg (s + ·) (hbits _ hlow)
  rw [Heap.blockSetSize, hor, htag]
  exact word_setWord hs.tagged_lt

theorem setPrevPhysBlock_word {v : ℕ} (hv : v < 2 ^ 32) :
    (h.setPrevPhysBlock n v).prevPhysBlock n = v := word_setWord hv

theorem blockMarkAsFree_spec (hb : Header h b s f pf) (hn : Header h (b + 4 + s) t u g)
    (hmin : 12 ≤ s) :
    Header (h.blockMarkAsFree b) b s true pf ∧ Header (h.blockMarkAsFree b) (b + 4 + s) t u true ∧
      (h.blockMarkAsFree b).prevPhysBlock (b + 4 + s) = b ∧
      Frame h (h.blockMarkAsFree b) (editAt b (b + 4 + s)) := by
  have hroom := hb.room
  have hnext := hb.blockNext (by omega)
  have heq : h.blockMarkAsFree b =
      ((h.setPrevPhysBlock (b + 4 + s) b).blockSetPrevFree (b + 4 + s)).blockSetFree b := by
    simp only [Heap.blockMarkAsFree, Heap.blockLinkNext, hnext]
  have hb₁ : Header (h.setPrevPhysBlock (b + 4 + s) b) b s f pf := hb.setWord (by omega)
  have hn₁ : Header (h.setPrevPhysBlock (b + 4 + s) b) (b + 4 + s) t u g := hn.setWord (by omega)
  have hb₂ : Header ((h.setPrevPhysBlock (b + 4 + s) b).blockSetPrevFree (b + 4 + s)) b s f pf :=
    hb₁.setWord (by omega)
  rw [heq]
  refine ⟨hb₂.setFree, hn₁.setPrevFree.setWord (by omega), ?_, ?_⟩
  · have hback : (h.setPrevPhysBlock (b + 4 + s) b).prevPhysBlock (b + 4 + s) = b :=
      setPrevPhysBlock_word (by omega)
    refine Eq.trans ?_ hback
    simp only [Heap.prevPhysBlock, Heap.blockSetFree, Heap.blockSetPrevFree, Heap.setSize]
    rw [word_setWord_of_disjoint (by omega), word_setWord_of_disjoint (by omega)]
  · apply (((setWord_frame ..).trans (setWord_frame ..)).trans (setWord_frame ..)).mono
    intro y hy
    simp only [editAt, wordAt] at hy ⊢
    omega

theorem blockMarkAsUsed_spec (hb : Header h b s f pf) (hn : Header h (b + 4 + s) t u g)
    (hmin : 12 ≤ s) :
    Header (h.blockMarkAsUsed b) b s false pf ∧ Header (h.blockMarkAsUsed b) (b + 4 + s) t u false ∧
      Frame h (h.blockMarkAsUsed b) (editAt b (b + 4 + s)) := by
  have hroom := hb.room
  have hnext := hb.blockNext (by omega)
  have heq : h.blockMarkAsUsed b = (h.blockSetPrevUsed (b + 4 + s)).blockSetUsed b := by
    simp only [Heap.blockMarkAsUsed, hnext]
  have hb₁ : Header (h.blockSetPrevUsed (b + 4 + s)) b s f pf := hb.setWord (by omega)
  rw [heq]
  refine ⟨hb₁.setUsed, hn.setPrevUsed.setWord (by omega), ?_⟩
  apply ((setWord_frame ..).trans (setWord_frame ..)).mono
  intro y hy
  simp only [editAt, wordAt] at hy ⊢
  omega

/-- The block keeps its flags, and whether the one split off follows a free one is not yet
written. -/
theorem blockSplit_spec (hb : Header h b s f pf) (hn : Header h (b + 4 + s) t u g)
    (hdvd : 4 ∣ size) (hmin : 12 ≤ size) (hfits : size + 16 ≤ s) :
    (h.blockSplit b size).2 = b + 4 + size ∧
      Header (h.blockSplit b size).1 b size f pf ∧
      (∃ pf', Header (h.blockSplit b size).1 (b + 4 + size) (s - size - 4) true pf') ∧
      Header (h.blockSplit b size).1 (b + 4 + s) t u true ∧
      (h.blockSplit b size).1.prevPhysBlock (b + 4 + s) = b + 4 + size ∧
      Frame h (h.blockSplit b size).1 (splitAt b (b + 4 + size) (b + 4 + s)) := by
  have hroom := hb.room
  have hsdvd := hb.fits.aligned
  have hremaining : offsetToBlock (blockToPtr b) (sub32 size blockHeaderOverhead) = b + 4 + size := by
    rw [hb.blockToPtr (by omega)]
    simp only [offsetToBlock, add32, sub32, blockHeaderOverhead]
    omega
  have hrest : sub32 (h.blockSize b) (add32 size blockHeaderOverhead) = s - size - 4 := by
    rw [hb.blockSize]
    simp only [add32, sub32, blockHeaderOverhead]
    omega
  obtain ⟨f', pf', hr₁⟩ := exists_setSize h (b := b + 4 + size) (s := s - size - 4)
    ⟨by omega, by omega⟩ (by omega)
  have hend : b + 4 + size + 4 + (s - size - 4) = b + 4 + s := by omega
  have hb₁ : Header (h.blockSetSize (b + 4 + size) (s - size - 4)) b s f pf := hb.setWord (by omega)
  have hn₁ : Header (h.blockSetSize (b + 4 + size) (s - size - 4)) (b + 4 + s) t u g :=
    hn.setWord (by omega)
  have hsize : WordSize size := ⟨hdvd, by omega⟩
  have hb₂ : Header ((h.blockSetSize (b + 4 + size) (s - size - 4)).blockSetSize b size) b size f pf :=
    setSize_header hsize (by omega) (by rw [hb₁.word, hsize.or_oldFlags hb₁.fits])
  have hr₂ : Header ((h.blockSetSize (b + 4 + size) (s - size - 4)).blockSetSize b size)
      (b + 4 + size) (s - size - 4) f' pf' := hr₁.setWord (by omega)
  have hn₂ : Header ((h.blockSetSize (b + 4 + size) (s - size - 4)).blockSetSize b size)
      (b + 4 + size + 4 + (s - size - 4)) t u g := by
    rw [hend]
    exact hn₁.setWord (by omega)
  have hfree := blockMarkAsFree_spec hr₂ hn₂ (by omega)
  rw [hend] at hfree
  obtain ⟨hr₃, hn₃, hback, hframe⟩ := hfree
  have heq : h.blockSplit b size =
      ((((h.blockSetSize (b + 4 + size) (s - size - 4)).blockSetSize b size).blockMarkAsFree
        (b + 4 + size)), b + 4 + size) := by
    simp only [Heap.blockSplit, hremaining, hrest]
  rw [heq]
  refine ⟨rfl, ?_, ⟨pf', hr₃⟩, hn₃, hback, ?_⟩
  · apply hb₂.frame hframe
    intro y hy
    simp only [editAt, wordAt] at hy ⊢
    omega
  · apply (((setWord_frame ..).trans (setWord_frame ..)).trans hframe).mono
    intro y hy
    simp only [splitAt, editAt, wordAt] at hy ⊢
    omega

theorem blockAbsorb_spec (hb : Header h b s f pf) (hn : Header h n t u g) (hmin : 12 ≤ s)
    (hroom : b + 16 + s + t ≤ 2 ^ 32) :
    (h.blockAbsorb b n).2 = b ∧ Header (h.blockAbsorb b n).1 b (s + t + 4) f pf ∧
      (h.blockAbsorb b n).1.prevPhysBlock (b + 8 + s + t) = b ∧
      Frame h (h.blockAbsorb b n).1 fun x => wordAt (b + 4) x ∨ wordAt (b + 8 + s + t) x := by
  have hsize : add32 (h.size b) (add32 (h.blockSize n) blockHeaderOverhead) =
      tagged (s + t + 4) f pf := by
    have hflags := flags_lt f pf
    rw [hb.word, hn.blockSize]
    simp only [add32, blockHeaderOverhead, tagged]
    omega
  have hsdvd := hb.fits.aligned
  have htdvd := hn.fits.aligned
  have hb₁ : Header (h.setSize b (tagged (s + t + 4) f pf)) b (s + t + 4) f pf :=
    setSize_header ⟨by omega, by omega⟩ (by omega) rfl
  have hnext : (h.setSize b (tagged (s + t + 4) f pf)).blockNext b = b + 8 + s + t := by
    rw [hb₁.blockNext (by omega)]
    omega
  simp only [Heap.blockAbsorb, hsize, Heap.blockLinkNext, hnext]
  refine ⟨trivial, hb₁.setWord (by omega), setPrevPhysBlock_word (by omega), ?_⟩
  exact (setWord_frame ..).trans (setWord_frame ..)

/-! No edit of a block reaches the lists' heads and bitmaps. -/

theorem blockLinkNext_same (h : Heap) (b : ℕ) : SameLists h (h.blockLinkNext b).1 :=
  setWord_same h (h.blockNext b) b

theorem blockMarkAsFree_same (h : Heap) (b : ℕ) : SameLists h (h.blockMarkAsFree b) := by
  simp only [Heap.blockMarkAsFree]
  exact ((blockLinkNext_same h b).trans (setWord_same ..)).trans (setWord_same ..)

theorem blockMarkAsUsed_same (h : Heap) (b : ℕ) : SameLists h (h.blockMarkAsUsed b) := by
  simp only [Heap.blockMarkAsUsed]
  exact (setWord_same ..).trans (setWord_same ..)

theorem blockSplit_same (h : Heap) (b size : ℕ) : SameLists h (h.blockSplit b size).1 := by
  simp only [Heap.blockSplit]
  exact ((setWord_same ..).trans (setWord_same ..)).trans (blockMarkAsFree_same ..)

theorem blockAbsorb_same (h : Heap) (b n : ℕ) : SameLists h (h.blockAbsorb b n).1 := by
  simp only [Heap.blockAbsorb]
  exact (setWord_same ..).trans (blockLinkNext_same ..)

/-! ## On the row -/

/-- A block of size `s` at `b` with the block `q` behind it, both within the addresses. -/
structure Room (b s : ℕ) (q : Piece) : Prop where
  dvd : 4 ∣ s
  min : 12 ≤ s
  dvd_next : 4 ∣ q.size
  min_next : q.free = true → 4 ≤ q.size
  top : b + 12 + s + q.size ≤ 2 ^ 32

namespace Room

theorem header (hr : Room b s q) (hs : Seg h b pf (⟨s, f⟩ :: q :: ys)) : Header h b s f pf where
  word := hs.1
  fits := ⟨hr.dvd, by have := hr.top; omega⟩
  room := by have := hr.top; omega

theorem next (hr : Room b s q) (hs : Seg h b pf (⟨s, f⟩ :: q :: ys)) :
    Header h (b + 4 + s) q.size q.free f where
  word := by
    have hword := hs.2.2.1
    rwa [span_mk, ← Nat.add_assoc] at hword
  fits := ⟨hr.dvd_next, by have := hr.top; omega⟩
  room := by have := hr.top; omega

theorem rest (hs : Seg h b pf (⟨s, f⟩ :: q :: ys)) : Seg h (b + 4 + s) f (q :: ys) := by
  have hrest := hs.2.2
  rwa [span_mk, ← Nat.add_assoc] at hrest

end Room

namespace Seg

/-- A block in front of others, its header and their first one written anew. -/
theorem cons_of_header {P : ℕ → Prop} (hs : Seg h n g (q :: ys)) (hq : q.free = true → 4 ≤ q.size)
    (hf : Frame h h' P) (hbefore : ∀ y, P y → y < n + 8) (hb : Header h' b s f pf)
    (hbn : b + 4 + s = n) (hback : f = true → h'.prevPhysBlock n = b)
    (hn : Header h' n q.size q.free f) : Seg h' b pf (⟨s, f⟩ :: q :: ys) := by
  refine ⟨hb.word, ?_, ?_⟩
  · intro hfree
    rw [span_mk, ← Nat.add_assoc, hbn]
    exact hback hfree
  · rw [span_mk, ← Nat.add_assoc, hbn]
    exact hs.beyond hq hf hbefore hn.word

theorem markAsFree (hr : Room b s q) (hs : Seg h b pf (⟨s, f⟩ :: q :: ys)) :
    Seg (h.blockMarkAsFree b) b pf (⟨s, true⟩ :: q :: ys) := by
  obtain ⟨hb, hn, hback, hframe⟩ := blockMarkAsFree_spec (hr.header hs) (hr.next hs) hr.min
  apply (Room.rest hs).cons_of_header hr.min_next hframe ?_ hb rfl (fun _ => hback) hn
  intro y hy
  simp only [editAt, wordAt] at hy
  omega

theorem markAsUsed (hr : Room b s q) (hs : Seg h b pf (⟨s, f⟩ :: q :: ys)) :
    Seg (h.blockMarkAsUsed b) b pf (⟨s, false⟩ :: q :: ys) := by
  obtain ⟨hb, hn, hframe⟩ := blockMarkAsUsed_spec (hr.header hs) (hr.next hs) hr.min
  apply (Room.rest hs).cons_of_header hr.min_next hframe ?_ hb rfl nofun hn
  intro y hy
  simp only [editAt, wordAt] at hy
  omega

/-- A block cut in two, once the second knows what is before it. -/
theorem of_split {P : ℕ → Prop} (hr : Room b s q) (hs : Seg h b pf (⟨s, g⟩ :: q :: ys))
    (hfits : size + 16 ≤ s) (hf : Frame h h' P) (hbefore : ∀ y, P y → y < b + 4 + s + 8)
    (hb : Header h' b size f pf) (hrem : Header h' (b + 4 + size) (s - size - 4) true f)
    (hback : f = true → h'.prevPhysBlock (b + 4 + size) = b)
    (hback' : h'.prevPhysBlock (b + 4 + s) = b + 4 + size)
    (hn : Header h' (b + 4 + s) q.size q.free true) :
    Seg h' b pf (⟨size, f⟩ :: ⟨s - size - 4, true⟩ :: q :: ys) := by
  refine ⟨hb.word, ?_, ?_⟩
  · intro hfree
    rw [span_mk, ← Nat.add_assoc]
    exact hback hfree
  · rw [span_mk, ← Nat.add_assoc]
    exact (Room.rest hs).cons_of_header hr.min_next hf hbefore hrem (by omega) (fun _ => hback') hn

theorem absorb (hr : Room n t q) (hs : Seg h b pf (⟨s, true⟩ :: ⟨t, true⟩ :: q :: ys))
    (hdvd : 4 ∣ s) (hmin : 12 ≤ s) (hbn : b + 4 + s = n) :
    Seg (h.blockAbsorb b n).1 b pf (⟨s + t + 4, true⟩ :: q :: ys) ∧
      Frame h (h.blockAbsorb b n).1 fun x => wordAt (b + 4) x ∨ wordAt (b + 8 + s + t) x := by
  subst hbn
  have htop := hr.top
  have hroom : Room b s ⟨t, true⟩ :=
    ⟨hdvd, hmin, hr.dvd, fun _ => le_trans (by decide) hr.min, by simp only; omega⟩
  have htail := Room.rest hs
  have hend : b + 4 + s + 4 + t = b + 8 + s + t := by omega
  have hmid : Header h (b + 4 + s) t true true := hroom.next hs
  obtain ⟨-, hb, hback, hframe⟩ := blockAbsorb_spec (hroom.header hs) hmid hmin (by omega)
  have hn := hr.next htail
  have hseg := Room.rest htail
  rw [hend] at hn hseg
  refine ⟨?_, hframe⟩
  apply hseg.cons_of_header hr.min_next hframe ?_ hb (by omega) (fun _ => hback)
  · apply hn.frame hframe
    intro y hy
    simp only [wordAt] at hy ⊢
    omega
  · intro y hy
    simp only [wordAt] at hy
    omega

end Seg
end BouffaloSdk.Mm
