import BouffaloSdk.Kit.Tagged
import BouffaloSdk.Mm.Tlsf

/-!
# The words of a block

What the size word holds, and what a store to one field leaves of the others.
-/

namespace BouffaloSdk.Mm

open Kit.WordMemory Tlsf

variable {size s : ℕ} {free prevFree : Bool}

/-- The size word of a block with its two flags. -/
def tagged (size : ℕ) (free prevFree : Bool) : ℕ := size + (free.toNat + 2 * prevFree.toNat)

theorem flags_lt (free prevFree : Bool) : free.toNat + 2 * prevFree.toNat < 2 ^ 2 := by
  cases free <;> cases prevFree <;> decide

/-- A size that a block can have: its low bits are left for the flags. -/
structure WordSize (size : ℕ) : Prop where
  aligned : 4 ∣ size
  lt : size < 2 ^ 32

namespace WordSize

theorem zero : WordSize 0 := ⟨Nat.dvd_zero 4, by decide⟩

theorem exists_mul (hs : WordSize size) : ∃ k < 2 ^ 30, size = 2 ^ 2 * k := by
  obtain ⟨⟨k, rfl⟩, hlt⟩ := hs
  exact ⟨k, by omega, rfl⟩

theorem tagged_lt (hs : WordSize size) : tagged size free prevFree < 256 ^ 4 := by
  obtain ⟨k, hk, rfl⟩ := hs.exists_mul
  have hflags := flags_lt free prevFree
  unfold tagged
  omega

theorem and_sizeMask (hs : WordSize size) :
    tagged size free prevFree &&& Heap.sizeMask = size := by
  obtain ⟨k, hk, rfl⟩ := hs.exists_mul
  have hmask : Heap.sizeMask = 2 ^ 2 * (2 ^ 30 - 1) + 0 := by decide
  rw [tagged, hmask, Kit.Tagged.and_mask hk (flags_lt _ _) (by decide), Nat.and_zero, Nat.add_zero]

theorem and_flags (hs : WordSize size) {q : ℕ} (hq : q < 2 ^ 2) :
    tagged size free prevFree &&& q = (free.toNat + 2 * prevFree.toNat) &&& q := by
  obtain ⟨k, hk, rfl⟩ := hs.exists_mul
  exact Kit.Tagged.and_tag (flags_lt _ _) hq

theorem isFree (hs : WordSize size) : (tagged size free prevFree &&& 1 != 0) = free := by
  rw [hs.and_flags (by decide)]
  cases free <;> cases prevFree <;> rfl

theorem isPrevFree (hs : WordSize size) : (tagged size free prevFree &&& 2 != 0) = prevFree := by
  rw [hs.and_flags (by decide)]
  cases free <;> cases prevFree <;> rfl

/-- What is stored by `block_set_size` over any word with these flags. -/
theorem or_oldFlags (hs : WordSize size) (hold : WordSize s) :
    size ||| (tagged s free prevFree &&& 3) = tagged size free prevFree := by
  obtain ⟨k, hk, rfl⟩ := hs.exists_mul
  rw [hold.and_flags (by decide)]
  have hor := Kit.Tagged.or_tag (a := k) (i := 2) (r := 0) (by decide)
    (Nat.and_lt_two_pow (free.toNat + 2 * prevFree.toNat) (show 3 < 2 ^ 2 by decide))
  rw [Nat.add_zero] at hor
  rw [hor, tagged]
  cases free <;> cases prevFree <;> rfl

theorem or_free (hs : WordSize size) : tagged size free prevFree ||| 1 = tagged size true prevFree := by
  obtain ⟨k, hk, rfl⟩ := hs.exists_mul
  rw [tagged, Kit.Tagged.or_tag (flags_lt _ _) (by decide), tagged]
  cases free <;> cases prevFree <;> rfl

theorem or_prevFree (hs : WordSize size) : tagged size free prevFree ||| 2 = tagged size free true := by
  obtain ⟨k, hk, rfl⟩ := hs.exists_mul
  rw [tagged, Kit.Tagged.or_tag (flags_lt _ _) (by decide), tagged]
  cases free <;> cases prevFree <;> rfl

theorem and_used (hs : WordSize size) :
    tagged size free prevFree &&& 0xFFFFFFFE = tagged size false prevFree := by
  obtain ⟨k, hk, rfl⟩ := hs.exists_mul
  have hmask : 0xFFFFFFFE = 2 ^ 2 * (2 ^ 30 - 1) + 2 := by decide
  rw [tagged, hmask, Kit.Tagged.and_mask hk (flags_lt _ _) (by decide), tagged]
  cases free <;> cases prevFree <;> rfl

theorem and_prevUsed (hs : WordSize size) :
    tagged size free prevFree &&& 0xFFFFFFFD = tagged size free false := by
  obtain ⟨k, hk, rfl⟩ := hs.exists_mul
  have hmask : 0xFFFFFFFD = 2 ^ 2 * (2 ^ 30 - 1) + 1 := by decide
  rw [tagged, hmask, Kit.Tagged.and_mask hk (flags_lt _ _) (by decide), tagged]
  cases free <;> cases prevFree <;> rfl

end WordSize

/-! ## Stores -/

/-- The bytes of the word at an address. -/
def wordAt (a x : ℕ) : Prop := a ≤ x ∧ x < a + 4

/-- Of memory only bytes of `P` were written. -/
structure Frame (h h' : Heap) (P : ℕ → Prop) : Prop where
  mem : ∀ x, ¬ P x → h'.mem x = h.mem x
  blockNull : h'.blockNull = h.blockNull

variable {h h' h'' : Heap} {P Q : ℕ → Prop} {a b c n v : ℕ}

namespace Frame

theorem refl (h : Heap) : Frame h h P := ⟨fun _ _ => rfl, rfl⟩

theorem trans (hf : Frame h h' P) (hf' : Frame h' h'' Q) : Frame h h'' fun x => P x ∨ Q x where
  mem x hx := (hf'.mem x fun hq => hx (.inr hq)).trans (hf.mem x fun hp => hx (.inl hp))
  blockNull := hf'.blockNull.trans hf.blockNull

theorem mono (hf : Frame h h' P) (hsub : ∀ x, P x → Q x) : Frame h h' Q :=
  { hf with mem := fun x hx => hf.mem x fun hp => hx (hsub x hp) }

theorem word (hf : Frame h h' P) (hout : ∀ x, wordAt a x → ¬ P x) : h'.word a = h.word a :=
  load_congr fun x hlow hhigh => hf.mem x (hout x ⟨hlow, hhigh⟩)

end Frame

theorem setWord_frame (h : Heap) (a v : ℕ) : Frame h (h.setWord a v) (wordAt a) where
  mem x hx := store_outside (by
    simp only [wordAt] at hx
    omega)
  blockNull := rfl

/-- The lists' heads and bitmaps are as they were. -/
def SameLists (h h' : Heap) : Prop :=
  h'.flBitmap = h.flBitmap ∧ h'.slBitmap = h.slBitmap ∧ h'.blocks = h.blocks

theorem SameLists.trans (hs : SameLists h h') (hs' : SameLists h' h'') : SameLists h h'' :=
  ⟨hs'.1.trans hs.1, hs'.2.1.trans hs.2.1, hs'.2.2.trans hs.2.2⟩

theorem setWord_same (h : Heap) (a v : ℕ) : SameLists h (h.setWord a v) := ⟨rfl, rfl, rfl⟩

@[simp] theorem word_setWord (hv : v < 256 ^ 4) : (h.setWord a v).word a = v := load_store hv

theorem word_setWord_of_disjoint (hd : c + 4 ≤ a ∨ a + 4 ≤ c) :
    (h.setWord a v).word c = h.word c := load_store_disjoint hd

/-! ## A block read from its header -/

/-- The header of a block of this size that ends before addresses do. -/
structure Header (h : Heap) (block size : ℕ) (free prevFree : Bool) : Prop where
  word : h.size block = tagged size free prevFree
  fits : WordSize size
  room : block + 8 + size ≤ 2 ^ 32

namespace Header

variable {block : ℕ}

theorem blockSize (hb : Header h block size free prevFree) : h.blockSize block = size := by
  rw [Heap.blockSize, hb.word, hb.fits.and_sizeMask]

theorem blockIsFree (hb : Header h block size free prevFree) : h.blockIsFree block = free := by
  rw [Heap.blockIsFree, hb.word, hb.fits.isFree]

theorem blockIsPrevFree (hb : Header h block size free prevFree) :
    h.blockIsPrevFree block = prevFree := by
  rw [Heap.blockIsPrevFree, hb.word, hb.fits.isPrevFree]

theorem blockToPtr (hb : Header h block size free prevFree) (hsize : 4 ≤ size) :
    Tlsf.blockToPtr block = block + 8 := by
  have hroom := hb.room
  rw [Tlsf.blockToPtr, add32, blockStartOffset, Nat.mod_eq_of_lt (by omega)]

theorem blockNext (hb : Header h block size free prevFree) (hsize : 4 ≤ size) :
    h.blockNext block = block + 4 + size := by
  have hroom := hb.room
  have hsub : sub32 size 4 = size - 4 := by
    unfold sub32
    omega
  rw [Heap.blockNext, hb.blockToPtr hsize, hb.blockSize, blockHeaderOverhead, hsub, offsetToBlock, add32]
  omega

/-- A word that nothing was written to keeps its header. -/
theorem frame (hb : Header h block size free prevFree) (hf : Frame h h' P)
    (hout : ∀ x, wordAt (block + 4) x → ¬ P x) : Header h' block size free prevFree :=
  { hb with word := (hf.word hout).trans hb.word }

end Header
end BouffaloSdk.Mm
