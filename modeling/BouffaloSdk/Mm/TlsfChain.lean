import BouffaloSdk.Kit.Tiling
import BouffaloSdk.Mm.TlsfWords

/-!
# The row of blocks

Every block ends where the next one starts, knows whether the one before is free,
and a free one is linked back from the next. The row ends with a used block of
size zero.
-/

namespace BouffaloSdk.Mm

open Kit.Tiling Tlsf

structure Piece where
  size : ℕ
  free : Bool
  deriving DecidableEq, Repr

/-- A block with its size word. -/
def Piece.span (p : Piece) : ℕ := 4 + p.size

def sentinel : Piece := ⟨0, false⟩

/-- Whether the block in front of what follows is free. -/
def lastFree : Bool → List Piece → Bool
  | pf, [] => pf
  | _, p :: ps => lastFree p.free ps

/-- The headers of the blocks from `a` on, the one before them being free or not. -/
def Seg (h : Heap) : ℕ → Bool → List Piece → Prop
  | _, _, [] => True
  | a, pf, p :: ps =>
    h.size a = tagged p.size p.free pf ∧
    (p.free = true → h.prevPhysBlock (a + p.span) = a) ∧
    Seg h (a + p.span) p.free ps

variable {h h' : Heap} {P : ℕ → Prop} {a b n s t size : ℕ} {f g pf : Bool} {p q : Piece}
  {xs ys : List Piece}

@[simp] theorem span_mk (s : ℕ) (f : Bool) : Piece.span ⟨s, f⟩ = 4 + s := rfl

@[simp] theorem lastFree_append :
    lastFree pf (xs ++ ys) = lastFree (lastFree pf xs) ys := by
  induction xs generalizing pf with
  | nil => rfl
  | cons p xs ih => exact ih

namespace Seg

theorem append :
    Seg h a pf (xs ++ ys) ↔
      Seg h a pf xs ∧ Seg h (after Piece.span a xs) (lastFree pf xs) ys := by
  induction xs generalizing a pf with
  | nil => simp [Seg, lastFree]
  | cons p xs ih =>
    simp only [List.cons_append, Seg, after_cons, lastFree, and_assoc]
    rw [ih]

/-- The row is kept by stores to anything but its size words and the links behind its free
blocks. -/
theorem frame (hs : Seg h a pf xs) (hf : Frame h h' P)
    (hsize : ∀ x p, (x, p) ∈ place Piece.span a xs → ∀ y, wordAt (x + 4) y → ¬ P y)
    (hlink : ∀ x p, (x, p) ∈ place Piece.span a xs → p.free = true →
      ∀ y, wordAt (x + p.span) y → ¬ P y) : Seg h' a pf xs := by
  induction xs generalizing a pf with
  | nil => trivial
  | cons p xs ih =>
    obtain ⟨hword, hback, hrest⟩ := hs
    refine ⟨(hf.word (hsize a p List.mem_cons_self)).trans hword, ?_, ?_⟩
    · intro hfree
      exact (hf.word (hlink a p List.mem_cons_self hfree)).trans (hback hfree)
    · apply ih hrest
      · exact fun x q hmem => hsize x q (List.mem_cons_of_mem _ hmem)
      · exact fun x q hmem => hlink x q (List.mem_cons_of_mem _ hmem)

theorem frame_outside (hs : Seg h a pf xs) (hf : Frame h h' P)
    (hout : ∀ y, a + 4 ≤ y → y < after Piece.span a xs + 4 → ¬ P y) : Seg h' a pf xs := by
  apply hs.frame hf
  · rintro x p hmem y ⟨hlow, hhigh⟩
    have hbounds := mem_place_bounds hmem
    unfold Piece.span at hbounds
    exact hout y (by omega) (by unfold Piece.span; omega)
  · rintro x p hmem - y ⟨hlow, hhigh⟩
    have hbounds := mem_place_bounds hmem
    have hspan : p.span = 4 + p.size := rfl
    exact hout y (by omega) (by omega)

/-- Blocks rewritten behind others that are left alone. -/
theorem behind {zs : List Piece} (hs : Seg h a pf (xs ++ ys)) (hf : Frame h h' P)
    (hbehind : ∀ y, P y → after Piece.span a xs + 4 ≤ y)
    (hnew : Seg h' (after Piece.span a xs) (lastFree pf xs) zs) : Seg h' a pf (xs ++ zs) := by
  refine append.mpr ⟨?_, hnew⟩
  apply (append.mp hs).1.frame_outside hf
  rintro y - hhigh hP
  have hlow := hbehind y hP
  omega

/-- The blocks from `n` on, when stores end with the size word of the first. -/
theorem beyond (hs : Seg h n g (q :: ys)) (hq : q.free = true → 4 ≤ q.size) (hf : Frame h h' P)
    (hbefore : ∀ y, P y → y < n + 8) (hword : h'.size n = tagged q.size q.free f) :
    Seg h' n f (q :: ys) := by
  obtain ⟨-, hback, hrest⟩ := hs
  have hspan : q.span = 4 + q.size := rfl
  refine ⟨hword, ?_, ?_⟩
  · intro hfree
    have hsize := hq hfree
    have hlink : h'.word (n + q.span) = h.word (n + q.span) := by
      apply hf.word
      rintro y ⟨hlow, -⟩ hP
      have hlt := hbefore y hP
      omega
    exact hlink.trans (hback hfree)
  · apply hrest.frame_outside hf
    rintro y hlow - hP
    have hlt := hbefore y hP
    omega

theorem size_eq (hs : Seg h a pf (xs ++ p :: ys)) :
    h.size (after Piece.span a xs) = tagged p.size p.free (lastFree pf xs) := (append.mp hs).2.1

end Seg

end BouffaloSdk.Mm
