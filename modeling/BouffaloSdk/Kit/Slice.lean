import Mathlib.Data.List.Basic

/-!
# Slices of a buffer

Reading a stretch of cells and copying cells over a stretch, with the frame
facts: what a copy leaves alone and what it puts in place.
-/

namespace Kit

variable {α : Type*}

/-- `bytes` copied over the cells of `buf` from position `i` on. -/
def blit (buf : List α) (i : Nat) (bytes : List α) : List α :=
  buf.take i ++ bytes ++ buf.drop (i + bytes.length)

/-- The `n` cells of `buf` from position `i` on. -/
def slice (buf : List α) (i n : Nat) : List α := (buf.drop i).take n

/-- The same cells, nothing where they leave the buffer. -/
def readSlice (buf : List α) (i n : Nat) : Option (List α) :=
  if i + n ≤ buf.length then some (slice buf i n) else none

theorem readSlice_eq {buf : List α} {i n : Nat} (h : i + n ≤ buf.length) :
    readSlice buf i n = some (slice buf i n) := if_pos h

theorem readSlice_none {buf : List α} {i n : Nat} (h : ¬ i + n ≤ buf.length) :
    readSlice buf i n = none := if_neg h

theorem length_blit {buf bytes : List α} {i : Nat} (h : i + bytes.length ≤ buf.length) :
    (blit buf i bytes).length = buf.length := by
  simp only [blit, List.length_append, List.length_take, List.length_drop]
  omega

theorem getElem?_blit {buf bytes : List α} {i : Nat} (h : i + bytes.length ≤ buf.length) (j : Nat) :
    (blit buf i bytes)[j]? =
      if j < i then buf[j]?
      else if j < i + bytes.length then bytes[j - i]? else buf[j]? := by
  have hi : i ≤ buf.length := by omega
  simp only [blit, List.getElem?_append, List.length_append, List.length_take, List.getElem?_take,
    List.getElem?_drop, Nat.min_eq_left hi]
  by_cases h1 : j < i
  · simp [h1, show j < i + bytes.length by omega]
  · by_cases h2 : j < i + bytes.length
    · simp [h1, h2]
    · simp only [h1, h2, if_false]
      congr 1
      omega

/-- Two copies that follow each other are one. -/
theorem blit_blit {buf xs ys : List α} {i : Nat} (h : i + xs.length ≤ buf.length) :
    blit (blit buf i xs) (i + xs.length) ys = blit buf i (xs ++ ys) := by
  have hlength : (buf.take i ++ xs).length = i + xs.length := by
    rw [List.length_append, List.length_take]
    omega
  have hassoc : buf.take i ++ xs ++ buf.drop (i + xs.length) =
      (buf.take i ++ xs) ++ buf.drop (i + xs.length) := rfl
  unfold blit
  rw [hassoc, List.take_left' hlength, List.drop_append, hlength, List.drop_eq_nil_of_le (by omega),
    List.nil_append, Nat.add_sub_cancel_left, List.drop_drop, List.length_append, List.append_assoc]
  simp only [List.append_assoc, Nat.add_assoc]

/-- A copy inside the first part of a buffer leaves the second part alone. -/
theorem blit_append {buf bytes : List α} {i : Nat} (h : i + bytes.length ≤ buf.length)
    (rest : List α) : blit (buf ++ rest) i bytes = blit buf i bytes ++ rest := by
  unfold blit
  rw [List.take_append_of_le_length (by omega), List.drop_append_of_le_length h]
  simp only [List.append_assoc]

/-- A copy right behind what a buffer starts with. -/
theorem prefix_blit {buf front : List α} {i : Nat} (h : front <+: buf) (hi : front.length = i)
    (bytes : List α) : front ++ bytes <+: blit buf i bytes := by
  obtain ⟨rest, rfl⟩ := h
  unfold blit
  rw [List.take_left' hi]
  exact List.prefix_append _ _

theorem length_slice {buf : List α} {i n : Nat} (h : i + n ≤ buf.length) :
    (slice buf i n).length = n := by
  rw [slice, List.length_take, List.length_drop]
  omega

theorem getElem?_slice (buf : List α) (i n j : Nat) :
    (slice buf i n)[j]? = if j < n then buf[i + j]? else none := by
  rw [slice, List.getElem?_take]
  split
  · rw [List.getElem?_drop]
  · rfl

theorem slice_append_left {buf : List α} {i n : Nat} (h : i + n ≤ buf.length) (rest : List α) :
    slice (buf ++ rest) i n = slice buf i n := by
  rw [slice, List.drop_append_of_le_length (by omega),
    List.take_append_of_le_length (by rw [List.length_drop]; omega)]
  rfl

theorem slice_take (buf : List α) {i n k : Nat} (h : i + n ≤ k) :
    slice (buf.take k) i n = slice buf i n := by
  rw [slice, List.drop_take, List.take_take, Nat.min_eq_left (by omega)]
  rfl

theorem slice_slice (buf : List α) {i n j k : Nat} (h : j + k ≤ n) :
    slice (slice buf i n) j k = slice buf (i + j) k := by
  apply List.ext_getElem?
  intro l
  simp only [getElem?_slice]
  by_cases hl : l < k
  · rw [if_pos hl, if_pos hl, if_pos (by omega), Nat.add_assoc]
  · rw [if_neg hl, if_neg hl]

theorem slice_blit_same {buf bytes : List α} {i : Nat} (h : i + bytes.length ≤ buf.length) :
    slice (blit buf i bytes) i bytes.length = bytes := by
  apply List.ext_getElem?
  intro j
  rw [getElem?_slice]
  split
  · rw [getElem?_blit h, if_neg (by omega), if_pos (by omega), Nat.add_sub_cancel_left]
  · rw [List.getElem?_eq_none (by omega)]

theorem slice_blit_disjoint {buf bytes : List α} {i j n : Nat}
    (h : i + bytes.length ≤ buf.length) (disjoint : j + n ≤ i ∨ i + bytes.length ≤ j) :
    slice (blit buf i bytes) j n = slice buf j n := by
  apply List.ext_getElem?
  intro k
  rw [getElem?_slice, getElem?_slice]
  split
  · rw [getElem?_blit h]
    rcases disjoint with before | after
    · rw [if_pos (by omega)]
    · rw [if_neg (by omega), if_neg (by omega)]
  · rfl

/-- A slice taken inside the copied cells reads the copy. -/
theorem slice_blit_inside {buf bytes : List α} {i j n : Nat} (h : i + bytes.length ≤ buf.length)
    (hj : j + n ≤ bytes.length) : slice (blit buf i bytes) (i + j) n = slice bytes j n := by
  rw [← slice_slice (blit buf i bytes) hj, slice_blit_same h]

theorem slice_middle (before middle after : List α) :
    slice (before ++ (middle ++ after)) before.length middle.length = middle := by
  unfold slice
  rw [List.drop_left, List.take_left]

theorem slice_append (buf : List α) (i m n : Nat) :
    slice buf i (m + n) = slice buf i m ++ slice buf (i + m) n := by
  rw [slice, slice, slice, List.take_add, List.drop_drop]

theorem slice_zero_length (buf : List α) : slice buf 0 buf.length = buf := by
  rw [slice, List.drop_zero, List.take_length]

end Kit
