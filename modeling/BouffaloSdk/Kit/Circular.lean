import BouffaloSdk.Kit.Slice

/-!
# Windows of a circular buffer

A list of cells read from a start position with one wrap at its end, and
written the same way. `window_putWrap` is the one fact every ring buffer
rests on: after writing behind a window, every window that starts inside the
old one and ends with the new data is a suffix of the old contents followed
by that data. It covers an append and an overwrite alike.
-/

namespace Kit.Circular

variable {α : Type*}

/-- The position `d` cells after `i` in a buffer of `n` cells, `i + d < 2 * n`. -/
def wrap (n i : Nat) : Nat := if i < n then i else i - n

/-- The `len` cells from `start` on, with one wrap. -/
def window (buf : List α) (start len : Nat) : List α :=
  ((buf ++ buf).drop start).take len

/-- `bytes` written from `i` on, with one wrap. -/
def putWrap (buf : List α) (i : Nat) (bytes : List α) : List α :=
  if bytes.length < buf.length - i then blit buf i bytes
  else blit (blit buf i (bytes.take (buf.length - i))) 0 (bytes.drop (buf.length - i))

theorem wrap_lt {n i : Nat} (h : i < 2 * n) : wrap n i < n := by
  unfold wrap
  split <;> omega

theorem window_eq_append {buf : List α} {start len : Nat} (hs : start ≤ buf.length)
    (hw : buf.length - start ≤ len) :
    window buf start len =
      (buf.drop start).take (buf.length - start) ++ buf.take (len - (buf.length - start)) := by
  have hd : (buf ++ buf).drop start = buf.drop start ++ buf := by
    rw [List.drop_append_of_le_length hs]
  rw [window, hd, List.take_append, List.length_drop]
  simp only [List.take_of_length_le, List.length_drop, hw, Nat.le_refl]

theorem window_eq_take {buf : List α} {start len : Nat} (h : start + len ≤ buf.length) :
    window buf start len = (buf.drop start).take len := by
  rw [window, List.drop_append_of_le_length (by omega), List.take_append_of_le_length]
  simp only [List.length_drop]
  omega

theorem length_window {buf : List α} {start len : Nat} (hs : start ≤ buf.length)
    (hl : len ≤ buf.length) : (window buf start len).length = len := by
  simp only [window, List.length_take, List.length_drop, List.length_append]
  omega

theorem getElem?_window {buf : List α} {start len i : Nat} (hi : i < len) :
    (window buf start len)[i]? = buf[wrap buf.length (start + i)]? := by
  simp only [window, List.getElem?_take, hi, if_true, List.getElem?_drop, List.getElem?_append, wrap]
  split <;> rfl

theorem window_take {buf : List α} {start len k : Nat} (h : k ≤ len) :
    (window buf start len).take k = window buf start k := by
  rw [window, window, List.take_take, Nat.min_eq_left h]

theorem window_drop {buf : List α} {start len k : Nat} (hs : start < buf.length)
    (hl : len ≤ buf.length) (hk : k ≤ len) :
    (window buf start len).drop k = window buf (wrap buf.length (start + k)) (len - k) := by
  have hw : wrap buf.length (start + k) ≤ buf.length := by unfold wrap; split <;> omega
  apply List.ext_getElem?
  intro i
  rw [List.getElem?_drop]
  by_cases hi : k + i < len
  · have hb : start + k + i < buf.length + buf.length := by omega
    rw [getElem?_window hi]
    rcases Nat.lt_or_ge (wrap buf.length (start + k)) buf.length with h | h
    · rw [getElem?_window (by omega)]
      congr 1
      unfold wrap
      split <;> split <;> (try split) <;> omega
    · unfold wrap at h
      split at h <;> omega
  · rw [List.getElem?_eq_none, List.getElem?_eq_none]
    · rw [length_window hw (by omega)]; omega
    · rw [length_window (by omega) hl]; omega

theorem length_putWrap {buf bytes : List α} {i : Nat} (hi : i < buf.length)
    (hb : bytes.length ≤ buf.length) : (putWrap buf i bytes).length = buf.length := by
  unfold putWrap
  split
  · exact length_blit (by omega)
  · have h1 : (blit buf i (bytes.take (buf.length - i))).length = buf.length :=
      length_blit (by rw [List.length_take]; omega)
    rw [length_blit, h1]
    rw [h1, List.length_drop]
    omega

/-- Offset `o` behind the write position holds the written byte below the
data's length and the old cell from there on. -/
theorem getElem?_putWrap {buf bytes : List α} {i o : Nat} (hi : i < buf.length)
    (hb : bytes.length ≤ buf.length) (ho : o < buf.length) :
    (putWrap buf i bytes)[wrap buf.length (i + o)]? =
      if o < bytes.length then bytes[o]? else buf[wrap buf.length (i + o)]? := by
  unfold putWrap wrap
  split
  · rw [getElem?_blit (by omega)]
    grind
  · have h1 : i + (bytes.take (buf.length - i)).length ≤ buf.length := by
      rw [List.length_take]; omega
    rw [getElem?_blit (by rw [length_blit h1, List.length_drop]; omega), getElem?_blit h1]
    simp only [List.length_take, List.length_drop, List.getElem?_take, List.getElem?_drop]
    grind

/-- Writing `bytes` behind the `len` cells from `start` on. Any window that
ends with the new data and fits the buffer holds the last cells of the old
ones followed by the data; with `k = 0` nothing is overwritten. -/
theorem window_putWrap (buf bytes : List α) (start len k : Nat) (hs : start < buf.length)
    (hl : len ≤ buf.length) (hb : bytes.length ≤ buf.length) (hk : k ≤ len)
    (hfit : len + bytes.length ≤ buf.length + k) :
    window (putWrap buf (wrap buf.length (start + len)) bytes) (wrap buf.length (start + k))
        (len + bytes.length - k) =
      (window buf start len ++ bytes).drop k := by
  have hw : wrap buf.length (start + len) < buf.length := wrap_lt (by omega)
  have hk' : wrap buf.length (start + k) < buf.length := wrap_lt (by omega)
  have hn := length_putWrap hw hb
  apply List.ext_getElem?
  intro i
  rw [List.getElem?_drop]
  by_cases hi : k + i < len + bytes.length
  · rw [getElem?_window (by omega), hn, List.getElem?_append,
      length_window (by omega) hl]
    by_cases hold : k + i < len
    · -- a cell of the old window, read one turn behind the write position
      have hp : wrap buf.length (wrap buf.length (start + k) + i) =
          wrap buf.length (wrap buf.length (start + len) + (buf.length + k + i - len)) := by
        unfold wrap; split <;> split <;> split <;> split <;> omega
      have ho : wrap buf.length (start + (k + i)) =
          wrap buf.length (wrap buf.length (start + len) + (buf.length + k + i - len)) := by
        unfold wrap; split <;> split <;> split <;> omega
      rw [if_pos hold, hp, getElem?_putWrap hw hb (by omega), if_neg (by omega),
        getElem?_window hold, ho]
    · have hp : wrap buf.length (wrap buf.length (start + k) + i) =
          wrap buf.length (wrap buf.length (start + len) + (k + i - len)) := by
        unfold wrap; split <;> split <;> split <;> split <;> omega
      rw [if_neg hold, hp, getElem?_putWrap hw hb (by omega), if_pos (by omega)]
  · rw [List.getElem?_eq_none, List.getElem?_eq_none]
    · rw [List.length_append, length_window (by omega) hl]; omega
    · rw [length_window (by omega) (by omega)]; omega

/-- The whole buffer read from where data was written. -/
theorem window_putWrap_same {buf bytes : List α} {i : Nat} (hi : i < buf.length)
    (hb : bytes.length ≤ buf.length) :
    window (putWrap buf i bytes) i buf.length =
      bytes ++ (window buf i buf.length).drop bytes.length := by
  have hn := length_putWrap hi hb
  have hlen : (window buf i buf.length).length = buf.length :=
    length_window (by omega) (Nat.le_refl _)
  apply List.ext_getElem?
  intro o
  rw [List.getElem?_append, List.getElem?_drop]
  by_cases ho : o < buf.length
  · rw [getElem?_window ho, hn, getElem?_putWrap hi hb ho]
    split
    · rfl
    · rw [getElem?_window (by omega), show bytes.length + (o - bytes.length) = o by omega]
  · have hend : (window (putWrap buf i bytes) i buf.length).length ≤ o := by
      rw [length_window (by omega) (by omega)]
      omega
    rw [List.getElem?_eq_none hend, if_neg (by omega), List.getElem?_eq_none (by omega)]

/-- The whole buffer read from `k` cells further on. -/
theorem window_rotate {buf : List α} {start k : Nat} (hs : start < buf.length)
    (hk : k ≤ buf.length) :
    window buf (wrap buf.length (start + k)) buf.length =
      (window buf start buf.length).drop k ++ (window buf start buf.length).take k := by
  have hw : wrap buf.length (start + k) < buf.length := wrap_lt (by omega)
  have hlen : (window buf start buf.length).length = buf.length := length_window (by omega) (Nat.le_refl _)
  apply List.ext_getElem?
  intro i
  rw [List.getElem?_append, List.length_drop, hlen, List.getElem?_drop, List.getElem?_take]
  by_cases hi : i < buf.length
  · rw [getElem?_window hi]
    split
    · rw [getElem?_window (by omega)]
      congr 1
      unfold wrap
      split <;> split <;> split <;> omega
    · rw [if_pos (by omega), getElem?_window (by omega)]
      congr 1
      unfold wrap
      split <;> split <;> split <;> omega
  · rw [List.getElem?_eq_none (by rw [length_window (by omega) (Nat.le_refl _)]; omega),
      if_neg (by omega), if_neg (by omega)]

end Kit.Circular
