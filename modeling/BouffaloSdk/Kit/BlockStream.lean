import BouffaloSdk.Kit.Slice

/-!
# Hashing a stream in blocks

A hash state absorbs data in blocks of `n` items. What matters of a stream
read so far is the state after its whole blocks and the items left over;
`absorb_append` says how one more piece moves the two.
-/

namespace Kit.BlockStream

variable {α σ : Type*} (compress : σ → List α → σ) (n : Nat)

def absorbBlocks : Nat → σ → List α → σ
  | 0, s, _ => s
  | k + 1, s, data => absorbBlocks k (compress s (data.take n)) (data.drop n)

/-- The state after the whole blocks of `data`. -/
def absorb (s : σ) (data : List α) : σ := absorbBlocks compress n (data.length / n) s data

/-- The items behind the last whole block. -/
def residual (data : List α) : List α := data.drop (data.length / n * n)

variable {n}

/-- What every block keeps, the stream keeps. -/
theorem absorb_keeps {P : σ → Prop} (hstep : ∀ s block, P s → P (compress s block)) {s : σ}
    (h : P s) (data : List α) : P (absorb compress n s data) := by
  unfold absorb
  induction data.length / n generalizing s data with
  | zero => exact h
  | succ k ih => exact ih (hstep _ _ h) _

theorem absorb_short {s : σ} {data : List α} (h : data.length < n) :
    absorb compress n s data = s := by
  rw [absorb, Nat.div_eq_of_lt h, absorbBlocks]

theorem residual_short {data : List α} (h : data.length < n) : residual n data = data := by
  rw [residual, Nat.div_eq_of_lt h, Nat.zero_mul, List.drop_zero]

theorem absorb_block {s : σ} {data : List α} (hn : 0 < n) (h : n ≤ data.length) :
    absorb compress n s data = absorb compress n (compress s (data.take n)) (data.drop n) := by
  have hk : data.length / n = (data.length - n) / n + 1 := by
    rw [Nat.div_eq_sub_div hn h]
  rw [absorb, hk, absorbBlocks, absorb, List.length_drop]

theorem residual_block {data : List α} (hn : 0 < n) (h : n ≤ data.length) :
    residual n data = residual n (data.drop n) := by
  have hk : data.length / n = (data.length - n) / n + 1 := by
    rw [Nat.div_eq_sub_div hn h]
  rw [residual, residual, List.length_drop, List.drop_drop, hk, Nat.add_mul, Nat.one_mul,
    Nat.add_comm]

theorem length_residual (data : List α) : (residual n data).length = data.length % n := by
  rw [residual, List.length_drop, Nat.mod_eq_sub_mul_div, Nat.mul_comm]

theorem length_residual_lt (hn : 0 < n) (data : List α) : (residual n data).length < n := by
  rw [length_residual]
  exact Nat.mod_lt _ hn

/-- Absorbing more data starts from the state so far and what was left over. -/
theorem absorb_append (hn : 0 < n) (s : σ) (xs ys : List α) :
    absorb compress n s (xs ++ ys) =
      absorb compress n (absorb compress n s xs) (residual n xs ++ ys) := by
  induction hlen : xs.length using Nat.strongRecOn generalizing s xs with
  | ind len ih =>
    by_cases h : xs.length < n
    · rw [absorb_short compress h, residual_short h]
    · have hx : n ≤ xs.length := Nat.le_of_not_lt h
      have hxy : n ≤ (xs ++ ys).length := by
        rw [List.length_append]
        omega
      rw [absorb_block compress hn hxy, List.take_append_of_le_length hx,
        List.drop_append_of_le_length hx,
        ih (xs.drop n).length (by rw [List.length_drop]; omega) _ _ rfl,
        absorb_block compress hn hx, residual_block hn hx]

theorem residual_append (hn : 0 < n) (xs ys : List α) :
    residual n (xs ++ ys) = residual n (residual n xs ++ ys) := by
  induction hlen : xs.length using Nat.strongRecOn generalizing xs with
  | ind len ih =>
    by_cases h : xs.length < n
    · rw [residual_short h]
    · have hx : n ≤ xs.length := Nat.le_of_not_lt h
      have hxy : n ≤ (xs ++ ys).length := by
        rw [List.length_append]
        omega
      rw [residual_block hn hxy, List.drop_append_of_le_length hx,
        ih (xs.drop n).length (by rw [List.length_drop]; omega) _ rfl, residual_block hn hx]

/-- A state that has read `msg`: its whole blocks are absorbed, the rest lies
at the front of the buffer. -/
structure Holds (init : σ) (msg : List α) (state : σ) (buffer : List α) : Prop where
  state_eq : state = absorb compress n init msg
  buffer_eq : buffer.take (msg.length % n) = residual n msg
  length_buffer : buffer.length = n

variable {compress} {init state : σ} {msg buffer : List α}

theorem Holds.empty (h : buffer.length = n) : Holds compress (n := n) init [] init buffer :=
  ⟨by rw [absorb, List.length_nil, Nat.zero_div, absorbBlocks], by simp [residual], h⟩

/-- The data does not complete the block in the buffer. -/
theorem Holds.append_short (h : Holds compress (n := n) init msg state buffer) {data : List α}
    (short : msg.length % n + data.length < n) :
    Holds compress (n := n) init (msg ++ data) state (blit buffer (msg.length % n) data) := by
  have hn : 0 < n := by omega
  have hlen : (residual n msg ++ data).length < n := by
    rw [List.length_append, length_residual]
    exact short
  have hmod : (msg ++ data).length % n = msg.length % n + data.length := by
    rw [List.length_append, ← Nat.mod_add_mod, Nat.mod_eq_of_lt short]
  refine ⟨?_, ?_, ?_⟩
  · rw [h.state_eq, absorb_append compress hn, absorb_short compress hlen]
  · have htake : (buffer.take (msg.length % n)).length = msg.length % n := by
      rw [h.buffer_eq, length_residual]
    rw [residual_append hn, residual_short hlen, hmod, blit, List.append_assoc,
      List.take_append, htake, List.take_of_length_le (by omega), h.buffer_eq]
    rw [Nat.add_sub_cancel_left, List.take_append_of_le_length (Nat.le_refl _), List.take_length]
  · rw [length_blit (by rw [h.length_buffer]; omega), h.length_buffer]

/-- The data completes the block in the buffer; `fill` items of it do. -/
theorem Holds.append_long (h : Holds compress (n := n) init msg state buffer) {data : List α}
    {fill : Nat} (hn : 0 < n) (hfill : msg.length % n + fill = n) (hdata : fill ≤ data.length) :
    let buffer' := blit buffer (msg.length % n) (data.take fill)
    let rest := data.drop fill
    Holds compress (n := n) init (msg ++ data) (absorb compress n (compress state buffer') rest)
      (blit buffer' 0 (residual n rest)) := by
  intro buffer' rest
  have hbuffer' : buffer'.length = n := by
    rw [length_blit (by rw [h.length_buffer, List.length_take]; omega), h.length_buffer]
  have htake : (data.take fill).length = fill := by
    rw [List.length_take]
    omega
  have hblock : buffer' = residual n msg ++ data.take fill := by
    have hdrop : buffer.drop (msg.length % n + fill) = [] := by
      rw [List.drop_eq_nil_iff, h.length_buffer]
      omega
    rw [show buffer' = blit buffer (msg.length % n) (data.take fill) from rfl, blit, h.buffer_eq,
      htake, hdrop, List.append_nil]
  have hsplit : residual n msg ++ data = buffer' ++ rest := by
    rw [hblock, List.append_assoc, List.take_append_drop]
  have hlong : n ≤ (residual n msg ++ data).length := by
    rw [hsplit, List.length_append]
    omega
  have hhead : (residual n msg ++ data).take n = buffer' := by
    rw [hsplit, ← hbuffer', List.take_append_of_le_length (Nat.le_refl _), List.take_length]
  have htail : (residual n msg ++ data).drop n = rest := by
    rw [hsplit, ← hbuffer', List.drop_append_length]
  have hrest := length_residual_lt hn rest
  refine ⟨?_, ?_, ?_⟩
  · rw [h.state_eq, absorb_append compress hn, absorb_block compress hn hlong, hhead, htail]
  · have hmod : (msg ++ data).length % n = (residual n rest).length := by
      rw [← length_residual, residual_append hn, residual_block hn hlong, htail]
    rw [residual_append hn, residual_block hn hlong, htail, hmod, blit]
    simp
  · rw [length_blit (by rw [hbuffer']; omega), hbuffer']

/-- Nothing is in the buffer: the data is absorbed from where it lies. -/
theorem Holds.append_aligned (h : Holds compress (n := n) init msg state buffer) {data : List α}
    (hn : 0 < n) (aligned : msg.length % n = 0) :
    Holds compress (n := n) init (msg ++ data) (absorb compress n state data)
      (blit buffer 0 (residual n data)) := by
  have hnil : residual n msg = [] := by
    rw [← List.length_eq_zero_iff, length_residual, aligned]
  have hrest := length_residual_lt hn data
  refine ⟨?_, ?_, ?_⟩
  · rw [h.state_eq, absorb_append compress hn, hnil, List.nil_append]
  · have hmod : (msg ++ data).length % n = (residual n data).length := by
      rw [← length_residual, residual_append hn, hnil, List.nil_append]
    rw [residual_append hn, hnil, List.nil_append, hmod, blit]
    simp
  · rw [length_blit (by rw [h.length_buffer]; omega), h.length_buffer]

end Kit.BlockStream
