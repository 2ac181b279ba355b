import BouffaloSdk.Kit.BlockStream
import BouffaloSdk.Kit.Word
import Mathlib.Data.Nat.Bitwise

/-!
# SHA-256

`components/utils/bflb_ota/utils_sha256.c`, and the one-shot hash it is meant
to compute: `sha256` pads the whole message and absorbs it block by block.
However a message is cut into updates, the context computes the same digest.
-/

namespace BouffaloSdk.Ota
open Kit Kit.Word Kit.BlockStream

structure Sha256Context where
  total0 : Nat
  total1 : Nat
  state : List UInt32
  buffer : List UInt8
  is224 : Nat

def sha256K : List UInt32 := [
  0x428A2F98, 0x71374491, 0xB5C0FBCF, 0xE9B5DBA5, 0x3956C25B, 0x59F111F1, 0x923F82A4, 0xAB1C5ED5,
  0xD807AA98, 0x12835B01, 0x243185BE, 0x550C7DC3, 0x72BE5D74, 0x80DEB1FE, 0x9BDC06A7, 0xC19BF174,
  0xE49B69C1, 0xEFBE4786, 0x0FC19DC6, 0x240CA1CC, 0x2DE92C6F, 0x4A7484AA, 0x5CB0A9DC, 0x76F988DA,
  0x983E5152, 0xA831C66D, 0xB00327C8, 0xBF597FC7, 0xC6E00BF3, 0xD5A79147, 0x06CA6351, 0x14292967,
  0x27B70A85, 0x2E1B2138, 0x4D2C6DFC, 0x53380D13, 0x650A7354, 0x766A0ABB, 0x81C2C92E, 0x92722C85,
  0xA2BFE8A1, 0xA81A664B, 0xC24B8B70, 0xC76C51A3, 0xD192E819, 0xD6990624, 0xF40E3585, 0x106AA070,
  0x19A4C116, 0x1E376C08, 0x2748774C, 0x34B0BCB5, 0x391C0CB3, 0x4ED8AA4A, 0x5B9CCA4F, 0x682E6FF3,
  0x748F82EE, 0x78A5636F, 0x84C87814, 0x8CC70208, 0x90BEFFFA, 0xA4506CEB, 0xBEF9A3F7, 0xC67178F2]

def sha256Starts : List UInt32 := [
  0x6A09E667, 0xBB67AE85, 0x3C6EF372, 0xA54FF53A, 0x510E527F, 0x9B05688C, 0x1F83D9AB, 0x5BE0CD19]

def getUint32Be (b : List UInt8) (i : Nat) : UInt32 :=
  ((b.getD i 0).toUInt32 <<< 24) ||| ((b.getD (i + 1) 0).toUInt32 <<< 16) |||
    ((b.getD (i + 2) 0).toUInt32 <<< 8) ||| (b.getD (i + 3) 0).toUInt32

/-- The four bytes of a 32-bit number, most significant first. -/
def putUint32Be (n : Nat) : List UInt8 :=
  [UInt8.ofNat (n / 2 ^ 24), UInt8.ofNat (n / 2 ^ 16), UInt8.ofNat (n / 2 ^ 8), UInt8.ofNat n]

def rotr (x n : UInt32) : UInt32 := (x >>> n) ||| (x <<< (32 - n))

def s0 (x : UInt32) : UInt32 := rotr x 7 ^^^ rotr x 18 ^^^ (x >>> 3)
def s1 (x : UInt32) : UInt32 := rotr x 17 ^^^ rotr x 19 ^^^ (x >>> 10)
def s2 (x : UInt32) : UInt32 := rotr x 2 ^^^ rotr x 13 ^^^ rotr x 22
def s3 (x : UInt32) : UInt32 := rotr x 6 ^^^ rotr x 11 ^^^ rotr x 25
def f0 (x y z : UInt32) : UInt32 := (x &&& y) ||| (z &&& (x ||| y))
def f1 (x y z : UInt32) : UInt32 := z ^^^ (x &&& (y ^^^ z))

/-- `n` more words `R(t)` of the message schedule. -/
def expand : Nat → List UInt32 → List UInt32
  | 0, w => w
  | n + 1, w =>
    let t := w.length
    expand n (w ++ [s1 (w.getD (t - 2) 0) + w.getD (t - 7) 0 + s0 (w.getD (t - 15) 0) +
      w.getD (t - 16) 0])

/-- One round `P`. The C code renames its arguments from round to round,
which rotates them. -/
def round (v : List UInt32) (xk : UInt32 × UInt32) : List UInt32 :=
  match v with
  | [a, b, c, d, e, f, g, h] =>
    let temp1 := h + s3 e + f1 e f g + xk.2 + xk.1
    let temp2 := s2 a + f0 a b c
    [temp1 + temp2, a, b, c, d + temp1, e, f, g]
  | v => v

def utilsSha256Process (state : List UInt32) (data : List UInt8) : List UInt32 :=
  let w := expand 48 ((List.range 16).map fun i => getUint32Be data (4 * i))
  List.zipWith (· + ·) state ((w.zip sha256K).foldl round state)

def utilsSha256Init : Sha256Context :=
  { total0 := 0, total1 := 0, state := List.replicate 8 0, buffer := List.replicate 64 0,
    is224 := 0 }

def utilsSha256Starts (ctx : Sha256Context) : Sha256Context :=
  { ctx with total0 := 0, total1 := 0, state := sha256Starts, is224 := 0 }

/-- The loop over whole blocks and the copy of what remains to `left`. -/
def sha256Drain (ctx : Sha256Context) (left : Nat) (input : List UInt8) : Sha256Context :=
  let rest := residual 64 input
  { ctx with
    state := absorb utilsSha256Process 64 ctx.state input
    buffer := if rest.length > 0 then blit ctx.buffer left rest else ctx.buffer }

def utilsSha256Update (ctx : Sha256Context) (input : List UInt8) : Sha256Context :=
  if input.length = 0 then ctx
  else
    let left := ctx.total0 &&& 0x3F
    let fill := 64 - left
    let total0 := add32 ctx.total0 input.length
    let total1 := if total0 < input.length then add32 ctx.total1 1 else ctx.total1
    let ctx := { ctx with total0 := total0, total1 := total1 }
    if left ≠ 0 ∧ input.length ≥ fill then
      let buffer := blit ctx.buffer left (input.take fill)
      sha256Drain { ctx with state := utilsSha256Process ctx.state buffer, buffer := buffer } 0
        (input.drop fill)
    else sha256Drain ctx left input

def sha256Padding : List UInt8 := 0x80 :: List.replicate 63 0

def utilsSha256Finish (ctx : Sha256Context) : List UInt8 :=
  let high := (ctx.total0 >>> 29) ||| (ctx.total1 <<< 3) % 2 ^ 32
  let low := (ctx.total0 <<< 3) % 2 ^ 32
  let msglen := putUint32Be high ++ putUint32Be low
  let last := ctx.total0 &&& 0x3F
  let padn := if last < 56 then 56 - last else 120 - last
  let ctx := utilsSha256Update ctx (sha256Padding.take padn)
  let ctx := utilsSha256Update ctx msglen
  ctx.state.flatMap fun word => putUint32Be word.toNat

def utilsSha256 (input : List UInt8) : List UInt8 :=
  utilsSha256Finish (utilsSha256Update (utilsSha256Starts utilsSha256Init) input)

/-! ## The hash it computes -/

/-- The message, a one bit, zeros up to eight bytes before a block's end and
the length in bits. -/
def sha256Pad (msg : List UInt8) : List UInt8 :=
  msg ++ (0x80 :: List.replicate ((119 - msg.length % 64) % 64) 0) ++
    putUint32Be (8 * msg.length / 2 ^ 32) ++ putUint32Be (8 * msg.length % 2 ^ 32)

def sha256 (msg : List UInt8) : List UInt8 :=
  (absorb utilsSha256Process 64 sha256Starts (sha256Pad msg)).flatMap fun word =>
    putUint32Be word.toNat

theorem length_round {v : List UInt32} (h : v.length = 8) (xk : UInt32 × UInt32) :
    (round v xk).length = 8 := by
  unfold round
  split
  · rfl
  · exact h

theorem length_utilsSha256Process {state : List UInt32} (h : state.length = 8)
    (data : List UInt8) : (utilsSha256Process state data).length = 8 := by
  have hrounds : ∀ (xks : List (UInt32 × UInt32)) (v : List UInt32), v.length = 8 →
      (xks.foldl round v).length = 8 := by
    intro xks
    induction xks with
    | nil => exact fun _ hv => hv
    | cons xk xks ih => exact fun v hv => ih _ (length_round hv xk)
  unfold utilsSha256Process
  rw [List.length_zipWith, hrounds _ _ h, h]
  rfl

theorem length_sha256 (msg : List UInt8) : (sha256 msg).length = 32 := by
  have hstate : (absorb utilsSha256Process 64 sha256Starts (sha256Pad msg)).length = 8 :=
    absorb_keeps (P := fun state : List UInt32 => state.length = 8) _
      (fun state block h => length_utilsSha256Process h block) rfl _
  have hword : ∀ n, (putUint32Be n).length = 4 := fun _ => rfl
  unfold sha256
  simp only [List.length_flatMap, hword, List.map_const', List.sum_replicate_nat, hstate]

/-- A context that was started and updated with `msg`, in whatever pieces. -/
structure Sha256Holds (ctx : Sha256Context) (msg : List UInt8) : Prop where
  stream : Holds utilsSha256Process (n := 64) sha256Starts msg ctx.state ctx.buffer
  total0_eq : ctx.total0 = msg.length % 2 ^ 32
  total1_eq : ctx.total1 = msg.length / 2 ^ 32 % 2 ^ 32

variable {ctx : Sha256Context} {msg : List UInt8}

theorem sha256Holds_starts : Sha256Holds (utilsSha256Starts utilsSha256Init) [] :=
  ⟨Holds.empty (by simp [utilsSha256Starts, utilsSha256Init]), rfl, rfl⟩

theorem Sha256Holds.left_eq (h : Sha256Holds ctx msg) : ctx.total0 &&& 0x3F = msg.length % 64 := by
  rw [h.total0_eq, show (0x3F : Nat) = 2 ^ 6 - 1 from rfl, Nat.and_two_pow_sub_one_eq_mod]
  omega

/-- The two halves of the byte counter carry. -/
theorem Sha256Holds.totals (h : Sha256Holds ctx msg) {n : Nat} (hn : n < 2 ^ 32) :
    add32 ctx.total0 n = (msg.length + n) % 2 ^ 32 ∧
      (if add32 ctx.total0 n < n then add32 ctx.total1 1 else ctx.total1) =
        (msg.length + n) / 2 ^ 32 % 2 ^ 32 := by
  unfold add32
  rw [h.total0_eq, h.total1_eq]
  refine ⟨by omega, ?_⟩
  split <;> omega

theorem sha256Drain_buffer (buffer : List UInt8) (left : Nat) (rest : List UInt8) :
    (if rest.length > 0 then blit buffer left rest else buffer) = blit buffer left rest := by
  split
  · rfl
  · rename_i h
    have hnil : rest = [] := List.length_eq_zero_iff.mp (by omega)
    simp [hnil, blit]

theorem Sha256Holds.update (h : Sha256Holds ctx msg) (input : List UInt8)
    (small : input.length < 2 ^ 32) : Sha256Holds (utilsSha256Update ctx input) (msg ++ input) := by
  obtain ⟨htotal0, htotal1⟩ := h.totals small
  have hleft : msg.length % 64 < 64 := Nat.mod_lt _ (by decide)
  unfold utilsSha256Update
  split
  · rename_i hnil
    rw [List.length_eq_zero_iff.mp hnil, List.append_nil]
    exact h
  · simp only [h.left_eq, htotal1]
    simp only [htotal0]
    split
    · rename_i hlong
      refine ⟨?_, by rw [List.length_append]; rfl, by rw [List.length_append]; rfl⟩
      simp only [sha256Drain, sha256Drain_buffer]
      exact h.stream.append_long (by decide) (by omega) (by omega)
    · rename_i hshort
      refine ⟨?_, by rw [List.length_append]; rfl, by rw [List.length_append]; rfl⟩
      simp only [sha256Drain, sha256Drain_buffer]
      by_cases haligned : msg.length % 64 = 0
      · rw [haligned]
        exact h.stream.append_aligned (by decide) haligned
      · have hfits : msg.length % 64 + input.length < 64 := by omega
        rw [absorb_short _ (by omega), residual_short (by omega)]
        exact h.stream.append_short hfits

theorem sha256Padding_take (last : Nat) (h : last < 64) :
    sha256Padding.take (if last < 56 then 56 - last else 120 - last) =
      0x80 :: List.replicate ((119 - last) % 64) 0 := by
  have hpad : (if last < 56 then 56 - last else 120 - last) = (119 - last) % 64 + 1 := by
    split <;> omega
  rw [hpad, sha256Padding, List.take_succ_cons, List.take_replicate, Nat.min_eq_left (by omega)]

/-- The length field, as the two shifted counters give it. -/
theorem Sha256Holds.msglen (h : Sha256Holds ctx msg) (small : msg.length < 2 ^ 61) :
    (ctx.total0 >>> 29 ||| (ctx.total1 <<< 3) % 2 ^ 32) = 8 * msg.length / 2 ^ 32 ∧
      (ctx.total0 <<< 3) % 2 ^ 32 = 8 * msg.length % 2 ^ 32 := by
  rw [h.total0_eq, h.total1_eq, Nat.shiftRight_eq_div_pow, Nat.shiftLeft_eq, Nat.shiftLeft_eq]
  refine ⟨?_, by omega⟩
  have hor : msg.length % 2 ^ 32 / 2 ^ 29 ||| (msg.length / 2 ^ 32 % 2 ^ 32) * 2 ^ 3 % 2 ^ 32 =
      (msg.length / 2 ^ 32 % 2 ^ 32 % 2 ^ 29) <<< 3 ||| msg.length % 2 ^ 32 / 2 ^ 29 := by
    rw [Nat.lor_comm, Nat.shiftLeft_eq]
    congr 1
    omega
  rw [hor, ← Nat.shiftLeft_add_eq_or_of_lt (by omega), Nat.shiftLeft_eq]
  omega

/-- The digest does not depend on how the message was cut. -/
theorem Sha256Holds.finish (h : Sha256Holds ctx msg) (small : msg.length < 2 ^ 61) :
    utilsSha256Finish ctx = sha256 msg := by
  obtain ⟨hhigh, hlow⟩ := h.msglen small
  unfold utilsSha256Finish
  simp only [h.left_eq, hhigh, hlow, sha256Padding_take _ (Nat.mod_lt msg.length (by decide))]
  have hpadded := h.update (0x80 :: List.replicate ((119 - msg.length % 64) % 64) 0)
    (by simp; omega)
  have hdone := hpadded.update
    (putUint32Be (8 * msg.length / 2 ^ 32) ++ putUint32Be (8 * msg.length % 2 ^ 32))
    (by simp [putUint32Be])
  rw [hdone.stream.state_eq, sha256, sha256Pad]
  simp only [List.append_assoc]

theorem utilsSha256_eq (input : List UInt8) (small : input.length < 2 ^ 32) :
    utilsSha256 input = sha256 input := by
  have h := sha256Holds_starts.update input small
  rw [List.nil_append] at h
  exact h.finish (by omega)

set_option maxRecDepth 100000 in
/-- The first bytes of the digest of `"abc"`. -/
example : (utilsSha256 [0x61, 0x62, 0x63]).take 4 = [0xBA, 0x78, 0x16, 0xBF] := by
  decide +kernel

end BouffaloSdk.Ota
