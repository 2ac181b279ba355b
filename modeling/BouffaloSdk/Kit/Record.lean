import BouffaloSdk.Kit.LittleEndian
import BouffaloSdk.Kit.Slice

/-!
# Packed records

A structure in memory as its bytes. Fields are little-endian words at fixed
offsets, and members are records at fixed offsets; storing one leaves every
disjoint one alone.
-/

namespace Kit

@[ext]
structure Record (n : Nat) where
  bytes : List UInt8
  length_eq : bytes.length = n
  deriving DecidableEq

namespace Record

variable {n : Nat}

def zero (n : Nat) : Record n := ⟨List.replicate n 0, List.length_replicate⟩

instance : Inhabited (Record n) := ⟨zero n⟩

def get (r : Record n) (off k : Nat) : List UInt8 := slice r.bytes off k

/-- The `k`-byte field at `off`. -/
def word (r : Record n) (off k : Nat) : Nat := ofLE (r.get off k)

/-- Bytes stored at `off`; storing past the end is out of the model. -/
def put (r : Record n) (off : Nat) (data : List UInt8) : Record n :=
  if h : off + data.length ≤ n then
    ⟨blit r.bytes off data, by rw [length_blit (by rw [r.length_eq]; exact h), r.length_eq]⟩
  else r

def putWord (r : Record n) (off k v : Nat) : Record n := r.put off (toLE k v)

/-- The member of `k` bytes at `off`. -/
def sub (r : Record n) (off k : Nat) : Record k :=
  if h : off + k ≤ n then
    ⟨r.get off k, length_slice (by rw [r.length_eq]; exact h)⟩
  else zero k

theorem length_get (r : Record n) {off k : Nat} (h : off + k ≤ n) : (r.get off k).length = k :=
  length_slice (by rw [r.length_eq]; exact h)

theorem bytes_put (r : Record n) {off : Nat} {data : List UInt8} (h : off + data.length ≤ n) :
    (r.put off data).bytes = blit r.bytes off data := by
  rw [put, dif_pos h]

theorem bytes_sub (r : Record n) {off k : Nat} (h : off + k ≤ n) :
    (r.sub off k).bytes = r.get off k := by
  rw [sub, dif_pos h]

theorem get_put_same (r : Record n) (off : Nat) (data : List UInt8) (h : off + data.length ≤ n) :
    (r.put off data).get off data.length = data := by
  rw [get, r.bytes_put h, slice_blit_same (by rw [r.length_eq]; exact h)]

theorem get_put_disjoint (r : Record n) {off off' k : Nat} {data : List UInt8}
    (disjoint : off' + k ≤ off ∨ off + data.length ≤ off') :
    (r.put off data).get off' k = r.get off' k := by
  by_cases h : off + data.length ≤ n
  · rw [get, r.bytes_put h, slice_blit_disjoint (by rw [r.length_eq]; exact h) disjoint]
    rfl
  · rw [put, dif_neg h]

theorem get_putWord_disjoint (r : Record n) {off off' k k' v : Nat}
    (disjoint : off' + k' ≤ off ∨ off + k ≤ off') :
    (r.putWord off k v).get off' k' = r.get off' k' :=
  r.get_put_disjoint (by rwa [length_toLE])

theorem word_putWord_same (r : Record n) {off k v : Nat} (h : off + k ≤ n) (hv : v < 256 ^ k) :
    (r.putWord off k v).word off k = v := by
  have hget := r.get_put_same off (toLE k v) (by rwa [length_toLE])
  rw [length_toLE] at hget
  rw [word, putWord, hget, ofLE_toLE_of_lt hv]

theorem word_putWord_disjoint (r : Record n) {off off' k k' v : Nat}
    (disjoint : off' + k' ≤ off ∨ off + k ≤ off') :
    (r.putWord off k v).word off' k' = r.word off' k' := by
  rw [word, r.get_putWord_disjoint disjoint]
  rfl

theorem word_put_disjoint (r : Record n) {off off' k : Nat} {data : List UInt8}
    (disjoint : off' + k ≤ off ∨ off + data.length ≤ off') :
    (r.put off data).word off' k = r.word off' k := by
  rw [word, r.get_put_disjoint disjoint]
  rfl

theorem word_lt (r : Record n) {off k : Nat} (h : off + k ≤ n) : r.word off k < 256 ^ k := by
  have hlt := ofLE_lt (r.get off k)
  rwa [r.length_get h] at hlt

theorem sub_put_same (r : Record n) {off k : Nat} (e : Record k) (h : off + k ≤ n) :
    (r.put off e.bytes).sub off k = e := by
  have hget := r.get_put_same off e.bytes (by rwa [e.length_eq])
  rw [e.length_eq] at hget
  apply Record.ext
  rw [bytes_sub _ h, hget]

theorem sub_congr {r r' : Record n} {off k : Nat} (h : r.get off k = r'.get off k) :
    r.sub off k = r'.sub off k := by
  by_cases hfit : off + k ≤ n
  · apply Record.ext
    rw [bytes_sub _ hfit, bytes_sub _ hfit, h]
  · rw [sub, sub, dif_neg hfit, dif_neg hfit]

end Record

end Kit
