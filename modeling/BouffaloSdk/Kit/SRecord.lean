import BouffaloSdk.Kit.Hex
import BouffaloSdk.Kit.Word
import Mathlib.Data.UInt

/-!
# S-records

The reader's side of the format, for data records with 32-bit addresses: a
line `S3`, then as hexadecimal text the count of the bytes to follow, the
address, the data and a checksum. Other lines are passed over; a record that
breaks a rule spoils the whole text.
-/

namespace Kit.SRecord
open Kit.Word

structure Record where
  addr : Nat
  data : List UInt8

/-- The bytes of a record with the address of each. -/
def Record.cells (r : Record) : List (Nat × UInt8) :=
  r.data.mapIdx fun i b => (add32 r.addr i, b)

def isEol (c : Char) : Bool := c = '\r' || c = '\n'

/-- The count covers what follows it, and all bytes add up to ones. -/
def ofBytes : List UInt8 → Option Record
  | count :: a :: b :: c :: d :: rest =>
    if count.toNat = rest.length + 4 ∧ rest ≠ [] ∧
        (count :: a :: b :: c :: d :: rest).sum = 0xFF then
      some ⟨a.toNat * 2 ^ 24 + b.toNat * 2 ^ 16 + c.toNat * 2 ^ 8 + d.toNat, rest.dropLast⟩
    else none
  | _ => none

def isRecord (line : List Char) : Bool := line.take 2 = ['S', '3']

def decodeLine (line : List Char) : Option Record := (Hex.decode (line.drop 2)).bind ofBytes

def decode (text : List Char) : Option (List Record) :=
  ((text.splitOnP isEol).filter isRecord).mapM decodeLine

/-- What a loader puts where. -/
def load (text : List Char) : Option (List (Nat × UInt8)) :=
  (decode text).map (·.flatMap Record.cells)

theorem ofBytes_of_valid {count a b c d checksum : UInt8} {data : List UInt8}
    (hcount : count.toNat = data.length + 5)
    (hsum : (count :: a :: b :: c :: d :: (data ++ [checksum])).sum = 0xFF) :
    ofBytes (count :: a :: b :: c :: d :: (data ++ [checksum])) =
      some ⟨a.toNat * 2 ^ 24 + b.toNat * 2 ^ 16 + c.toNat * 2 ^ 8 + d.toNat, data⟩ := by
  have hlen : count.toNat = (data ++ [checksum]).length + 4 := by
    rw [hcount, List.length_append, List.length_singleton]
  simp only [ofBytes, List.dropLast_concat]
  exact if_pos ⟨hlen, List.concat_ne_nil checksum data, hsum⟩

theorem decode_append (before after : List Char) {eol : Char} (h : isEol eol) :
    decode (before ++ eol :: after) =
      (decode before).bind fun rs => (decode after).map (rs ++ ·) := by
  unfold decode
  rw [List.splitOnP_append_cons before after h, List.filter_append, List.mapM_append]
  generalize List.mapM decodeLine (List.filter isRecord (List.splitOnP isEol before)) = rs
  generalize List.mapM decodeLine (List.filter isRecord (List.splitOnP isEol after)) = ss
  cases rs <;> cases ss <;> rfl

theorem load_append {before after : List Char} {eol : Char} (h : isEol eol)
    {xs ys : List (Nat × UInt8)} (hbefore : load before = some xs) (hafter : load after = some ys) :
    load (before ++ eol :: after) = some (xs ++ ys) := by
  unfold load at *
  obtain ⟨rs, hrs, rfl⟩ := Option.map_eq_some_iff.mp hbefore
  obtain ⟨ss, hss, rfl⟩ := Option.map_eq_some_iff.mp hafter
  rw [decode_append before after h, hrs, hss]
  simp only [Option.bind_some, Option.map_some, List.flatMap_append]

theorem load_nil : load [] = some [] := rfl

theorem decode_line {line : List Char} (hrec : isRecord line) (heol : ∀ c ∈ line, isEol c = false) :
    decode line = (decodeLine line).map ([·]) := by
  unfold decode
  rw [List.splitOnP_eq_singleton heol, List.filter_cons_of_pos hrec, List.filter_nil]
  cases h : decodeLine line <;> simp [h]

/-- A well-formed record line loads its data. -/
theorem load_line {bytes : List UInt8} {r : Record} (h : ofBytes bytes = some r) :
    load ('S' :: '3' :: Hex.encode bytes) = some r.cells := by
  have heol : ∀ c ∈ 'S' :: '3' :: Hex.encode bytes, isEol c = false := by
    intro c hc
    rcases List.mem_cons.mp hc with rfl | hc
    · rfl
    rcases List.mem_cons.mp hc with rfl | hc
    · rfl
    · obtain ⟨hr, hn⟩ := Hex.ne_eol_of_mem_encode hc
      simp [isEol, hr, hn]
  have hline : decodeLine ('S' :: '3' :: Hex.encode bytes) = some r := by
    rw [decodeLine, List.drop_succ_cons, List.drop_succ_cons, List.drop_zero, Hex.decode_encode,
      Option.bind_some, h]
  rw [load, decode_line rfl heol, hline]
  simp only [Option.map_some, List.flatMap_cons, List.flatMap_nil, List.append_nil]

end Kit.SRecord
