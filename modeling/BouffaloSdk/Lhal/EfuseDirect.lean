import BouffaloSdk.Lhal.BflbEfCtrl

/-!
# Writing fuses and reading them back

Words burnt with `bflb_ef_ctrl_write_direct` into blank fuses lie where they should and
disturb nothing else. `bflb_ef_ctrl_read_direct` takes as many words from the second region
as it took from the first.
-/

namespace BouffaloSdk
open Kit.Word

namespace EfCtrl

/-- Blank fuses, and registers that mirror them. -/
def blank : EfCtrl := ⟨fun _ => 0, fun _ => 0⟩

/-- Nothing but `words` from word `start` on. -/
def wordsAt (start : Nat) (words : List (BitVec 32)) (w : Nat) : BitVec 32 :=
  if start ≤ w then words.getD (w - start) 0 else 0

section Counts
variable {chip : EfChip} {offset n : Nat}

/-- A range that is not refused, with its two parts. -/
structure Split (chip : EfChip) (offset n : Nat) : Prop where
  sum : region0Count chip offset n + region1Count chip offset n = n
  first : 0 < region0Count chip offset n →
    offset / 4 + region0Count chip offset n ≤ chip.r0Size / 4
  second : 0 < region1Count chip offset n → chip.r1Size.isSome ∧
    chip.r0Size / 4 ≤ offset / 4 + region0Count chip offset n ∧
    offset / 4 + n ≤ chip.totalSize / 4
  none : region1Count chip offset n = 0 ↔ n = 0 ∨ offset + 4 * n ≤ chip.r0Size
  same : 0 < region1Count chip offset n →
    (region1Count chip offset n = region0Count chip offset n ↔ 2 * offset + 4 * n = 2 * chip.r0Size)

theorem split_of_accepted (haligned : offset % 4 = 0) (hmem : chip.totalSize + 4 * n < 2 ^ 32)
    (haccepted : ¬ refused chip offset n) : Split chip offset n := by
  have hmul : mul32 n 4 = 4 * n := by
    rw [mul32_eq (by omega), Nat.mul_comm]
  have hrange : offset ≤ chip.totalSize ∧ add32 offset (4 * n) ≤ chip.totalSize := by
    unfold refused at haccepted
    rw [hmul] at haccepted
    omega
  obtain ⟨hoff, hend⟩ := hrange
  rw [add32_eq (by omega)] at hend
  have hend32 : add32 offset (4 * n) = offset + 4 * n := add32_eq (by omega)
  have hsizes : chip.r0Size % 4 = 0 ∧ chip.totalSize % 4 = 0 ∧
      (chip.r1Size.isSome ∨ chip.totalSize = chip.r0Size) := by
    cases chip <;> decide
  obtain ⟨h0, htotal, hone⟩ := hsizes
  have hcounts : region0Count chip offset n + region1Count chip offset n = n ∧
      ((region1Count chip offset n = 0 ∧ (n = 0 ∨ offset + 4 * n ≤ chip.r0Size) ∧
          (region0Count chip offset n = 0 ∨ offset + 4 * n ≤ chip.r0Size)) ∨
        (region0Count chip offset n = 0 ∧ chip.r0Size ≤ offset ∧ 0 < n) ∨
        (4 * region0Count chip offset n = chip.r0Size - offset ∧
          4 * region1Count chip offset n = offset + 4 * n - chip.r0Size ∧
          offset < chip.r0Size ∧ chip.r0Size < offset + 4 * n)) := by
    have hcount0 : region0Count chip offset n =
        if offset < chip.r0Size then
          if offset + 4 * n ≤ chip.r0Size then n else (chip.r0Size - offset) / 4
        else 0 := by
      rw [region0Count, hmul, hend32]
    have hcount1 : region1Count chip offset n =
        if offset < chip.r0Size then
          if offset + 4 * n ≤ chip.r0Size then 0 else (offset + 4 * n - chip.r0Size) / 4
        else n := by
      rw [region1Count, hmul, hend32]
    split at hcount0
    · split at hcount0
      · rw [if_pos ‹_›, if_pos ‹_›] at hcount1
        omega
      · rw [if_pos ‹_›, if_neg ‹_›] at hcount1
        omega
    · rw [if_neg ‹_›] at hcount1
      omega
  obtain ⟨hsum, hparts⟩ := hcounts
  exact {
    sum := hsum
    first := by
      intro hpos
      omega
    second := by
      intro hpos
      refine ⟨hone.resolve_right ?_, ?_, ?_⟩
      all_goals omega
    none := by omega
    same := by
      intro hpos
      omega }

end Counts

/-! ## The words in the registers -/

section Words
variable {start : Nat} {words : List (BitVec 32)}

theorem wordsAt_outside {w : Nat} (h : w < start ∨ start + words.length ≤ w) :
    wordsAt start words w = 0 := by
  unfold wordsAt
  split
  · exact List.getD_eq_default _ _ (by omega)
  · rfl

theorem wordsAt_take (c w : Nat) :
    wordsAt start (words.take c) w = if w < start + c then wordsAt start words w else 0 := by
  unfold wordsAt
  by_cases hw : start ≤ w
  · rw [if_pos hw, if_pos hw, List.getD_eq_getElem?_getD, List.getD_eq_getElem?_getD,
      List.getElem?_take]
    by_cases hc : w < start + c
    · rw [if_pos hc, if_pos (by omega)]
    · rw [if_neg hc, if_neg (by omega), Option.getD_none]
  · simp [hw]

theorem store_wordsAt {s : EfCtrl} {c : Nat} (hdata : s.data = wordsAt start (words.take c)) :
    (s.store (start + c) (words.drop c)).data = wordsAt start words := by
  funext w
  simp only [store, hdata, wordsAt_take]
  by_cases hw : start + c ≤ w
  · rw [if_pos hw, if_neg (by omega), List.getD_eq_getElem?_getD, List.getElem?_drop,
      show c + (w - (start + c)) = w - start by omega, wordsAt, if_pos (by omega),
      List.getD_eq_getElem?_getD]
  · rw [if_neg hw, if_pos (by omega)]

theorem map_wordsAt {a k : Nat} (h : a + k ≤ words.length) :
    (List.range' (start + a) k).map (wordsAt start words) = (words.drop a).take k := by
  apply List.ext_getElem?
  intro i
  rw [List.getElem?_map, List.getElem?_take, List.getElem?_drop]
  by_cases hi : i < k
  · rw [List.getElem?_range' hi, if_pos hi, Option.map_some, Nat.one_mul, wordsAt,
      if_pos (by omega), show start + a + i - start = a + i by omega,
      List.getD_eq_getElem _ _ (by omega), List.getElem?_eq_getElem (by omega)]
  · rw [if_neg hi, List.getElem?_eq_none (by simpa using hi), Option.map_none]

end Words

/-! ## Writing and reading -/

section Direct
variable {chip : EfChip} {offset : Nat} {words : List (BitVec 32)}

/-- The part of the first region, burnt. -/
theorem burn_first {c : Nat} (hfirst : 0 < c → offset / 4 + c ≤ chip.r0Size / 4)
    (hc : c ≤ words.length) :
    (if 0 < c then (blank.store (offset / 4) (words.take c)).programEfuseR0 chip else blank) =
      ⟨wordsAt (offset / 4) (words.take c), wordsAt (offset / 4) (words.take c)⟩ := by
  by_cases hpos : 0 < c
  · have hdata : (blank.store (offset / 4) (words.take c)).data =
        wordsAt (offset / 4) (words.take c) := rfl
    rw [if_pos hpos, programEfuseR0, hdata]
    congr 1
    funext w
    by_cases hw : chip.inR0 w
    · rw [if_pos hw]
      exact BitVec.zero_or
    · have hout : offset / 4 + (words.take c).length ≤ w := by
        have := hfirst hpos
        have : ¬ w < chip.r0Size / 4 := hw
        rw [List.length_take]
        omega
      rw [if_neg hw, wordsAt_outside (Or.inr hout)]
      rfl
  · obtain rfl : c = 0 := by omega
    have hnone : wordsAt (offset / 4) (words.take 0) = fun _ => 0 := by
      funext w
      exact wordsAt_outside (by simp; omega)
    rw [if_neg hpos, hnone]
    rfl

/-- The part of the second region, burnt behind the first. -/
theorem burn_second {c : Nat}
    (hsecond : chip.r0Size / 4 ≤ offset / 4 + c ∧
      offset / 4 + words.length ≤ chip.totalSize / 4) :
    programEfuseR1 chip (EfCtrl.store
        ⟨wordsAt (offset / 4) (words.take c), wordsAt (offset / 4) (words.take c)⟩
        (offset / 4 + c) (words.drop c)) =
      ⟨wordsAt (offset / 4) words, wordsAt (offset / 4) words⟩ := by
  have hdata := @store_wordsAt (offset / 4) words
    ⟨wordsAt (offset / 4) (words.take c), wordsAt (offset / 4) (words.take c)⟩ c rfl
  rw [programEfuseR1, hdata]
  congr 1
  funext w
  show (if chip.inR1 w then wordsAt (offset / 4) (words.take c) w ||| wordsAt (offset / 4) words w
    else wordsAt (offset / 4) (words.take c) w) = wordsAt (offset / 4) words w
  rw [wordsAt_take]
  by_cases hlow : w < offset / 4 + c
  · rw [if_pos hlow]
    split
    · exact BitVec.or_self
    · rfl
  · rw [if_neg hlow]
    by_cases hw : chip.inR1 w
    · rw [if_pos hw]
      exact BitVec.zero_or
    · have hout : offset / 4 + words.length ≤ w := by
        have : ¬ (chip.r0Size / 4 ≤ w ∧ w < chip.totalSize / 4) := hw
        omega
      rw [if_neg hw, wordsAt_outside (Or.inr hout)]

/-- A programming write into blank fuses burns its words and nothing else. -/
theorem writeDirect_blank (hsplit : Split chip offset words.length)
    (haccepted : ¬ refused chip offset words.length) :
    writeDirect chip offset words true blank =
      ⟨wordsAt (offset / 4) words, wordsAt (offset / 4) words⟩ := by
  have hsum := hsplit.sum
  have hfirst := burn_first hsplit.first (show region0Count chip offset words.length ≤ words.length
    by omega)
  unfold writeDirect
  rw [if_neg haccepted]
  simp only [if_true]
  rw [hfirst]
  by_cases hpos : 0 < region1Count chip offset words.length
  · obtain ⟨hr1, hsecond⟩ := hsplit.second hpos
    have hrest : (words.drop (region0Count chip offset words.length)).take
        (region1Count chip offset words.length) =
          words.drop (region0Count chip offset words.length) :=
      List.take_of_length_le (by rw [List.length_drop]; omega)
    rw [if_pos ⟨hr1, hpos⟩, hrest]
    exact burn_second hsecond
  · rw [if_neg (fun h => hpos h.2), List.take_of_length_le (by omega)]

theorem load_mirror (words : Nat → BitVec 32) :
    loadEfuseR0 chip ⟨words, words⟩ = ⟨words, words⟩ ∧
      loadEfuseR1 chip ⟨words, words⟩ = ⟨words, words⟩ := by
  constructor
  · simp [loadEfuseR0]
  · simp [loadEfuseR1]

/-- Reading fuses that the registers mirror changes neither. -/
theorem readDirect_mirror {n : Nat} (mem : Nat → BitVec 32) (reload : Bool)
    (haccepted : ¬ refused chip offset n) :
    readDirect chip offset n reload ⟨mem, mem⟩ =
      ((List.range' (offset / 4) (region0Count chip offset n)).map mem ++
        (if chip.r1Size.isSome ∧ 0 < region1Count chip offset n then
          (List.range' (offset / 4 + region0Count chip offset n)
            (region0Count chip offset n)).map mem
        else []), ⟨mem, mem⟩) := by
  obtain ⟨h0, h1⟩ := @load_mirror chip mem
  have hload0 : (if reload then loadEfuseR0 chip ⟨mem, mem⟩ else ⟨mem, mem⟩) = ⟨mem, mem⟩ := by
    rw [h0, ite_self]
  have hload1 : (if reload then loadEfuseR1 chip ⟨mem, mem⟩ else ⟨mem, mem⟩) = ⟨mem, mem⟩ := by
    rw [h1, ite_self]
  unfold readDirect
  rw [if_neg haccepted]
  by_cases hpos : 0 < region0Count chip offset n
  · simp only [hpos, if_true, hload0, hload1, fetch]
    split
    · rfl
    · rw [List.append_nil]
  · have hzero : region0Count chip offset n = 0 := by omega
    simp only [hzero, Nat.lt_irrefl, if_false, hload1, fetch, List.range'_zero, List.map_nil]
    split <;> rfl

end Direct

end EfCtrl
end BouffaloSdk
