import BouffaloSdk.Kit.Files
import BouffaloSdk.Kit.Word
import Mathlib.Data.Set.Card
import Mathlib.Order.Interval.Finset.Nat

/-!
# Rotation of log files

`file_rotate` of `components/utils/log/bflog/bflog.c`, on the directory that
the log files lie in. The current log has no number, and the kept ones count up
from 0 with their age.
-/

namespace BouffaloSdk.Bflog
open Kit Kit.Word Kit.Files

/-- The files of the directory, by name. -/
abbrev Directory := List (List Char × List UInt8)

/-- `"<path>.log"`. -/
def logName (path : List Char) : List Char := path ++ ['.', 'l', 'o', 'g']

/-- `"<path>_<i>.log"`. -/
def keptName (path : List Char) (i : Nat) : List Char :=
  path ++ '_' :: Nat.toDigits 10 i ++ ['.', 'l', 'o', 'g']

/-- What is moved to `keptName path i`. -/
def oldName (path : List Char) (i : Nat) : List Char :=
  if i = 0 then logName path else keptName path (i - 1)

def bflogcExists (files : Directory) (name : List Char) : Bool := (content files name).isSome

def bflogcRename (files : Directory) (oldpath newpath : List Char) : Directory :=
  match content files oldpath with
  | none => files
  | some bytes => put (remove files oldpath) newpath bytes

/-- `bflogc_fopen` in mode `"a+"`. -/
def bflogcFopenAppend (files : Directory) (name : List Char) : Directory :=
  if bflogcExists files name then files else put files name []

/-- One turn of the loop. -/
def rotateOne (path : List Char) (files : Directory) (i : Nat) : Directory :=
  let oldpath := oldName path i
  let newpath := keptName path i
  let files := if bflogcExists files newpath then remove files newpath else files
  if bflogcExists files oldpath then bflogcRename files oldpath newpath else files

/-- The turns for `n - 1` down to 0. -/
def rotateLoop (path : List Char) : (n : Nat) → Directory → Directory
  | 0, files => files
  | n + 1, files => rotateLoop path n (rotateOne path files n)

/-- The count is an `int`. Where it starts below 0 there is no turn, and the
file opened at the end has no name. -/
def fileRotate (path : List Char) (keep : Nat) (files : Directory) : Option Directory :=
  let i := int32 (sub32 keep 1)
  if i < 0 then none
  else some (bflogcFopenAppend (rotateLoop path (i.toNat + 1) files) (logName path))

/-- The log files of `path` that are stored. -/
def generations (path : List Char) (files : Directory) : Set (List Char) :=
  {name | (name = logName path ∨ ∃ i, name = keptName path i) ∧ (content files name).isSome}

/-- Those whose number is not below `keep`. -/
def beyond (path : List Char) (keep : Nat) (files : Directory) : Set (List Char) :=
  {name | (∃ i, keep ≤ i ∧ name = keptName path i) ∧ (content files name).isSome}

/-- Every log file is one older, the oldest is gone and a new one is begun. -/
structure Rotated (path : List Char) (keep : Nat) (before after : Directory) : Prop where
  current : content after (logName path) = some []
  newest : content after (keptName path 0) = content before (logName path)
  older : ∀ i, 1 ≤ i → i < keep →
    content after (keptName path i) = content before (keptName path (i - 1))
  others : ∀ name, name ≠ logName path → (∀ i < keep, name ≠ keptName path i) →
    content after name = content before name
  bounded : (generations path after).ncard ≤ keep + 1 + (beyond path keep before).ncard

variable {path name : List Char} {i j n : Nat} {files : Directory}

theorem toDigits_injective (h : Nat.toDigits 10 i = Nat.toDigits 10 j) : i = j := by
  have hvalue := congrArg (Nat.ofDigitChars 10 · 0) h
  simpa only [Nat.ofDigitChars_ten_toDigits] using hvalue

theorem keptName_injective (h : keptName path i = keptName path j) : i = j := by
  unfold keptName at h
  exact toDigits_injective (List.cons.inj
    (List.append_cancel_left (List.append_cancel_right h))).2

theorem keptName_ne_logName : keptName path i ≠ logName path := by
  intro h
  unfold keptName logName at h
  rw [List.append_assoc] at h
  have hrest := List.append_cancel_left h
  simp at hrest

theorem oldName_zero : oldName path 0 = logName path := rfl

theorem oldName_succ : oldName path (i + 1) = keptName path i := rfl

theorem oldName_injective (h : oldName path i = oldName path j) : i = j := by
  cases i with
  | zero =>
    cases j with
    | zero => rfl
    | succ j => exact absurd h.symm keptName_ne_logName
  | succ i =>
    cases j with
    | zero => exact absurd h keptName_ne_logName
    | succ j => exact congrArg Nat.succ (keptName_injective h)

theorem keptName_ne_oldName (h : j ≤ i) : keptName path i ≠ oldName path j := by
  intro heq
  have := @oldName_injective path (i + 1) j heq
  omega

/-- A turn moves one file to a place that is free by then. -/
theorem content_rotateOne (path : List Char) (files : Directory) (i : Nat) :
    content (rotateOne path files i) =
      Function.update (Function.update (content files) (oldName path i) none) (keptName path i)
        (content files (oldName path i)) := by
  have hne := @keptName_ne_oldName path i i (Nat.le_refl i)
  have hfree : content (if bflogcExists files (keptName path i) then remove files (keptName path i)
      else files) = Function.update (content files) (keptName path i) none := by
    split
    case isTrue h => rw [content_remove]
    case isFalse h =>
      unfold bflogcExists at h
      rw [Option.not_isSome_iff_eq_none] at h
      rw [← h, Function.update_eq_self]
  unfold rotateOne
  dsimp only
  generalize (if bflogcExists files (keptName path i) then remove files (keptName path i)
      else files) = freed at hfree
  have hold : content freed (oldName path i) = content files (oldName path i) := by
    rw [hfree, Function.update_of_ne hne.symm]
  unfold bflogcExists bflogcRename
  rw [hold]
  rcases hbytes : content files (oldName path i) with - | bytes
  · rw [if_neg (by simp), hfree, ← hbytes, Function.update_eq_self, hbytes]
  · rw [if_pos (by simp), content_put, content_remove, hfree, Function.update_comm hne,
      Function.update_idem]

/-- What the turns leave behind: every number has what was one below it. -/
theorem content_rotateLoop (path : List Char) (n : Nat) (files : Directory) :
    (∀ i < n, content (rotateLoop path n files) (keptName path i) =
        content files (oldName path i)) ∧
      (0 < n → content (rotateLoop path n files) (logName path) = none) ∧
      ∀ name, name ≠ logName path → (∀ i < n, name ≠ keptName path i) →
        content (rotateLoop path n files) name = content files name := by
  induction n generalizing files with
  | zero => exact ⟨fun i hi => absurd hi (Nat.not_lt_zero i), fun h => absurd h (Nat.lt_irrefl 0),
      fun name _ _ => rfl⟩
  | succ n ih =>
    obtain ⟨hkept, hlog, hothers⟩ := ih (rotateOne path files n)
    have hturn := content_rotateOne path files n
    rw [rotateLoop]
    refine ⟨fun i hi => ?_, fun _ => ?_, fun name hname hnot => ?_⟩
    · rcases Nat.lt_succ_iff_lt_or_eq.mp hi with hlt | rfl
      · have hfrom : oldName path i ≠ keptName path n := (keptName_ne_oldName (by omega)).symm
        have hold : oldName path i ≠ oldName path n := fun h => by
          have := oldName_injective h
          omega
        rw [hkept i hlt, hturn, Function.update_of_ne hfrom, Function.update_of_ne hold]
      · rw [hothers _ keptName_ne_logName fun j hj h => by
          have := keptName_injective h
          omega, hturn, Function.update_self]
    · rcases Nat.eq_zero_or_pos n with rfl | hpos
      · rw [rotateLoop, hturn, Function.update_of_ne keptName_ne_logName.symm, oldName_zero,
          Function.update_self]
      · exact hlog hpos
    · have hself : name ≠ keptName path n := hnot n (Nat.lt_succ_self n)
      have hold : name ≠ oldName path n := by
        cases n with
        | zero => exact hname
        | succ m => exact hnot m (by omega)
      rw [hothers name hname fun j hj => hnot j (by omega), hturn, Function.update_of_ne hself,
        Function.update_of_ne hold]

theorem content_fopenAppend (files : Directory) (name : List Char) :
    content (bflogcFopenAppend files name) =
      Function.update (content files) name (some ((content files name).getD [])) := by
  unfold bflogcFopenAppend bflogcExists
  rcases hbytes : content files name with - | bytes
  · rw [if_neg (by simp), content_put]
    rfl
  · rw [if_pos (by simp), Option.getD_some, ← hbytes, Function.update_eq_self]

theorem fileRotate_eq {keep : Nat} (pos : 1 ≤ keep) (hkeep : keep ≤ 2 ^ 31) :
    fileRotate path keep files =
      some (bflogcFopenAppend (rotateLoop path keep files) (logName path)) := by
  have hfirst : int32 (sub32 keep 1) = ((keep - 1 : Nat) : Int) := by
    rw [sub32_eq pos (by omega), int32_eq (by omega)]
  unfold fileRotate
  dsimp only
  rw [hfirst, if_neg (by omega), Int.toNat_natCast, Nat.sub_add_cancel pos]

theorem stored_finite (files : Directory) : {name | (content files name).isSome}.Finite :=
  (names files).finite_toSet.subset fun _ h => mem_names_iff.mpr h

/-- The log files afterwards are the current one, the kept ones, and those that
were there with higher numbers. -/
theorem generations_bounded {keep : Nat} {before after : Directory}
    (hothers : ∀ name, name ≠ logName path → (∀ i < keep, name ≠ keptName path i) →
      content after name = content before name) :
    (generations path after).ncard ≤ keep + 1 + (beyond path keep before).ncard := by
  have hsub : generations path after ⊆
      insert (logName path) (keptName path '' (Set.Iio keep)) ∪ beyond path keep before := by
    rintro name ⟨rfl | ⟨i, rfl⟩, hstored⟩
    · exact .inl (Set.mem_insert _ _)
    · by_cases hi : i < keep
      · exact .inl (Set.mem_insert_of_mem _ ⟨i, hi, rfl⟩)
      · refine .inr ⟨⟨i, by omega, rfl⟩, ?_⟩
        rwa [hothers _ keptName_ne_logName fun j hj h => by
          have := keptName_injective h
          omega] at hstored
  have hkept : (keptName path '' (Set.Iio keep)).Finite := (Set.finite_Iio keep).image _
  have hbeyond : (beyond path keep before).Finite := (stored_finite before).subset fun _ h => h.2
  calc (generations path after).ncard
      ≤ (insert (logName path) (keptName path '' (Set.Iio keep)) ∪ beyond path keep before).ncard :=
        Set.ncard_le_ncard hsub ((hkept.insert _).union hbeyond)
    _ ≤ (insert (logName path) (keptName path '' (Set.Iio keep))).ncard +
          (beyond path keep before).ncard := Set.ncard_union_le _ _
    _ ≤ ((keptName path '' (Set.Iio keep)).ncard + 1) + (beyond path keep before).ncard :=
        Nat.add_le_add_right (Set.ncard_insert_le _ _) _
    _ ≤ keep + 1 + (beyond path keep before).ncard := by
        have himage := Set.ncard_image_le (f := keptName path) (Set.finite_Iio keep)
        have hcount : (Set.Iio keep).ncard = keep := by
          rw [← Finset.coe_Iio, Set.ncard_coe_finset, Nat.card_Iio]
        omega

/-- A rotation ages every kept log by one and changes nothing else. -/
theorem file_rotate_rotates (path : List Char) (keep : Nat) (files : Directory) (pos : 1 ≤ keep)
    (hkeep : keep ≤ 2 ^ 31) :
    ∃ after, fileRotate path keep files = some after ∧ Rotated path keep files after := by
  obtain ⟨hkept, hlog, hothers⟩ := content_rotateLoop path keep files
  have hopen := content_fopenAppend (rotateLoop path keep files) (logName path)
  rw [hlog pos] at hopen
  have hrest : ∀ name, name ≠ logName path → (∀ i < keep, name ≠ keptName path i) →
      content (bflogcFopenAppend (rotateLoop path keep files) (logName path)) name =
        content files name := by
    intro name hname hnot
    rw [hopen, Function.update_of_ne hname]
    exact hothers name hname hnot
  refine ⟨_, fileRotate_eq pos hkeep, ?_⟩
  constructor
  case current =>
    rw [hopen, Function.update_self]
    rfl
  case newest =>
    rw [hopen, Function.update_of_ne keptName_ne_logName]
    exact hkept 0 pos
  case older =>
    intro i hi hlt
    rw [hopen, Function.update_of_ne keptName_ne_logName, hkept i hlt, oldName, if_neg (by omega)]
  case others => exact hrest
  case bounded => exact generations_bounded hrest

/-- A current log, the newest kept one and one of number 3. -/
def threeLogs : Directory := [(logName ['a'], [1]), (keptName ['a'] 0, [2]), (keptName ['a'] 3, [3])]

theorem file_rotate_threeLogs :
    ∃ after, fileRotate ['a'] 2 threeLogs = some after ∧ Rotated ['a'] 2 threeLogs after :=
  file_rotate_rotates ['a'] 2 threeLogs (by decide) (by decide)

/-- With one log to keep, number 1 is not made of number 0, and number 3 stays
as a third generation. -/
theorem one_kept_of_three :
    ∃ after, fileRotate ['a'] 1 threeLogs = some after ∧
      content threeLogs (keptName ['a'] 0) = some [2] ∧
      content after (keptName ['a'] 1) = none ∧
      ¬ (generations ['a'] after).ncard ≤ 1 + 1 := by
  have hmade : fileRotate ['a'] 1 threeLogs = some
      [(keptName ['a'] 3, [3]), (keptName ['a'] 0, [1]), (logName ['a'], [])] := by decide +kernel
  refine ⟨_, hmade, by decide +kernel, by decide +kernel, fun hle => ?_⟩
  have hthree : (({logName ['a'], keptName ['a'] 0, keptName ['a'] 3} : Finset (List Char)) :
      Set (List Char)) ⊆ generations ['a']
        [(keptName ['a'] 3, [3]), (keptName ['a'] 0, [1]), (logName ['a'], [])] := by
    intro name hname
    simp only [Finset.coe_insert, Finset.coe_singleton, Set.mem_insert_iff,
      Set.mem_singleton_iff] at hname
    rcases hname with rfl | rfl | rfl
    · exact ⟨.inl rfl, by decide +kernel⟩
    · exact ⟨.inr ⟨0, rfl⟩, by decide +kernel⟩
    · exact ⟨.inr ⟨3, rfl⟩, by decide +kernel⟩
  have hcount := Set.ncard_le_ncard hthree ((stored_finite _).subset fun _ h => h.2)
  rw [Set.ncard_coe_finset] at hcount
  have hcard : ({logName ['a'], keptName ['a'] 0, keptName ['a'] 3} : Finset (List Char)).card = 3 := by
    decide +kernel
  omega

end BouffaloSdk.Bflog
