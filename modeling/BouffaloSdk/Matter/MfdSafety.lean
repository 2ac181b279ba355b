import BouffaloSdk.Matter.Mfd
import Mathlib.Data.List.Perm.Subperm

/-!
# When parsing the factory data is safe

An area is walked element by element. What each of them may do follows from the elements alone
and from which allocations succeed, and so does when everything is in its place and no heap copy
is lost.
-/

namespace BouffaloSdk.Mfd
open Kit

/-! ## The elements of an area -/

/-- The elements from `offset` on, as the loop comes to them. -/
def elementsFrom (a : Area) : (fuel offset : Nat) → List ElementTlv
  | 0, _ => []
  | fuel + 1, offset =>
    if offset + headSize < a.size then
      let t := ElementTlv.ofHead offset (slice a.mem offset headSize)
      t :: elementsFrom a fuel t.next
    else []

def Area.elements (a : Area) : List ElementTlv := elementsFrom a (a.size + 1) 0

/-- The `k`th allocation is made, or none is needed. -/
def Area.gets (a : Area) (alloc : Nat → Bool) (k : Nat) : Bool := a.flashAt.isSome || alloc k

/-- The number of heap copies after the next element. -/
def Area.copies (a : Area) (k : Nat) : Nat := if a.flashAt.isSome then k else k + 1

/-- No element up to the one whose allocation fails has the last type id, and the values end
in the area; vectors may run on as far as there are bytes. -/
def Right (alloc : Nat → Bool) (a : Area) : Nat → List ElementTlv → Prop
  | _, [] => True
  | k, t :: ts =>
    if t.isElement then
      t.id ≠ elementTypeElementEnd ∧
        (a.gets alloc k → t.valueAt + t.valueLen ≤ a.size ∧ Right alloc a (a.copies k) ts)
    else (t.isIv → t.valueAt + t.valueLen ≤ a.mem.length) ∧ Right alloc a k ts

instance decidableRight (alloc : Nat → Bool) (a : Area) :
    (k : Nat) → (ts : List ElementTlv) → Decidable (Right alloc a k ts)
  | _, [] => isTrue trivial
  | k, t :: ts =>
    have := decidableRight alloc a (a.copies k) ts
    have := decidableRight alloc a k ts
    inferInstanceAs (Decidable (if t.isElement then _ else _))

/-- Some allocation fails. -/
def fails (alloc : Nat → Bool) (a : Area) : Nat → List ElementTlv → Bool
  | _, [] => false
  | k, t :: ts =>
    if t.isElement then if a.gets alloc k then fails alloc a (a.copies k) ts else true
    else fails alloc a k ts

/-- The types of the elements up to the one whose allocation fails. -/
def tried (alloc : Nat → Bool) (a : Area) : Nat → List ElementTlv → List Nat
  | _, [] => []
  | k, t :: ts =>
    if t.isElement then
      t.id :: if a.gets alloc k then tried alloc a (a.copies k) ts else []
    else tried alloc a k ts

/-- The vector after the elements. -/
def vectorOf (a : Area) (iv : List UInt8) (ts : List ElementTlv) : List UInt8 :=
  ts.foldl (fun iv t => if t.isIv then slice a.mem t.valueAt t.valueLen else iv) iv

/-! ## What must hold, and when it does -/

def Factory.cipherSize (f : Factory) : Nat := f.word 0

/-- Where the plain data starts. -/
def Factory.plainStart (f : Factory) : Nat := 4 + f.cipherSize + 4 + 4

def Factory.plaintextSize (f : Factory) : Nat := f.word (4 + f.cipherSize + 4)

/-- A stored pair lies in the plain data or in its own copy of some of the decrypted data. -/
def Placed (f : Factory) (blocks : List Block) : Ptr × Nat → Prop
  | (.flash addr, len) =>
    f.plainStart ≤ addr ∧ addr + len ≤ f.plainStart + f.plaintextSize
  | (.heap k, len) =>
    ∃ b, blocks[k]? = some b ∧ len ≤ b.bytes.length ∧ b.source + b.bytes.length ≤ f.cipherSize

/-- The call ends and no access goes astray; every pair stored is in its place; and where the
result is false each heap copy has been freed once and the items are empty. -/
def Safe (f : Factory) (iv : List UInt8) : Prop :=
  ∃ ok s, f.mfdInit iv = some (ok, s) ∧ (∀ pair ∈ s.stored, Placed f s.blocks pair) ∧
    (ok = false → s.freed.Perm (List.range s.blocks.length) ∧ ∀ e ∈ s.item, e = .empty)

/-- The areas are those that the code asks for. -/
def Factory.sizesAccepted (f : Factory) : Prop :=
  8 ≤ f.cipherSize + f.plaintextSize ∧ f.cipherSize + f.plaintextSize ≤ 4096

def Factory.cipherAccepted (f : Factory) : Prop :=
  f.cipherSize = 0 ∨ bflbSoftCrc32 (slice f.partition 4 f.cipherSize) = f.word (4 + f.cipherSize) ∧
    f.cipherSize ≤ blMfdDecryptBufLen

def Factory.plainAccepted (f : Factory) : Prop :=
  bflbSoftCrc32 (slice f.partition f.plainStart f.plaintextSize) =
    f.word (f.plainStart + f.plaintextSize)

def Factory.plain (f : Factory) : Area := f.plainArea f.cipherSize f.plaintextSize

/-- The vector that the plain data gives. -/
def Factory.vector (f : Factory) (iv : List UInt8) : List UInt8 :=
  vectorOf f.plain iv f.plain.elements

/-- The decrypted data is right, and where an allocation fails or an element of the minimal
set is in neither area no type occurs twice in it. -/
def Factory.DecryptedRight (f : Factory) (buf : List UInt8) : Prop :=
  let a := bufferArea buf f.cipherSize
  Right f.alloc a 0 a.elements ∧
    (fails f.alloc a 0 a.elements ∨
        (∃ id ∈ minimalDataSet,
          id ∉ tried f.alloc f.plain 0 f.plain.elements ∧ id ∉ tried f.alloc a 0 a.elements) →
      (tried f.alloc a 0 a.elements).Nodup)

instance decidableDecryptedRight (f : Factory) (buf : List UInt8) :
    Decidable (f.DecryptedRight buf) :=
  inferInstanceAs (Decidable (_ ∧ (_ ∨ (∃ id ∈ minimalDataSet, _ ∧ _) → _)))

/-- The sizes lie in the partition and do not wrap. If they are accepted, and the cipher data
is, the plain data and its CRC lie in the partition. If that is right, so are the elements. -/
def Factory.WellFormed (f : Factory) (iv : List UInt8) : Prop :=
  f.active → f.aboveImage →
    f.plainStart ≤ f.partition.length ∧ f.cipherSize + f.plaintextSize < 2 ^ 32 ∧
      (f.sizesAccepted → f.cipherAccepted →
        f.plainStart + f.plaintextSize + 4 ≤ f.partition.length ∧
          (f.plainAccepted →
            Right f.alloc f.plain 0 f.plain.elements ∧
              (f.cipherSize ≠ 0 →
                ∀ buf, f.decrypt (slice f.partition 4 f.cipherSize) (f.vector iv) = some buf →
                  f.DecryptedRight buf)))

/-! ## One element -/

variable {alloc : Nat → Bool} {a : Area} {t : ElementTlv} {ts : List ElementTlv}
variable {s s' : MfdVar} {f : Factory} {iv : List UInt8} {ok : Bool} {k : Nat}

def MfdVar.takeIv (s : MfdVar) (a : Area) (t : ElementTlv) : MfdVar :=
  { s with iv := slice a.mem t.valueAt t.valueLen }

def MfdVar.place (s : MfdVar) (base : Nat) (t : ElementTlv) : MfdVar :=
  { s with
    item := s.item.set (t.id - elementTypeElementStart) ⟨some (.flash (base + t.valueAt)), t.valueLen⟩
    stored := s.stored ++ [(.flash (base + t.valueAt), t.valueLen)] }

def MfdVar.copy (s : MfdVar) (a : Area) (t : ElementTlv) : MfdVar :=
  { s with
    item := s.item.set (t.id - elementTypeElementStart) ⟨some (.heap s.blocks.length), t.valueLen⟩
    blocks := s.blocks ++ [⟨t.valueAt, slice a.mem t.valueAt t.valueLen⟩]
    stored := s.stored ++ [(.heap s.blocks.length, t.valueLen)] }

def MfdVar.refuse (s : MfdVar) (t : ElementTlv) : MfdVar :=
  { s with
    item := s.item.set (t.id - elementTypeElementStart)
      { s.item.getD (t.id - elementTypeElementStart) .empty with valuePtr := none } }

theorem isElement_iff : t.isElement = true ↔
    elementTypeElementStart ≤ t.id ∧ t.id ≤ elementTypeElementEnd ∧ t.valueLen ≠ 0 := by
  unfold ElementTlv.isElement
  exact decide_eq_true_iff

theorem id_of_isIv (h : t.isIv = true) : t.id = elementTypeEfuseAesIv := by
  unfold ElementTlv.isIv at h
  exact (decide_eq_true_iff.mp h).1

theorem not_element_of_iv (h : t.id = elementTypeEfuseAesIv) : t.isElement = false := by
  rw [Bool.eq_false_iff]
  intro helement
  have hlow := (isElement_iff.mp helement).1
  rw [h] at hlow
  exact absurd hlow (by decide)

/-- The index of an element is one of the items just when its type is not the last. -/
theorem index_lt (hitem : s.item.length = elementTypeNum) (h : t.isElement = true) :
    t.id - elementTypeElementStart < s.item.length ↔ t.id ≠ elementTypeElementEnd := by
  obtain ⟨hlow, hhigh, -⟩ := isElement_iff.mp h
  rw [hitem]
  unfold elementTypeNum elementTypeElementEnd elementTypeElementStart at *
  omega

theorem parseTlv_other (h : t.isElement = false) :
    parseTlv alloc a t s =
      if t.isIv then
        if t.valueAt + t.valueLen ≤ a.mem.length then some (true, s.takeIv a t) else none
      else some (true, s) := by
  unfold parseTlv
  by_cases hid : t.id = elementTypeEfuseAesIv
  · rw [if_pos hid]
    cases hiv : t.isIv with
    | true =>
      rw [if_pos rfl, if_pos rfl]
      unfold readSlice
      split <;> rfl
    | false => rfl
  · rw [if_neg hid, if_neg (by rw [h]; simp)]
    have hiv : ¬ t.isIv = true := fun hiv => hid (id_of_isIv hiv)
    rw [if_neg hiv]

theorem parseTlv_element (h : t.isElement = true) :
    parseTlv alloc a t s = storeElement alloc a t s := by
  have hid : t.id ≠ elementTypeEfuseAesIv := by
    intro hid
    rw [not_element_of_iv hid] at h
    cases h
  unfold parseTlv
  rw [if_neg hid, if_pos h]

/-- An element of the last type lies behind the items. -/
theorem storeElement_last (hitem : s.item.length = elementTypeNum) (h : t.isElement = true)
    (hid : t.id = elementTypeElementEnd) : storeElement alloc a t s = none := by
  have hindex : ¬ t.id - elementTypeElementStart < s.item.length := by
    rw [index_lt hitem h]
    exact not_not.mpr hid
  have hset : ∀ e, s.setItem (t.id - elementTypeElementStart) e = none := fun e => if_neg hindex
  unfold storeElement
  cases a.flashAt with
  | some base => simp only [hset, Option.map_none]
  | none =>
    simp only [hset, Option.map_none]
    split
    · cases readSlice a.mem t.valueAt t.valueLen <;> rfl
    · rfl

variable (alloc a) in
theorem storeElement_eq (hitem : s.item.length = elementTypeNum) (h : t.isElement = true)
    (hid : t.id ≠ elementTypeElementEnd) :
    storeElement alloc a t s =
      match a.flashAt with
      | some base => some (true, s.place base t)
      | none =>
        if alloc s.blocks.length then
          if t.valueAt + t.valueLen ≤ a.mem.length then some (true, s.copy a t) else none
        else some (false, s.refuse t) := by
  have hset : ∀ e, s.setItem (t.id - elementTypeElementStart) e =
      some { s with item := s.item.set (t.id - elementTypeElementStart) e } :=
    fun e => if_pos ((index_lt hitem h).mpr hid)
  unfold storeElement
  cases a.flashAt with
  | some base =>
    simp only [hset, Option.map_some]
    rfl
  | none =>
    simp only [hset, Option.map_some]
    unfold readSlice
    split
    · split <;> rfl
    · rfl

/-! ## All elements -/

/-- The loop, element by element. -/
def parseAll (alloc : Nat → Bool) (a : Area) : List ElementTlv → MfdVar → Option (Bool × MfdVar)
  | [], s => some (true, s)
  | t :: ts, s =>
    (parseTlv alloc a t s).bind fun (ok, s) => if ok then parseAll alloc a ts s else some (false, s)

theorem parseAll_cons (alloc : Nat → Bool) (a : Area) (t : ElementTlv) (ts : List ElementTlv)
    (s : MfdVar) :
    parseAll alloc a (t :: ts) s = (parseTlv alloc a t s).bind fun r =>
      if r.1 then parseAll alloc a ts r.2 else some (false, r.2) := rfl

/-- A header that the loop reads lies in its area, and each turn goes on by at least one. -/
theorem mfdParsePartitionData_eq (hsize : a.size ≤ a.mem.length) {fuel offset : Nat}
    (hfuel : a.size - offset < fuel) :
    mfdParsePartitionData alloc a fuel offset s = parseAll alloc a (elementsFrom a fuel offset) s := by
  induction fuel generalizing offset s with
  | zero => omega
  | succ fuel ih =>
    rw [mfdParsePartitionData, elementsFrom]
    by_cases hmore : offset + headSize < a.size
    · have hread : readSlice a.mem offset headSize = some (slice a.mem offset headSize) :=
        readSlice_eq (by omega)
      rw [if_pos hmore, if_pos hmore, hread, Option.bind_some]
      dsimp only
      rw [parseAll_cons]
      congr 1
      funext r
      have hnext : a.size - (ElementTlv.ofHead offset (slice a.mem offset headSize)).next < fuel := by
        have hpast : offset + headSize ≤ (ElementTlv.ofHead offset (slice a.mem offset headSize)).next :=
          Nat.add_le_add_left (Nat.le_add_right _ _) _
        unfold headSize at *
        omega
      obtain ⟨ok, s₁⟩ := r
      cases ok with
      | true => exact ih hnext
      | false => rfl
    · rw [if_neg hmore, if_neg hmore]
      rfl

theorem parseAll_cons_of_none (h : parseTlv alloc a t s = none) :
    parseAll alloc a (t :: ts) s = none := by
  rw [parseAll_cons, h]
  rfl

theorem parseAll_cons_of_ok {s₁ : MfdVar} (h : parseTlv alloc a t s = some (true, s₁)) :
    parseAll alloc a (t :: ts) s = parseAll alloc a ts s₁ := by
  rw [parseAll_cons, h]
  rfl

theorem parseAll_cons_of_refused {s₁ : MfdVar} (h : parseTlv alloc a t s = some (false, s₁)) :
    parseAll alloc a (t :: ts) s = some (false, s₁) := by
  rw [parseAll_cons, h]
  rfl

/-- The area is one of the two that are parsed. -/
inductive AreaOf (f : Factory) : Area → Prop
  | plain (mem : List UInt8) : AreaOf f ⟨some f.plainStart, mem, f.plaintextSize⟩
  | buffer (mem : List UInt8) : AreaOf f ⟨none, mem, f.cipherSize⟩

/-- A state with all its items, whose pairs are in their places and point to copies made. -/
structure Kept (f : Factory) (s : MfdVar) : Prop where
  item : s.item.length = elementTypeNum
  known : ∀ k len, (Ptr.heap k, len) ∈ s.stored → k < s.blocks.length

def AllPlaced (f : Factory) (s : MfdVar) : Prop := ∀ pair ∈ s.stored, Placed f s.blocks pair

/-- More copies change nothing for a pair. -/
theorem placed_grown {blocks blocks' : List Block} (hgrown : blocks <+: blocks')
    {pair : Ptr × Nat} (hknown : ∀ k, pair.1 = .heap k → k < blocks.length) :
    Placed f blocks' pair ↔ Placed f blocks pair := by
  obtain ⟨ptr, len⟩ := pair
  cases ptr with
  | flash addr => exact Iff.rfl
  | heap k =>
    obtain ⟨more, rfl⟩ := hgrown
    simp only [Placed, List.getElem?_append_left (hknown k rfl)]

/-- Pairs and copies only come to the ends of their lists. -/
structure Grows (s s' : MfdVar) : Prop where
  stored : s.stored <+: s'.stored
  blocks : s.blocks <+: s'.blocks

theorem Grows.refl (s : MfdVar) : Grows s s := ⟨List.prefix_refl _, List.prefix_refl _⟩

theorem Grows.trans {s₁ : MfdVar} (h : Grows s s₁) (h' : Grows s₁ s') : Grows s s' :=
  ⟨h.stored.trans h'.stored, h.blocks.trans h'.blocks⟩

theorem allPlaced_of_grows (kept : Kept f s) (h : Grows s s') (placed : AllPlaced f s') :
    AllPlaced f s := by
  rintro ⟨ptr, len⟩ hpair
  refine (placed_grown h.blocks ?_).mp (placed _ (h.stored.subset hpair))
  rintro k rfl
  exact kept.known k len hpair

theorem Kept.place (kept : Kept f s) (base : Nat) (t : ElementTlv) : Kept f (s.place base t) := by
  refine ⟨(List.length_set ..).trans kept.item, fun k len hpair => ?_⟩
  rcases List.mem_append.mp hpair with hold | hnew
  · exact kept.known k len hold
  · cases List.mem_singleton.mp hnew

theorem Kept.copy (kept : Kept f s) (a : Area) (t : ElementTlv) : Kept f (s.copy a t) := by
  refine ⟨(List.length_set ..).trans kept.item, fun k len hpair => ?_⟩
  have hmore : (s.copy a t).blocks.length = s.blocks.length + 1 := List.length_append
  rcases List.mem_append.mp hpair with hold | hnew
  · exact Nat.lt_of_lt_of_eq (Nat.lt_succ_of_lt (kept.known k len hold)) hmore.symm
  · cases List.mem_singleton.mp hnew
    exact Nat.lt_of_lt_of_eq (Nat.lt_succ_self _) hmore.symm

theorem Kept.refuse (kept : Kept f s) (t : ElementTlv) : Kept f (s.refuse t) :=
  ⟨(List.length_set ..).trans kept.item, kept.known⟩

theorem grows_place (s : MfdVar) (base : Nat) (t : ElementTlv) : Grows s (s.place base t) :=
  ⟨List.prefix_append _ _, List.prefix_refl _⟩

theorem grows_copy (s : MfdVar) (a : Area) (t : ElementTlv) : Grows s (s.copy a t) :=
  ⟨List.prefix_append _ _, List.prefix_append _ _⟩

/-- What an element does to the state. -/
inductive Parsed (alloc : Nat → Bool) (a : Area) (t : ElementTlv) (s : MfdVar) : Bool → MfdVar → Prop
  | passed (other : t.isElement = false) (iv : t.isIv = false) : Parsed alloc a t s true s
  | vector (other : t.isElement = false) (iv : t.isIv = true)
      (inside : t.valueAt + t.valueLen ≤ a.mem.length) : Parsed alloc a t s true (s.takeIv a t)
  | placed (base : Nat) (element : t.isElement = true) (id : t.id ≠ elementTypeElementEnd)
      (flash : a.flashAt = some base) : Parsed alloc a t s true (s.place base t)
  | copied (element : t.isElement = true) (id : t.id ≠ elementTypeElementEnd)
      (buffer : a.flashAt = none) (got : alloc s.blocks.length = true)
      (inside : t.valueAt + t.valueLen ≤ a.mem.length) : Parsed alloc a t s true (s.copy a t)
  | refused (element : t.isElement = true) (id : t.id ≠ elementTypeElementEnd)
      (buffer : a.flashAt = none) (got : alloc s.blocks.length = false) :
      Parsed alloc a t s false (s.refuse t)

theorem parsed_of_parseTlv (hitem : s.item.length = elementTypeNum)
    (h : parseTlv alloc a t s = some (ok, s')) : Parsed alloc a t s ok s' := by
  cases helement : t.isElement with
  | false =>
    rw [parseTlv_other helement] at h
    split at h
    · rename_i hiv
      split at h
      · rename_i hinside
        cases h
        exact .vector helement hiv hinside
      · cases h
    · rename_i hiv
      cases h
      exact .passed helement (Bool.eq_false_iff.mpr hiv)
  | true =>
    rw [parseTlv_element helement] at h
    by_cases hid : t.id = elementTypeElementEnd
    · rw [storeElement_last hitem helement hid] at h
      cases h
    · rw [storeElement_eq alloc a hitem helement hid] at h
      split at h
      · rename_i base hflash
        cases h
        exact .placed base helement hid hflash
      · rename_i hbuffer
        split at h
        · rename_i hgot
          split at h
          · rename_i hinside
            cases h
            exact .copied helement hid hbuffer hgot hinside
          · cases h
        · rename_i hgot
          cases h
          exact .refused helement hid hbuffer (Bool.eq_false_iff.mpr hgot)

theorem Parsed.kept (h : Parsed alloc a t s ok s') (kept : Kept f s) : Kept f s' ∧ Grows s s' := by
  cases h with
  | passed => exact ⟨kept, Grows.refl _⟩
  | vector => exact ⟨⟨kept.item, kept.known⟩, ⟨List.prefix_refl _, List.prefix_refl _⟩⟩
  | placed base => exact ⟨kept.place base t, grows_place _ base t⟩
  | copied => exact ⟨kept.copy a t, grows_copy _ a t⟩
  | refused => exact ⟨kept.refuse t, ⟨List.prefix_refl _, List.prefix_refl _⟩⟩

theorem parseAll_kept (kept : Kept f s) (h : parseAll alloc a ts s = some (ok, s')) :
    Kept f s' ∧ Grows s s' := by
  induction ts generalizing s with
  | nil =>
    cases h
    exact ⟨kept, Grows.refl _⟩
  | cons t ts ih =>
    cases hstep : parseTlv alloc a t s with
    | none =>
      rw [parseAll_cons_of_none hstep] at h
      cases h
    | some r =>
      obtain ⟨ok₁, s₁⟩ := r
      obtain ⟨kept₁, grows₁⟩ := (parsed_of_parseTlv kept.item hstep).kept kept
      cases ok₁ with
      | true =>
        rw [parseAll_cons_of_ok hstep] at h
        obtain ⟨kept', grows'⟩ := ih kept₁ h
        exact ⟨kept', grows₁.trans grows'⟩
      | false =>
        rw [parseAll_cons_of_refused hstep] at h
        cases h
        exact ⟨kept₁, grows₁⟩

theorem right_cons_element (h : t.isElement = true) :
    Right alloc a k (t :: ts) ↔ t.id ≠ elementTypeElementEnd ∧
      (a.gets alloc k → t.valueAt + t.valueLen ≤ a.size ∧ Right alloc a (a.copies k) ts) := by
  rw [Right, if_pos h]

theorem right_cons_other (h : t.isElement = false) :
    Right alloc a k (t :: ts) ↔
      (t.isIv → t.valueAt + t.valueLen ≤ a.mem.length) ∧ Right alloc a k ts := by
  rw [Right, if_neg (by simp [h])]

theorem not_placed {ts : List ElementTlv} {s₁ : MfdVar} (kept₁ : Kept f s₁)
    (hbad : ¬ AllPlaced f s₁) :
    ¬ ∃ ok s', parseAll alloc a ts s₁ = some (ok, s') ∧ AllPlaced f s' := by
  rintro ⟨ok, s', hrun, placed⟩
  exact hbad (allPlaced_of_grows kept₁ (parseAll_kept kept₁ hrun).2 placed)

/-- A pair more is in its place or not. -/
theorem allPlaced_iff_of_append {s₁ : MfdVar} {pair : Ptr × Nat} (kept : Kept f s)
    (placed : AllPlaced f s) (hblocks : s.blocks <+: s₁.blocks)
    (hstored : s₁.stored = s.stored ++ [pair]) : AllPlaced f s₁ ↔ Placed f s₁.blocks pair := by
  constructor
  · intro h
    exact h pair (by rw [hstored]; exact List.mem_append_right _ List.mem_cons_self)
  · rintro h ⟨ptr, len⟩ hpair
    rw [hstored] at hpair
    rcases List.mem_append.mp hpair with hold | hnew
    · refine (placed_grown hblocks ?_).mpr (placed _ hold)
      rintro k rfl
      exact kept.known k len hold
    · rw [List.mem_singleton.mp hnew]
      exact h

theorem allPlaced_place (kept : Kept f s) (placed : AllPlaced f s) (t : ElementTlv) :
    AllPlaced f (s.place f.plainStart t) ↔ t.valueAt + t.valueLen ≤ f.plaintextSize := by
  have hpair : AllPlaced f (s.place f.plainStart t) ↔
      Placed f s.blocks (.flash (f.plainStart + t.valueAt), t.valueLen) :=
    allPlaced_iff_of_append kept placed (List.prefix_refl _) rfl
  rw [hpair]
  unfold Placed
  constructor
  · rintro ⟨-, h⟩
    omega
  · intro h
    exact ⟨Nat.le_add_right _ _, by omega⟩

theorem allPlaced_copy (kept : Kept f s) (placed : AllPlaced f s)
    (hinside : t.valueAt + t.valueLen ≤ a.mem.length) :
    AllPlaced f (s.copy a t) ↔ t.valueAt + t.valueLen ≤ f.cipherSize := by
  have hlast : (s.copy a t).blocks[s.blocks.length]? =
      some ⟨t.valueAt, slice a.mem t.valueAt t.valueLen⟩ := by
    show (s.blocks ++ _)[s.blocks.length]? = _
    rw [List.getElem?_append_right (Nat.le_refl _), Nat.sub_self]
    rfl
  have hlength : (slice a.mem t.valueAt t.valueLen).length = t.valueLen := length_slice hinside
  rw [allPlaced_iff_of_append kept placed (List.prefix_append _ _) rfl]
  simp only [Placed, hlast, Option.some.injEq, exists_eq_left', hlength, Nat.le_refl, true_and]

variable (alloc ts) in
/-- The parse of an area ends with every pair in its place just when its elements are right. -/
theorem parseAll_placed_iff (hof : AreaOf f a) (hsize : a.size ≤ a.mem.length) (kept : Kept f s)
    (placed : AllPlaced f s) :
    (∃ ok s', parseAll alloc a ts s = some (ok, s') ∧ AllPlaced f s') ↔
      Right alloc a s.blocks.length ts := by
  induction ts generalizing s with
  | nil => exact ⟨fun _ => trivial, fun _ => ⟨true, s, rfl, placed⟩⟩
  | cons t ts ih =>
    cases helement : t.isElement with
    | false =>
      rw [right_cons_other helement]
      cases hiv : t.isIv with
      | false =>
        have hstep : parseTlv alloc a t s = some (true, s) := by
          rw [parseTlv_other helement, hiv]
          rfl
        rw [parseAll_cons_of_ok hstep, ih kept placed]
        simp
      | true =>
        by_cases hinside : t.valueAt + t.valueLen ≤ a.mem.length
        · have hstep : parseTlv alloc a t s = some (true, s.takeIv a t) := by
            rw [parseTlv_other helement, hiv, if_pos rfl, if_pos hinside]
          have kept₁ : Kept f (s.takeIv a t) := ⟨kept.item, kept.known⟩
          rw [parseAll_cons_of_ok hstep, ih kept₁ placed]
          simp only [hinside, implies_true, true_and]
          rfl
        · have hstep : parseTlv alloc a t s = none := by
            rw [parseTlv_other helement, hiv, if_pos rfl, if_neg hinside]
          rw [parseAll_cons_of_none hstep]
          simp [hinside]
    | true =>
      rw [right_cons_element helement]
      by_cases hid : t.id = elementTypeElementEnd
      · have hstep : parseTlv alloc a t s = none := by
          rw [parseTlv_element helement, storeElement_last kept.item helement hid]
        rw [parseAll_cons_of_none hstep]
        simp [hid]
      have hstore := storeElement_eq alloc a kept.item helement hid
      cases hof with
      | plain mem =>
        have hstep : parseTlv alloc ⟨some f.plainStart, mem, f.plaintextSize⟩ t s =
            some (true, s.place f.plainStart t) := by
          rw [parseTlv_element helement, hstore]
        have kept₁ := kept.place f.plainStart t
        rw [parseAll_cons_of_ok hstep]
        by_cases hinside : t.valueAt + t.valueLen ≤ f.plaintextSize
        · rw [ih kept₁ ((allPlaced_place kept placed t).mpr hinside)]
          simp only [ne_eq, hid, not_false_eq_true, hinside, true_and, Area.gets, Area.copies,
            Option.isSome_some, Bool.true_or, if_true, forall_const]
          rfl
        · refine iff_of_false (not_placed kept₁ ?_) ?_
          · rw [allPlaced_place kept placed]
            exact hinside
          · rintro ⟨-, hright⟩
            exact hinside (hright rfl).1
      | buffer mem =>
        set a : Area := ⟨none, mem, f.cipherSize⟩
        have hstep : parseTlv alloc a t s =
            if alloc s.blocks.length then
              if t.valueAt + t.valueLen ≤ mem.length then some (true, s.copy a t) else none
            else some (false, s.refuse t) := by
          rw [parseTlv_element helement, hstore]
        have hgets : a.gets alloc s.blocks.length = alloc s.blocks.length := Bool.false_or _
        rw [hgets]
        cases hgot : alloc s.blocks.length with
        | false =>
          rw [hgot] at hstep
          rw [parseAll_cons_of_refused hstep]
          exact iff_of_true ⟨false, s.refuse t, rfl, placed⟩ ⟨hid, by simp⟩
        | true =>
          rw [hgot, if_pos rfl] at hstep
          by_cases hinside : t.valueAt + t.valueLen ≤ f.cipherSize
          · have hmem : t.valueAt + t.valueLen ≤ mem.length := Nat.le_trans hinside hsize
            have kept₁ := kept.copy a t
            have hcount : (s.copy a t).blocks.length = a.copies s.blocks.length :=
              List.length_append
            rw [if_pos hmem] at hstep
            rw [parseAll_cons_of_ok hstep, ih kept₁ ((allPlaced_copy kept placed hmem).mpr hinside),
              hcount]
            simp only [ne_eq, hid, not_false_eq_true, true_and, forall_const]
            exact ⟨fun h => ⟨hinside, h⟩, fun h => h.2⟩
          · refine iff_of_false ?_ fun h => hinside (h.2 rfl).1
            by_cases hmem : t.valueAt + t.valueLen ≤ mem.length
            · rw [if_pos hmem] at hstep
              rw [parseAll_cons_of_ok hstep]
              apply not_placed (kept.copy a t)
              rw [allPlaced_copy kept placed hmem]
              exact hinside
            · rw [if_neg hmem] at hstep
              rw [parseAll_cons_of_none hstep]
              simp

/-! ## What a parse leaves -/

/-- A parse that comes to its end or to an allocation that fails. -/
inductive ParsedAll (alloc : Nat → Bool) (a : Area) :
    List ElementTlv → MfdVar → Bool → MfdVar → Prop
  | done (s : MfdVar) : ParsedAll alloc a [] s true s
  | turn {t : ElementTlv} {ts : List ElementTlv} {s s₁ s' : MfdVar} {ok : Bool}
      (first : Parsed alloc a t s true s₁) (rest : ParsedAll alloc a ts s₁ ok s') :
      ParsedAll alloc a (t :: ts) s ok s'
  | stop {t : ElementTlv} {s s' : MfdVar} (ts : List ElementTlv)
      (first : Parsed alloc a t s false s') : ParsedAll alloc a (t :: ts) s false s'

theorem parsedAll_of_parseAll (kept : Kept f s) (h : parseAll alloc a ts s = some (ok, s')) :
    ParsedAll alloc a ts s ok s' := by
  induction ts generalizing s with
  | nil =>
    cases h
    exact .done _
  | cons t ts ih =>
    cases hstep : parseTlv alloc a t s with
    | none =>
      rw [parseAll_cons_of_none hstep] at h
      cases h
    | some r =>
      obtain ⟨ok₁, s₁⟩ := r
      have parsed := parsed_of_parseTlv kept.item hstep
      cases ok₁ with
      | true =>
        rw [parseAll_cons_of_ok hstep] at h
        exact .turn parsed (ih (parsed.kept kept).1 h)
      | false =>
        rw [parseAll_cons_of_refused hstep] at h
        cases h
        exact .stop ts parsed

theorem gets_of_flash {base : Nat} (h : a.flashAt = some base) : a.gets alloc k = true := by
  rw [Area.gets, h]
  rfl

theorem gets_of_buffer (h : a.flashAt = none) : a.gets alloc k = alloc k := by
  rw [Area.gets, h]
  rfl

theorem fails_turn {s₁ : MfdVar} (h : Parsed alloc a t s true s₁) :
    fails alloc a s.blocks.length (t :: ts) = fails alloc a s₁.blocks.length ts := by
  rw [fails]
  cases h with
  | passed other iv => rw [if_neg (by simp [other])]
  | vector other iv inside => exact if_neg (by simp [other])
  | placed base element id flash =>
    rw [if_pos element, gets_of_flash flash, if_pos rfl, Area.copies, flash]
    rfl
  | copied element id buffer got inside =>
    have hmore : (s.copy a t).blocks.length = s.blocks.length + 1 := List.length_append
    rw [if_pos element, gets_of_buffer buffer, got, if_pos rfl, Area.copies, buffer, hmore]
    rfl

theorem tried_turn {s₁ : MfdVar} (h : Parsed alloc a t s true s₁) :
    tried alloc a s.blocks.length (t :: ts) =
      (if t.isElement then [t.id] else []) ++ tried alloc a s₁.blocks.length ts := by
  rw [tried]
  cases h with
  | passed other iv => simp [other]
  | vector other iv inside =>
    rw [if_neg (by simp [other]), if_neg (by simp [other])]
    rfl
  | placed base element id flash =>
    rw [if_pos element, if_pos element, gets_of_flash flash, if_pos rfl, Area.copies, flash]
    rfl
  | copied element id buffer got inside =>
    have hmore : (s.copy a t).blocks.length = s.blocks.length + 1 := List.length_append
    rw [if_pos element, if_pos element, gets_of_buffer buffer, got, if_pos rfl, Area.copies, buffer,
      hmore]
    rfl

/-- The element whose allocation fails is the last one tried. -/
theorem stop_eq (h : Parsed alloc a t s false s') (ts : List ElementTlv) :
    fails alloc a s.blocks.length (t :: ts) = true ∧
      tried alloc a s.blocks.length (t :: ts) = [t.id] := by
  cases h with
  | refused element id buffer got =>
    constructor
    · rw [fails, if_pos element, gets_of_buffer buffer, got]
      rfl
    · rw [tried, if_pos element, gets_of_buffer buffer, got]
      rfl

theorem ParsedAll.ok_eq (h : ParsedAll alloc a ts s ok s') :
    ok = !fails alloc a s.blocks.length ts := by
  induction h with
  | done s => rfl
  | turn first rest ih => rw [fails_turn first, ih]
  | stop ts first => rw [(stop_eq first ts).1]; rfl

theorem Parsed.freed (h : Parsed alloc a t s ok s') : s'.freed = s.freed := by
  cases h <;> rfl

theorem ParsedAll.freed (h : ParsedAll alloc a ts s ok s') : s'.freed = s.freed := by
  induction h with
  | done s => rfl
  | turn first rest ih => rw [ih, first.freed]
  | stop ts first => exact first.freed

theorem ParsedAll.kept (h : ParsedAll alloc a ts s ok s') (kept : Kept f s) : Kept f s' := by
  induction h with
  | done s => exact kept
  | turn first rest ih => exact ih (first.kept kept).1
  | stop ts first => exact (first.kept kept).1

/-- The vector is that of the elements. -/
theorem ParsedAll.iv_eq (h : ParsedAll alloc a ts s ok s') (hok : ok = true) :
    s'.iv = vectorOf a s.iv ts := by
  induction h with
  | done s => rfl
  | @turn t ts s s₁ ok s' first rest ih =>
    have hfirst : s₁.iv = if t.isIv then slice a.mem t.valueAt t.valueLen else s.iv := by
      cases first with
      | passed other iv => rw [if_neg (by simp [iv])]
      | vector other iv inside => rw [if_pos iv]; rfl
      | placed base element id flash =>
        have hiv : t.isIv = false := Bool.eq_false_iff.mpr fun hiv => by
          rw [not_element_of_iv (id_of_isIv hiv)] at element
          cases element
        rw [if_neg (by simp [hiv])]
        rfl
      | copied element id buffer got inside =>
        have hiv : t.isIv = false := Bool.eq_false_iff.mpr fun hiv => by
          rw [not_element_of_iv (id_of_isIv hiv)] at element
          cases element
        rw [if_neg (by simp [hiv])]
        rfl
    rw [ih hok, hfirst]
    rfl
  | stop => cases hok

/-- The item of a type. -/
def MfdVar.itemOf (s : MfdVar) (id : Nat) : FactoryDataElement :=
  s.item.getD (id - elementTypeElementStart) .empty

theorem itemOf_set (s₁ : MfdVar) {e : FactoryDataElement} {id : Nat}
    (hitem : s.item.length = elementTypeNum) (h : t.isElement = true)
    (hlast : t.id ≠ elementTypeElementEnd) (hid : elementTypeElementStart ≤ id)
    (hset : s₁.item = s.item.set (t.id - elementTypeElementStart) e) :
    s₁.itemOf id = if id = t.id then e else s.itemOf id := by
  have hindex := (index_lt hitem h).mpr hlast
  have hlow := (isElement_iff.mp h).1
  unfold MfdVar.itemOf
  rw [hset, List.getD_eq_getElem?_getD, List.getElem?_set]
  by_cases hsame : id = t.id
  · subst hsame
    rw [if_pos rfl, if_pos rfl, if_pos hindex]
    rfl
  · rw [if_neg (by omega), if_neg hsame, List.getD_eq_getElem?_getD]

theorem present_turn {s₁ : MfdVar} {id : Nat} (hitem : s.item.length = elementTypeNum)
    (hid : elementTypeElementStart ≤ id) (h : Parsed alloc a t s true s₁) :
    (s₁.itemOf id).valuePtr.isSome ↔
      (s.itemOf id).valuePtr.isSome ∨ id ∈ if t.isElement then [t.id] else [] := by
  cases h with
  | passed other iv => simp [other]
  | vector other iv inside =>
    rw [if_neg (by simp [other])]
    simp [MfdVar.takeIv, MfdVar.itemOf]
  | placed base element last flash =>
    have hset := itemOf_set (s.place base t) hitem element last hid rfl
    rw [hset, if_pos element]
    split <;> simp [*]
  | copied element last buffer got inside =>
    have hset := itemOf_set (s.copy a t) hitem element last hid rfl
    rw [hset, if_pos element]
    split <;> simp [*]

/-- The items filled by a parse that comes to its end are those of the types tried. -/
theorem ParsedAll.present (h : ParsedAll alloc a ts s ok s') (hok : ok = true) {id : Nat}
    (kept : Kept f s) (hid : elementTypeElementStart ≤ id) :
    (s'.itemOf id).valuePtr.isSome ↔
      (s.itemOf id).valuePtr.isSome ∨ id ∈ tried alloc a s.blocks.length ts := by
  induction h with
  | done s => simp [tried]
  | turn first rest ih =>
    rw [ih hok (first.kept kept).1, present_turn kept.item hid first, tried_turn first,
      List.mem_append, or_assoc]
  | stop => cases hok

/-! ## The heap copies -/

/-- The heap copies that the items point to. -/
def MfdVar.held (s : MfdVar) : List Nat := s.item.filterMap FactoryDataElement.heapCopy

/-- Each heap copy made is held by one item. -/
def MfdVar.Owns (s : MfdVar) : Prop := Custody s.blocks.length s.held

/-- The items hold no more copies than have been made. -/
def MfdVar.Fair (s : MfdVar) : Prop := s.held.length ≤ s.blocks.length

/-- What the items hold when one of them is set. -/
theorem held_set (hitem : s.item.length = elementTypeNum) (h : t.isElement = true)
    (hlast : t.id ≠ elementTypeElementEnd) :
    ∃ others, s.held.Perm ((s.itemOf t.id).heapCopy.toList ++ others) ∧
      ∀ (s₁ : MfdVar) (e : FactoryDataElement), s₁.item = s.item.set (t.id - elementTypeElementStart) e →
        s₁.held.Perm (e.heapCopy.toList ++ others) := by
  have hindex := (index_lt hitem h).mpr hlast
  obtain ⟨others, hothers⟩ :=
    exists_perm_filterMap_set FactoryDataElement.heapCopy s.item hindex
  refine ⟨others, ?_, fun s₁ e hset => ?_⟩
  · have hsame := hothers (s.itemOf t.id)
    have hget : s.itemOf t.id = s.item[t.id - elementTypeElementStart] :=
      List.getD_eq_getElem _ _ hindex
    rw [hget, List.set_getElem_self] at hsame
    rw [hget]
    exact hsame
  · rw [MfdVar.held, hset]
    exact hothers e

/-- A copy keeps the custody just when the item pointed to none. -/
theorem owns_copy (fair : s.Fair) (hitem : s.item.length = elementTypeNum)
    (h : t.isElement = true) (hlast : t.id ≠ elementTypeElementEnd) (a : Area) :
    (s.copy a t).Fair ∧
      ((s.copy a t).Owns ↔ s.Owns ∧ (s.itemOf t.id).heapCopy = none) := by
  obtain ⟨others, hheld, hset⟩ := held_set hitem h hlast
  have hmore : (s.copy a t).blocks.length = s.blocks.length + 1 := List.length_append
  have hcopy : (s.copy a t).held.Perm (s.blocks.length :: others) :=
    hset (s.copy a t) ⟨some (.heap s.blocks.length), t.valueLen⟩ rfl
  have hlength := hcopy.length_eq
  have hlength' := hheld.length_eq
  rw [List.length_cons] at hlength
  rw [List.length_append] at hlength'
  unfold MfdVar.Fair at fair ⊢
  refine ⟨by omega, ?_⟩
  cases hold : (s.itemOf t.id).heapCopy with
  | none =>
    rw [hold] at hheld
    simp only [and_true]
    unfold MfdVar.Owns
    rw [hmore, Custody.perm_iff hcopy, Custody.issued_iff]
    exact (Custody.perm_iff hheld).symm
  | some k =>
    rw [hold, Option.toList_some, List.length_singleton] at hlength'
    refine iff_of_false (fun howns => ?_) (by simp)
    have hcustody := Custody.length howns
    omega

theorem owns_refuse (fair : s.Fair) (hitem : s.item.length = elementTypeNum)
    (h : t.isElement = true) (hlast : t.id ≠ elementTypeElementEnd) :
    (s.refuse t).Owns ↔ s.Owns ∧ (s.itemOf t.id).heapCopy = none := by
  obtain ⟨others, hheld, hset⟩ := held_set hitem h hlast
  have hrefuse : (s.refuse t).held.Perm others := hset (s.refuse t) _ rfl
  have hlength := hrefuse.length_eq
  have hlength' := hheld.length_eq
  rw [List.length_append] at hlength'
  unfold MfdVar.Fair at fair
  cases hold : (s.itemOf t.id).heapCopy with
  | none =>
    rw [hold] at hheld
    simp only [and_true]
    exact (Custody.perm_iff hrefuse).trans (Custody.perm_iff hheld).symm
  | some k =>
    rw [hold, Option.toList_some, List.length_singleton] at hlength'
    refine iff_of_false (fun howns => ?_) (by simp)
    have hcustody : (s.refuse t).held.length = s.blocks.length := Custody.length howns
    omega

theorem start_le_of_tried {id : Nat} (h : id ∈ tried alloc a k ts) : elementTypeElementStart ≤ id := by
  induction ts generalizing k with
  | nil => cases h
  | cons t ts ih =>
    rw [tried] at h
    split at h
    · rename_i helement
      rcases List.mem_cons.mp h with rfl | hrest
      · exact (isElement_iff.mp helement).1
      · split at hrest
        · exact ih hrest
        · cases hrest
    · exact ih h

/-- The copies of a buffer are all held at the end just when they were before, no type comes
twice and none of the types had a copy. -/
theorem ParsedAll.owns_iff (h : ParsedAll alloc a ts s ok s') (hbuffer : a.flashAt = none)
    (kept : Kept f s) (fair : s.Fair) :
    s'.Owns ↔ s.Owns ∧ (tried alloc a s.blocks.length ts).Nodup ∧
      ∀ id ∈ tried alloc a s.blocks.length ts, (s.itemOf id).heapCopy = none := by
  induction h with
  | done s => simp [tried]
  | @turn t ts s s₁ ok s' first rest ih =>
    have hih := ih (first.kept kept).1
    rw [tried_turn first]
    cases first with
    | passed other iv =>
      rw [if_neg (by simp [other]), List.nil_append]
      exact hih fair
    | vector other iv inside =>
      rw [if_neg (by simp [other]), List.nil_append]
      exact hih fair
    | placed base element last flash =>
      rw [hbuffer] at flash
      cases flash
    | copied element last buffer got inside =>
      obtain ⟨fair₁, howns⟩ := owns_copy fair kept.item element last a
      have hitems : ∀ id ∈ tried alloc a (s.copy a t).blocks.length ts,
          (((s.copy a t).itemOf id).heapCopy = none ↔
            id ≠ t.id ∧ (s.itemOf id).heapCopy = none) := by
        intro id hid
        have hset := itemOf_set (s.copy a t) kept.item element last (start_le_of_tried hid) rfl
        rw [hset]
        by_cases hsame : id = t.id
        · rw [if_pos hsame]
          simp [hsame, FactoryDataElement.heapCopy]
        · rw [if_neg hsame]
          simp [hsame]
      rw [hih fair₁, howns, if_pos element, List.singleton_append, List.nodup_cons]
      constructor
      · rintro ⟨⟨hs, hfree⟩, hnodup, hall⟩
        refine ⟨hs, ⟨fun hmem => ((hitems _ hmem).mp (hall _ hmem)).1 rfl, hnodup⟩, fun id hid => ?_⟩
        rcases List.mem_cons.mp hid with rfl | hid
        · exact hfree
        · exact ((hitems _ hid).mp (hall _ hid)).2
      · rintro ⟨hs, ⟨hnew, hnodup⟩, hall⟩
        refine ⟨⟨hs, hall _ List.mem_cons_self⟩, hnodup, fun id hid => ?_⟩
        refine (hitems id hid).mpr ⟨?_, hall id (List.mem_cons_of_mem _ hid)⟩
        rintro rfl
        exact hnew hid
  | stop ts first =>
    rw [(stop_eq first ts).2]
    cases first with
    | refused element last buffer got =>
      rw [owns_refuse fair kept.item element last]
      simp

theorem itemOf_of_held (h : s.held = []) (id : Nat) : (s.itemOf id).heapCopy = none := by
  unfold MfdVar.held at h
  rw [List.filterMap_eq_nil_iff] at h
  unfold MfdVar.itemOf
  rw [List.getD_eq_getElem?_getD]
  cases hget : s.item[id - elementTypeElementStart]? with
  | none => rfl
  | some e => exact h e (List.mem_of_getElem? hget)

/-- The plain data is not copied. -/
theorem ParsedAll.flash (h : ParsedAll alloc a ts s ok s') {base : Nat}
    (hflash : a.flashAt = some base) (kept : Kept f s) (hheld : s.held = []) :
    ok = true ∧ s'.blocks = s.blocks ∧ s'.held = [] := by
  induction h with
  | done s => exact ⟨rfl, rfl, hheld⟩
  | @turn t ts s s₁ ok s' first rest ih =>
    have kept₁ := (first.kept kept).1
    cases first with
    | passed other iv => exact ih kept₁ hheld
    | vector other iv inside => exact ih kept₁ hheld
    | placed base' element last flash =>
      obtain ⟨others, hall, hset⟩ := held_set kept.item element last
      rw [hheld] at hall
      obtain ⟨-, rfl⟩ := List.append_eq_nil_iff.mp hall.symm.eq_nil
      have hplaced : (s.place base' t).held.Perm [] := hset (s.place base' t) _ rfl
      obtain ⟨hok, hblocks, hheld'⟩ := ih kept₁ hplaced.eq_nil
      exact ⟨hok, hblocks, hheld'⟩
    | copied element last buffer got inside =>
      rw [hflash] at buffer
      cases buffer
  | stop ts first =>
    cases first with
    | refused element last buffer got =>
      rw [hflash] at buffer
      cases buffer

/-! ## The whole call -/

theorem readWord_eq {i : Nat} (h : i + 4 ≤ f.partition.length) : f.readWord i = some (f.word i) := by
  rw [Factory.readWord, readSlice_eq h]
  rfl

theorem readWord_none {i : Nat} (h : ¬ i + 4 ≤ f.partition.length) : f.readWord i = none := by
  rw [Factory.readWord, readSlice_none h]
  rfl

/-- The two size fields are read where the partition goes up to the plain data. -/
theorem mfdParseData_sizes (habove : f.aboveImage = true) (hstart : f.plainStart ≤ f.partition.length) :
    f.mfdParseData s =
      if 2 ^ 32 ≤ f.cipherSize + f.plaintextSize then none
      else if f.cipherSize + f.plaintextSize < 8 ∨ 4096 < f.cipherSize + f.plaintextSize then
        some (false, s)
      else
        (f.checkCipher f.cipherSize).bind fun right =>
          if ¬ right then some (false, s)
          else
            (readSlice f.partition f.plainStart f.plaintextSize).bind fun plain =>
              (f.readWord (f.plainStart + f.plaintextSize)).bind fun crc =>
                if bflbSoftCrc32 plain ≠ crc then some (false, s)
                else f.parseAreas f.cipherSize f.plaintextSize s := by
  have hfirst : f.readWord 0 = some f.cipherSize := by
    apply readWord_eq
    unfold Factory.plainStart at hstart
    omega
  have hsecond : f.readWord (4 + f.cipherSize + 4) = some f.plaintextSize := by
    apply readWord_eq
    unfold Factory.plainStart at hstart
    omega
  unfold Factory.mfdParseData
  rw [if_neg (by simp [habove]), hfirst, Option.bind_some, hsecond, Option.bind_some]
  rfl

theorem mfdParseData_none_of_start (habove : f.aboveImage = true)
    (hstart : ¬ f.plainStart ≤ f.partition.length) : f.mfdParseData s = none := by
  unfold Factory.mfdParseData
  rw [if_neg (by simp [habove])]
  by_cases hfour : 0 + 4 ≤ f.partition.length
  · have hsecond : f.readWord (4 + f.cipherSize + 4) = none := by
      apply readWord_none
      unfold Factory.plainStart at hstart
      omega
    have hfirst : f.readWord 0 = some f.cipherSize := readWord_eq hfour
    rw [hfirst, Option.bind_some, hsecond, Option.bind_none]
  · rw [readWord_none hfour, Option.bind_none]

/-- The result of the checks on the cipher data. -/
theorem checkCipher_eq (hstart : f.plainStart ≤ f.partition.length) :
    ∃ right, f.checkCipher f.cipherSize = some right ∧ (right = true ↔ f.cipherAccepted) := by
  unfold Factory.plainStart at hstart
  unfold Factory.checkCipher Factory.cipherAccepted
  by_cases hzero : f.cipherSize = 0
  · exact ⟨true, by rw [if_neg (not_not.mpr hzero)], by simp [hzero]⟩
  · have hword : f.readWord (4 + f.cipherSize) = some (f.word (4 + f.cipherSize)) :=
      readWord_eq (by omega)
    have hcipher := readSlice_eq (show 4 + f.cipherSize ≤ f.partition.length by omega)
    refine ⟨_, by rw [if_pos hzero, hcipher, Option.bind_some, hword, Option.map_some], ?_⟩
    simp [hzero]

theorem mfdParseData_areas (habove : f.aboveImage = true) (hstart : f.plainStart ≤ f.partition.length)
    (hwrap : f.cipherSize + f.plaintextSize < 2 ^ 32) (hsizes : f.sizesAccepted)
    (hcipher : f.cipherAccepted) :
    f.mfdParseData s =
      (readSlice f.partition f.plainStart f.plaintextSize).bind fun plain =>
        (f.readWord (f.plainStart + f.plaintextSize)).bind fun crc =>
          if bflbSoftCrc32 plain ≠ crc then some (false, s)
          else f.parseAreas f.cipherSize f.plaintextSize s := by
  obtain ⟨right, hcheck, hright⟩ := checkCipher_eq hstart
  obtain ⟨hlow, hhigh⟩ := hsizes
  rw [mfdParseData_sizes habove hstart, if_neg (by omega), if_neg (by omega), hcheck,
    Option.bind_some, if_neg (not_not.mpr (hright.mpr hcipher))]

theorem mfdParseData_refused (habove : f.aboveImage = true)
    (hstart : f.plainStart ≤ f.partition.length)
    (hwrap : f.cipherSize + f.plaintextSize < 2 ^ 32)
    (h : ¬ (f.sizesAccepted ∧ f.cipherAccepted)) : f.mfdParseData s = some (false, s) := by
  obtain ⟨right, hcheck, hright⟩ := checkCipher_eq hstart
  rw [mfdParseData_sizes habove hstart, if_neg (by omega)]
  by_cases hsizes : f.sizesAccepted
  · have hcipher : ¬ right = true := fun hr => h ⟨hsizes, hright.mp hr⟩
    obtain ⟨hlow, hhigh⟩ := hsizes
    rw [if_neg (by omega), hcheck, Option.bind_some, if_pos hcipher]
  · unfold Factory.sizesAccepted at hsizes
    rw [if_pos (by omega)]

/-- What must hold of the end of `mfd_parseData`. -/
def EndsRight (f : Factory) (r : Option (Bool × MfdVar)) : Prop :=
  ∃ ok s, r = some (ok, s) ∧ AllPlaced f s ∧
    ((ok && mfdCheckMinimalSet s) = false → (s.freed ++ s.held).Perm (List.range s.blocks.length))

theorem safe_iff_endsRight (hactive : f.active = true) :
    Safe f iv ↔ EndsRight f (f.mfdParseData (initialVar iv)) := by
  have hinit : f.mfdInit iv = (f.mfdParseData (initialVar iv)).map fun (ok, s) =>
      if ok ∧ mfdCheckMinimalSet s then (true, s) else (false, mfdFree s) :=
    if_neg (by simp [hactive])
  unfold Safe EndsRight
  rw [hinit]
  cases f.mfdParseData (initialVar iv) with
  | none => simp
  | some r =>
    obtain ⟨ok, s⟩ := r
    simp only [Option.map_some, Option.some.injEq, Prod.mk.injEq]
    cases hdone : ok && mfdCheckMinimalSet s with
    | true =>
      have hboth : ok = true ∧ mfdCheckMinimalSet s = true := by simpa using hdone
      rw [if_pos hboth]
      constructor
      · rintro ⟨ok', s', heq, hplaced, -⟩
        cases heq
        exact ⟨ok, s, ⟨rfl, rfl⟩, hplaced, by simp [hdone]⟩
      · rintro ⟨ok', s', ⟨rfl, rfl⟩, hplaced, -⟩
        exact ⟨true, s, rfl, hplaced, by simp⟩
    | false =>
      have hboth : ¬ (ok = true ∧ mfdCheckMinimalSet s = true) := by
        intro h
        simp [h.1, h.2] at hdone
      rw [if_neg hboth]
      constructor
      · rintro ⟨ok', s', heq, hplaced, hfree⟩
        cases heq
        exact ⟨ok, s, ⟨rfl, rfl⟩, hplaced, fun _ => (hfree rfl).1⟩
      · rintro ⟨ok', s', ⟨rfl, rfl⟩, hplaced, hfree⟩
        refine ⟨false, mfdFree s, rfl, hplaced, fun _ => ⟨hfree hdone, ?_⟩⟩
        intro e he
        obtain ⟨-, -, rfl⟩ := List.mem_map.mp he
        rfl

theorem initialVar_kept (f : Factory) (iv : List UInt8) : Kept f (initialVar iv) :=
  ⟨List.length_replicate, fun _ _ h => nomatch h⟩

theorem initialVar_allPlaced (f : Factory) (iv : List UInt8) : AllPlaced f (initialVar iv) :=
  fun _ h => nomatch h

theorem initialVar_held (iv : List UInt8) : (initialVar iv).held = [] := rfl

theorem endsRight_refused (f : Factory) (iv : List UInt8) :
    EndsRight f (some (false, initialVar iv)) :=
  ⟨false, initialVar iv, rfl, initialVar_allPlaced f iv, fun _ => List.Perm.refl _⟩

theorem not_initially (iv : List UInt8) (id : Nat) :
    ((initialVar iv).itemOf id).valuePtr.isSome = false := by
  have hall : ∀ i, ((initialVar iv).item.getD i .empty) = .empty := by
    intro i
    rw [List.getD_eq_getElem?_getD]
    cases hget : (initialVar iv).item[i]? with
    | none => rfl
    | some e => exact List.eq_of_mem_replicate (List.mem_of_getElem? hget)
  unfold MfdVar.itemOf
  rw [hall]
  rfl

/-- What the parse of the plain data leaves. -/
structure PlainDone (f : Factory) (iv : List UInt8) (s : MfdVar) : Prop where
  kept : Kept f s
  placed : AllPlaced f s
  blocks : s.blocks = []
  freed : s.freed = []
  held : s.held = []
  iv : s.iv = f.vector iv
  present : ∀ id, elementTypeElementStart ≤ id →
    ((s.itemOf id).valuePtr.isSome ↔ id ∈ tried f.alloc f.plain 0 f.plain.elements)

/-- The plain data is parsed to its end where its elements are right, and nowhere else with
every pair in its place. -/
theorem parse_plain (f : Factory) (iv : List UInt8)
    (hinside : f.plainStart + f.plaintextSize + 4 ≤ f.partition.length) :
    (Right f.alloc f.plain 0 f.plain.elements →
      ∃ s, mfdParsePartitionData f.alloc f.plain (f.plaintextSize + 1) 0 (initialVar iv) =
        some (true, s) ∧ PlainDone f iv s) ∧
    ∀ ok s, mfdParsePartitionData f.alloc f.plain (f.plaintextSize + 1) 0 (initialVar iv) =
      some (ok, s) → Kept f s ∧
        (AllPlaced f s → Right f.alloc f.plain 0 f.plain.elements) := by
  have hof : AreaOf f f.plain := .plain _
  have hsize : f.plain.size ≤ f.plain.mem.length := by
    show f.plaintextSize ≤ (f.partition.drop f.plainStart).length
    rw [List.length_drop]
    omega
  have kept := initialVar_kept f iv
  have hiff := parseAll_placed_iff f.alloc f.plain.elements hof hsize kept
    (initialVar_allPlaced f iv)
  have hloop : mfdParsePartitionData f.alloc f.plain (f.plaintextSize + 1) 0 (initialVar iv) =
      parseAll f.alloc f.plain f.plain.elements (initialVar iv) :=
    mfdParsePartitionData_eq hsize (Nat.lt_succ_self _)
  rw [hloop]
  constructor
  · intro hright
    obtain ⟨ok, s, hrun, hplaced⟩ := hiff.mpr hright
    have hall := parsedAll_of_parseAll kept hrun
    obtain ⟨rfl, hblocks, hheld⟩ := hall.flash rfl kept (initialVar_held iv)
    refine ⟨s, hrun, hall.kept kept, hplaced, hblocks, hall.freed, hheld, hall.iv_eq rfl, ?_⟩
    intro id hid
    rw [hall.present rfl kept hid, not_initially]
    simp only [Bool.false_eq_true, false_or]
    rfl
  · intro ok s hrun
    exact ⟨(parseAll_kept kept hrun).1, fun hplaced => hiff.mp ⟨ok, s, hrun, hplaced⟩⟩

theorem perm_iff_owns {s : MfdVar} (hfreed : s.freed = []) :
    (s.freed ++ s.held).Perm (List.range s.blocks.length) ↔ s.Owns := by
  rw [hfreed, List.nil_append]
  rfl

/-- The minimal set is there when each of its types is in one of the areas. -/
theorem checkMinimal_iff {s s' : MfdVar} {buf : List UInt8}
    (done : PlainDone f iv s)
    (hall : ParsedAll f.alloc (bufferArea buf f.cipherSize)
      (bufferArea buf f.cipherSize).elements s ok s') :
    (ok && mfdCheckMinimalSet s') = false ↔
      fails f.alloc (bufferArea buf f.cipherSize) 0 (bufferArea buf f.cipherSize).elements = true ∨
        ∃ id ∈ minimalDataSet, id ∉ tried f.alloc f.plain 0 f.plain.elements ∧
          id ∉ tried f.alloc (bufferArea buf f.cipherSize) 0
            (bufferArea buf f.cipherSize).elements := by
  have hok := hall.ok_eq
  rw [done.blocks, List.length_nil] at hok
  cases hfails : fails f.alloc (bufferArea buf f.cipherSize) 0
      (bufferArea buf f.cipherSize).elements with
  | true =>
    rw [hfails] at hok
    subst hok
    simp
  | false =>
    rw [hfails] at hok
    subst hok
    simp only [Bool.not_false, Bool.true_and, Bool.false_eq_true, false_or]
    have hpresent : ∀ id ∈ minimalDataSet, ((s'.itemOf id).valuePtr.isSome ↔
        id ∈ tried f.alloc f.plain 0 f.plain.elements ∨
          id ∈ tried f.alloc (bufferArea buf f.cipherSize) 0
            (bufferArea buf f.cipherSize).elements) := by
      intro id hid
      have hlow : elementTypeElementStart ≤ id := by
        have hmin : ∀ id ∈ minimalDataSet, elementTypeElementStart ≤ id := by decide
        exact hmin id hid
      have h := hall.present rfl done.kept hlow
      rw [done.present id hlow, done.blocks] at h
      exact h
    unfold mfdCheckMinimalSet
    rw [List.all_eq_false]
    constructor
    · rintro ⟨id, hid, hmissing⟩
      have hneither := (hpresent id hid).not.mp hmissing
      exact ⟨id, hid, fun h => hneither (.inl h), fun h => hneither (.inr h)⟩
    · rintro ⟨id, hid, hplain, hbuffer⟩
      exact ⟨id, hid, (hpresent id hid).not.mpr (not_or.mpr ⟨hplain, hbuffer⟩)⟩

/-- The decrypted data is parsed as it should be just when it is right. -/
theorem parse_buffer_iff {s : MfdVar} {buf : List UInt8} (done : PlainDone f iv s)
    (hbuf : f.cipherSize ≤ buf.length) :
    EndsRight f (mfdParsePartitionData f.alloc (bufferArea buf f.cipherSize) (f.cipherSize + 1) 0 s) ↔
      f.DecryptedRight buf := by
  have hof : AreaOf f (bufferArea buf f.cipherSize) := .buffer buf
  have hiff := parseAll_placed_iff f.alloc (bufferArea buf f.cipherSize).elements hof hbuf
    done.kept done.placed
  rw [done.blocks, List.length_nil] at hiff
  have hloop : mfdParsePartitionData f.alloc (bufferArea buf f.cipherSize) (f.cipherSize + 1) 0 s =
      parseAll f.alloc (bufferArea buf f.cipherSize) (bufferArea buf f.cipherSize).elements s :=
    mfdParsePartitionData_eq hbuf (Nat.lt_succ_self _)
  have fair : s.Fair := by
    unfold MfdVar.Fair
    rw [done.held]
    exact Nat.zero_le _
  have howns : s.Owns := by
    unfold MfdVar.Owns
    rw [done.held, done.blocks]
    exact Custody.none
  have hnodup : ∀ ok s', ParsedAll f.alloc (bufferArea buf f.cipherSize)
      (bufferArea buf f.cipherSize).elements s ok s' →
        ((s'.freed ++ s'.held).Perm (List.range s'.blocks.length) ↔
          (tried f.alloc (bufferArea buf f.cipherSize) 0
            (bufferArea buf f.cipherSize).elements).Nodup) := by
    intro ok s' hall
    rw [perm_iff_owns (hall.freed.trans done.freed), hall.owns_iff rfl done.kept fair, done.blocks]
    constructor
    · exact fun h => h.2.1
    · exact fun h => ⟨howns, h, fun id _ => itemOf_of_held done.held id⟩
  rw [hloop]
  unfold EndsRight Factory.DecryptedRight
  constructor
  · rintro ⟨ok, s', hrun, hplaced, hfree⟩
    have hall := parsedAll_of_parseAll done.kept hrun
    refine ⟨hiff.mp ⟨ok, s', hrun, hplaced⟩, fun hends => ?_⟩
    exact (hnodup ok s' hall).mp (hfree ((checkMinimal_iff done hall).mpr hends))
  · rintro ⟨hright, hends⟩
    obtain ⟨ok, s', hrun, hplaced⟩ := hiff.mpr hright
    have hall := parsedAll_of_parseAll done.kept hrun
    refine ⟨ok, s', hrun, hplaced, fun hfalse => ?_⟩
    exact (hnodup ok s' hall).mpr (hends ((checkMinimal_iff done hall).mp hfalse))

/-- The parse of both areas goes right just when their elements are. -/
theorem parseAreas_iff (iv : List UInt8)
    (hdecrypt : ∀ cipher iv buf, f.decrypt cipher iv = some buf → buf.length = blMfdDecryptBufLen)
    (hinside : f.plainStart + f.plaintextSize + 4 ≤ f.partition.length)
    (hcipher : f.cipherAccepted) :
    EndsRight f (f.parseAreas f.cipherSize f.plaintextSize (initialVar iv)) ↔
      Right f.alloc f.plain 0 f.plain.elements ∧
        (f.cipherSize ≠ 0 →
          ∀ buf, f.decrypt (slice f.partition 4 f.cipherSize) (f.vector iv) = some buf →
            f.DecryptedRight buf) := by
  obtain ⟨hends, hafter⟩ := parse_plain f iv hinside
  by_cases hright : Right f.alloc f.plain 0 f.plain.elements
  · obtain ⟨s, hrun, done⟩ := hends hright
    have hnothing : (s.freed ++ s.held).Perm (List.range s.blocks.length) := by
      rw [done.freed, done.held, done.blocks]
      exact List.Perm.refl _
    unfold Factory.parseAreas
    rw [show f.plainArea f.cipherSize f.plaintextSize = f.plain from rfl, hrun, Option.bind_some]
    simp only [not_true_eq_false, if_false, hright, true_and]
    by_cases hzero : f.cipherSize = 0
    · rw [if_neg (not_not.mpr hzero)]
      exact iff_of_true ⟨true, s, rfl, done.placed, fun _ => hnothing⟩ fun h => absurd hzero h
    · have hread : readSlice f.partition 4 f.cipherSize = some (slice f.partition 4 f.cipherSize) := by
        apply readSlice_eq
        unfold Factory.plainStart at hinside
        omega
      rw [if_pos hzero, hread, Option.bind_some, done.iv]
      cases hdec : f.decrypt (slice f.partition 4 f.cipherSize) (f.vector iv) with
      | none =>
        refine iff_of_true ⟨false, s, rfl, done.placed, fun _ => hnothing⟩ ?_
        intro _ buf hbuf
        cases hbuf
      | some buf =>
        have hlength : f.cipherSize ≤ buf.length := by
          rw [hdecrypt _ _ _ hdec]
          exact (hcipher.resolve_left hzero).2
        dsimp only
        rw [parse_buffer_iff done hlength]
        constructor
        · intro h _ buf' hbuf'
          cases hbuf'
          exact h
        · exact fun h => h hzero buf rfl
  · refine iff_of_false ?_ fun h => hright h.1
    rintro ⟨ok, s, hrun, hplaced, -⟩
    unfold Factory.parseAreas at hrun
    obtain ⟨⟨ok₁, s₁⟩, hplain, hrest⟩ := Option.bind_eq_some_iff.mp hrun
    obtain ⟨kept₁, hback⟩ := hafter ok₁ s₁ hplain
    -- what the plain data has stored is still there in the end
    have hgrows : Grows s₁ s := by
      dsimp only at hrest
      split at hrest
      · cases hrest
        exact Grows.refl _
      · split at hrest
        · rename_i hzero
          obtain ⟨cipher, -, hrest⟩ := Option.bind_eq_some_iff.mp hrest
          split at hrest
          · cases hrest
            exact Grows.refl _
          · rename_i buf hdec
            have hlength : f.cipherSize ≤ buf.length := by
              rw [hdecrypt _ _ _ hdec]
              exact (hcipher.resolve_left hzero).2
            have hloop : mfdParsePartitionData f.alloc (bufferArea buf f.cipherSize)
                (f.cipherSize + 1) 0 s₁ =
                  parseAll f.alloc (bufferArea buf f.cipherSize)
                    (bufferArea buf f.cipherSize).elements s₁ :=
              mfdParsePartitionData_eq hlength (Nat.lt_succ_self _)
            rw [hloop] at hrest
            exact (parseAll_kept kept₁ hrest).2
        · cases hrest
          exact Grows.refl _
    exact hright (hback (allPlaced_of_grows kept₁ hgrows hplaced))

/-- Parsing is safe just when the partition is well formed, whichever allocations succeed. -/
theorem mfd_init_safe_iff (f : Factory) (iv : List UInt8)
    (hdecrypt : ∀ cipher iv buf, f.decrypt cipher iv = some buf →
      buf.length = blMfdDecryptBufLen) : Safe f iv ↔ f.WellFormed iv := by
  unfold Factory.WellFormed
  cases hactive : f.active with
  | false =>
    have hinit : f.mfdInit iv = some (false, initialVar iv) := if_pos (by simp [hactive])
    refine iff_of_true ⟨false, initialVar iv, hinit, initialVar_allPlaced f iv, fun _ => ?_⟩ (by simp)
    exact ⟨List.Perm.refl _, fun e he => List.eq_of_mem_replicate he⟩
  | true =>
    rw [safe_iff_endsRight hactive]
    cases habove : f.aboveImage with
    | false =>
      have hparse : f.mfdParseData (initialVar iv) = some (false, initialVar iv) :=
        if_pos (by simp [habove])
      rw [hparse]
      exact iff_of_true (endsRight_refused f iv) (by simp)
    | true =>
      simp only [forall_const]
      by_cases hstart : f.plainStart ≤ f.partition.length
      · by_cases hwrap : f.cipherSize + f.plaintextSize < 2 ^ 32
        · simp only [hstart, hwrap, true_and]
          by_cases haccepted : f.sizesAccepted ∧ f.cipherAccepted
          · obtain ⟨hsizes, hcipher⟩ := haccepted
            rw [mfdParseData_areas habove hstart hwrap hsizes hcipher]
            simp only [hsizes, hcipher, forall_const]
            by_cases hinside : f.plainStart + f.plaintextSize + 4 ≤ f.partition.length
            · have hplain := readSlice_eq
                (show f.plainStart + f.plaintextSize ≤ f.partition.length by omega)
              rw [hplain, Option.bind_some, readWord_eq hinside, Option.bind_some]
              simp only [hinside, true_and]
              by_cases hcrc : f.plainAccepted
              · have hequal : ¬ bflbSoftCrc32 (slice f.partition f.plainStart f.plaintextSize) ≠
                    f.word (f.plainStart + f.plaintextSize) := not_not.mpr hcrc
                rw [if_neg hequal, parseAreas_iff iv hdecrypt hinside hcipher]
                simp only [hcrc, forall_const]
              · have hother : bflbSoftCrc32 (slice f.partition f.plainStart f.plaintextSize) ≠
                    f.word (f.plainStart + f.plaintextSize) := hcrc
                rw [if_pos hother]
                exact iff_of_true (endsRight_refused f iv) fun h => absurd h hcrc
            · rw [readWord_none hinside]
              refine iff_of_false ?_ fun h => hinside h.1
              rintro ⟨ok, s, hrun, -⟩
              cases hread : readSlice f.partition f.plainStart f.plaintextSize with
              | none => rw [hread] at hrun; cases hrun
              | some plain => rw [hread] at hrun; cases hrun
          · rw [mfdParseData_refused habove hstart hwrap haccepted]
            exact iff_of_true (endsRight_refused f iv) fun h h' => absurd ⟨h, h'⟩ haccepted
        · refine iff_of_false ?_ fun h => hwrap h.2.1
          rw [mfdParseData_sizes habove hstart, if_pos (Nat.not_lt.mp hwrap)]
          rintro ⟨ok, s, hrun, -⟩
          cases hrun
      · refine iff_of_false ?_ fun h => hstart h.1
        rw [mfdParseData_none_of_start habove hstart]
        rintro ⟨ok, s, hrun, -⟩
        cases hrun

/-- A private key that is encrypted, as it stands here by itself, and a passcode that is not. -/
def smallFactory : Factory where
  active := true
  aboveImage := true
  partition := [8, 0, 0, 0] ++ [3, 0, 4, 0, 1, 2, 3, 4] ++ [77, 190, 68, 231] ++
    [8, 0, 0, 0] ++ [4, 0x80, 4, 0, 5, 6, 7, 8] ++ [2, 235, 38, 128]
  decrypt cipher _ := some ((cipher ++ List.replicate blMfdDecryptBufLen 0).take blMfdDecryptBufLen)
  alloc _ := true

theorem mfd_init_safe_iff_small : Safe smallFactory [] := by
  refine (mfd_init_safe_iff smallFactory [] ?_).mpr fun _ _ =>
    ⟨?_, ?_, fun _ _ => ⟨?_, fun _ => ⟨?_, ?_⟩⟩⟩
  · rintro cipher iv buf hbuf
    cases hbuf
    rw [List.length_take, List.length_append, List.length_replicate]
    omega
  · decide +kernel
  · decide +kernel
  · decide +kernel
  · decide +kernel
  · rintro - buf hbuf
    cases hbuf
    decide +kernel

/-- One plain element of the last type, without any encrypted data. -/
def lastTypeFactory : Factory where
  active := true
  aboveImage := true
  partition := [0, 0, 0, 0] ++ [0, 0, 0, 0] ++ [8, 0, 0, 0] ++ [0x17, 0, 4, 0, 1, 2, 3, 4] ++
    [156, 129, 181, 31]
  decrypt _ _ := none
  alloc _ := true

/-- The element of the last type is stored behind the items. -/
theorem last_type_unsafe :
    ¬ ∀ f : Factory, ∀ iv, (∀ cipher iv buf, f.decrypt cipher iv = some buf →
      buf.length = blMfdDecryptBufLen) → Safe f iv := by
  intro hall
  obtain ⟨ok, s, hrun, -⟩ := hall lastTypeFactory [] fun _ _ _ h => nomatch h
  have hnone : lastTypeFactory.mfdInit [] = none := by decide +kernel
  rw [hnone] at hrun
  cases hrun

end BouffaloSdk.Mfd
