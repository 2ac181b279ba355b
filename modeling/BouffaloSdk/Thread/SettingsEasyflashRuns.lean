import BouffaloSdk.Kit.Runs
import BouffaloSdk.Thread.OtSettingsEasyflash
import Mathlib.Data.Multiset.AddSub

/-!
# Settings on easyflash over runs

The platform contract numbers the values of a key from zero without gaps, in
any order. Which runs keep the bitmaps in agreement with it.
-/

namespace BouffaloSdk.OtSettingsEasyflash
open Kit Kit.Runs OtSettings

inductive Event
  | get (aKey : UInt16) (aIndex : Int) (aValue : Bool) (aValueLength : Option Nat)
  | set (aKey : UInt16) (aValue : Option (List UInt8))
  | add (aKey : UInt16) (aValue : Option (List UInt8))
  | delete (aKey : UInt16) (aIndex : Int) (leftover : Leftover)
  | wipe
  deriving DecidableEq, Repr

/-- The store, the values that the contract gives each key, and whether a call
went beyond a bitmap. -/
structure World where
  env : Store
  values : UInt16 → Multiset (List UInt8)
  outside : Bool

/-- Lengths are 16 bits wide, and the bitmap on the stack has its 32 words. -/
def Event.Allowed : Event → Prop
  | .get _ _ _ aValueLength => ∀ size ∈ aValueLength, size < 2 ^ 16
  | .set _ aValue | .add _ aValue => ∀ value ∈ aValue, value.length < 2 ^ 16
  | .delete _ _ leftover => leftover.bitmapArray.length = otMaxEntryBitmap
  | .wipe => True

instance (e : Event) : Decidable e.Allowed := by
  cases e <;> unfold Event.Allowed <;> infer_instance

/-- The store after a call and its result; `none` where the call went beyond the
bitmap. -/
def Event.call (env : Store) : Event → Option (Store × OtError)
  | .get aKey aIndex aValue aValueLength =>
    (otPlatSettingsGet env true aKey aIndex aValue aValueLength).map fun r => (r.1, r.2.err)
  | .set aKey aValue => otPlatSettingsSet env true aKey aValue
  | .add aKey aValue => otPlatSettingsAdd env true aKey aValue
  | .delete aKey aIndex leftover => otPlatSettingsDelete env aKey aIndex leftover
  | .wipe => some (otPlatSettingsWipe env, .otErrorNone)

/-- The value that a get hands out. -/
def valueAt (env : Store) (aKey : UInt16) (aIndex : Int) : Option (List UInt8) :=
  (otPlatSettingsGet env true aKey aIndex true (some (2 ^ 16 - 1))).bind fun r => r.2.value

/-- The contract, for a call with this result. -/
def Event.values (w : World) (err : OtError) : Event → UInt16 → Multiset (List UInt8)
  | .get .. => w.values
  | .set aKey aValue =>
    if err = .otErrorNone then Function.update w.values aKey {aValue.getD []} else w.values
  | .add aKey aValue =>
    if err = .otErrorNone then
      Function.update w.values aKey (w.values aKey + {aValue.getD []})
    else w.values
  | .delete aKey aIndex _ =>
    Function.update w.values aKey
      (if aIndex = -1 then 0
        else match valueAt w.env aKey aIndex with
          | none => w.values aKey
          | some value => (w.values aKey).erase value)
  | .wipe => fun _ => 0

def step (w : World) (e : Event) : Option World :=
  if e.Allowed then
    match e.call w.env with
    | none => some { w with outside := true }
    | some (env, err) => some { w with env, values := e.values w err }
  else none

/-- Gets number the values as `listing` does, and then find nothing. -/
def Lists (env : Store) (aKey : UInt16) (listing : List (List UInt8)) : Prop :=
  ∀ (aIndex : Int) (aValue : Bool) (aValueLength : Option Nat), aIndex ≤ listing.length →
    otPlatSettingsGet env true aKey aIndex aValue aValueLength =
      some (env, answer listing aIndex aValue aValueLength)

/-- The names the settings use. -/
def IsOtName (name : Name) : Prop :=
  ∃ aKey, name = bitmapKey aKey ∨ ∃ index < otMaxEntryNum, name = recordKey aKey index

structure Kept (w : World) (e : Event) (t : World) : Prop where
  listed : ∀ aKey, ∃ listing : List (List UInt8),
    (listing : Multiset (List UInt8)) = t.values aKey ∧ Lists t.env aKey listing
  inside : t.outside = false
  wiped : e = .wipe → ∀ name, ¬ IsOtName name → Files.content t.env name = Files.content w.env name

/-- The bitmap of a key, if there is one of the right size. -/
def bitmapOf (env : Store) (aKey : UInt16) : Option (List (BitVec 32)) :=
  (Files.content env (bitmapKey aKey)).bind fun bytes =>
    if bytes.length = otMaxEntryBitmap * 4 then some (Bitmap.ofBytes bytes) else none

/-- A delete is of the last value, of none or of all, and does not go by what is
left on the stack. -/
def DeleteSafe (w : World) (aKey : UInt16) (aIndex : Int) (leftover : Leftover) : Prop :=
  if aIndex < 0 then aIndex = -1 ∨ w.values aKey = 0
  else
    match Files.content w.env (bitmapKey aKey) with
    | none => leftover.len ≠ otMaxEntryBitmap * 4 ∨
        (aIndex < otMaxEntryNum ∧ Bitmap.bit leftover.bitmapArray aIndex.toNat = false)
    | some bytes => bytes.length ≠ otMaxEntryBitmap * 4 ∨
        ((w.values aKey).card ≤ aIndex + 1 ∧ aIndex < otMaxEntryNum)

/-- A get stays inside the bitmap, an add leaves one index free, and a wipe finds
the other names as it will leave them. -/
def Safe (w : World) (e : Event) (_ : World) : Prop :=
  match e with
  | .get aKey aIndex _ _ => aIndex < otMaxEntryNum ∨ bitmapOf w.env aKey = none
  | .set _ _ => True
  | .add aKey aValue => aValue ≠ none → (w.values aKey).card + 1 < otMaxEntryNum
  | .delete aKey aIndex leftover => DeleteSafe w aKey aIndex leftover
  | .wipe => ∀ name, ¬ IsOtName name →
      Files.content w.env name = Files.content defaultEnvSet name

/-- The bits that are set are those of the first `n` indexes. -/
def FirstBits (env : Store) (aKey : UInt16) (n : Nat) : Prop :=
  match bitmapOf env aKey with
  | none => n = 0
  | some words => ∀ index < otMaxEntryNum, Bitmap.bit words index = decide (index < n)

/-- Each value has the record of its index. -/
structure Recorded (env : Store) (aKey : UInt16) (listing : List (List UInt8)) : Prop where
  room : listing.length < otMaxEntryNum
  short : ∀ value ∈ listing, value.length < 2 ^ 16
  record : ∀ index value, listing[index]? = some value →
    Files.content env (recordKey aKey index) = some value

structure Dense (env : Store) (aKey : UInt16) (listing : List (List UInt8)) : Prop
    extends Recorded env aKey listing where
  bits : FirstBits env aKey listing.length

structure Inv (w : World) : Prop where
  dense : ∀ aKey, ∃ listing : List (List UInt8),
    (listing : Multiset (List UInt8)) = w.values aKey ∧ Dense w.env aKey listing
  inside : w.outside = false

variable {env t : Store} {aKey other : UInt16} {listing : List (List UInt8)}
  {words : List (BitVec 32)} {index : Nat} {aIndex : Int} {w : World} {e : Event}

/-! ## Names -/

theorem length_printfX_le (aKey : UInt16) : (Hex.printfX aKey.toNat).length ≤ 4 :=
  (Nat.length_toDigits_le_iff (by decide) (by decide)).mpr aKey.toNat_lt

theorem length_printfX_index (h : index < otMaxEntryNum) : (Hex.printfX index).length ≤ 3 :=
  (Nat.length_toDigits_le_iff (by decide) (by decide)).mpr
    (Nat.lt_of_lt_of_le h (by decide))

theorem bitmapKey_eq (aKey : UInt16) :
    bitmapKey aKey = ['o', 't', '-', 'b', 'm', '-'] ++ Hex.printfX aKey.toNat := by
  have hlen := length_printfX_le aKey
  have htext : "ot-bm-".toList = ['o', 't', '-', 'b', 'm', '-'] := by decide
  rw [bitmapKey, snprintf, htext]
  exact List.take_of_length_le (by simp [otMaxKeyLen]; omega)

theorem recordKey_eq (aKey : UInt16) (h : index < otMaxEntryNum) : recordKey aKey index =
    ['o', 't', '-'] ++ (Hex.printfX aKey.toNat ++ '-' :: Hex.printfX index) := by
  have hlen := length_printfX_le aKey
  have hlen' := length_printfX_index h
  have htext : "ot-".toList = ['o', 't', '-'] := by decide
  rw [recordKey, snprintf, htext, List.append_assoc]
  exact List.take_of_length_le (by simp [otMaxKeyLen]; omega)

theorem dash_notMem (n : Nat) : '-' ∉ Hex.printfX n := fun h => (Hex.ne_of_mem_printfX n h).1 rfl

theorem bitmapKey_injective : Function.Injective bitmapKey := by
  intro a b h
  rw [bitmapKey_eq, bitmapKey_eq] at h
  exact UInt16.toNat_inj.mp (Hex.printfX_injective (List.append_cancel_left h))

theorem recordKey_inj {i j : Nat} (hi : i < otMaxEntryNum) (hj : j < otMaxEntryNum)
    (h : recordKey aKey i = recordKey other j) : aKey = other ∧ i = j := by
  rw [recordKey_eq _ hi, recordKey_eq _ hj] at h
  have hparts := (List.append_cons_inj_of_notMem (dash_notMem _) (dash_notMem _)).mp
    (List.append_cancel_left h)
  exact ⟨UInt16.toNat_inj.mp (Hex.printfX_injective hparts.1), Hex.printfX_injective hparts.2.2⟩

theorem recordKey_ne_bitmapKey (h : index < otMaxEntryNum) :
    recordKey aKey index ≠ bitmapKey other := by
  intro heq
  rw [recordKey_eq _ h, bitmapKey_eq] at heq
  have hsplit : Hex.printfX aKey.toNat ++ '-' :: Hex.printfX index =
      ['b', 'm'] ++ '-' :: Hex.printfX other.toNat := List.append_cancel_left heq
  have hparts := (List.append_cons_inj_of_notMem (dash_notMem _) (dash_notMem _)).mp hsplit
  have hm : 'm' ∈ Hex.printfX aKey.toNat := by
    rw [hparts.1]
    decide
  exact (Hex.ne_of_mem_printfX _ hm).2 rfl

theorem isOtName_head {name : Name} (h : IsOtName name) : name.head? = some 'o' := by
  obtain ⟨aKey, rfl | ⟨index, hindex, rfl⟩⟩ := h
  · rw [bitmapKey_eq]
    rfl
  · rw [recordKey_eq _ hindex]
    rfl

/-! ## Bitmaps -/

theorem indexMask_eq (index : Nat) : indexMask index = Bitmap.mask index := by
  have hmod : index % 2 ^ 20 % 32 = index % 32 := Nat.mod_mod_of_dvd index (by decide)
  rw [indexMask, Bitmap.mask, hmod]

theorem length_bitmapOf (h : bitmapOf env aKey = some words) : words.length = otMaxEntryBitmap := by
  unfold bitmapOf at h
  obtain ⟨bytes, -, hbytes⟩ := Option.bind_eq_some_iff.mp h
  split at hbytes
  case isTrue hlen =>
    cases hbytes
    rw [Bitmap.length_ofBytes, hlen]
    rfl
  case isFalse => cases hbytes

theorem bitmapOf_put (hwords : words.length = otMaxEntryBitmap)
    (h : Files.content env (bitmapKey aKey) = some (Bitmap.toBytes words)) :
    bitmapOf env aKey = some words := by
  have hlen : (Bitmap.toBytes words).length = otMaxEntryBitmap * 4 := by
    rw [Bitmap.length_toBytes, hwords]
    rfl
  rw [bitmapOf, h, Option.bind_some, if_pos hlen, Bitmap.ofBytes_toBytes]

theorem getElem?_word (hwords : words.length = otMaxEntryBitmap) (h : index < otMaxEntryNum) :
    words[index / 32]? = some (Bitmap.word words index) := by
  have hlt : index / 32 < words.length := by
    rw [hwords]
    exact Nat.div_lt_of_lt_mul h
  rw [Bitmap.word, List.getD_eq_getElem?_getD, List.getElem?_eq_getElem hlt]
  rfl

theorem and_indexMask (words : List (BitVec 32)) (index : Nat) :
    Bitmap.word words index &&& indexMask index = 0 ↔ Bitmap.bit words index = false := by
  rw [indexMask_eq]
  exact Bitmap.and_mask_eq_zero _ index

/-- What a get reads of the store. -/
theorem get_eq (env : Store) (aKey : UInt16) (h : ¬ aIndex < 0) (aValue : Bool)
    (aValueLength : Option Nat) :
    otPlatSettingsGet env true aKey aIndex aValue aValueLength =
      match bitmapOf env aKey with
      | none => some (env, ⟨.otErrorNotFound, none, aValueLength⟩)
      | some words => words[aIndex.toNat / 32]?.bind fun word =>
        if word &&& indexMask aIndex.toNat = 0 then
          some (env, ⟨.otErrorNotFound, none, aValueLength⟩)
        else
          match Files.content env (recordKey aKey aIndex.toNat) with
          | none =>
            some ((efSetEnvBlob env (bitmapKey aKey) (some (Bitmap.toBytes
              (words.set (aIndex.toNat / 32) (word &&& ~~~ indexMask aIndex.toNat))))).1,
              ⟨.otErrorNotFound, none, aValueLength⟩)
          | some value =>
            some (env, ⟨.otErrorNone, if aValue then aValueLength.map value.take else none,
              aValueLength.map fun _ => value.length % 2 ^ 16⟩) := by
  unfold otPlatSettingsGet bitmapOf efGetEnvBlob
  rw [if_pos rfl, if_neg h]
  cases Files.content env (bitmapKey aKey) with
  | none => rfl
  | some bytes =>
    by_cases hlen : bytes.length = otMaxEntryBitmap * 4
    · have htake : bytes.take (otMaxEntryBitmap * 4) = bytes :=
        List.take_of_length_le (Nat.le_of_eq hlen)
      rw [Option.map_some, Option.bind_some, if_pos hlen, htake]
      exact if_neg (not_not_intro hlen)
    · simp only [Option.map_some, Option.bind_some, ne_eq, hlen, not_false_eq_true, if_true,
        if_false]

theorem Dense.get (h : Dense env aKey listing) (aValue : Bool)
    (aValueLength : Option Nat) (hindex : aIndex < otMaxEntryNum ∨ bitmapOf env aKey = none) :
    otPlatSettingsGet env true aKey aIndex aValue aValueLength =
      some (env, answer listing aIndex aValue aValueLength) := by
  by_cases hneg : aIndex < 0
  · rw [answer, if_pos hneg, otPlatSettingsGet, if_pos rfl, if_pos hneg]
  · have hbits := h.bits
    rw [get_eq env aKey hneg, answer, if_neg hneg]
    unfold FirstBits at hbits
    cases hwords : bitmapOf env aKey with
    | none =>
      rw [hwords] at hbits
      rw [List.getElem?_eq_none (by rw [hbits]; exact Nat.zero_le _)]
    | some words =>
      rw [hwords] at hbits
      have hlt : aIndex.toNat < otMaxEntryNum := by
        cases hindex with
        | inl hlt => omega
        | inr hnone =>
          rw [hwords] at hnone
          cases hnone
      have hbit := hbits aIndex.toNat hlt
      simp only [getElem?_word (length_bitmapOf hwords) hlt, Option.bind_some, and_indexMask, hbit]
      by_cases hlisted : aIndex.toNat < listing.length
      · have hvalue := List.getElem?_eq_getElem hlisted
        have hshort := h.short _ (List.getElem_mem hlisted)
        simp only [hlisted, decide_true, Bool.true_eq_false, if_false, hvalue,
          h.record _ _ hvalue, Nat.mod_eq_of_lt hshort]
      · rw [List.getElem?_eq_none (Nat.not_lt.mp hlisted)]
        simp only [hlisted, decide_false, if_true]

theorem Dense.lists (h : Dense env aKey listing) : Lists env aKey listing := by
  intro aIndex aValue aValueLength hle
  have hroom := h.room
  exact h.get aValue aValueLength (.inl (by omega))

/-! ## Writing -/

/-- `t` is `env` but for the bitmap and the records of one key. -/
def OnlyKey (env t : Store) (aKey : UInt16) : Prop :=
  ∀ name, name ≠ bitmapKey aKey → (∀ index < otMaxEntryNum, name ≠ recordKey aKey index) →
    Files.content t name = Files.content env name

theorem Dense.of_onlyKey (h : Dense env other listing) (hne : other ≠ aKey)
    (honly : OnlyKey env t aKey) : Dense t other listing := by
  have hbitmap : Files.content t (bitmapKey other) = Files.content env (bitmapKey other) :=
    honly _ (bitmapKey_injective.ne hne) fun index hindex heq =>
      recordKey_ne_bitmapKey hindex heq.symm
  refine ⟨⟨h.room, h.short, fun index value hvalue => ?_⟩, ?_⟩
  · have hindex : index < otMaxEntryNum :=
      Nat.lt_trans (List.getElem?_eq_some_iff.mp hvalue).1 h.room
    have hrecord := honly (recordKey other index) (recordKey_ne_bitmapKey hindex)
      fun j hj heq => hne (recordKey_inj hindex hj heq).1
    rw [hrecord]
    exact h.record index value hvalue
  · have hbits := h.bits
    unfold FirstBits bitmapOf at hbits ⊢
    rwa [hbitmap]

/-- The record is written, then the bitmap. -/
theorem setRaw_some (hwords : words.length = otMaxEntryBitmap) (hindex : index < otMaxEntryNum)
    (value : List UInt8) :
    ∃ t, otPlatSettingsSetRaw env true aKey (some value) index words = some (t, .otErrorNone) ∧
      OnlyKey env t aKey ∧
      bitmapOf t aKey = some (words.set (index / 32) (Bitmap.word words index ||| Bitmap.mask index)) ∧
      ∀ j < otMaxEntryNum, Files.content t (recordKey aKey j) =
        if j = index then some value else Files.content env (recordKey aKey j) := by
  have hlen : (words.set (index / 32) (Bitmap.word words index ||| Bitmap.mask index)).length =
      otMaxEntryBitmap := by
    rw [List.length_set, hwords]
  refine ⟨Files.put (Files.put env (recordKey aKey index) value) (bitmapKey aKey)
    (Bitmap.toBytes (words.set (index / 32) (Bitmap.word words index ||| Bitmap.mask index))),
    ?_, ?_, ?_, ?_⟩
  · simp only [otPlatSettingsSetRaw, getElem?_word hwords hindex, Option.map_some, indexMask_eq]
    rfl
  · intro name hbitmap hrecord
    rw [Files.content_put, Function.update_of_ne hbitmap, Files.content_put,
      Function.update_of_ne (hrecord index hindex)]
  · exact bitmapOf_put hlen (by rw [Files.content_put, Function.update_self])
  · intro j hj
    rw [Files.content_put, Function.update_of_ne (recordKey_ne_bitmapKey hj), Files.content_put]
    by_cases heq : j = index
    · rw [heq, Function.update_self, if_pos rfl]
    · rw [Function.update_of_ne fun h => heq (recordKey_inj hj hindex h).2, if_neg heq]

/-- A value written at the first free index. -/
theorem Recorded.append (h : Recorded env aKey listing) (hroom : listing.length + 1 < otMaxEntryNum)
    {value : List UInt8} (hvalue : value.length < 2 ^ 16)
    (hbits : ∀ index < otMaxEntryNum, Bitmap.bit words index = decide (index < listing.length))
    (hwords : words.length = otMaxEntryBitmap) :
    ∃ t, otPlatSettingsSetRaw env true aKey (some value) listing.length words =
        some (t, .otErrorNone) ∧ OnlyKey env t aKey ∧ Dense t aKey (listing ++ [value]) := by
  obtain ⟨t, hset, honly, hbitmap, hrecord⟩ :=
    @setRaw_some env aKey _ _ hwords h.room value
  refine ⟨t, hset, honly, ⟨?_, ?_, ?_⟩, ?_⟩
  · rwa [List.length_append, List.length_singleton]
  · intro other hother
    cases List.mem_append.mp hother with
    | inl hold => exact h.short other hold
    | inr hnew =>
      rw [List.mem_singleton.mp hnew]
      exact hvalue
  · intro index other hother
    have hindex : index < listing.length + 1 := by
      have hlt := (List.getElem?_eq_some_iff.mp hother).1
      rwa [List.length_append, List.length_singleton] at hlt
    rw [hrecord index (by omega)]
    by_cases heq : index = listing.length
    · rw [heq, List.getElem?_concat_length] at hother
      rw [if_pos heq, hother]
    · rw [List.getElem?_append_left (by omega)] at hother
      rw [if_neg heq]
      exact h.record index other hother
  · unfold FirstBits
    rw [hbitmap]
    intro index hindex
    have hlt : listing.length / 32 < words.length := by
      rw [hwords]
      exact Nat.div_lt_of_lt_mul h.room
    rw [Bitmap.bit_or_mask hlt, hbits index hindex, List.length_append, List.length_singleton]
    by_cases heq : index = listing.length
    · simp [heq]
    · simp [heq]
      omega

theorem recorded_nil (env : Store) (aKey : UInt16) : Recorded env aKey [] :=
  ⟨by decide, nofun, nofun⟩

theorem freeIndex_eq {n : Nat} (hn : n < otMaxEntryNum)
    (hbits : ∀ index < otMaxEntryNum, Bitmap.bit words index = decide (index < n))
    {more : Nat} (hle : index ≤ n) (hmore : n < index + more) :
    freeIndex words index more = n := by
  induction more generalizing index with
  | zero => omega
  | succ more ih =>
    have hword : words.getD (index / 32) 0 = Bitmap.word words index := rfl
    have hbit := hbits index (Nat.lt_of_le_of_lt hle hn)
    rw [freeIndex]
    simp only [hword, and_indexMask, hbit]
    by_cases heq : index = n
    · simp [heq]
    · have hlt : index < n := by omega
      simp only [hlt, decide_true, Bool.true_eq_false, if_false]
      exact ih (by omega) (by omega)

theorem setRaw_none (hwords : words.length = otMaxEntryBitmap) (hindex : index < otMaxEntryNum) :
    otPlatSettingsSetRaw env true aKey none index words = some (env, .otErrorFailed) := by
  simp only [otPlatSettingsSetRaw, getElem?_word hwords hindex, Option.map_some]
  rfl

theorem bit_zeroBitmap (index : Nat) : Bitmap.bit zeroBitmap index = decide (index < 0) :=
  Bitmap.bit_zeros otMaxEntryBitmap index

theorem set_dense (env : Store) (aKey : UInt16) {value : List UInt8}
    (hvalue : value.length < 2 ^ 16) :
    ∃ t, otPlatSettingsSet env true aKey (some value) = some (t, .otErrorNone) ∧
      OnlyKey env t aKey ∧ Dense t aKey [value] :=
  (recorded_nil env aKey).append (by decide) hvalue (fun index _ => bit_zeroBitmap index)
    List.length_replicate

/-- An add goes to the first free index of the bitmap. -/
theorem add_eq (env : Store) (aKey : UInt16) (aValue : Option (List UInt8)) :
    otPlatSettingsAdd env true aKey aValue =
      match bitmapOf env aKey with
      | none => otPlatSettingsSetRaw env true aKey aValue 0 zeroBitmap
      | some words =>
        if freeIndex words 0 otMaxEntryNum = otMaxEntryNum then some (env, .otErrorNoBufs)
        else otPlatSettingsSetRaw env true aKey aValue (freeIndex words 0 otMaxEntryNum) words := by
  unfold otPlatSettingsAdd bitmapOf efGetEnvBlob
  cases Files.content env (bitmapKey aKey) with
  | none => rfl
  | some bytes =>
    by_cases hlen : bytes.length = otMaxEntryBitmap * 4
    · have htake : bytes.take (otMaxEntryBitmap * 4) = bytes :=
        List.take_of_length_le (Nat.le_of_eq hlen)
      simp only [Option.map_some, Option.bind_some, htake, hlen, ne_eq, not_true_eq_false,
        if_true, if_false]
      rfl
    · simp only [Option.map_some, Option.bind_some, ne_eq, hlen, not_false_eq_true, if_true,
        if_false]

/-- The bitmap an add works on. -/
theorem Dense.add_eq (h : Dense env aKey listing) (aValue : Option (List UInt8)) :
    ∃ words, words.length = otMaxEntryBitmap ∧
      (∀ index < otMaxEntryNum, Bitmap.bit words index = decide (index < listing.length)) ∧
      otPlatSettingsAdd env true aKey aValue =
        otPlatSettingsSetRaw env true aKey aValue listing.length words := by
  have hbits := h.bits
  unfold FirstBits at hbits
  rw [OtSettingsEasyflash.add_eq]
  cases hwords : bitmapOf env aKey with
  | none =>
    rw [hwords] at hbits
    refine ⟨zeroBitmap, List.length_replicate, fun index _ => ?_, by rw [hbits]⟩
    rw [hbits]
    exact bit_zeroBitmap index
  | some words =>
    rw [hwords] at hbits
    have hfree := freeIndex_eq h.room hbits (Nat.zero_le _)
      (by rw [Nat.zero_add]; exact h.room : listing.length < 0 + otMaxEntryNum)
    refine ⟨words, length_bitmapOf hwords, hbits, ?_⟩
    simp only [hfree, if_neg (Nat.ne_of_lt h.room)]

/-! ## Deleting -/

theorem onlyKey_del (env : Store) (aKey : UInt16) :
    OnlyKey env (efDelEnv env (bitmapKey aKey)) aKey := by
  intro name hname _
  rw [efDelEnv, Files.content_remove, Function.update_of_ne hname]

theorem dense_del (env : Store) (aKey : UInt16) :
    Dense (efDelEnv env (bitmapKey aKey)) aKey [] where
  toRecorded := recorded_nil _ aKey
  bits := by
    unfold FirstBits bitmapOf
    rw [efDelEnv, Files.content_remove, Function.update_self]
    rfl

/-- A delete by index, on the bitmap it works on. -/
theorem delete_eq (env : Store) (aKey : UInt16) (h : ¬ aIndex < 0) (leftover : Leftover) :
    otPlatSettingsDelete env aKey aIndex leftover =
      match
        match Files.content env (bitmapKey aKey) with
        | none => if leftover.len = otMaxEntryBitmap * 4 then some leftover.bitmapArray else none
        | some _ => bitmapOf env aKey with
      | none => some (env, .otErrorNotFound)
      | some words => words[aIndex.toNat / 32]?.map fun word =>
        if word &&& indexMask aIndex.toNat = 0 then (env, .otErrorNotFound)
        else
          (efDelEnv (efSetEnvBlob env (bitmapKey aKey) (some (Bitmap.toBytes
            (words.set (aIndex.toNat / 32) (word &&& ~~~ indexMask aIndex.toNat))))).1
            (recordKey aKey aIndex.toNat), .otErrorNone) := by
  unfold otPlatSettingsDelete bitmapOf efGetEnvBlob
  rw [if_neg h]
  cases Files.content env (bitmapKey aKey) with
  | none =>
    by_cases hlen : leftover.len = otMaxEntryBitmap * 4
    · simp only [Option.map_none, hlen, ne_eq, not_true_eq_false, if_true, if_false]
    · simp only [Option.map_none, ne_eq, hlen, not_false_eq_true, if_true, if_false]
  | some bytes =>
    by_cases hlen : bytes.length = otMaxEntryBitmap * 4
    · have htake : bytes.take (otMaxEntryBitmap * 4) = bytes :=
        List.take_of_length_le (Nat.le_of_eq hlen)
      simp only [Option.map_some, Option.bind_some, htake, hlen, ne_eq, not_true_eq_false,
        if_true, if_false]
    · simp only [Option.map_some, Option.bind_some, ne_eq, hlen, not_false_eq_true, if_true,
        if_false]

/-- The last value goes with its bit and its record. -/
theorem Dense.delete_last {value : List UInt8} (h : Dense env aKey (listing ++ [value]))
    (hwords : bitmapOf env aKey = some words) :
    let cleared := words.set (listing.length / 32)
      (Bitmap.word words listing.length &&& ~~~ Bitmap.mask listing.length)
    let t := efDelEnv (Files.put env (bitmapKey aKey) (Bitmap.toBytes cleared))
      (recordKey aKey listing.length)
    OnlyKey env t aKey ∧ Dense t aKey listing := by
  intro cleared t
  have hroom := h.room
  rw [List.length_append, List.length_singleton] at hroom
  have hindex : listing.length < otMaxEntryNum := by omega
  have hlen : cleared.length = otMaxEntryBitmap := by
    rw [List.length_set, length_bitmapOf hwords]
  have hlt : listing.length / 32 < words.length := by
    rw [length_bitmapOf hwords]
    exact Nat.div_lt_of_lt_mul hindex
  have hcontent : Files.content t = Function.update (Function.update (Files.content env)
      (bitmapKey aKey) (some (Bitmap.toBytes cleared))) (recordKey aKey listing.length) none := by
    rw [← Files.content_put]
    exact Files.content_remove ..
  have hbitmap : bitmapOf t aKey = some cleared := by
    refine bitmapOf_put hlen ?_
    rw [hcontent, Function.update_of_ne (recordKey_ne_bitmapKey hindex).symm,
      Function.update_self]
  have hrecord : ∀ name, name ≠ bitmapKey aKey → name ≠ recordKey aKey listing.length →
      Files.content t name = Files.content env name := by
    intro name hname hother
    rw [hcontent, Function.update_of_ne hother, Function.update_of_ne hname]
  refine ⟨fun name hname hother => hrecord name hname (hother _ hindex), ⟨hindex, ?_, ?_⟩, ?_⟩
  · exact fun other hother => h.short other (List.mem_append_left _ hother)
  · intro index other hother
    have hlisted := (List.getElem?_eq_some_iff.mp hother).1
    have hlower : index < otMaxEntryNum := by omega
    rw [hrecord _ (recordKey_ne_bitmapKey hlower)
      fun heq => Nat.ne_of_lt hlisted (recordKey_inj hlower hindex heq).2]
    refine h.record index other ?_
    rw [List.getElem?_append_left hlisted, hother]
  · have hbits := h.bits
    unfold FirstBits at hbits ⊢
    rw [hwords] at hbits
    rw [hbitmap]
    intro index hi
    rw [Bitmap.bit_and_not_mask hlt, hbits index hi, List.length_append, List.length_singleton]
    by_cases heq : index = listing.length
    · simp [heq]
    · simp [heq]
      omega

/-! ## Runs -/

theorem Dense.valueAt (h : Dense env aKey listing) (hneg : ¬ aIndex < 0)
    (hindex : aIndex < otMaxEntryNum ∨ bitmapOf env aKey = none) :
    valueAt env aKey aIndex = listing[aIndex.toNat]? := by
  rw [OtSettingsEasyflash.valueAt, h.get true _ hindex, Option.bind_some, answer, if_neg hneg]
  cases hvalue : listing[aIndex.toNat]? with
  | none => rfl
  | some value =>
    have hshort := h.short value (List.mem_of_getElem? hvalue)
    simp only [if_true, Option.map_some, Option.some_inj]
    exact List.take_of_length_le (by omega)

theorem Inv.update (h : Inv w) (honly : OnlyKey w.env t aKey) (hdense : Dense t aKey listing) :
    Inv { w with env := t, values := Function.update w.values aKey listing } where
  dense other := by
    by_cases hother : other = aKey
    · rw [hother]
      exact ⟨listing, (Function.update_self aKey _ w.values).symm, hdense⟩
    · obtain ⟨values, hvalues, hold⟩ := h.dense other
      refine ⟨values, ?_, hold.of_onlyKey hother honly⟩
      rw [hvalues]
      exact (Function.update_of_ne hother _ w.values).symm
  inside := h.inside

theorem Inv.kept {t : World} (h : Inv t)
    (hwiped : e = .wipe → ∀ name, ¬ IsOtName name → Files.content t.env name = Files.content w.env name) :
    Kept w e t where
  listed aKey := by
    obtain ⟨listing, hvalues, hdense⟩ := h.dense aKey
    exact ⟨listing, hvalues, hdense.lists⟩
  inside := h.inside
  wiped := hwiped

theorem step_call {t : World} (ht : step w e = some t) {r : Store × OtError}
    (hcall : e.call w.env = some r) : t = { w with env := r.1, values := e.values w r.2 } := by
  unfold step at ht
  split at ht
  · rw [hcall] at ht
    cases ht
    rfl
  · cases ht

theorem step_allowed {t : World} (ht : step w e = some t) : e.Allowed := by
  unfold step at ht
  split at ht
  case isTrue hallowed => exact hallowed
  case isFalse => cases ht

theorem get_safe {t : World} (h : Inv w) {aValue : Bool} {aValueLength : Option Nat}
    (ht : step w (.get aKey aIndex aValue aValueLength) = some t)
    (hsafe : aIndex < otMaxEntryNum ∨ bitmapOf w.env aKey = none) : Inv t := by
  obtain ⟨listing, -, hdense⟩ := h.dense aKey
  have hcall : (Event.get aKey aIndex aValue aValueLength).call w.env =
      some (w.env, (answer listing aIndex aValue aValueLength).err) := by
    rw [Event.call, hdense.get aValue aValueLength hsafe]
    rfl
  rw [step_call ht hcall]
  exact h

theorem set_safe {t : World} (h : Inv w) {aValue : Option (List UInt8)}
    (ht : step w (.set aKey aValue) = some t) : Inv t := by
  cases aValue with
  | none =>
    have hcall : otPlatSettingsSetRaw w.env true aKey none 0 zeroBitmap =
        some (w.env, .otErrorFailed) :=
      setRaw_none List.length_replicate (by decide)
    rw [step_call ht hcall]
    exact h
  | some value =>
    obtain ⟨env, hset, honly, hdense⟩ := set_dense w.env aKey (step_allowed ht value rfl)
    rw [step_call ht hset]
    exact h.update honly hdense

theorem add_safe {t : World} (h : Inv w) {aValue : Option (List UInt8)}
    (ht : step w (.add aKey aValue) = some t)
    (hsafe : aValue ≠ none → (w.values aKey).card + 1 < otMaxEntryNum) : Inv t := by
  obtain ⟨listing, hvalues, hdense⟩ := h.dense aKey
  obtain ⟨words, hwords, hbits, hadd⟩ := hdense.add_eq aValue
  cases aValue with
  | none =>
    have hcall : (Event.add aKey none).call w.env = some (w.env, .otErrorFailed) := by
      rw [Event.call, hadd, setRaw_none hwords hdense.room]
    rw [step_call ht hcall]
    exact h
  | some value =>
    have hroom := hsafe nofun
    rw [← hvalues, Multiset.coe_card] at hroom
    obtain ⟨env, hset, honly, happended⟩ :=
      hdense.append hroom (step_allowed ht value rfl) hbits hwords
    have hcall : (Event.add aKey (some value)).call w.env = some (env, .otErrorNone) := by
      rw [Event.call, hadd, hset]
    have hlisting : ((listing ++ [value] : List (List UInt8)) : Multiset (List UInt8)) =
        w.values aKey + {value} := by
      rw [← hvalues]
      rfl
    rw [step_call ht hcall]
    have hinv := h.update honly happended
    rwa [hlisting] at hinv

/-- A delete that finds nothing. -/
theorem delete_nothing {t : World} (h : Inv w) {leftover : Leftover} (hneg : ¬ aIndex < 0)
    (ht : step w (.delete aKey aIndex leftover) = some t)
    (hdelete : otPlatSettingsDelete w.env aKey aIndex leftover = some (w.env, .otErrorNotFound))
    (hnone : valueAt w.env aKey aIndex = none) : Inv t := by
  have hall : aIndex ≠ -1 := by omega
  rw [step_call ht hdelete]
  simp only [Event.values, if_neg hall, hnone, Function.update_eq_self]
  exact h

theorem delete_all {t : World} (h : Inv w) {leftover : Leftover} (hneg : aIndex < 0)
    (ht : step w (.delete aKey aIndex leftover) = some t)
    (hsafe : aIndex = -1 ∨ w.values aKey = 0) : Inv t := by
  obtain ⟨listing, -, hdense⟩ := h.dense aKey
  have hcall : otPlatSettingsDelete w.env aKey aIndex leftover =
      some (efDelEnv w.env (bitmapKey aKey), .otErrorNone) := if_pos hneg
  have hnone : valueAt w.env aKey aIndex = none := by
    rw [valueAt, hdense.get true _ (.inl (by omega)), Option.bind_some, answer, if_pos hneg]
  have hvalues : (if aIndex = -1 then 0 else w.values aKey) = 0 := by
    split
    · rfl
    · exact hsafe.resolve_left ‹_›
  rw [step_call ht hcall]
  simp only [Event.values, hnone, hvalues]
  exact h.update (onlyKey_del w.env aKey) (dense_del w.env aKey)

theorem delete_last {t : World} (h : Inv w) {leftover : Leftover} {value : List UInt8}
    (hvalues : ((listing ++ [value] : List (List UInt8)) : Multiset (List UInt8)) = w.values aKey)
    (hdense : Dense w.env aKey (listing ++ [value])) (hwords : bitmapOf w.env aKey = some words)
    (ht : step w (.delete aKey listing.length leftover) = some t) : Inv t := by
  have hneg : ¬ (listing.length : Int) < 0 := by omega
  have hall : (listing.length : Int) ≠ -1 := by omega
  have hroom := hdense.room
  rw [List.length_append, List.length_singleton] at hroom
  have hindex : listing.length < otMaxEntryNum := by omega
  have hbit : Bitmap.bit words listing.length = true := by
    have hbits := hdense.bits
    unfold FirstBits at hbits
    rw [hwords] at hbits
    rw [hbits _ hindex, List.length_append, List.length_singleton]
    exact decide_eq_true (Nat.lt_succ_self _)
  have hvalue : valueAt w.env aKey listing.length = some value := by
    rw [hdense.valueAt hneg (.inl (by omega)), Int.toNat_natCast, List.getElem?_concat_length]
  obtain ⟨honly, hleft⟩ := hdense.delete_last hwords
  have hbytes : ∃ bytes, Files.content w.env (bitmapKey aKey) = some bytes := by
    unfold bitmapOf at hwords
    obtain ⟨bytes, hbytes, -⟩ := Option.bind_eq_some_iff.mp hwords
    exact ⟨bytes, hbytes⟩
  obtain ⟨bytes, hbytes⟩ := hbytes
  have hset : ¬ Bitmap.word words listing.length &&& Bitmap.mask listing.length = 0 := by
    rw [← indexMask_eq, and_indexMask, hbit]
    exact Bool.false_ne_true.symm
  have hcall := delete_eq w.env aKey hneg leftover
  simp only [hbytes, hwords, Int.toNat_natCast, getElem?_word (length_bitmapOf hwords) hindex,
    Option.map_some, indexMask_eq, if_neg hset] at hcall
  have herase : (w.values aKey).erase value = listing := by
    rw [← hvalues, ← Multiset.coe_add, Multiset.coe_singleton, Multiset.add_comm, Multiset.singleton_add,
      Multiset.erase_cons_head]
  rw [step_call ht hcall]
  simp only [Event.values, if_neg hall, hvalue, herase]
  exact h.update honly hleft

theorem delete_safe {t : World} (h : Inv w) {leftover : Leftover}
    (ht : step w (.delete aKey aIndex leftover) = some t)
    (hsafe : DeleteSafe w aKey aIndex leftover) : Inv t := by
  unfold DeleteSafe at hsafe
  by_cases hneg : aIndex < 0
  · rw [if_pos hneg] at hsafe
    exact delete_all h hneg ht hsafe
  · rw [if_neg hneg] at hsafe
    obtain ⟨listing, hvalues, hdense⟩ := h.dense aKey
    have hbits := hdense.bits
    have hdelete := delete_eq w.env aKey hneg leftover
    unfold FirstBits at hbits
    cases hbytes : Files.content w.env (bitmapKey aKey) with
    | none =>
      have hwords : bitmapOf w.env aKey = none := by rw [bitmapOf, hbytes, Option.bind_none]
      have hnone : valueAt w.env aKey aIndex = none := by
        rw [hwords] at hbits
        rw [hdense.valueAt hneg (.inr hwords), List.getElem?_eq_none (by omega)]
      rw [hbytes] at hdelete hsafe
      refine delete_nothing h hneg ht (hdelete.trans ?_) hnone
      by_cases hlen : leftover.len = otMaxEntryBitmap * 4
      · obtain ⟨hindex, hbit⟩ := hsafe.resolve_left (not_not_intro hlen)
        have hlt : aIndex.toNat < otMaxEntryNum := by omega
        simp only [hlen, if_true, getElem?_word (step_allowed ht) hlt, Option.map_some,
          and_indexMask, hbit]
      · simp only [hlen, if_false]
    | some bytes =>
      rw [hbytes] at hdelete hsafe
      cases hwords : bitmapOf w.env aKey with
      | none =>
        have hnone : valueAt w.env aKey aIndex = none := by
          rw [hwords] at hbits
          rw [hdense.valueAt hneg (.inr hwords), List.getElem?_eq_none (by omega)]
        rw [hwords] at hdelete
        exact delete_nothing h hneg ht hdelete hnone
      | some words =>
        have hlen : bytes.length = otMaxEntryBitmap * 4 := by
          rw [bitmapOf, hbytes, Option.bind_some] at hwords
          by_contra hlen
          rw [if_neg hlen] at hwords
          cases hwords
        obtain ⟨hcard, hindex⟩ := hsafe.resolve_left (not_not_intro hlen)
        have hlt : aIndex.toNat < otMaxEntryNum := by omega
        rw [← hvalues, Multiset.coe_card] at hcard
        by_cases hlisted : aIndex.toNat < listing.length
        · have hne : listing ≠ [] := List.ne_nil_of_length_pos (by omega)
          have hsplit := List.dropLast_concat_getLast hne
          have hlast : aIndex = listing.dropLast.length := by
            rw [List.length_dropLast]
            omega
          rw [← hsplit] at hvalues hdense
          rw [hlast] at ht
          exact delete_last h hvalues hdense hwords ht
        · have hbit : Bitmap.bit words aIndex.toNat = false := by
            rw [hwords] at hbits
            rw [hbits _ hlt]
            exact decide_eq_false hlisted
          refine delete_nothing h hneg ht (hdelete.trans ?_) ?_
          · simp only [hwords, getElem?_word (length_bitmapOf hwords) hlt, Option.map_some,
              and_indexMask, hbit, if_true]
          · rw [hdense.valueAt hneg (.inl hindex),
              List.getElem?_eq_none (Nat.not_lt.mp hlisted)]

theorem content_defaultEnvSet (aKey : UInt16) :
    Files.content defaultEnvSet (bitmapKey aKey) = none := by
  have hname : "boot_times".toList ≠ bitmapKey aKey := by
    intro heq
    have hhead := isOtName_head ⟨aKey, .inl rfl⟩
    rw [← heq] at hhead
    exact absurd hhead (by decide)
  exact congrArg (Option.map Prod.snd)
    (List.find?_cons_of_neg fun heq => hname (of_decide_eq_true heq))

theorem wipe_safe {t : World} (h : Inv w) (ht : step w .wipe = some t) : Inv t := by
  have hcall : Event.wipe.call w.env = some (defaultEnvSet, .otErrorNone) := rfl
  rw [step_call ht hcall]
  refine ⟨fun aKey => ⟨[], rfl, recorded_nil _ aKey, ?_⟩, h.inside⟩
  have hnone := content_defaultEnvSet aKey
  unfold FirstBits bitmapOf
  rw [hnone]
  rfl

theorem step_safe {t : World} (h : Inv w) (ht : step w e = some t) (hsafe : Safe w e t) :
    Kept w e t ∧ Inv t := by
  cases e with
  | get aKey aIndex aValue aValueLength =>
    have hinv := get_safe h ht hsafe
    exact ⟨hinv.kept nofun, hinv⟩
  | set aKey aValue =>
    have hinv := set_safe h ht
    exact ⟨hinv.kept nofun, hinv⟩
  | add aKey aValue =>
    have hinv := add_safe h ht hsafe
    exact ⟨hinv.kept nofun, hinv⟩
  | delete aKey aIndex leftover =>
    have hinv := delete_safe h ht hsafe
    exact ⟨hinv.kept nofun, hinv⟩
  | wipe =>
    have hinv := wipe_safe h ht
    have hcall : Event.wipe.call w.env = some (defaultEnvSet, .otErrorNone) := rfl
    refine ⟨hinv.kept fun _ name hname => ?_, hinv⟩
    rw [step_call ht hcall]
    exact (hsafe name hname).symm

/-- From a store in which the settings are numbered without gaps on, safe runs keep
the contract. -/
theorem kept_of_safe (h : Inv w) {events : List Event} (hsafe : Along step Safe w events) :
    Along step Kept w events :=
  along_of_invariant (fun _ _ _ hinv ht hsafe => step_safe hinv ht hsafe) h hsafe

/-- The store after a reset. -/
def fresh : World := ⟨defaultEnvSet, fun _ => 0, false⟩

theorem fresh_inv : Inv fresh where
  dense aKey := by
    refine ⟨[], rfl, recorded_nil _ aKey, ?_⟩
    unfold FirstBits bitmapOf
    have hnone := content_defaultEnvSet aKey
    rw [fresh, hnone]
    rfl
  inside := rfl

theorem card_add_le {t : World} {aValue : Option (List UInt8)}
    (ht : step w (.add aKey aValue) = some t) :
    (t.values aKey).card ≤ (w.values aKey).card + 1 := by
  unfold step at ht
  rw [if_pos (step_allowed ht)] at ht
  split at ht
  · cases ht
    exact Nat.le_succ _
  · cases ht
    simp only [Event.values]
    split
    · rw [Function.update_self, Multiset.card_add, Multiset.card_singleton]
    · exact Nat.le_succ _

/-- Two values, the second one deleted. -/
theorem kept_of_last_delete : Along step Kept fresh
    [.wipe, .add 1 (some [1]), .add 1 (some [2]), .delete 1 1 ⟨0, zeroBitmap⟩] := by
  refine kept_of_safe fresh_inv fun t ht => ?_
  cases ht
  refine ⟨fun _ _ => rfl, fun t ht => ?_⟩
  have hone := card_add_le ht
  refine ⟨fun _ => by decide, fun u hu => ?_⟩
  have htwo := card_add_le hu
  have hnone : (Event.values fresh .otErrorNone .wipe 1).card = 0 := rfl
  rw [hnone] at hone
  have hmax : otMaxEntryNum = 1024 := rfl
  refine ⟨fun _ => by omega, fun v _ => ⟨?_, along_nil⟩⟩
  change DeleteSafe u 1 1 ⟨0, zeroBitmap⟩
  rw [DeleteSafe, if_neg (by decide)]
  split
  · exact .inl (by decide)
  · exact .inr ⟨by omega, by decide⟩

/-- The first of two values deleted: the other one is no longer found. -/
theorem first_delete_not_kept : ¬ Along step Kept fresh
    [.add 1 (some [1]), .add 1 (some [2]), .delete 1 0 ⟨0, zeroBitmap⟩] := by
  have hfound : (run step fresh [.add 1 (some [1]), .add 1 (some [2])]).bind (fun t =>
      (step t (.delete 1 0 ⟨0, zeroBitmap⟩)).map fun u => ((u.values 1).card,
        (otPlatSettingsGet u.env true 1 0 false none).map fun r => r.2.err)) =
      some (1, some .otErrorNotFound) := by
    decide +kernel
  obtain ⟨t, hrun, hdelete⟩ := Option.bind_eq_some_iff.mp hfound
  obtain ⟨u, hu, heq⟩ := Option.map_eq_some_iff.mp hdelete
  refine not_along_of_run hrun hu fun hkept => ?_
  obtain ⟨listing, hlisting, hlists⟩ := hkept.listed 1
  have hone : listing.length = 1 := by
    rw [← Multiset.coe_card, hlisting]
    exact congrArg Prod.fst heq
  have hget := hlists 0 false none (by omega)
  have herr := congrArg Prod.snd heq
  rw [hget] at herr
  obtain ⟨value, rfl⟩ := List.length_eq_one_iff.mp hone
  cases herr

end BouffaloSdk.OtSettingsEasyflash
