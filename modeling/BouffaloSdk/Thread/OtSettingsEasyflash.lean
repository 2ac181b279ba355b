import BouffaloSdk.Kit.Bitmap
import BouffaloSdk.Kit.Files
import BouffaloSdk.Kit.Hex
import BouffaloSdk.Thread.OtSettings

/-!
# OpenThread settings on easyflash

`ot_settings_easyflash.c`: a bitmap for each key, and one record for each bit
that is set. Easyflash is the map from names to byte strings that it stands
for; the lock around each call is left out. The target takes a shift by its low
five bits.
-/

namespace BouffaloSdk.OtSettingsEasyflash
open Kit OtSettings

abbrev Name := List Char

abbrev Store := List (Name × List UInt8)

/-! ## Easyflash -/

/-- The bytes that fit the buffer and the saved length; nothing is touched where
there is no such name. -/
def efGetEnvBlob (env : Store) (key : Name) (bufLen : Nat) : Option (List UInt8 × Nat) :=
  (Files.content env key).map fun value => (value.take bufLen, value.length)

/-- A `NULL` value is refused. -/
def efSetEnvBlob (env : Store) (key : Name) (valueBuf : Option (List UInt8)) : Store × Bool :=
  match valueBuf with
  | none => (env, false)
  | some value => (Files.put env key value, true)

def efDelEnv (env : Store) (key : Name) : Store := Files.remove env key

def defaultEnvSet : Store := [("boot_times".toList, [0x33])]

def efEnvSetDefault (_ : Store) : Store := defaultEnvSet

/-! ## Settings -/

def otMaxKeyLen : Nat := 20
def otMaxEntryNum : Nat := 1024
def otMaxEntryBitmap : Nat := (otMaxEntryNum + 31) / 32

def bitmapKey (aKey : UInt16) : Name :=
  (snprintf otMaxKeyLen ("ot-bm-".toList ++ Hex.printfX aKey.toNat)).1

def recordKey (aKey : UInt16) (index : Nat) : Name :=
  (snprintf otMaxKeyLen
    ("ot-".toList ++ Hex.printfX aKey.toNat ++ '-' :: Hex.printfX index)).1

def noInstanceKey (aKey : UInt16) : Name :=
  (snprintf otMaxKeyLen ("_nl".toList ++ Hex.printf04x aKey)).1

/-- `1 << (index & 0xfffff)`. -/
def indexMask (index : Nat) : BitVec 32 := 1#32 <<< (index % 2 ^ 20 % 32)

/-- `none` where the bitmap is read beyond its end, or the length variable is
used without being there. -/
def otPlatSettingsGet (env : Store) (hasInstance : Bool) (aKey : UInt16) (aIndex : Int)
    (aValue : Bool) (aValueLength : Option Nat) : Option (Store × GetReply) :=
  let notFound : GetReply := ⟨.otErrorNotFound, none, aValueLength⟩
  if hasInstance then
    if aIndex < 0 then some (env, notFound)
    else
      match efGetEnvBlob env (bitmapKey aKey) (otMaxEntryBitmap * 4) with
      | none => some (env, notFound)
      | some (bytes, valueLength) =>
        if valueLength ≠ otMaxEntryBitmap * 4 then some (env, notFound)
        else
          let bitmapArray := Bitmap.ofBytes bytes
          let index := aIndex.toNat
          let i := index / 32
          bitmapArray[i]?.bind fun word =>
            if word &&& indexMask index = 0 then some (env, notFound)
            else
              match Files.content env (recordKey aKey index) with
              | none =>
                let bitmapArray := bitmapArray.set i (word &&& ~~~ indexMask index)
                some ((efSetEnvBlob env (bitmapKey aKey) (some (Bitmap.toBytes bitmapArray))).1,
                  notFound)
              | some value =>
                some (env, ⟨.otErrorNone, if aValue then aValueLength.map value.take else none,
                  aValueLength.map fun _ => value.length % 2 ^ 16⟩)
  else
    aValueLength.map fun size =>
      (env, ⟨.otErrorNone,
        if aValue then (efGetEnvBlob env (noInstanceKey aKey) size).map Prod.fst else none,
        aValueLength⟩)

def otPlatSettingsSetRaw (env : Store) (hasInstance : Bool) (aKey : UInt16)
    (aValue : Option (List UInt8)) (index : Nat) (bitmapArray : List (BitVec 32)) :
    Option (Store × OtError) :=
  let i := index / 32
  if hasInstance then
    bitmapArray[i]?.map fun word =>
      let bitmapArray := bitmapArray.set i (word ||| indexMask index)
      let (env, ok) := efSetEnvBlob env (recordKey aKey index) aValue
      if ok then
        let (env, ok) := efSetEnvBlob env (bitmapKey aKey) (some (Bitmap.toBytes bitmapArray))
        (env, if ok then .otErrorNone else .otErrorFailed)
      else (env, .otErrorFailed)
  else
    let (env, ok) := efSetEnvBlob env (noInstanceKey aKey) aValue
    some (env, if ok then .otErrorNone else .otErrorFailed)

def zeroBitmap : List (BitVec 32) := List.replicate otMaxEntryBitmap 0

def otPlatSettingsSet (env : Store) (hasInstance : Bool) (aKey : UInt16)
    (aValue : Option (List UInt8)) : Option (Store × OtError) :=
  otPlatSettingsSetRaw env hasInstance aKey aValue 0 zeroBitmap

/-- The first free index from `index` on, `more` of them being left. -/
def freeIndex (bitmapArray : List (BitVec 32)) (index : Nat) : (more : Nat) → Nat
  | 0 => index
  | more + 1 =>
    if bitmapArray.getD (index / 32) 0 &&& indexMask index = 0 then index
    else freeIndex bitmapArray (index + 1) more

def otPlatSettingsAdd (env : Store) (hasInstance : Bool) (aKey : UInt16)
    (aValue : Option (List UInt8)) : Option (Store × OtError) :=
  match efGetEnvBlob env (bitmapKey aKey) (otMaxEntryBitmap * 4) with
  | none => otPlatSettingsSetRaw env hasInstance aKey aValue 0 zeroBitmap
  | some (bytes, len) =>
    if len ≠ otMaxEntryBitmap * 4 then
      otPlatSettingsSetRaw env hasInstance aKey aValue 0 zeroBitmap
    else
      let bitmapArray := Bitmap.ofBytes bytes
      let entryNum := len * 8
      let index := freeIndex bitmapArray 0 entryNum
      if index = entryNum then some (env, .otErrorNoBufs)
      else otPlatSettingsSetRaw env hasInstance aKey aValue index bitmapArray

/-- What the stack holds where the length and the bitmap of a delete will be. -/
structure Leftover where
  len : Nat
  bitmapArray : List (BitVec 32)
  deriving DecidableEq, Repr

/-- The length is not initialised, and keeps what it has where there is no
bitmap. -/
def otPlatSettingsDelete (env : Store) (aKey : UInt16) (aIndex : Int) (leftover : Leftover) :
    Option (Store × OtError) :=
  if aIndex < 0 then some (efDelEnv env (bitmapKey aKey), .otErrorNone)
  else
    let (bitmapArray, len) :=
      match efGetEnvBlob env (bitmapKey aKey) (otMaxEntryBitmap * 4) with
      | none => (leftover.bitmapArray, leftover.len)
      | some (bytes, len) => (Bitmap.ofBytes bytes, len)
    if len ≠ otMaxEntryBitmap * 4 then some (env, .otErrorNotFound)
    else
      let index := aIndex.toNat
      let i := index / 32
      bitmapArray[i]?.map fun word =>
        if word &&& indexMask index = 0 then (env, .otErrorNotFound)
        else
          let bitmapArray := bitmapArray.set i (word &&& ~~~ indexMask index)
          let env := (efSetEnvBlob env (bitmapKey aKey) (some (Bitmap.toBytes bitmapArray))).1
          (efDelEnv env (recordKey aKey index), .otErrorNone)

def otPlatSettingsWipe (env : Store) : Store := efEnvSetDefault env

end BouffaloSdk.OtSettingsEasyflash
