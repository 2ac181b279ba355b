import BouffaloSdk.Fs.Littlefs
import BouffaloSdk.Kit.Hex
import BouffaloSdk.Thread.OtSettings

/-!
# OpenThread settings on littlefs

`ot_settings_littlefs.c`: one file for each key in the directory of the
namespace, and a flag file that stands while a wipe is under way. The lock
around each call is left out: calls do not interleave.
-/

namespace BouffaloSdk.OtSettingsLittlefs
open Kit Littlefs OtSettings

def openthreadLfsNamespace : Path := "/_ot_".toList

def openthreadLfsWipeFlag : Path := "/_ot_wipe_".toList

def otMaxKeyLen : Nat := 12 + (openthreadLfsNamespace.length + 1) + 1

/-- `hasInstance` tells whether an OpenThread instance was passed. -/
def keyPath (hasInstance : Bool) (aKey : UInt16) : Path :=
  (snprintf otMaxKeyLen (openthreadLfsNamespace ++
    (if hasInstance then "/ot-" else "/_nl").toList ++ Hex.printf04x aKey)).1

/-- The buffer, if passed, is at least as long as the length variable says. -/
def otPlatSettingsGet (fs : Lfs) (hasInstance : Bool) (aKey : UInt16) (aIndex : Int) (aValue : Bool)
    (aValueLength : Option Nat) : Lfs × GetReply :=
  if aIndex ≠ 0 then (fs, ⟨.otErrorNotFound, none, aValueLength⟩)
  else
    let key := keyPath hasInstance aKey
    let (fs, ret) := lfsFileOpen fs key false
    if ret ≠ lfsErrOk then (fs, ⟨.otErrorNotFound, none, aValueLength⟩)
    else
      match aValue, aValueLength with
      | true, some size =>
        let (fs, ret, bytes) := lfsFileRead fs key 0 size
        (fs, ⟨if ret ≥ lfsErrOk then .otErrorNone else .otErrorNotFound, some bytes,
          some ret.toNat⟩)
      | _, _ => (fs, ⟨.otErrorNone, none, aValueLength⟩)

def otPlatSettingsSet (fs : Lfs) (hasInstance : Bool) (aKey : UInt16) (aValue : List UInt8) :
    Lfs × OtError :=
  let key := keyPath hasInstance aKey
  let (fs, ret) := lfsFileOpen fs key true
  if ret ≠ lfsErrOk then (fs, .otErrorFailed)
  else if aValue ≠ [] then
    let (fs, ret) := lfsFileWrite fs key aValue
    (fs, if ret ≥ lfsErrOk then .otErrorNone else .otErrorFailed)
  else (fs, .otErrorNone)

def otPlatSettingsAdd (fs : Lfs) (hasInstance : Bool) (aKey : UInt16) (aValue : List UInt8) :
    Lfs × OtError :=
  otPlatSettingsSet fs hasInstance aKey aValue

def otPlatSettingsDelete (fs : Lfs) (hasInstance : Bool) (aKey : UInt16) (_aIndex : Int) :
    Lfs × OtError :=
  let (fs, ret) := lfsRemove fs (keyPath hasInstance aKey)
  (fs, if ret ≥ lfsErrOk ∨ ret = lfsErrNoent then .otErrorNone else .otErrorFailed)

/-- The loop over the directory, `entries` not yet read. -/
def wipeLoop (fs : Lfs) : List (Path × LfsType) → Lfs
  | [] => fs
  | (name, type) :: entries =>
    if type ≠ .lfsTypeReg then wipeLoop fs entries
    else
      let (key, ret) := snprintf otMaxKeyLen (openthreadLfsNamespace ++ ['/'] ++ name)
      if ret > otMaxKeyLen then wipeLoop fs entries
      else
        let (fs, ret) := lfsRemove fs key
        if ret < lfsErrOk then fs else wipeLoop fs entries

def otPlatSettingsWipe (fs : Lfs) : Lfs :=
  let (fs, ret) := lfsFileOpen fs openthreadLfsWipeFlag true
  if ret ≠ lfsErrOk then fs
  else
    let (fs, ret) := lfsDirOpen fs openthreadLfsNamespace
    if ret < lfsErrOk then fs
    else
      let fs := wipeLoop fs (lfsDirEntries fs openthreadLfsNamespace)
      (lfsRemove fs openthreadLfsWipeFlag).1

def otPlatSettingsInit (fs : Lfs) : Lfs :=
  if (lfsStat fs openthreadLfsNamespace).1 = lfsErrOk then
    if (lfsStat fs openthreadLfsWipeFlag).1 = lfsErrOk then otPlatSettingsWipe fs else fs
  else (lfsMkdir fs openthreadLfsNamespace).1

end BouffaloSdk.OtSettingsLittlefs
