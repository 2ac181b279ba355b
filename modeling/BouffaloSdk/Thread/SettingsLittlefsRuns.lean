import BouffaloSdk.Kit.Runs
import BouffaloSdk.Thread.OtSettingsLittlefs
import Mathlib.Algebra.Order.BigOperators.Group.List
import Mathlib.Algebra.Order.Group.Nat

/-!
# Settings over runs

The platform contract gives every key a list of values. Which runs keep the
files in agreement with it.
-/

namespace BouffaloSdk.OtSettingsLittlefs
open Kit Kit.Runs Littlefs OtSettings

/-- A key, with whether an instance is passed along. -/
abbrev Key := Bool × UInt16

def Key.path (key : Key) : Path := keyPath key.1 key.2

abbrev Values := Key → List (List UInt8)

inductive Event
  | get (key : Key) (aIndex : Int) (aValue : Bool) (aValueLength : Option Nat)
  | set (key : Key) (aValue : List UInt8)
  | add (key : Key) (aValue : List UInt8)
  | delete (key : Key) (aIndex : Int)
  | wipe
  /-- The power goes after `changes` changes of a wipe, and the next boot follows. -/
  | wipeInterrupted (changes : Nat)
  | reboot
  deriving DecidableEq, Repr

structure World where
  fs : Lfs
  /-- The values that the contract gives each key. -/
  values : Values

/-- Lengths are 16 bits wide. -/
def Event.Allowed : Event → Prop
  | .get _ _ _ aValueLength => ∀ size ∈ aValueLength, size < 2 ^ 16
  | .set _ aValue | .add _ aValue => aValue.length < 2 ^ 16
  | _ => True

instance (e : Event) : Decidable e.Allowed := by
  cases e <;> unfold Event.Allowed <;> infer_instance

def Event.fs (fs : Lfs) : Event → Lfs
  | .get key aIndex aValue aValueLength =>
    (otPlatSettingsGet fs key.1 key.2 aIndex aValue aValueLength).1
  | .set key aValue => (otPlatSettingsSet fs key.1 key.2 aValue).1
  | .add key aValue => (otPlatSettingsAdd fs key.1 key.2 aValue).1
  | .delete key aIndex => (otPlatSettingsDelete fs key.1 key.2 aIndex).1
  | .wipe => otPlatSettingsWipe fs
  | .wipeInterrupted changes =>
    otPlatSettingsInit { otPlatSettingsWipe { fs with power := some changes } with power := none }
  | .reboot => otPlatSettingsInit fs

/-- The contract. A wipe of which nothing reached the flash has not begun. -/
def Event.values (values : Values) : Event → Values
  | .get .. | .wipeInterrupted 0 | .reboot => values
  | .set key aValue => Function.update values key [aValue]
  | .add key aValue => Function.update values key (values key ++ [aValue])
  | .delete key aIndex =>
    Function.update values key
      (if aIndex = -1 then [] else if aIndex < 0 then values key
        else (values key).eraseIdx aIndex.toNat)
  | .wipe | .wipeInterrupted (_ + 1) => fun _ => []

def step (w : World) (e : Event) : Option World :=
  if e.Allowed then some ⟨e.fs w.fs, e.values w.values⟩ else none

/-- Every key reads as the values it has. -/
def World.Readable (w : World) : Prop :=
  ∀ (key : Key) (aIndex : Int) (size : Nat), (∀ value ∈ w.values key, value.length ≤ size) →
    (otPlatSettingsGet w.fs key.1 key.2 aIndex true (some size)).2 =
      answer (w.values key) aIndex true (some size)

structure Kept (w : World) (e : Event) (t : World) : Prop where
  reply : ∀ key aIndex aValue aValueLength, e = .get key aIndex aValue aValueLength →
    (otPlatSettingsGet w.fs key.1 key.2 aIndex aValue aValueLength).2 =
      answer (w.values key) aIndex aValue aValueLength
  readable : t.Readable

/-- A get is given room for the whole value, or already knows its length; a set
does not shorten a value; an add finds no value; a delete of anything but index
0 or -1 finds no value. -/
def Fits (w : World) (e : Event) (_ : World) : Prop :=
  match e with
  | .get key aIndex aValue aValueLength =>
    aIndex = 0 → ∀ value ∈ w.values key, ∀ size ∈ aValueLength,
      if aValue then value.length ≤ size else size = value.length
  | .set key aValue => ∀ value ∈ w.values key, value.length ≤ aValue.length
  | .add key _ => w.values key = []
  | .delete key aIndex => aIndex = 0 ∨ aIndex = -1 ∨ w.values key = []
  | .wipe | .wipeInterrupted _ | .reboot => True

/-- The volume of the settings: the directory of the namespace holds only files
of keys. -/
structure Volume (fs : Lfs) : Prop where
  sound : fs.Sound
  root : [] ∈ fs.dirs
  namespaceDir : openthreadLfsNamespace ∈ fs.dirs
  flag : openthreadLfsWipeFlag ∉ fs.dirs
  key : ∀ key : Key, key.path ∉ fs.dirs
  own : ∀ path, (nameIn openthreadLfsNamespace path).isSome → (fs.content path).isSome →
    ∃ key : Key, path = key.path

/-- A volume that no wipe has been left on. -/
structure Prepared (fs : Lfs) : Prop extends Volume fs where
  power : fs.power = none
  noFlag : fs.content openthreadLfsWipeFlag = none

/-- The values the files of a volume stand for. -/
def storedValues (fs : Lfs) : Values := fun key => (fs.content key.path).toList

def start (fs : Lfs) : World := ⟨fs, storedValues fs⟩

structure Inv (w : World) : Prop where
  prepared : Prepared w.fs
  stored : w.values = storedValues w.fs

variable {fs t : Lfs} {w : World} {e : Event} {key : Key} {path : Path} {bytes : List UInt8}

/-! ## Paths -/

/-- The name of the file of a key. -/
def Key.name (key : Key) : Path :=
  (if key.1 then ['o', 't', '-'] else ['_', 'n', 'l']) ++ Hex.printf04x key.2

theorem namespace_eq : openthreadLfsNamespace = ['/', '_', 'o', 't', '_'] := by
  decide

theorem Key.path_eq (key : Key) : key.path = openthreadLfsNamespace ++ '/' :: key.name := by
  have hot : "/ot-".toList = ['/', 'o', 't', '-'] := by decide
  have hnl : "/_nl".toList = ['/', '_', 'n', 'l'] := by decide
  obtain ⟨hasInstance, aKey⟩ := key
  cases hasInstance <;>
    simp [path, name, keyPath, snprintf, otMaxKeyLen, namespace_eq, Hex.printf04x, hot, hnl]

theorem Key.length_path (key : Key) : key.path.length = 13 := by
  rw [path_eq, namespace_eq]
  obtain ⟨hasInstance, aKey⟩ := key
  cases hasInstance <;> rfl

theorem Key.slash_notMem_name (key : Key) : '/' ∉ key.name := by
  have htext := Hex.slash_notMem_printf04x key.2
  unfold name
  split <;> simp [htext]

theorem Key.path_injective : Function.Injective Key.path := by
  rintro ⟨ia, ka⟩ ⟨ib, kb⟩ h
  rw [path_eq, path_eq] at h
  have hname := (List.cons.inj (List.append_cancel_left h)).2
  have htext : ia = ib ∧ Hex.printf04x ka = Hex.printf04x kb := by
    cases ia <;> cases ib <;> simp_all [name]
  rw [htext.1, Hex.printf04x_injective htext.2]

theorem nameIn_key (key : Key) : nameIn openthreadLfsNamespace key.path = some key.name := by
  rw [Key.path_eq]
  exact nameIn_append _ key.slash_notMem_name

theorem parent_key (key : Key) : parent key.path = openthreadLfsNamespace := by
  rw [Key.path_eq]
  exact parent_append _ key.slash_notMem_name

theorem nameIn_flag : nameIn openthreadLfsNamespace openthreadLfsWipeFlag = none := by
  decide

theorem parent_flag : parent openthreadLfsWipeFlag = [] := by
  decide

theorem key_ne_flag (key : Key) : key.path ≠ openthreadLfsWipeFlag := by
  intro h
  have hin := nameIn_key key
  rw [h, nameIn_flag] at hin
  cases hin

/-! ## Files of single keys -/

theorem prepared_of_rewritten {bytes : Option (List UInt8)} (hr : Rewritten fs t key.path bytes)
    (h : Prepared fs) : Prepared t where
  sound := hr.sound
  root := hr.dirs ▸ h.root
  namespaceDir := hr.dirs ▸ h.namespaceDir
  flag := hr.dirs ▸ h.flag
  key := hr.dirs ▸ h.key
  own path hin hpath := by
    rw [hr.content] at hpath
    by_cases heq : path = key.path
    · exact ⟨key, heq⟩
    · rw [Function.update_of_ne heq] at hpath
      exact h.own path hin hpath
  power := hr.power
  noFlag := by
    rw [hr.content, Function.update_of_ne (key_ne_flag key).symm]
    exact h.noFlag

theorem storedValues_of_rewritten {bytes : Option (List UInt8)}
    (hr : Rewritten fs t key.path bytes) :
    storedValues t = Function.update (storedValues fs) key bytes.toList := by
  funext other
  unfold storedValues
  rw [hr.content]
  by_cases h : other = key
  · subst h
    rw [Function.update_self, Function.update_self]
  · rw [Function.update_of_ne h, Function.update_of_ne (Key.path_injective.ne h)]

theorem get_eq (h : Prepared fs) (key : Key) (aIndex : Int) (aValue : Bool)
    (aValueLength : Option Nat) :
    otPlatSettingsGet fs key.1 key.2 aIndex aValue aValueLength =
      (fs, match if aIndex = 0 then fs.content key.path else none with
        | none => ⟨.otErrorNotFound, none, aValueLength⟩
        | some bytes =>
          ⟨.otErrorNone, if aValue then aValueLength.map bytes.take else none,
            if aValue then aValueLength.map fun size => (bytes.take size).length
              else aValueLength⟩) := by
  have hpath : keyPath key.1 key.2 = key.path := rfl
  unfold otPlatSettingsGet
  by_cases hindex : aIndex = 0
  · simp only [hindex, ne_eq, not_true_eq_false, if_false, if_true, hpath]
    cases hfile : fs.content key.path with
    | none =>
      rw [lfsFileOpen_absent h.sound (h.key key) hfile]
      simp [lfsErrNoent, lfsErrOk]
    | some bytes =>
      rw [lfsFileOpen_present h.sound (h.key key) hfile]
      cases aValue <;> cases aValueLength <;>
        simp [lfsFileRead_of_sound h.sound, hfile, lfsErrOk, -List.length_take]
  · rw [if_pos hindex, if_neg hindex]

theorem set_rewritten (h : Prepared fs) (key : Key) (aValue : List UInt8) :
    Rewritten fs (otPlatSettingsSet fs key.1 key.2 aValue).1 key.path
      (some (aValue ++ ((fs.content key.path).getD []).drop aValue.length)) := by
  have hpath : keyPath key.1 key.2 = key.path := rfl
  have hparent : parent key.path ∈ fs.dirs := by
    rw [parent_key]
    exact h.namespaceDir
  obtain ⟨opened, hopen, hopened⟩ := lfsFileOpen_rewritten h.sound h.power (h.key key) hparent
  simp only [otPlatSettingsSet, hpath, hopen, ne_eq, not_true_eq_false, if_false]
  by_cases hempty : aValue = []
  · subst hempty
    rw [if_neg (not_not_intro rfl), List.nil_append, List.length_nil, List.drop_zero]
    exact hopened
  · obtain ⟨written, hwrite, hwritten⟩ :=
      lfsFileWrite_rewritten hopened.sound hopened.power key.path aValue
    rw [if_pos hempty, hwrite]
    rw [hopened.content, Function.update_self, Option.getD_some] at hwritten
    exact hopened.trans hwritten

theorem delete_rewritten (h : Prepared fs) (key : Key) (aIndex : Int) :
    Rewritten fs (otPlatSettingsDelete fs key.1 key.2 aIndex).1 key.path none :=
  lfsRemove_rewritten h.sound h.power (h.key key)

/-! ## Wiping -/

def removeKey (key : Key) : FileChange := (Files.remove · key.path)

def removeFlag : FileChange := (Files.remove · openthreadLfsWipeFlag)

def putFlag : FileChange := (Files.put · openthreadLfsWipeFlag [])

theorem changeFiles_dirs (fs : Lfs) (change : FileChange) :
    (fs.changeFiles change).dirs = fs.dirs := by
  unfold Lfs.changeFiles Lfs.commit
  split <;> rfl

theorem changeFiles_faults (fs : Lfs) (change : FileChange) :
    (fs.changeFiles change).faults = fs.faults := by
  unfold Lfs.changeFiles Lfs.commit
  split <;> rfl

theorem content_changeFiles (fs : Lfs) (change : FileChange) :
    fs.power = some 0 ∧ fs.changeFiles change = fs ∨
      (fs.changeFiles change).content = Files.content (change fs.files) := by
  unfold Lfs.changeFiles Lfs.commit
  split
  · exact .inr rfl
  · exact .inl ⟨‹_›, rfl⟩
  · exact .inr rfl

/-- Nothing came into the namespace. -/
theorem Volume.of_fewer (h : Volume fs) (hdirs : t.dirs = fs.dirs) (hfaults : t.faults = fs.faults)
    (hfewer : ∀ path, (nameIn openthreadLfsNamespace path).isSome → (t.content path).isSome →
      (fs.content path).isSome) : Volume t where
  sound := hfaults.trans h.sound
  root := hdirs ▸ h.root
  namespaceDir := hdirs ▸ h.namespaceDir
  flag := hdirs ▸ h.flag
  key := hdirs ▸ h.key
  own path hin hpath := h.own path hin (hfewer path hin hpath)

theorem Volume.removeKey (h : Volume fs) (key : Key) : Volume (fs.changeFiles (removeKey key)) := by
  refine h.of_fewer (changeFiles_dirs ..) (changeFiles_faults ..) fun path _ hpath => ?_
  cases content_changeFiles fs (OtSettingsLittlefs.removeKey key) with
  | inl hoff => rwa [hoff.2] at hpath
  | inr hcontent =>
    rw [hcontent, OtSettingsLittlefs.removeKey, Files.content_remove] at hpath
    by_cases heq : path = key.path
    · rw [heq, Function.update_self] at hpath
      cases hpath
    · rwa [Function.update_of_ne heq] at hpath

theorem Volume.putFlag (h : Volume fs) : Volume (fs.changeFiles putFlag) := by
  refine h.of_fewer (changeFiles_dirs ..) (changeFiles_faults ..) fun path hin hpath => ?_
  have hne : path ≠ openthreadLfsWipeFlag := by
    rintro rfl
    rw [nameIn_flag] at hin
    cases hin
  cases content_changeFiles fs OtSettingsLittlefs.putFlag with
  | inl hoff => rwa [hoff.2] at hpath
  | inr hcontent =>
    rwa [hcontent, OtSettingsLittlefs.putFlag, Files.content_put, Function.update_of_ne hne]
      at hpath

theorem content_removeKey_of_ne (fs : Lfs) (hne : path ≠ key.path) :
    (fs.changeFiles (removeKey key)).content path = fs.content path := by
  cases content_changeFiles fs (removeKey key) with
  | inl hoff => rw [hoff.2]
  | inr hcontent =>
    rw [hcontent, removeKey, Files.content_remove, Function.update_of_ne hne]
    rfl

theorem content_putFlag_key (fs : Lfs) (key : Key) :
    (fs.changeFiles putFlag).content key.path = fs.content key.path := by
  cases content_changeFiles fs putFlag with
  | inl hoff => rw [hoff.2]
  | inr hcontent =>
    rw [hcontent, putFlag, Files.content_put, Function.update_of_ne (key_ne_flag key)]
    rfl

/-- The flag stands, unless the power went before it could. -/
def Flagged (fs : Lfs) : Prop :=
  (fs.content openthreadLfsWipeFlag).isSome ∨ fs.power = some 0

theorem Flagged.removeKey (h : Flagged fs) (key : Key) :
    Flagged (fs.changeFiles (removeKey key)) := by
  cases h with
  | inl hflag =>
    left
    rwa [content_removeKey_of_ne fs (key_ne_flag key).symm]
  | inr hoff =>
    right
    rw [Lfs.changeFiles, Lfs.commit, hoff]
    exact hoff

theorem flagged_putFlag (fs : Lfs) : Flagged (fs.changeFiles putFlag) := by
  cases content_changeFiles fs putFlag with
  | inl hoff => exact .inr (hoff.2.symm ▸ hoff.1)
  | inr hcontent =>
    left
    rw [hcontent, putFlag, Files.content_put, Function.update_self]
    rfl

theorem wipeLoop_dirs (fs : Lfs) (names : List Path) (entries : List (Path × LfsType)) :
    wipeLoop fs (names.map (·, .lfsTypeDir) ++ entries) = wipeLoop fs entries := by
  induction names with
  | nil => rfl
  | cons name names ih =>
    rw [List.map_cons, List.cons_append, wipeLoop, if_pos (by decide), ih]

theorem wipeLoop_keys (h : Volume fs) {keys : List Key} (hnodup : keys.Nodup)
    (hpresent : ∀ key ∈ keys, (fs.content key.path).isSome) :
    wipeLoop fs (keys.map fun key => (key.name, .lfsTypeReg)) =
      (keys.map removeKey).foldl Lfs.changeFiles fs := by
  induction keys generalizing fs with
  | nil => rfl
  | cons key keys ih =>
    obtain ⟨hnew, hnodup⟩ := List.nodup_cons.mp hnodup
    obtain ⟨bytes, hbytes⟩ := Option.isSome_iff_exists.mp (hpresent key List.mem_cons_self)
    have hprint : snprintf otMaxKeyLen (openthreadLfsNamespace ++ ['/'] ++ key.name) =
        (key.path, 13) := by
      have hpath : openthreadLfsNamespace ++ ['/'] ++ key.name = key.path := by
        rw [Key.path_eq, List.append_assoc]
        rfl
      rw [hpath, snprintf, key.length_path, List.take_of_length_le]
      · rfl
      · rw [key.length_path]
        decide
    have hremove := lfsRemove_present h.sound (h.key key) hbytes
    have hrest := ih (h.removeKey key) hnodup fun other hother => by
      have hne : other.path ≠ key.path := by
        intro heq
        rw [Key.path_injective heq] at hother
        exact hnew hother
      rw [content_removeKey_of_ne fs hne]
      exact hpresent other (List.mem_cons_of_mem _ hother)
    rw [List.map_cons, wipeLoop, if_neg (by decide), hprint, List.map_cons, List.foldl_cons,
      ← hrest]
    simp only [hremove]
    rfl

/-- The changes a wipe makes. -/
def wipeChanges (flagged : Bool) (keys : List Key) : List FileChange :=
  (if flagged then [] else [putFlag]) ++ keys.map removeKey ++ [removeFlag]

theorem removeKeys_flagged (keys : List Key) (hflag : Flagged fs) :
    Flagged ((keys.map removeKey).foldl Lfs.changeFiles fs) := by
  induction keys generalizing fs with
  | nil => exact hflag
  | cons key keys ih => exact ih (hflag.removeKey key)

theorem removeKeys_volume (keys : List Key) (h : Volume fs) :
    Volume ((keys.map removeKey).foldl Lfs.changeFiles fs) := by
  induction keys generalizing fs with
  | nil => exact h
  | cons key keys ih => exact ih (h.removeKey key)

theorem remove_flag (h : Volume fs) (hflag : Flagged fs) :
    (lfsRemove fs openthreadLfsWipeFlag).1 = fs.changeFiles removeFlag := by
  cases hfile : fs.content openthreadLfsWipeFlag with
  | some bytes =>
    rw [lfsRemove_present h.sound h.flag hfile]
    rfl
  | none =>
    have hoff : fs.power = some 0 := by
      cases hflag with
      | inl hpresent =>
        rw [hfile] at hpresent
        cases hpresent
      | inr hoff => exact hoff
    rw [lfsRemove_absent h.sound h.flag hfile, Lfs.changeFiles, Lfs.commit, hoff]

/-- The wipe once the flag is written. -/
theorem wipe_entries (h : Volume fs) (hflag : Flagged fs) :
    ∃ keys : List Key, (∀ key, key ∈ keys ↔ (fs.content key.path).isSome) ∧
      (lfsRemove (wipeLoop fs (lfsDirEntries fs openthreadLfsNamespace)) openthreadLfsWipeFlag).1 =
        (keys.map removeKey ++ [removeFlag]).foldl Lfs.changeFiles fs := by
  obtain ⟨keys, hnames, hnodup, hpresent⟩ := exists_listing nameIn_key Key.path_injective h.own
  have hentries : lfsDirEntries fs openthreadLfsNamespace =
      (['.'] :: ['.', '.'] :: fs.dirs.filterMap (nameIn openthreadLfsNamespace)).map
        (·, LfsType.lfsTypeDir) ++ keys.map fun key => (key.name, LfsType.lfsTypeReg) := by
    rw [lfsDirEntries, hnames, List.map_map]
    rfl
  refine ⟨keys, hpresent, ?_⟩
  rw [hentries, wipeLoop_dirs, wipeLoop_keys h hnodup fun key hkey => (hpresent key).mp hkey,
    remove_flag (removeKeys_volume keys h) (removeKeys_flagged keys hflag), List.foldl_append]
  rfl

theorem wipe_eq (h : Volume fs) :
    ∃ keys : List Key, (∀ key, key ∈ keys ↔ (fs.content key.path).isSome) ∧
      otPlatSettingsWipe fs =
        (wipeChanges (fs.content openthreadLfsWipeFlag).isSome keys).foldl Lfs.changeFiles fs := by
  have hdir : ∀ fs : Lfs, Volume fs → lfsDirOpen fs openthreadLfsNamespace = (fs, lfsErrOk) := by
    intro fs h
    rw [lfsDirOpen, Lfs.attempt_of_sound h.sound, if_pos h.namespaceDir]
  unfold otPlatSettingsWipe
  cases hflag : fs.content openthreadLfsWipeFlag with
  | some bytes =>
    obtain ⟨keys, hkeys, hwiped⟩ := wipe_entries h (.inl (by rw [hflag]; rfl))
    refine ⟨keys, hkeys, ?_⟩
    simp only [lfsFileOpen_present h.sound h.flag hflag, hdir fs h, ne_eq, not_true_eq_false,
      if_false, lfsErrOk, Int.lt_irrefl, hwiped]
    rfl
  | none =>
    obtain ⟨keys, hkeys, hwiped⟩ := wipe_entries h.putFlag (flagged_putFlag fs)
    refine ⟨keys, fun key => ?_, ?_⟩
    · rw [hkeys, content_putFlag_key]
    · have hparent : parent openthreadLfsWipeFlag ∈ fs.dirs := by
        rw [parent_flag]
        exact h.root
      have hopen : lfsFileOpen fs openthreadLfsWipeFlag true =
          (fs.changeFiles putFlag, lfsErrOk) :=
        lfsFileOpen_create h.sound h.flag hflag hparent
      simp only [hopen, hdir _ h.putFlag, ne_eq, not_true_eq_false, if_false, lfsErrOk,
        Int.lt_irrefl, hwiped]
      rfl

/-- Only what the settings keep is gone. -/
structure Cleared (fs t : Lfs) : Prop where
  content : ∀ path, t.content path =
    if path = openthreadLfsWipeFlag ∨ (nameIn openthreadLfsNamespace path).isSome then none
    else fs.content path
  dirs : t.dirs = fs.dirs
  sound : t.Sound
  power : t.power = none

theorem Cleared.prepared (hc : Cleared fs t) (h : Volume fs) : Prepared t where
  toVolume := h.of_fewer hc.dirs (hc.sound.trans h.sound.symm) fun path hin hpath => by
    rw [hc.content, if_pos (.inr hin)] at hpath
    cases hpath
  power := hc.power
  noFlag := by rw [hc.content, if_pos (.inl rfl)]

theorem Cleared.storedValues (hc : Cleared fs t) : storedValues t = fun _ => [] := by
  funext key
  have hgone : t.content key.path = none := by
    rw [hc.content, if_pos (.inr (by rw [nameIn_key]; rfl))]
  rw [OtSettingsLittlefs.storedValues, hgone]
  rfl

def applyChanges (changes : List FileChange) (files : List (Path × List UInt8)) :
    List (Path × List UInt8) :=
  changes.foldl (fun files change => change files) files

theorem content_removeKeys (keys : List Key) (files : List (Path × List UInt8)) (path : Path) :
    Files.content (applyChanges (keys.map removeKey) files) path =
      if path ∈ keys.map Key.path then none else Files.content files path := by
  have hfold : applyChanges (keys.map removeKey) files =
      (keys.map Key.path).foldl Files.remove files := by
    rw [applyChanges, List.foldl_map, List.foldl_map]
    rfl
  rw [hfold]
  by_cases h : path ∈ keys.map Key.path
  · rw [if_pos h]
    exact (Files.content_removeAll ..).trans (if_pos h)
  · rw [if_neg h]
    exact (Files.content_removeAll ..).trans (if_neg h)

theorem notMem_paths {keys : List Key} (h : nameIn openthreadLfsNamespace path = none) :
    path ∉ keys.map Key.path := by
  intro hmem
  obtain ⟨key, -, rfl⟩ := List.mem_map.mp hmem
  rw [nameIn_key] at h
  cases h

/-- All changes of a wipe. -/
theorem content_wipeChanges (h : Volume fs) {keys : List Key}
    (hkeys : ∀ key, key ∈ keys ↔ (fs.content key.path).isSome) (flagged : Bool) (path : Path) :
    Files.content (applyChanges (wipeChanges flagged keys) fs.files) path =
      if path = openthreadLfsWipeFlag ∨ (nameIn openthreadLfsNamespace path).isSome then none
      else fs.content path := by
  have hstart : ∀ path ≠ openthreadLfsWipeFlag,
      Files.content (applyChanges (if flagged then [] else [putFlag]) fs.files) path =
        fs.content path := by
    intro path hne
    cases flagged with
    | true => rfl
    | false => exact (congrFun (Files.content_put ..) path).trans (Function.update_of_ne hne _ _)
  have happend : applyChanges (wipeChanges flagged keys) fs.files =
      removeFlag (applyChanges (keys.map removeKey)
        (applyChanges (if flagged then [] else [putFlag]) fs.files)) := by
    simp only [applyChanges, wipeChanges, List.foldl_append, List.foldl_cons, List.foldl_nil]
  rw [happend, removeFlag, Files.content_remove]
  by_cases hflag : path = openthreadLfsWipeFlag
  · rw [hflag, Function.update_self, if_pos (.inl rfl)]
  · rw [Function.update_of_ne hflag, content_removeKeys, hstart path hflag]
    by_cases hin : (nameIn openthreadLfsNamespace path).isSome
    · refine Eq.trans ?_ (if_pos (.inr hin)).symm
      by_cases hpath : (fs.content path).isSome
      · obtain ⟨key, rfl⟩ := h.own path hin hpath
        rw [if_pos (List.mem_map_of_mem ((hkeys key).mpr hpath))]
      · rw [Option.not_isSome_iff_eq_none.mp hpath, ite_self]
    · rw [if_neg (notMem_paths (Option.not_isSome_iff_eq_none.mp hin)),
        if_neg (not_or.mpr ⟨hflag, hin⟩)]

theorem wipe_cleared (h : Volume fs) (hpower : fs.power = none) :
    Cleared fs (otPlatSettingsWipe fs) := by
  obtain ⟨keys, hkeys, hwipe⟩ := wipe_eq h
  rw [hwipe, changeFiles_foldl, hpower]
  exact ⟨content_wipeChanges h hkeys _, rfl, h.sound, rfl⟩

theorem init_eq (h : Volume fs) : otPlatSettingsInit fs =
    if (fs.content openthreadLfsWipeFlag).isSome then otPlatSettingsWipe fs else fs := by
  have hdir : (lfsStat fs openthreadLfsNamespace).1 = lfsErrOk := by
    rw [lfsStat, if_pos h.namespaceDir]
  rw [otPlatSettingsInit, if_pos hdir, lfsStat, if_neg h.flag]
  by_cases hflag : (fs.content openthreadLfsWipeFlag).isSome
  · rw [if_pos hflag, if_pos hflag, if_pos rfl]
  · rw [if_neg hflag, if_neg hflag, if_neg (by decide)]

theorem Volume.cutPower (h : Volume fs) (power : Option Nat) : Volume { fs with power } :=
  { h with }

theorem wipe_cut (h : Prepared fs) (changes : Nat) :
    ∃ keys : List Key, (∀ key, key ∈ keys ↔ (fs.content key.path).isSome) ∧
      { otPlatSettingsWipe { fs with power := some changes } with power := none } =
        { fs with files := applyChanges ((wipeChanges false keys).take changes) fs.files } := by
  obtain ⟨keys, hkeys, hwipe⟩ := wipe_eq (h.toVolume.cutPower (some changes))
  have hflag : (Lfs.content { fs with power := some changes } openthreadLfsWipeFlag).isSome =
      false := by
    have hnone : Lfs.content { fs with power := some changes } openthreadLfsWipeFlag = none :=
      h.noFlag
    rw [hnone]
    rfl
  refine ⟨keys, hkeys, ?_⟩
  rw [hwipe, hflag, changeFiles_foldl]
  have hpower := h.power
  cases fs
  subst hpower
  rfl

theorem wipeInterrupted_zero (h : Prepared fs) : (Event.wipeInterrupted 0).fs fs = fs := by
  obtain ⟨keys, -, hcut⟩ := wipe_cut h 0
  have hnothing : { fs with files := applyChanges ((wipeChanges false keys).take 0) fs.files } =
      fs := rfl
  rw [Event.fs, hcut, hnothing, init_eq h.toVolume, h.noFlag]
  rfl

/-- A volume with the flag and without some of the files. -/
def halfWiped (fs : Lfs) (gone : List Key) : Lfs :=
  { fs with files := applyChanges (putFlag :: gone.map removeKey) fs.files }

theorem content_halfWiped (fs : Lfs) (gone : List Key) (path : Path) :
    (halfWiped fs gone).content path =
      if path ∈ gone.map Key.path then none
      else Function.update fs.content openthreadLfsWipeFlag (some []) path := by
  refine (content_removeKeys gone (putFlag fs.files) path).trans ?_
  rw [putFlag, Files.content_put]
  rfl

theorem Volume.halfWiped (h : Volume fs) (gone : List Key) : Volume (halfWiped fs gone) := by
  refine h.of_fewer rfl rfl fun path hin hpath => ?_
  have hne : path ≠ openthreadLfsWipeFlag := by
    rintro rfl
    rw [nameIn_flag] at hin
    cases hin
  rw [content_halfWiped, Function.update_of_ne hne] at hpath
  split at hpath
  · cases hpath
  · exact hpath

theorem init_halfWiped (h : Volume fs) (hpower : fs.power = none) (gone : List Key) :
    Cleared fs (otPlatSettingsInit (halfWiped fs gone)) := by
  have hflag : (halfWiped fs gone).content openthreadLfsWipeFlag = some [] := by
    rw [content_halfWiped, if_neg (notMem_paths nameIn_flag), Function.update_self]
  have hcleared := wipe_cleared (h.halfWiped gone) hpower
  rw [init_eq (h.halfWiped gone), hflag, Option.isSome_some, if_pos rfl]
  refine ⟨fun path => ?_, hcleared.dirs, hcleared.sound, hcleared.power⟩
  rw [hcleared.content]
  by_cases hours : path = openthreadLfsWipeFlag ∨ (nameIn openthreadLfsNamespace path).isSome
  · rw [if_pos hours, if_pos hours]
  · obtain ⟨hne, hin⟩ := not_or.mp hours
    rw [if_neg hours, if_neg hours, content_halfWiped,
      if_neg (notMem_paths (Option.not_isSome_iff_eq_none.mp hin)), Function.update_of_ne hne]

/-- The next boot finds the flag and goes on, unless the wipe had come to its end. -/
theorem wipeInterrupted_cleared (h : Prepared fs) (changes : Nat) :
    Cleared fs ((Event.wipeInterrupted (changes + 1)).fs fs) := by
  obtain ⟨keys, hkeys, hcut⟩ := wipe_cut h (changes + 1)
  rw [Event.fs, hcut]
  have hchanges : wipeChanges false keys = putFlag :: (keys.map removeKey ++ [removeFlag]) := rfl
  by_cases hend : keys.length < changes
  · have hall : (wipeChanges false keys).take (changes + 1) = wipeChanges false keys := by
      rw [List.take_of_length_le]
      rw [hchanges, List.length_cons, List.length_append, List.length_map, List.length_singleton]
      omega
    rw [hall]
    have hdone : Cleared fs
        { fs with files := applyChanges (wipeChanges false keys) fs.files } :=
      ⟨content_wipeChanges h.toVolume hkeys false, rfl, h.sound, h.power⟩
    rw [init_eq (hdone.prepared h.toVolume).toVolume, (hdone.prepared h.toVolume).noFlag]
    exact hdone
  · have hsome : (wipeChanges false keys).take (changes + 1) =
        putFlag :: (keys.take changes).map removeKey := by
      rw [hchanges, List.take_succ_cons, List.take_append_of_le_length, List.map_take]
      rw [List.length_map]
      omega
    rw [hsome]
    exact init_halfWiped h.toVolume h.power (keys.take changes)

/-! ## The contract -/

theorem storedValues_of_none (h : fs.content key.path = none) : storedValues fs key = [] := by
  rw [storedValues, h]
  rfl

theorem storedValues_of_some (h : fs.content key.path = some bytes) :
    storedValues fs key = [bytes] := by
  rw [storedValues, h]
  rfl

/-- When the answer of a get is the one of the contract. -/
theorem get_answers_iff (h : Prepared fs) (key : Key) (aIndex : Int) (aValue : Bool)
    (aValueLength : Option Nat) :
    (otPlatSettingsGet fs key.1 key.2 aIndex aValue aValueLength).2 =
        answer (storedValues fs key) aIndex aValue aValueLength ↔
      (aIndex = 0 → ∀ value ∈ storedValues fs key, ∀ size ∈ aValueLength,
        if aValue then value.length ≤ size else size = value.length) := by
  rw [get_eq h]
  cases hfile : fs.content key.path with
  | none =>
    rw [storedValues_of_none hfile]
    simp [answer]
  | some bytes =>
    rw [storedValues_of_some hfile]
    by_cases hindex : aIndex = 0
    · subst hindex
      cases aValueLength with
      | none => cases aValue <;> simp [answer]
      | some size =>
        cases aValue with
        | false => simp [answer]
        | true =>
          have hmin : min size bytes.length = bytes.length ↔ bytes.length ≤ size := by omega
          simp [answer, hmin]
    · have hanswer : (if aIndex < 0 then none else [bytes][aIndex.toNat]?) = none := by
        split
        · rfl
        · exact List.getElem?_eq_none (by rw [List.length_singleton]; omega)
      simp [answer, hanswer, hindex]

theorem readable_iff (h : Prepared w.fs) : w.Readable ↔ w.values = storedValues w.fs := by
  constructor
  · intro hread
    funext key
    have hfits : ∀ value ∈ w.values key, value.length ≤
        ((w.values key).map List.length).sum := fun value hvalue =>
      List.single_le_sum (by simp) _ (List.mem_map_of_mem hvalue)
    cases hfile : w.fs.content key.path with
    | none =>
      have hfirst := hread key 0 _ hfits
      rw [get_eq h, hfile] at hfirst
      cases hvalues : w.values key with
      | nil => rw [storedValues_of_none hfile]
      | cons value values => simp [answer, hvalues] at hfirst
    | some bytes =>
      have hfirst := hread key 0 (((w.values key).map List.length).sum + bytes.length)
        fun value hvalue => Nat.le_add_right_of_le (hfits value hvalue)
      have hsecond := hread key 1 _ hfits
      rw [get_eq h, hfile] at hfirst
      rw [get_eq h, if_neg (by decide)] at hsecond
      cases hvalues : w.values key with
      | nil => simp [answer, hvalues] at hfirst
      | cons value values =>
        rw [hvalues] at hfirst hsecond
        have hvalue : bytes = value := by
          have htake : bytes.take _ = value.take _ :=
            Option.some.inj (congrArg GetReply.value hfirst)
          have hfit : value.length ≤ ((w.values key).map List.length).sum :=
            hfits value (hvalues ▸ List.mem_cons_self)
          rw [hvalues] at hfit
          rwa [List.take_of_length_le (by omega), List.take_of_length_le (by omega)] at htake
        have hnone : values = [] := by
          cases values with
          | nil => rfl
          | cons second values => simp [answer] at hsecond
        rw [storedValues_of_some hfile, hvalue, hnone]
  · intro hstored key aIndex size hfits
    rw [hstored] at hfits ⊢
    rw [get_answers_iff h]
    intro _ value hvalue other hother
    cases hother
    exact hfits value hvalue

theorem inv_iff (h : Prepared w.fs) : Inv w ↔ w.Readable := by
  rw [readable_iff h]
  exact ⟨Inv.stored, fun hstored => ⟨h, hstored⟩⟩

/-- What each event leaves of the volume, and what it now holds. -/
theorem event_fs (h : Prepared fs) (e : Event) :
    Prepared (e.fs fs) ∧ storedValues (e.fs fs) =
      match e with
      | .get .. | .wipeInterrupted 0 | .reboot => storedValues fs
      | .set key aValue | .add key aValue =>
        Function.update (storedValues fs) key
          [aValue ++ ((fs.content key.path).getD []).drop aValue.length]
      | .delete key _ => Function.update (storedValues fs) key []
      | .wipe | .wipeInterrupted (_ + 1) => fun _ => [] := by
  cases e with
  | get key aIndex aValue aValueLength =>
    rw [Event.fs, get_eq h]
    exact ⟨h, rfl⟩
  | set key aValue =>
    have hset := set_rewritten h key aValue
    exact ⟨prepared_of_rewritten hset h, storedValues_of_rewritten hset⟩
  | add key aValue =>
    have hset := set_rewritten h key aValue
    exact ⟨prepared_of_rewritten hset h, storedValues_of_rewritten hset⟩
  | delete key aIndex =>
    have hdelete := delete_rewritten h key aIndex
    exact ⟨prepared_of_rewritten hdelete h, storedValues_of_rewritten hdelete⟩
  | wipe =>
    have hwipe := wipe_cleared h.toVolume h.power
    exact ⟨hwipe.prepared h.toVolume, hwipe.storedValues⟩
  | wipeInterrupted changes =>
    cases changes with
    | zero =>
      rw [wipeInterrupted_zero h]
      exact ⟨h, rfl⟩
    | succ changes =>
      have hwipe := wipeInterrupted_cleared h changes
      exact ⟨hwipe.prepared h.toVolume, hwipe.storedValues⟩
  | reboot =>
    have hinit : Event.reboot.fs fs = fs := by
      rw [Event.fs, init_eq h.toVolume, h.noFlag]
      rfl
    rw [hinit]
    exact ⟨h, rfl⟩

theorem set_keeps_iff (fs : Lfs) (key : Key) (aValue : List UInt8) :
    [aValue] = [aValue ++ ((fs.content key.path).getD []).drop aValue.length] ↔
      ∀ value ∈ storedValues fs key, value.length ≤ aValue.length := by
  cases hfile : fs.content key.path with
  | none => simp [storedValues_of_none hfile]
  | some bytes => simp [storedValues_of_some hfile]

theorem add_keeps_iff (fs : Lfs) (key : Key) (aValue : List UInt8) :
    storedValues fs key ++ [aValue] =
        [aValue ++ ((fs.content key.path).getD []).drop aValue.length] ↔
      storedValues fs key = [] := by
  cases hfile : fs.content key.path with
  | none => simp [storedValues_of_none hfile]
  | some bytes => simp [storedValues_of_some hfile]

theorem delete_keeps_iff (fs : Lfs) (key : Key) (aIndex : Int) :
    (if aIndex = -1 then [] else if aIndex < 0 then storedValues fs key
        else (storedValues fs key).eraseIdx aIndex.toNat) = [] ↔
      aIndex = 0 ∨ aIndex = -1 ∨ storedValues fs key = [] := by
  cases hfile : fs.content key.path with
  | none =>
    rw [storedValues_of_none hfile]
    simp
  | some bytes =>
    rw [storedValues_of_some hfile]
    by_cases hall : aIndex = -1
    · simp [hall]
    · by_cases hneg : aIndex < 0
      · have hzero : aIndex ≠ 0 := by omega
        simp [hall, hneg, hzero]
      · have hfirst : [bytes].eraseIdx aIndex.toNat = [] ↔ aIndex = 0 := by
          cases hindex : aIndex.toNat with
          | zero => simp; omega
          | succ n => simp; omega
        simp [hall, hneg, hfirst]

theorem kept_iff {t : World} (h : Inv w) (ht : step w e = some t) :
    Kept w e t ↔ Fits w e t := by
  obtain ⟨fs, values⟩ := w
  have hp : Prepared fs := h.prepared
  have hvalues : values = storedValues fs := h.stored
  subst hvalues
  unfold step at ht
  split at ht
  case isFalse => cases ht
  case isTrue =>
    cases ht
    obtain ⟨hprepared, hstored⟩ := event_fs hp e
    have hread := readable_iff (w := ⟨e.fs fs, e.values (storedValues fs)⟩) hprepared
    rw [hstored] at hread
    have hreply :
        ∀ hr : (∀ key aIndex aValue aValueLength, e ≠ .get key aIndex aValue aValueLength),
        Kept ⟨fs, storedValues fs⟩ e ⟨e.fs fs, e.values (storedValues fs)⟩ ↔
          e.values (storedValues fs) = _ :=
      fun hr => ⟨fun hk => hread.mp hk.readable,
        fun hv => ⟨fun _ _ _ _ heq => absurd heq (hr _ _ _ _), hread.mpr hv⟩⟩
    cases e with
    | get key aIndex aValue aValueLength =>
      have hanswers := get_answers_iff hp key aIndex aValue aValueLength
      constructor
      · exact fun hk => hanswers.mp (hk.reply _ _ _ _ rfl)
      · intro hfits
        refine ⟨fun _ _ _ _ heq => ?_, hread.mpr rfl⟩
        cases heq
        exact hanswers.mpr hfits
    | set key aValue =>
      refine (hreply nofun).trans (Iff.trans ?_ (set_keeps_iff fs key aValue))
      exact (Function.update_injective _ _).eq_iff
    | add key aValue =>
      refine (hreply nofun).trans (Iff.trans ?_ (add_keeps_iff fs key aValue))
      exact (Function.update_injective _ _).eq_iff
    | delete key aIndex =>
      refine (hreply nofun).trans (Iff.trans ?_ (delete_keeps_iff fs key aIndex))
      exact (Function.update_injective _ _).eq_iff
    | wipe => exact (hreply nofun).trans (iff_of_true rfl trivial)
    | wipeInterrupted changes =>
      cases changes with
      | zero => exact (hreply nofun).trans (iff_of_true rfl trivial)
      | succ changes => exact (hreply nofun).trans (iff_of_true rfl trivial)
    | reboot => exact (hreply nofun).trans (iff_of_true rfl trivial)

theorem inv_of_kept {t : World} (h : Inv w) (ht : step w e = some t) (hk : Kept w e t) :
    Inv t := by
  unfold step at ht
  split at ht
  case isFalse => cases ht
  case isTrue =>
    cases ht
    exact (inv_iff (event_fs h.prepared e).1).mpr hk.readable

/-- The settings keep the contract in exactly the runs whose gets have room,
whose sets do not shorten a value, whose adds come to an empty key and whose
deletes empty theirs. -/
theorem kept_iff_fits {fs : Lfs} (h : Prepared fs) (events : List Event) :
    Along step Kept (start fs) events ↔ Along step Fits (start fs) events :=
  along_iff_of_invariant (fun _ _ _ hinv ht => kept_iff hinv ht)
    (fun _ _ _ hinv ht hfits => inv_of_kept hinv ht ((kept_iff hinv ht).mpr hfits))
    ⟨h, rfl⟩

def emptyVolume : Lfs := ⟨[], [openthreadLfsNamespace, []], [], none⟩

theorem emptyVolume_prepared : Prepared emptyVolume where
  sound := rfl
  root := by decide
  namespaceDir := by decide
  flag := by decide
  key key hmem := by
    have hlen := key.length_path
    have hshort : ∀ dir ∈ emptyVolume.dirs, dir.length ≠ 13 := by decide
    exact hshort _ hmem hlen
  own path _ hpath := by cases hpath
  power := rfl
  noFlag := rfl

/-- Set, read in full, and a wipe that the power cuts off after one change. -/
theorem kept_of_interrupted_wipe :
    Along step Kept (start emptyVolume)
      [.set (true, 1) [1, 2], .get (true, 1) 0 true (some 2), .wipeInterrupted 1,
        .get (true, 1) 0 false none] := by
  refine (kept_iff_fits emptyVolume_prepared _).mpr ?_
  intro t ht
  cases ht
  have hset : ∀ value ∈ storedValues emptyVolume (true, 1), value.length ≤ 2 := by decide
  refine ⟨hset, fun t ht => ?_⟩
  cases ht
  refine ⟨fun _ => by decide, fun t ht => ?_⟩
  cases ht
  refine ⟨trivial, fun t ht => ?_⟩
  cases ht
  exact ⟨fun _ => by decide, along_nil⟩

/-- A shorter value over a longer one keeps the longer one's end. -/
theorem shorter_set_not_kept :
    ¬ Along step Kept (start emptyVolume)
      [.set (true, 1) [1, 2], .set (true, 1) [3], .get (true, 1) 0 true (some 2)] := by
  intro h
  have hget := ((h _ rfl).2 _ rfl).2 _ rfl
  have hreply := hget.1.reply _ _ _ _ rfl
  revert hreply
  decide

end BouffaloSdk.OtSettingsLittlefs
