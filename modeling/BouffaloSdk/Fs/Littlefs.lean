import BouffaloSdk.Kit.Files
import Mathlib.Data.List.Dedup

/-!
# A littlefs volume

The calls of `lfs.h` as a correct file system answers them. An operation may
fail, and then does nothing: `faults` holds the results of the coming ones.
`power` counts the changes that still reach the flash before the power goes,
if it does; each change reaches it whole or not at all.
-/

namespace BouffaloSdk.Littlefs
open Kit

abbrev Path := List Char

def lfsErrOk : Int := 0
def lfsErrNoent : Int := -2
def lfsErrExist : Int := -17
def lfsErrIsdir : Int := -21
def lfsErrNotdir : Int := -20
def lfsErrNotempty : Int := -39
def lfsErrInval : Int := -22

inductive LfsType
  | lfsTypeReg
  | lfsTypeDir
  deriving DecidableEq, Repr

structure Lfs where
  files : List (Path × List UInt8)
  dirs : List Path
  faults : List Int
  power : Option Nat
  deriving DecidableEq, Repr

def parent (path : Path) : Path := ((path.reverse.dropWhile (· ≠ '/')).drop 1).reverse

/-- The name of `path` in the directory `dir`, if it lies there. -/
def nameIn (dir path : Path) : Option Path :=
  if dir ++ ['/'] <+: path ∧ '/' ∉ path.drop (dir.length + 1) then
    some (path.drop (dir.length + 1))
  else none

namespace Lfs

def content (fs : Lfs) (path : Path) : Option (List UInt8) := Files.content fs.files path

/-- The next operation, unless it is one that fails. -/
def attempt (fs : Lfs) (op : Lfs → Lfs × Int) : Lfs × Int :=
  match fs.faults with
  | [] => op fs
  | code :: rest =>
    if code < 0 then ({ fs with faults := rest }, code) else op { fs with faults := rest }

/-- A change that is lost with the power. -/
def commit (fs : Lfs) (change : Lfs → Lfs) : Lfs :=
  match fs.power with
  | none => change fs
  | some 0 => fs
  | some (n + 1) => { change fs with power := some n }

def putFile (path : Path) (bytes : List UInt8) (fs : Lfs) : Lfs :=
  { fs with files := Files.put fs.files path bytes }

def removeFile (path : Path) (fs : Lfs) : Lfs := { fs with files := Files.remove fs.files path }

end Lfs

def lfsStat (fs : Lfs) (path : Path) : Int × LfsType :=
  if path ∈ fs.dirs then (lfsErrOk, .lfsTypeDir)
  else if (fs.content path).isSome then (lfsErrOk, .lfsTypeReg)
  else (lfsErrNoent, .lfsTypeReg)

def lfsMkdir (fs : Lfs) (path : Path) : Lfs × Int :=
  fs.attempt fun fs =>
    if path ∈ fs.dirs ∨ (fs.content path).isSome then (fs, lfsErrExist)
    else (fs.commit fun fs => { fs with dirs := path :: fs.dirs }, lfsErrOk)

def lfsFileOpen (fs : Lfs) (path : Path) (creat : Bool) : Lfs × Int :=
  fs.attempt fun fs =>
    if path ∈ fs.dirs then (fs, lfsErrIsdir)
    else if (fs.content path).isSome then (fs, lfsErrOk)
    else if !creat || decide (parent path ∉ fs.dirs) then (fs, lfsErrNoent)
    else (fs.commit (Lfs.putFile path []), lfsErrOk)

/-- The bytes read from position `pos` on, with their number. -/
def lfsFileRead (fs : Lfs) (path : Path) (pos size : Nat) : Lfs × Int × List UInt8 :=
  let bytes := (((fs.content path).getD []).drop pos).take size
  let (fs, ret) := fs.attempt fun fs => (fs, bytes.length)
  (fs, ret, if ret < 0 then [] else bytes)

/-- Bytes written over the start of a file; what lies behind them stays. -/
def lfsFileWrite (fs : Lfs) (path : Path) (bytes : List UInt8) : Lfs × Int :=
  fs.attempt fun fs =>
    (fs.commit (Lfs.putFile path (bytes ++ ((fs.content path).getD []).drop bytes.length)),
      bytes.length)

def lfsFileTruncate (fs : Lfs) (path : Path) (size : Nat) : Lfs × Int :=
  fs.attempt fun fs =>
    (fs.commit (Lfs.putFile path (((fs.content path).getD []).take size)), lfsErrOk)

def lfsFileSize (fs : Lfs) (path : Path) : Lfs × Int :=
  fs.attempt fun fs => (fs, ((fs.content path).getD []).length)

def lfsFileSeek (fs : Lfs) (pos : Int) : Lfs × Int :=
  fs.attempt fun fs => (fs, if pos < 0 then lfsErrInval else pos)

/-- A file whose close fails keeps what it had when it was opened. -/
def lfsFileClose (fs : Lfs) (path : Path) (opened : List UInt8) : Lfs × Int :=
  let (fs, ret) := fs.attempt fun fs => (fs, lfsErrOk)
  (if ret < lfsErrOk then fs.commit (Lfs.putFile path opened) else fs, ret)

def lfsRemove (fs : Lfs) (path : Path) : Lfs × Int :=
  fs.attempt fun fs =>
    if path ∈ fs.dirs then
      if fs.files.all (fun file => (nameIn path file.1).isNone) then
        (fs.commit fun fs => { fs with dirs := fs.dirs.filter (· ≠ path) }, lfsErrOk)
      else (fs, lfsErrNotempty)
    else if (fs.content path).isSome then (fs.commit (Lfs.removeFile path), lfsErrOk)
    else (fs, lfsErrNoent)

/-- One step through a directory, `more` entries being left. -/
def lfsDirRead (fs : Lfs) (more : Nat) : Lfs × Int :=
  fs.attempt fun fs => (fs, if more = 0 then 0 else 1)

def lfsDirOpen (fs : Lfs) (path : Path) : Lfs × Int :=
  fs.attempt fun fs =>
    if path ∈ fs.dirs then (fs, lfsErrOk)
    else if (fs.content path).isSome then (fs, lfsErrNotdir)
    else (fs, lfsErrNoent)

/-- What `lfs_dir_read` goes through. Removing an entry that was read does not
disturb the others. -/
def lfsDirEntries (fs : Lfs) (dir : Path) : List (Path × LfsType) :=
  [(['.'], .lfsTypeDir), (['.', '.'], .lfsTypeDir)] ++
    (fs.dirs.filterMap (nameIn dir)).map (·, .lfsTypeDir) ++
    ((Files.names fs.files).dedup.filterMap (nameIn dir)).map (·, .lfsTypeReg)

/-! ## Without failures -/

variable {fs : Lfs} {path : Path} {bytes : List UInt8}

/-- The file system does what it is asked to. -/
def Lfs.Sound (fs : Lfs) : Prop := fs.faults = []

theorem Lfs.attempt_of_sound (h : fs.Sound) (op : Lfs → Lfs × Int) : fs.attempt op = op fs := by
  unfold attempt
  rw [h]

theorem content_putFile : (Lfs.putFile path bytes fs).content =
    Function.update fs.content path (some bytes) :=
  Files.content_put fs.files path bytes

theorem content_removeFile : (Lfs.removeFile path fs).content =
    Function.update fs.content path none :=
  Files.content_remove fs.files path

theorem lfsFileOpen_present (h : fs.Sound) (hdir : path ∉ fs.dirs)
    (hfile : fs.content path = some bytes) (creat : Bool) :
    lfsFileOpen fs path creat = (fs, lfsErrOk) := by
  rw [lfsFileOpen, Lfs.attempt_of_sound h, if_neg hdir, if_pos (by rw [hfile]; rfl)]

theorem lfsFileOpen_absent (h : fs.Sound) (hdir : path ∉ fs.dirs) (hfile : fs.content path = none) :
    lfsFileOpen fs path false = (fs, lfsErrNoent) := by
  rw [lfsFileOpen, Lfs.attempt_of_sound h, if_neg hdir, if_neg (by rw [hfile]; simp)]
  rfl

theorem lfsFileOpen_create (h : fs.Sound) (hdir : path ∉ fs.dirs) (hfile : fs.content path = none)
    (hparent : parent path ∈ fs.dirs) :
    lfsFileOpen fs path true = (fs.commit (Lfs.putFile path []), lfsErrOk) := by
  rw [lfsFileOpen, Lfs.attempt_of_sound h, if_neg hdir, if_neg (by rw [hfile]; simp),
    if_neg (by simpa using hparent)]

theorem lfsFileRead_of_sound (h : fs.Sound) (pos size : Nat) :
    lfsFileRead fs path pos size =
      (fs, (((((fs.content path).getD []).drop pos).take size).length : Int),
        (((fs.content path).getD []).drop pos).take size) := by
  have hlen : ¬ (((((fs.content path).getD []).drop pos).take size).length : Int) < 0 := by
    omega
  simp only [lfsFileRead, Lfs.attempt_of_sound h, if_neg hlen]

theorem lfsRemove_present (h : fs.Sound) (hdir : path ∉ fs.dirs)
    (hfile : fs.content path = some bytes) :
    lfsRemove fs path = (fs.commit (Lfs.removeFile path), lfsErrOk) := by
  rw [lfsRemove, Lfs.attempt_of_sound h, if_neg hdir, if_pos (by rw [hfile]; rfl)]

theorem lfsRemove_absent (h : fs.Sound) (hdir : path ∉ fs.dirs) (hfile : fs.content path = none) :
    lfsRemove fs path = (fs, lfsErrNoent) := by
  rw [lfsRemove, Lfs.attempt_of_sound h, if_neg hdir, if_neg (by rw [hfile]; simp)]

/-- `t` is `fs` but for one file. -/
structure Rewritten (fs t : Lfs) (path : Path) (bytes : Option (List UInt8)) : Prop where
  content : t.content = Function.update fs.content path bytes
  dirs : t.dirs = fs.dirs
  sound : t.Sound
  power : t.power = none

theorem Rewritten.trans {t u : Lfs} {first last : Option (List UInt8)}
    (h : Rewritten fs t path first) (h' : Rewritten t u path last) : Rewritten fs u path last where
  content := by rw [h'.content, h.content, Function.update_idem]
  dirs := h'.dirs.trans h.dirs
  sound := h'.sound
  power := h'.power

theorem rewritten_self (h : fs.Sound) (hpower : fs.power = none) :
    Rewritten fs fs path (fs.content path) :=
  ⟨(Function.update_eq_self _ _).symm, rfl, h, hpower⟩

theorem rewritten_putFile (h : fs.Sound) (hpower : fs.power = none) (path : Path)
    (bytes : List UInt8) : Rewritten fs (fs.commit (Lfs.putFile path bytes)) path (some bytes) := by
  have hcommit : fs.commit (Lfs.putFile path bytes) = Lfs.putFile path bytes fs := by
    rw [Lfs.commit, hpower]
  rw [hcommit]
  exact ⟨content_putFile, rfl, h, hpower⟩

theorem lfsFileOpen_rewritten (h : fs.Sound) (hpower : fs.power = none) (hdir : path ∉ fs.dirs)
    (hparent : parent path ∈ fs.dirs) : ∃ t, lfsFileOpen fs path true = (t, lfsErrOk) ∧
      Rewritten fs t path (some ((fs.content path).getD [])) := by
  cases hfile : fs.content path with
  | none =>
    exact ⟨_, lfsFileOpen_create h hdir hfile hparent, rewritten_putFile h hpower path []⟩
  | some bytes =>
    refine ⟨fs, lfsFileOpen_present h hdir hfile true, ?_⟩
    rw [Option.getD_some, ← hfile]
    exact rewritten_self h hpower

theorem lfsFileWrite_rewritten (h : fs.Sound) (hpower : fs.power = none) (path : Path)
    (bytes : List UInt8) : ∃ t, lfsFileWrite fs path bytes = (t, (bytes.length : Int)) ∧
      Rewritten fs t path (some (bytes ++ ((fs.content path).getD []).drop bytes.length)) := by
  refine ⟨_, ?_, rewritten_putFile h hpower path _⟩
  rw [lfsFileWrite, Lfs.attempt_of_sound h]

theorem lfsFileTruncate_rewritten (h : fs.Sound) (hpower : fs.power = none) (path : Path)
    (size : Nat) : ∃ t, lfsFileTruncate fs path size = (t, lfsErrOk) ∧
      Rewritten fs t path (some (((fs.content path).getD []).take size)) := by
  refine ⟨_, ?_, rewritten_putFile h hpower path _⟩
  rw [lfsFileTruncate, Lfs.attempt_of_sound h]

theorem lfsRemove_rewritten (h : fs.Sound) (hpower : fs.power = none) (hdir : path ∉ fs.dirs) :
    Rewritten fs (lfsRemove fs path).1 path none := by
  cases hfile : fs.content path with
  | none =>
    rw [lfsRemove_absent h hdir hfile, ← hfile]
    exact rewritten_self h hpower
  | some bytes =>
    have hcommit : fs.commit (Lfs.removeFile path) = Lfs.removeFile path fs := by
      rw [Lfs.commit, hpower]
    rw [lfsRemove_present h hdir hfile, hcommit]
    exact ⟨content_removeFile, rfl, h, hpower⟩

theorem nameIn_eq_some {dir name : Path} (h : nameIn dir path = some name) :
    path = dir ++ '/' :: name := by
  unfold nameIn at h
  split at h
  case isTrue hin =>
    obtain ⟨rest, hrest⟩ := hin.1
    have hname := Option.some.inj h
    subst hrest hname
    have hlen : dir.length + 1 = (dir ++ ['/']).length := by simp
    rw [hlen, List.drop_left, List.append_assoc]
    rfl
  case isFalse => cases h

theorem parent_append (dir : Path) {name : Path} (h : '/' ∉ name) :
    parent (dir ++ '/' :: name) = dir := by
  have hrev : (dir ++ '/' :: name).reverse = name.reverse ++ '/' :: dir.reverse := by simp
  have hdrop : (name.reverse ++ '/' :: dir.reverse).dropWhile (· ≠ '/') = '/' :: dir.reverse := by
    rw [List.dropWhile_append_of_pos]
    · rfl
    · intro c hc
      simpa using fun heq : c = '/' => h (heq ▸ List.mem_reverse.mp hc)
  rw [parent, hrev, hdrop, List.drop_one, List.tail_cons, List.reverse_reverse]

theorem nameIn_append (dir : Path) {name : Path} (h : '/' ∉ name) :
    nameIn dir (dir ++ '/' :: name) = some name := by
  have hin : dir ++ ['/'] <+: dir ++ '/' :: name := ⟨name, List.append_assoc ..⟩
  have hdrop : (dir ++ '/' :: name).drop (dir.length + 1) = name := by simp
  rw [nameIn, hdrop, if_pos ⟨hin, h⟩]

theorem exists_keys {κ : Type*} {dir : Path} {pathOf nameOf : κ → Path}
    (hname : ∀ key, nameIn dir (pathOf key) = some (nameOf key))
    (hinj : Function.Injective pathOf) {paths : List Path} (hnodup : paths.Nodup)
    (hown : ∀ path ∈ paths, (nameIn dir path).isSome → ∃ key, path = pathOf key) :
    ∃ keys : List κ, paths.filterMap (nameIn dir) = keys.map nameOf ∧ keys.Nodup ∧
      ∀ key, key ∈ keys ↔ pathOf key ∈ paths := by
  induction paths with
  | nil => exact ⟨[], rfl, List.nodup_nil, by simp⟩
  | cons path paths ih =>
    obtain ⟨hnew, hnodup⟩ := List.nodup_cons.mp hnodup
    obtain ⟨keys, hnames, hkeys, hmem⟩ := ih hnodup fun p hp => hown p (List.mem_cons_of_mem _ hp)
    cases hin : nameIn dir path with
    | none =>
      refine ⟨keys, by rw [List.filterMap_cons_none hin, hnames], hkeys, fun key => ?_⟩
      have hne : pathOf key ≠ path := by
        rintro rfl
        rw [hname] at hin
        cases hin
      rw [hmem, List.mem_cons, or_iff_right hne]
    | some name =>
      obtain ⟨key, rfl⟩ := hown path List.mem_cons_self (by rw [hin]; rfl)
      have hkey : name = nameOf key := Option.some.inj (hin.symm.trans (hname key))
      refine ⟨key :: keys, ?_, List.nodup_cons.mpr ⟨fun h => hnew ((hmem key).mp h), hkeys⟩, ?_⟩
      · rw [List.filterMap_cons_some hin, hnames, hkey, List.map_cons]
      · intro other
        rw [List.mem_cons, List.mem_cons, hmem, hinj.eq_iff]

/-- The files of a directory that holds only the files of keys, as keys. -/
theorem exists_listing {κ : Type*} {dir : Path} {pathOf nameOf : κ → Path}
    (hname : ∀ key, nameIn dir (pathOf key) = some (nameOf key))
    (hinj : Function.Injective pathOf)
    (hown : ∀ path, (nameIn dir path).isSome → (fs.content path).isSome →
      ∃ key, path = pathOf key) :
    ∃ keys : List κ,
      (Files.names fs.files).dedup.filterMap (nameIn dir) = keys.map nameOf ∧ keys.Nodup ∧
      ∀ key, key ∈ keys ↔ (fs.content (pathOf key)).isSome := by
  obtain ⟨keys, hnames, hnodup, hmem⟩ := exists_keys hname hinj
    (List.nodup_dedup (Files.names fs.files)) fun path hpath hin =>
      hown path hin (Files.mem_names_iff.mp (List.mem_dedup.mp hpath))
  refine ⟨keys, hnames, hnodup, fun key => ?_⟩
  rw [hmem, List.mem_dedup, Files.mem_names_iff]
  rfl

/-! ## Changes in a row -/

abbrev FileChange := List (Path × List UInt8) → List (Path × List UInt8)

def Lfs.changeFiles (fs : Lfs) (change : FileChange) : Lfs :=
  fs.commit fun fs => { fs with files := change fs.files }

/-- The changes that reach the flash. -/
def surviving (power : Option Nat) (changes : List FileChange) : List FileChange :=
  match power with
  | none => changes
  | some n => changes.take n

/-- The power cuts a row of changes off. -/
theorem changeFiles_foldl (fs : Lfs) (changes : List FileChange) :
    changes.foldl Lfs.changeFiles fs =
      { fs with
        files := (surviving fs.power changes).foldl (fun files change => change files) fs.files
        power := fs.power.map (· - changes.length) } := by
  induction changes generalizing fs with
  | nil => cases h : fs.power <;> simp [surviving, ← h]
  | cons change changes ih =>
    rw [List.foldl_cons, ih]
    match h : fs.power with
    | none => simp [Lfs.changeFiles, Lfs.commit, h, surviving]
    | some 0 => simp [Lfs.changeFiles, Lfs.commit, h, surviving]
    | some (n + 1) =>
      simp only [Lfs.changeFiles, Lfs.commit, h, surviving, List.take_succ_cons, List.foldl_cons,
        Option.map_some, List.length_cons, Nat.add_sub_add_right]

end BouffaloSdk.Littlefs
