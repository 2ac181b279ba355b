import BouffaloSdk.Kit.Word
import Mathlib.Data.Nat.Bitwise
import Mathlib.Data.List.Basic

/-!
# The romfs reader

Path checks, path resolution, files and directory enumeration of
`components/fs/romfs/bflb_romfs.c`. Flash is mapped, so the image is memory
without an end; addresses count from `romfs_root`.
-/

namespace BouffaloSdk.Romfs

/-- Memory from `romfs_root` on. -/
abbrev Image := Nat → UInt8

def romfsMaxNameLen : Nat := 64
def romfsSIfdir : Nat := 0x0040000
def romfsSIfreg : Nat := 0x0100000

/-- `ROMFH_HRD` to `ROMFH_UNKNOW`. -/
inductive Romfh
  | hrd | dir | reg | unknow
  deriving DecidableEq, Repr

/-- `'/'`. -/
def slash : UInt8 := 0x2f

/-- `"/romfs"`. -/
def romfsMountpoint : List UInt8 := [0x2f, 0x72, 0x6f, 0x6d, 0x66, 0x73]

/-! ## Reading the image -/

/-- The big-endian word at `addr`. -/
@[irreducible] def word (img : Image) (addr : Nat) : Nat :=
  256 * (256 * (256 * (img addr).toNat + (img (addr + 1)).toNat) + (img (addr + 2)).toNat) +
    (img (addr + 3)).toNat

def bytesAt (img : Image) (addr n : Nat) : List UInt8 := (List.range n).map fun i => img (addr + i)

/-- The string at `addr`, of at most `n` characters. -/
def cstr (img : Image) : (addr n : Nat) → List UInt8
  | _, 0 => []
  | addr, n + 1 => if img addr = 0 then [] else img addr :: cstr img (addr + 1) n

def alignUp16 (n : Nat) : Nat := (n + 15) / 16 * 16

def direntType (img : Image) (addr : Nat) : Romfh :=
  if word img addr % 8 = 0 then .hrd
  else if word img addr % 8 = 2 then .reg
  else if word img addr % 8 = 1 then .dir
  else .unknow

def romfsEndaddr (img : Image) : Nat := word img 8

/-- The low four bits are masked away. -/
def direntHardfh (img : Image) (addr : Nat) : Nat := word img addr / 16 * 16

def direntChildaddr (img : Image) (addr : Nat) : Nat := word img (addr + 4) / 16 * 16

def direntSize (img : Image) (addr : Nat) : Nat := word img (addr + 8)

/-- Behind the volume name and the root's `.` and `..`. -/
def rootStart (img : Image) : Nat := alignUp16 ((cstr img 16 (2 ^ 32)).length + 1) + 16 + 64

/-! ## Path checks -/

def isPathCh (ch : UInt8) : Bool :=
  (0x61 ≤ ch && ch ≤ 0x7a) || (0x41 ≤ ch && ch ≤ 0x5a) || (0x30 ≤ ch && ch ≤ 0x39) || ch == slash ||
    ch == 0x2e || ch == 0x5f || ch == 0x2d

/-- `i_old` is the position of the slash before, which `i` is never equal to. -/
def filterLoop : (path : List UInt8) → (i iOld : Nat) → Int
  | [], _, _ => 0
  | ch :: path, i, iOld =>
    if isPathCh ch = false then -2
    else if ch ≠ slash then filterLoop path (i + 1) iOld
    else if i ≠ 0 then if i = iOld then -3 else filterLoop path (i + 1) i
    else filterLoop path (i + 1) i

def filterFormat (path : List UInt8) : Int :=
  if path.take romfsMountpoint.length ≠ romfsMountpoint then -1 else filterLoop path 0 0

/-! ## Path resolution -/

/-- What a search gives: an entry and the end of where its siblings' and
children's headers lie, an error, or no result at all. -/
inductive Reply
  | found (start stop : Nat)
  | error (code : Int)
  | stuck
  deriving DecidableEq, Repr

/-- The header at `addr` has the name `path`. -/
def isNamed (img : Image) (path : List UInt8) (addr : Nat) : Bool :=
  bytesAt img (addr + 16) path.length == path && img (addr + 16 + path.length) == 0

/-- The loop of `file_info`. -/
def fileInfoLoop (img : Image) (path : List UInt8) : (fuel start stop : Nat) → Reply
  | 0, _, _ => .stuck
  | fuel + 1, start, stop =>
    let next := direntHardfh img start
    if direntType img start = .dir ∧ isNamed img path start then
      .found start (if next = 0 then stop else next)
    else if direntType img start = .reg ∧ isNamed img path start then .found start next
    else if direntType img start = .unknow then .error (-1)
    else if next ≥ stop then .error (-1)
    else fileInfoLoop img path fuel next stop

def fileInfo (img : Image) (path : List UInt8) (start stop : Nat) : Reply :=
  if romfsMaxNameLen < path.length then .error (-1)
  else fileInfoLoop img path (2 ^ 32 + 1) (if start = 0 then rootStart img else start) stop

/-- The loop of `dirent_file` on what is left of the path. A middle name is
copied to an array of 65 characters, where it must leave room for the zero. -/
def direntLoop (img : Image) : (fuel : Nat) → (pName : List UInt8) → (start stop : Nat) →
    (needEnterChild : Bool) → Reply
  | 0, _, _, _, _ => .stuck
  | fuel + 1, pName, start, stop, needEnterChild =>
    if pName = [] then .found start stop
    else if needEnterChild && start == direntChildaddr img start then .error (-2)
    else
      let start := if needEnterChild then direntChildaddr img start else start
      let name := pName.takeWhile (· != slash)
      match pName.dropWhile (· != slash) with
      | [] => if pName.length > romfsMaxNameLen then .error (-1) else fileInfo img pName start stop
      | _ :: rest =>
        if name.length > romfsMaxNameLen then .stuck
        else
          match fileInfo img name start stop with
          | .found start stop => direntLoop img fuel rest start stop true
          | .error _ => .error (-1)
          | .stuck => .stuck

def direntFile (img : Image) (path : List UInt8) : Reply :=
  if path.take romfsMountpoint.length ≠ romfsMountpoint then .error (-1)
  else
    match path.drop romfsMountpoint.length with
    | [] => .found 0 (romfsEndaddr img)
    | ch :: pName =>
      if ch ≠ slash then .error (-1)
      else direntLoop img (pName.length + 1) pName 0 (romfsEndaddr img) false

/-! ## Files -/

/-- `romfs_file_t`; `fArg` is the file's header. -/
structure RomfsFile where
  fArg : Nat
  offset : Nat
  deriving DecidableEq, Repr

inductive RomfsWhence
  | romfsSeekSet
  | romfsSeekCur
  | romfsSeekEnd
  /-- A value that the enumeration does not name. -/
  | unnamed
  deriving DecidableEq, Repr

def romfsOpen (img : Image) (path : List UInt8) : Except Int RomfsFile :=
  if filterFormat path ≠ 0 then .error (-1)
  else
    match direntFile img path with
    | .found start _ => .ok ⟨start, 0⟩
    | _ => .error (-2)

/-- Where a file's bytes lie, behind its header and name. -/
def payload (img : Image) (fArg : Nat) : Nat :=
  fArg + alignUp16 ((cstr img (fArg + 16) (2 ^ 32)).length + 1) + 16

/-- The bytes copied to the caller's buffer and the number returned. -/
def romfsRead (img : Image) (fp : RomfsFile) (length : Nat) : RomfsFile × List UInt8 × Nat :=
  let payloadBuf := payload img fp.fArg
  let payloadSize := direntSize img fp.fArg
  if fp.offset ≥ payloadSize then (fp, [], 0)
  else if Kit.Word.add32 fp.offset length < payloadSize then
    ({ fp with offset := Kit.Word.add32 fp.offset length },
      bytesAt img (payloadBuf + fp.offset) length, length)
  else
    let len := payloadSize - fp.offset
    ({ fp with offset := payloadSize }, bytesAt img (payloadBuf + fp.offset) len, len)

/-- An `int` where a `size_t` is expected. -/
def sizeT (n : Int) : Nat := (n % 2 ^ 32).toNat

def romfsLseek (img : Image) (fp : RomfsFile) (off : Int) (whence : RomfsWhence) :
    RomfsFile × Nat :=
  let payloadSize := direntSize img fp.fArg
  let seek (tmp : Nat) : RomfsFile × Nat :=
    if tmp > payloadSize then (fp, sizeT (-5)) else ({ fp with offset := tmp }, tmp)
  match whence with
  | .romfsSeekSet => if off < 0 then (fp, sizeT (-2)) else seek (sizeT off)
  | .romfsSeekEnd => if off > 0 then (fp, sizeT (-3)) else seek (sizeT (off + payloadSize))
  | .romfsSeekCur => seek (sizeT (off + fp.offset))
  | .unnamed => (fp, sizeT (-4))

/-! ## Directories -/

/-- `romfs_dir_t`; `cur` is `none` before the first entry. -/
structure RomfsDir where
  start : Nat
  stop : Nat
  cur : Option Nat
  name : List UInt8
  type : Romfh
  deriving DecidableEq, Repr

def romfsOpendir (img : Image) (path : List UInt8) : Except Int RomfsDir :=
  match direntFile img path with
  | .found start stop =>
    if start = 0 then .ok ⟨rootStart img, stop, none, [], .hrd⟩
    else if direntChildaddr img start = 0 then .error (-3)
    else .ok ⟨direntChildaddr img start, stop, none, [], .hrd⟩
  | _ => .error (-4)

/-- The inner loop of `romfs_readdir`: where the cursor stops, and whether at
an entry to report. -/
def skipLinks (img : Image) (start stop : Nat) : (fuel cur : Nat) → Option (Nat × Bool)
  | 0, _ => none
  | fuel + 1, cur =>
    if cur ≥ stop ∨ cur < start then some (cur, false)
    else if direntHardfh img cur = 0 then some (cur, true)
    else if direntType img cur = .dir ∨ direntType img cur = .reg then some (cur, true)
    else skipLinks img start stop fuel (direntHardfh img cur)

def isDots (name : List UInt8) : Bool := name == [0x2e] || name == [0x2e, 0x2e]

/-- The entry at `cur` is read and the cursor moves on, before its type is read. -/
def readEntry (img : Image) (dir : RomfsDir) (cur : Nat) : RomfsDir :=
  { dir with
    cur := some (if direntHardfh img cur = 0 then dir.stop else direntHardfh img cur)
    name := cstr img (cur + 16) romfsMaxNameLen }

/-- The type of what the cursor is at, unless it has none. -/
def readType (img : Image) (dir : RomfsDir) : RomfsDir :=
  match dir.cur.map (direntType img) with
  | some .dir => { dir with type := .dir }
  | some .reg => { dir with type := .reg }
  | _ => dir

/-- Where the next entry is read. -/
def nextPlace (img : Image) (dir : RomfsDir) : Option (Nat × Bool) :=
  match dir.cur with
  | none => some (dir.start, true)
  | some cur =>
    if cur ≥ dir.stop then some (cur, false)
    else skipLinks img dir.start dir.stop (2 ^ 32 + 1) cur

/-- The loop of `romfs_readdir`: the directory afterwards, and the name and
type reported if any; `none` when the loop does not end. -/
def readdirLoop (img : Image) :
    (fuel : Nat) → RomfsDir → Option (RomfsDir × Option (List UInt8 × Romfh))
  | 0, _ => none
  | fuel + 1, dir =>
    (nextPlace img dir).bind fun (cur, report) =>
      if report then
        let dir := readEntry img dir cur
        if isDots dir.name then readdirLoop img fuel dir
        else
          let dir := readType img dir
          some (dir, some (dir.name, dir.type))
      else some ({ dir with cur := some cur }, none)

def romfsReaddir (img : Image) (dir : RomfsDir) : Option (RomfsDir × Option (List UInt8 × Romfh)) :=
  readdirLoop img (2 ^ 32 + 1) dir

end BouffaloSdk.Romfs
