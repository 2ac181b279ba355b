import BouffaloSdk.Fs.Littlefs

/-!
# Key-value store on littlefs

`lfs_easyflash.c`: one file for each key, its name the key with `}` and `/`
escaped. The lock around each call, the log and `errno` are left out.
-/

namespace BouffaloSdk.LfsEasyflash
open Kit Littlefs

inductive EfErrCode
  | efNoErr
  | efReadErr
  | efWriteErr
  | efEnvNameErr
  | efEnvInitFailed
  | efEnvArgErr
  deriving DecidableEq, Repr

def lfsEfNamespace : Path := "/_ef4_kvs_".toList

/-- `sizeof(path_buffer)`. -/
def pathBufferSize : Nat := 64

/-- `lfs` tells whether the static handle is set; it starts as `NULL`. -/
structure Env where
  lfs : Bool
  fs : Lfs
  deriving DecidableEq, Repr

/-- `handle` tells what `lfs_xip_init` returned. The variable that takes it is
the function's own, not the static one. -/
def easyflashInit (env : Env) (handle : Bool) : Env × EfErrCode :=
  if !handle then (env, .efEnvInitFailed)
  else
    let (ret, type) := lfsStat env.fs lfsEfNamespace
    if ret = lfsErrOk ∧ type = .lfsTypeDir then (env, .efNoErr)
    else if ret = lfsErrOk ∧ type = .lfsTypeReg then (env, .efEnvInitFailed)
    else
      let (fs, ret) := lfsMkdir env.fs lfsEfNamespace
      ({ env with fs }, if ret ≠ lfsErrOk then .efEnvInitFailed else .efNoErr)

def escaped (c : Char) : Path :=
  if c = '}' ∨ c = '/' then ['}', Char.ofNat (c.toNat ^^^ 0x20)] else [c]

/-- The length of the path, and the path if it fits the buffer with its zero. -/
def genKvKeyPath (bufLen : Nat) (pathPrefix path : Path) : Nat × Path :=
  let text := pathPrefix ++ '/' :: path.flatMap escaped
  (text.length, if text.length > bufLen - 1 then [] else text)

structure GetReply where
  readLen : Nat
  value : List UInt8
  savedValueLen : Option Nat
  deriving DecidableEq, Repr

/-- `NULL` is `none`; `valueBuf` and `saved` tell whether the pointers were passed. -/
def efGetEnvBlobOffset (env : Env) (key : Option Path) (valueBuf : Bool) (bufLen : Nat)
    (saved : Bool) (offset : Int) : Env × GetReply :=
  if !env.lfs then (env, ⟨0, [], none⟩)
  else
    match key with
    | none => (env, ⟨0, [], none⟩)
    | some key =>
      if !valueBuf ∨ bufLen = 0 then (env, ⟨0, [], none⟩)
      else
        let (ret, path) := genKvKeyPath pathBufferSize lfsEfNamespace key
        if ret ≥ pathBufferSize then (env, ⟨0, [], none⟩)
        else
          let (fs, ret) := lfsFileOpen env.fs path false
          if ret ≠ lfsErrOk then ({ env with fs }, ⟨0, [], none⟩)
          else
            let opened := (fs.content path).getD []
            let (fs, ret) := lfsFileSeek fs offset
            if ret < 0 then ({ env with fs := (lfsFileClose fs path opened).1 }, ⟨0, [], none⟩)
            else
              let (fs, ret, bytes) := lfsFileRead fs path offset.toNat bufLen
              if ret < 0 then ({ env with fs := (lfsFileClose fs path opened).1 }, ⟨0, [], none⟩)
              else if saved then
                let (fs, size) := lfsFileSize fs path
                if size < 0 then
                  ({ env with fs := (lfsFileClose fs path opened).1 }, ⟨0, bytes, none⟩)
                else
                  ({ env with fs := (lfsFileClose fs path opened).1 },
                    ⟨ret.toNat, bytes, some size.toNat⟩)
              else ({ env with fs := (lfsFileClose fs path opened).1 }, ⟨ret.toNat, bytes, none⟩)

def efGetEnvBlob (env : Env) (key : Option Path) (valueBuf : Bool) (bufLen : Nat)
    (saved : Bool) : Env × GetReply :=
  efGetEnvBlobOffset env key valueBuf bufLen saved 0

def efSetEnvBlob (env : Env) (key : Option Path) (valueBuf : Option (List UInt8)) :
    Env × EfErrCode :=
  if !env.lfs then (env, .efEnvInitFailed)
  else
    match key, valueBuf with
    | some key, some value =>
      if value = [] then (env, .efEnvArgErr)
      else
        let (ret, path) := genKvKeyPath pathBufferSize lfsEfNamespace key
        if ret ≥ pathBufferSize then (env, .efEnvNameErr)
        else
          let (fs, ret) := lfsFileOpen env.fs path true
          if ret ≠ lfsErrOk then ({ env with fs }, .efWriteErr)
          else
            let opened := (fs.content path).getD []
            let (fs, ret) := lfsFileWrite fs path value
            if ret ≠ value.length then
              ({ env with fs := (lfsFileClose fs path opened).1 }, .efWriteErr)
            else
              let (fs, ret) := lfsFileTruncate fs path value.length
              if ret ≠ lfsErrOk then
                ({ env with fs := (lfsFileClose fs path opened).1 }, .efWriteErr)
              else ({ env with fs := (lfsFileClose fs path opened).1 }, .efNoErr)
    | _, _ => (env, .efEnvArgErr)

/-- The text goes in with its zero. -/
def efSetEnv (env : Env) (key : Option Path) (value : List UInt8) : Env × EfErrCode :=
  efSetEnvBlob env key (some (value ++ [0]))

def efDelEnv (env : Env) (key : Option Path) : Env × EfErrCode :=
  if !env.lfs then (env, .efEnvInitFailed)
  else
    match key with
    | none => (env, .efEnvArgErr)
    | some key =>
      let (ret, path) := genKvKeyPath pathBufferSize lfsEfNamespace key
      if ret ≥ pathBufferSize then (env, .efEnvNameErr)
      else ({ env with fs := (lfsRemove env.fs path).1 }, .efNoErr)

/-- The loop over the directory, `entries` not yet read. -/
def setDefaultLoop (fs : Lfs) : List (Path × LfsType) → Lfs × EfErrCode
  | [] =>
    let (fs, ret) := lfsDirRead fs 0
    (fs, if ret < 0 then .efReadErr else .efNoErr)
  | (name, type) :: entries =>
    let (fs, ret) := lfsDirRead fs (entries.length + 1)
    if ret < 0 then (fs, .efReadErr)
    else if name = ['.'] ∨ name = ['.', '.'] then setDefaultLoop fs entries
    else if type ≠ .lfsTypeReg then (fs, .efEnvNameErr)
    else
      let (fs, ret) := lfsRemove fs (lfsEfNamespace ++ '/' :: name)
      if ret < 0 then (fs, .efWriteErr) else setDefaultLoop fs entries

def efEnvSetDefault (env : Env) : Env × EfErrCode :=
  if !env.lfs then (env, .efEnvInitFailed)
  else
    let (fs, ret) := lfsDirOpen env.fs lfsEfNamespace
    if ret ≠ lfsErrOk then ({ env with fs }, .efReadErr)
    else
      let (fs, ret) := setDefaultLoop fs (lfsDirEntries fs lfsEfNamespace)
      ({ env with fs }, ret)

/-! ## Paths -/

variable {key other : Path} {c : Char}

/-- The key a file name stands for. -/
def unescaped : Path → Path
  | [] => []
  | [c] => [c]
  | '}' :: c :: name => Char.ofNat (c.toNat ^^^ 0x20) :: unescaped name
  | c :: name => c :: unescaped name

theorem unescaped_escaped_append (c : Char) (name : Path) :
    unescaped (escaped c ++ name) = c :: unescaped name := by
  unfold escaped
  by_cases hescape : c = '}' ∨ c = '/'
  · rw [if_pos hescape]
    rcases hescape with rfl | rfl <;> simp [unescaped]
  · rw [if_neg hescape]
    obtain ⟨hbrace, -⟩ := not_or.mp hescape
    cases name with
    | nil => rfl
    | cons next name =>
      rw [List.singleton_append, unescaped]
      · exact nofun
      · exact fun _ _ heq _ => absurd heq hbrace

theorem unescaped_flatMap (key : Path) : unescaped (key.flatMap escaped) = key := by
  induction key with
  | nil => rfl
  | cons c key ih => rw [List.flatMap_cons, unescaped_escaped_append, ih]

theorem escaped_injective : Function.Injective fun key : Path => key.flatMap escaped := by
  intro key other h
  have heq := congrArg unescaped h
  simpa only [unescaped_flatMap] using heq

theorem slash_notMem_escaped (c : Char) : '/' ∉ escaped c := by
  unfold escaped
  by_cases hescape : c = '}' ∨ c = '/'
  · rw [if_pos hescape]
    rcases hescape with rfl | rfl <;> decide
  · rw [if_neg hescape, List.mem_singleton]
    exact fun h => hescape (.inr h.symm)

end BouffaloSdk.LfsEasyflash
