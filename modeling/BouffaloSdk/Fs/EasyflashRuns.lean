import BouffaloSdk.Fs.LfsEasyflash
import BouffaloSdk.Kit.Runs

/-!
# The store over runs

The store as a map from keys to byte strings. After `easyflash_init` the static
handle is still `NULL`, so that every call is turned away; with the handle set,
the calls act on the map as they should.
-/

namespace BouffaloSdk.LfsEasyflash
open Kit Kit.Runs Littlefs

inductive Event
  /-- With offset 0 also `ef_get_env_blob`. -/
  | get (key : Option Path) (valueBuf : Bool) (bufLen : Nat) (saved : Bool) (offset : Int)
  | setBlob (key : Option Path) (valueBuf : Option (List UInt8))
  | setEnv (key : Option Path) (value : List UInt8)
  | del (key : Option Path)
  | setDefault
  deriving DecidableEq, Repr

def reply (env : Env) : Event → GetReply
  | .get key valueBuf bufLen saved offset =>
    (efGetEnvBlobOffset env key valueBuf bufLen saved offset).2
  | _ => ⟨0, [], none⟩

def result (env : Env) : Event → EfErrCode
  | .get .. => .efNoErr
  | .setBlob key valueBuf => (efSetEnvBlob env key valueBuf).2
  | .setEnv key value => (efSetEnv env key value).2
  | .del key => (efDelEnv env key).2
  | .setDefault => (efEnvSetDefault env).2

def step (env : Env) (e : Event) : Option Env :=
  some <|
    match e with
    | .get key valueBuf bufLen saved offset =>
      (efGetEnvBlobOffset env key valueBuf bufLen saved offset).1
    | .setBlob key valueBuf => (efSetEnvBlob env key valueBuf).1
    | .setEnv key value => (efSetEnv env key value).1
    | .del key => (efDelEnv env key).1
    | .setDefault => (efEnvSetDefault env).1

/-! ## The map -/

def keyPath (key : Path) : Path := lfsEfNamespace ++ '/' :: key.flatMap escaped

def Fits (key : Path) : Prop := (keyPath key).length < pathBufferSize

instance (key : Path) : Decidable (Fits key) := inferInstanceAs (Decidable (_ < _))

def stored (fs : Lfs) (key : Path) : Option (List UInt8) :=
  if Fits key then fs.content (keyPath key) else none

/-- What a get of a value is to hand out. -/
def answer (value : Option (List UInt8)) (bufLen : Nat) (saved : Bool) (offset : Nat) : GetReply :=
  match value with
  | none => ⟨0, [], none⟩
  | some value =>
    ⟨((value.drop offset).take bufLen).length, (value.drop offset).take bufLen,
      if saved then some value.length else none⟩

/-- An operation of the file system failed on the way. -/
def Failed (env after : Env) : Prop :=
  ∃ used, env.fs.faults = used ++ after.fs.faults ∧ ∃ code ∈ used, code < 0

/-- A call on one key sets its value, or reports an error that bad arguments or
the file system are the cause of, and leaves every other key. -/
def Sets (env after : Env) (err : EfErrCode) (key : Path) (value : Option (List UInt8)) : Prop :=
  if err = .efNoErr then stored after.fs = Function.update (stored env.fs) key value
  else (¬ Fits key ∨ value = some [] ∨ Failed env after) ∧
    ∀ other ≠ key, stored after.fs other = stored env.fs other

/-- The store is the map: what each call does to it and hands out. There are no
default pairs. -/
def Refines (env : Env) (e : Event) (after : Env) : Prop :=
  match e with
  | .get (some key) true bufLen saved offset =>
    stored after.fs = stored env.fs ∧
      (reply env e =
          (if bufLen = 0 ∨ offset < 0 then ⟨0, [], none⟩
            else answer (stored env.fs key) bufLen saved offset.toNat) ∨
        (reply env e).readLen = 0 ∧ Failed env after)
  | .setBlob (some key) (some value) => Sets env after (result env e) key (some value)
  | .setEnv (some key) value => Sets env after (result env e) key (some (value ++ [0]))
  | .del (some key) => Sets env after (result env e) key none
  | .setDefault =>
    if result env e = .efNoErr then stored after.fs = fun _ => none else Failed env after
  | _ => stored after.fs = stored env.fs ∧ reply env e = ⟨0, [], none⟩

/-- The call asks for nothing that the store has or could take. -/
def Idle (env : Env) (e : Event) (_ : Env) : Prop :=
  match e with
  | .get (some key) true bufLen saved offset =>
    bufLen = 0 ∨ offset < 0 ∨ ∀ value ∈ stored env.fs key,
      value.length ≤ offset.toNat ∧ saved = false
  | .setBlob (some key) (some value) => ¬ Fits key ∨ value = []
  | .setEnv (some key) _ => ¬ Fits key
  | .del (some key) => ¬ Fits key
  | .setDefault => False
  | _ => True

variable {env after : Env} {e : Event} {key other : Path} {value : List UInt8}

/-! ## Without a handle -/

theorem not_failed_self (env : Env) : ¬ Failed env env := by
  rintro ⟨used, hused, code, hcode, -⟩
  have hnil : used = [] := by simpa using hused
  rw [hnil] at hcode
  cases hcode

theorem step_eq_self (h : env.lfs = false) (e : Event) : step env e = some env := by
  cases e <;> simp [step, efGetEnvBlobOffset, efSetEnvBlob, efSetEnv, efDelEnv, efEnvSetDefault, h]

theorem reply_eq (h : env.lfs = false) (e : Event) : reply env e = ⟨0, [], none⟩ := by
  cases e <;> simp [reply, efGetEnvBlobOffset, h]

theorem sets_self_iff (err : EfErrCode) (herr : err ≠ .efNoErr) (key : Path)
    (value : Option (List UInt8)) :
    Sets env env err key value ↔ ¬ Fits key ∨ value = some [] := by
  rw [Sets, if_neg herr]
  simp [not_failed_self]

theorem answer_eq_nothing (found : Option (List UInt8)) {bufLen : Nat} (hbuf : bufLen ≠ 0)
    (saved : Bool) (offset : Nat) : answer found bufLen saved offset = ⟨0, [], none⟩ ↔
      ∀ value ∈ found, value.length ≤ offset ∧ saved = false := by
  cases found with
  | none => simp [answer]
  | some value => cases saved <;> simp [answer, hbuf, Nat.sub_eq_zero_iff_le]

theorem refines_iff_idle (h : env.lfs = false) (ht : step env e = some after) :
    Refines env e after ↔ Idle env e after := by
  rw [step_eq_self h] at ht
  cases ht
  have hreply := reply_eq h e
  match e with
  | .get (some key) true bufLen saved offset =>
    simp only [Refines, Idle, hreply, not_failed_self, true_and, and_false, or_false]
    by_cases hbad : bufLen = 0 ∨ offset < 0
    · rw [if_pos hbad]
      exact iff_of_true rfl (hbad.imp_right .inl)
    · obtain ⟨hbuf, hoffset⟩ := not_or.mp hbad
      rw [if_neg hbad, eq_comm, answer_eq_nothing _ hbuf, or_iff_right hbuf, or_iff_right hoffset]
  | .get (some key) false bufLen saved offset => exact iff_of_true ⟨rfl, hreply⟩ trivial
  | .get none valueBuf bufLen saved offset => exact iff_of_true ⟨rfl, hreply⟩ trivial
  | .setBlob (some key) (some value) =>
    have herr : result env (.setBlob (some key) (some value)) ≠ .efNoErr := by
      simp [result, efSetEnvBlob, h]
    rw [Refines, sets_self_iff _ herr, Option.some_inj]
    rfl
  | .setBlob (some key) none => exact iff_of_true ⟨rfl, hreply⟩ trivial
  | .setBlob none valueBuf => exact iff_of_true ⟨rfl, hreply⟩ trivial
  | .setEnv (some key) value =>
    have herr : result env (.setEnv (some key) value) ≠ .efNoErr := by
      simp [result, efSetEnv, efSetEnvBlob, h]
    rw [Refines, sets_self_iff _ herr]
    simp [Idle]
  | .setEnv none value => exact iff_of_true ⟨rfl, hreply⟩ trivial
  | .del (some key) =>
    have herr : result env (.del (some key)) ≠ .efNoErr := by
      simp [result, efDelEnv, h]
    rw [Refines, sets_self_iff _ herr]
    simp [Idle]
  | .del none => exact iff_of_true ⟨rfl, hreply⟩ trivial
  | .setDefault =>
    have herr : result env .setDefault ≠ .efNoErr := by
      simp [result, efEnvSetDefault, h]
    rw [Refines, if_neg herr]
    exact iff_of_false (not_failed_self env) id

theorem easyflashInit_lfs (env : Env) (handle : Bool) :
    (easyflashInit env handle).1.lfs = env.lfs := by
  simp only [easyflashInit]
  split
  · rfl
  · split
    · rfl
    · split <;> rfl

def boot (fs : Lfs) : Env := ⟨false, fs⟩

/-- After initialisation the store is the map in exactly the runs that ask
nothing of it. -/
theorem refines_iff_idle_after_init (fs : Lfs) (handle : Bool) (events : List Event) :
    Along step Refines (easyflashInit (boot fs) handle).1 events ↔
      Along step Idle (easyflashInit (boot fs) handle).1 events :=
  along_iff_of_invariant (fun _ _ _ hlfs ht => refines_iff_idle hlfs ht)
    (fun _ _ _ hlfs ht _ => by
      rw [step_eq_self hlfs] at ht
      cases ht
      exact hlfs)
    (easyflashInit_lfs (boot fs) handle)

def formatted : Lfs := ⟨[], [[]], [], none⟩

theorem set_refused_after_init :
    (easyflashInit (boot formatted) true).2 = .efNoErr ∧
      ¬ Along step Refines (easyflashInit (boot formatted) true).1
        [.setBlob (some ['k']) (some [1])] := by
  refine ⟨by decide, fun h => ?_⟩
  have hset := (h _ rfl).1
  have herr : result (easyflashInit (boot formatted) true).1 (.setBlob (some ['k']) (some [1])) ≠
      .efNoErr := by decide
  rw [Refines, Sets, if_neg herr] at hset
  rcases hset.1 with hfits | hempty | hfailed
  · exact hfits (by decide)
  · exact absurd hempty (by decide)
  · exact not_failed_self _ hfailed

end BouffaloSdk.LfsEasyflash
