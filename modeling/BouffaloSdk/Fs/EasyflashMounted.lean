import BouffaloSdk.Fs.EasyflashRuns

/-!
# The store with its handle set

Were the static handle the one that initialisation mounted, the store would be
the map, as long as the file system does what it is asked to.
-/

namespace BouffaloSdk.LfsEasyflash
open Kit Kit.Runs Littlefs

/-- A key whose file is not the directory itself or the one above it. -/
def Plain (key : Path) : Prop := key ≠ [] ∧ key ≠ ['.'] ∧ key ≠ ['.', '.']

def Event.key : Event → Option Path
  | .get key .. | .setBlob key _ | .setEnv key _ | .del key => key
  | .setDefault => none

def PlainKey (_ : Env) (e : Event) (_ : Env) : Prop := ∀ key ∈ e.key, Plain key

structure Ready (env : Env) : Prop where
  handle : env.lfs = true
  sound : env.fs.Sound
  power : env.fs.power = none
  namespaceDir : lfsEfNamespace ∈ env.fs.dirs
  noSubdir : ∀ dir ∈ env.fs.dirs, nameIn lfsEfNamespace dir = none
  own : ∀ path, (nameIn lfsEfNamespace path).isSome → (env.fs.content path).isSome →
    ∃ key, Plain key ∧ Fits key ∧ path = keyPath key

variable {env after : Env} {fs t : Lfs} {e : Event} {key other : Path} {value : List UInt8}

theorem keyPath_injective : Function.Injective keyPath := by
  intro key other h
  exact escaped_injective (List.cons.inj (List.append_cancel_left h)).2

theorem slash_notMem_flatMap (key : Path) : '/' ∉ key.flatMap escaped := by
  intro h
  obtain ⟨c, -, hc⟩ := List.mem_flatMap.mp h
  exact slash_notMem_escaped c hc

theorem nameIn_keyPath (key : Path) :
    nameIn lfsEfNamespace (keyPath key) = some (key.flatMap escaped) :=
  nameIn_append _ (slash_notMem_flatMap key)

theorem parent_keyPath (key : Path) : parent (keyPath key) = lfsEfNamespace :=
  parent_append _ (slash_notMem_flatMap key)

theorem Ready.env_eq (h : Ready env) : (⟨true, env.fs⟩ : Env) = env := by
  rw [← h.handle]

theorem Ready.notDir (h : Ready env) (key : Path) : keyPath key ∉ env.fs.dirs := by
  intro hdir
  have hname := h.noSubdir _ hdir
  rw [nameIn_keyPath] at hname
  cases hname

theorem genKvKeyPath_of_fits (h : Fits key) :
    genKvKeyPath pathBufferSize lfsEfNamespace key = ((keyPath key).length, keyPath key) := by
  have hfits : ¬ (keyPath key).length > pathBufferSize - 1 := by
    unfold Fits at h
    omega
  exact Prod.ext rfl (if_neg hfits)

theorem stored_of_fits (h : Fits key) (fs : Lfs) : stored fs key = fs.content (keyPath key) :=
  if_pos h

theorem stored_of_rewritten {bytes : Option (List UInt8)} (hfits : Fits key)
    (h : Rewritten fs t (keyPath key) bytes) :
    stored t = Function.update (stored fs) key bytes := by
  funext other
  unfold stored
  rw [h.content]
  by_cases hkey : other = key
  · subst hkey
    rw [if_pos hfits, Function.update_self, Function.update_self]
  · rw [Function.update_of_ne hkey, Function.update_of_ne (keyPath_injective.ne hkey)]

theorem ready_of_rewritten {bytes : Option (List UInt8)} (hready : Ready env) (hplain : Plain key)
    (hfits : Fits key) (h : Rewritten env.fs t (keyPath key) bytes) :
    Ready { env with fs := t } where
  handle := hready.handle
  sound := h.sound
  power := h.power
  namespaceDir := h.dirs ▸ hready.namespaceDir
  noSubdir := h.dirs ▸ hready.noSubdir
  own path hin hpath := by
    change (t.content path).isSome at hpath
    rw [h.content] at hpath
    by_cases heq : path = keyPath key
    · exact ⟨key, hplain, hfits, heq⟩
    · rw [Function.update_of_ne heq] at hpath
      exact hready.own path hin hpath

theorem lfsFileClose_of_sound (h : fs.Sound) (path : Path) (opened : List UInt8) :
    lfsFileClose fs path opened = (fs, lfsErrOk) := by
  rw [lfsFileClose, Lfs.attempt_of_sound h]
  rfl

theorem set_ready (h : Ready env) (hfits : Fits key) (hvalue : value ≠ []) :
    ∃ t, efSetEnvBlob env (some key) (some value) = ({ env with fs := t }, .efNoErr) ∧
      Rewritten env.fs t (keyPath key) (some value) := by
  have hret : ¬ (keyPath key).length ≥ pathBufferSize := Nat.not_le.mpr hfits
  have hparent : parent (keyPath key) ∈ env.fs.dirs := by
    rw [parent_keyPath]
    exact h.namespaceDir
  obtain ⟨opened, hopen, hopened⟩ :=
    lfsFileOpen_rewritten h.sound h.power (h.notDir key) hparent
  obtain ⟨written, hwrite, hwritten⟩ :=
    lfsFileWrite_rewritten hopened.sound hopened.power (keyPath key) value
  obtain ⟨cut, htruncate, hcut⟩ :=
    lfsFileTruncate_rewritten hwritten.sound hwritten.power (keyPath key) value.length
  refine ⟨cut, ?_, ?_⟩
  · simp only [efSetEnvBlob, h.handle, Bool.not_true, Bool.false_eq_true, if_false, if_neg hvalue,
      genKvKeyPath_of_fits hfits, if_neg hret, hopen, hwrite, htruncate, ne_eq,
      not_true_eq_false, lfsFileClose_of_sound hcut.sound]
  · rw [hwritten.content, Function.update_self, Option.getD_some, List.take_left'] at hcut
    · exact (hopened.trans hwritten).trans hcut
    · rfl

theorem get_ready (h : Ready env) (key : Path) (bufLen : Nat) (saved : Bool) (offset : Int) :
    efGetEnvBlobOffset env (some key) true bufLen saved offset =
      (env, if bufLen = 0 ∨ offset < 0 then ⟨0, [], none⟩
        else answer (stored env.fs key) bufLen saved offset.toNat) := by
  unfold efGetEnvBlobOffset
  simp only [h.handle, Bool.not_true, Bool.false_eq_true, if_false, false_or]
  by_cases hbuf : bufLen = 0
  · rw [if_pos hbuf, if_pos (.inl hbuf)]
  · rw [if_neg hbuf]
    by_cases hfits : Fits key
    · have hret : ¬ (keyPath key).length ≥ pathBufferSize := Nat.not_le.mpr hfits
      rw [stored_of_fits hfits]
      simp only [genKvKeyPath_of_fits hfits, if_neg hret]
      cases hfile : env.fs.content (keyPath key) with
      | none =>
        rw [lfsFileOpen_absent h.sound (h.notDir key) hfile]
        simp [lfsErrNoent, lfsErrOk, answer, h.env_eq]
      | some value =>
        rw [lfsFileOpen_present h.sound (h.notDir key) hfile]
        by_cases hoffset : offset < 0
        · simp [lfsFileSeek, Lfs.attempt_of_sound h.sound, hoffset, lfsErrInval,
            lfsFileClose_of_sound h.sound, h.env_eq]
        · have hread : ∀ n : Nat, ¬ ((n : Int) < 0) := fun n =>
            Int.not_lt.mpr (Int.natCast_nonneg n)
          cases saved <;>
            simp [lfsFileSeek, lfsFileSize, lfsFileRead_of_sound h.sound, hfile, hoffset, hbuf,
              Lfs.attempt_of_sound h.sound, lfsFileClose_of_sound h.sound, answer, hread,
              h.env_eq, -List.length_take]
    · have hlong : (genKvKeyPath pathBufferSize lfsEfNamespace key).1 ≥ pathBufferSize :=
        Nat.not_lt.mp hfits
      have hnone : stored env.fs key = none := if_neg hfits
      simp [hlong, hnone, answer]

theorem del_ready (h : Ready env) (hfits : Fits key) :
    ∃ t, efDelEnv env (some key) = ({ env with fs := t }, .efNoErr) ∧
      Rewritten env.fs t (keyPath key) none := by
  have hret : ¬ (keyPath key).length ≥ pathBufferSize := Nat.not_le.mpr hfits
  refine ⟨_, ?_, lfsRemove_rewritten h.sound h.power (h.notDir key)⟩
  simp only [efDelEnv, h.handle, Bool.not_true, Bool.false_eq_true, if_false,
    genKvKeyPath_of_fits hfits, if_neg hret]

/-! ## Clearing -/

theorem setDefaultLoop_keys (hsound : fs.Sound) (hpower : fs.power = none) {keys : List Path}
    (hdir : ∀ key ∈ keys, keyPath key ∉ fs.dirs) (hplain : ∀ key ∈ keys, Plain key)
    (hpresent : ∀ key ∈ keys, (fs.content (keyPath key)).isSome) (hnodup : keys.Nodup) :
    setDefaultLoop fs (keys.map fun key => (key.flatMap escaped, .lfsTypeReg)) =
      ({ fs with files := (keys.map keyPath).foldl Files.remove fs.files }, .efNoErr) := by
  induction keys generalizing fs with
  | nil =>
    simp only [List.map_nil, setDefaultLoop, lfsDirRead, Lfs.attempt_of_sound hsound]
    rfl
  | cons key keys ih =>
    obtain ⟨hnew, hnodup⟩ := List.nodup_cons.mp hnodup
    obtain ⟨bytes, hbytes⟩ := Option.isSome_iff_exists.mp (hpresent key List.mem_cons_self)
    have hdots : ¬ (key.flatMap escaped = ['.'] ∨ key.flatMap escaped = ['.', '.']) := by
      obtain ⟨-, hdot, hdots⟩ := hplain key List.mem_cons_self
      rintro (heq | heq)
      · exact hdot (escaped_injective (heq : _ = List.flatMap escaped ['.']))
      · exact hdots (escaped_injective (heq : _ = List.flatMap escaped ['.', '.']))
    have hremove := lfsRemove_present hsound (hdir key List.mem_cons_self) hbytes
    have hcommit : fs.commit (Lfs.removeFile (keyPath key)) = Lfs.removeFile (keyPath key) fs := by
      rw [Lfs.commit, hpower]
    have hpath : lfsEfNamespace ++ '/' :: key.flatMap escaped = keyPath key := rfl
    have hsound' : (Lfs.removeFile (keyPath key) fs).Sound := hsound
    have hrest := ih hsound' hpower
      (fun other hother => hdir other (List.mem_cons_of_mem _ hother))
      (fun other hother => hplain other (List.mem_cons_of_mem _ hother))
      (fun other hother => by
        have hne : keyPath other ≠ keyPath key := by
          intro heq
          rw [keyPath_injective heq] at hother
          exact hnew hother
        rw [content_removeFile, Function.update_of_ne hne]
        exact hpresent other (List.mem_cons_of_mem _ hother))
      hnodup
    rw [List.map_cons, setDefaultLoop]
    simp only [lfsDirRead, Lfs.attempt_of_sound hsound, hpath, hremove, hcommit, hrest,
      if_neg hdots]
    rfl

theorem setDefaultLoop_dots (hsound : fs.Sound) (entries : List (Path × LfsType)) :
    setDefaultLoop fs ((['.'], .lfsTypeDir) :: (['.', '.'], .lfsTypeDir) :: entries) =
      setDefaultLoop fs entries := by
  simp [setDefaultLoop, lfsDirRead, Lfs.attempt_of_sound hsound]

theorem setDefault_ready (h : Ready env) :
    ∃ t, efEnvSetDefault env = ({ env with fs := t }, .efNoErr) ∧ Ready { env with fs := t } ∧
      stored t = fun _ => none := by
  obtain ⟨keys, hnames, hnodup, hpresent⟩ := @exists_listing env.fs _ _ _ _ nameIn_keyPath
    keyPath_injective fun path hin hpath => by
      obtain ⟨key, -, -, hkey⟩ := h.own path hin hpath
      exact ⟨key, hkey⟩
  have hplain : ∀ key ∈ keys, Plain key := fun key hkey => by
    obtain ⟨other, hother, -, heq⟩ := h.own (keyPath key) (by rw [nameIn_keyPath]; rfl)
      ((hpresent key).mp hkey)
    rwa [keyPath_injective heq]
  have hdirs : env.fs.dirs.filterMap (nameIn lfsEfNamespace) = [] :=
    List.filterMap_eq_nil_iff.mpr h.noSubdir
  have hentries : lfsDirEntries env.fs lfsEfNamespace =
      (['.'], .lfsTypeDir) :: (['.', '.'], .lfsTypeDir) ::
        keys.map fun key => (key.flatMap escaped, .lfsTypeReg) := by
    rw [lfsDirEntries, hdirs, hnames, List.map_map]
    rfl
  have hloop := setDefaultLoop_keys h.sound h.power (fun key _ => h.notDir key) hplain
    (fun key hkey => (hpresent key).mp hkey) hnodup
  have hcontent := Files.content_removeAll (keys.map keyPath) env.fs.files
  refine ⟨{ env.fs with files := (keys.map keyPath).foldl Files.remove env.fs.files }, ?_, ?_, ?_⟩
  · simp only [efEnvSetDefault, h.handle, Bool.not_true, Bool.false_eq_true, if_false, lfsDirOpen,
      Lfs.attempt_of_sound h.sound, if_pos h.namespaceDir, ne_eq, not_true_eq_false, hentries,
      setDefaultLoop_dots h.sound, hloop]
  · refine ⟨h.handle, h.sound, h.power, h.namespaceDir, h.noSubdir, fun path hin hpath => ?_⟩
    refine h.own path hin ?_
    change (Files.content _ path).isSome at hpath
    rw [hcontent] at hpath
    split at hpath
    · cases hpath
    · exact hpath
  · funext key
    unfold stored
    split
    · refine (hcontent (keyPath key)).trans ?_
      split
      · rfl
      case isFalse hgone =>
        rw [← Option.not_isSome_iff_eq_none]
        exact fun hkey => hgone (List.mem_map_of_mem ((hpresent key).mpr hkey))
    · rfl

/-! ## Runs -/

theorem sets_of_rewritten {bytes : Option (List UInt8)} (hfits : Fits key)
    (h : Rewritten env.fs after.fs (keyPath key) bytes) : Sets env after .efNoErr key bytes := by
  rw [Sets, if_pos rfl]
  exact stored_of_rewritten hfits h

theorem sets_of_not_fits {bytes : Option (List UInt8)} (hfits : ¬ Fits key) :
    Sets env env .efEnvNameErr key bytes := by
  rw [Sets, if_neg (by decide)]
  exact ⟨.inl hfits, fun _ _ => rfl⟩

theorem setBlob_refines (h : Ready env) (hplain : Plain key) (value : List UInt8) :
    Sets env (efSetEnvBlob env (some key) (some value)).1
        (efSetEnvBlob env (some key) (some value)).2 key (some value) ∧
      Ready (efSetEnvBlob env (some key) (some value)).1 := by
  by_cases hvalue : value = []
  · have hset : efSetEnvBlob env (some key) (some value) = (env, .efEnvArgErr) := by
      simp [efSetEnvBlob, h.handle, hvalue]
    rw [hset, Sets, if_neg (by decide : EfErrCode.efEnvArgErr ≠ .efNoErr)]
    exact ⟨⟨.inr (.inl (congrArg some hvalue)), fun _ _ => rfl⟩, h⟩
  · by_cases hfits : Fits key
    · obtain ⟨t, hset, ht⟩ := set_ready h hfits hvalue
      rw [hset]
      exact ⟨sets_of_rewritten hfits ht, ready_of_rewritten h hplain hfits ht⟩
    · have hlong : (genKvKeyPath pathBufferSize lfsEfNamespace key).1 ≥ pathBufferSize :=
        Nat.not_lt.mp hfits
      have hset : efSetEnvBlob env (some key) (some value) = (env, .efEnvNameErr) := by
        simp [efSetEnvBlob, h.handle, hvalue, hlong]
      rw [hset]
      exact ⟨sets_of_not_fits hfits, h⟩

theorem del_refines (h : Ready env) (hplain : Plain key) :
    Sets env (efDelEnv env (some key)).1 (efDelEnv env (some key)).2 key none ∧
      Ready (efDelEnv env (some key)).1 := by
  by_cases hfits : Fits key
  · obtain ⟨t, hdel, ht⟩ := del_ready h hfits
    rw [hdel]
    exact ⟨sets_of_rewritten hfits ht, ready_of_rewritten h hplain hfits ht⟩
  · have hlong : (genKvKeyPath pathBufferSize lfsEfNamespace key).1 ≥ pathBufferSize :=
      Nat.not_lt.mp hfits
    have hdel : efDelEnv env (some key) = (env, .efEnvNameErr) := by
      simp [efDelEnv, h.handle, hlong]
    rw [hdel]
    exact ⟨sets_of_not_fits hfits, h⟩

theorem refused (h : Ready env) (hafter : after = env) {r : GetReply} (hreply : r = ⟨0, [], none⟩) :
    (stored after.fs = stored env.fs ∧ r = ⟨0, [], none⟩) ∧ Ready after := by
  subst hafter
  exact ⟨⟨rfl, hreply⟩, h⟩

theorem step_ready (h : Ready env) (ht : step env e = some after) (hplain : PlainKey env e after) :
    Refines env e after ∧ Ready after := by
  cases ht
  match e with
  | .get (some key) true bufLen saved offset =>
    have hget := get_ready h key bufLen saved offset
    change (stored (efGetEnvBlobOffset env (some key) true bufLen saved offset).1.fs = _ ∧
      ((efGetEnvBlobOffset env (some key) true bufLen saved offset).2 = _ ∨ _)) ∧
      Ready (efGetEnvBlobOffset env (some key) true bufLen saved offset).1
    rw [hget]
    exact ⟨⟨rfl, .inl rfl⟩, h⟩
  | .get (some key) false bufLen saved offset =>
    have hget : efGetEnvBlobOffset env (some key) false bufLen saved offset =
        (env, ⟨0, [], none⟩) := by
      simp [efGetEnvBlobOffset]
    exact refused h (congrArg Prod.fst hget) (congrArg Prod.snd hget)
  | .get none valueBuf bufLen saved offset =>
    have hget : efGetEnvBlobOffset env none valueBuf bufLen saved offset =
        (env, ⟨0, [], none⟩) := by
      simp [efGetEnvBlobOffset]
    exact refused h (congrArg Prod.fst hget) (congrArg Prod.snd hget)
  | .setBlob (some key) (some value) => exact setBlob_refines h (hplain key rfl) value
  | .setBlob (some key) none =>
    have hset : efSetEnvBlob env (some key) none = (env, .efEnvArgErr) := by
      simp [efSetEnvBlob, h.handle]
    exact refused h (congrArg Prod.fst hset) rfl
  | .setBlob none valueBuf =>
    have hset : efSetEnvBlob env none valueBuf = (env, .efEnvArgErr) := by
      simp [efSetEnvBlob, h.handle]
    exact refused h (congrArg Prod.fst hset) rfl
  | .setEnv (some key) value => exact setBlob_refines h (hplain key rfl) (value ++ [0])
  | .setEnv none value =>
    have hset : efSetEnv env none value = (env, .efEnvArgErr) := by
      simp [efSetEnv, efSetEnvBlob, h.handle]
    exact refused h (congrArg Prod.fst hset) rfl
  | .del (some key) => exact del_refines h (hplain key rfl)
  | .del none =>
    have hdel : efDelEnv env none = (env, .efEnvArgErr) := by
      simp [efDelEnv, h.handle]
    exact refused h (congrArg Prod.fst hdel) rfl
  | .setDefault =>
    obtain ⟨t, hdefault, hready, hgone⟩ := setDefault_ready h
    have hresult : result env .setDefault = (efEnvSetDefault env).2 := rfl
    rw [Refines, hresult, hdefault, if_pos rfl]
    exact ⟨hgone, hready⟩

/-- From a ready store on, runs on plain keys are runs of the map. -/
theorem refines_of_ready (h : Ready env) {events : List Event}
    (hplain : Along step PlainKey env events) : Along step Refines env events :=
  along_of_invariant (fun _ _ _ hready ht hplain => step_ready hready ht hplain) h hplain

end BouffaloSdk.LfsEasyflash
