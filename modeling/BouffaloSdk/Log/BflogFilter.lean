import Mathlib.Data.Nat.Bitwise
import Mathlib.Data.List.Nodup

/-!
# Recorders and their filter bits

The part of `components/utils/log/bflog/bflog.c` that creates and deletes
recorders and directed outputs. `global_filter` has a bit for each filter that
is not in use. Objects are the caller's memory, whatever it held before. The
argument checks are there under `CONFIG_BFLOG_DEBUG` only.
-/

namespace BouffaloSdk.Bflog

def bflogStatusIllegal : Nat := 0
def bflogStatusReady : Nat := 1
def bflogStatusSuspend : Nat := 3
def bflogDirectStatusIllegal : Nat := 0
def bflogDirectStatusReady : Nat := 1
def bflogDirectStatusRunning : Nat := 2
def bflogDirectStatusInit : Nat := 4
def bflogFlagDefault : Nat := 0xff
def bflogLevelDefault : Nat := 3
def bflogDirectLevelDefault : Nat := 3
def bflogDirectTypeIllegal : Nat := 0

structure Queue where
  free : Nat
  size : Nat
  wpos : Nat
  rpos : Nat
  deriving DecidableEq, Repr

/-- `bflog_t`; `direct` lists the outputs appended to it. -/
structure Recorder where
  direct : List Nat
  status : Nat
  flags : Nat
  level : Nat
  mode : Nat
  filter : Nat
  queue : Queue
  deriving DecidableEq, Repr

/-- `bflog_direct_t`; `lock` tells whether it has a lock of its own. -/
structure Direct where
  status : Nat
  color : Nat
  level : Nat
  type : Nat
  filter : Nat
  lock : Bool
  deriving DecidableEq, Repr

/-- The recorders and outputs in memory, by number. -/
structure Sys where
  globalFilter : Nat
  logs : Nat → Recorder
  directs : Nat → Direct

/-- `~x` on 32 bits. -/
def not32 (x : Nat) : Nat := 2 ^ 32 - (x + 1)

/-- One step of the search in `bflog_fls`. -/
def flsStep (mask shift : Nat) (s : Nat × Nat) : Nat × Nat :=
  if s.1 &&& mask = 0 then ((s.1 <<< shift) % 2 ^ 32, s.2 - shift) else s

def bflogFls (word : Nat) : Nat :=
  let bit := if word = 0 then 31 else 32
  let s := flsStep 0xffff0000 16 (word, bit)
  let s := flsStep 0xff000000 8 s
  let s := flsStep 0xf0000000 4 s
  let s := flsStep 0xc0000000 2 s
  let s := flsStep 0x80000000 1 s
  s.2

/-- The filter bit, 0 for none. `shift` has eight bits, so that -1 becomes
255, and `shift >= 0` always holds; the shift instruction takes the low five. -/
def bflogFilterAlloc (globalFilter : Nat) : Nat × Nat :=
  let shift := (bflogFls globalFilter + 255) % 256
  let bit := 1 <<< (shift % 32)
  if shift ≥ 0 then (globalFilter &&& not32 bit, bit) else (globalFilter, 0)

def bflogFilterFree (globalFilter filter : Nat) : Nat := (globalFilter ||| filter) % 2 ^ 32

def bflogCreate (sys : Sys) (log size mode : Nat) : Sys × Int :=
  let recorder : Recorder :=
    { direct := []
      status := bflogStatusReady
      flags := bflogFlagDefault
      level := bflogLevelDefault
      mode := mode
      filter := (sys.logs log).filter
      queue := { free := size, size := size, wpos := 0, rpos := 0 } }
  let (globalFilter, filter) := bflogFilterAlloc sys.globalFilter
  if filter > 0 then
    ({ sys with
        globalFilter := globalFilter
        logs := Function.update sys.logs log { recorder with filter := filter } }, 0)
  else ({ sys with
            globalFilter := globalFilter
            logs := Function.update sys.logs log recorder }, -1)

/-- An appended output is detached, and made ready again if it was running. -/
def detach (directs : Nat → Direct) (direct : Nat) : Nat → Direct :=
  if (directs direct).status = bflogDirectStatusRunning then
    Function.update directs direct { directs direct with status := bflogDirectStatusReady }
  else directs

/-- `enter_critical` is `dummy` unless `bflog_control` sets another. -/
def bflogDelete (sys : Sys) (log : Nat) : Sys × Int :=
  let recorder := sys.logs log
  if recorder.status = bflogStatusReady ∨ recorder.status = bflogStatusSuspend then
    ({ globalFilter := bflogFilterFree sys.globalFilter recorder.filter
       logs := Function.update sys.logs log
        { recorder with direct := [], status := bflogStatusIllegal }
       directs := recorder.direct.foldl detach sys.directs }, 0)
  else (sys, 0)

def bflogDirectCreate (sys : Sys) (direct type color : Nat) (lock : Bool) : Sys × Int :=
  ({ sys with
      directs := Function.update sys.directs direct
        { sys.directs direct with
          status := bflogDirectStatusInit
          level := bflogDirectLevelDefault
          type := type
          color := color
          lock := lock } }, 0)

/-- `lockFails` is the result of the output's own lock. -/
def bflogDirectDelete (sys : Sys) (direct : Nat) (lockFails : Bool) : Sys × Int :=
  let output := sys.directs direct
  if output.status = bflogDirectStatusInit then
    if output.lock = true ∧ lockFails = true then (sys, -1)
    else
      ({ sys with
          globalFilter := bflogFilterFree sys.globalFilter output.filter
          directs := Function.update sys.directs direct
            { output with
              status := bflogDirectStatusIllegal
              type := bflogDirectTypeIllegal
              lock := false } }, 0)
  else (sys, -1)

/-! ## The highest bit -/

variable {w k : Nat}

theorem testBit_not32 {x i : Nat} (hx : x < 2 ^ 32) (hi : i < 32) :
    (not32 x).testBit i = !x.testBit i := by
  rw [not32, Nat.testBit_two_pow_sub_succ hx]
  simp [hi]

/-- The mask of the high bits finds a word that has any of them. -/
theorem and_mask_eq_zero_iff (hw : w < 2 ^ 32) (hk : k ≤ 32) :
    w &&& ((2 ^ (32 - k) - 1) <<< k) = 0 ↔ w < 2 ^ k := by
  constructor
  · intro hzero
    by_contra hlarge
    have hne : w ≠ 0 := by
      have := Nat.two_pow_pos k
      omega
    have hlow : k ≤ w.log2 := (Nat.le_log2 hne).mpr (Nat.not_lt.mp hlarge)
    have hhigh : w.log2 < 32 := (Nat.log2_lt hne).mpr hw
    have hbit := congrArg (Nat.testBit · w.log2) hzero
    simp only [Nat.testBit_and, Nat.testBit_log2 hne, Nat.testBit_shiftLeft,
      Nat.testBit_two_pow_sub_one, Nat.zero_testBit, Bool.true_and] at hbit
    simp only [ge_iff_le, hlow, decide_true, Bool.true_and, decide_eq_false_iff_not] at hbit
    omega
  · intro hsmall
    apply Nat.eq_of_testBit_eq
    intro i
    rw [Nat.testBit_and, Nat.testBit_shiftLeft, Nat.zero_testBit]
    by_cases hi : k ≤ i
    · rw [Nat.testBit_lt_two_pow (Nat.lt_of_lt_of_le hsmall (Nat.pow_le_pow_right (by decide) hi)),
        Bool.false_and]
    · simp [hi]

/-- The search so far: the word has moved up by as much as `bit` has gone down. -/
structure Searched (word low : Nat) (s : Nat × Nat) : Prop where
  moved : s.1 = word * 2 ^ (32 - s.2)
  bit_le : s.2 ≤ 32
  high : 2 ^ low ≤ s.1
  lt : s.1 < 2 ^ 32

theorem Searched.step {word shift low : Nat} {s : Nat × Nat} (h : Searched word low s)
    (hlow : 2 * shift + low = 32) (hbit : shift ≤ s.2) :
    Searched word (shift + low) (flsStep ((2 ^ shift - 1) <<< (32 - shift)) shift s) := by
  obtain ⟨hmoved, hle, hhigh, hlt⟩ := h
  have hmask := and_mask_eq_zero_iff (k := 32 - shift) hlt (Nat.sub_le _ _)
  rw [show 32 - (32 - shift) = shift by omega] at hmask
  unfold flsStep
  split
  · rename_i hzero
    have hsmall := hmask.mp hzero
    have hfits : s.1 * 2 ^ shift < 2 ^ 32 := by
      have hpow : 2 ^ (32 - shift) * 2 ^ shift = 2 ^ 32 := by
        rw [← Nat.pow_add]
        congr 1
        omega
      rw [← hpow]
      exact Nat.mul_lt_mul_of_pos_right hsmall (Nat.two_pow_pos shift)
    refine ⟨?_, by dsimp only; omega, ?_, ?_⟩
    · dsimp only
      rw [Nat.shiftLeft_eq, Nat.mod_eq_of_lt hfits, hmoved, Nat.mul_assoc, ← Nat.pow_add]
      congr 2
      omega
    · dsimp only
      rw [Nat.shiftLeft_eq, Nat.mod_eq_of_lt hfits, Nat.add_comm, Nat.pow_add]
      exact Nat.mul_le_mul_right _ hhigh
    · exact Nat.mod_lt _ (by decide)
  · rename_i hzero
    refine ⟨hmoved, hle, ?_, hlt⟩
    have hlarge : ¬ s.1 < 2 ^ (32 - shift) := fun hsmall => hzero (hmask.mpr hsmall)
    rw [show shift + low = 32 - shift by omega]
    exact Nat.not_lt.mp hlarge

theorem flsStep_snd_le (mask shift : Nat) (s : Nat × Nat) : s.2 ≤ (flsStep mask shift s).2 + shift := by
  unfold flsStep
  split
  · dsimp only
    omega
  · omega

/-- A word that is not zero has its highest bit right below `bflog_fls`. -/
theorem bflogFls_spec (hw : w < 2 ^ 32) (hne : w ≠ 0) :
    0 < bflogFls w ∧ bflogFls w ≤ 32 ∧ 2 ^ (bflogFls w - 1) ≤ w ∧ w < 2 ^ bflogFls w := by
  have h0 : Searched w 0 (w, 32) := ⟨by simp, Nat.le_refl _, Nat.one_le_iff_ne_zero.mpr hne, hw⟩
  have h1 := h0.step (by decide : 2 * 16 + 0 = 32) (show 16 ≤ 32 by decide)
  have hb1 := flsStep_snd_le ((2 ^ 16 - 1) <<< (32 - 16)) 16 (w, 32)
  generalize hs1 : flsStep ((2 ^ 16 - 1) <<< (32 - 16)) 16 (w, 32) = s1 at h1 hb1
  have h2 := h1.step (by decide : 2 * 8 + (16 + 0) = 32) (by dsimp only at hb1; omega)
  have hb2 := flsStep_snd_le ((2 ^ 8 - 1) <<< (32 - 8)) 8 s1
  generalize hs2 : flsStep ((2 ^ 8 - 1) <<< (32 - 8)) 8 s1 = s2 at h2 hb2
  have h3 := h2.step (by decide : 2 * 4 + (8 + (16 + 0)) = 32) (by dsimp only at hb1; omega)
  have hb3 := flsStep_snd_le ((2 ^ 4 - 1) <<< (32 - 4)) 4 s2
  generalize hs3 : flsStep ((2 ^ 4 - 1) <<< (32 - 4)) 4 s2 = s3 at h3 hb3
  have h4 := h3.step (by decide : 2 * 2 + (4 + (8 + (16 + 0))) = 32) (by dsimp only at hb1; omega)
  have hb4 := flsStep_snd_le ((2 ^ 2 - 1) <<< (32 - 2)) 2 s3
  generalize hs4 : flsStep ((2 ^ 2 - 1) <<< (32 - 2)) 2 s3 = s4 at h4 hb4
  have h5 := h4.step (by decide : 2 * 1 + (2 + (4 + (8 + (16 + 0)))) = 32) (by dsimp only at hb1; omega)
  have hb5 := flsStep_snd_le ((2 ^ 1 - 1) <<< (32 - 1)) 1 s4
  generalize hs5 : flsStep ((2 ^ 1 - 1) <<< (32 - 1)) 1 s4 = s5 at h5 hb5
  have hfls : bflogFls w = s5.2 := by
    subst hs5 hs4 hs3 hs2 hs1
    unfold bflogFls
    rw [if_neg hne]
    rfl
  obtain ⟨hmoved, hle, hhigh, hlt⟩ := h5
  dsimp only at hb1
  have hpos : 0 < s5.2 := by omega
  rw [hfls]
  rw [hmoved] at hhigh hlt
  have hpow := Nat.two_pow_pos (32 - s5.2)
  refine ⟨hpos, hle, ?_, ?_⟩
  · have hsplit : 2 ^ (s5.2 - 1) * 2 ^ (32 - s5.2) = 2 ^ 31 := by
      rw [← Nat.pow_add]
      congr 1
      omega
    refine Nat.le_of_mul_le_mul_right ?_ hpow
    rw [hsplit]
    exact hhigh
  · have hsplit : 2 ^ s5.2 * 2 ^ (32 - s5.2) = 2 ^ 32 := by
      rw [← Nat.pow_add]
      congr 1
      omega
    refine Nat.lt_of_mul_lt_mul_right (a := 2 ^ (32 - s5.2)) ?_
    rw [hsplit]
    exact hlt

/-- The allocated bit was free, unless none was. -/
theorem bflogFilterAlloc_spec (hw : w < 2 ^ 32) (hne : w ≠ 0) :
    ∃ b < 32, w.testBit b = true ∧ bflogFilterAlloc w = (w &&& not32 (2 ^ b), 2 ^ b) := by
  obtain ⟨hpos, hle, hlow, hhigh⟩ := bflogFls_spec hw hne
  refine ⟨bflogFls w - 1, by omega, ?_, ?_⟩
  · apply Nat.testBit_of_two_pow_le_and_two_pow_add_one_gt hlow
    rwa [Nat.sub_add_cancel hpos]
  · have hshift : (bflogFls w + 255) % 256 % 32 = bflogFls w - 1 := by omega
    unfold bflogFilterAlloc
    simp only [ge_iff_le, Nat.zero_le, if_true, hshift, Nat.one_shiftLeft]

theorem bflogFilterAlloc_zero : bflogFilterAlloc 0 = (0, 2 ^ 31) := by decide

end BouffaloSdk.Bflog
