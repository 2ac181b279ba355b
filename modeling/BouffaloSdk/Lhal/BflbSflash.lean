import Mathlib.Algebra.Order.Ring.Nat
import Mathlib.Tactic.Ring

/-!
# Erasing a region of the serial flash

`bflb_sflash_erase` of `drivers/lhal/src/flash/bflb_sflash.c`, down to the erase commands it
sends: whole blocks of 64 or 32 KiB where the address allows it, single sectors elsewhere.
-/

namespace BouffaloSdk

/-- What the loop reads of `spi_flash_cfg_type`; the sector size counts KiB. -/
structure SpiFlashCfg where
  sectorSize : BitVec 8
  blk32EraseCmd : BitVec 8
  blk64EraseCmd : BitVec 8
  deriving DecidableEq, Repr

/-- `sector_size * 1024`. -/
def SpiFlashCfg.sectorBytes (cfg : SpiFlashCfg) : BitVec 32 := cfg.sectorSize.setWidth 32 * 1024

/-- The calls of `bflb_sflash_sector_erase`, `bflb_sflash_blk32_erase` and
`bflb_sflash_blk64_erase`. -/
inductive EraseCmd
  | sector (sectorNum : BitVec 32)
  | blk32 (blkNum : BitVec 32)
  | blk64 (blkNum : BitVec 32)
  deriving DecidableEq, Repr

namespace Sflash

def cmdInvalid : BitVec 8 := 0xff
def blk32kSize : BitVec 32 := 32 * 1024
def blk64kSize : BitVec 32 := 64 * 1024

/-- One turn of the loop: its command and the next address, none at a division by zero. -/
def eraseStep (cfg : SpiFlashCfg) (startAddr endAddr : BitVec 32) :
    Option (EraseCmd × BitVec 32) :=
  let len := endAddr - startAddr + 1
  if cfg.blk64EraseCmd ≠ cmdInvalid ∧ startAddr &&& (blk64kSize - 1) = 0 ∧
      blk64kSize - cfg.sectorBytes < len then
    some (.blk64 (startAddr / blk64kSize), startAddr + blk64kSize)
  else if cfg.blk32EraseCmd ≠ cmdInvalid ∧ startAddr &&& (blk32kSize - 1) = 0 ∧
      blk32kSize - cfg.sectorBytes < len then
    some (.blk32 (startAddr / blk32kSize), startAddr + blk32kSize)
  else if cfg.sectorSize = 0 then none
  else
    let startAddr := startAddr &&& ~~~(cfg.sectorBytes - 1)
    some (.sector (startAddr / cfg.sectorSize.setWidth 32 / 1024), startAddr + cfg.sectorBytes)

/-- The loop, with the commands it sends and its result. `ret i` is what command `i` returns. -/
def eraseLoop (cfg : SpiFlashCfg) (ret : Nat → BitVec 8) (endAddr : BitVec 32) :
    Nat → Nat → BitVec 32 → Option (List EraseCmd × Int)
  | 0, _, _ => none
  | fuel + 1, i, startAddr =>
    if endAddr < startAddr then some ([], 0)
    else
      match eraseStep cfg startAddr endAddr with
      | none => none
      | some (cmd, next) =>
        if ret i ≠ 0 then some ([cmd], -1)
        else (eraseLoop cfg ret endAddr fuel (i + 1) next).map fun r => (cmd :: r.1, r.2)

def bflbSflashErase (cfg : SpiFlashCfg) (ret : Nat → BitVec 8) (fuel : Nat)
    (startAddr endAddr : BitVec 32) : Option (List EraseCmd × Int) :=
  if endAddr < startAddr then some ([], -1) else eraseLoop cfg ret endAddr fuel 0 startAddr

/-- More fuel changes no result. -/
theorem eraseLoop_succ {cfg : SpiFlashCfg} {ret : Nat → BitVec 8} {endAddr : BitVec 32} :
    ∀ {fuel i : Nat} {startAddr : BitVec 32} {r : List EraseCmd × Int},
      eraseLoop cfg ret endAddr fuel i startAddr = some r →
      eraseLoop cfg ret endAddr (fuel + 1) i startAddr = some r := by
  intro fuel
  induction fuel with
  | zero => exact fun h => absurd h (by simp [eraseLoop])
  | succ fuel ih =>
    intro i startAddr r h
    rw [eraseLoop] at h ⊢
    split at h
    next hpast => rw [if_pos hpast, h]
    next hin =>
      rw [if_neg hin]
      cases hstep : eraseStep cfg startAddr endAddr with
      | none => rw [hstep] at h; exact absurd h (by simp)
      | some turn =>
        rw [hstep] at h
        dsimp only at h ⊢
        split at h
        next hret => rw [if_pos hret, h]
        next hret =>
          rw [if_neg hret]
          obtain ⟨rest, hrest, hr⟩ := Option.map_eq_some_iff.1 h
          rw [ih hrest, Option.map_some, hr]

/-! ## What is erased -/

variable {cfg : SpiFlashCfg} {startAddr endAddr : BitVec 32}

/-- The first byte that a command erases. -/
def first (cfg : SpiFlashCfg) : EraseCmd → Nat
  | .sector sectorNum => cfg.sectorBytes.toNat * sectorNum.toNat
  | .blk32 blkNum => blk32kSize.toNat * blkNum.toNat
  | .blk64 blkNum => blk64kSize.toNat * blkNum.toNat

def size (cfg : SpiFlashCfg) : EraseCmd → Nat
  | .sector _ => cfg.sectorBytes.toNat
  | .blk32 _ => blk32kSize.toNat
  | .blk64 _ => blk64kSize.toNat

def Erases (cfg : SpiFlashCfg) (cmd : EraseCmd) (x : Nat) : Prop :=
  first cfg cmd ≤ x ∧ x < first cfg cmd + size cfg cmd

/-- The sector of a byte meets the region. -/
def Meets (cfg : SpiFlashCfg) (startAddr endAddr : BitVec 32) (x : Nat) : Prop :=
  ∃ y, startAddr.toNat ≤ y ∧ y ≤ endAddr.toNat ∧
    y / cfg.sectorBytes.toNat = x / cfg.sectorBytes.toNat

/-- Whatever the commands return, the call comes to an end, and if all of them succeed it has
erased the sectors that the region meets and nothing else. -/
def ErasesExactly (cfg : SpiFlashCfg) (startAddr endAddr : BitVec 32) : Prop :=
  ∀ ret, ∃ fuel cmds stat, bflbSflashErase cfg ret fuel startAddr endAddr = some (cmds, stat) ∧
    ((∀ i < cmds.length, ret i = 0) →
      stat = 0 ∧ ∀ x, (∃ cmd ∈ cmds, Erases cfg cmd x) ↔ Meets cfg startAddr endAddr x)

/-- The sector size is a power of two. -/
def PowerOfTwo (cfg : SpiFlashCfg) : Prop := ∃ k, cfg.sectorSize.toNat = 2 ^ k

/-! ## One turn -/

/-- A mask that clears the low bits rounds down. -/
theorem toNat_and_not_mask (a s : BitVec 32) {n : Nat} (hs : s.toNat = 2 ^ n) :
    (a &&& ~~~(s - 1)).toNat = s.toNat * (a.toNat / s.toNat) := by
  have hn : n < 32 := by
    have hlt := s.isLt
    rw [hs] at hlt
    exact (Nat.pow_lt_pow_iff_right (by decide)).1 hlt
  have hmask : s - 1 = BitVec.ofNat 32 (2 ^ n - 1) := by
    apply BitVec.eq_of_toNat_eq
    have hpos := Nat.two_pow_pos n
    have hlt := s.isLt
    rw [BitVec.toNat_sub, BitVec.toNat_ofNat, hs]
    have hone : (1 : BitVec 32).toNat = 1 := rfl
    rw [hone]
    omega
  have hshift : a &&& ~~~(s - 1) = (a >>> n) <<< n := by
    apply BitVec.eq_of_getLsbD_eq
    intro i hi
    rw [hmask]
    simp only [BitVec.getLsbD_and, BitVec.getLsbD_not, BitVec.getLsbD_ofNat,
      Nat.testBit_two_pow_sub_one, BitVec.getLsbD_shiftLeft, BitVec.getLsbD_ushiftRight, hi,
      decide_true, Bool.true_and]
    by_cases hin : i < n
    · simp [hin]
    · have hback : n + (i - n) = i := by omega
      simp [hin, hback]
  rw [hshift, hs, BitVec.toNat_shiftLeft, BitVec.toNat_ushiftRight, Nat.shiftRight_eq_div_pow,
    Nat.shiftLeft_eq, Nat.mul_comm]
  apply Nat.mod_eq_of_lt
  exact Nat.lt_of_le_of_lt (Nat.mul_div_le _ _) a.isLt

theorem toNat_sectorBytes (cfg : SpiFlashCfg) :
    cfg.sectorBytes.toNat = cfg.sectorSize.toNat * 1024 := by
  have hlt := cfg.sectorSize.isLt
  unfold SpiFlashCfg.sectorBytes
  rw [BitVec.toNat_mul, BitVec.toNat_setWidth]
  have hk : (1024 : BitVec 32).toNat = 1024 := rfl
  rw [hk]
  omega

theorem toNat_sub_one {b : BitVec 32} {m : Nat} (hb : b.toNat = 2 ^ m) :
    (b - 1).toNat = 2 ^ m - 1 := by
  have hpos := Nat.two_pow_pos m
  have hlt := b.isLt
  rw [BitVec.toNat_sub, hb]
  have hone : (1 : BitVec 32).toNat = 1 := rfl
  rw [hone]
  omega

/-- A block branch that is taken erases from the address itself. -/
theorem block_taken {b : BitVec 32} {m n : Nat} (hs : cfg.sectorBytes.toNat = 2 ^ n)
    (hb : b.toNat = 2 ^ m) (hmask : startAddr &&& (b - 1) = 0)
    (hlen : b - cfg.sectorBytes < endAddr - startAddr + 1) :
    startAddr.toNat % 2 ^ m = 0 ∧
      (2 ^ 32 - 2 ^ n + 2 ^ m) % 2 ^ 32 < (endAddr - startAddr + 1).toNat ∧
      b.toNat * (startAddr / b).toNat = startAddr.toNat ∧
      (startAddr + b).toNat = (startAddr.toNat + 2 ^ m) % 2 ^ 32 := by
  have hmod : startAddr.toNat % 2 ^ m = 0 := by
    have hnat := congrArg BitVec.toNat hmask
    rw [BitVec.toNat_and, toNat_sub_one hb, Nat.and_two_pow_sub_one_eq_mod] at hnat
    exact hnat
  refine ⟨hmod, ?_, ?_, ?_⟩
  · rw [BitVec.lt_def, BitVec.toNat_sub, hs, hb] at hlen
    exact hlen
  · rw [BitVec.toNat_udiv, hb]
    exact Nat.mul_div_cancel' (Nat.dvd_of_mod_eq_zero hmod)
  · rw [BitVec.toNat_add, hb]

/-- What a turn can do: a block at an address that is a multiple of its size, when the rest of
the region passes its threshold, or the sector of the address. -/
theorem eraseStep_cases {n : Nat} (hs : cfg.sectorBytes.toNat = 2 ^ n) :
    ∃ cmd next, eraseStep cfg startAddr endAddr = some (cmd, next) ∧
      ((∃ m, (m = 15 ∨ m = 16) ∧ startAddr.toNat % 2 ^ m = 0 ∧
          (2 ^ 32 - 2 ^ n + 2 ^ m) % 2 ^ 32 < (endAddr - startAddr + 1).toNat ∧
          first cfg cmd = startAddr.toNat ∧ size cfg cmd = 2 ^ m ∧
          next.toNat = (startAddr.toNat + 2 ^ m) % 2 ^ 32) ∨
        first cfg cmd = 2 ^ n * (startAddr.toNat / 2 ^ n) ∧ size cfg cmd = 2 ^ n ∧
          next.toNat = (2 ^ n * (startAddr.toNat / 2 ^ n) + 2 ^ n) % 2 ^ 32) := by
  have h64 : blk64kSize.toNat = 2 ^ 16 := rfl
  have h32 : blk32kSize.toNat = 2 ^ 15 := rfl
  unfold eraseStep
  dsimp only
  split
  next htaken =>
    obtain ⟨hmod, hlen, hfirst, hnext⟩ := block_taken hs h64 htaken.2.1 htaken.2.2
    exact ⟨_, _, rfl, .inl ⟨16, .inr rfl, hmod, hlen, hfirst, h64, hnext⟩⟩
  split
  next htaken =>
    obtain ⟨hmod, hlen, hfirst, hnext⟩ := block_taken hs h32 htaken.2.1 htaken.2.2
    exact ⟨_, _, rfl, .inl ⟨15, .inl rfl, hmod, hlen, hfirst, h32, hnext⟩⟩
  have hround := toNat_and_not_mask startAddr cfg.sectorBytes hs
  rw [hs] at hround
  have hbytes := toNat_sectorBytes cfg
  split
  next hzero =>
    -- no power of two is zero
    rw [hzero, hs] at hbytes
    exact absurd hbytes (Nat.two_pow_pos n).ne'
  next hnonzero =>
    refine ⟨_, _, rfl, .inr ⟨?_, hs, ?_⟩⟩
    · show cfg.sectorBytes.toNat * BitVec.toNat _ = _
      rw [BitVec.toNat_udiv, BitVec.toNat_udiv, hround, BitVec.toNat_setWidth,
        Nat.div_div_eq_div_mul]
      have hsize : cfg.sectorSize.toNat % 2 ^ 32 * (1024 : BitVec 32).toNat = 2 ^ n := by
        have hlt := cfg.sectorSize.isLt
        rw [← hs, hbytes, Nat.mod_eq_of_lt (by omega)]
        rfl
      rw [hsize, hs, Nat.mul_div_cancel_left _ (Nat.two_pow_pos n)]
    · rw [BitVec.toNat_add, hround, hs]

theorem toNat_len (hle : startAddr.toNat ≤ endAddr.toNat) :
    (endAddr - startAddr + 1).toNat = (endAddr.toNat - startAddr.toNat + 1) % 2 ^ 32 := by
  have hlt := endAddr.isLt
  rw [BitVec.toNat_add, BitVec.toNat_sub]
  have hone : (1 : BitVec 32).toNat = 1 := rfl
  rw [hone]
  omega

/-! ## Below the last sector of the address space -/

/-- A turn erases sectors from that of the address on, no sector past the end of the region,
and goes on with the sector after them. -/
theorem eraseStep_below {n : Nat} (hs : cfg.sectorBytes.toNat = 2 ^ n)
    (hle : startAddr.toNat ≤ endAddr.toNat) (hend : endAddr.toNat + 2 ^ n < 2 ^ 32) :
    ∃ cmd next q, eraseStep cfg startAddr endAddr = some (cmd, next) ∧ 1 ≤ q ∧
      startAddr.toNat / 2 ^ n + q ≤ endAddr.toNat / 2 ^ n + 1 ∧
      first cfg cmd = 2 ^ n * (startAddr.toNat / 2 ^ n) ∧ size cfg cmd = 2 ^ n * q ∧
      next.toNat = 2 ^ n * (startAddr.toNat / 2 ^ n + q) := by
  have hpos := Nat.two_pow_pos n
  have hlen := toNat_len hle
  rw [Nat.mod_eq_of_lt (by omega)] at hlen
  obtain ⟨cmd, next, hstep, hcase⟩ :=
    eraseStep_cases hs
  rcases hcase with ⟨m, hm, hmod, hthreshold, hfirst, hsize, hnext⟩ | ⟨hfirst, hsize, hnext⟩
  · have hmlt : 2 ^ m ≤ 2 ^ 16 := Nat.pow_le_pow_right (by decide) (by omega)
    rcases Nat.lt_or_ge m n with hmn | hnm
    · -- the threshold is above every length
      have hpow : 2 ^ m < 2 ^ n := Nat.pow_lt_pow_right (by decide) hmn
      rw [Nat.mod_eq_of_lt (by omega), hlen] at hthreshold
      omega
    · have hpow : 2 ^ n ≤ 2 ^ m := Nat.pow_le_pow_right (by decide) hnm
      have hthresholdNat : (2 ^ 32 - 2 ^ n + 2 ^ m) % 2 ^ 32 = 2 ^ m - 2 ^ n := by omega
      rw [hthresholdNat, hlen] at hthreshold
      have hblock : 2 ^ m = 2 ^ n * 2 ^ (m - n) := by
        rw [← Nat.pow_add, Nat.add_sub_cancel' hnm]
      have hstart : 2 ^ n * (startAddr.toNat / 2 ^ n) = startAddr.toNat :=
        Nat.mul_div_cancel' ((Nat.pow_dvd_pow 2 hnm).trans (Nat.dvd_of_mod_eq_zero hmod))
      have hafter : 2 ^ n * (startAddr.toNat / 2 ^ n + 2 ^ (m - n)) = startAddr.toNat + 2 ^ m := by
        rw [Nat.mul_add, hstart, ← hblock]
      refine ⟨cmd, next, 2 ^ (m - n), hstep, Nat.two_pow_pos _, ?_, ?_, ?_, ?_⟩
      · rw [← Nat.add_div_right _ hpos, Nat.le_div_iff_mul_le hpos, Nat.mul_comm, hafter]
        omega
      · rw [hfirst, hstart]
      · rw [hsize, hblock]
      · rw [hnext, hafter]
        exact Nat.mod_eq_of_lt (by omega)
  · have hround := Nat.mul_div_le startAddr.toNat (2 ^ n)
    refine ⟨cmd, next, 1, hstep, Nat.le_refl 1, ?_, hfirst, ?_, ?_⟩
    · exact Nat.add_le_add_right (Nat.div_le_div_right hle) 1
    · rw [hsize, Nat.mul_one]
    · rw [hnext, Nat.mul_add, Nat.mul_one]
      exact Nat.mod_eq_of_lt (by omega)

/-- The commands erase the sectors from `lo` up to the last of the region. -/
def ErasesFrom (cfg : SpiFlashCfg) (endAddr : BitVec 32) (lo : Nat) (cmds : List EraseCmd) :
    Prop :=
  ∀ x, (∃ cmd ∈ cmds, Erases cfg cmd x) ↔
    lo ≤ x / cfg.sectorBytes.toNat ∧ x / cfg.sectorBytes.toNat ≤
      endAddr.toNat / cfg.sectorBytes.toNat

theorem eraseLoop_past (ret : Nat → BitVec 8) (i : Nat) (hlt : endAddr.toNat < startAddr.toNat)
    {lo : Nat} (hlo : endAddr.toNat / cfg.sectorBytes.toNat < lo) :
    ∃ fuel cmds stat, eraseLoop cfg ret endAddr fuel i startAddr = some (cmds, stat) ∧
      ((∀ j < cmds.length, ret (i + j) = 0) → stat = 0 ∧ ErasesFrom cfg endAddr lo cmds) := by
  refine ⟨1, [], 0, ?_, fun _ => ⟨rfl, fun x => ?_⟩⟩
  · rw [eraseLoop, if_pos (BitVec.lt_def.2 hlt)]
  · constructor
    · rintro ⟨cmd, hcmd, -⟩
      exact absurd hcmd List.not_mem_nil
    · rintro ⟨hge, hle⟩
      omega

/-- From an address of the region, or from the first byte of a sector past it, the loop ends
and has erased the sectors that are left. -/
theorem eraseLoop_below {n : Nat} (hs : cfg.sectorBytes.toNat = 2 ^ n)
    (hend : endAddr.toNat + 2 ^ n < 2 ^ 32) (ret : Nat → BitVec 8) :
    ∀ (left i : Nat) (startAddr : BitVec 32), endAddr.toNat + 1 - startAddr.toNat ≤ left →
      (startAddr.toNat ≤ endAddr.toNat ∨ endAddr.toNat / 2 ^ n < startAddr.toNat / 2 ^ n) →
      ∃ fuel cmds stat, eraseLoop cfg ret endAddr fuel i startAddr = some (cmds, stat) ∧
        ((∀ j < cmds.length, ret (i + j) = 0) →
          stat = 0 ∧ ErasesFrom cfg endAddr (startAddr.toNat / 2 ^ n) cmds) := by
  have hpos := Nat.two_pow_pos n
  intro left
  induction left with
  | zero =>
    intro i startAddr hleft hstart
    exact eraseLoop_past ret i (by omega) (by rw [hs]; omega)
  | succ left ih =>
    intro i startAddr hleft hstart
    rcases Nat.lt_or_ge endAddr.toNat startAddr.toNat with hlt | hle
    · exact eraseLoop_past ret i hlt (by rw [hs]; omega)
    obtain ⟨cmd, next, q, hstep, hq, hqEnd, hfirst, hsize, hnext⟩ := eraseStep_below hs hle hend
    have hnextSector : next.toNat / 2 ^ n = startAddr.toNat / 2 ^ n + q := by
      rw [hnext, Nat.mul_div_cancel_left _ hpos]
    have hprogress : startAddr.toNat < next.toNat := by
      have hmod := Nat.lt_mul_div_succ startAddr.toNat hpos
      have hqMul : 2 ^ n * (startAddr.toNat / 2 ^ n + 1) ≤
          2 ^ n * (startAddr.toNat / 2 ^ n + q) := Nat.mul_le_mul_left _ (by omega)
      omega
    have hnextStart : next.toNat ≤ endAddr.toNat ∨
        endAddr.toNat / 2 ^ n < next.toNat / 2 ^ n := by
      rcases Nat.lt_or_ge endAddr.toNat next.toNat with hlt | hge
      · refine .inr ((Nat.div_lt_iff_lt_mul hpos).2 ?_)
        rwa [hnextSector, Nat.mul_comm, ← hnext]
      · exact .inl hge
    have hnot : ¬ endAddr < startAddr := fun hlt => by
      have := BitVec.lt_def.1 hlt
      omega
    by_cases hret : ret i = 0
    · obtain ⟨fuel, cmds, stat, hloop, hcover⟩ := ih (i + 1) next (by omega) hnextStart
      refine ⟨fuel + 1, cmd :: cmds, stat, ?_, fun hall => ?_⟩
      · rw [eraseLoop, if_neg hnot, hstep]
        simp only [hret, ne_eq, not_true_eq_false, if_false, hloop, Option.map_some]
      · obtain ⟨hstat, hx⟩ := hcover fun j hj => by
          have := hall (j + 1) (by rw [List.length_cons]; omega)
          rwa [Nat.add_assoc, Nat.add_comm 1 j]
        refine ⟨hstat, fun x => ?_⟩
        have hcmd : Erases cfg cmd x ↔
            startAddr.toNat / 2 ^ n ≤ x / 2 ^ n ∧ x / 2 ^ n < startAddr.toNat / 2 ^ n + q := by
          unfold Erases
          rw [hfirst, hsize, ← Nat.mul_add, Nat.le_div_iff_mul_le hpos,
            Nat.div_lt_iff_lt_mul hpos, Nat.mul_comm _ (2 ^ n), Nat.mul_comm _ (2 ^ n)]
        have hrest := hx x
        rw [hs, hnextSector] at hrest
        simp only [List.mem_cons, exists_eq_or_imp, hcmd, hrest, hs]
        omega
    · refine ⟨1, [cmd], -1, ?_, fun hall => absurd (hall 0 Nat.zero_lt_one) hret⟩
      rw [eraseLoop, if_neg hnot, hstep]
      simp only [ne_eq, hret, not_false_eq_true, if_true]

theorem meets_iff (hle : startAddr.toNat ≤ endAddr.toNat) (x : Nat) :
    Meets cfg startAddr endAddr x ↔
      startAddr.toNat / cfg.sectorBytes.toNat ≤ x / cfg.sectorBytes.toNat ∧
        x / cfg.sectorBytes.toNat ≤ endAddr.toNat / cfg.sectorBytes.toNat := by
  constructor
  · rintro ⟨y, hlo, hhi, hy⟩
    rw [← hy]
    exact ⟨Nat.div_le_div_right hlo, Nat.div_le_div_right hhi⟩
  · rintro ⟨hlo, hhi⟩
    -- the byte itself, or the border of the region on its side
    rcases Nat.lt_or_ge x startAddr.toNat with hbelow | hge
    · exact ⟨startAddr.toNat, Nat.le_refl _, hle,
        Nat.le_antisymm hlo (Nat.div_le_div_right (Nat.le_of_lt hbelow))⟩
    · rcases Nat.lt_or_ge endAddr.toNat x with habove | hle'
      · exact ⟨endAddr.toNat, hle, Nat.le_refl _,
          Nat.le_antisymm (Nat.div_le_div_right (Nat.le_of_lt habove)) hhi⟩
      · exact ⟨x, hge, hle', rfl⟩

theorem erasesExactly_below {n : Nat} (hs : cfg.sectorBytes.toNat = 2 ^ n)
    (hle : startAddr ≤ endAddr) (hend : endAddr.toNat + 2 ^ n < 2 ^ 32) :
    ErasesExactly cfg startAddr endAddr := by
  intro ret
  obtain ⟨fuel, cmds, stat, hloop, hcover⟩ :=
    eraseLoop_below hs hend ret _ 0 startAddr (Nat.le_refl _) (.inl (BitVec.le_def.1 hle))
  refine ⟨fuel, cmds, stat, ?_, fun hall => ?_⟩
  · rw [bflbSflashErase, if_neg (BitVec.not_lt.2 hle), hloop]
  · obtain ⟨hstat, herases⟩ := hcover fun j hj => by rw [Nat.zero_add]; exact hall j hj
    refine ⟨hstat, fun x => ?_⟩
    rw [herases x, ← hs]
    exact (meets_iff (BitVec.le_def.1 hle) x).symm

/-! ## The last sector of the address space -/

/-- In a region that ends there, no turn leaves the region: past the end the address is 0. -/
theorem eraseStep_top {n : Nat} (hs : cfg.sectorBytes.toNat = 2 ^ n)
    (hle : startAddr.toNat ≤ endAddr.toNat) (hend : 2 ^ 32 ≤ endAddr.toNat + 2 ^ n) :
    ∃ cmd next, eraseStep cfg startAddr endAddr = some (cmd, next) ∧
      next.toNat ≤ endAddr.toNat := by
  obtain ⟨cmd, next, hstep, hcase⟩ :=
    eraseStep_cases hs
  refine ⟨cmd, next, hstep, ?_⟩
  have hlt := hs ▸ cfg.sectorBytes.isLt
  have hn : n < 32 := (Nat.pow_lt_pow_iff_right (by decide)).1 hlt
  have hpow : 2 ^ n ∣ 2 ^ 32 := Nat.pow_dvd_pow 2 (Nat.le_of_lt hn)
  -- an address that starts a sector is not above the start of the last one
  have hsector : ∀ a, 2 ^ n ∣ a → a % 2 ^ 32 ≤ endAddr.toNat := by
    intro a ha
    have hmod : 2 ^ n ∣ a % 2 ^ 32 := (Nat.dvd_mod_iff hpow).2 ha
    have hroom : a % 2 ^ 32 + 2 ^ n ≤ 2 ^ 32 := by
      obtain ⟨u, hu⟩ := hmod
      obtain ⟨w, hw⟩ := hpow
      have huw : u < w := by
        refine Nat.lt_of_mul_lt_mul_left (a := 2 ^ n) ?_
        rw [← hu, ← hw]
        exact Nat.mod_lt _ (by decide)
      have hstep : 2 ^ n * (u + 1) ≤ 2 ^ n * w := Nat.mul_le_mul_left _ huw
      rw [Nat.mul_add, Nat.mul_one, ← hu, ← hw] at hstep
      exact hstep
    omega
  rcases hcase with ⟨m, hm, hmod, hthreshold, hfirst, hsize, hnext⟩ | ⟨hfirst, hsize, hnext⟩
  · rw [hnext]
    rcases Nat.lt_or_ge m n with hmn | hnm
    · -- so long a rest starts in the first sector
      have hpowlt : 2 ^ m < 2 ^ n := Nat.pow_lt_pow_right (by decide) hmn
      rw [toNat_len hle, Nat.mod_eq_of_lt (by omega)] at hthreshold
      have hendlt := endAddr.isLt
      have hlen := Nat.mod_le (endAddr.toNat - startAddr.toNat + 1) (2 ^ 32)
      have hhalf : 2 ^ n ≤ 2 ^ 31 := Nat.pow_le_pow_right (by decide) (by omega)
      omega
    · refine hsector _ (Nat.dvd_add ?_ (Nat.pow_dvd_pow 2 hnm))
      exact (Nat.pow_dvd_pow 2 hnm).trans (Nat.dvd_of_mod_eq_zero hmod)
  · rw [hnext]
    exact hsector _ (Nat.dvd_add (Nat.dvd_mul_right _ _) (Nat.dvd_refl _))

theorem eraseLoop_top {n : Nat} (hs : cfg.sectorBytes.toNat = 2 ^ n)
    (hend : 2 ^ 32 ≤ endAddr.toNat + 2 ^ n) :
    ∀ (fuel i : Nat) (startAddr : BitVec 32), startAddr.toNat ≤ endAddr.toNat →
      eraseLoop cfg (fun _ => 0) endAddr fuel i startAddr = none := by
  intro fuel
  induction fuel with
  | zero => exact fun _ _ _ => rfl
  | succ fuel ih =>
    intro i startAddr hle
    obtain ⟨cmd, next, hstep, hnext⟩ := eraseStep_top hs hle hend
    have hnot : ¬ endAddr < startAddr := fun hlt => by
      have := BitVec.lt_def.1 hlt
      omega
    rw [eraseLoop, if_neg hnot, hstep]
    simp only [ne_eq, not_true_eq_false, if_false, ih (i + 1) next hnext, Option.map_none]

theorem not_erasesExactly_top {n : Nat} (hs : cfg.sectorBytes.toNat = 2 ^ n)
    (hle : startAddr ≤ endAddr) (hend : 2 ^ 32 ≤ endAddr.toNat + 2 ^ n) :
    ¬ ErasesExactly cfg startAddr endAddr := by
  intro hexact
  obtain ⟨fuel, cmds, stat, hloop, -⟩ := hexact fun _ => 0
  rw [bflbSflashErase, if_neg (BitVec.not_lt.2 hle),
    eraseLoop_top hs hend fuel 0 startAddr (BitVec.le_def.1 hle)] at hloop
  exact absurd hloop (by simp)

/-! ## Other sector sizes -/

/-- No block fits a region of one byte at the second sector, and the mask takes its address
below that sector. -/
theorem other_size_step : ∀ sectorSize : BitVec 8, (∀ k < 8, sectorSize.toNat ≠ 2 ^ k) →
    let s := sectorSize.setWidth 32 * 1024
    ¬ (s &&& (blk64kSize - 1) = 0 ∧ blk64kSize - s < 1) ∧
    ¬ (s &&& (blk32kSize - 1) = 0 ∧ blk32kSize - s < 1) ∧
    (sectorSize = 0 ∨ (s &&& ~~~(s - 1)) / sectorSize.setWidth 32 / 1024 = 0 ∧
      s < (s &&& ~~~(s - 1)) + s) := by
  decide

theorem eraseStep_other (h : ¬ PowerOfTwo cfg) :
    eraseStep cfg cfg.sectorBytes cfg.sectorBytes = none ∨
      ∃ next, eraseStep cfg cfg.sectorBytes cfg.sectorBytes = some (.sector 0, next) ∧
        cfg.sectorBytes < next := by
  have htable := other_size_step cfg.sectorSize fun k _ hk => h ⟨k, hk⟩
  change ¬ (cfg.sectorBytes &&& (blk64kSize - 1) = 0 ∧ _) ∧
    ¬ (cfg.sectorBytes &&& (blk32kSize - 1) = 0 ∧ _) ∧
    (cfg.sectorSize = 0 ∨ (cfg.sectorBytes &&& ~~~(cfg.sectorBytes - 1)) / _ / _ = _ ∧
      cfg.sectorBytes < (cfg.sectorBytes &&& ~~~(cfg.sectorBytes - 1)) + cfg.sectorBytes) at htable
  obtain ⟨h64, h32, hsector⟩ := htable
  have hone : cfg.sectorBytes - cfg.sectorBytes + 1 = 1 := by rw [BitVec.sub_self]; rfl
  unfold eraseStep
  dsimp only
  rw [hone, if_neg fun hc => h64 hc.2, if_neg fun hc => h32 hc.2]
  rcases hsector with hzero | ⟨hnum, hnext⟩
  · exact .inl (if_pos hzero)
  · right
    have hnonzero : cfg.sectorSize ≠ 0 := by
      intro hzero
      have hbytes : cfg.sectorBytes = 0 := by rw [SpiFlashCfg.sectorBytes, hzero]; rfl
      rw [hbytes] at hnext
      exact absurd hnext (by decide)
    rw [if_neg hnonzero, hnum]
    exact ⟨_, rfl, hnext⟩

/-- With another sector size, erasing the first byte of the second sector misses it. -/
theorem not_erasesExactly_other (h : ¬ PowerOfTwo cfg) :
    ¬ ErasesExactly cfg cfg.sectorBytes cfg.sectorBytes := by
  intro hexact
  obtain ⟨fuel, cmds, stat, hloop, hcover⟩ := hexact fun _ => 0
  have hirr : ¬ cfg.sectorBytes < cfg.sectorBytes := BitVec.lt_irrefl _
  rw [bflbSflashErase, if_neg hirr] at hloop
  rcases fuel with _ | fuel
  · exact absurd hloop (by simp [eraseLoop])
  rw [eraseLoop, if_neg hirr] at hloop
  rcases eraseStep_other h with hnone | ⟨next, hstep, hnext⟩
  · rw [hnone] at hloop
    exact absurd hloop (by simp)
  rw [hstep] at hloop
  simp only [ne_eq, not_true_eq_false, if_false] at hloop
  rcases fuel with _ | fuel
  · exact absurd hloop (by simp [eraseLoop])
  rw [eraseLoop, if_pos hnext] at hloop
  simp only [Option.map_some, Option.some.injEq, Prod.mk.injEq] at hloop
  obtain ⟨rfl, rfl⟩ := hloop
  have hx := ((hcover fun _ _ => rfl).2 cfg.sectorBytes.toNat).2
    ⟨cfg.sectorBytes.toNat, Nat.le_refl _, Nat.le_refl _, rfl⟩
  obtain ⟨cmd, hcmd, -, hhi⟩ := hx
  rw [List.mem_singleton.1 hcmd] at hhi
  have hzero : (0 : BitVec 32).toNat = 0 := rfl
  rw [first, size, hzero] at hhi
  omega

example : bflbSflashErase ⟨4, 0x52, 0xd8⟩ (fun _ => 0) 6 0xFF10#32 0x21FFF#32 =
    some ([.sector 15, .blk64 1, .sector 32, .sector 33], 0) := by
  decide

end Sflash
end BouffaloSdk
