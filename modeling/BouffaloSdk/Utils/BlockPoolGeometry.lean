import BouffaloSdk.Utils.BlockPoolRuns
import Mathlib.Tactic.Ring

/-!
# Where the blocks of a pool lie

The count is estimated with one link word for each block and lowered by one
when the alignment leaves too little room. That is enough as long as the
rounded block size and the estimated end of the blocks are words.
-/

namespace BouffaloSdk.BlockPool
open Kit Kit.Word

/-- What the checks of the debug build let through, for a pool whose end is an
address. -/
structure PoolArgs (blkSize blkAlign poolAddr poolSize : Nat) : Prop where
  blkSize_pos : 0 < blkSize
  blkSize_lt : blkSize < 2 ^ 32
  blkAlign_le : blkAlign ≤ 7
  poolAddr_pos : 0 < poolAddr
  poolAddr_word : 4 ∣ poolAddr
  poolEnd : poolAddr + poolSize < 2 ^ 32

/-- The address that `bflb_block_pool_alloc` makes of index `i`. -/
def BflbBlockPool.handedOut (pool : BflbBlockPool) (i : Nat) : Nat :=
  add32 pool.blkAddr (mul32 i pool.blkSize)

structure Geometry (pool : BflbBlockPool) (blkSize blkAlign poolAddr poolSize : Nat) : Prop where
  total_pos : 1 ≤ pool.blkTotal
  holds : blkSize ≤ pool.blkSize
  aligned : ∀ i < pool.blkTotal, 2 ^ blkAlign ∣ pool.handedOut i
  inside : ∀ i < pool.blkTotal,
    poolAddr ≤ pool.handedOut i ∧ pool.handedOut i + pool.blkSize ≤ poolAddr + poolSize
  apart : ∀ i < pool.blkTotal, ∀ j < pool.blkTotal, i ≠ j →
    pool.handedOut i + pool.blkSize ≤ pool.handedOut j ∨
      pool.handedOut j + pool.blkSize ≤ pool.handedOut i
  links_start : pool.poolAddr = poolAddr
  links_apart : ∀ i < pool.blkTotal, ∀ j < pool.blkTotal, pool.node j + 4 ≤ pool.handedOut i

variable {pool : BflbBlockPool} {mem mem' : Memory}
  {blkSize blkAlign poolAddr poolSize size address blkCount : Nat}

/-- Neither the rounded size with a link word nor the estimated end wraps. -/
def Fits (size blkAlign poolAddr poolSize : Nat) : Prop :=
  size + 4 < 2 ^ 32 ∧ estimatedEnd size blkAlign poolAddr poolSize < 2 ^ 32

instance : Decidable (Fits size blkAlign poolAddr poolSize) :=
  inferInstanceAs (Decidable (_ ∧ _))

/-- The estimate, wrapped as it is, leaves no block. -/
def NoBlock (size blkAlign poolAddr poolSize : Nat) : Prop :=
  poolSize < (4 + size) % 2 ^ 32 ∨
    size = 2 ^ 32 ∧ poolSize < 8 ∧ poolAddr + poolSize < alignUp (poolAddr + 4) blkAlign


theorem newPool_geometry (hsize : blkSize ≤ size) (hpos : 0 < blkCount)
    (hdvd : 2 ^ blkAlign ∣ address) (hsizeDvd : 2 ^ blkAlign ∣ size)
    (hlinks : poolAddr + 4 * blkCount ≤ address)
    (hblocks : address + blkCount * size ≤ poolAddr + poolSize)
    (hregion : poolAddr + poolSize < 2 ^ 32) :
    Geometry (newPool poolAddr address size blkAlign blkCount) blkSize blkAlign poolAddr
      poolSize := by
  have hbelow : ∀ i < blkCount, i * size + size ≤ blkCount * size := by
    intro i hi
    rw [← Nat.succ_mul]
    exact Nat.mul_le_mul_right size hi
  have hout : ∀ i < blkCount,
      (newPool poolAddr address size blkAlign blkCount).handedOut i = address + i * size := by
    intro i hi
    have := hbelow i hi
    change add32 address (mul32 i size) = _
    have hmul : mul32 i size = i * size := Nat.mod_eq_of_lt (by omega)
    rw [hmul, add32_eq (by omega)]
  constructor
  case total_pos => exact hpos
  case holds => exact hsize
  case aligned =>
    intro i hi
    rw [hout i hi]
    exact Nat.dvd_add hdvd (Nat.dvd_mul_left_of_dvd hsizeDvd i)
  case inside =>
    intro i hi
    have := hbelow i hi
    rw [hout i hi]
    change _ ∧ address + i * size + size ≤ _
    omega
  case apart =>
    intro i hi j hj hij
    rw [hout i hi, hout j hj]
    change address + i * size + size ≤ address + j * size ∨
      address + j * size + size ≤ address + i * size
    have hstep : ∀ m n, m < n → m * size + size ≤ n * size := by
      intro m n hmn
      rw [← Nat.succ_mul]
      exact Nat.mul_le_mul_right size hmn
    rcases Nat.lt_or_gt_of_ne hij with hlt | hgt
    · have := hstep i j hlt
      omega
    · have := hstep j i hgt
      omega
  case links_start => rfl
  case links_apart =>
    intro i hi j hj
    have hj' : j < blkCount := hj
    rw [hout i hi]
    change poolAddr + 4 * j + 4 ≤ _
    omega

theorem geometry_of_fits (args : PoolArgs blkSize blkAlign poolAddr poolSize)
    (hfits : Fits (roundUp blkSize (2 ^ blkAlign)) blkAlign poolAddr poolSize)
    (h : bflbBlockPoolCreate mem blkSize blkAlign poolAddr poolSize = some (pool, mem')) :
    Geometry pool blkSize blkAlign poolAddr poolSize := by
  obtain ⟨address, blkCount, hpos, rfl, -, hdvd, hlinks, hblocks⟩ :=
    create_spec rfl args.blkSize_pos hfits.1 args.poolEnd hfits.2 h
  exact newPool_geometry (le_roundUp (Nat.two_pow_pos blkAlign)) hpos hdvd (dvd_roundUp _ _) hlinks
    hblocks args.poolEnd

/-! ## When something wraps -/

theorem rounded_le (args : PoolArgs blkSize blkAlign poolAddr poolSize) :
    roundUp blkSize (2 ^ blkAlign) ≤ 2 ^ 32 := by
  have hle := args.blkAlign_le
  have hlt := args.blkSize_lt
  exact roundUp_le (Nat.two_pow_pos blkAlign) (by omega) (Nat.pow_dvd_pow 2 (by omega))

/-- No pool is smaller than one block with its link word, as the sum wraps. -/
theorem create_small (hblk : blkSize < 2 ^ 32)
    (hsmall : poolSize < (4 + roundUp blkSize (2 ^ blkAlign)) % 2 ^ 32) :
    bflbBlockPoolCreate mem blkSize blkAlign poolAddr poolSize = none := by
  have hnone : divu32 poolSize (add32 4 (alignUp blkSize blkAlign)) = 0 := by
    rw [alignUp_eq blkAlign hblk, add32_mod_right, add32, divu32, if_neg (by omega)]
    exact Nat.div_eq_of_lt hsmall
  unfold bflbBlockPoolCreate
  dsimp only
  rw [hnone, if_pos rfl]

/-- The estimated blocks reach past the last address, and the check for too
little memory does not see it. -/
theorem create_past_end (args : PoolArgs blkSize blkAlign poolAddr poolSize)
    (hsize : size = roundUp blkSize (2 ^ blkAlign)) (hunit : size + 4 < 2 ^ 32)
    (hcount : estimate size poolSize ≠ 0)
    (hend : 2 ^ 32 ≤ estimatedEnd size blkAlign poolAddr poolSize) :
    ∃ pool mem', bflbBlockPoolCreate mem blkSize blkAlign poolAddr poolSize = some (pool, mem') ∧
      ¬ Geometry pool blkSize blkAlign poolAddr poolSize := by
  obtain ⟨hpos, hlt, halign, -, -, hregion⟩ := args
  have hpow : 0 < 2 ^ blkAlign := Nat.two_pow_pos blkAlign
  have hpow7 : 2 ^ blkAlign ≤ 2 ^ 7 := Nat.pow_le_pow_right (by decide) halign
  have hsizeAlign : 2 ^ blkAlign ≤ size := by
    have hlow := @le_roundUp blkSize _ hpow
    rw [hsize]
    exact Nat.le_of_dvd (by omega) (dvd_roundUp _ _)
  have hrounded : alignUp blkSize blkAlign = size := by
    rw [alignUp_eq blkAlign hlt, ← hsize, Nat.mod_eq_of_lt (by omega)]
  have hspace : estimate size poolSize * (4 + size) ≤ poolSize := Nat.div_mul_le_self _ _
  have hdiv : divu32 poolSize (add32 4 size) = estimate size poolSize := by
    rw [add32_eq (by omega), divu32, if_neg (by omega), estimate]
  unfold bflbBlockPoolCreate
  dsimp only
  rw [hrounded, hdiv]
  unfold estimatedEnd at hend
  generalize estimate size poolSize = count at hcount hspace hend
  obtain ⟨n, rfl⟩ : ∃ n, count = n + 1 := ⟨count - 1, by omega⟩
  rw [Nat.mul_add] at hspace
  have hlast : (n + 1) * size = n * size + size := Nat.succ_mul n size
  have hhigh := @roundUp_lt (poolAddr + 4 * (n + 1)) _ hpow
  have haddress : alignUp (add32 poolAddr (mul32 4 (n + 1))) blkAlign =
      roundUp (poolAddr + 4 * (n + 1)) (2 ^ blkAlign) := by
    have hfour : mul32 4 (n + 1) = 4 * (n + 1) := Nat.mod_eq_of_lt (by omega)
    rw [hfour, add32_eq (by omega), alignUp_eq blkAlign (by omega), Nat.mod_eq_of_lt (by omega)]
  have hbytes : mul32 (n + 1) size = (n + 1) * size := Nat.mod_eq_of_lt (by omega)
  have hunseen : ¬ add32 (roundUp (poolAddr + 4 * (n + 1)) (2 ^ blkAlign)) ((n + 1) * size) >
      poolAddr + poolSize := by
    rw [add32]
    omega
  rw [if_neg hcount, haddress, hbytes, add32_eq hregion, if_neg hunseen]
  refine ⟨_, _, rfl, fun hgeo => ?_⟩
  have hin := (hgeo.inside n (Nat.lt_succ_self n)).2
  have hmul : mul32 n size = n * size := Nat.mod_eq_of_lt (by omega)
  change add32 (roundUp (poolAddr + 4 * (n + 1)) (2 ^ blkAlign)) (mul32 n size) + size ≤ _ at hin
  rw [hmul, add32_eq (by omega)] at hin
  omega

/-- No block of almost all the address space lies inside a pool. -/
theorem not_geometry_of_huge (args : PoolArgs blkSize blkAlign poolAddr poolSize)
    (hhuge : 2 ^ 32 ≤ pool.blkSize + 4) : ¬ Geometry pool blkSize blkAlign poolAddr poolSize := by
  intro hgeo
  obtain ⟨hlow, hhigh⟩ := hgeo.inside 0 hgeo.total_pos
  have hword : 4 ≤ poolAddr := Nat.le_of_dvd args.poolAddr_pos args.poolAddr_word
  have hregion := args.poolEnd
  omega

theorem alignUp_of_dvd {x : Nat} (hx : x < 2 ^ 32) (hdvd : 2 ^ blkAlign ∣ x) :
    alignUp x blkAlign = x := by
  rw [alignUp_eq blkAlign hx, roundUp_of_dvd (Nat.two_pow_pos blkAlign) hdvd, Nat.mod_eq_of_lt hx]

/-- The sum of the rounded size and a link word wraps to `unit`, at most three:
the pool is cut into that many bytes for each block, or divided by zero. -/
theorem create_wrapped (args : PoolArgs blkSize blkAlign poolAddr poolSize) {unit : Nat}
    (hsize : size = roundUp blkSize (2 ^ blkAlign)) (hlt : size < 2 ^ 32)
    (hunit : size + 4 = 2 ^ 32 + unit) (hroom : unit ≤ poolSize) :
    ∃ address blkCount mem', bflbBlockPoolCreate mem blkSize blkAlign poolAddr poolSize =
      some (newPool poolAddr address size blkAlign blkCount, mem') := by
  obtain ⟨hpos, hblk, halign, haddr, hword, hregion⟩ := args
  have hdvdSize : 2 ^ blkAlign ∣ size := hsize ▸ dvd_roundUp _ _
  -- the alignment divides the rounded size and the word, so it divides a link word
  have hfour : 2 ^ blkAlign ∣ 4 := by
    have hgap : 2 ^ blkAlign ∣ 2 ^ 32 - size :=
      Nat.dvd_sub (Nat.pow_dvd_pow 2 (by omega)) hdvdSize
    have hsmall : 2 ^ blkAlign ≤ 2 ^ 32 - size := Nat.le_of_dvd (by omega) hgap
    by_contra hnot
    have hthree : 3 ≤ blkAlign := by
      by_contra hlow
      have hpow : (2 : Nat) ^ blkAlign ∣ 2 ^ 2 := Nat.pow_dvd_pow 2 (by omega)
      exact hnot hpow
    have hbig : (2 : Nat) ^ 3 ≤ 2 ^ blkAlign := Nat.pow_le_pow_right (by decide) hthree
    omega
  have hrounded : alignUp blkSize blkAlign = size := by
    rw [alignUp_eq blkAlign hblk, ← hsize, Nat.mod_eq_of_lt hlt]
  have hsum : add32 4 size = unit := by
    rw [add32]
    omega
  have hcount : divu32 poolSize unit ≠ 0 ∧
      (divu32 poolSize unit * unit ≤ poolSize) := by
    unfold divu32
    split
    case isTrue hzero =>
      rw [hzero]
      exact ⟨by decide, Nat.zero_le _⟩
    case isFalse hne =>
      have hposCount := Nat.div_pos hroom (Nat.pos_of_ne_zero hne)
      exact ⟨by omega, Nat.div_mul_le_self _ _⟩
  unfold bflbBlockPoolCreate
  dsimp only
  rw [hrounded, hsum]
  generalize divu32 poolSize unit = count at hcount
  obtain ⟨hne, hspace⟩ := hcount
  have hstart : alignUp (add32 poolAddr (mul32 4 count)) blkAlign =
      add32 poolAddr (mul32 4 count) := by
    refine alignUp_of_dvd (by rw [add32]; omega) (Nat.dvd_trans hfour ?_)
    rw [add32, mul32]
    omega
  have hend : add32 (add32 poolAddr (mul32 4 count)) (mul32 count size) =
      poolAddr + count * unit := by
    have hprod : 4 * count + count * size = count * unit + 2 ^ 32 * count := by
      calc 4 * count + count * size = count * (size + 4) := by ring
        _ = count * unit + 2 ^ 32 * count := by rw [hunit]; ring
    rw [add32, add32, mul32, mul32]
    omega
  rw [if_neg hne, hstart, hend, add32_eq hregion, if_neg (by omega)]
  exact ⟨_, _, _, rfl⟩

/-- A size rounded up to the whole address space is a size of zero. -/
theorem create_zero (args : PoolArgs blkSize blkAlign poolAddr poolSize)
    (hsize : roundUp blkSize (2 ^ blkAlign) = 2 ^ 32) :
    ((∀ pool mem', bflbBlockPoolCreate mem blkSize blkAlign poolAddr poolSize ≠
        some (pool, mem')) ↔
      poolSize < 4 ∨ poolSize < 8 ∧ poolAddr + poolSize < alignUp (poolAddr + 4) blkAlign) ∧
    ∀ pool mem', bflbBlockPoolCreate mem blkSize blkAlign poolAddr poolSize = some (pool, mem') →
      pool.blkSize = 0 := by
  obtain ⟨hpos, hblk, halign, haddr, hword, hregion⟩ := args
  have hrounded : alignUp blkSize blkAlign = 0 := by
    rw [alignUp_eq blkAlign hblk, hsize, Nat.mod_self]
  have hfour : add32 4 0 = 4 := add32_eq (by decide)
  have hnone : ∀ k, mul32 k 0 = 0 := fun k => by rw [mul32, Nat.mul_zero, Nat.zero_mod]
  have hlt : ∀ x, x < 2 ^ 32 → alignUp x blkAlign < 2 ^ 32 := by
    intro x hx
    rw [alignUp_eq blkAlign hx]
    exact Nat.mod_lt _ (by decide)
  unfold bflbBlockPoolCreate
  dsimp only
  have hdiv : divu32 poolSize 4 = poolSize / 4 := if_neg (by decide)
  rw [hrounded, hfour, hdiv]
  by_cases hzero : poolSize / 4 = 0
  · rw [if_pos hzero]
    exact ⟨⟨fun _ => .inl (by omega), fun _ => by simp⟩, by simp⟩
  rw [if_neg hzero, hnone, add32_eq hregion]
  have hcount : 4 * (poolSize / 4) ≤ poolSize := by omega
  have hstart : add32 poolAddr (mul32 4 (poolSize / 4)) = poolAddr + 4 * (poolSize / 4) := by
    rw [add32, mul32]
    omega
  have hplain : add32 (alignUp (add32 poolAddr (mul32 4 (poolSize / 4))) blkAlign) 0 =
      alignUp (add32 poolAddr (mul32 4 (poolSize / 4))) blkAlign :=
    add32_eq (hlt _ (by omega))
  rw [hplain, hstart]
  by_cases hover : alignUp (poolAddr + 4 * (poolSize / 4)) blkAlign > poolAddr + poolSize
  · rw [if_pos hover]
    by_cases hfew : poolSize / 4 - 1 = 0
    · have hone : poolSize / 4 = 1 := by omega
      rw [if_pos hfew]
      rw [hone] at hover
      exact ⟨⟨fun _ => .inr ⟨by omega, hover⟩, fun _ => by simp⟩, by simp⟩
    · rw [if_neg hfew]
      refine ⟨⟨fun h => absurd rfl (h _ _), fun h => ?_⟩, fun pool mem' h => ?_⟩
      · omega
      · obtain ⟨rfl, -⟩ := Prod.mk.inj (Option.some.inj h)
        rfl
  · rw [if_neg hover]
    refine ⟨⟨fun h => absurd rfl (h _ _), fun h => ?_⟩, fun pool mem' h => ?_⟩
    · have hone : poolSize / 4 = 1 ∨ poolSize < 4 := by omega
      rcases hone with hone | hsmall
      · rw [hone, Nat.mul_one] at hover
        omega
      · omega
    · obtain ⟨rfl, -⟩ := Prod.mk.inj (Option.some.inj h)
      rfl

/-! ## Creation -/

/-- The blocks of a pool lie where they should exactly when nothing wraps, or
when no block is left so that no pool is made. -/
theorem create_geometry_iff (mem : Memory) (blkSize blkAlign poolAddr poolSize : Nat)
    (args : PoolArgs blkSize blkAlign poolAddr poolSize) :
    (∀ pool mem', bflbBlockPoolCreate mem blkSize blkAlign poolAddr poolSize = some (pool, mem') →
        Geometry pool blkSize blkAlign poolAddr poolSize) ↔
      Fits (roundUp blkSize (2 ^ blkAlign)) blkAlign poolAddr poolSize ∨
        NoBlock (roundUp blkSize (2 ^ blkAlign)) blkAlign poolAddr poolSize := by
  have hle := rounded_le args
  generalize hsize : roundUp blkSize (2 ^ blkAlign) = size at hle
  unfold NoBlock
  by_cases hunit : size + 4 < 2 ^ 32
  · have hmod : (4 + size) % 2 ^ 32 = 4 + size := Nat.mod_eq_of_lt (by omega)
    rw [hmod]
    constructor
    · intro hgeo
      by_cases hcount : estimate size poolSize = 0
      · rcases Nat.div_eq_zero_iff.mp hcount with h | h
        · omega
        · exact .inr (.inl h)
      · by_cases hend : estimatedEnd size blkAlign poolAddr poolSize < 2 ^ 32
        · exact .inl ⟨hunit, hend⟩
        · obtain ⟨pool, mem', hmade, hnot⟩ :=
            @create_past_end mem _ _ _ _ _ args hsize.symm hunit hcount (by omega)
          exact absurd (hgeo pool mem' hmade) hnot
    · rintro (hfits | hsmall | ⟨hzero, -⟩) pool mem' h
      · rw [← hsize] at hfits
        exact geometry_of_fits args hfits h
      · rw [create_small args.blkSize_lt (by rw [hsize]; omega)] at h
        exact absurd h (by simp)
      · omega
  · have hnot : ¬ Fits size blkAlign poolAddr poolSize := fun hfits => hunit hfits.1
    by_cases hfull : size = 2 ^ 32
    · obtain ⟨hnone, hempty⟩ := @create_zero mem _ _ _ _ args (hsize.trans hfull)
      have hfour : (4 + size) % 2 ^ 32 = 4 := by omega
      rw [hfour]
      constructor
      · intro hgeo
        have hfail := hnone.mp fun pool mem' h => by
          have hholds := (hgeo pool mem' h).holds
          have hpos := args.blkSize_pos
          rw [hempty pool mem' h] at hholds
          omega
        exact .inr (hfail.imp_right fun hfew => ⟨hfull, hfew⟩)
      · rintro (hfits | hno) pool mem' h
        · exact absurd hfits hnot
        · exact absurd h (hnone.mpr (hno.imp_right And.right) pool mem')
    · have hmod : (4 + size) % 2 ^ 32 = size + 4 - 2 ^ 32 := by omega
      rw [hmod]
      constructor
      · intro hgeo
        by_cases hroom : size + 4 - 2 ^ 32 ≤ poolSize
        · obtain ⟨address, blkCount, mem', hmade⟩ :=
            @create_wrapped mem _ _ _ _ _ args _ hsize.symm (by omega) (by omega) hroom
          refine absurd (hgeo _ _ hmade) (not_geometry_of_huge args ?_)
          change 2 ^ 32 ≤ size + 4
          omega
        · exact .inr (.inl (by omega))
      · rintro (hfits | hsmall | ⟨hzero, -⟩) pool mem' h
        · exact absurd hfits hnot
        · rw [create_small args.blkSize_lt (by rw [hsize]; omega)] at h
          exact absurd h (by simp)
        · exact absurd hzero hfull

theorem poolArgs_unaligned : PoolArgs 100 7 0x1004 1000 := by
  constructor <;> decide

/-- Seven blocks are estimated and six fit behind their links. -/
theorem create_geometry_unaligned : Geometry (newPool 0x1004 0x1080 128 7 6) 100 7 0x1004 1000 :=
  (create_geometry_iff (fun _ => 0) 100 7 0x1004 1000 poolArgs_unaligned).mpr
    (.inl (by decide +kernel)) _ (buildList (fun _ => 0) 0x1004 6) (by with_unfolding_all rfl)

/-- Blocks of the largest size are blocks of no bytes. -/
theorem largest_size_accepted :
    ¬ ∀ pool mem', bflbBlockPoolCreate (fun _ => 0) 0xFFFFFFFF 3 0x1000 64 = some (pool, mem') →
      Geometry pool 0xFFFFFFFF 3 0x1000 64 := by
  intro h
  have hmade : bflbBlockPoolCreate (fun _ => 0) 0xFFFFFFFF 3 0x1000 64 =
      some (newPool 0x1000 0x1040 0 3 16, buildList (fun _ => 0) 0x1000 16) := by
    with_unfolding_all rfl
  exact absurd (h _ _ hmade).holds (by decide)

end BouffaloSdk.BlockPool
