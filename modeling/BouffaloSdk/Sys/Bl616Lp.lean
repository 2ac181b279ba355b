import Mathlib.Algebra.Order.Ring.Nat
import Mathlib.Tactic.Common

/-!
# Entering the low-power firmware

`bl_lp_fw_enter` and `rtc_wakeup_init` of `drivers/sys/bl616/bl616_lp.c`: how long to sleep,
and which timers wake the chip. The hooks leave the configuration as it is.
-/

namespace BouffaloSdk.Lp

/-- What the caller asks for. -/
structure BlLpFwCfg where
  timWakeupEn : Bool
  dtimNum : UInt8
  rtcWakeupCmpCnt : UInt64
  rtcTimeoutUs : UInt64

/-- An entry of the table for lost beacons. -/
structure BcnLossLevel where
  dtimNum : UInt32
  winExtendStartUs : Int32

/-- What is known of the beacons; `bcnLossCfg` is the table's entry at the level. -/
structure Iot2lpPara where
  beaconIntervalTu : UInt32
  continuousLossCnt : UInt32
  bcnLossCfg : BcnLossLevel
  lastBeaconStampRtcValid : Bool
  lastBeaconStampRtcUs : UInt64
  lastBeaconDelayUs : Int32
  rtc32kErrorPpm : Int32
  rtc32kJitterErrorPpm : Int32

/-- What the call reads of the chip: the counter where the beacons are looked at and where
the comparator is set, the clock's source, and whether a pin or a comparator is pending. -/
structure Readings where
  rtcNow : BitVec 40
  rtcArming : BitVec 40
  xtal32k : Bool
  wakeBits : Bool

def pdsWakeupMiniLimitUs : Nat := 1220
def pdsWakeupDelayUs : Nat := 1000
def pdsWakeupDelayCnt : Nat := 33
def protectAfMs : Nat := 10
def protectBfMs : Nat := 5
def pdsWarmupLatencyCnt : Nat := 38

/-- `BL_US_TO_PDS_CNT` on 32 bits. -/
def usToPdsCnt32 (us : UInt32) : UInt32 := us * 512 / 15625

/-- `BL_US_TO_PDS_CNT` on 64 bits. -/
def usToPdsCnt (us : UInt64) : UInt64 := us * 512 / 15625

/-- `BL_PDS_CNT_TO_US`. -/
def pdsCntToUs (cnt : UInt64) : UInt64 := cnt * 15625 / 512

/-- The counter in two registers. -/
def rtcCnt (reading : BitVec 40) : UInt64 := UInt64.ofNat reading.toNat

/-! ## How long to sleep -/

/-- The part of `us` that `ppm` is. -/
def errorPart (us : UInt64) (ppm : Int32) : Int64 := us.toInt64 * ppm.toInt64 / (1000 * 1000)

/-- The table's entry, where beacons have been lost. -/
def bcnLossLevel (p : Iot2lpPara) : Option BcnLossLevel :=
  if p.continuousLossCnt = 0 then none else some p.bcnLossCfg

def beaconIntervalUs (p : Iot2lpPara) : UInt32 := p.beaconIntervalTu * 1024

def dtimPeriodUs (cfg : BlLpFwCfg) (p : Iot2lpPara) : UInt32 :=
  let dtimNum := if cfg.dtimNum ≠ 0 then cfg.dtimNum else 10
  (match bcnLossLevel p with
    | none => dtimNum.toUInt32
    | some level => level.dtimNum) * beaconIntervalUs p

def lastBeaconRtcUs (p : Iot2lpPara) : UInt64 :=
  p.lastBeaconStampRtcUs - p.lastBeaconDelayUs.toInt64.toUInt64

/-- To the next beacon, with the clock's error on the way there. -/
def toNextBeacon (p : Iot2lpPara) (period : UInt32) (nowUs : UInt64) : UInt32 × Int32 :=
  let last := lastBeaconRtcUs p
  let interval := beaconIntervalUs p
  if nowUs < last + period.toUInt64 then
    ((last + period.toUInt64 - nowUs).toUInt32,
      (errorPart period.toUInt64 p.rtc32kErrorPpm).toInt32)
  else
    let sleep := (interval.toUInt64 - (nowUs - last) % interval.toUInt64).toUInt32
    (sleep, (errorPart (sleep.toUInt64 + nowUs - last) p.rtc32kErrorPpm).toInt32)

/-- A beacon that is too near is left out. -/
def skipNearBeacon (p : Iot2lpPara) (next : UInt32 × Int32) : UInt32 × Int32 :=
  let interval := beaconIntervalUs p
  if next.1.toNat ≤ protectAfMs * 1000 then
    (next.1 + interval, next.2 + (errorPart interval.toUInt64 p.rtc32kErrorPpm).toInt32)
  else next

def compensateError (next : UInt32 × Int32) : UInt32 :=
  if 0 < next.2 ∨ (-next.2).toUInt32 < next.1 then next.1 + next.2.toUInt32 else 0

def extendWindow (p : Iot2lpPara) (sleep : UInt32) : UInt32 :=
  match bcnLossLevel p with
  | none => sleep
  | some level =>
    if level.winExtendStartUs.toUInt32 < sleep then sleep - level.winExtendStartUs.toUInt32 else 0

/-- Up to the beacon that is waited for. -/
def pdsSleepToBeacon (cfg : BlLpFwCfg) (p : Iot2lpPara) (nowUs : UInt64) : UInt32 :=
  if p.lastBeaconStampRtcValid then
    extendWindow p (compensateError (skipNearBeacon p (toNextBeacon p (dtimPeriodUs cfg p) nowUs)))
  else dtimPeriodUs cfg p / 2

/-- The way to sleep takes a millisecond of the time to the beacon. -/
def beforeSleep (cfg : BlLpFwCfg) (sleep : UInt32) : UInt32 :=
  if cfg.timWakeupEn ∧ 1000 < sleep then sleep - 1000 else sleep

def jitterErrorPpm (cfg : BlLpFwCfg) (p : Iot2lpPara) (xtal32k : Bool) : Int32 :=
  if cfg.timWakeupEn then (if xtal32k then 400 else 1200) else p.rtc32kJitterErrorPpm

/-- The jitter since the last beacon, 2 ms at most. -/
def totalError (cfg : BlLpFwCfg) (p : Iot2lpPara) (xtal32k : Bool) (nowUs : UInt64)
    (sleep : UInt32) : UInt32 :=
  let time := if p.lastBeaconStampRtcValid then (nowUs - lastBeaconRtcUs p) + sleep.toUInt64
    else sleep.toUInt64
  let total := (errorPart time (jitterErrorPpm cfg p xtal32k)).toUInt64.toUInt32
  if 2 * 1000 < total then 2 * 1000 else total

def withoutJitter (total sleep : UInt32) : UInt32 := if total < sleep then sleep - total else 0

def pdsMinimumLimit (sleep : UInt32) : UInt32 :=
  if sleep.toNat < pdsWakeupMiniLimitUs + pdsWakeupDelayUs then UInt32.ofNat pdsWakeupMiniLimitUs
  else sleep - UInt32.ofNat pdsWakeupDelayUs

/-- The whole of `pds_sleep_us`. -/
def pdsSleepUs (cfg : BlLpFwCfg) (p : Iot2lpPara) (r : Readings) : UInt32 :=
  let nowUs := pdsCntToUs (rtcCnt r.rtcNow)
  let sleep := beforeSleep cfg (pdsSleepToBeacon cfg p nowUs)
  pdsMinimumLimit (withoutJitter (totalError cfg p r.xtal32k nowUs sleep) sleep)

/-! ## When the counter wakes the chip -/

/-- A day at most, where a time is asked for. -/
def rtcSleepOfCfg (cfg : BlLpFwCfg) : UInt64 :=
  let day : UInt64 := 24 * 60 * 60 * 1000 * 1000
  if cfg.rtcWakeupCmpCnt = 0 ∧ day < cfg.rtcTimeoutUs then day else cfg.rtcTimeoutUs

/-- A wake-up next to the beacon is moved in front of it. -/
def avoidCollision (cmp : UInt64) (pds : UInt32) (rtc : UInt64) : UInt64 :=
  if cmp = 0 ∧ rtc ≠ 0 then
    if (rtc ≤ pds.toUInt64 ∧ (pds.toUInt64 - rtc).toNat < protectBfMs * 1000) ∨
        (pds.toUInt64 ≤ rtc ∧ (rtc - pds.toUInt64).toNat < protectAfMs * 1000) then
      if protectAfMs * 1000 < pds.toNat then (pds - UInt32.ofNat (protectAfMs * 1000)).toUInt64 else 0
    else rtc
  else rtc

def rtcMinimumLimit (cmp rtc : UInt64) : UInt64 :=
  if cmp = 0 then
    if rtc.toNat < pdsWakeupMiniLimitUs + pdsWakeupDelayUs then UInt64.ofNat pdsWakeupMiniLimitUs
    else rtc - UInt64.ofNat pdsWakeupDelayUs
  else rtc

/-- The whole of `rtc_sleep_us`. -/
def rtcSleepUs (cfg : BlLpFwCfg) (p : Iot2lpPara) (r : Readings) : UInt64 :=
  let rtc := rtcSleepOfCfg cfg
  let nowUs := pdsCntToUs (rtcCnt r.rtcNow)
  rtcMinimumLimit cfg.rtcWakeupCmpCnt
    (if p.lastBeaconStampRtcValid then
      avoidCollision cfg.rtcWakeupCmpCnt (pdsSleepToBeacon cfg p nowUs) rtc
    else rtc)

/-- The count that is asked for, less the time it takes to wake. -/
def rtcCmpOfCfg (cfg : BlLpFwCfg) : UInt64 :=
  if pdsWakeupDelayCnt < cfg.rtcWakeupCmpCnt.toNat then
    cfg.rtcWakeupCmpCnt - UInt64.ofNat pdsWakeupDelayCnt
  else cfg.rtcWakeupCmpCnt

/-! ## What is armed -/

/-- `rtc_wakeup_init`: the count in the comparator, or nothing. -/
def rtcWakeupInit (r : Readings) (cmp sleepUs : UInt64) : Option UInt64 :=
  if sleepUs = 0 then none
  else if cmp = 0 then some (rtcCnt r.rtcArming + usToPdsCnt sleepUs)
  else some cmp

/-- The comparator and the timer that the chip goes to sleep with. -/
structure PdsEntry where
  rtc : Option UInt64
  pdsCnt : UInt32
  deriving DecidableEq

/-- `pm_pds_mode_enter` returns at once when the timer is below the warm-up. -/
def pmPdsModeEnters (sleepTime : UInt32) : Prop := sleepTime = 0 ∨ pdsWarmupLatencyCnt < sleepTime.toNat

/-- The three ways to sleep. -/
def armWakeup (tim : Bool) (r : Readings) (cmp rtcSleep : UInt64) (pdsSleep : UInt32) :
    Option PdsEntry :=
  if tim ∧ (cmp ≠ 0 ∨ rtcSleep ≠ 0) then some ⟨rtcWakeupInit r cmp rtcSleep, usToPdsCnt32 pdsSleep⟩
  else if tim then some ⟨none, usToPdsCnt32 pdsSleep⟩
  else if cmp ≠ 0 ∨ rtcSleep ≠ 0 then some ⟨rtcWakeupInit r cmp rtcSleep, 0⟩
  else none

/-- `bl_lp_fw_enter` accepts the configuration: there is something to wake up for. -/
def Accepted (cfg : BlLpFwCfg) : Prop :=
  ¬ (cfg.timWakeupEn = false ∧ cfg.rtcWakeupCmpCnt = 0 ∧ cfg.rtcTimeoutUs = 0)

instance decidableAccepted (cfg : BlLpFwCfg) : Decidable (Accepted cfg) := inferInstanceAs (Decidable (¬ _))

/-- `bl_lp_fw_enter` up to the sleep; with pending inputs it is 2 ms. -/
def blLpFwEnter (cfg : BlLpFwCfg) (p : Iot2lpPara) (r : Readings) : Except Int (Option PdsEntry) :=
  if Accepted cfg then
    .ok (armWakeup cfg.timWakeupEn r (rtcCmpOfCfg cfg)
      (if r.wakeBits then 2000 else rtcSleepUs cfg p r)
      (if r.wakeBits then 2000 else pdsSleepUs cfg p r))
  else .error (-2)

/-! ## What was asked for -/

/-- A configuration asks for a wake-up by the counter. -/
def RtcRequested (cfg : BlLpFwCfg) : Prop := cfg.rtcTimeoutUs ≠ 0 ∨ cfg.rtcWakeupCmpCnt ≠ 0

/-- The counter at the instant that is asked for. -/
def requestedCnt (cfg : BlLpFwCfg) (r : Readings) : Nat :=
  if cfg.rtcWakeupCmpCnt ≠ 0 then cfg.rtcWakeupCmpCnt.toNat
  else r.rtcArming.toNat + cfg.rtcTimeoutUs.toNat * 512 / 15625

/-- The comparator is set where that is asked for, not later than the instant, and some timer
is. -/
structure WakeupArmed (cfg : BlLpFwCfg) (r : Readings) (e : PdsEntry) : Prop where
  asked : e.rtc.isSome ↔ RtcRequested cfg
  inTime : ∀ cnt, e.rtc = some cnt → cnt.toNat ≤ requestedCnt cfg r
  timed : e.rtc.isSome ∨ e.pdsCnt ≠ 0

/-- A count comes with a time, or inputs are pending; a time alone is not below what the chip
sleeps at least. -/
def RequestKept (cfg : BlLpFwCfg) (wakeBits : Bool) : Prop :=
  if cfg.rtcWakeupCmpCnt ≠ 0 then cfg.rtcTimeoutUs ≠ 0 ∨ wakeBits
  else (if wakeBits then 2000 else pdsWakeupMiniLimitUs) * 512 / 15625 ≤
    cfg.rtcTimeoutUs.toNat * 512 / 15625

variable {cfg : BlLpFwCfg} {p : Iot2lpPara} {r : Readings}

/-- Forty bits of ticks are microseconds without a wrap. -/
theorem pdsCntToUs_rtcCnt (rtc : BitVec 40) :
    (pdsCntToUs (rtcCnt rtc)).toNat = rtc.toNat * 15625 / 512 := by
  have hrtc : rtc.toNat < 2 ^ 40 := rtc.isLt
  have hcnt : (rtcCnt rtc).toNat = rtc.toNat := by
    rw [rtcCnt, UInt64.toNat_ofNat']
    exact Nat.mod_eq_of_lt (by omega)
  rw [pdsCntToUs, UInt64.toNat_div, UInt64.toNat_mul, hcnt]
  change rtc.toNat * 15625 % 2 ^ 64 / 512 = _
  rw [Nat.mod_eq_of_lt (by omega)]

theorem avoidCollision_le (cmp : UInt64) (pds : UInt32) (rtc : UInt64) :
    (avoidCollision cmp pds rtc).toNat ≤ rtc.toNat := by
  have hrtc := rtc.toNat_lt
  have hpds := pds.toNat_lt
  unfold avoidCollision
  split
  swap
  · exact Nat.le_refl _
  split
  swap
  · exact Nat.le_refl _
  · rename_i hnear
    split
    swap
    · exact Nat.zero_le _
    · rename_i hfar
      have hmoved : (pds - UInt32.ofNat (protectAfMs * 1000)).toNat = pds.toNat - 10000 := by
        rw [UInt32.toNat_sub_of_le]
        · rfl
        · exact UInt32.le_iff_toNat_le.mpr (Nat.le_of_lt hfar)
      rw [UInt32.toNat_toUInt64, hmoved]
      rcases hnear with ⟨hle, hlt⟩ | ⟨hle, -⟩
      · rw [UInt64.toNat_sub_of_le _ _ hle, UInt32.toNat_toUInt64] at hlt
        have hbf : protectBfMs * 1000 = 5000 := rfl
        omega
      · have hbefore := UInt64.le_iff_toNat_le.mp hle
        rw [UInt32.toNat_toUInt64] at hbefore
        omega

theorem rtcSleepOfCfg_toNat (hcmp : cfg.rtcWakeupCmpCnt = 0) :
    (rtcSleepOfCfg cfg).toNat = min cfg.rtcTimeoutUs.toNat 86400000000 := by
  have hday : ((24 * 60 * 60 * 1000 * 1000 : UInt64)).toNat = 86400000000 := rfl
  unfold rtcSleepOfCfg
  dsimp only
  split
  · rename_i hlong
    have hlt := UInt64.lt_iff_toNat_lt.mp hlong.2
    omega
  · rename_i hshort
    have hle : ¬ _ := fun hlt => hshort ⟨hcmp, UInt64.lt_iff_toNat_lt.mpr hlt⟩
    omega

/-- The sleep that the comparator is set for. -/
theorem rtcSleepUs_bounds (hcmp : cfg.rtcWakeupCmpCnt = 0) :
    ∃ rtc, rtc ≤ cfg.rtcTimeoutUs.toNat ∧ rtc ≤ 86400000000 ∧
      (rtcSleepUs cfg p r).toNat = if rtc < 2220 then 1220 else rtc - 1000 := by
  have hcfg := rtcSleepOfCfg_toNat hcmp
  obtain ⟨rtc, hrtc, hle⟩ : ∃ rtc : UInt64, rtcSleepUs cfg p r = rtcMinimumLimit cfg.rtcWakeupCmpCnt rtc ∧
      rtc.toNat ≤ (rtcSleepOfCfg cfg).toNat := by
    refine ⟨_, rfl, ?_⟩
    split
    · exact avoidCollision_le ..
    · exact Nat.le_refl _
  refine ⟨rtc.toNat, by omega, by omega, ?_⟩
  rw [hrtc, rtcMinimumLimit, if_pos hcmp]
  have hlimit : pdsWakeupMiniLimitUs + pdsWakeupDelayUs = 2220 := rfl
  by_cases hshort : rtc.toNat < 2220
  · rw [if_pos (by omega), if_pos hshort]
    rfl
  · have hdelay : UInt64.ofNat pdsWakeupDelayUs ≤ rtc := by
      apply UInt64.le_iff_toNat_le.mpr
      change 1000 ≤ rtc.toNat
      omega
    rw [if_neg (by omega), if_neg hshort, UInt64.toNat_sub_of_le _ _ hdelay]
    rfl

/-- A day's sleep does not carry the count over 64 bits. -/
theorem armed_toNat {sleep : UInt64} (h : sleep.toNat ≤ 86400000000) :
    (rtcCnt r.rtcArming + usToPdsCnt sleep).toNat =
      r.rtcArming.toNat + sleep.toNat * 512 / 15625 := by
  have hreading : r.rtcArming.toNat < 2 ^ 40 := r.rtcArming.isLt
  have hcnt : (usToPdsCnt sleep).toNat = sleep.toNat * 512 / 15625 := by
    rw [usToPdsCnt, UInt64.toNat_div, UInt64.toNat_mul]
    change sleep.toNat * 512 % 2 ^ 64 / 15625 = _
    rw [Nat.mod_eq_of_lt (by omega)]
  have hrtc : (rtcCnt r.rtcArming).toNat = r.rtcArming.toNat := by
    rw [rtcCnt, UInt64.toNat_ofNat']
    exact Nat.mod_eq_of_lt (by omega)
  rw [UInt64.toNat_add, hcnt, hrtc]
  exact Nat.mod_eq_of_lt (by omega)

theorem rtcCmpOfCfg_ne_zero (h : cfg.rtcWakeupCmpCnt ≠ 0) : rtcCmpOfCfg cfg ≠ 0 := by
  unfold rtcCmpOfCfg
  split
  · rename_i hlate
    have hdelay : UInt64.ofNat pdsWakeupDelayCnt ≤ cfg.rtcWakeupCmpCnt :=
      UInt64.le_iff_toNat_le.mpr (Nat.le_of_lt hlate)
    intro hzero
    have hsub := congrArg UInt64.toNat hzero
    rw [UInt64.toNat_sub_of_le _ _ hdelay] at hsub
    change cfg.rtcWakeupCmpCnt.toNat - 33 = 0 at hsub
    change 33 < cfg.rtcWakeupCmpCnt.toNat at hlate
    omega
  · exact h

theorem rtcCmpOfCfg_le : (rtcCmpOfCfg cfg).toNat ≤ cfg.rtcWakeupCmpCnt.toNat := by
  unfold rtcCmpOfCfg
  split
  · rename_i hlate
    rw [UInt64.toNat_sub_of_le]
    · exact Nat.sub_le _ _
    · exact UInt64.le_iff_toNat_le.mpr (Nat.le_of_lt hlate)
  · exact Nat.le_refl _

/-- With a count or a sleep left the comparator is what `rtc_wakeup_init` makes it. -/
theorem armWakeup_rtc {cmp rtcSleep : UInt64} (tim : Bool) (r : Readings) (pdsSleep : UInt32)
    (h : cmp ≠ 0 ∨ rtcSleep ≠ 0) :
    ∃ e, armWakeup tim r cmp rtcSleep pdsSleep = some e ∧ e.rtc = rtcWakeupInit r cmp rtcSleep := by
  cases tim with
  | true =>
    rw [armWakeup, if_pos ⟨rfl, h⟩]
    exact ⟨_, rfl, rfl⟩
  | false =>
    rw [armWakeup, if_neg (fun h => Bool.noConfusion h.1), if_neg Bool.noConfusion, if_pos h]
    exact ⟨_, rfl, rfl⟩

/-! ## Every configuration -/

/-- A count is asked for. -/
theorem armed_count_iff (hcmp : cfg.rtcWakeupCmpCnt ≠ 0) (p : Iot2lpPara) (r : Readings) :
    ∃ e, blLpFwEnter cfg p r = .ok (some e) ∧
      (WakeupArmed cfg r e ↔ RequestKept cfg r.wakeBits) := by
  have haccepted : Accepted cfg := fun h => hcmp h.2.1
  have hne := rtcCmpOfCfg_ne_zero hcmp
  have hsleep : (if r.wakeBits then 2000 else rtcSleepUs cfg p r) = 0 ↔
      ¬ (cfg.rtcTimeoutUs ≠ 0 ∨ r.wakeBits) := by
    cases hbits : r.wakeBits with
    | true => simp
    | false =>
      have hsame : rtcSleepUs cfg p r = cfg.rtcTimeoutUs := by
        simp [rtcSleepUs, rtcMinimumLimit, avoidCollision, rtcSleepOfCfg, hcmp]
      simp [hsame]
  have hkept : RequestKept cfg r.wakeBits ↔ cfg.rtcTimeoutUs ≠ 0 ∨ r.wakeBits := by
    rw [RequestKept, if_pos hcmp]
  rw [blLpFwEnter, if_pos haccepted, hkept]
  obtain ⟨e, hentry, he⟩ := armWakeup_rtc cfg.timWakeupEn r
    (if r.wakeBits then 2000 else pdsSleepUs cfg p r) (.inl hne : rtcCmpOfCfg cfg ≠ 0 ∨
      (if r.wakeBits then 2000 else rtcSleepUs cfg p r) ≠ 0)
  refine ⟨e, congrArg Except.ok hentry, ?_⟩
  by_cases hzero : (if r.wakeBits then 2000 else rtcSleepUs cfg p r) = 0
  · rw [rtcWakeupInit, if_pos hzero] at he
    refine iff_of_false (fun harmed => ?_) (hsleep.mp hzero)
    have hsome := harmed.asked.mpr (.inr hcmp)
    rw [he] at hsome
    cases hsome
  · rw [rtcWakeupInit, if_neg hzero, if_neg hne] at he
    refine iff_of_true ⟨?_, ?_, ?_⟩ (not_not.mp fun h => hzero (hsleep.mpr h))
    · rw [he]
      exact iff_of_true rfl (.inr hcmp)
    · intro cnt hcnt
      rw [he] at hcnt
      cases hcnt
      rw [requestedCnt, if_pos hcmp]
      exact rtcCmpOfCfg_le
    · rw [he]
      exact .inl rfl

/-- A time is asked for, or nothing but the beacons. -/
theorem armed_time_iff (hcmp : cfg.rtcWakeupCmpCnt = 0) (haccepted : Accepted cfg) (p : Iot2lpPara)
    (r : Readings) :
    ∃ e, blLpFwEnter cfg p r = .ok (some e) ∧
      (WakeupArmed cfg r e ↔ RequestKept cfg r.wakeBits) := by
  obtain ⟨rtc, hle, hday, hsleep⟩ := @rtcSleepUs_bounds cfg p r hcmp
  set sleep := if r.wakeBits then 2000 else rtcSleepUs cfg p r with hdef
  have hzero : rtcCmpOfCfg cfg = 0 := by
    rw [rtcCmpOfCfg, hcmp]
    rfl
  have hbounds : sleep.toNat ≤ 86400000000 ∧ 1220 ≤ sleep.toNat ∧
      (sleep.toNat * 512 / 15625 ≤ cfg.rtcTimeoutUs.toNat * 512 / 15625 ↔
        RequestKept cfg r.wakeBits) := by
    have hlimit : pdsWakeupMiniLimitUs = 1220 := rfl
    rw [RequestKept, if_neg (not_not.mpr hcmp)]
    cases hbits : r.wakeBits with
    | true =>
      have hsame : sleep.toNat = 2000 := by
        rw [hdef, hbits]
        rfl
      simp [hsame]
    | false =>
      have hsame : sleep.toNat = if rtc < 2220 then 1220 else rtc - 1000 := by
        rw [hdef, hbits]
        exact hsleep
      rw [hlimit, if_neg Bool.noConfusion]
      split at hsame <;> omega
  obtain ⟨hshort, hmin, hkept⟩ := hbounds
  have hne : sleep ≠ 0 := by
    intro h
    have hnat : sleep.toNat = 0 := congrArg UInt64.toNat h
    omega
  have hcnt := @armed_toNat r sleep hshort
  rw [blLpFwEnter, if_pos haccepted, ← hkept]
  obtain ⟨e, hentry, he⟩ := armWakeup_rtc cfg.timWakeupEn r
    (if r.wakeBits then 2000 else pdsSleepUs cfg p r) (.inr hne : rtcCmpOfCfg cfg ≠ 0 ∨ sleep ≠ 0)
  refine ⟨e, congrArg Except.ok hentry, ?_⟩
  rw [rtcWakeupInit, if_neg hne, if_pos hzero] at he
  constructor
  · intro harmed
    have htime := harmed.inTime _ he
    rw [hcnt, requestedCnt, if_neg (not_not.mpr hcmp)] at htime
    omega
  · intro htime
    refine ⟨?_, ?_, ?_⟩
    · rw [he]
      refine iff_of_true rfl (.inl fun hnone => ?_)
      have hnat : cfg.rtcTimeoutUs.toNat = 0 := congrArg UInt64.toNat hnone
      omega
    · intro cnt hsome
      rw [he] at hsome
      cases hsome
      rw [hcnt, requestedCnt, if_neg (not_not.mpr hcmp)]
      omega
    · rw [he]
      exact .inl rfl

/-- For every configuration that is accepted, with every state of the beacons: the wake-ups
are armed as asked for if and only if the configuration is one whose request is kept. -/
theorem bl_lp_fw_enter_armed_iff (cfg : BlLpFwCfg) (p : Iot2lpPara) (r : Readings)
    (haccepted : Accepted cfg) :
    ∃ e, blLpFwEnter cfg p r = .ok (some e) ∧
      (pmPdsModeEnters e.pdsCnt → (WakeupArmed cfg r e ↔ RequestKept cfg r.wakeBits)) := by
  by_cases hcmp : cfg.rtcWakeupCmpCnt = 0
  · obtain ⟨e, hentry, hiff⟩ := armed_time_iff hcmp haccepted p r
    exact ⟨e, hentry, fun _ => hiff⟩
  · obtain ⟨e, hentry, hiff⟩ := armed_count_iff hcmp p r
    exact ⟨e, hentry, fun _ => hiff⟩

/-- Beacons of 100 TU, the last one 10 ms ago. -/
def beaconsSeen : Iot2lpPara := ⟨100, 0, ⟨0, 0⟩, true, 1000000, 0, 100, 400⟩

def readAfterBeacon : Readings := ⟨33100, 33200, true, false⟩

/-- A second's sleep among the beacons. -/
theorem bl_lp_fw_enter_armed_iff_second :
    ∃ e, blLpFwEnter ⟨true, 1, 0, 1000000⟩ beaconsSeen readAfterBeacon = .ok (some e) ∧
      (pmPdsModeEnters e.pdsCnt → (WakeupArmed ⟨true, 1, 0, 1000000⟩ readAfterBeacon e ↔
        RequestKept ⟨true, 1, 0, 1000000⟩ readAfterBeacon.wakeBits)) :=
  bl_lp_fw_enter_armed_iff ⟨true, 1, 0, 1000000⟩ beaconsSeen readAfterBeacon (by decide)

/-- A count without a time: the chip goes to sleep with nothing to wake it. -/
theorem count_alone_never_armed :
    ∃ e, blLpFwEnter ⟨false, 1, 100000, 0⟩ beaconsSeen readAfterBeacon = .ok (some e) ∧
      pmPdsModeEnters e.pdsCnt ∧ ¬ WakeupArmed ⟨false, 1, 100000, 0⟩ readAfterBeacon e := by
  refine ⟨⟨none, 0⟩, by decide +kernel, .inl rfl, fun h => ?_⟩
  rcases h.timed with hrtc | hpds
  · cases hrtc
  · exact hpds rfl

end BouffaloSdk.Lp
