import BouffaloSdk.Kit.Signed
import BouffaloSdk.Sys.Bl616Lp

/-!
# The sleep to a beacon

What `bl_lp_fw_enter` computes in words of 32 bits, against the same times as integers: where
none of them wraps, and what the timer is set to.
-/

namespace BouffaloSdk.Lp

open Kit.Signed

/-- The times of the beacons in microseconds; `ppm` is the error of the clock and `jitter` what is
allowed for it, both in parts per million. -/
structure BeaconTimes where
  interval : ℤ
  period : ℤ
  last : ℤ
  now : ℤ
  ppm : ℤ
  window : ℤ
  jitter : ℤ

namespace BeaconTimes

variable (t : BeaconTimes)

/-- What the clock is off after so long. -/
def error (us : ℤ) : ℤ := (us * t.ppm).tdiv 1000000

/-- From the last beacon to the one that is expected: a period later, or the next one there is. -/
def expected : ℤ :=
  if t.now < t.last + t.period then t.period
  else ((t.now - t.last) / t.interval + 1) * t.interval

/-- A beacon within 10 ms is left out. -/
def TooNear : Prop := t.last + t.expected - t.now ≤ 10000

instance decidableTooNear : Decidable t.TooNear := inferInstanceAs (Decidable (_ ≤ _))

def aimed : ℤ := if t.TooNear then t.expected + t.interval else t.expected

def aimedError : ℤ :=
  if t.TooNear then t.error t.expected + t.error t.interval else t.error t.expected

def toBeacon : ℤ := t.last + t.aimed - t.now

def compensated : ℤ := max 0 (t.toBeacon + t.aimedError)

def extended : ℤ := max 0 (t.compensated - t.window)

def beforeSleep : ℤ := if 1000 < t.extended then t.extended - 1000 else t.extended

def jitterError : ℤ := ((t.now - t.last + t.beforeSleep) * t.jitter).tdiv 1000000

def withoutJitter : ℤ := max 0 (t.beforeSleep - min 2000 t.jitterError)

/-- The minimum applies. -/
def AtMinimum : Prop := t.withoutJitter < 2220

instance decidableAtMinimum : Decidable t.AtMinimum := inferInstanceAs (Decidable (_ < _))

def sleep : ℤ := if t.AtMinimum then 1220 else t.withoutJitter - 1000

/-- When the beacon that is waited for is there by the clock. -/
def compensatedTime : ℤ := t.last + t.aimed + t.error t.aimed

end BeaconTimes

/-- The number of beacons to a period. -/
def periodBeacons (cfg : BlLpFwCfg) (p : Iot2lpPara) : ℕ :=
  if p.continuousLossCnt = 0 then if cfg.dtimNum ≠ 0 then cfg.dtimNum.toNat else 10
  else p.bcnLossCfg.dtimNum.toNat

/-- The times that the configuration, the state of the beacons and the readings stand for. -/
def beaconTimes (cfg : BlLpFwCfg) (p : Iot2lpPara) (r : Readings) : BeaconTimes where
  interval := p.beaconIntervalTu.toNat * 1024
  period := periodBeacons cfg p * (p.beaconIntervalTu.toNat * 1024)
  last := p.lastBeaconStampRtcUs.toNat - p.lastBeaconDelayUs.toInt
  now := (pdsCntToUs (rtcCnt r.rtcNow)).toNat
  ppm := p.rtc32kErrorPpm.toInt
  window := if p.continuousLossCnt = 0 then 0 else p.bcnLossCfg.winExtendStartUs.toInt
  jitter := if r.xtal32k then 400 else 1200

/-! ## The values in words -/

section words

variable (cfg : BlLpFwCfg) (p : Iot2lpPara) (r : Readings)

def rtcNowUs : UInt64 := pdsCntToUs (rtcCnt r.rtcNow)

def nextBeacon : UInt32 × Int32 := toNextBeacon p (dtimPeriodUs cfg p) (rtcNowUs r)

def aimedBeacon : UInt32 × Int32 := skipNearBeacon p (nextBeacon cfg p r)

def compensatedSleep : UInt32 := compensateError (aimedBeacon cfg p r)

def extendedSleep : UInt32 := extendWindow p (compensatedSleep cfg p r)

def sleepBefore : UInt32 := beforeSleep cfg (extendedSleep cfg p r)

/-- `total_error` as it is first assigned. -/
def assignedError : UInt32 :=
  (errorPart ((rtcNowUs r - lastBeaconRtcUs p) + (sleepBefore cfg p r).toUInt64)
    (jitterErrorPpm cfg p r.xtal32k)).toUInt64.toUInt32

/-- No value of 32 bits wraps: each is the integer it is meant to be. -/
structure NoWrap : Prop where
  interval : ((beaconIntervalUs p).toNat : ℤ) = (beaconTimes cfg p r).interval
  period : ((dtimPeriodUs cfg p).toNat : ℤ) = (beaconTimes cfg p r).period
  next : ((nextBeacon cfg p r).1.toNat : ℤ) =
    (beaconTimes cfg p r).last + (beaconTimes cfg p r).expected - (beaconTimes cfg p r).now
  nextError : (nextBeacon cfg p r).2.toInt =
    (beaconTimes cfg p r).error (beaconTimes cfg p r).expected
  aimed : ((aimedBeacon cfg p r).1.toNat : ℤ) = (beaconTimes cfg p r).toBeacon
  aimedError : (aimedBeacon cfg p r).2.toInt = (beaconTimes cfg p r).aimedError
  negated : (-(aimedBeacon cfg p r).2).toInt = -(beaconTimes cfg p r).aimedError
  compensated : ((compensatedSleep cfg p r).toNat : ℤ) = (beaconTimes cfg p r).compensated
  extended : ((extendedSleep cfg p r).toNat : ℤ) = (beaconTimes cfg p r).extended
  before : ((sleepBefore cfg p r).toNat : ℤ) = (beaconTimes cfg p r).beforeSleep
  jitter : ((assignedError cfg p r).toNat : ℤ) = (beaconTimes cfg p r).jitterError
  sleep : ((pdsSleepUs cfg p r).toNat : ℤ) = (beaconTimes cfg p r).sleep

/-- The timer is set to the time to sleep, which is not below the minimum and, above it, not
later than the beacon. Inputs that are pending make it 2 ms. -/
structure TimerSet (e : PdsEntry) : Prop where
  count : e.pdsCnt.toNat =
    (if r.wakeBits then 2000 else (pdsSleepUs cfg p r).toNat) * 32768 / 1000000
  notEarly : r.wakeBits = false → 1220 * 32768 / 1000000 ≤ e.pdsCnt.toNat
  notLate : r.wakeBits = false → (beaconTimes cfg p r).AtMinimum ∨
    (beaconTimes cfg p r).now * 32768 + e.pdsCnt.toNat * 1000000 ≤
      (beaconTimes cfg p r).compensatedTime * 32768

/-- What is asked of the sleep to a beacon. -/
def BeaconSleepRight : Prop :=
  NoWrap cfg p r ∧ ∃ e, blLpFwEnter cfg p r = .ok (some e) ∧ TimerSet cfg p r e

/-- Beacons of 20 to 1000 TU and a count of up to 255, a clock within 5000 ppm, and a last beacon
before now. -/
structure BeaconsKnown : Prop where
  tim : cfg.timWakeupEn = true
  interval : 20 ≤ p.beaconIntervalTu.toNat ∧ p.beaconIntervalTu.toNat ≤ 1000
  level : p.continuousLossCnt ≠ 0 →
    1 ≤ p.bcnLossCfg.dtimNum.toNat ∧ p.bcnLossCfg.dtimNum.toNat ≤ 255
  ppm : -5000 ≤ p.rtc32kErrorPpm.toInt ∧ p.rtc32kErrorPpm.toInt ≤ 5000
  valid : p.lastBeaconStampRtcValid = true
  stamp : 0 ≤ (beaconTimes cfg p r).last ∧ (beaconTimes cfg p r).last ≤ (beaconTimes cfg p r).now

/-- The window is not extended backwards, the errors fit in their words, and unless inputs are
pending the beacon is less than 2^23 us away, what is taken off for it apart. -/
structure SleepFits : Prop where
  window : 0 ≤ (beaconTimes cfg p r).window
  error : InInt32 ((beaconTimes cfg p r).error (beaconTimes cfg p r).expected)
  aimedError : InInt32 (beaconTimes cfg p r).aimedError
  negated : InInt32 (-(beaconTimes cfg p r).aimedError)
  jitter : (beaconTimes cfg p r).jitterError < 2 ^ 32
  count : r.wakeBits = true ∨
    (beaconTimes cfg p r).toBeacon + (beaconTimes cfg p r).aimedError - (beaconTimes cfg p r).window <
      2 ^ 23 + 2000 + min 2000 (beaconTimes cfg p r).jitterError

end words

variable {cfg : BlLpFwCfg} {p : Iot2lpPara} {r : Readings}

/-! ## Parts per million -/

/-- In 64 bits the product does not wrap. -/
theorem errorPart_toInt {us : UInt64} {ppm : Int32} (hus : us.toNat < 2 ^ 50)
    (hlo : -5000 ≤ ppm.toInt) (hhi : ppm.toInt ≤ 5000) :
    (errorPart us ppm).toInt = ((us.toNat : ℤ) * ppm.toInt).tdiv 1000000 := by
  have hupper : (us.toNat : ℤ) * ppm.toInt ≤ us.toNat * 5000 :=
    Int.mul_le_mul_of_nonneg_left hhi (by omega)
  have hlower : (us.toNat : ℤ) * (-5000) ≤ us.toNat * ppm.toInt :=
    Int.mul_le_mul_of_nonneg_left hlo (by omega)
  rw [errorPart, Int64.toInt_div_of_ne_right _ _ (by decide), Int64.toInt_mul, Int32.toInt_toInt64,
    toInt_toInt64 (by omega), bmod64_eq (by omega) (by omega)]
  rfl

theorem error_bounds {us ppm : ℤ} (hus : 0 ≤ us) (hlo : -5000 ≤ ppm) (hhi : ppm ≤ 5000) :
    -us ≤ 200 * (us * ppm).tdiv 1000000 ∧ 200 * (us * ppm).tdiv 1000000 ≤ us := by
  have hupper : us * ppm ≤ us * 5000 := Int.mul_le_mul_of_nonneg_left hhi hus
  have hlower : us * (-5000) ≤ us * ppm := Int.mul_le_mul_of_nonneg_left hlo hus
  rw [tdiv_million]
  split <;> omega

/-! ## The times in range -/

theorem BeaconsKnown.interval_bounds (h : BeaconsKnown cfg p r) :
    20480 ≤ (beaconTimes cfg p r).interval ∧ (beaconTimes cfg p r).interval ≤ 1024000 := by
  have hinterval := h.interval
  change _ ≤ (p.beaconIntervalTu.toNat : ℤ) * 1024 ∧ (p.beaconIntervalTu.toNat : ℤ) * 1024 ≤ _
  omega

theorem BeaconsKnown.periodBeacons_bounds (h : BeaconsKnown cfg p r) :
    1 ≤ periodBeacons cfg p ∧ periodBeacons cfg p ≤ 255 := by
  rw [periodBeacons]
  split
  · split
    · rename_i hdtim
      have hlt := cfg.dtimNum.toNat_lt
      have hpos : cfg.dtimNum.toNat ≠ 0 := fun hzero => hdtim (UInt8.toNat_inj.mp hzero)
      omega
    · omega
  · rename_i hlost
    exact h.level hlost

theorem BeaconsKnown.period_bounds (h : BeaconsKnown cfg p r) :
    20480 ≤ (beaconTimes cfg p r).period ∧ (beaconTimes cfg p r).period ≤ 261120000 := by
  obtain ⟨hlo, hhi⟩ := h.interval_bounds
  obtain ⟨hone, hmost⟩ := h.periodBeacons_bounds
  have hupper : (periodBeacons cfg p : ℤ) * (beaconTimes cfg p r).interval ≤
      255 * (beaconTimes cfg p r).interval := Int.mul_le_mul_of_nonneg_right (by omega) (by omega)
  have hlower : 1 * (beaconTimes cfg p r).interval ≤
      periodBeacons cfg p * (beaconTimes cfg p r).interval :=
    Int.mul_le_mul_of_nonneg_right (by omega) (by omega)
  change _ ≤ (periodBeacons cfg p : ℤ) * (beaconTimes cfg p r).interval ∧ _
  change _ ∧ (periodBeacons cfg p : ℤ) * (beaconTimes cfg p r).interval ≤ _
  omega

theorem now_lt (cfg : BlLpFwCfg) (p : Iot2lpPara) (r : Readings) :
    0 ≤ (beaconTimes cfg p r).now ∧ (beaconTimes cfg p r).now < 2 ^ 45 := by
  have hcnt := pdsCntToUs_rtcCnt r.rtcNow
  have hlt : r.rtcNow.toNat < 2 ^ 40 := r.rtcNow.isLt
  change 0 ≤ ((pdsCntToUs (rtcCnt r.rtcNow)).toNat : ℤ) ∧ _
  change _ ∧ ((pdsCntToUs (rtcCnt r.rtcNow)).toNat : ℤ) < _
  omega

/-- The next beacon there is, as the time to it. -/
theorem expected_eq (t : BeaconTimes) :
    t.last + t.expected - t.now =
      if t.now < t.last + t.period then t.last + t.period - t.now
      else t.interval - (t.now - t.last) % t.interval := by
  rw [BeaconTimes.expected]
  split
  · rfl
  · have hdiv := Int.mul_ediv_add_emod (t.now - t.last) t.interval
    rw [Int.add_mul, Int.mul_comm (_ / _)]
    omega

theorem BeaconsKnown.next_bounds (h : BeaconsKnown cfg p r) :
    0 < (beaconTimes cfg p r).last + (beaconTimes cfg p r).expected - (beaconTimes cfg p r).now ∧
      (beaconTimes cfg p r).last + (beaconTimes cfg p r).expected - (beaconTimes cfg p r).now ≤
        261120000 := by
  obtain ⟨hlo, hhi⟩ := h.interval_bounds
  have hperiod := h.period_bounds
  have hstamp := h.stamp
  have hpos := Int.emod_nonneg ((beaconTimes cfg p r).now - (beaconTimes cfg p r).last)
    (by omega : (beaconTimes cfg p r).interval ≠ 0)
  have hlt := Int.emod_lt_of_pos ((beaconTimes cfg p r).now - (beaconTimes cfg p r).last)
    (by omega : 0 < (beaconTimes cfg p r).interval)
  rw [expected_eq]
  split <;> omega

/-! ## The words one by one -/

theorem BeaconsKnown.interval_toNat (h : BeaconsKnown cfg p r) :
    ((beaconIntervalUs p).toNat : ℤ) = (beaconTimes cfg p r).interval := by
  have hinterval := h.interval
  rw [beaconIntervalUs, UInt32.toNat_mul]
  change ((p.beaconIntervalTu.toNat * 1024 % 2 ^ 32 : ℕ) : ℤ) =
    (p.beaconIntervalTu.toNat : ℤ) * 1024
  omega

theorem dtimPeriodUs_eq (cfg : BlLpFwCfg) (p : Iot2lpPara) :
    dtimPeriodUs cfg p = UInt32.ofNat (periodBeacons cfg p) * beaconIntervalUs p := by
  rw [dtimPeriodUs, bcnLossLevel, periodBeacons]
  by_cases hlost : p.continuousLossCnt = 0
  · rw [if_pos hlost, if_pos hlost]
    dsimp only
    split
    · congr 1
      apply UInt32.toNat_inj.mp
      have hlt := cfg.dtimNum.toNat_lt
      rw [UInt8.toNat_toUInt32, UInt32.toNat_ofNat']
      exact (Nat.mod_eq_of_lt (by omega)).symm
    · rfl
  · rw [if_neg hlost, if_neg hlost]
    dsimp only
    rw [UInt32.ofNat_toNat]

theorem BeaconsKnown.period_toNat (h : BeaconsKnown cfg p r) :
    ((dtimPeriodUs cfg p).toNat : ℤ) = (beaconTimes cfg p r).period := by
  have hinterval := h.interval_toNat
  have hperiod := h.period_bounds
  have hbeacons := h.periodBeacons_bounds
  have hmul : (beaconTimes cfg p r).period =
      (periodBeacons cfg p * (beaconIntervalUs p).toNat : ℕ) := by
    rw [Int.natCast_mul, hinterval]
    rfl
  rw [dtimPeriodUs_eq, UInt32.toNat_mul, UInt32.toNat_ofNat',
    Nat.mod_eq_of_lt (by omega : periodBeacons cfg p < 2 ^ 32), hmul]
  rw [hmul] at hperiod
  rw [Nat.mod_eq_of_lt (by omega)]

theorem BeaconsKnown.last_toNat (h : BeaconsKnown cfg p r) :
    ((lastBeaconRtcUs p).toNat : ℤ) = (beaconTimes cfg p r).last := by
  have hstamp := h.stamp
  have hnow := now_lt cfg p r
  have hlt := p.lastBeaconStampRtcUs.toNat_lt
  have hdelay := toNat_toUInt64 p.lastBeaconDelayUs.toInt64
  rw [Int32.toInt_toInt64] at hdelay
  have hlast : (beaconTimes cfg p r).last =
      p.lastBeaconStampRtcUs.toNat - p.lastBeaconDelayUs.toInt := rfl
  rw [lastBeaconRtcUs, UInt64.toNat_sub]
  omega

theorem BeaconsKnown.before_iff (h : BeaconsKnown cfg p r) :
    rtcNowUs r < lastBeaconRtcUs p + (dtimPeriodUs cfg p).toUInt64 ↔
      (beaconTimes cfg p r).now < (beaconTimes cfg p r).last + (beaconTimes cfg p r).period := by
  have hlast := h.last_toNat
  have hperiod := h.period_toNat
  have hbounds := h.period_bounds
  have hstamp := h.stamp
  have hnow := now_lt cfg p r
  have hnowNat : ((rtcNowUs r).toNat : ℤ) = (beaconTimes cfg p r).now := rfl
  rw [UInt64.lt_iff_toNat_lt, UInt64.toNat_add, UInt32.toNat_toUInt64]
  omega

/-- The first value: the time to the next beacon, as it is. -/
theorem BeaconsKnown.next_toNat (h : BeaconsKnown cfg p r) :
    ((nextBeacon cfg p r).1.toNat : ℤ) =
      (beaconTimes cfg p r).last + (beaconTimes cfg p r).expected - (beaconTimes cfg p r).now := by
  have hlast := h.last_toNat
  have hperiod := h.period_toNat
  have hinterval := h.interval_toNat
  have hbounds := h.period_bounds
  have hiBounds := h.interval_bounds
  have hstamp := h.stamp
  have hnow := now_lt cfg p r
  have hnowNat : ((rtcNowUs r).toNat : ℤ) = (beaconTimes cfg p r).now := rfl
  rw [expected_eq, nextBeacon, toNextBeacon]
  by_cases hbefore : (beaconTimes cfg p r).now <
      (beaconTimes cfg p r).last + (beaconTimes cfg p r).period
  · rw [if_pos hbefore, if_pos (h.before_iff.mpr hbefore)]
    dsimp only
    rw [UInt64.toNat_toUInt32, UInt64.toNat_sub, UInt64.toNat_add, UInt32.toNat_toUInt64]
    omega
  · rw [if_neg hbefore, if_neg (fun hlt => hbefore (h.before_iff.mp hlt))]
    dsimp only
    have hle : lastBeaconRtcUs p ≤ rtcNowUs r := UInt64.le_iff_toNat_le.mpr (by omega)
    have hmod : (((rtcNowUs r - lastBeaconRtcUs p) % (beaconIntervalUs p).toUInt64).toNat : ℤ) =
        ((beaconTimes cfg p r).now - (beaconTimes cfg p r).last) %
          (beaconTimes cfg p r).interval := by
      rw [UInt64.toNat_mod, UInt64.toNat_sub_of_le _ _ hle, UInt32.toNat_toUInt64, Int.natCast_emod,
        Int.ofNat_sub (UInt64.le_iff_toNat_le.mp hle), hlast, hinterval, hnowNat]
    have hpos := Int.emod_nonneg ((beaconTimes cfg p r).now - (beaconTimes cfg p r).last)
      (by omega : (beaconTimes cfg p r).interval ≠ 0)
    have hlt := Int.emod_lt_of_pos ((beaconTimes cfg p r).now - (beaconTimes cfg p r).last)
      (by omega : 0 < (beaconTimes cfg p r).interval)
    rw [UInt64.toNat_toUInt32, UInt64.toNat_sub, UInt32.toNat_toUInt64]
    omega

theorem BeaconsKnown.expected_bounds (h : BeaconsKnown cfg p r) :
    0 ≤ (beaconTimes cfg p r).expected ∧ (beaconTimes cfg p r).expected < 2 ^ 46 := by
  have hnext := h.next_bounds
  have hstamp := h.stamp
  have hnow := now_lt cfg p r
  omega

/-- What the error is taken of is the time from the last beacon. -/
theorem BeaconsKnown.nextError_toInt (h : BeaconsKnown cfg p r) :
    (nextBeacon cfg p r).2.toInt =
      ((beaconTimes cfg p r).error (beaconTimes cfg p r).expected).bmod (2 ^ 32) := by
  have hnext := h.next_toNat
  have hlast := h.last_toNat
  have hperiod := h.period_toNat
  have hbounds := h.period_bounds
  have hnextBounds := h.next_bounds
  have hstamp := h.stamp
  have hnow := now_lt cfg p r
  have hnowNat : ((rtcNowUs r).toNat : ℤ) = (beaconTimes cfg p r).now := rfl
  obtain ⟨us, hus, hlt, heq⟩ : ∃ us : UInt64,
      (us.toNat : ℤ) = (beaconTimes cfg p r).expected ∧ us.toNat < 2 ^ 50 ∧
      (nextBeacon cfg p r).2 = (errorPart us p.rtc32kErrorPpm).toInt32 := by
    rw [nextBeacon, toNextBeacon] at hnext ⊢
    by_cases hbefore : (beaconTimes cfg p r).now <
        (beaconTimes cfg p r).last + (beaconTimes cfg p r).period
    · rw [if_pos (h.before_iff.mpr hbefore)]
      refine ⟨(dtimPeriodUs cfg p).toUInt64, ?_, ?_, rfl⟩
      · rw [UInt32.toNat_toUInt64, hperiod, BeaconTimes.expected, if_pos hbefore]
      · rw [UInt32.toNat_toUInt64]
        omega
    · rw [if_neg (fun hlt => hbefore (h.before_iff.mp hlt))] at hnext ⊢
      dsimp only at hnext ⊢
      refine ⟨_, ?_, ?_, rfl⟩
      · rw [UInt64.toNat_sub, UInt64.toNat_add, UInt32.toNat_toUInt64]
        omega
      · rw [UInt64.toNat_sub, UInt64.toNat_add, UInt32.toNat_toUInt64]
        omega
  rw [heq, Int64.toInt_toInt32, errorPart_toInt hlt h.ppm.1 h.ppm.2, hus]
  rfl

/-! ## The beacon that is aimed at -/

theorem BeaconsKnown.tooNear_iff (h : BeaconsKnown cfg p r) :
    (nextBeacon cfg p r).1.toNat ≤ protectAfMs * 1000 ↔ (beaconTimes cfg p r).TooNear := by
  have hnext := h.next_toNat
  rw [BeaconTimes.TooNear, ← hnext]
  change _ ≤ 10000 ↔ _
  omega

theorem BeaconsKnown.aimed_bounds (h : BeaconsKnown cfg p r) :
    0 < (beaconTimes cfg p r).toBeacon ∧ (beaconTimes cfg p r).toBeacon < 2 ^ 28 := by
  have hnext := h.next_bounds
  have hinterval := h.interval_bounds
  rw [BeaconTimes.toBeacon, BeaconTimes.aimed]
  split <;> omega

theorem BeaconsKnown.aimed_toNat (h : BeaconsKnown cfg p r) :
    ((aimedBeacon cfg p r).1.toNat : ℤ) = (beaconTimes cfg p r).toBeacon := by
  have hnext := h.next_toNat
  have hinterval := h.interval_toNat
  have hbounds := h.aimed_bounds
  have hnextBounds := h.next_bounds
  have hiBounds := h.interval_bounds
  rw [BeaconTimes.toBeacon, BeaconTimes.aimed] at hbounds ⊢
  rw [aimedBeacon, skipNearBeacon]
  by_cases hnear : (beaconTimes cfg p r).TooNear
  · rw [if_pos hnear] at hbounds ⊢
    rw [if_pos (h.tooNear_iff.mpr hnear)]
    dsimp only
    rw [UInt32.toNat_add]
    omega
  · rw [if_neg hnear, if_neg (fun hle => hnear (h.tooNear_iff.mp hle)), hnext]

theorem BeaconsKnown.intervalError_toInt (h : BeaconsKnown cfg p r) :
    (errorPart (beaconIntervalUs p).toUInt64 p.rtc32kErrorPpm).toInt32.toInt =
      (beaconTimes cfg p r).error (beaconTimes cfg p r).interval := by
  have hinterval := h.interval_toNat
  have hbounds := h.interval_bounds
  have hlt := (beaconIntervalUs p).toNat_lt
  have hsmall := error_bounds (by omega : 0 ≤ (beaconTimes cfg p r).interval) h.ppm.1 h.ppm.2
  rw [Int64.toInt_toInt32, errorPart_toInt (by rw [UInt32.toNat_toUInt64]; omega) h.ppm.1 h.ppm.2,
    UInt32.toNat_toUInt64, hinterval]
  apply (bmod32_eq_iff _).mpr
  constructor <;> omega

/-- With the first error right the sum of the errors is cut to 32 bits. -/
theorem BeaconsKnown.aimedError_toInt (h : BeaconsKnown cfg p r)
    (herror : InInt32 ((beaconTimes cfg p r).error (beaconTimes cfg p r).expected)) :
    (aimedBeacon cfg p r).2.toInt = (beaconTimes cfg p r).aimedError.bmod (2 ^ 32) := by
  have hnext := h.nextError_toInt
  rw [(bmod32_eq_iff _).mpr herror] at hnext
  rw [aimedBeacon, skipNearBeacon, BeaconTimes.aimedError]
  by_cases hnear : (beaconTimes cfg p r).TooNear
  · rw [if_pos hnear, if_pos (h.tooNear_iff.mpr hnear)]
    dsimp only
    rw [Int32.toInt_add, hnext, h.intervalError_toInt]
  · rw [if_neg hnear, if_neg (fun hle => hnear (h.tooNear_iff.mp hle)), hnext,
      (bmod32_eq_iff _).mpr herror]

/-! ## From the beacon to the sleep -/

/-- An error that is added, or more than the time. -/
theorem compensateError_toNat (next : UInt32 × Int32)
    (hfits : next.1.toNat + next.2.toInt < 2 ^ 32) :
    ((compensateError next).toNat : ℤ) = max 0 (next.1.toNat + next.2.toInt) := by
  have hlo := next.2.le_toInt
  have hhi := next.2.toInt_lt
  have hadd := toNat_toUInt32 next.2
  have hneg := toNat_toUInt32 (-next.2)
  rw [Int32.toInt_neg, Int.bmod_eq_emod] at hneg
  have hlt := next.1.toNat_lt
  have hsub : ((-next.2).toUInt32.toNat : ℤ) = (-next.2.toInt) % 2 ^ 32 := by
    rw [hneg]
    split <;> omega
  have hcond : 0 < next.2 ∨ (-next.2).toUInt32 < next.1 ↔
      0 < next.2.toInt ∨ ((-next.2).toUInt32.toNat : ℤ) < next.1.toNat := by
    rw [Int32.lt_iff_toInt_lt, UInt32.lt_iff_toNat_lt, Int.ofNat_lt]
    rfl
  rw [compensateError]
  split
  · rename_i htaken
    rw [hcond] at htaken
    rw [UInt32.toNat_add]
    omega
  · rename_i hlong
    rw [hcond] at hlong
    rw [show (0 : UInt32).toNat = 0 from rfl]
    omega

/-- Within the errors of 32 bits the sum does not wrap. -/
theorem BeaconsKnown.compensated_toNat (h : BeaconsKnown cfg p r)
    (haimed : (aimedBeacon cfg p r).2.toInt = (beaconTimes cfg p r).aimedError) :
    ((compensatedSleep cfg p r).toNat : ℤ) = (beaconTimes cfg p r).compensated := by
  have hsleep := h.aimed_toNat
  have hbounds := h.aimed_bounds
  have hlt := (aimedBeacon cfg p r).2.toInt_lt
  rw [compensatedSleep, compensateError_toNat _ (by omega), hsleep, haimed]
  rfl

/-- The window counts as what it is if it is not extended backwards. -/
theorem extended_toNat_iff
    (hcomp : ((compensatedSleep cfg p r).toNat : ℤ) = (beaconTimes cfg p r).compensated) :
    ((extendedSleep cfg p r).toNat : ℤ) = (beaconTimes cfg p r).extended ↔
      0 ≤ (beaconTimes cfg p r).window := by
  have hnonneg : 0 ≤ (beaconTimes cfg p r).compensated := Int.le_max_left 0 _
  have hlt := (compensatedSleep cfg p r).toNat_lt
  by_cases hlost : p.continuousLossCnt = 0
  · have hwindow : (beaconTimes cfg p r).window = 0 := if_pos hlost
    have hsame : extendedSleep cfg p r = compensatedSleep cfg p r := by
      rw [extendedSleep, extendWindow, bcnLossLevel, if_pos hlost]
    rw [hsame, hcomp, BeaconTimes.extended, hwindow]
    omega
  · have hwindow : (beaconTimes cfg p r).window = p.bcnLossCfg.winExtendStartUs.toInt := if_neg hlost
    have hsame : extendedSleep cfg p r =
        if p.bcnLossCfg.winExtendStartUs.toUInt32 < compensatedSleep cfg p r then
          compensatedSleep cfg p r - p.bcnLossCfg.winExtendStartUs.toUInt32 else 0 := by
      rw [extendedSleep, extendWindow, bcnLossLevel, if_neg hlost]
    have hword := toNat_toUInt32 p.bcnLossCfg.winExtendStartUs
    have hlo := p.bcnLossCfg.winExtendStartUs.le_toInt
    have hhi := p.bcnLossCfg.winExtendStartUs.toInt_lt
    rw [hsame, BeaconTimes.extended, hwindow, ← hcomp]
    split
    · rename_i hless
      have hnat := UInt32.lt_iff_toNat_lt.mp hless
      rw [UInt32.toNat_sub_of_le _ _ (UInt32.le_of_lt hless)]
      omega
    · rename_i hmore
      have hnat : ¬ _ := fun hlt => hmore (UInt32.lt_iff_toNat_lt.mpr hlt)
      rw [show (0 : UInt32).toNat = 0 from rfl]
      omega

theorem BeaconsKnown.before_toNat (h : BeaconsKnown cfg p r)
    (hext : ((extendedSleep cfg p r).toNat : ℤ) = (beaconTimes cfg p r).extended) :
    ((sleepBefore cfg p r).toNat : ℤ) = (beaconTimes cfg p r).beforeSleep := by
  have hcond : cfg.timWakeupEn = true ∧ 1000 < extendedSleep cfg p r ↔
      1000 < (beaconTimes cfg p r).extended := by
    rw [and_iff_right h.tim, UInt32.lt_iff_toNat_lt, ← hext]
    change 1000 < _ ↔ _
    omega
  rw [sleepBefore, beforeSleep, BeaconTimes.beforeSleep]
  by_cases hlong : 1000 < (beaconTimes cfg p r).extended
  · have hle : 1000 ≤ extendedSleep cfg p r := UInt32.le_of_lt (hcond.mpr hlong).2
    rw [if_pos hlong, if_pos (hcond.mpr hlong), UInt32.toNat_sub_of_le _ _ hle, ← hext]
    change ((_ - 1000 : ℕ) : ℤ) = _
    omega
  · rw [if_neg hlong, if_neg (fun hlt => hlong (hcond.mp hlt)), hext]

theorem jitter_bounds (cfg : BlLpFwCfg) (p : Iot2lpPara) (r : Readings) :
    (beaconTimes cfg p r).jitter = 400 ∨ (beaconTimes cfg p r).jitter = 1200 := by
  change (if r.xtal32k then (400 : ℤ) else 1200) = 400 ∨
    (if r.xtal32k then (400 : ℤ) else 1200) = 1200
  cases r.xtal32k with
  | true => exact .inl rfl
  | false => exact .inr rfl

theorem BeaconsKnown.jitterError_nonneg (h : BeaconsKnown cfg p r)
    (hbefore : ((sleepBefore cfg p r).toNat : ℤ) = (beaconTimes cfg p r).beforeSleep) :
    0 ≤ (beaconTimes cfg p r).jitterError := by
  have hstamp := h.stamp
  rw [BeaconTimes.jitterError, tdiv_million, if_pos]
  · rcases jitter_bounds cfg p r with heq | heq <;> rw [heq] <;> omega
  · rcases jitter_bounds cfg p r with heq | heq <;> rw [heq] <;> omega

/-- The jitter's error is cut to 32 bits. -/
theorem BeaconsKnown.assigned_toNat (h : BeaconsKnown cfg p r)
    (hbefore : ((sleepBefore cfg p r).toNat : ℤ) = (beaconTimes cfg p r).beforeSleep) :
    ((assignedError cfg p r).toNat : ℤ) = (beaconTimes cfg p r).jitterError % 2 ^ 32 := by
  have hlast := h.last_toNat
  have hstamp := h.stamp
  have hnow := now_lt cfg p r
  have hnowNat : ((rtcNowUs r).toNat : ℤ) = (beaconTimes cfg p r).now := rfl
  have hlt := (sleepBefore cfg p r).toNat_lt
  have hnonneg := h.jitterError_nonneg hbefore
  have hle : lastBeaconRtcUs p ≤ rtcNowUs r := UInt64.le_iff_toNat_le.mpr (by omega)
  have hus : (((rtcNowUs r - lastBeaconRtcUs p) + (sleepBefore cfg p r).toUInt64).toNat : ℤ) =
      (beaconTimes cfg p r).now - (beaconTimes cfg p r).last + (beaconTimes cfg p r).beforeSleep := by
    rw [UInt64.toNat_add, UInt64.toNat_sub_of_le _ _ hle, UInt32.toNat_toUInt64]
    omega
  have hjitter : (jitterErrorPpm cfg p r.xtal32k).toInt = (beaconTimes cfg p r).jitter := by
    rw [jitterErrorPpm, if_pos h.tim]
    change _ = if r.xtal32k then (400 : ℤ) else 1200
    split <;> rfl
  have hppm := jitter_bounds cfg p r
  have hword := toNat_toUInt64 (errorPart
    ((rtcNowUs r - lastBeaconRtcUs p) + (sleepBefore cfg p r).toUInt64)
    (jitterErrorPpm cfg p r.xtal32k))
  rw [errorPart_toInt (by omega) (by omega) (by omega), hus, hjitter] at hword
  change _ = (beaconTimes cfg p r).jitterError % 2 ^ 64 at hword
  rw [assignedError, UInt64.toNat_toUInt32]
  omega

/-- The rest of the way: the jitter of 2 ms at most, the minimum, and the time to wake up. -/
theorem BeaconsKnown.pdsSleepUs_toNat (h : BeaconsKnown cfg p r)
    (hbefore : ((sleepBefore cfg p r).toNat : ℤ) = (beaconTimes cfg p r).beforeSleep)
    (hassigned : ((assignedError cfg p r).toNat : ℤ) = (beaconTimes cfg p r).jitterError) :
    ((pdsSleepUs cfg p r).toNat : ℤ) = (beaconTimes cfg p r).sleep := by
  have hsleep : beforeSleep cfg (pdsSleepToBeacon cfg p (rtcNowUs r)) = sleepBefore cfg p r := by
    rw [pdsSleepToBeacon, if_pos h.valid]
    rfl
  have htotal : totalError cfg p r.xtal32k (rtcNowUs r) (sleepBefore cfg p r) =
      if 2 * 1000 < assignedError cfg p r then 2 * 1000 else assignedError cfg p r := by
    rw [totalError, if_pos h.valid]
    rfl
  have hcapped : ((totalError cfg p r.xtal32k (rtcNowUs r) (sleepBefore cfg p r)).toNat : ℤ) =
      min 2000 (beaconTimes cfg p r).jitterError := by
    rw [htotal, ← hassigned]
    split
    · rename_i hmore
      have hnat := UInt32.lt_iff_toNat_lt.mp hmore
      change 2000 < _ at hnat
      change (2000 : ℤ) = _
      omega
    · rename_i hless
      have hnat : ¬ _ := fun hlt => hless (UInt32.lt_iff_toNat_lt.mpr hlt)
      change ¬ 2000 < _ at hnat
      omega
  have hwithout : ((withoutJitter (totalError cfg p r.xtal32k (rtcNowUs r) (sleepBefore cfg p r))
      (sleepBefore cfg p r)).toNat : ℤ) = (beaconTimes cfg p r).withoutJitter := by
    rw [Lp.withoutJitter, BeaconTimes.withoutJitter, ← hcapped, ← hbefore]
    split
    · rename_i hless
      rw [UInt32.toNat_sub_of_le _ _ (UInt32.le_of_lt hless)]
      have hnat := UInt32.lt_iff_toNat_lt.mp hless
      omega
    · rename_i hmore
      have hnat : ¬ _ := fun hlt => hmore (UInt32.lt_iff_toNat_lt.mpr hlt)
      rw [show (0 : UInt32).toNat = 0 from rfl]
      omega
  have hwhole : pdsSleepUs cfg p r = pdsMinimumLimit
      (withoutJitter (totalError cfg p r.xtal32k (rtcNowUs r) (sleepBefore cfg p r))
        (sleepBefore cfg p r)) := by
    rw [← hsleep]
    rfl
  have hlimit : pdsWakeupMiniLimitUs + pdsWakeupDelayUs = 2220 := rfl
  rw [hwhole, pdsMinimumLimit, BeaconTimes.sleep, hlimit]
  by_cases hshort : (beaconTimes cfg p r).AtMinimum
  · have hlt : (beaconTimes cfg p r).withoutJitter < 2220 := hshort
    rw [if_pos hshort, if_pos (by omega)]
    rfl
  · have hlong : ¬ (beaconTimes cfg p r).withoutJitter < 2220 := hshort
    rw [if_neg hshort, if_neg (by omega), UInt32.toNat_sub_of_le]
    · change ((_ - 1000 : ℕ) : ℤ) = _
      omega
    · apply UInt32.le_iff_toNat_le.mpr
      change 1000 ≤ _
      omega

/-- No value wraps exactly where the errors fit in their words. -/
theorem BeaconsKnown.noWrap_iff (h : BeaconsKnown cfg p r) :
    NoWrap cfg p r ↔
      0 ≤ (beaconTimes cfg p r).window ∧
        InInt32 ((beaconTimes cfg p r).error (beaconTimes cfg p r).expected) ∧
        InInt32 (beaconTimes cfg p r).aimedError ∧ InInt32 (-(beaconTimes cfg p r).aimedError) ∧
        (beaconTimes cfg p r).jitterError < 2 ^ 32 := by
  have hnegated (haimed : (aimedBeacon cfg p r).2.toInt = (beaconTimes cfg p r).aimedError) :
      (-(aimedBeacon cfg p r).2).toInt = (-(beaconTimes cfg p r).aimedError).bmod (2 ^ 32) := by
    rw [Int32.toInt_neg, haimed]
  constructor
  · intro hright
    have herror := (bmod32_eq_iff _).mp (h.nextError_toInt.symm.trans hright.nextError)
    refine ⟨(extended_toNat_iff hright.compensated).mp hright.extended, herror,
      (bmod32_eq_iff _).mp ((h.aimedError_toInt herror).symm.trans hright.aimedError),
      (bmod32_eq_iff _).mp ((hnegated hright.aimedError).symm.trans hright.negated), ?_⟩
    have hlt := (assignedError cfg p r).toNat_lt
    have hjitter := hright.jitter
    omega
  · rintro ⟨hwindow, herror, haimed, hneg, hjitter⟩
    have haimedError := (h.aimedError_toInt herror).trans ((bmod32_eq_iff _).mpr haimed)
    have hcomp := h.compensated_toNat haimedError
    have hext := (extended_toNat_iff hcomp).mpr hwindow
    have hbefore := h.before_toNat hext
    have hassigned : ((assignedError cfg p r).toNat : ℤ) = (beaconTimes cfg p r).jitterError := by
      rw [h.assigned_toNat hbefore]
      exact Int.emod_eq_of_lt (h.jitterError_nonneg hbefore) hjitter
    exact
      { interval := h.interval_toNat
        period := h.period_toNat
        next := h.next_toNat
        nextError := h.nextError_toInt.trans ((bmod32_eq_iff _).mpr herror)
        aimed := h.aimed_toNat
        aimedError := haimedError
        negated := (hnegated haimedError).trans ((bmod32_eq_iff _).mpr hneg)
        compensated := hcomp
        extended := hext
        before := hbefore
        jitter := hassigned
        sleep := h.pdsSleepUs_toNat hbefore hassigned }

/-! ## What the timer is set to -/

theorem usToPdsCnt32_iff (us : UInt32) :
    (usToPdsCnt32 us).toNat = us.toNat * 32768 / 1000000 ↔ us.toNat < 2 ^ 23 := by
  have hlt := us.toNat_lt
  rw [usToPdsCnt32, UInt32.toNat_div, UInt32.toNat_mul]
  change us.toNat * 512 % 2 ^ 32 / 15625 = _ ↔ _
  omega

theorem BeaconsKnown.entry (h : BeaconsKnown cfg p r) :
    ∃ rtc, blLpFwEnter cfg p r =
      .ok (some ⟨rtc, usToPdsCnt32 (if r.wakeBits then 2000 else pdsSleepUs cfg p r)⟩) := by
  have haccepted : Accepted cfg := fun hnone => Bool.noConfusion (hnone.1.symm.trans h.tim)
  rw [blLpFwEnter, if_pos haccepted, armWakeup]
  by_cases hrtc : cfg.timWakeupEn = true ∧
      (rtcCmpOfCfg cfg ≠ 0 ∨ (if r.wakeBits then 2000 else rtcSleepUs cfg p r) ≠ 0)
  · rw [if_pos hrtc]
    exact ⟨_, rfl⟩
  · rw [if_neg hrtc, if_pos h.tim]
    exact ⟨_, rfl⟩

/-- Above the minimum the sleep ends before the beacon is there. -/
theorem BeaconTimes.sleep_le (t : BeaconTimes) (hwindow : 0 ≤ t.window)
    (hjitter : 0 ≤ t.jitterError) (hmin : ¬ t.AtMinimum) : t.now + t.sleep ≤ t.compensatedTime := by
  have hmore : 2220 ≤ t.withoutJitter := Int.not_lt.mp hmin
  have hcut : t.aimedError ≤ t.error t.aimed + 1 := by
    rw [aimedError, aimed]
    split
    · rw [error, error, error, Int.add_mul]
      exact tdiv_add_le _ _
    · omega
  have hbefore : t.beforeSleep ≤ t.extended := by
    rw [beforeSleep]
    split <;> omega
  rw [sleep, if_neg hmin, compensatedTime]
  simp only [withoutJitter, extended, compensated, toBeacon] at hmore hbefore ⊢
  omega

/-- The least there is. -/
theorem BeaconTimes.minimum_le_sleep (t : BeaconTimes) : 1220 ≤ t.sleep := by
  rw [sleep]
  by_cases hmin : t.AtMinimum
  · rw [if_pos hmin]
  · have hmore : 2220 ≤ t.withoutJitter := Int.not_lt.mp hmin
    rw [if_neg hmin]
    omega

theorem BeaconTimes.sleep_lt_iff (t : BeaconTimes) (hwindow : 0 ≤ t.window)
    (hjitter : 0 ≤ t.jitterError) :
    t.sleep < 2 ^ 23 ↔
      t.toBeacon + t.aimedError - t.window < 2 ^ 23 + 2000 + min 2000 t.jitterError := by
  have hbefore : t.beforeSleep = if 1000 < t.extended then t.extended - 1000 else t.extended := rfl
  have hwithout : t.withoutJitter = max 0 (t.beforeSleep - min 2000 t.jitterError) := rfl
  have hextended : t.extended = max 0 (max 0 (t.toBeacon + t.aimedError) - t.window) := rfl
  have hsleep : t.sleep = if t.withoutJitter < 2220 then 1220 else t.withoutJitter - 1000 := rfl
  omega

/-- For every interval, count and error in range and every time from the last beacon on: nothing
wraps, the timer is set to the sleep, and the sleep ends between the minimum and the beacon, if
and only if the errors fit and the beacon is less than 2^23 us away. -/
theorem beacon_sleep_right_iff (h : BeaconsKnown cfg p r) :
    BeaconSleepRight cfg p r ↔ SleepFits cfg p r := by
  obtain ⟨rtc, hentry⟩ := h.entry
  have hcount (hright : NoWrap cfg p r) :
      (usToPdsCnt32 (if r.wakeBits then 2000 else pdsSleepUs cfg p r)).toNat =
          (if r.wakeBits then 2000 else (pdsSleepUs cfg p r).toNat) * 32768 / 1000000 ↔
        r.wakeBits = true ∨ (beaconTimes cfg p r).toBeacon + (beaconTimes cfg p r).aimedError -
          (beaconTimes cfg p r).window <
            2 ^ 23 + 2000 + min 2000 (beaconTimes cfg p r).jitterError := by
    have hjitter := h.jitterError_nonneg hright.before
    rw [← (beaconTimes cfg p r).sleep_lt_iff (h.noWrap_iff.mp hright).1 hjitter]
    cases r.wakeBits with
    | true => exact iff_of_true ((usToPdsCnt32_iff 2000).mpr (by decide)) (.inl rfl)
    | false =>
      have hsleep := hright.sleep
      have hiff := usToPdsCnt32_iff (pdsSleepUs cfg p r)
      refine hiff.trans ⟨fun hlt => .inr (by omega), ?_⟩
      rintro (hbits | hlt)
      · cases hbits
      · omega
  constructor
  · rintro ⟨hright, e, hsome, hset⟩
    obtain ⟨hwindow, herror, haimed, hneg, hjitter⟩ := h.noWrap_iff.mp hright
    rw [hentry] at hsome
    cases hsome
    exact ⟨hwindow, herror, haimed, hneg, hjitter, (hcount hright).mp hset.count⟩
  · intro hfits
    have hright := h.noWrap_iff.mpr
      ⟨hfits.window, hfits.error, hfits.aimedError, hfits.negated, hfits.jitter⟩
    have hset := (hcount hright).mpr hfits.count
    have hsleep := hright.sleep
    have hjitter := h.jitterError_nonneg hright.before
    have hleast := (beaconTimes cfg p r).minimum_le_sleep
    have hawake (hbits : r.wakeBits = false) :
        (usToPdsCnt32 (if r.wakeBits then 2000 else pdsSleepUs cfg p r)).toNat =
          (pdsSleepUs cfg p r).toNat * 32768 / 1000000 := by
      rw [hset, hbits]
      rfl
    refine ⟨hright, _, hentry, hset, fun hbits => ?_, fun hbits => ?_⟩
    · rw [hawake hbits]
      exact Nat.div_le_div_right (by omega)
    · by_cases hmin : (beaconTimes cfg p r).AtMinimum
      · exact .inl hmin
      · have hle := (beaconTimes cfg p r).sleep_le hfits.window hjitter hmin
        have hdiv := Nat.div_mul_le_self ((pdsSleepUs cfg p r).toNat * 32768) 1000000
        rw [← hawake hbits] at hdiv
        refine .inr ?_
        dsimp only
        omega

theorem beaconsKnown_seen : BeaconsKnown ⟨true, 1, 0, 0⟩ beaconsSeen readAfterBeacon :=
  ⟨rfl, by decide, fun hlost => absurd rfl hlost, by decide, rfl, by decide⟩

theorem beacon_sleep_right_iff_seen :
    BeaconSleepRight ⟨true, 1, 0, 0⟩ beaconsSeen readAfterBeacon ↔
      SleepFits ⟨true, 1, 0, 0⟩ beaconsSeen readAfterBeacon :=
  beacon_sleep_right_iff beaconsKnown_seen

/-- Every tenth beacon of 1000 TU is listened to, and the last one is 10 ms ago. -/
def slowBeacons : Iot2lpPara := { beaconsSeen with beaconIntervalTu := 1000 }

/-- A sleep of 10.2 s is cut to 1.8 s. -/
theorem long_listen_wraps :
    ¬ ∀ cfg p r, BeaconsKnown cfg p r → BeaconSleepRight cfg p r := by
  intro hall
  have hknown : BeaconsKnown ⟨true, 10, 0, 60000000⟩ slowBeacons readAfterBeacon :=
    ⟨rfl, by decide, fun hlost => absurd rfl hlost, by decide, rfl, by decide +kernel⟩
  obtain ⟨-, e, hentry, hset⟩ := hall _ _ _ hknown
  have hsome : blLpFwEnter ⟨true, 10, 0, 60000000⟩ slowBeacons readAfterBeacon =
      .ok (some ⟨some 1999247, 60236⟩) := by decide +kernel
  rw [hsome] at hentry
  cases hentry
  exact absurd hset.count (by decide +kernel)

end BouffaloSdk.Lp
