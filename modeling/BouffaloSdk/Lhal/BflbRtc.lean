import BouffaloSdk.Utils.Timestamp

/-!
# The calendar of the RTC

`drivers/lhal/src/bflb_rtc.c` from `clock_utc2calendar` on. Times are from 1970 on, so the
numbers are natural ones.
-/

namespace BouffaloSdk.Rtc
open Kit.Calendar

/-- `bflb_tm`, less the `tm_yday` that nothing sets or reads. -/
structure BflbTm where
  tmSec : Nat
  tmMin : Nat
  tmHour : Nat
  tmMday : Nat
  tmMon : Nat
  tmYear : Nat
  tmWday : Nat
  deriving DecidableEq, Repr

def secPerMin : Nat := 60
def secPerHour : Nat := 60 * secPerMin
def secPerDay : Nat := 24 * secPerHour

/-- `g_noleap_daysbeforemonth`. -/
def noleapDaysbeforemonth : List Nat := [0, 31, 59, 90, 120, 151, 181, 212, 243, 273, 304, 334, 365]

def clockIsleapyear (year : Nat) : Bool :=
  if year % 400 ≠ 0 then (if year % 100 ≠ 0 then (if year % 4 ≠ 0 then false else true) else false)
  else true

def clockDaysbeforemonth (month : Nat) (leapyear : Bool) : Nat :=
  let retval := noleapDaysbeforemonth.getD month 0
  if 2 ≤ month ∧ leapyear then retval + 1 else retval

/-- The loop over the years since the epoch, with the days that remain. -/
def yearScan (value days : Nat) : Nat × Nat :=
  let tmp := if clockIsleapyear (value + 1970) then 366 else 365
  if tmp ≤ days then yearScan (value + 1) (days - tmp) else (value, days)
termination_by days
decreasing_by
  rename_i hle
  have hpos : 0 < tmp := by
    unfold tmp
    split <;> decide
  omega

/-- The search for the month, from 0 on. -/
def monthSearch (leapyear : Bool) (days min max : Nat) : Nat :=
  let value := (min + max) / 2
  if days < clockDaysbeforemonth (value + 1) leapyear then
    if days < clockDaysbeforemonth value leapyear then
      if min < value - 1 then monthSearch leapyear days min (value - 1) else min
    else value
  else if value + 1 < max then monthSearch leapyear days (value + 1) max
  else value + 1
termination_by max - min
decreasing_by all_goals omega

/-- Year, month and day of a number of days. -/
def clockUtc2calendar (days : Nat) : Nat × Nat × Nat :=
  let (value, days) := yearScan (days / (4 * 365 + 1) * 4) (days % (4 * 365 + 1))
  let leapyear := clockIsleapyear (value + 1970)
  let month := monthSearch leapyear days 0 11
  (1970 + value, month + 1, days - clockDaysbeforemonth month leapyear + 1)

/-- `__clock_calendar2utc`, the month from 0 on. -/
def clockCalendar2utc (year month day : Nat) : Nat :=
  (year - 1970) * 365 + (year - 1969) / 4 + clockDaysbeforemonth month (clockIsleapyear year) +
    (day - 1)

def getWeekDay (y m d : Nat) : Nat :=
  let y := y % 2 ^ 16
  let (y, m) := if m = 1 ∨ m = 2 then ((y + 2 ^ 16 - 1) % 2 ^ 16, m + 12) else (y, m)
  (d + 2 * m + 3 * (m + 1) / 5 + y + y / 4 - y / 100 + y / 400) % 7 + 1

/-- `__gmtime_r`. -/
def gmtimeR (timer : Nat) : BflbTm :=
  let jdn := timer / secPerDay
  let epoch := timer - secPerDay * jdn
  let hour := epoch / secPerHour
  let epoch := epoch - secPerHour * hour
  let min := epoch / secPerMin
  let (year, month, day) := clockUtc2calendar jdn
  { tmYear := year - 1900, tmMon := month - 1, tmMday := day, tmWday := getWeekDay year month day
    tmHour := hour, tmMin := min, tmSec := epoch - secPerMin * min }

/-- `__mktime`. -/
def mktime (tp : BflbTm) : Nat :=
  ((clockCalendar2utc (tp.tmYear + 1900) tp.tmMon tp.tmMday * 24 + tp.tmHour) * 60 + tp.tmMin) * 60 +
    tp.tmSec

/-- What `bflb_rtc_set_utc_time` keeps. -/
structure RtcTime where
  tm : BflbTm
  refCnt : BitVec 40

def bflbRtcSetUtcTime (time : BflbTm) (cnt : BitVec 40) : RtcTime := ⟨time, cnt⟩

/-- `bl_rtc_get_delta_counter`: the counter has wrapped where it is below the reference. -/
def blRtcGetDeltaCounter (cnt refCnt : BitVec 40) : Nat :=
  if cnt.toNat < refCnt.toNat then cnt.toNat + 0xFFFFFFFFFF + 1 - refCnt.toNat
  else cnt.toNat - refCnt.toNat

def blRtcGetDeltaTimeMs (cnt refCnt : BitVec 40) : Nat := blRtcGetDeltaCounter cnt refCnt * 1000 / 32768

def bflbRtcGetUtcTimestamp (rtc : RtcTime) (cnt : BitVec 40) : Nat :=
  blRtcGetDeltaTimeMs cnt rtc.refCnt / 1000 + mktime rtc.tm

def bflbRtcGetUtcTime (rtc : RtcTime) (cnt : BitVec 40) : BflbTm :=
  gmtimeR (blRtcGetDeltaTimeMs cnt rtc.refCnt / 1000 + mktime rtc.tm)

/-! ## The civil time it should be -/

def BflbTm.date (t : BflbTm) : Date := ⟨t.tmYear + 1900, t.tmMon + 1, t.tmMday⟩

/-- A date and a time of day that exist. -/
structure BflbTm.Valid (t : BflbTm) : Prop where
  date : t.date.Valid
  hour : t.tmHour < 24
  minute : t.tmMin < 60
  second : t.tmSec < 60

/-- The Unix time. -/
def BflbTm.instant (t : BflbTm) : Nat :=
  t.date.number * 86400 + t.tmHour * 3600 + t.tmMin * 60 + t.tmSec

/-- The day of the week, Monday as 1 and Sunday as 7. -/
def isoWeekday (number : Nat) : Nat := if weekday number = 0 then 7 else weekday number

/-- The Gregorian date, its weekday and the time of day of an instant. -/
structure IsUtcTime (instant : Nat) (t : BflbTm) : Prop where
  valid : t.date.Valid
  day : t.date.number = instant / 86400
  weekday : t.tmWday = isoWeekday t.date.number
  hour : t.tmHour = instant % 86400 / 3600
  minute : t.tmMin = instant % 3600 / 60
  second : t.tmSec = instant % 60

/-! ## Years and months -/

theorem clockIsleapyear_eq (year : Nat) : clockIsleapyear year = decide (Leap year) := by
  unfold clockIsleapyear Leap
  grind

/-- The scan counts the years of the calendar. -/
theorem yearScan_eq (value days : Nat) :
    yearScan value days =
      ((BflbTimestamp.yearLoop (1970 + value) days).1 - 1970,
        (BflbTimestamp.yearLoop (1970 + value) days).2) := by
  have hlength : ∀ value, (if clockIsleapyear (value + 1970) then 366 else 365) =
      BflbTimestamp.tempYear (1970 + value) := by
    intro value
    rw [BflbTimestamp.tempYear, clockIsleapyear_eq, BflbTimestamp.checkLeapYear_eq, Nat.add_comm]
  induction value, days using yearScan.induct with
  | case1 value days tmp hle ih =>
    have htmp : tmp = BflbTimestamp.tempYear (1970 + value) := hlength value
    rw [yearScan, BflbTimestamp.yearLoop]
    simp only [hlength]
    rw [htmp] at hle ih
    rw [if_pos hle, if_pos hle, ih, Nat.add_assoc]
  | case2 value days tmp hlt =>
    have htmp : tmp = BflbTimestamp.tempYear (1970 + value) := hlength value
    rw [yearScan, BflbTimestamp.yearLoop]
    simp only [hlength]
    rw [htmp] at hlt
    rw [if_neg hlt, if_neg hlt, Nat.add_sub_cancel_left]

theorem clockDaysbeforemonth_eq {year month : Nat} (h : month ≤ 12) :
    clockDaysbeforemonth month (clockIsleapyear year) = monthsBefore year month := by
  rw [clockIsleapyear_eq]
  by_cases hleap : Leap year
  · interval_cases month <;> simp [clockDaysbeforemonth, noleapDaysbeforemonth, monthsBefore,
      monthDays, hleap]
  · interval_cases month <;> simp [clockDaysbeforemonth, noleapDaysbeforemonth, monthsBefore,
      monthDays, hleap]

/-- The search ends in the month that holds the day. -/
theorem monthSearch_spec {leapyear : Bool} {days min max : Nat} (hle : min ≤ max)
    (hmin : clockDaysbeforemonth min leapyear ≤ days)
    (hmax : days < clockDaysbeforemonth (max + 1) leapyear) :
    monthSearch leapyear days min max ≤ max ∧
      clockDaysbeforemonth (monthSearch leapyear days min max) leapyear ≤ days ∧
      days < clockDaysbeforemonth (monthSearch leapyear days min max + 1) leapyear := by
  induction min, max using monthSearch.induct leapyear days with
  | case1 min max value hnext hhere hlt ih =>
    have hpos : value - 1 + 1 = value := by omega
    rw [monthSearch]
    simp only [show (min + max) / 2 = value from rfl, if_pos hnext, if_pos hhere, if_pos hlt]
    obtain ⟨hbelow, hrest⟩ := ih hlt.le hmin (by rw [hpos]; exact hhere)
    exact ⟨by omega, hrest⟩
  | case2 min max value hnext hhere hge =>
    rw [monthSearch]
    simp only [show (min + max) / 2 = value from rfl, if_pos hnext, if_pos hhere, if_neg hge]
    -- the day is not before `min`, so `min` is the month below the midpoint
    have hne : value ≠ min := by
      intro heq
      rw [heq] at hhere
      omega
    have hstep : min + 1 = value := by omega
    exact ⟨hle, hmin, by rw [hstep]; exact hhere⟩
  | case3 min max value hnext hhere =>
    rw [monthSearch]
    simp only [show (min + max) / 2 = value from rfl, if_pos hnext, if_neg hhere]
    exact ⟨by omega, Nat.le_of_not_lt hhere, hnext⟩
  | case4 min max value hnext hlt ih =>
    rw [monthSearch]
    simp only [show (min + max) / 2 = value from rfl, if_neg hnext, if_pos hlt]
    exact ih hlt.le (Nat.le_of_not_lt hnext) hmax
  | case5 min max value hnext hge =>
    rw [monthSearch]
    simp only [show (min + max) / 2 = value from rfl, if_neg hnext, if_neg hge]
    have hne : value ≠ max := by
      intro heq
      rw [heq] at hnext
      omega
    have hstep : value + 1 = max := by omega
    rw [hstep]
    rw [hstep] at hnext
    exact ⟨Nat.le_refl _, Nat.le_of_not_lt hnext, hmax⟩

/-- The date of a day is valid, and its number is that day up to the block of 2100 and the
day before from there on. -/
theorem clockUtc2calendar_spec {days : Nat} (hdays : days < 35 * 1461) {d : Date}
    (hd : d = ⟨(clockUtc2calendar days).1, (clockUtc2calendar days).2.1,
      (clockUtc2calendar days).2.2⟩) :
    d.Valid ∧ d.number + (if days < 33 * 1461 then 0 else 1) = days := by
  obtain ⟨hyear, hrest, hsum⟩ :=
    @BflbTimestamp.yearLoop_spec (1970 + days / 1461 * 4) (days % 1461) (by omega)
  have hblock := BflbTimestamp.daysBefore_block (show days / 1461 ≤ 34 by omega)
  have hstart : 1970 + days / 1461 * 4 - 1970 = 4 * (days / 1461) := by omega
  rw [hstart] at hsum
  unfold clockUtc2calendar at hd
  simp only [yearScan_eq, Nat.reduceMul, Nat.reduceAdd] at hd
  generalize BflbTimestamp.yearLoop (1970 + days / 1461 * 4) (days % 1461) = r at hyear hrest hsum hd
  obtain ⟨year, rest⟩ := r
  dsimp only at hyear hrest hsum hd
  have hback : year - 1970 + 1970 = year := by omega
  have hback' : 1970 + (year - 1970) = year := by omega
  rw [hback, hback'] at hd
  have hlast : rest < clockDaysbeforemonth (11 + 1) (clockIsleapyear year) := by
    rw [clockDaysbeforemonth_eq (by decide), monthsBefore_twelve]
    exact hrest
  obtain ⟨hmonth, hfrom, hto⟩ := monthSearch_spec (Nat.zero_le 11) (Nat.zero_le rest) hlast
  generalize monthSearch (clockIsleapyear year) rest 0 11 = month at hmonth hfrom hto hd
  rw [clockDaysbeforemonth_eq (by omega)] at hfrom hto hd
  have hlength : monthsBefore year (month + 1) = monthsBefore year month + monthDays year (month + 1) :=
    rfl
  subst hd
  refine ⟨⟨hyear, ?_, ?_, ?_, ?_⟩, ?_⟩
  · exact Nat.succ_pos month
  · exact Nat.succ_le_succ hmonth
  · exact Nat.succ_pos _
  · change rest - monthsBefore year month + 1 ≤ monthDays year (month + 1)
    omega
  · change daysBefore (year - 1970) + monthsBefore year month + (rest - monthsBefore year month + 1 - 1) +
      _ = days
    split at hblock <;> split <;> omega

/-! ## The conversions -/

variable {tm : BflbTm}

/-- The leap days of the shifted years: one too many for every century year since 2100 that
is no leap year. -/
theorem clockCalendar2utc_eq (h : tm.date.Valid) :
    clockCalendar2utc (tm.tmYear + 1900) tm.tmMon tm.tmMday + 15 =
      tm.date.number + ((tm.tmYear + 1899) / 100 - (tm.tmYear + 1899) / 400) := by
  have hnumber := Date.number_eq h (show tm.date.year = tm.tmYear + 1899 + 1 from rfl)
  obtain ⟨hyear, -, hmonth, hday, -⟩ := h
  change 1970 ≤ tm.tmYear + 1900 at hyear
  change tm.tmMon + 1 ≤ 12 at hmonth
  change 1 ≤ tm.tmMday at hday
  change tm.date.number + 478 = 365 * (tm.tmYear + 1899 - 1969) +
    ((tm.tmYear + 1899) / 4 - (tm.tmYear + 1899) / 100 + (tm.tmYear + 1899) / 400) +
    monthsBefore (tm.tmYear + 1900) tm.tmMon + tm.tmMday at hnumber
  rw [clockCalendar2utc, clockDaysbeforemonth_eq (by omega)]
  generalize monthsBefore (tm.tmYear + 1900) tm.tmMon = months at hnumber ⊢
  generalize tm.date.number = number at hnumber ⊢
  omega

theorem mktime_eq (h : tm.Valid) :
    mktime tm + 15 * 86400 =
      tm.instant + ((tm.tmYear + 1899) / 100 - (tm.tmYear + 1899) / 400) * 86400 := by
  have hdays := clockCalendar2utc_eq h.date
  unfold mktime BflbTm.instant
  omega

theorem mktime_eq_iff (h : tm.Valid) : mktime tm = tm.instant ↔ tm.tmYear + 1900 ≤ 2100 := by
  have hseconds := mktime_eq h
  have hyear : 1970 ≤ tm.tmYear + 1900 := h.date.1
  omega

theorem getWeekDay_eq {d : Date} (h : d.Valid) (hyear : d.year < 2 ^ 16) :
    getWeekDay d.year d.month d.day = isoWeekday d.number := by
  obtain ⟨hfirst, hmonth, -⟩ := id h
  have hy : d.year % 2 ^ 16 = d.year := Nat.mod_eq_of_lt hyear
  have hshift : ∀ s : Nat, (s + 1) % 7 = weekday d.number → s % 7 + 1 = isoWeekday d.number := by
    intro s hs
    rw [isoWeekday, ← hs]
    split <;> omega
  unfold getWeekDay
  rw [hy]
  by_cases hearly : d.month = 1 ∨ d.month = 2
  · have hprev : (d.year + 2 ^ 16 - 1) % 2 ^ 16 = d.year - 1 := by omega
    simp only [if_pos hearly, hprev]
    apply hshift
    exact weekday_formula h (.inr ⟨by omega, rfl, by omega⟩)
  · simp only [if_neg hearly]
    apply hshift
    exact weekday_formula h (.inl ⟨by omega, rfl, rfl⟩)

/-- The conversion of a time is right up to the second of January 2102, and a day behind
from there on. -/
theorem gmtimeR_isUtcTime_iff {timer : Nat} (h : timer < 35 * 1461 * 86400) :
    IsUtcTime timer (gmtimeR timer) ↔ timer < 33 * 1461 * 86400 := by
  have hperDay : secPerDay = 86400 := rfl
  have hperHour : secPerHour = 3600 := rfl
  have hperMin : secPerMin = 60 := rfl
  obtain ⟨hvalid, hnumber⟩ := clockUtc2calendar_spec (show timer / 86400 < 35 * 1461 by omega) rfl
  have htime : gmtimeR timer =
      { tmYear := (clockUtc2calendar (timer / 86400)).1 - 1900
        tmMon := (clockUtc2calendar (timer / 86400)).2.1 - 1
        tmMday := (clockUtc2calendar (timer / 86400)).2.2
        tmWday := getWeekDay (clockUtc2calendar (timer / 86400)).1
          (clockUtc2calendar (timer / 86400)).2.1 (clockUtc2calendar (timer / 86400)).2.2
        tmHour := timer % 86400 / 3600, tmMin := timer % 3600 / 60, tmSec := timer % 60 } := by
    unfold gmtimeR
    rw [hperDay, hperHour, hperMin]
    have hday : timer - 86400 * (timer / 86400) = timer % 86400 := by omega
    have hhour : timer % 86400 - 3600 * (timer % 86400 / 3600) = timer % 3600 := by omega
    have hmin : timer % 3600 - 60 * (timer % 3600 / 60) = timer % 60 := by omega
    simp only [hday, hhour, hmin]
  generalize clockUtc2calendar (timer / 86400) = r at hvalid hnumber htime
  obtain ⟨year, month, day⟩ := r
  dsimp only at hvalid hnumber htime
  have hdate : (gmtimeR timer).date = ⟨year, month, day⟩ := by
    have hyear : 1970 ≤ year := hvalid.1
    have hmonth : 1 ≤ month := hvalid.2.1
    rw [htime, BflbTm.date, Nat.sub_add_cancel (by omega), Nat.sub_add_cancel hmonth]
  constructor
  · intro hright
    have hday := hright.day
    rw [hdate] at hday
    by_contra hlate
    rw [hday, if_neg (by omega)] at hnumber
    omega
  · intro hearly
    rw [if_pos (by omega), Nat.add_zero] at hnumber
    refine ⟨by rw [hdate]; exact hvalid, by rw [hdate]; exact hnumber, ?_, by rw [htime],
      by rw [htime], by rw [htime]⟩
    have hyear : year < 2 ^ 16 := by
      have hdays := daysBefore_eq (year - 1970)
      have hle : daysBefore (year - 1970) ≤ Date.number ⟨year, month, day⟩ := by
        unfold Date.number
        dsimp only
        omega
      have hfirst : 1970 ≤ year := hvalid.1
      omega
    rw [hdate, ← getWeekDay_eq hvalid hyear, htime]

/-! ## The counter -/

theorem blRtcGetDeltaCounter_eq (refCnt elapsed : BitVec 40) :
    blRtcGetDeltaCounter (refCnt + elapsed) refCnt = elapsed.toNat := by
  have href : refCnt.toNat < 2 ^ 40 := refCnt.isLt
  have helapsed : elapsed.toNat < 2 ^ 40 := elapsed.isLt
  unfold blRtcGetDeltaCounter
  rw [BitVec.toNat_add]
  split <;> omega

/-- Whole seconds, also by way of the milliseconds. -/
theorem elapsed_seconds (refCnt elapsed : BitVec 40) :
    blRtcGetDeltaTimeMs (refCnt + elapsed) refCnt / 1000 = elapsed.toNat / 32768 := by
  rw [blRtcGetDeltaTimeMs, blRtcGetDeltaCounter_eq]
  omega

/-- A time up to 2100 is before the year 2103. -/
theorem instant_lt (h : tm.Valid) (hyear : tm.tmYear + 1900 ≤ 2100) : tm.instant < 34 * 1461 * 86400 := by
  obtain ⟨hfirst, -, hmonth, -, hday⟩ := h.date
  have hhour := h.hour
  have hminute := h.minute
  have hsecond := h.second
  have hdays := daysBefore_eq (tm.tmYear + 1900 - 1970)
  have hmonths := monthsBefore_le (tm.tmYear + 1900) tm.tmMon
  have hlength := monthDays_le (tm.tmYear + 1900) (tm.tmMon + 1)
  change tm.tmMon + 1 ≤ 12 at hmonth
  change 1970 ≤ tm.tmYear + 1900 at hfirst
  change tm.tmMday ≤ monthDays (tm.tmYear + 1900) (tm.tmMon + 1) at hday
  have hnumber : tm.date.number = daysBefore (tm.tmYear + 1900 - 1970) +
      monthsBefore (tm.tmYear + 1900) tm.tmMon + (tm.tmMday - 1) := rfl
  unfold BflbTm.instant
  rw [hnumber]
  omega

/-- Time and timestamp are both right if and only if the time was set to a year up to 2100
and the instant is before the second of January 2102. -/
theorem bflb_rtc_utc_right_iff (tm : BflbTm) (refCnt elapsed : BitVec 40) (h : tm.Valid) :
    (IsUtcTime (tm.instant + elapsed.toNat / 32768)
        (bflbRtcGetUtcTime (bflbRtcSetUtcTime tm refCnt) (refCnt + elapsed)) ∧
      bflbRtcGetUtcTimestamp (bflbRtcSetUtcTime tm refCnt) (refCnt + elapsed) =
        tm.instant + elapsed.toNat / 32768) ↔
    tm.tmYear + 1900 ≤ 2100 ∧ tm.instant + elapsed.toNat / 32768 < 33 * 1461 * 86400 := by
  have hset := mktime_eq_iff h
  have helapsed : elapsed.toNat < 2 ^ 40 := elapsed.isLt
  have hstamp : bflbRtcGetUtcTimestamp (bflbRtcSetUtcTime tm refCnt) (refCnt + elapsed) =
      elapsed.toNat / 32768 + mktime tm := by
    rw [bflbRtcGetUtcTimestamp]
    exact congrArg (· + mktime tm) (elapsed_seconds refCnt elapsed)
  have htime : bflbRtcGetUtcTime (bflbRtcSetUtcTime tm refCnt) (refCnt + elapsed) =
      gmtimeR (elapsed.toNat / 32768 + mktime tm) := by
    rw [bflbRtcGetUtcTime]
    exact congrArg (fun s => gmtimeR (s + mktime tm)) (elapsed_seconds refCnt elapsed)
  rw [hstamp, htime]
  by_cases hyear : tm.tmYear + 1900 ≤ 2100
  swap
  · exact iff_of_false (fun hright => hyear (hset.mp (by omega))) fun hearly => hyear hearly.1
  · have hseconds : elapsed.toNat / 32768 + mktime tm = tm.instant + elapsed.toNat / 32768 := by
      rw [hset.mpr hyear, Nat.add_comm]
    have hbound : tm.instant + elapsed.toNat / 32768 < 35 * 1461 * 86400 := by
      have hday := instant_lt h hyear
      omega
    rw [hseconds, gmtimeR_isUtcTime_iff hbound]
    exact ⟨fun hright => ⟨hyear, hright.1⟩, fun hearly => ⟨hearly.2, rfl⟩⟩

/-- The last second of 2100, read a second later. -/
def endOf2100 : BflbTm := ⟨59, 59, 23, 31, 11, 200, 5⟩

theorem valid_endOf2100 : endOf2100.Valid :=
  ⟨⟨by decide, by decide, by decide, by decide, by decide⟩, by decide, by decide, by decide⟩

theorem bflb_rtc_utc_right_iff_endOf2100 :
    (IsUtcTime (endOf2100.instant + (32768 : BitVec 40).toNat / 32768)
        (bflbRtcGetUtcTime (bflbRtcSetUtcTime endOf2100 0xFFFFFFFFFF) (0xFFFFFFFFFF + 32768)) ∧
      bflbRtcGetUtcTimestamp (bflbRtcSetUtcTime endOf2100 0xFFFFFFFFFF) (0xFFFFFFFFFF + 32768) =
        endOf2100.instant + (32768 : BitVec 40).toNat / 32768) ↔
    endOf2100.tmYear + 1900 ≤ 2100 ∧
      endOf2100.instant + (32768 : BitVec 40).toNat / 32768 < 33 * 1461 * 86400 :=
  bflb_rtc_utc_right_iff endOf2100 0xFFFFFFFFFF 32768 valid_endOf2100

/-- The first day of 2101. -/
def startOf2101 : BflbTm := ⟨0, 0, 0, 1, 0, 201, 6⟩

/-- The timestamp of that day is a day ahead. -/
theorem timestamp_day_ahead :
    startOf2101.Valid ∧
    ¬ (IsUtcTime (startOf2101.instant + (0 : BitVec 40).toNat / 32768)
        (bflbRtcGetUtcTime (bflbRtcSetUtcTime startOf2101 0) (0 + 0)) ∧
      bflbRtcGetUtcTimestamp (bflbRtcSetUtcTime startOf2101 0) (0 + 0) =
        startOf2101.instant + (0 : BitVec 40).toNat / 32768) := by
  refine ⟨⟨⟨by decide, by decide, by decide, by decide, by decide⟩, by decide, by decide, by decide⟩,
    fun h => ?_⟩
  exact absurd h.2 (by decide +kernel)

end BouffaloSdk.Rtc
