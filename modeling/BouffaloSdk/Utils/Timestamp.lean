import BouffaloSdk.Kit.Calendar
import Mathlib.Data.List.Range

/-!
# Timestamps

`components/utils/bflb_timestamp/bflb_timestamp.c` and the copy of it in
`components/utils/log/bflog/bflog.c`. The two conversions have one body over constants and
month tables that each file has for itself. No number here comes near the bound of its C
type, so all of them are natural numbers.
-/

namespace BouffaloSdk
open Kit.Calendar

/-- `bflb_timestamp_t`, and `bflog_tm_t` in the log module. -/
structure BflbTimestamp where
  sec : Nat
  min : Nat
  hour : Nat
  mday : Nat
  mon : Nat
  year : Nat
  wday : Nat
  deriving DecidableEq, Repr

/-- What each file defines before its conversion. -/
structure TimeTables where
  monthDay : List Nat
  leapMonthDay : List Nat
  fourYearDay : Nat
  secNumPerDay : Nat
  secNumPerHour : Nat
  secNumPerMinute : Nat
  timezone : Nat
  deriving DecidableEq, Repr

namespace BflbTimestamp

def checkLeapYear (year : Nat) : Bool :=
  if year % 4 ≠ 0 then false
  else if year % 100 = 0 ∧ year % 400 ≠ 0 then false
  else true

def calWeekday (time : BflbTimestamp) : BflbTimestamp :=
  let (y, m) :=
    if time.mon = 1 ∨ time.mon = 2 then (time.year - 1, time.mon + 12)
    else (time.year, time.mon)
  let d := time.mday
  { time with wday := (d + 2 * m + 3 * (m + 1) / 5 + y + y / 4 - y / 100 + y / 400 + 1) % 7 }

/-- `temp_year` of a year. -/
def tempYear (year : Nat) : Nat := if checkLeapYear year then 366 else 365

theorem tempYear_pos (year : Nat) : 0 < tempYear year := by
  unfold tempYear
  split <;> decide

/-- The loop over the years of a block, with the days that remain. -/
def yearLoop (year remainDay : Nat) : Nat × Nat :=
  if tempYear year ≤ remainDay then yearLoop (year + 1) (remainDay - tempYear year)
  else (year, remainDay)
termination_by remainDay
decreasing_by
  have := tempYear_pos year
  omega

/-- The loop over the months of a table from month `mon` on, with the days that remain. -/
def monthLoop : List Nat → Nat → Nat → Nat × Nat
  | [], mon, remainDay => (mon, remainDay)
  | days :: p, mon, remainDay =>
    if days < remainDay then monthLoop p (mon + 1) (remainDay - days) else (mon, remainDay)

/-- Day number and hour at the time zone. -/
def localDay (c : TimeTables) (utc : Nat) : Nat × Nat :=
  let totalDayNum := utc / c.secNumPerDay
  let hour := utc % c.secNumPerDay / c.secNumPerHour + c.timezone
  if 23 < hour then (totalDayNum + 1, hour - 24) else (totalDayNum, hour)

/-- The date of a day number. Its first value for the weekday is overwritten. -/
def dayToDate (c : TimeTables) (totalDayNum : Nat) : Nat × Nat × Nat :=
  let (year, remainDay) :=
    yearLoop (1970 + totalDayNum / c.fourYearDay * 4) (totalDayNum % c.fourYearDay)
  let p := if checkLeapYear year then c.leapMonthDay else c.monthDay
  let (mon, remainDay) := monthLoop p 0 (remainDay + 1)
  (year, mon + 1, remainDay)

/-- What `bflb_timestamp_utc2time` and `bflog_unix2time` share. -/
def utcToTime (c : TimeTables) (utc : BitVec 32) : BflbTimestamp :=
  let currentSecNum := utc.toNat % c.secNumPerDay
  let (totalDayNum, hour) := localDay c utc.toNat
  let (year, mon, mday) := dayToDate c totalDayNum
  calWeekday
    { sec := currentSecNum % c.secNumPerHour % c.secNumPerMinute
      min := currentSecNum % c.secNumPerHour / c.secNumPerMinute
      hour, mday, mon, year, wday := 0 }

/-- The tables and macros of `bflb_timestamp.c`. -/
def bflbTimestampTables : TimeTables where
  monthDay := [31, 28, 31, 30, 31, 30, 31, 31, 30, 31, 30, 31]
  leapMonthDay := [31, 29, 31, 30, 31, 30, 31, 31, 30, 31, 30, 31]
  fourYearDay := (365 <<< 2) + 1
  secNumPerDay := 24 * 60 * 60
  secNumPerHour := 60 * 60
  secNumPerMinute := 60
  timezone := 8

/-- The tables and macros of `bflog.c`. -/
def bflogTables : TimeTables where
  monthDay := [31, 28, 31, 30, 31, 30, 31, 31, 30, 31, 30, 31]
  leapMonthDay := [31, 29, 31, 30, 31, 30, 31, 31, 30, 31, 30, 31]
  fourYearDay := (365 <<< 2) + 1
  secNumPerDay := 24 * 60 * 60
  secNumPerHour := 60 * 60
  secNumPerMinute := 60
  timezone := 8

def bflbTimestampUtc2time : BitVec 32 → BflbTimestamp := utcToTime bflbTimestampTables

def bflogUnix2time : BitVec 32 → BflbTimestamp := utcToTime bflogTables

/-! ## The civil time it should be -/

def date (t : BflbTimestamp) : Date := ⟨t.year, t.mon, t.mday⟩

/-- The time is the Gregorian date and the time of day at UTC+8. -/
structure IsLocalTime (utc : BitVec 32) (t : BflbTimestamp) : Prop where
  valid : t.date.Valid
  day : t.date.number = (utc.toNat + 8 * 3600) / 86400
  weekday : t.wday = weekday t.date.number
  hour : t.hour = (utc.toNat + 8 * 3600) % 86400 / 3600
  minute : t.min = utc.toNat % 3600 / 60
  second : t.sec = utc.toNat % 60

/-! ## The year loop -/

theorem checkLeapYear_eq (year : Nat) : checkLeapYear year = decide (Leap year) := by
  unfold checkLeapYear
  unfold Leap
  grind

theorem tempYear_eq (year : Nat) : tempYear year = yearDays year := by
  unfold tempYear yearDays
  simp only [checkLeapYear_eq, decide_eq_true_eq]

theorem yearLoop_spec {year remainDay : Nat} (h : 1970 ≤ year) :
    1970 ≤ (yearLoop year remainDay).1 ∧
    (yearLoop year remainDay).2 < yearDays (yearLoop year remainDay).1 ∧
    daysBefore ((yearLoop year remainDay).1 - 1970) + (yearLoop year remainDay).2 =
      daysBefore (year - 1970) + remainDay := by
  induction year, remainDay using yearLoop.induct with
  | case1 year remainDay hge ih =>
    have hnext := ih (by omega)
    rw [yearLoop, if_pos hge]
    have hsucc : year + 1 - 1970 = year - 1970 + 1 := by omega
    have hback : 1970 + (year - 1970) = year := by omega
    rw [hsucc, daysBefore, hback] at hnext
    rw [tempYear_eq] at hge hnext ⊢
    omega
  | case2 year remainDay hlt =>
    rw [yearLoop, if_neg hlt]
    rw [tempYear_eq] at hlt
    exact ⟨h, Nat.lt_of_not_le hlt, rfl⟩

/-- The blocks of four years of the code against the calendar: the block of 2100 is a day
shorter. -/
theorem daysBefore_block {k : Nat} (h : k ≤ 34) :
    daysBefore (4 * k) + (if k ≤ 32 then 0 else 1) = 1461 * k := by
  have hdays := daysBefore_eq (4 * k)
  split <;> omega

/-! ## The month loop -/

theorem monthLoop_spec {year n : Nat} : ∀ {m remainDay : Nat}, 1 ≤ remainDay →
    monthsBefore year m + remainDay ≤ monthsBefore year (m + n) →
    let r := monthLoop ((List.range' m n).map fun i => monthDays year (i + 1)) m remainDay
    r.1 < m + n ∧ 1 ≤ r.2 ∧ r.2 ≤ monthDays year (r.1 + 1) ∧
      monthsBefore year r.1 + r.2 = monthsBefore year m + remainDay := by
  induction n with
  | zero => grind
  | succ n ih =>
    intro m remainDay hpos hle
    simp only [List.range'_succ, List.map_cons, monthLoop]
    split
    next hlt =>
      have hstep : monthsBefore year (m + 1) = monthsBefore year m + monthDays year (m + 1) := rfl
      have hsum : m + 1 + n = m + (n + 1) := by omega
      have hnext := @ih (m + 1) (remainDay - monthDays year (m + 1)) (by omega)
        (by rw [hsum, hstep]; omega)
      dsimp only at hnext
      omega
    next hge => exact ⟨by omega, hpos, Nat.le_of_not_lt hge, rfl⟩

theorem monthTable_eq (c : TimeTables) (hc : c = bflbTimestampTables ∨ c = bflogTables)
    (year : Nat) :
    (if checkLeapYear year then c.leapMonthDay else c.monthDay) =
      (List.range' 0 12).map fun i => monthDays year (i + 1) := by
  rw [checkLeapYear_eq]
  rcases hc with rfl | rfl
  all_goals
    by_cases hleap : Leap year
    · simp [hleap, bflbTimestampTables, bflogTables, List.range', monthDays]
    · simp [hleap, bflbTimestampTables, bflogTables, List.range', monthDays]

/-! ## The conversion -/

section Conversion
variable {c : TimeTables}

/-- The date of a day is valid, and its number is that day up to the block of 2100 and the
day before from there on. -/
theorem dayToDate_spec (hc : c = bflbTimestampTables ∨ c = bflogTables) (day : Nat)
    (hday : day < 35 * 1461) {d : Date}
    (hd : d = ⟨(dayToDate c day).1, (dayToDate c day).2.1, (dayToDate c day).2.2⟩) :
    d.Valid ∧ d.number + (if day < 33 * 1461 then 0 else 1) = day := by
  have hfour : c.fourYearDay = 1461 := by rcases hc with rfl | rfl <;> rfl
  obtain ⟨hyear, hrest, hsum⟩ :=
    @yearLoop_spec (1970 + day / 1461 * 4) (day % 1461) (by omega)
  have hblock := daysBefore_block (k := day / 1461) (by omega)
  unfold dayToDate at hd
  simp only [hfour, monthTable_eq c hc] at hd
  generalize yearLoop (1970 + day / 1461 * 4) (day % 1461) = r at hyear hrest hsum hd
  obtain ⟨year, remainDay⟩ := r
  dsimp only at hyear hrest hsum hd
  obtain ⟨hmon, hpos, hle, hmonths⟩ := @monthLoop_spec year 12 0 (remainDay + 1) (by omega)
    (by rw [Nat.zero_add, monthsBefore_twelve]; exact Nat.add_le_of_le_sub (by omega) (by
          simp only [monthsBefore]; omega))
  generalize monthLoop _ 0 (remainDay + 1) = r at hmon hpos hle hmonths hd
  obtain ⟨mon, mday⟩ := r
  subst hd
  refine ⟨⟨hyear, ?_, ?_, hpos, hle⟩, ?_⟩
  · exact Nat.succ_pos mon
  · exact hmon
  · unfold Date.number
    have hstart : 1970 + day / 1461 * 4 - 1970 = 4 * (day / 1461) := by omega
    rw [hstart] at hsum
    simp only [Nat.add_sub_cancel, monthsBefore] at hmonths ⊢
    split at hblock <;> split <;> omega

/-- Day and hour are those of the instant moved by eight hours. -/
theorem localDay_spec (hc : c = bflbTimestampTables ∨ c = bflogTables) (utc : Nat) :
    localDay c utc = ((utc + 8 * 3600) / 86400, (utc + 8 * 3600) % 86400 / 3600) := by
  have hconsts : c.secNumPerDay = 86400 ∧ c.secNumPerHour = 3600 ∧ c.timezone = 8 := by
    rcases hc with rfl | rfl <;> decide
  obtain ⟨hperDay, hperHour, hzone⟩ := hconsts
  unfold localDay
  rw [hperDay, hperHour, hzone]
  dsimp only
  split
  next hlate => exact Prod.ext (by dsimp only; omega) (by dsimp only; omega)
  next hearly => exact Prod.ext (by dsimp only; omega) (by dsimp only; omega)

theorem utcToTime_eq {utc : BitVec 32} {day hour year mon mday : Nat}
    (hlocal : localDay c utc.toNat = (day, hour)) (hdate : dayToDate c day = (year, mon, mday)) :
    utcToTime c utc = calWeekday
      { sec := utc.toNat % c.secNumPerDay % c.secNumPerHour % c.secNumPerMinute
        min := utc.toNat % c.secNumPerDay % c.secNumPerHour / c.secNumPerMinute
        hour, mday, mon, year, wday := 0 } := by
  unfold utcToTime
  rw [hlocal]
  dsimp only
  rw [hdate]

theorem calWeekday_wday {t : BflbTimestamp} (h : t.date.Valid) :
    (calWeekday t).wday = weekday t.date.number := by
  unfold calWeekday
  by_cases hearly : t.mon = 1 ∨ t.mon = 2
  · simp only [if_pos hearly]
    have hyear : 1970 ≤ t.year := h.1
    refine weekday_formula h (.inr ⟨?_, rfl, ?_⟩)
    · show t.mon ≤ 2
      omega
    · show t.year - 1 + 1 = t.year
      omega
  · simp only [if_neg hearly]
    have hmon : 1 ≤ t.mon := h.2.1
    refine weekday_formula h (.inl ⟨?_, rfl, rfl⟩)
    show 3 ≤ t.mon
    omega

theorem calWeekday_date (t : BflbTimestamp) : (calWeekday t).date = t.date := rfl

theorem isLocalTime_calWeekday {utc : BitVec 32} {t : BflbTimestamp} (hvalid : t.date.Valid)
    (hday : t.date.number = (utc.toNat + 8 * 3600) / 86400)
    (hhour : t.hour = (utc.toNat + 8 * 3600) % 86400 / 3600)
    (hmin : t.min = utc.toNat % 3600 / 60) (hsec : t.sec = utc.toNat % 60) :
    IsLocalTime utc (calWeekday t) :=
  ⟨hvalid, hday, calWeekday_wday hvalid, hhour, hmin, hsec⟩

/-- Both conversions are right up to the second of January 2102 at the time zone, and a day
behind from there on. -/
theorem utcToTime_isLocalTime_iff (hc : c = bflbTimestampTables ∨ c = bflogTables)
    (utc : BitVec 32) :
    IsLocalTime utc (utcToTime c utc) ↔ utc.toNat < 33 * 1461 * 86400 - 8 * 3600 := by
  have hutc : utc.toNat < 2 ^ 32 := utc.isLt
  have hconsts : c.secNumPerDay = 86400 ∧ c.secNumPerHour = 3600 ∧ c.secNumPerMinute = 60 := by
    rcases hc with rfl | rfl <;> decide
  obtain ⟨hperDay, hperHour, hperMinute⟩ := hconsts
  obtain ⟨hvalid, hnumber⟩ := dayToDate_spec hc ((utc.toNat + 8 * 3600) / 86400)
    (by omega) rfl
  generalize hdate : dayToDate c ((utc.toNat + 8 * 3600) / 86400) = r at hvalid hnumber
  obtain ⟨year, mon, mday⟩ := r
  have htime : utcToTime c utc = calWeekday
      { sec := utc.toNat % 86400 % 3600 % 60
        min := utc.toNat % 86400 % 3600 / 60
        hour := (utc.toNat + 8 * 3600) % 86400 / 3600
        mday, mon, year, wday := 0 } := by
    rw [utcToTime_eq (localDay_spec hc utc.toNat) hdate, hperDay, hperHour, hperMinute]
  rw [htime]
  constructor
  · intro hlocal
    have hday := hlocal.day
    rw [calWeekday_date, date] at hday
    by_contra hlate
    rw [hday, if_neg (by omega)] at hnumber
    omega
  · intro hearly
    rw [if_pos (by omega), Nat.add_zero] at hnumber
    apply isLocalTime_calWeekday
    · exact hvalid
    · exact hnumber
    · rfl
    · show utc.toNat % 86400 % 3600 / 60 = utc.toNat % 3600 / 60
      rw [Nat.mod_mod_of_dvd _ (by decide : 3600 ∣ 86400)]
    · show utc.toNat % 86400 % 3600 % 60 = utc.toNat % 60
      rw [Nat.mod_mod_of_dvd _ (by decide : 3600 ∣ 86400), Nat.mod_mod_of_dvd _ (by decide : 60 ∣ 3600)]

end Conversion

/-- A timestamp converts to the civil time at UTC+8, in both modules alike, exactly when it is
before the second of January 2102 there. -/
theorem timestamp_local_time_iff (utc : BitVec 32) :
    (IsLocalTime utc (bflbTimestampUtc2time utc) ∧
      bflogUnix2time utc = bflbTimestampUtc2time utc) ↔ utc.toNat < 4165574400 := by
  have hcopy : bflogUnix2time utc = bflbTimestampUtc2time utc := rfl
  constructor
  · intro h
    exact (utcToTime_isLocalTime_iff (.inl rfl) utc).1 h.1
  · intro h
    exact ⟨(utcToTime_isLocalTime_iff (.inl rfl) utc).2 h, hcopy⟩

/-- The first second of that day is given the date of the day before. -/
theorem timestamp_day_behind :
    bflbTimestampUtc2time 4165574400#32 = ⟨0, 0, 0, 1, 1, 2102, 0⟩ ∧
    ¬ (IsLocalTime 4165574400#32 (bflbTimestampUtc2time 4165574400#32) ∧
      bflogUnix2time 4165574400#32 = bflbTimestampUtc2time 4165574400#32) := by
  have htime : bflbTimestampUtc2time 4165574400#32 = ⟨0, 0, 0, 1, 1, 2102, 0⟩ := by
    simp [bflbTimestampUtc2time, utcToTime, localDay, dayToDate, bflbTimestampTables, yearLoop,
      tempYear, checkLeapYear, monthLoop, calWeekday]
  refine ⟨htime, fun h => ?_⟩
  exact absurd ((utcToTime_isLocalTime_iff (.inl rfl) _).1 h.1) (by decide)

example : bflbTimestampUtc2time 951753599#32 = ⟨59, 59, 23, 28, 2, 2000, 1⟩ := by
  simp [bflbTimestampUtc2time, utcToTime, localDay, dayToDate, bflbTimestampTables, yearLoop,
    tempYear, checkLeapYear, monthLoop, calWeekday]

end BflbTimestamp
end BouffaloSdk
