import Mathlib.Data.List.Basic
import Mathlib.Tactic.IntervalCases

/-!
# The Gregorian calendar

Dates counted in days from the first of January 1970, a Thursday. The number of a date is
a sum of year and month lengths, so an algorithm that subtracts them one by one is right
by what its loops keep.
-/

namespace Kit.Calendar

def Leap (year : Nat) : Prop := year % 4 = 0 ∧ (year % 100 ≠ 0 ∨ year % 400 = 0)

instance (year : Nat) : Decidable (Leap year) := inferInstanceAs (Decidable (_ ∧ _))

def yearDays (year : Nat) : Nat := if Leap year then 366 else 365

def monthDays (year : Nat) : Nat → Nat
  | 2 => if Leap year then 29 else 28
  | 4 | 6 | 9 | 11 => 30
  | _ => 31

/-- Days before the first of January of `1970 + n`. -/
def daysBefore : Nat → Nat
  | 0 => 0
  | n + 1 => daysBefore n + yearDays (1970 + n)

/-- Days of the year before the first of month `m + 1`. -/
def monthsBefore (year : Nat) : Nat → Nat
  | 0 => 0
  | m + 1 => monthsBefore year m + monthDays year (m + 1)

structure Date where
  year : Nat
  month : Nat
  day : Nat
  deriving DecidableEq, Repr

def Date.Valid (d : Date) : Prop :=
  1970 ≤ d.year ∧ 1 ≤ d.month ∧ d.month ≤ 12 ∧ 1 ≤ d.day ∧ d.day ≤ monthDays d.year d.month

/-- Days from the first of January 1970 to a date. -/
def Date.number (d : Date) : Nat :=
  daysBefore (d.year - 1970) + monthsBefore d.year (d.month - 1) + (d.day - 1)

/-- The day of the week, Sunday as 0. -/
def weekday (number : Nat) : Nat := (number + 4) % 7

theorem yearDays_pos (year : Nat) : 0 < yearDays year := by
  unfold yearDays
  split <;> decide

theorem monthsBefore_twelve (year : Nat) : monthsBefore year 12 = yearDays year := by
  simp only [monthsBefore, monthDays, yearDays]
  split <;> rfl

theorem monthDays_le (year m : Nat) : monthDays year m ≤ 31 := by
  unfold monthDays
  split
  · split <;> decide
  all_goals decide

theorem monthsBefore_le (year m : Nat) : monthsBefore year m ≤ 31 * m := by
  induction m with
  | zero => exact Nat.le_refl 0
  | succ m ih =>
    have hlength := monthDays_le year (m + 1)
    rw [monthsBefore]
    omega

theorem div_succ (z n : Nat) : (z + 1) / n = z / n + if (z + 1) % n = 0 then 1 else 0 := by
  rw [Nat.succ_div]
  simp only [Nat.dvd_iff_mod_eq_zero]

/-- Leap days up to a year and up to the year before. -/
theorem leapDays_succ (z : Nat) :
    (z + 1) / 4 - (z + 1) / 100 + (z + 1) / 400 =
      z / 4 - z / 100 + z / 400 + if Leap (z + 1) then 1 else 0 := by
  have h4 := div_succ z 4
  have h100 := div_succ z 100
  have h400 := div_succ z 400
  have hle : z / 100 ≤ z / 4 := Nat.div_le_div_left (by decide) (by decide)
  have hmod4 : (z + 1) % 100 = 0 → (z + 1) % 4 = 0 := by omega
  have hmod100 : (z + 1) % 400 = 0 → (z + 1) % 100 = 0 := by omega
  unfold Leap
  rw [h4, h100, h400]
  by_cases ha : (z + 1) % 4 = 0
  · by_cases hb : (z + 1) % 100 = 0
    · by_cases hc : (z + 1) % 400 = 0
      · simp [ha, hb, hc]
        omega
      · simp [ha, hb, hc]
    · have hc : ¬ (z + 1) % 400 = 0 := fun hc => hb (hmod100 hc)
      simp [ha, hb, hc]
      omega
  · have hb : ¬ (z + 1) % 100 = 0 := fun hb => ha (hmod4 hb)
    have hc : ¬ (z + 1) % 400 = 0 := fun hc => hb (hmod100 hc)
    simp [ha, hb, hc]

theorem daysBefore_eq (n : Nat) :
    daysBefore n + 477 = 365 * n + ((1969 + n) / 4 - (1969 + n) / 100 + (1969 + n) / 400) := by
  induction n with
  | zero => rfl
  | succ n ih =>
    have hleaps := leapDays_succ (1969 + n)
    have hnext : 1969 + n + 1 = 1970 + n := by omega
    rw [hnext] at hleaps
    rw [daysBefore, yearDays, show 1969 + (n + 1) = 1970 + n by omega, hleaps]
    generalize (1969 + n) / 4 - (1969 + n) / 100 + (1969 + n) / 400 = leaps at ih ⊢
    split <;> omega

/-- The day of the year on which January or February starts. -/
theorem monthsBefore_early (year : Nat) {m : Nat} (hlo : 1 ≤ m) (hhi : m ≤ 2) :
    monthsBefore year (m - 1) = 31 * (m - 1) := by
  interval_cases m <;> rfl

/-- The day of the year on which a later month starts. -/
theorem monthsBefore_late (year : Nat) {m : Nat} (hlo : 3 ≤ m) (hhi : m ≤ 12) :
    monthsBefore year (m - 1) =
      30 * (m - 3) + (3 * (m - 3) + 2) / 5 + 59 + if Leap year then 1 else 0 := by
  have hfeb : monthDays year 2 = 28 + if Leap year then 1 else 0 := by
    simp only [monthDays]
    split <;> rfl
  generalize (if Leap year then 1 else 0) = leap at hfeb ⊢
  interval_cases m
  all_goals simp only [Nat.reduceSub, monthsBefore, Nat.reduceAdd, hfeb]
  all_goals simp only [monthDays]
  all_goals omega

/-- The number of a date from the leap days up to the year before. -/
theorem Date.number_eq {d : Date} (h : d.Valid) {z : Nat} (hz : d.year = z + 1) :
    d.number + 478 = 365 * (z - 1969) + (z / 4 - z / 100 + z / 400) +
      monthsBefore d.year (d.month - 1) + d.day := by
  obtain ⟨hyear, -, -, hday, -⟩ := h
  have hdays := daysBefore_eq (d.year - 1970)
  have hy : 1969 + (d.year - 1970) = z := by omega
  have hn : d.year - 1970 = z - 1969 := by omega
  rw [hy, hn] at hdays
  unfold Date.number
  rw [hn]
  generalize z / 4 - z / 100 + z / 400 = leaps at hdays ⊢
  generalize monthsBefore d.year (d.month - 1) = months
  omega

theorem mod_seven_congr {a b i j : Nat} (h : a + 7 * i = b + 7 * j) : a % 7 = b % 7 := by
  have hmod := congrArg (· % 7) h
  simpa only [Nat.add_mul_mod_self_left] using hmod

/-- The weekday from a date by one formula, with January and February as the months 13 and
14 of the year before. -/
theorem weekday_formula {d : Date} (h : d.Valid) {y m : Nat}
    (hm : (3 ≤ d.month ∧ m = d.month ∧ y = d.year) ∨
      (d.month ≤ 2 ∧ m = d.month + 12 ∧ y + 1 = d.year)) :
    (d.day + 2 * m + 3 * (m + 1) / 5 + y + y / 4 - y / 100 + y / 400 + 1) % 7 =
      weekday d.number := by
  have hsum : d.day + 2 * m + 3 * (m + 1) / 5 + y + y / 4 - y / 100 + y / 400 + 1 =
      d.day + 2 * m + 3 * (m + 1) / 5 + (y + (y / 4 - y / 100 + y / 400)) + 1 := by
    have hle : y / 100 ≤ y / 4 := Nat.div_le_div_left (by decide) (by decide)
    generalize 3 * (m + 1) / 5 = fifths
    omega
  obtain ⟨w, hw⟩ : ∃ w, d.year = w + 1969 + 1 := ⟨d.year - 1970, by have := h.1; omega⟩
  have hnumber := Date.number_eq h hw
  obtain ⟨-, hmonth, hmonth', -, -⟩ := h
  rw [hsum, weekday]
  rcases hm with ⟨hlate, rfl, rfl⟩ | ⟨hearly, rfl, hy⟩
  · obtain ⟨k, hk⟩ : ∃ k, d.month = k + 3 := ⟨d.month - 3, by omega⟩
    have hmonths := monthsBefore_late d.year hlate hmonth'
    have hfifths : 3 * (k + 3 + 1) / 5 = (3 * k + 2) / 5 + 2 := by omega
    have hleaps := leapDays_succ (w + 1969)
    rw [hmonths, hk, Nat.add_sub_cancel, Nat.add_sub_cancel] at hnumber
    rw [← hw] at hleaps
    rw [hleaps, hk, hfifths, hw]
    rw [hw] at hnumber
    generalize (w + 1969) / 4 - (w + 1969) / 100 + (w + 1969) / 400 = leaps at hnumber ⊢
    generalize (3 * k + 2) / 5 = fifths at hnumber ⊢
    generalize (if Leap (w + 1969 + 1) then 1 else 0) = leap at hnumber ⊢
    refine mod_seven_congr (i := 52 * w + 4 * k) (j := 342) ?_
    clear hleaps hmonths hfifths hsum
    omega
  · have hmonths := monthsBefore_early d.year hmonth hearly
    have hyw : y = w + 1969 := by omega
    subst hyw
    rw [hmonths, Nat.add_sub_cancel] at hnumber
    generalize (w + 1969) / 4 - (w + 1969) / 100 + (w + 1969) / 400 = leaps at hnumber ⊢
    have hfifths : 3 * (d.month + 12 + 1) / 5 = d.month + 7 := by
      generalize d.month = month at hmonth hearly
      interval_cases month <;> rfl
    rw [hfifths]
    refine mod_seven_congr (i := 52 * w + 4 * d.month) (j := 358) ?_
    clear hmonths hfifths hsum
    omega

end Kit.Calendar
