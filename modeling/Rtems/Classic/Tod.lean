import Mathlib.Algebra.Group.Nat.Defs
import Mathlib.Tactic.SplitIfs

/-!
# Calendar time

`clocktodvalidate.c`, `clocktodtoseconds.c` and `clockgettod.c`; the time is in seconds since 1970.

* `Gregorian`, `seconds`: the Gregorian calendar;
* `validate`, `toSeconds`, `clockGetTod`: the code;
* **`calendar_exact_iff`**: they agree, but for the last hour of February 2100.
-/

namespace Rtems

/-- `rtems_time_of_day`. -/
structure TimeOfDay where
  year : ℕ
  month : ℕ
  day : ℕ
  hour : ℕ
  minute : ℕ
  second : ℕ
  ticks : ℕ
  deriving DecidableEq

/-- `_Leap_year`. -/
def leapYear (year : ℕ) : Bool := year % 4 = 0 ∧ year % 100 ≠ 0 ∨ year % 400 = 0

/-! ## The calendar -/

def yearLength (year : ℕ) : ℕ := if leapYear year then 366 else 365

def monthLength (leap : Bool) (month : ℕ) : ℕ :=
  if month = 2 then if leap then 29 else 28 else if month ∈ [4, 6, 9, 11] then 30 else 31

/-- The days of the years from 1970 on. -/
def yearsLength : ℕ → ℕ
  | 0 => 0
  | n + 1 => yearsLength n + yearLength (1970 + n)

def monthsLength (leap : Bool) : ℕ → ℕ
  | 0 => 0
  | n + 1 => monthsLength leap n + monthLength leap (n + 1)

namespace TimeOfDay

/-- A time of the calendar. -/
structure Gregorian (tod : TimeOfDay) : Prop where
  year : 1970 ≤ tod.year
  month : 1 ≤ tod.month ∧ tod.month ≤ 12
  day : 1 ≤ tod.day ∧ tod.day ≤ monthLength (leapYear tod.year) tod.month
  hour : tod.hour < 24
  minute : tod.minute < 60
  second : tod.second < 60

def days (tod : TimeOfDay) : ℕ :=
  yearsLength (tod.year - 1970) + monthsLength (leapYear tod.year) (tod.month - 1) + (tod.day - 1)

/-- The seconds from 1970 to a time of day. -/
def seconds (tod : TimeOfDay) : ℕ :=
  86400 * tod.days + tod.hour * 3600 + tod.minute * 60 + tod.second

end TimeOfDay

/-! ## The code -/

/-- `_TOD_Days_to_date`. -/
def daysToDate (leap : Bool) : List ℕ :=
  if leap then [0, 0, 31, 60, 91, 121, 152, 182, 213, 244, 274, 305, 335]
  else [0, 0, 31, 59, 90, 120, 151, 181, 212, 243, 273, 304, 334]

/-- `_TOD_Days_per_month`. -/
def daysPerMonth (leap : Bool) : List ℕ :=
  if leap then [0, 31, 29, 31, 30, 31, 30, 31, 31, 30, 31, 30, 31]
  else [0, 31, 28, 31, 30, 31, 30, 31, 31, 30, 31, 30, 31]

/-- `_TOD_Days_since_last_leap_year`. -/
def daysSinceLastLeapYear : List ℕ := [0, 366, 731, 1096]

/-- `TOD_SECONDS_1970_THROUGH_1988`. -/
def seconds1970Through1988 : ℕ := 18 * (86400 * 365) + 4 * 86400

namespace TimeOfDay

/-- `_TOD_Validate`. -/
def validate (microsecondsPerTick : ℕ) (tod : TimeOfDay) : Bool :=
  tod.ticks < 1000000 / microsecondsPerTick ∧ tod.second < 60 ∧ tod.minute < 60 ∧ tod.hour < 24 ∧
    tod.month ≠ 0 ∧ tod.month ≤ 12 ∧ 1988 ≤ tod.year ∧ tod.day ≠ 0 ∧
    tod.day ≤ (daysPerMonth (leapYear tod.year)).getD tod.month 0

/-- `_TOD_To_seconds`, with `TOD_SECONDS_AT_2100_03_01_00_00` as it is. -/
def toSeconds (tod : TimeOfDay) : ℕ :=
  let days := tod.day - 1 + (daysToDate (tod.year % 4 = 0)).getD tod.month 0 +
    (tod.year - 1988) / 4 * (365 * 4 + 1) + daysSinceLastLeapYear.getD (tod.year % 4) 0
  let time := (86400 * days + (tod.hour * 60 + tod.minute) * 60 + tod.second) % 2 ^ 32
  let time := if 4107538800 - seconds1970Through1988 ≤ time then time - 86400 else time
  (time + seconds1970Through1988) % 2 ^ 32

end TimeOfDay

def leapYearsBefore (year : ℕ) : ℕ := (year - 1) / 4 - (year - 1) / 100 + (year - 1) / 400

def leapYearsBetween (start stop : ℕ) : ℕ := leapYearsBefore stop - leapYearsBefore (start + 1)

/-- The loop of `_Year_day_as_month`. -/
def monthLoop (leap : Bool) (day : ℕ) : ℕ → ℕ → ℕ
  | 0, month => month
  | fuel + 1, month =>
    if day < (daysToDate leap).getD (month + 2) 0 then month
    else monthLoop leap day fuel (month + 1)

/-- `_Year_day_as_month`: the month and the day in it. -/
def yearDayAsMonth (leap : Bool) (day : ℕ) : ℕ × ℕ :=
  let month := monthLoop leap day 11 0
  (month, day - (daysToDate leap).getD (month + 1) 0)

/-- The first part of `rtems_clock_get_tod`: the year of a day, and the day in it. -/
def yearOfDays (days : ℕ) : ℕ × ℕ :=
  let year := days / 365 + 1970
  let leapYears := leapYearsBetween 1970 year
  let yearDays := (days - leapYears) % 365
  if days % 365 < leapYears then
    (year - 1, if leapYear (year - 1) then yearDays + 1 else yearDays)
  else (year, yearDays)

/-- `rtems_clock_get_tod`, for the current time in seconds and microseconds. -/
def clockGetTod (microsecondsPerTick seconds microseconds : ℕ) : TimeOfDay :=
  let year := yearOfDays (seconds / 86400)
  let month := yearDayAsMonth (leapYear year.1) year.2
  let daySecs := seconds % 86400
  ⟨year.1, month.1 + 1, month.2 + 1, daySecs / 3600, daySecs % 3600 / 60, daySecs % 3600 % 60,
    microseconds / microsecondsPerTick⟩

/-! ## Days -/

theorem leapYearsBefore_succ {year : ℕ} (h : 0 < year) :
    leapYearsBefore (year + 1) + 365 = leapYearsBefore year + yearLength year := by
  obtain ⟨y, rfl⟩ := Nat.exists_eq_succ_of_ne_zero (Nat.ne_of_gt h)
  have hle : y / 100 ≤ y / 4 := by omega
  have h100 : 100 ∣ y + 1 → 4 ∣ y + 1 := by omega
  have h400 : 400 ∣ y + 1 → 100 ∣ y + 1 := by omega
  simp only [leapYearsBefore, yearLength, leapYear, Nat.add_sub_cancel, Nat.succ_div, ne_eq,
    ← Nat.dvd_iff_mod_eq_zero, decide_eq_true_eq]
  by_cases hc : 400 ∣ y + 1
  · simp only [hc, h400 hc, h100 (h400 hc)]; simp; omega
  · by_cases hb : 100 ∣ y + 1
    · simp only [hc, hb, h100 hb]; simp
    · by_cases ha : 4 ∣ y + 1 <;> simp [hc, hb, ha]; omega

theorem yearsLength_eq (n : ℕ) : yearsLength n + 477 = 365 * n + leapYearsBefore (1970 + n) := by
  induction n with
  | zero => rfl
  | succ n ih =>
    have hleap := leapYearsBefore_succ (show 0 < 1970 + n by omega)
    rw [yearsLength, ← Nat.add_assoc]
    omega

theorem exists_year (n : ℕ) : ∃ k, ∃ d < yearLength (1970 + k), yearsLength k + d = n := by
  induction n with
  | zero => exact ⟨0, 0, by decide, rfl⟩
  | succ n ih =>
    obtain ⟨k, d, hd, rfl⟩ := ih
    by_cases hlast : d + 1 < yearLength (1970 + k)
    · exact ⟨k, d + 1, hlast, rfl⟩
    · refine ⟨k + 1, 0, ?_, ?_⟩
      · unfold yearLength; split <;> decide
      · rw [yearsLength]; omega

theorem daysToDate_eq : ∀ leap, ∀ month < 12,
    (daysToDate leap).getD (month + 1) 0 = monthsLength leap month ∧
      (daysPerMonth leap).getD (month + 1) 0 = monthLength leap (month + 1) := by
  decide

theorem monthsLength_february : ∀ month < 12, ∀ day < monthLength false (month + 1),
    monthsLength true month = monthsLength false month +
        (if 59 ≤ monthsLength false month + day then 1 else 0) ∧
      (monthsLength false month + day = 58 ↔ month = 1 ∧ day = 27) := by
  decide +kernel

theorem yearDayAsMonth_eq : ∀ leap, ∀ month < 12, ∀ day < monthLength leap (month + 1),
    yearDayAsMonth leap (monthsLength leap month + day) = (month, day) := by
  decide +kernel

theorem exists_month {leap : Bool} {day k : ℕ} (h : day < monthsLength leap k) :
    ∃ month < k, ∃ d < monthLength leap (month + 1), monthsLength leap month + d = day := by
  induction k with
  | zero => exact absurd h (Nat.not_lt_zero _)
  | succ k ih =>
    rw [monthsLength] at h
    rcases Nat.lt_or_ge day (monthsLength leap k) with hlt | hge
    · obtain ⟨month, hmonth, hd⟩ := ih hlt
      exact ⟨month, Nat.lt_succ_of_lt hmonth, hd⟩
    · exact ⟨k, Nat.lt_succ_self k, day - monthsLength leap k, by omega, by omega⟩

theorem monthsLength_add_lt : ∀ leap, ∀ month < 12, ∀ day < monthLength leap (month + 1),
    monthsLength leap month + day < if leap then 366 else 365 := by
  decide +kernel

/-- Dividing by 365 gives a year too many on the last days, one per leap year. -/
theorem yearOfDays_eq {k d : ℕ} (hd : d < yearLength (1970 + k)) (hk : k < 1000) :
    yearOfDays (yearsLength k + d) = (1970 + k, d) := by
  have hyears := yearsLength_eq k
  have hleap := leapYearsBefore_succ (show 0 < 1970 + k by omega)
  have hfew : 477 ≤ leapYearsBefore (1970 + k) ∧ leapYearsBefore (1970 + k) < 477 + 365 := by
    unfold leapYearsBefore; omega
  have h1971 : leapYearsBefore 1971 = 477 := rfl
  generalize hL : leapYearsBefore (1970 + k) = L at *
  unfold yearOfDays leapYearsBetween
  rcases Nat.lt_or_ge (L - 477 + d) 365 with hin | hover
  · have hdiv : (yearsLength k + d) / 365 + 1970 = 1970 + k := by omega
    simp only [hdiv, hL, h1971]
    rw [if_neg (by omega), Prod.mk.injEq]
    omega
  · have hdiv : (yearsLength k + d) / 365 + 1970 = 1970 + k + 1 := by
      unfold yearLength at hd; split at hd <;> omega
    simp only [hdiv, h1971, Nat.add_sub_cancel]
    unfold yearLength at hd hleap
    split_ifs at hd hleap ⊢ with hly <;> simp only [Prod.mk.injEq, true_and] <;> omega

namespace TimeOfDay

variable {tod : TimeOfDay} {microsecondsPerTick : ℕ}

theorem gregorian_of_validate (h : tod.validate microsecondsPerTick = true) :
    1988 ≤ tod.year ∧ tod.Gregorian := by
  simp only [validate, decide_eq_true_eq] at h
  obtain ⟨-, hsecond, hminute, hhour, hpos, hmonth, hyear, hday, hlast⟩ := h
  have htable := (daysToDate_eq (leapYear tod.year) (tod.month - 1) (by omega)).2
  rw [Nat.sub_add_cancel (by omega)] at htable
  exact ⟨hyear, by omega, ⟨by omega, hmonth⟩, ⟨by omega, htable ▸ hlast⟩, hhour, hminute, hsecond⟩

theorem exists_gregorian (t : ℕ) : ∃ tod : TimeOfDay, tod.Gregorian ∧ tod.seconds = t := by
  obtain ⟨k, d, hd, hdays⟩ := exists_year (t / 86400)
  have hlast : ∀ leap, (if leap = true then 366 else 365) = monthsLength leap 12 := by decide
  rw [yearLength, hlast] at hd
  obtain ⟨month, hmonth, day, hday, rfl⟩ := exists_month hd
  refine ⟨⟨1970 + k, month + 1, day + 1, t % 86400 / 3600, t % 3600 / 60, t % 60, 0⟩, ?_, ?_⟩
  · constructor <;> simp only <;> omega
  · simp only [seconds, days, Nat.add_sub_cancel, Nat.add_sub_cancel_left]; omega

namespace Gregorian

section

variable (h : tod.Gregorian)

include h

theorem yearDay_lt :
    monthsLength (leapYear tod.year) (tod.month - 1) + (tod.day - 1) < yearLength tod.year := by
  obtain ⟨hpos, hlast⟩ := h.day
  refine monthsLength_add_lt _ _ (by have := h.month; omega) _ ?_
  rw [Nat.sub_add_cancel h.month.1]
  omega

theorem clockGetTod_seconds (ht : tod.seconds < 2 ^ 32) (microseconds : ℕ) :
    clockGetTod microsecondsPerTick tod.seconds microseconds =
      { tod with ticks := microseconds / microsecondsPerTick } := by
  obtain ⟨hmonth, hmonth'⟩ := h.month
  obtain ⟨hpos, hlast⟩ := h.day
  have hyear : 1970 + (tod.year - 1970) = tod.year := by have := h.year; omega
  have hlt := h.yearDay_lt
  have hhour := h.hour
  have hminute := h.minute
  have hsecond := h.second
  have hsecs : tod.seconds / 86400 = tod.days ∧
      tod.seconds % 86400 = tod.hour * 3600 + tod.minute * 60 + tod.second := by
    unfold seconds; omega
  have hy : yearOfDays tod.days = (tod.year, monthsLength (leapYear tod.year) (tod.month - 1) +
      (tod.day - 1)) := by
    have hk : tod.year - 1970 < 1000 := by
      have := yearsLength_eq (tod.year - 1970); unfold seconds days at ht; omega
    have hyears := yearOfDays_eq (hyear.symm ▸ hlt) hk
    rwa [hyear, ← Nat.add_assoc] at hyears
  have hm := yearDayAsMonth_eq (leapYear tod.year) (tod.month - 1) (by omega) (tod.day - 1)
    (by rw [Nat.sub_add_cancel hmonth]; omega)
  unfold clockGetTod
  simp only [hsecs, hy, hm, TimeOfDay.mk.injEq, true_and, and_true]
  omega

theorem days_eq : tod.days + 477 = 365 * (tod.year - 1970) + leapYearsBefore tod.year +
      (monthsLength (leapYear tod.year) (tod.month - 1) + (tod.day - 1)) := by
  have hyears := yearsLength_eq (tod.year - 1970)
  rw [Nat.add_sub_cancel' h.year] at hyears
  unfold days
  omega

/-- For the code 2100 is a leap year, with one day more from March on. -/
theorem toSeconds_days (hfrom : 1988 ≤ tod.year) (hto : tod.year < 2200) :
    tod.day - 1 + (daysToDate (tod.year % 4 = 0)).getD tod.month 0 +
        (tod.year - 1988) / 4 * (365 * 4 + 1) + daysSinceLastLeapYear.getD (tod.year % 4) 0 + 6574 =
      tod.days + (if 47541 ≤ tod.days then 1 else 0) ∧
    (tod.days = 47540 ↔ tod.year = 2100 ∧ tod.month = 2 ∧ tod.day = 28) := by
  obtain ⟨hmonth, hmonth'⟩ := h.month
  obtain ⟨hpos, hlast⟩ := h.day
  have hdays := h.days_eq
  have htable := (daysToDate_eq (tod.year % 4 = 0) (tod.month - 1) (by omega)).1
  rw [Nat.sub_add_cancel hmonth] at htable
  have hsince : ∀ r < 4, daysSinceLastLeapYear.getD r 0 = if r = 0 then 0 else r * 365 + 1 := by
    decide
  rw [htable, hsince _ (Nat.mod_lt _ (by decide))]
  by_cases h2100 : tod.year = 2100
  · rw [h2100, show leapYear 2100 = false from rfl] at hdays hlast
    obtain ⟨hleap, h58⟩ := monthsLength_february (tod.month - 1) (by omega) (tod.day - 1)
      (by rw [Nat.sub_add_cancel hmonth]; omega)
    rw [show leapYearsBefore 2100 = 509 from rfl] at hdays
    rw [h2100, show decide (2100 % 4 = 0) = true from rfl, hleap]
    split_ifs <;> omega
  · have hrule : leapYear tod.year = decide (tod.year % 4 = 0) := by
      unfold leapYear; rw [decide_eq_decide]; omega
    have hbefore : leapYearsBefore tod.year + (if 2100 < tod.year then 1 else 0) =
        481 + (tod.year - 1988) / 4 + if tod.year % 4 = 0 then 0 else 1 := by
      clear hdays htable hsince hrule
      have hcenturies : (tod.year - 1) / 100 - (tod.year - 1) / 400 + 481 =
          496 + if 2100 < tod.year then 1 else 0 := by split_ifs <;> omega
      have hfours : (tod.year - 1) / 4 = 496 + (tod.year - 1988) / 4 +
          if tod.year % 4 = 0 then 0 else 1 := by split_ifs <;> omega
      unfold leapYearsBefore
      rw [hfours]
      split_ifs at hcenturies ⊢ <;> omega
    have hlt := h.yearDay_lt
    have hlen : yearLength tod.year ≤ 366 := by unfold yearLength; split <;> decide
    rw [← hrule]
    have hside : 47541 ≤ tod.days ↔ 2100 < tod.year := by
      split_ifs at hbefore <;> omega
    refine ⟨?_, iff_of_false ?_ fun hno => h2100 hno.1⟩
    · simp only [hside]
      split_ifs at hbefore ⊢ <;> omega
    · split_ifs at hbefore <;> omega

/-- Only the last hour of February 2100 is in what the code takes for the next day. -/
theorem toSeconds_eq_iff (hfrom : 1988 ≤ tod.year) (ht : tod.seconds < 2 ^ 32) :
    tod.toSeconds = tod.seconds ↔
      ¬(tod.year = 2100 ∧ tod.month = 2 ∧ tod.day = 28 ∧ tod.hour = 23) := by
  have hto : tod.year < 2200 := by
    have hdays := h.days_eq; unfold seconds at ht; omega
  obtain ⟨hdays, hfeb⟩ := h.toSeconds_days hfrom hto
  have hhour := h.hour
  have hminute := h.minute
  have hsecond := h.second
  unfold toSeconds seconds1970Through1988
  unfold seconds at ht ⊢
  generalize tod.day - 1 + _ + _ + _ = n at hdays ⊢
  have hn : 86400 * n + (tod.hour * 60 + tod.minute) * 60 + tod.second < 2 ^ 32 := by
    split at hdays <;> omega
  simp only [Nat.mod_eq_of_lt hn]
  split_ifs at hdays ⊢ <;> omega

end

end Gregorian

/-- **Calendar time.** Seconds and times of day are converted right, and the clock reads what was
set, unless it is the last hour of February 2100. -/
theorem calendar_exact_iff (microsecondsPerTick : ℕ) :
    (∀ seconds microseconds, seconds1970Through1988 ≤ seconds → seconds < 2 ^ 32 →
      (clockGetTod microsecondsPerTick seconds microseconds).Gregorian ∧
        (clockGetTod microsecondsPerTick seconds microseconds).seconds = seconds) ∧
    ∀ tod : TimeOfDay, tod.validate microsecondsPerTick = true → tod.seconds < 2 ^ 32 →
      ((tod.toSeconds = tod.seconds ∧
          ∀ microseconds, clockGetTod microsecondsPerTick tod.toSeconds microseconds =
            { tod with ticks := microseconds / microsecondsPerTick }) ↔
        ¬(tod.year = 2100 ∧ tod.month = 2 ∧ tod.day = 28 ∧ tod.hour = 23)) := by
  refine ⟨fun seconds microseconds _ hlt => ?_, fun tod hvalid hlt => ?_⟩
  · obtain ⟨tod, h, rfl⟩ := exists_gregorian seconds
    rw [h.clockGetTod_seconds hlt]
    exact ⟨⟨h.year, h.month, h.day, h.hour, h.minute, h.second⟩, rfl⟩
  · obtain ⟨hfrom, h⟩ := gregorian_of_validate hvalid
    rw [← h.toSeconds_eq_iff hfrom hlt]
    refine ⟨And.left, fun heq => ⟨heq, fun microseconds => ?_⟩⟩
    rw [heq, h.clockGetTod_seconds hlt]

/-- 28 February 2100, 23:00. -/
def lastHour : TimeOfDay := ⟨2100, 2, 28, 23, 0, 0, 0⟩

/-- The clock set to 23:00 reads the day before. -/
theorem not_calendar_exact : lastHour.validate 10000 = true ∧ lastHour.seconds = 4107538800 ∧
      lastHour.toSeconds = 4107452400 ∧
      clockGetTod 10000 lastHour.toSeconds 0 = { lastHour with day := 27 } := by
  decide +kernel

end TimeOfDay

end Rtems
