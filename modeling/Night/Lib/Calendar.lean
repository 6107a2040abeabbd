import Mathlib.Algebra.Order.Group.Int
import Mathlib.Data.Int.ConditionallyCompleteOrder
import Mathlib.Logic.Function.Iterate
import Mathlib.Order.Monotone.Basic
import Mathlib.Tactic.IntervalCases
import Mathlib.Tactic.Ring

/-!
# The proleptic Gregorian calendar

A date is followed by the next date of its month, of its year or of the calendar.  The
lemmas number the days: a program that computes a valid date with the number of a day has
found the date that is reached by going on from day to day.

Numbers count from the first of March of year 0, so that the leap day ends a year.
-/

namespace Night.Calendar

/-! ## Dates -/

/-- The years with a twenty-ninth of February. -/
def IsLeap (year : ℤ) : Prop := 4 ∣ year ∧ (¬ 100 ∣ year ∨ 400 ∣ year)

instance (year : ℤ) : Decidable (IsLeap year) :=
  inferInstanceAs (Decidable (_ ∧ _))

/-- The number of days of a month, January is 1. -/
def monthLength (year month : ℤ) : ℤ :=
  if month = 2 then if IsLeap year then 29 else 28
  else if month = 4 ∨ month = 6 ∨ month = 9 ∨ month = 11 then 30
  else 31

structure Date where
  year : ℤ
  month : ℤ
  day : ℤ
  deriving DecidableEq, Repr

/-- The dates of the calendar. -/
structure Date.Valid (date : Date) : Prop where
  month : 1 ≤ date.month ∧ date.month ≤ 12
  day : 1 ≤ date.day ∧ date.day ≤ monthLength date.year date.month

/-- The day after. -/
def Date.next (date : Date) : Date :=
  if date.day < monthLength date.year date.month then { date with day := date.day + 1 }
  else if date.month < 12 then ⟨date.year, date.month + 1, 1⟩
  else ⟨date.year + 1, 1, 1⟩

theorem monthLength_bounds (year month : ℤ) :
    28 ≤ monthLength year month ∧ monthLength year month ≤ 31 := by
  unfold monthLength
  split_ifs <;> omega

theorem monthLength_congr {year year' : ℤ} (hleap : IsLeap year ↔ IsLeap year') (month : ℤ) :
    monthLength year month = monthLength year' month := by
  unfold monthLength
  simp only [hleap]

theorem Date.Valid.next {date : Date} (hvalid : date.Valid) : date.next.Valid := by
  have hmonth := hvalid.month
  have hday := hvalid.day
  rw [Date.next]
  split_ifs with hin hyear
  · exact ⟨hmonth, by dsimp only; omega⟩
  · have hbounds := monthLength_bounds date.year (date.month + 1)
    exact ⟨by dsimp only; omega, by dsimp only; omega⟩
  · have hbounds := monthLength_bounds (date.year + 1) 1
    exact ⟨by dsimp only; omega, by dsimp only; omega⟩

theorem Date.Valid.iterate {date : Date} (hvalid : date.Valid) (n : ℕ) :
    (Date.next^[n] date).Valid := by
  induction n with
  | zero => exact hvalid
  | succ n ih =>
    rw [Function.iterate_succ_apply']
    exact ih.next

/-! ## The years that begin in March -/

/-- The number of the first of March of a year. -/
def marchStart (year : ℤ) : ℤ := 365 * year + year / 4 - year / 100 + year / 400

/-- A year that begins in March ends with the February of the next one. -/
theorem marchStart_succ (year : ℤ) :
    marchStart (year + 1) = marchStart year + if IsLeap (year + 1) then 366 else 365 := by
  unfold marchStart IsLeap
  split_ifs <;> omega

theorem marchStart_lt_succ (year : ℤ) : marchStart year < marchStart (year + 1) := by
  rw [marchStart_succ]
  split_ifs <;> omega

theorem marchStart_strictMono : StrictMono marchStart :=
  strictMono_int_of_lt_succ marchStart_lt_succ

/-- A day is in one of these years only. -/
theorem marchYear_unique {year year' n : ℤ} (hlow : marchStart year ≤ n)
    (hhigh : n < marchStart (year + 1)) (hlow' : marchStart year' ≤ n)
    (hhigh' : n < marchStart (year' + 1)) : year = year' := by
  have hle : year < year' + 1 := marchStart_strictMono.lt_iff_lt.mp (by omega)
  have hge : year' < year + 1 := marchStart_strictMono.lt_iff_lt.mp (by omega)
  omega

/-- The year that begins in March and has the date. -/
def Date.marchYear (date : Date) : ℤ :=
  if date.month ≤ 2 then date.year - 1 else date.year

/-- The number of days from the first of March to the first of a month. -/
def monthStart (month : ℤ) : ℤ :=
  if month ≤ 2 then (153 * (month + 9) + 2) / 5 else (153 * (month - 3) + 2) / 5

/-- The number of days of the date behind the first of March. -/
def Date.yearDay (date : Date) : ℤ := monthStart date.month + date.day - 1

/-- The number of a date. -/
def Date.number (date : Date) : ℤ := marchStart date.marchYear + date.yearDay

/-- In a year that begins in March every month but the last has its own length. -/
theorem monthStart_succ (year : ℤ) {month : ℤ} (hlow : 1 ≤ month) (hhigh : month < 12)
    (hmonth : month ≠ 2) : monthStart (month + 1) = monthStart month + monthLength year month := by
  unfold monthLength
  rw [if_neg hmonth]
  interval_cases month <;> first | rfl | exact absurd rfl hmonth

theorem Date.Valid.yearDay_nonneg {date : Date} (hvalid : date.Valid) : 0 ≤ date.yearDay := by
  have hmonth := hvalid.month
  have hday := hvalid.day
  unfold Date.yearDay monthStart
  split_ifs <;> omega

theorem Date.Valid.yearDay_lt {date : Date} (hvalid : date.Valid) :
    date.yearDay < if IsLeap (date.marchYear + 1) then 366 else 365 := by
  obtain ⟨year, month, day⟩ := date
  obtain ⟨hmonth, hday⟩ := hvalid
  unfold monthLength at hday
  unfold Date.yearDay Date.marchYear monthStart
  dsimp only at hmonth hday ⊢
  by_cases hearly : month ≤ 2
  · rw [if_pos hearly, if_pos hearly, sub_add_cancel]
    split_ifs at hday ⊢ <;> omega
  · rw [if_neg hearly, if_neg hearly]
    split_ifs at hday ⊢ <;> omega

theorem Date.Valid.marchStart_le {date : Date} (hvalid : date.Valid) :
    marchStart date.marchYear ≤ date.number := by
  have hpos := hvalid.yearDay_nonneg
  rw [Date.number]
  omega

theorem Date.Valid.lt_marchStart {date : Date} (hvalid : date.Valid) :
    date.number < marchStart (date.marchYear + 1) := by
  have hlt := hvalid.yearDay_lt
  rw [Date.number, marchStart_succ]
  omega

/-- January and February end a year that begins in March. -/
theorem Date.Valid.yearDay_month {date : Date} (hvalid : date.Valid) :
    date.month ≤ 2 ↔ 306 ≤ date.yearDay := by
  obtain ⟨year, month, day⟩ := date
  obtain ⟨⟨hlow, hhigh⟩, hday⟩ := hvalid
  have hlength := monthLength_bounds year month
  unfold Date.yearDay monthStart
  dsimp only at hlow hhigh hday ⊢
  by_cases hearly : month ≤ 2
  · rw [if_pos hearly]
    omega
  · rw [if_neg hearly]
    unfold monthLength at hday
    split_ifs at hday <;> omega

/-- A year begins with its January. -/
theorem Date.Valid.le_year_iff {date : Date} (hvalid : date.Valid) (year : ℤ) :
    year ≤ date.year ↔ marchStart (year - 1) + 306 ≤ date.number := by
  have hmonth := hvalid.yearDay_month
  have hlow := hvalid.marchStart_le
  have hhigh := hvalid.lt_marchStart
  unfold Date.number at *
  unfold Date.marchYear at *
  constructor
  · intro hle
    by_cases hearly : date.month ≤ 2
    · rw [if_pos hearly] at *
      have hmono := marchStart_strictMono.monotone (show year - 1 ≤ date.year - 1 by omega)
      omega
    · rw [if_neg hearly] at *
      have hmono := marchStart_strictMono.monotone (show year - 1 + 1 ≤ date.year by omega)
      have hsucc := marchStart_succ (year - 1)
      have hpos := hvalid.yearDay_nonneg
      split_ifs at hsucc <;> omega
  · intro hle
    by_contra hlt
    by_cases hearly : date.month ≤ 2
    · rw [if_pos hearly] at *
      have hmono := marchStart_strictMono.monotone (show date.year - 1 + 1 ≤ year - 1 by omega)
      omega
    · rw [if_neg hearly] at *
      have hmono := marchStart_strictMono.monotone (show date.year ≤ year - 1 by omega)
      omega

/-! ## The numbers of dates -/

theorem Date.Valid.number_next {date : Date} (hvalid : date.Valid) :
    date.next.number = date.number + 1 := by
  have hsucc := marchStart_succ (date.year - 1)
  rw [sub_add_cancel] at hsucc
  obtain ⟨year, month, day⟩ := date
  obtain ⟨hmonth, hday⟩ := hvalid
  dsimp only at hmonth hday hsucc
  rw [Date.next]
  dsimp only
  split_ifs with hin hyear
  · simp only [Date.number, Date.marchYear, Date.yearDay]
    omega
  · have hlast : day = monthLength year month := by omega
    simp only [Date.number, Date.marchYear, Date.yearDay]
    by_cases hfebruary : month = 2
    · -- the first of March begins a new year
      subst hfebruary
      rw [monthLength, if_pos rfl] at hlast
      rw [if_neg (by decide), if_pos (by decide), hsucc, hlast]
      split_ifs
      · rw [show monthStart (2 + 1) = 0 from rfl, show monthStart 2 = 337 from rfl]
        omega
      · rw [show monthStart (2 + 1) = 0 from rfl, show monthStart 2 = 337 from rfl]
        omega
    · have hstart := monthStart_succ year hmonth.1 hyear hfebruary
      split_ifs <;> omega
  · have hlast : day = monthLength year month := by omega
    obtain rfl : month = 12 := by omega
    rw [monthLength, if_neg (by decide), if_neg (by decide)] at hlast
    subst hlast
    simp only [Date.number, Date.marchYear, Date.yearDay, monthStart]
    rw [if_pos (by decide), if_pos (by decide), if_neg (by decide), if_neg (by decide),
      add_sub_cancel_right]
    omega

theorem Date.Valid.number_iterate {date : Date} (hvalid : date.Valid) (n : ℕ) :
    (Date.next^[n] date).number = date.number + n := by
  induction n with
  | zero => simp
  | succ n ih =>
    rw [Function.iterate_succ_apply', (hvalid.iterate n).number_next, ih]
    push_cast
    ring

/-- The day of a year that begins in March determines its month. -/
theorem Date.Valid.month_eq {date : Date} (hvalid : date.Valid) :
    (5 * date.yearDay + 2) / 153 = if date.month ≤ 2 then date.month + 9 else date.month - 3 := by
  obtain ⟨year, month, day⟩ := date
  obtain ⟨⟨hlow, hhigh⟩, hday⟩ := hvalid
  unfold monthLength at hday
  unfold Date.yearDay monthStart
  dsimp only at hlow hhigh hday ⊢
  interval_cases month
  all_goals
    norm_num at hday ⊢
    omega

theorem Date.Valid.month_day_unique {date date' : Date} (hvalid : date.Valid)
    (hvalid' : date'.Valid) (hyear : date.marchYear = date'.marchYear)
    (hday : date.yearDay = date'.yearDay) : date = date' := by
  have hindex := hvalid.month_eq
  have hindex' := hvalid'.month_eq
  rw [hday, hindex'] at hindex
  have hmonth : date.month = date'.month := by
    have := hvalid.month
    have := hvalid'.month
    split_ifs at hindex <;> omega
  obtain ⟨year, month, day⟩ := date
  obtain ⟨year', month', day'⟩ := date'
  dsimp only at hmonth
  subst hmonth
  simp only [Date.marchYear, Date.yearDay] at hyear hday
  obtain rfl : day = day' := by omega
  obtain rfl : year = year' := by
    split_ifs at hyear <;> omega
  rfl

/-- Two dates with one number are the same. -/
theorem Date.Valid.eq_of_number {date date' : Date} (hvalid : date.Valid)
    (hvalid' : date'.Valid) (hnumber : date.number = date'.number) : date = date' := by
  have hyear : date.marchYear = date'.marchYear :=
    marchYear_unique hvalid.marchStart_le hvalid.lt_marchStart
      (hnumber ▸ hvalid'.marchStart_le) (hnumber ▸ hvalid'.lt_marchStart)
  apply hvalid.month_day_unique hvalid' hyear
  simpa [Date.number, hyear] using hnumber

/-- A valid date with the number of a later day is reached by going on from day to day. -/
theorem Date.Valid.iterate_eq {date date' : Date} (hvalid : date.Valid) (hvalid' : date'.Valid)
    {n : ℕ} (hnumber : date'.number = date.number + n) : Date.next^[n] date = date' := by
  apply (hvalid.iterate n).eq_of_number hvalid'
  rw [hvalid.number_iterate, hnumber]

/-! ## The time of day -/

/-- A second of the calendar; Sunday is day 0 of the week. -/
structure Moment where
  date : Date
  weekday : ℤ
  hour : ℤ
  minute : ℤ
  second : ℤ
  deriving DecidableEq, Repr

/-- The second after. -/
def Moment.next (moment : Moment) : Moment :=
  if moment.second < 59 then { moment with second := moment.second + 1 }
  else if moment.minute < 59 then { moment with minute := moment.minute + 1, second := 0 }
  else if moment.hour < 23 then
    { moment with hour := moment.hour + 1, minute := 0, second := 0 }
  else
    { date := moment.date.next, weekday := (moment.weekday + 1) % 7
      hour := 0, minute := 0, second := 0 }

/-- The first second of a day. -/
def midnight (date : Date) (weekday : ℤ) : Moment := ⟨date, weekday, 0, 0, 0⟩

/-- The second `n` of the days from a date on. -/
def momentAt (date : Date) (weekday : ℤ) (n : ℕ) : Moment where
  date := Date.next^[n / 86400] date
  weekday := (weekday + (n / 86400 : ℕ)) % 7
  hour := (n % 86400 / 3600 : ℕ)
  minute := (n % 86400 % 3600 / 60 : ℕ)
  second := (n % 86400 % 3600 % 60 : ℕ)

theorem momentAt_zero (date : Date) {weekday : ℤ} (hlow : 0 ≤ weekday) (hhigh : weekday < 7) :
    momentAt date weekday 0 = midnight date weekday := by
  have hweekday : weekday % 7 = weekday := Int.emod_eq_of_lt hlow hhigh
  simp [momentAt, midnight, hweekday]

theorem momentAt_next (date : Date) (weekday : ℤ) (n : ℕ) :
    (momentAt date weekday n).next = momentAt date weekday (n + 1) := by
  unfold Moment.next
  by_cases hsecond : (momentAt date weekday n).second < 59
  · rw [if_pos hsecond]
    dsimp only [momentAt] at hsecond ⊢
    have hday : (n + 1) / 86400 = n / 86400 := by omega
    have hhour : (n + 1) % 86400 / 3600 = n % 86400 / 3600 := by omega
    have hminute : (n + 1) % 86400 % 3600 / 60 = n % 86400 % 3600 / 60 := by omega
    rw [hday, hhour, hminute]
    congr 1
    omega
  rw [if_neg hsecond]
  by_cases hminute : (momentAt date weekday n).minute < 59
  · rw [if_pos hminute]
    dsimp only [momentAt] at hsecond hminute ⊢
    have hday : (n + 1) / 86400 = n / 86400 := by omega
    have hhour : (n + 1) % 86400 / 3600 = n % 86400 / 3600 := by omega
    rw [hday, hhour]
    congr 1 <;> omega
  rw [if_neg hminute]
  by_cases hhour : (momentAt date weekday n).hour < 23
  · rw [if_pos hhour]
    dsimp only [momentAt] at hsecond hminute hhour ⊢
    have hday : (n + 1) / 86400 = n / 86400 := by omega
    rw [hday]
    congr 1 <;> omega
  · rw [if_neg hhour]
    dsimp only [momentAt] at hsecond hminute hhour ⊢
    have hday : (n + 1) / 86400 = n / 86400 + 1 := by omega
    rw [hday, Function.iterate_succ_apply']
    congr 1 <;> omega

/-- Going on from second to second, the days and the times of day follow each other. -/
theorem iterate_midnight (date : Date) {weekday : ℤ} (hlow : 0 ≤ weekday) (hhigh : weekday < 7)
    (n : ℕ) : Moment.next^[n] (midnight date weekday) = momentAt date weekday n := by
  induction n with
  | zero => exact (momentAt_zero date hlow hhigh).symm
  | succ n ih => rw [Function.iterate_succ_apply', ih, momentAt_next]

end Night.Calendar
