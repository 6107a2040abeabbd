import Night.Core.Time
import Night.Lib.Calendar

/-!
# The dates of `night_gmtime`

Up to the year 9999 the fields are those of the calendar, and no operation on `int`
overflows on the way.
-/

namespace Night.Time

open Night.Calendar

/-! ## Every operation on `int` -/

/-- The year that begins in March and the day in it, from the number of days since 1970. -/
def marchYearInt (days : ℤ) : Option (ℤ × ℤ) := do
  let days ← int (days - (31 + 28))
  let days ← int (days + 719527)
  let sum ← int (days + 2)
  let product ← int (sum * 400)
  let year := product.tdiv (365 * 400 + 100 - 4 + 1)
  let start ← int (365 * year)
  let start ← int (start + year.tdiv 4)
  let start ← int (start - year.tdiv 100)
  let start ← int (start + year.tdiv 400)
  let yday ← int (days - start)
  if yday < 0 then
    let leap := if year.tmod 4 = 0 ∧ (year.tmod 100 ≠ 0 ∨ year.tmod 400 = 0) then 1 else 0
    let yday ← int (365 + leap + yday)
    let year ← int (year - 1)
    some (year, yday)
  else some (year, yday)

/-- The month that a day is in, counted from March, and the day of the month. -/
def marchMonthInt (yday : ℤ) : Option (ℤ × ℤ) := do
  let sum ← int (yday + 31)
  let product ← int (sum * 10)
  let mon := product.tdiv 306
  let product ← int (367 * mon)
  let start ← int (product.tdiv 12 - 30)
  let mday ← int (yday - start)
  let mday ← int (mday + 1)
  some (mon, mday)

/-- `night_gmtime`, where each result of an operation on `int` must be an `int`. -/
def nightGmtimeInt (t : ℤ) : Option Tm := do
  let t := if t < 0 then 0 else t
  let days := wrapInt (t.tdiv 86400)
  let sec := wrapInt (t.tmod 86400)
  let (days, sec) := if days > 2932896 then (2932896, 86399) else (days, sec)
  let sum ← int (4 + days)
  let wday := sum.tmod 7
  let hour := sec.tdiv 3600
  let sec := sec.tmod 3600
  let min := sec.tdiv 60
  let sec := sec.tmod 60
  let (year, yday) ← marchYearInt days
  let (mon, mday) ← marchMonthInt yday
  let year ← if yday ≥ 306 then int (year + 1) else some year
  let mon ← if yday ≥ 306 then int (mon - 10) else int (mon + 2)
  some {
    sec := sec
    min := min
    hour := hour
    mday := mday
    mon := mon
    year := year
    wday := wday }

theorem int_eq_none {n : ℤ} (hrange : ¬ (-2 ^ 31 ≤ n ∧ n < 2 ^ 31)) : int n = none :=
  if_neg hrange

/-- A quotient that is rounded towards zero. -/
theorem tdiv_bounds (n : ℤ) {k : ℤ} (hk : 0 < k) :
    n < k * n.tdiv k + k ∧ k * n.tdiv k < n + k := by
  have hsum := Int.mul_tdiv_add_tmod n k
  have hlow := Int.lt_tmod_of_pos n hk
  have hhigh := Int.tmod_lt_of_pos n hk
  omega

theorem marchYearInt_eq {days : ℤ} (hlow : -2 ^ 31 ≤ days) (hhigh : days ≤ 2932896) :
    marchYearInt days = marchYear days := by
  unfold marchYearInt marchYear
  by_cases hfirst : -2 ^ 31 ≤ days - (31 + 28)
  swap
  · rw [int_eq_none (by omega)]
    rfl
  rw [int_eq hfirst (by omega)]
  simp only [Option.bind_eq_bind, Option.bind_some]
  rw [int_eq (by omega) (by omega)]
  simp only [Option.bind_some]
  rw [int_eq (n := days - (31 + 28) + 719527 + 2) (by omega) (by omega)]
  simp only [Option.bind_some]
  by_cases hproduct : -2 ^ 31 ≤ (days - (31 + 28) + 719527 + 2) * 400
  swap
  · rw [int_eq_none (by omega)]
    rfl
  rw [int_eq hproduct (by omega)]
  simp only [Option.bind_some]
  -- the product bounds the days, and so all that follows
  have hyear := tdiv_bounds ((days - (31 + 28) + 719527 + 2) * 400)
    (show (0 : ℤ) < 365 * 400 + 100 - 4 + 1 by decide)
  generalize ((days - (31 + 28) + 719527 + 2) * 400).tdiv (365 * 400 + 100 - 4 + 1) = year at *
  have hfour := tdiv_bounds year (show (0 : ℤ) < 4 by decide)
  have hhundred := tdiv_bounds year (show (0 : ℤ) < 100 by decide)
  have hcentury := tdiv_bounds year (show (0 : ℤ) < 400 by decide)
  generalize year.tdiv 4 = quarters at *
  generalize year.tdiv 100 = hundreds at *
  generalize year.tdiv 400 = centuries at *
  generalize hleap : (if year.tmod 4 = 0 ∧ (year.tmod 100 ≠ 0 ∨ year.tmod 400 = 0) then (1 : ℤ)
    else 0) = leap
  have hleap' : 0 ≤ leap ∧ leap ≤ 1 := by
    rw [← hleap]
    split_ifs <;> decide
  rw [int_eq (n := 365 * year) (by omega) (by omega)]
  simp only [Option.bind_some]
  rw [int_eq (n := 365 * year + quarters) (by omega) (by omega)]
  simp only [Option.bind_some]
  rw [int_eq (n := 365 * year + quarters - hundreds) (by omega) (by omega)]
  simp only [Option.bind_some]
  rw [int_eq (n := 365 * year + quarters - hundreds + centuries) (by omega) (by omega)]
  simp only [Option.bind_some]
  rw [int_eq (by omega) (by omega)]
  simp only [Option.bind_some]
  split_ifs
  · rw [int_eq (by omega) (by omega), int_eq (by omega) (by omega)]
    rfl
  · rfl

theorem marchMonthInt_eq {yday : ℤ} (hlow : -2 ^ 24 ≤ yday) (hhigh : yday < 2 ^ 24) :
    marchMonthInt yday = some (marchMonth yday) := by
  unfold marchMonthInt marchMonth
  rw [int_eq (n := yday + 31) (by omega) (by omega)]
  simp only [Option.bind_eq_bind, Option.bind_some]
  rw [int_eq (n := (yday + 31) * 10) (by omega) (by omega)]
  simp only [Option.bind_some]
  have hmon := tdiv_bounds ((yday + 31) * 10) (show (0 : ℤ) < 306 by decide)
  generalize ((yday + 31) * 10).tdiv 306 = mon at *
  rw [int_eq (n := 367 * mon) (by omega) (by omega)]
  simp only [Option.bind_some]
  have hstart := tdiv_bounds (367 * mon) (show (0 : ℤ) < 12 by decide)
  generalize (367 * mon).tdiv 12 = start at *
  rw [int_eq (n := start - 30) (by omega) (by omega)]
  simp only [Option.bind_some]
  rw [int_eq (n := yday - (start - 30)) (by omega) (by omega)]
  simp only [Option.bind_some]
  rw [int_eq (by omega) (by omega)]
  rfl

theorem int_eq_some {n m : ℤ} (hint : int n = some m) : -2 ^ 31 ≤ n ∧ n < 2 ^ 31 ∧ n = m := by
  unfold int at hint
  split_ifs at hint with hrange
  exact ⟨hrange.1, hrange.2, Option.some.inj hint⟩

theorem marchMonth_bounds {yday : ℤ} (hlow : -2 ^ 24 ≤ yday) (hhigh : yday < 2 ^ 24) :
    -2 ^ 24 ≤ (marchMonth yday).1 ∧ (marchMonth yday).1 < 2 ^ 24 := by
  have hmon := tdiv_bounds ((yday + 31) * 10) (show (0 : ℤ) < 306 by decide)
  rw [marchMonth]
  omega

theorem wrapInt_bounds (n : ℤ) : -2 ^ 31 ≤ wrapInt n ∧ wrapInt n < 2 ^ 31 := by
  have hlow := Int.le_bmod (x := n) (m := 2 ^ 32) (by decide)
  have hhigh := Int.bmod_lt (x := n) (m := 2 ^ 32) (by decide)
  rw [wrapInt]
  omega

/-- What `marchYear` can give. -/
theorem marchYear_cases {days year yday : ℤ} (hmarch : marchYear days = some (year, yday)) :
    ∃ start, -2 ^ 31 ≤ (days + 719470) * 400 ∧ (days + 719470) * 400 < 2 ^ 31 ∧
      start = ((days + 719470) * 400).tdiv 146097 ∧
      ∃ rest, rest = days + 719468 -
          (365 * start + start.tdiv 4 - start.tdiv 100 + start.tdiv 400) ∧
        (rest < 0 ∧ year = start - 1 ∧ yday = 365 + (if start.tmod 4 = 0 ∧
            (start.tmod 100 ≠ 0 ∨ start.tmod 400 = 0) then 1 else 0) + rest ∨
          0 ≤ rest ∧ year = start ∧ yday = rest) := by
  simp only [marchYear, Option.bind_eq_bind, Option.bind_eq_some_iff] at hmarch
  obtain ⟨first, hfirst, second, hsecond, product, hproduct, hmarch⟩ := hmarch
  obtain ⟨-, -, rfl⟩ := int_eq_some hfirst
  obtain ⟨-, -, rfl⟩ := int_eq_some hsecond
  obtain ⟨hlow, hhigh, rfl⟩ := int_eq_some hproduct
  have hsum : days - (31 + 28) + 719527 = days + 719468 := by omega
  have hdays : (days + 719468 + 2) * 400 = (days + 719470) * 400 := by omega
  rw [hsum, hdays] at hlow hhigh hmarch
  generalize hstart : ((days + 719470) * 400).tdiv (365 * 400 + 100 - 4 + 1) = start at hmarch
  refine ⟨start, hlow, hhigh, hstart.symm, _, rfl, ?_⟩
  by_cases hneg : days + 719468 -
      (365 * start + start.tdiv 4 - start.tdiv 100 + start.tdiv 400) < 0
  · rw [if_pos hneg] at hmarch
    obtain ⟨rfl, rfl⟩ := Prod.mk.inj (Option.some.inj hmarch)
    exact Or.inl ⟨hneg, rfl, rfl⟩
  · rw [if_neg hneg] at hmarch
    obtain ⟨rfl, rfl⟩ := Prod.mk.inj (Option.some.inj hmarch)
    exact Or.inr ⟨Int.not_lt.mp hneg, rfl, rfl⟩

theorem marchYear_bounds {days year yday : ℤ} (hmarch : marchYear days = some (year, yday)) :
    (-2 ^ 24 ≤ yday ∧ yday < 2 ^ 24) ∧ -2 ^ 24 ≤ year ∧ year < 2 ^ 24 := by
  obtain ⟨start, hlow, hhigh, hstart, rest, hrest, hcases⟩ := marchYear_cases hmarch
  have hproduct := tdiv_bounds ((days + 719470) * 400) (show (0 : ℤ) < 146097 by decide)
  rw [← hstart] at hproduct
  have hfour := tdiv_bounds start (show (0 : ℤ) < 4 by decide)
  have hhundred := tdiv_bounds start (show (0 : ℤ) < 100 by decide)
  have hcentury := tdiv_bounds start (show (0 : ℤ) < 400 by decide)
  generalize start.tdiv 4 = quarters at *
  generalize start.tdiv 100 = hundreds at *
  generalize start.tdiv 400 = centuries at *
  obtain ⟨hneg, rfl, hyday⟩ | ⟨hpos, rfl, rfl⟩ := hcases
  · split_ifs at hyday <;> omega
  · omega

/-- The operations that `nightGmtime` does not check stay in their range. -/
theorem nightGmtimeInt_eq (t : ℤ) : nightGmtimeInt t = nightGmtime t := by
  unfold nightGmtimeInt nightGmtime
  generalize hstart : (if t < 0 then (0 : ℤ) else t) = start
  have hpos : 0 ≤ start := by
    rw [← hstart]
    split_ifs <;> omega
  have hsec : wrapInt (start.tmod 86400) = start.tmod 86400 := by
    rw [Int.tmod_eq_emod_of_nonneg hpos]
    exact wrapInt_eq (by omega) (by omega)
  have hdays := wrapInt_bounds (start.tdiv 86400)
  dsimp only
  rw [hsec]
  generalize hclamped : (if wrapInt (start.tdiv 86400) > 2932896 then ((2932896 : ℤ), (86399 : ℤ))
    else (wrapInt (start.tdiv 86400), start.tmod 86400)) = clamped
  obtain ⟨days, sec⟩ := clamped
  have hbounds : -2 ^ 31 ≤ days ∧ days ≤ 2932896 := by
    split_ifs at hclamped
    · obtain ⟨rfl, rfl⟩ := Prod.mk.inj hclamped
      omega
    · obtain ⟨rfl, rfl⟩ := Prod.mk.inj hclamped
      omega
  dsimp only
  rw [int_eq (n := 4 + days) (by omega) (by omega)]
  simp only [Option.bind_eq_bind, Option.bind_some]
  rw [marchYearInt_eq hbounds.1 hbounds.2]
  cases hmarch : marchYear days with
  | none => rfl
  | some date =>
    obtain ⟨year, yday⟩ := date
    obtain ⟨hyday, hyear⟩ := marchYear_bounds hmarch
    simp only [Option.bind_some]
    rw [marchMonthInt_eq hyday.1 hyday.2]
    obtain ⟨hmon, hmon'⟩ := marchMonth_bounds hyday.1 hyday.2
    generalize marchMonth yday = date at *
    obtain ⟨mon, mday⟩ := date
    simp only [Option.bind_some]
    dsimp only at hmon hmon'
    split_ifs
    · rw [int_eq (n := year + 1) (by omega) (by omega), int_eq (n := mon - 10) (by omega) (by omega)]
      rfl
    · rw [int_eq (n := mon + 2) (by omega) (by omega)]
      rfl

/-! ## The calendar -/

/-- The first second of 1970, a Thursday. -/
def epoch : Moment := midnight ⟨1970, 1, 1⟩ 4

/-- The fields of a second of the calendar. -/
def tmOf (moment : Moment) : Tm where
  sec := moment.second
  min := moment.minute
  hour := moment.hour
  mday := moment.date.day
  mon := moment.date.month
  year := moment.date.year
  wday := moment.weekday

/-- The date that is made of the day of a year that begins in March. -/
def marchDate (year yday : ℤ) : Date :=
  let (mon, mday) := marchMonth yday
  let (year, mon) := if yday ≥ 306 then (year + 1, mon - 10) else (year, mon + 2)
  ⟨year, mon, mday⟩

/-- From the first of March of year 0 on, the year is estimated and corrected to the one that
has the day. -/
theorem marchYear_number {days : ℤ} (hlow : -719468 ≤ days) (hhigh : days ≤ 2932896) :
    ∃ year yday, marchYear days = some (year, yday) ∧
      marchStart year + yday = days + 719468 ∧ 0 ≤ yday ∧
      yday < if IsLeap (year + 1) then 366 else 365 := by
  rw [marchYear, int_eq (by omega) (by omega)]
  simp only [Option.bind_eq_bind, Option.bind_some]
  rw [int_eq (by omega) (by omega)]
  simp only [Option.bind_some]
  rw [int_eq (by omega) (by omega)]
  simp only [Option.bind_some]
  rw [Int.tdiv_eq_ediv_of_nonneg (by omega)]
  generalize hyear : (days - (31 + 28) + 719527 + 2) * 400 / (365 * 400 + 100 - 4 + 1) = year
  have hpos : 0 ≤ year := by omega
  rw [Int.tdiv_eq_ediv_of_nonneg hpos, Int.tdiv_eq_ediv_of_nonneg hpos,
    Int.tdiv_eq_ediv_of_nonneg hpos, Int.tmod_eq_emod_of_nonneg hpos,
    Int.tmod_eq_emod_of_nonneg hpos, Int.tmod_eq_emod_of_nonneg hpos]
  by_cases hneg : days - (31 + 28) + 719527 -
      (365 * year + year / 4 - year / 100 + year / 400) < 0
  · -- the estimate is one year too late
    rw [if_pos hneg]
    refine ⟨_, _, rfl, ?_⟩
    have hsucc := marchStart_succ (year - 1)
    rw [sub_add_cancel] at hsucc ⊢
    unfold IsLeap marchStart at *
    split_ifs at hsucc ⊢ <;> omega
  · rw [if_neg hneg]
    refine ⟨_, _, rfl, ?_⟩
    unfold IsLeap marchStart
    split_ifs <;> omega

theorem marchDate_eq (year yday : ℤ) :
    marchDate year yday = ⟨if yday ≥ 306 then year + 1 else year,
      (marchDate 0 yday).month, (marchDate 0 yday).day⟩ := by
  unfold marchDate
  split_ifs <;> rfl

theorem marchDate_of_month {yday mon mday : ℤ} (year : ℤ) (hmonth : marchMonth yday = (mon, mday)) :
    marchDate year yday =
      if yday ≥ 306 then ⟨year + 1, mon - 10, mday⟩ else ⟨year, mon + 2, mday⟩ := by
  rw [marchDate, hmonth]
  by_cases hwinter : yday ≥ 306
  · simp only [if_pos hwinter]
  · simp only [if_neg hwinter]

/-- The month formulas agree with the months of the calendar; year 4 is a leap year. -/
theorem marchDate_month {yday : ℤ} (hlow : 0 ≤ yday) (hhigh : yday ≤ 365) :
    1 ≤ (marchDate 0 yday).month ∧ (marchDate 0 yday).month ≤ 12 ∧
      ((marchDate 0 yday).month ≤ 2 ↔ 306 ≤ yday) ∧
      (marchDate 0 yday).yearDay = yday ∧
      1 ≤ (marchDate 0 yday).day ∧
      (marchDate 0 yday).day ≤ monthLength 4 (marchDate 0 yday).month ∧
      (yday < 365 → (marchDate 0 yday).day ≤ monthLength 1 (marchDate 0 yday).month) := by
  have hall : ∀ yday : Fin 366, 1 ≤ (marchDate 0 yday.val).month ∧
      (marchDate 0 yday.val).month ≤ 12 ∧
      ((marchDate 0 yday.val).month ≤ 2 ↔ (306 : ℤ) ≤ yday.val) ∧
      (marchDate 0 yday.val).yearDay = yday.val ∧
      1 ≤ (marchDate 0 yday.val).day ∧
      (marchDate 0 yday.val).day ≤ monthLength 4 (marchDate 0 yday.val).month ∧
      ((yday.val : ℤ) < 365 →
        (marchDate 0 yday.val).day ≤ monthLength 1 (marchDate 0 yday.val).month) := by
    decide +kernel
  obtain ⟨day, rfl⟩ := Int.eq_ofNat_of_zero_le hlow
  exact hall ⟨day, by omega⟩

/-- The day of a year that begins in March is found in the calendar. -/
theorem marchDate_spec {year yday : ℤ} (hlow : 0 ≤ yday)
    (hhigh : yday < if IsLeap (year + 1) then 366 else 365) :
    (marchDate year yday).Valid ∧ (marchDate year yday).number = marchStart year + yday := by
  have hlast : yday ≤ 365 := by
    split_ifs at hhigh <;> omega
  obtain ⟨hmonth, hmonth', hearly, hyearDay, hday, hleapDay, hcommonDay⟩ :=
    marchDate_month hlow hlast
  have hnumber : (marchDate year yday).marchYear = year := by
    rw [marchDate_eq, Date.marchYear]
    dsimp only
    split_ifs <;> omega
  have hin : (marchDate year yday).yearDay = yday := by
    rw [marchDate_eq]
    exact hyearDay
  refine ⟨⟨?_, ?_⟩, by rw [Date.number, hnumber, hin]⟩
  · rw [marchDate_eq]
    exact ⟨hmonth, hmonth'⟩
  · rw [marchDate_eq]
    refine ⟨hday, ?_⟩
    dsimp only
    by_cases hwinter : yday ≥ 306
    · rw [if_pos hwinter]
      by_cases hleap : IsLeap (year + 1)
      · have hsame : IsLeap (year + 1) ↔ IsLeap 4 := iff_of_true hleap (by decide)
        rw [monthLength_congr hsame]
        exact hleapDay
      · have hsame : IsLeap (year + 1) ↔ IsLeap 1 := iff_of_false hleap (by decide)
        rw [if_neg hleap] at hhigh
        rw [monthLength_congr hsame]
        exact hcommonDay hhigh
    · -- no other month depends on the year
      rw [if_neg hwinter]
      have hfebruary : (marchDate 0 yday).month ≠ 2 := by omega
      have hcommon := hcommonDay (by omega)
      rw [monthLength, if_neg hfebruary] at hcommon ⊢
      exact hcommon

theorem number_epoch : (⟨1970, 1, 1⟩ : Date).number = 719468 := by decide

theorem valid_epoch : (⟨1970, 1, 1⟩ : Date).Valid := ⟨by decide, by decide⟩

/-- The days and the seconds of the last day that the fields are computed from. -/
def daysAndSec (t : ℤ) : ℤ × ℤ :=
  if wrapInt (max t 0 / 86400) > 2932896 then (2932896, 86399)
  else (wrapInt (max t 0 / 86400), max t 0 % 86400)

/-- The fields of a date and of the seconds of a day. -/
def fields (days sec : ℤ) (date : Date) : Tm where
  sec := sec % 3600 % 60
  min := sec % 3600 / 60
  hour := sec / 3600
  mday := date.day
  mon := date.month
  year := date.year
  wday := (4 + days).tmod 7

theorem daysAndSec_bounds (t : ℤ) :
    (-2 ^ 31 ≤ (daysAndSec t).1 ∧ (daysAndSec t).1 ≤ 2932896) ∧
      0 ≤ (daysAndSec t).2 ∧ (daysAndSec t).2 < 86400 := by
  have hdays := wrapInt_bounds (max t 0 / 86400)
  unfold daysAndSec
  split_ifs
  · dsimp only
    omega
  · dsimp only
    omega

theorem nightGmtime_eq (t : ℤ) :
    nightGmtime t = (marchYear (daysAndSec t).1).map fun march =>
      fields (daysAndSec t).1 (daysAndSec t).2 (marchDate march.1 march.2) := by
  have hstart : (if t < 0 then 0 else t) = max t 0 := by
    split_ifs <;> omega
  have hpos : 0 ≤ max t 0 := le_max_right t 0
  have hsplit : (if wrapInt ((max t 0).tdiv 86400) > 2932896 then ((2932896 : ℤ), (86399 : ℤ))
      else (wrapInt ((max t 0).tdiv 86400), (max t 0).tmod 86400)) = daysAndSec t := by
    rw [Int.tdiv_eq_ediv_of_nonneg hpos, Int.tmod_eq_emod_of_nonneg hpos, daysAndSec]
  obtain ⟨-, hsec, -⟩ := daysAndSec_bounds t
  unfold nightGmtime
  rw [hstart]
  dsimp only
  rw [hsplit]
  generalize daysAndSec t = split at *
  obtain ⟨days, sec⟩ := split
  dsimp only at hsec ⊢
  cases marchYear days with
  | none => rfl
  | some march =>
    have hhour : (sec.tmod 3600).tmod 60 = sec % 3600 % 60 ∧
        (sec.tmod 3600).tdiv 60 = sec % 3600 / 60 ∧ sec.tdiv 3600 = sec / 3600 := by
      rw [Int.tmod_eq_emod_of_nonneg hsec, Int.tmod_eq_emod_of_nonneg (by omega),
        Int.tdiv_eq_ediv_of_nonneg (by omega), Int.tdiv_eq_ediv_of_nonneg hsec]
      exact ⟨rfl, rfl, rfl⟩
    rw [hhour.1, hhour.2.1, hhour.2.2]
    rfl

/-- From the first of March of year 0 on, the date is the one of the calendar. -/
theorem nightGmtime_date {t : ℤ} (hlow : -719468 ≤ (daysAndSec t).1) :
    ∃ date : Date, date.Valid ∧ date.number = (daysAndSec t).1 + 719468 ∧
      nightGmtime t = some (fields (daysAndSec t).1 (daysAndSec t).2 date) := by
  obtain ⟨year, yday, hmarch, hnumber, hyday, hlast⟩ :=
    marchYear_number hlow (daysAndSec_bounds t).1.2
  obtain ⟨hvalid, hdate⟩ := marchDate_spec hyday hlast
  refine ⟨marchDate year yday, hvalid, hdate.trans hnumber, ?_⟩
  rw [nightGmtime_eq, hmarch]
  rfl

theorem daysAndSec_eq {n : ℕ} (hhigh : n ≤ 253402300799) :
    daysAndSec n = (((n / 86400 : ℕ) : ℤ), ((n % 86400 : ℕ) : ℤ)) := by
  have hmax : max (n : ℤ) 0 = n := max_eq_left (Int.natCast_nonneg n)
  have hwrap : wrapInt ((n : ℤ) / 86400) = n / 86400 := wrapInt_eq (by omega) (by omega)
  rw [daysAndSec, hmax, hwrap, if_neg (by omega)]
  push_cast
  rfl

/-- The fields of the date with the number of a later day are those of the calendar. -/
theorem fields_eq_tmOf {n : ℕ} {date : Date} (hvalid : date.Valid)
    (hnumber : date.number = ((n / 86400 : ℕ) : ℤ) + 719468) :
    fields ((n / 86400 : ℕ) : ℤ) ((n % 86400 : ℕ) : ℤ) date =
      tmOf (Moment.next^[n] epoch) := by
  have hdate : Date.next^[n / 86400] ⟨1970, 1, 1⟩ = date := by
    apply valid_epoch.iterate_eq hvalid
    rw [number_epoch, hnumber, add_comm]
  rw [epoch, iterate_midnight _ (by decide) (by decide), momentAt, hdate, fields, tmOf,
    Int.tmod_eq_emod_of_nonneg (by omega)]
  push_cast
  rfl

/-- The fields up to the end of the year 9999. -/
theorem nightGmtime_moment {n : ℕ} (hhigh : n ≤ 253402300799) :
    nightGmtime n = some (tmOf (Moment.next^[n] epoch)) := by
  have hsplit := daysAndSec_eq hhigh
  obtain ⟨date, hvalid, hnumber, hfields⟩ := @nightGmtime_date (n : ℤ) (by rw [hsplit]; omega)
  rw [hsplit] at hnumber hfields
  rw [hfields, fields_eq_tmOf hvalid hnumber]

/-- `night_gmtime` gives the second of the calendar that is `t` seconds behind the first one
of 1970, and each of its operations on `int` stays in range. -/
theorem nightGmtime_calendar (t : ℤ) (hlow : 0 ≤ t) (hhigh : t ≤ 253402300799) :
    nightGmtimeInt t = some (tmOf (Moment.next^[t.toNat] epoch)) := by
  obtain ⟨n, rfl⟩ := Int.eq_ofNat_of_zero_le hlow
  rw [nightGmtimeInt_eq, nightGmtime_moment (by omega)]
  rfl

/-- The leap day of the year 2000. -/
theorem nightGmtime_leapDay : nightGmtimeInt 951782400 =
    some ⟨0, 0, 0, 29, 2, 2000, 2⟩ ∧
    nightGmtimeInt 951782400 = some (tmOf (Moment.next^[(951782400 : ℤ).toNat] epoch)) :=
  ⟨by decide, nightGmtime_calendar 951782400 (by decide) (by decide)⟩

end Night.Time
