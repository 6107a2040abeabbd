import Night.Core.TimeDate

/-!
# `night_gmtime` of the current tree

All its locals are of type `uint64_t`.  A day before the first of March of the estimated year
wraps around instead of becoming negative, and the estimate is never corrected.
-/

namespace Night.Times

open Night.Bytes Night.Calendar Night.Time

/-! ## `night_gmtime` -/

/-- The year that begins in March and the day in it, from the number of days since 1970. -/
def marchYear (days : ℤ) : ℤ × ℤ :=
  let days := u64 (u64 (days - (31 + 28)) + 719527)
  let year := u64 (u64 (days + 2) * 400) / (365 * 400 + 100 - 4 + 1)
  let yday := u64 (days - u64 (u64 (u64 (u64 (365 * year) + year / 4) - year / 100) + year / 400))
  -- no value of the type is negative
  if yday < 0 then
    let leap := if year % 4 = 0 ∧ (year % 100 ≠ 0 ∨ year % 400 = 0) then 1 else 0
    (u64 (year - 1), u64 (365 + leap + yday))
  else (year, yday)

/-- The month and the day of the month of a day in a year that begins in March. -/
def marchMonth (yday : ℤ) : ℤ × ℤ :=
  let mon := u64 (u64 (yday + 31) * 10) / 306
  (mon, u64 (u64 (yday - u64 (u64 (367 * mon) / 12 - 30)) + 1))

/-- `night_gmtime`; the fields of `struct tm` are of type `int`. -/
def nightGmtime (t : ℤ) : Tm :=
  let t := if t < 0 then 0 else t
  let days := u64 (t.tdiv 86400)
  let sec := u64 (t.tmod 86400)
  let (days, sec) := if days > 2932896 then (2932896, 86399) else (days, sec)
  let wday := u64 (4 + days) % 7
  let hour := sec / 3600
  let sec := sec % 3600
  let min := sec / 60
  let sec := sec % 60
  let (year, yday) := marchYear days
  let (mon, mday) := marchMonth yday
  let (year, mon) :=
    if yday ≥ 306 then (u64 (year + 1), u64 (mon - 10)) else (year, u64 (mon + 2))
  { sec := wrapInt sec
    min := wrapInt min
    hour := wrapInt hour
    mday := wrapInt mday
    mon := wrapInt mon
    year := wrapInt year
    wday := wrapInt wday }

/-! ## The days that come too early -/

/-- The average length of a year, counted from two days before the first of March of year 0,
lets a year begin before its first of March. -/
def Anticipated (n : ℤ) : Prop := ∃ year, 146097 * year ≤ 400 * (n + 2) ∧ n < marchStart year

/-- The year that `night_gmtime` estimates for the number of a day. -/
def estimate (n : ℤ) : ℤ := (n + 2) * 400 / 146097

theorem anticipated_iff (n : ℤ) : Anticipated n ↔ n < marchStart (estimate n) := by
  constructor
  · rintro ⟨year, hyear, hlate⟩
    have hle : year ≤ estimate n := by
      rw [estimate]
      omega
    exact lt_of_lt_of_le hlate (marchStart_strictMono.monotone hle)
  · intro hlate
    refine ⟨estimate n, ?_, hlate⟩
    rw [estimate]
    omega

/-- Such a day is the last but one or the last of February. -/
theorem estimate_bounds (n : ℤ) :
    marchStart (estimate n) ≤ n + 2 ∧ n < marchStart (estimate n + 1) := by
  have hestimate : estimate n = (n + 2) * 400 / 146097 := rfl
  unfold marchStart
  omega

theorem u64_eq {n : ℤ} (hlow : 0 ≤ n) (hhigh : n < 2 ^ 64) : u64 n = n :=
  Int.emod_eq_of_lt hlow hhigh

/-- The estimate is taken as it is. -/
theorem marchYear_eq {days : ℤ} (hlow : 0 ≤ days) (hhigh : days ≤ 2932896) :
    marchYear days = (estimate (days + 719468),
      u64 (days + 719468 - marchStart (estimate (days + 719468)))) := by
  have hnumber : u64 (u64 (days - (31 + 28)) + 719527) = days + 719468 := by
    unfold u64
    omega
  have hestimate : estimate (days + 719468) = (days + 719468 + 2) * 400 / 146097 := rfl
  rw [marchYear, hnumber, u64_eq (n := days + 719468 + 2) (by omega) (by omega),
    u64_eq (n := (days + 719468 + 2) * 400) (by omega) (by omega)]
  rw [show (365 * 400 + 100 - 4 + 1 : ℤ) = 146097 from rfl, ← hestimate]
  generalize estimate (days + 719468) = year at *
  have hyday (n : ℤ) : ¬ u64 n < 0 := not_lt.mpr (Int.emod_nonneg n (by decide))
  dsimp only
  rw [if_neg (hyday _), Prod.mk.injEq]
  refine ⟨rfl, ?_⟩
  unfold marchStart u64
  omega

/-- In a year that begins in March the formulas of the month agree with those on `int`. -/
theorem marchMonth_eq {yday : ℤ} (hlow : 0 ≤ yday) (hhigh : yday ≤ 365) :
    marchMonth yday = Time.marchMonth yday := by
  rw [marchMonth, Time.marchMonth, Int.tdiv_eq_ediv_of_nonneg (by omega),
    u64_eq (n := yday + 31) (by omega) (by omega),
    u64_eq (n := (yday + 31) * 10) (by omega) (by omega)]
  generalize hmon : (yday + 31) * 10 / 306 = mon
  rw [Int.tdiv_eq_ediv_of_nonneg (by omega), u64_eq (n := 367 * mon) (by omega) (by omega)]
  generalize hstart : 367 * mon / 12 = start
  rw [u64_eq (n := start - 30) (by omega) (by omega),
    u64_eq (n := yday - (start - 30)) (by omega) (by omega), u64_eq (by omega) (by omega)]

/-! ## Every time -/

/-- The time as it is clamped. -/
def clamp (t : ℤ) : ℕ := (min (max t 0) 253402300799).toNat

/-- The date of a time is that of the calendar, and `night_time_update` finds both names and
writes no more than fits into its slot. -/
def Right (t : ℤ) : Prop :=
  nightGmtime t = tmOf (Moment.next^[clamp t] epoch) ∧
    ∃ text, sprintfDate (nightGmtime t) = some text ∧
      text.length + 1 ≤ (literal "Mon, 28 Sep 1970 06:00:00 GMT").length + 1

/-- The number of the day of a time, counted from the first of March of year 0. -/
def dayNumber (t : ℤ) : ℤ := (clamp t / 86400 : ℕ) + 719468

theorem clamp_le (t : ℤ) : clamp t ≤ 253402300799 := by
  unfold clamp
  omega

theorem clamp_eq {t : ℤ} (ht : t < 2 ^ 63) :
    (if u64 ((if t < 0 then 0 else t).tdiv 86400) > 2932896 then ((2932896 : ℤ), (86399 : ℤ))
      else (u64 ((if t < 0 then 0 else t).tdiv 86400),
        u64 ((if t < 0 then 0 else t).tmod 86400))) =
      (((clamp t / 86400 : ℕ) : ℤ), ((clamp t % 86400 : ℕ) : ℤ)) := by
  have hstart : (if t < 0 then 0 else t) = max t 0 := by
    split_ifs <;> omega
  have hpos : 0 ≤ max t 0 := le_max_right t 0
  rw [hstart, Int.tdiv_eq_ediv_of_nonneg hpos, Int.tmod_eq_emod_of_nonneg hpos,
    u64_eq (n := max t 0 / 86400) (by omega) (by omega),
    u64_eq (n := max t 0 % 86400) (by omega) (by omega), clamp]
  split_ifs
  · rw [Prod.mk.injEq]
    omega
  · rw [Prod.mk.injEq]
    omega

/-- The fields from the days and the seconds of the clamped time. -/
theorem nightGmtime_eq {t : ℤ} (ht : t < 2 ^ 63) {year yday mon mday : ℤ}
    (hmarch : marchYear ((clamp t / 86400 : ℕ) : ℤ) = (year, yday))
    (hdate : marchMonth yday = (mon, mday)) :
    nightGmtime t =
      { sec := (clamp t % 86400 : ℕ) % 3600 % 60
        min := (clamp t % 86400 : ℕ) % 3600 / 60
        hour := (clamp t % 86400 : ℕ) / 3600
        mday := wrapInt mday
        mon := wrapInt (if yday ≥ 306 then u64 (mon - 10) else u64 (mon + 2))
        year := wrapInt (if yday ≥ 306 then u64 (year + 1) else year)
        wday := (4 + (clamp t / 86400 : ℕ)) % 7 } := by
  have hclamp := clamp_le t
  rw [nightGmtime]
  dsimp only
  rw [clamp_eq ht]
  dsimp only
  rw [hmarch]
  dsimp only
  rw [hdate]
  dsimp only
  rw [u64_eq (n := 4 + ((clamp t / 86400 : ℕ) : ℤ)) (by omega) (by omega),
    wrapInt_eq (n := ((clamp t % 86400 : ℕ) : ℤ) % 3600 % 60) (by omega) (by omega),
    wrapInt_eq (n := ((clamp t % 86400 : ℕ) : ℤ) % 3600 / 60) (by omega) (by omega),
    wrapInt_eq (n := ((clamp t % 86400 : ℕ) : ℤ) / 3600) (by omega) (by omega),
    wrapInt_eq (n := (4 + ((clamp t / 86400 : ℕ) : ℤ)) % 7) (by omega) (by omega)]
  by_cases hwinter : yday ≥ 306
  · rw [if_pos hwinter, if_pos hwinter, if_pos hwinter]
  · rw [if_neg hwinter, if_neg hwinter, if_neg hwinter]

/-- A day that its estimated year has reached. -/
theorem nightGmtime_right {t : ℤ} (ht : t < 2 ^ 63) (hday : ¬ Anticipated (dayNumber t)) :
    nightGmtime t = tmOf (Moment.next^[clamp t] epoch) := by
  have hclamp := clamp_le t
  have hyear : marchYear ((clamp t / 86400 : ℕ) : ℤ) = (estimate (dayNumber t),
      u64 (dayNumber t - marchStart (estimate (dayNumber t)))) :=
    marchYear_eq (by omega) (by omega)
  rw [anticipated_iff, not_lt] at hday
  have hsucc := marchStart_succ (estimate (dayNumber t))
  have hend := (estimate_bounds (dayNumber t)).2
  have hsmall : 0 ≤ estimate (dayNumber t) ∧ estimate (dayNumber t) < 2 ^ 30 := by
    unfold estimate dayNumber
    omega
  generalize estimate (dayNumber t) = year at *
  generalize hyday : dayNumber t - marchStart year = yday at *
  have hpos : 0 ≤ yday := by omega
  have hlast : yday < if IsLeap (year + 1) then 366 else 365 := by
    rw [hsucc] at hend
    omega
  have hlast' : yday ≤ 365 := by
    split_ifs at hlast <;> omega
  rw [u64_eq hpos (by omega)] at hyear
  obtain ⟨hvalid, hnumber⟩ := marchDate_spec hpos hlast
  have hfields := fields_eq_tmOf (n := clamp t) hvalid (by
    rw [hnumber, ← hyday, dayNumber]
    omega)
  have hmonth := hvalid.month
  have hday := hvalid.day
  have hlength := monthLength_bounds (marchDate year yday).year (marchDate year yday).month
  obtain ⟨mon, mday, hpair⟩ : ∃ mon mday, Time.marchMonth yday = (mon, mday) := ⟨_, _, rfl⟩
  rw [nightGmtime_eq ht hyear ((marchMonth_eq hpos hlast').trans hpair), ← hfields, fields,
    Int.tmod_eq_emod_of_nonneg (by omega)]
  by_cases hwinter : yday ≥ 306
  · have hdate : marchDate year yday = ⟨year + 1, mon - 10, mday⟩ := by
      rw [marchDate_of_month year hpair, if_pos hwinter]
    rw [hdate] at hmonth hday hlength ⊢
    dsimp only at hmonth hday hlength ⊢
    rw [if_pos hwinter, if_pos hwinter, u64_eq (n := mon - 10) (by omega) (by omega),
      u64_eq (n := year + 1) (by omega) (by omega), wrapInt_eq (n := mday) (by omega) (by omega),
      wrapInt_eq (n := mon - 10) (by omega) (by omega),
      wrapInt_eq (n := year + 1) (by omega) (by omega)]
  · have hdate : marchDate year yday = ⟨year, mon + 2, mday⟩ := by
      rw [marchDate_of_month year hpair, if_neg hwinter]
    rw [hdate] at hmonth hday hlength ⊢
    dsimp only at hmonth hday hlength ⊢
    rw [if_neg hwinter, if_neg hwinter, u64_eq (n := mon + 2) (by omega) (by omega),
      wrapInt_eq (n := mday) (by omega) (by omega), wrapInt_eq (n := mon + 2) (by omega) (by omega),
      wrapInt_eq (n := year) (by omega) (by omega)]

/-- Of a day before its estimated year the month is -10. -/
theorem nightGmtime_wrong {t : ℤ} (ht : t < 2 ^ 63) (hday : Anticipated (dayNumber t)) :
    (nightGmtime t).mon = -10 := by
  have hclamp := clamp_le t
  have hyear : marchYear ((clamp t / 86400 : ℕ) : ℤ) = (estimate (dayNumber t),
      u64 (dayNumber t - marchStart (estimate (dayNumber t)))) :=
    marchYear_eq (by omega) (by omega)
  rw [anticipated_iff] at hday
  have hstart := (estimate_bounds (dayNumber t)).1
  generalize estimate (dayNumber t) = year at *
  generalize hdays : dayNumber t - marchStart year = missing at *
  have hwrapped : u64 missing = missing + 2 ^ 64 := by
    unfold u64
    omega
  rw [hwrapped] at hyear
  -- the sum with 31 wraps around to less than 31 days
  have hsum : u64 (missing + 2 ^ 64 + 31) = missing + 31 := by
    unfold u64
    omega
  have hmon : u64 (u64 (missing + 2 ^ 64 + 31) * 10) / 306 = 0 := by
    rw [hsum, u64_eq (by omega) (by omega)]
    omega
  obtain ⟨mday, hdate⟩ : ∃ mday, marchMonth (missing + 2 ^ 64) = (0, mday) :=
    ⟨_, by rw [marchMonth, hmon]⟩
  rw [nightGmtime_eq ht hyear hdate]
  dsimp only
  rw [if_pos (by omega)]
  decide

theorem valid_tmOf (t : ℤ) : (tmOf (Moment.next^[clamp t] epoch)).Valid := by
  have hclamp := clamp_le t
  obtain ⟨tm, htm, hvalid⟩ := nightGmtime_valid (t := clamp t) (by omega)
  rw [nightGmtime_moment hclamp] at htm
  obtain rfl := Option.some.inj htm
  exact hvalid

/-- `night_gmtime` and the text of `night_time_update` are right on the days that the estimate
of the year has reached. -/
theorem right_iff (t : Int64) : Right t.toInt ↔ ¬ Anticipated (dayNumber t.toInt) := by
  have hlt : t.toInt < 2 ^ 63 := t.toInt_lt
  constructor
  · rintro ⟨hdate, -⟩ hday
    have hwrong := nightGmtime_wrong hlt hday
    have hmon := (valid_tmOf t.toInt).mon
    rw [hdate] at hwrong
    omega
  · intro hday
    have hdate := nightGmtime_right hlt hday
    refine ⟨hdate, ?_⟩
    rw [hdate]
    obtain ⟨text, htext, hlength⟩ := length_sprintfDate (valid_tmOf t.toInt)
    exact ⟨text, htext, by rw [hlength]; decide⟩

/-- On the last day of February 1970 the month is not found. -/
theorem right_february : ¬ ∀ t : Int64, Right t.toInt := by
  intro hall
  obtain ⟨-, text, htext, -⟩ := hall 5011200
  have hnone : sprintfDate (nightGmtime (5011200 : Int64).toInt) = none := by decide
  rw [hnone] at htext
  exact absurd htext (by simp)

end Night.Times
