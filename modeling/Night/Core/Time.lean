import Mathlib.Data.Fintype.Basic
import Night.Core.Bytes

/-!
# `night_http_time`

The date of a time stamp as it is sent.  All locals of `night_gmtime` are of type `int`: the
number of days wraps around, other overflows and names outside of the tables have no result.
-/

namespace Night.Time

open Night.Bytes

/-! ## What `sprintf` writes -/

/-- The bytes of a string literal. -/
def literal (string : String) : List Byte := string.toList.map ascii

/-- `%ld` or `%d`. -/
def decimal (n : ℤ) : List Byte :=
  if n < 0 then ascii '-' :: (Nat.toDigits 10 n.natAbs).map ascii
  else (Nat.toDigits 10 n.natAbs).map ascii

/-- `%02d`; a sign takes one of the two places. -/
def decimalZeros (n : ℤ) : List Byte :=
  if 0 ≤ n ∧ n < 10 then ascii '0' :: decimal n else decimal n

/-- `%4d`. -/
def decimalBlanks (n : ℤ) : List Byte :=
  List.replicate (4 - (decimal n).length) (ascii ' ') ++ decimal n

theorem length_decimal_of_nonneg {n : ℤ} (hn : 0 ≤ n) :
    (decimal n).length = (Nat.toDigits 10 n.natAbs).length := by
  rw [decimal, if_neg (by omega), List.length_map]

theorem length_decimal_le {n : ℤ} {digits : ℕ} (hdigits : 0 < digits) (hn : 0 ≤ n)
    (hlt : n < 10 ^ digits) : (decimal n).length ≤ digits := by
  rw [length_decimal_of_nonneg hn]
  apply (Nat.length_toDigits_le_iff (by decide) hdigits).mpr
  obtain ⟨m, rfl⟩ := Int.eq_ofNat_of_zero_le hn
  rw [Int.natAbs_natCast]
  exact_mod_cast hlt

theorem length_decimalZeros {n : ℤ} (hn : 0 ≤ n) (hlt : n < 100) :
    (decimalZeros n).length = 2 := by
  have hpos : 0 < (decimal n).length := by
    rw [length_decimal_of_nonneg hn]
    exact Nat.length_toDigits_pos
  have htwo : (decimal n).length ≤ 2 := length_decimal_le (by decide) hn hlt
  rw [decimalZeros]
  by_cases hdigit : n < 10
  · have hone : (decimal n).length ≤ 1 := length_decimal_le (by decide) hn hdigit
    rw [if_pos ⟨hn, hdigit⟩, List.length_cons]
    omega
  · rw [if_neg fun hboth => hdigit hboth.2]
    by_contra hne
    have hone : (Nat.toDigits 10 n.natAbs).length ≤ 1 := by
      rw [← length_decimal_of_nonneg hn]
      omega
    have hsmall := (Nat.length_toDigits_le_iff (by decide) (by decide)).mp hone
    omega

theorem length_decimalBlanks {n : ℤ} (hn : 0 ≤ n) (hlt : n < 10000) :
    (decimalBlanks n).length = 4 := by
  have hfour : (decimal n).length ≤ 4 := length_decimal_le (by decide) hn hlt
  rw [decimalBlanks, List.length_append, List.length_replicate]
  exact Nat.sub_add_cancel hfour

/-! ## The calendar -/

/-- A `struct tm`. -/
structure Tm where
  sec : ℤ
  min : ℤ
  hour : ℤ
  mday : ℤ
  mon : ℤ
  year : ℤ
  wday : ℤ
  deriving DecidableEq, Repr

/-- A conversion of a `long` to `int`. -/
def wrapInt (n : ℤ) : ℤ := n.bmod (2 ^ 32)

/-- The result of arithmetic on `int`, which must not overflow. -/
def int (n : ℤ) : Option ℤ := if -2 ^ 31 ≤ n ∧ n < 2 ^ 31 then some n else none

/-- The year that begins in March and the day in it, from the number of days since 1970. -/
def marchYear (days : ℤ) : Option (ℤ × ℤ) := do
  let days ← int (days - (31 + 28))
  let days ← int (days + 719527)
  let product ← int ((days + 2) * 400)
  let year := product.tdiv (365 * 400 + 100 - 4 + 1)
  let yday := days - (365 * year + year.tdiv 4 - year.tdiv 100 + year.tdiv 400)
  if yday < 0 then
    let leap := if year.tmod 4 = 0 ∧ (year.tmod 100 ≠ 0 ∨ year.tmod 400 = 0) then 1 else 0
    some (year - 1, 365 + leap + yday)
  else some (year, yday)

/-- The month that a day is in, counted from March, and the day of the month. -/
def marchMonth (yday : ℤ) : ℤ × ℤ :=
  let mon := ((yday + 31) * 10).tdiv 306
  (mon, yday - ((367 * mon).tdiv 12 - 30) + 1)

/-- `night_gmtime`. -/
def nightGmtime (t : ℤ) : Option Tm := do
  let t := if t < 0 then 0 else t
  let days := wrapInt (t.tdiv 86400)
  let sec := t.tmod 86400
  let (days, sec) := if days > 2932896 then (2932896, 86399) else (days, sec)
  let (year, yday) ← marchYear days
  let (mon, mday) := marchMonth yday
  let (year, mon) := if yday ≥ 306 then (year + 1, mon - 10) else (year, mon + 2)
  some {
    sec := (sec.tmod 3600).tmod 60
    min := (sec.tmod 3600).tdiv 60
    hour := sec.tdiv 3600
    mday := mday
    mon := mon
    year := year
    wday := (4 + days).tmod 7 }

def week : List (List Byte) := ["Sun", "Mon", "Tue", "Wed", "Thu", "Fri", "Sat"].map literal

def months : List (List Byte) :=
  ["Jan", "Feb", "Mar", "Apr", "May", "Jun", "Jul", "Aug", "Sep", "Oct", "Nov", "Dec"].map literal

/-- An entry of one of the two tables. -/
def nameAt (names : List (List Byte)) (i : ℤ) : Option (List Byte) :=
  if i < 0 then none else names[i.toNat]?

/-- The bytes that `night_http_time` writes. -/
def nightHttpTime (t : ℤ) : Option (List Byte) := do
  let tm ← nightGmtime t
  let day ← nameAt week tm.wday
  let month ← nameAt months (tm.mon - 1)
  some (day ++ literal ", " ++ decimalZeros tm.mday ++ literal " " ++ month ++ literal " " ++
    decimalBlanks tm.year ++ literal " " ++ decimalZeros tm.hour ++ literal ":" ++
    decimalZeros tm.min ++ literal ":" ++ decimalZeros tm.sec ++ literal " GMT")

/-- What the call of `sprintf` writes, which `night_time_update` has as well. -/
def sprintfDate (tm : Tm) : Option (List Byte) := do
  let day ← nameAt week tm.wday
  let month ← nameAt months (tm.mon - 1)
  some (day ++ literal ", " ++ decimalZeros tm.mday ++ literal " " ++ month ++ literal " " ++
    decimalBlanks tm.year ++ literal " " ++ decimalZeros tm.hour ++ literal ":" ++
    decimalZeros tm.min ++ literal ":" ++ decimalZeros tm.sec ++ literal " GMT")

theorem nightHttpTime_eq (t : ℤ) : nightHttpTime t = (nightGmtime t).bind sprintfDate := rfl

/-! ## The length of a date -/

/-- What `night_http_time` needs of its fields to write all of them in their widths. -/
structure Tm.Valid (tm : Tm) : Prop where
  sec : 0 ≤ tm.sec ∧ tm.sec < 60
  min : 0 ≤ tm.min ∧ tm.min < 60
  hour : 0 ≤ tm.hour ∧ tm.hour < 24
  mday : 1 ≤ tm.mday ∧ tm.mday ≤ 31
  mon : 1 ≤ tm.mon ∧ tm.mon ≤ 12
  year : 0 ≤ tm.year ∧ tm.year ≤ 9999
  wday : 0 ≤ tm.wday ∧ tm.wday < 7

theorem int_eq {n : ℤ} (hlow : -2 ^ 31 ≤ n) (hhigh : n < 2 ^ 31) : int n = some n :=
  if_pos ⟨hlow, hhigh⟩

/-- The year of a day from 1970 to 9999, and its day counted from March. -/
theorem marchYear_spec {days : ℤ} (hlow : 0 ≤ days) (hhigh : days ≤ 2932896) :
    ∃ year yday, marchYear days = some (year, yday) ∧ 0 ≤ yday ∧ yday ≤ 365 ∧
      0 ≤ year ∧ year ≤ 9999 ∧ (306 ≤ yday → year < 9999) := by
  have hproduct := int_eq (show -2 ^ 31 ≤ (days - (31 + 28) + 719527 + 2) * 400 by omega)
    (by omega)
  rw [marchYear, int_eq (by omega) (by omega)]
  simp only [Option.bind_eq_bind, Option.bind_some]
  rw [int_eq (by omega) (by omega)]
  simp only [Option.bind_some, hproduct]
  rw [Int.tdiv_eq_ediv_of_nonneg (by omega)]
  generalize hyear : (days - (31 + 28) + 719527 + 2) * 400 / (365 * 400 + 100 - 4 + 1) = year
  have hpos : 0 ≤ year := by omega
  rw [Int.tdiv_eq_ediv_of_nonneg hpos, Int.tdiv_eq_ediv_of_nonneg hpos,
    Int.tdiv_eq_ediv_of_nonneg hpos]
  split
  · refine ⟨_, _, rfl, ?_⟩
    split <;> omega
  · refine ⟨_, _, rfl, ?_⟩
    omega

theorem marchMonth_spec {yday : ℤ} (hlow : 0 ≤ yday) (hhigh : yday ≤ 365) :
    1 ≤ (marchMonth yday).1 ∧ (marchMonth yday).1 ≤ 12 ∧
      (306 ≤ yday ↔ 11 ≤ (marchMonth yday).1) ∧
      1 ≤ (marchMonth yday).2 ∧ (marchMonth yday).2 ≤ 31 := by
  have hall : ∀ yday : Fin 366,
      1 ≤ (marchMonth yday.val).1 ∧ (marchMonth yday.val).1 ≤ 12 ∧
        ((306 : ℤ) ≤ yday.val ↔ 11 ≤ (marchMonth yday.val).1) ∧
        1 ≤ (marchMonth yday.val).2 ∧ (marchMonth yday.val).2 ≤ 31 := by decide +kernel
  obtain ⟨day, rfl⟩ := Int.eq_ofNat_of_zero_le hlow
  exact hall ⟨day, by omega⟩

theorem wrapInt_eq {n : ℤ} (hlow : 0 ≤ n) (hhigh : n < 2 ^ 31) : wrapInt n = n :=
  Int.bmod_eq_of_le_mul_two (by omega) (by omega)

/-- Up to 2³¹ days after 1970 all fields of a date are in their ranges. -/
theorem nightGmtime_valid {t : ℤ} (ht : t < 2 ^ 31 * 86400) :
    ∃ tm, nightGmtime t = some tm ∧ tm.Valid := by
  rw [nightGmtime]
  generalize hstart : (if t < 0 then (0 : ℤ) else t) = start
  have hpos : 0 ≤ start := by
    rw [← hstart]
    split <;> omega
  have hlt : start < 2 ^ 31 * 86400 := by
    rw [← hstart]
    split <;> omega
  rw [Int.tdiv_eq_ediv_of_nonneg hpos, Int.tmod_eq_emod_of_nonneg hpos,
    wrapInt_eq (by omega) (by omega)]
  generalize hclamped : (if start / 86400 > 2932896 then ((2932896 : ℤ), (86399 : ℤ))
    else (start / 86400, start % 86400)) = clamped
  obtain ⟨days, sec⟩ := clamped
  have hbounds : 0 ≤ days ∧ days ≤ 2932896 ∧ 0 ≤ sec ∧ sec < 86400 := by
    split at hclamped
    · obtain ⟨rfl, rfl⟩ := Prod.mk.inj hclamped
      omega
    · obtain ⟨rfl, rfl⟩ := Prod.mk.inj hclamped
      omega
  obtain ⟨hdays, hdays', hsec, hsec'⟩ := hbounds
  obtain ⟨year, yday, hyear, hyday, hyday', hyear', hyear'', hlast⟩ := marchYear_spec hdays hdays'
  obtain ⟨hmon, hmon', hmarch, hmday, hmday'⟩ := marchMonth_spec hyday hyday'
  simp only [hyear, Option.bind_eq_bind, Option.bind_some]
  generalize marchMonth yday = date at *
  obtain ⟨mon, mday⟩ := date
  have hhour : (sec.tmod 3600).tmod 60 = sec % 3600 % 60 ∧
      (sec.tmod 3600).tdiv 60 = sec % 3600 / 60 ∧ sec.tdiv 3600 = sec / 3600 := by
    rw [Int.tmod_eq_emod_of_nonneg hsec, Int.tmod_eq_emod_of_nonneg (by omega),
      Int.tdiv_eq_ediv_of_nonneg (by omega), Int.tdiv_eq_ediv_of_nonneg hsec]
    exact ⟨rfl, rfl, rfl⟩
  have hwday : (4 + days).tmod 7 = (4 + days) % 7 := Int.tmod_eq_emod_of_nonneg (by omega)
  rw [hhour.1, hhour.2.1, hhour.2.2, hwday]
  dsimp only at hmon hmon' hmarch hmday hmday'
  by_cases hlate : yday ≥ 306
  · rw [if_pos hlate]
    exact ⟨_, rfl, by constructor <;> dsimp only <;> omega⟩
  · rw [if_neg hlate]
    exact ⟨_, rfl, by constructor <;> dsimp only <;> omega⟩

theorem nameAt_mem {names : List (List Byte)} {i : ℤ} (hlow : 0 ≤ i) (hhigh : i < names.length) :
    ∃ name ∈ names, nameAt names i = some name := by
  have hlt : i.toNat < names.length := by omega
  refine ⟨names[i.toNat], List.getElem_mem hlt, ?_⟩
  rw [nameAt, if_neg (by omega), List.getElem?_eq_getElem hlt]

/-- With all fields in their ranges both names are found. -/
theorem sprintfDate_of_valid {tm : Tm} (hvalid : tm.Valid) :
    ∃ day ∈ week, ∃ month ∈ months, sprintfDate tm = some (day ++ literal ", " ++
      decimalZeros tm.mday ++ literal " " ++ month ++ literal " " ++ decimalBlanks tm.year ++
      literal " " ++ decimalZeros tm.hour ++ literal ":" ++ decimalZeros tm.min ++ literal ":" ++
      decimalZeros tm.sec ++ literal " GMT") := by
  have hweek : (week.length : ℤ) = 7 := rfl
  have hmonths : (months.length : ℤ) = 12 := rfl
  have hmon := hvalid.mon
  have hwday := hvalid.wday
  obtain ⟨day, hday, hdayName⟩ := @nameAt_mem week tm.wday hwday.1 (hweek ▸ hwday.2)
  obtain ⟨month, hmonth, hmonthName⟩ := @nameAt_mem months (tm.mon - 1) (by omega) (by omega)
  refine ⟨day, hday, month, hmonth, ?_⟩
  rw [sprintfDate]
  simp only [Option.bind_eq_bind, Option.bind_some, hdayName, hmonthName]

theorem length_week : ∀ day ∈ week, day.length = 3 := by decide

theorem length_months : ∀ month ∈ months, month.length = 3 := by decide

/-- `sprintf` writes the twenty-nine bytes that are counted for a date. -/
theorem length_sprintfDate {tm : Tm} (hvalid : tm.Valid) :
    ∃ text, sprintfDate tm = some text ∧ text.length = 29 := by
  obtain ⟨day, hday, month, hmonth, htext⟩ := sprintfDate_of_valid hvalid
  refine ⟨_, htext, ?_⟩
  have hmday := length_decimalZeros (show 0 ≤ tm.mday by have := hvalid.mday; omega)
    (by have := hvalid.mday; omega)
  have hhour := length_decimalZeros hvalid.hour.1 (by have := hvalid.hour; omega)
  have hmin := length_decimalZeros hvalid.min.1 (by have := hvalid.min; omega)
  have hsec := length_decimalZeros hvalid.sec.1 (by have := hvalid.sec; omega)
  have hyear := length_decimalBlanks hvalid.year.1 (by have := hvalid.year; omega)
  have hcomma : (literal ", ").length = 2 := rfl
  have hblank : (literal " ").length = 1 := rfl
  have hcolon : (literal ":").length = 1 := rfl
  have hgmt : (literal " GMT").length = 4 := rfl
  simp only [List.length_append, length_week day hday, length_months month hmonth, hmday, hhour,
    hmin, hsec, hyear, hcomma, hblank, hcolon, hgmt]

/-- `night_http_time` writes the twenty-nine bytes that are counted for it. -/
theorem length_nightHttpTime {t : ℤ} (ht : t < 2 ^ 31 * 86400) :
    ∃ time, nightHttpTime t = some time ∧ time.length = 29 := by
  obtain ⟨tm, htm, hvalid⟩ := nightGmtime_valid ht
  rw [nightHttpTime_eq, htm]
  exact length_sprintfDate hvalid

end Night.Time
