import Night.Core.TimeDate

/-!
# The text of `night_http_time`

For every `time_t`, also for those whose number of days is no `int`: when the fields are in
their ranges, the names are found and the text is the date of a header field.
-/

namespace Night.Time

open Night.Bytes Night.Calendar

/-! ## The dates of header fields -/

/-- A number of so many decimal digits. -/
def Digits (width : ℕ) (text : List Byte) : Prop :=
  text.length = width ∧ ∀ ch ∈ text, ascii '0' ≤ ch ∧ ch ≤ ascii '9'

/-- An IMF-fixdate such as `Sun, 06 Nov 1994 08:49:37 GMT`. -/
def IsImfFixdate (text : List Byte) : Prop :=
  ∃ wday ∈ week, ∃ mon ∈ months, ∃ mday year hour min sec : List Byte,
    Digits 2 mday ∧ Digits 4 year ∧ Digits 2 hour ∧ Digits 2 min ∧ Digits 2 sec ∧
      text = wday ++ literal ", " ++ mday ++ literal " " ++ mon ++ literal " " ++ year ++
        literal " " ++ hour ++ literal ":" ++ min ++ literal ":" ++ sec ++ literal " GMT"

theorem ascii_digit {character : Char} (hdigit : character.isDigit) :
    ascii '0' ≤ ascii character ∧ ascii character ≤ ascii '9' := by
  have hrange : 48 ≤ character.toNat ∧ character.toNat ≤ 57 := by
    simpa [Char.isDigit, UInt32.le_iff_toNat_le] using hdigit
  have hzero : (ascii '0').toNat = 48 := rfl
  have hnine : (ascii '9').toNat = 57 := rfl
  have hbyte : (ascii character).toNat = character.toNat := by
    rw [ascii, BitVec.toNat_ofNat]
    omega
  rw [BitVec.le_def, BitVec.le_def, hzero, hnine, hbyte]
  exact hrange

theorem digits_decimal {n : ℤ} (hn : 0 ≤ n) :
    ∀ ch ∈ decimal n, ascii '0' ≤ ch ∧ ch ≤ ascii '9' := by
  intro ch hch
  rw [decimal, if_neg (by omega), List.mem_map] at hch
  obtain ⟨character, hcharacter, rfl⟩ := hch
  exact ascii_digit (Nat.isDigit_of_mem_toDigits (by decide) (by decide) hcharacter)

theorem digits_decimalZeros {n : ℤ} (hn : 0 ≤ n) (hlt : n < 100) : Digits 2 (decimalZeros n) := by
  refine ⟨length_decimalZeros hn hlt, ?_⟩
  intro ch hch
  rw [decimalZeros] at hch
  split_ifs at hch
  · obtain rfl | hch := List.mem_cons.mp hch
    · decide
    · exact digits_decimal hn ch hch
  · exact digits_decimal hn ch hch

theorem length_decimal_lt {n : ℤ} (hn : 0 ≤ n) (hlt : n < 1000) : (decimal n).length < 4 :=
  Nat.lt_succ_of_le (length_decimal_le (by decide) hn hlt)

/-- A year fills its four places with digits from 1000 on. -/
theorem digits_decimalBlanks_iff {n : ℤ} (hn : 0 ≤ n) (hlt : n < 10000) :
    Digits 4 (decimalBlanks n) ↔ 1000 ≤ n := by
  constructor
  · intro hdigits
    by_contra hsmall
    have hshort := length_decimal_lt hn (by omega)
    have hblank : ascii ' ' ∈ decimalBlanks n := by
      rw [decimalBlanks, List.mem_append, List.mem_replicate]
      exact Or.inl ⟨by omega, rfl⟩
    exact absurd (hdigits.2 _ hblank) (by decide)
  · intro hlarge
    refine ⟨length_decimalBlanks hn hlt, ?_⟩
    have hfour : 4 ≤ (decimal n).length := by
      by_contra hshort
      have hthree : (Nat.toDigits 10 n.natAbs).length ≤ 3 := by
        rw [← length_decimal_of_nonneg hn]
        omega
      have hsmall := (Nat.length_toDigits_le_iff (by decide) (by decide)).mp hthree
      omega
    intro ch hch
    rw [decimalBlanks, List.mem_append, List.mem_replicate] at hch
    obtain ⟨hblanks, -⟩ | hch := hch
    · omega
    · exact digits_decimal hn ch hch

/-! ## The range of the fields -/

theorem valid_fields {days sec : ℤ} {date : Date} (hdate : date.Valid)
    (hyear : 0 ≤ date.year ∧ date.year ≤ 9999) (hsec : 0 ≤ sec ∧ sec < 86400)
    (hdays : 0 ≤ (4 + days).tmod 7) : (fields days sec date).Valid := by
  have hwday := Int.tmod_lt_of_pos (4 + days) (show (0 : ℤ) < 7 by decide)
  have hlength := monthLength_bounds date.year date.month
  have hday := hdate.day
  exact ⟨by dsimp only [fields]; omega, by dsimp only [fields]; omega,
    by dsimp only [fields]; omega, by dsimp only [fields]; omega, hdate.month, hyear, hdays, hwday⟩

/-- The text has four digits for the year from 1000 on only. -/
theorem isImfFixdate_iff {t : ℤ} {tm : Tm} (htm : nightGmtime t = some tm) (hvalid : tm.Valid) :
    (∃ text, nightHttpTime t = some text ∧ IsImfFixdate text) ↔ 1000 ≤ tm.year := by
  obtain ⟨day, hday, month, hmonth, htext⟩ := sprintfDate_of_valid hvalid
  have htime : nightHttpTime t = sprintfDate tm := by
    rw [nightHttpTime_eq, htm, Option.bind_some]
  have htext := htime.trans htext
  have hyear := hvalid.year
  have hmday := digits_decimalZeros (n := tm.mday) (by have := hvalid.mday; omega)
    (by have := hvalid.mday; omega)
  have hlast := digits_decimalBlanks_iff hyear.1 (show tm.year < 10000 by omega)
  constructor
  · rintro ⟨text, hsome, wday, hwday, mon, hmon, mday, year, hour, min, sec, hmday', hyear', -, -, -,
      heq⟩
    rw [htext] at hsome
    obtain rfl := Option.some.inj hsome
    simp only [List.append_assoc] at heq
    have hrest := (List.append_inj heq ((length_week day hday).trans
      (length_week wday hwday).symm)).2
    have hrest := (List.append_inj hrest rfl).2
    have hrest := (List.append_inj hrest (hmday.1.trans hmday'.1.symm)).2
    have hrest := (List.append_inj hrest rfl).2
    have hrest := (List.append_inj hrest ((length_months month hmonth).trans
      (length_months mon hmon).symm)).2
    have hrest := (List.append_inj hrest rfl).2
    have hlength : (decimalBlanks tm.year).length = year.length :=
      (length_decimalBlanks hyear.1 (by omega)).trans hyear'.1.symm
    rw [← hlast, (List.append_inj hrest hlength).1]
    exact hyear'
  · intro hlarge
    refine ⟨_, htext, day, hday, month, hmonth, _, _, _, _, _, hmday, hlast.mpr hlarge, ?_, ?_, ?_,
      rfl⟩
    · exact digits_decimalZeros hvalid.hour.1 (by have := hvalid.hour; omega)
    · exact digits_decimalZeros hvalid.min.1 (by have := hvalid.min; omega)
    · exact digits_decimalZeros hvalid.sec.1 (by have := hvalid.sec; omega)

/-- The years from 1000 to 9999 by the numbers of their dates. -/
theorem year_bounds_iff {date : Date} (hvalid : date.Valid) :
    (1000 ≤ date.year ↔ 365183 ≤ date.number) ∧ (date.year ≤ 9999 ↔ date.number ≤ 3652364) := by
  have hlow := hvalid.le_year_iff 1000
  have hhigh := hvalid.le_year_iff 10000
  have hfirst : marchStart (1000 - 1) + 306 = 365183 := by decide
  have hend : marchStart (10000 - 1) + 306 = 3652365 := by decide
  rw [hfirst] at hlow
  rw [hend] at hhigh
  exact ⟨hlow, by omega⟩

/-! ## Every time -/

/-- What `night_gmtime` and `night_http_time` are relied on for: all fields are in their ranges
and the text has the twenty-nine characters of an IMF-fixdate. -/
def Sound (t : ℤ) : Prop :=
  ∃ tm, nightGmtimeInt t = some tm ∧ tm.Valid ∧
    ∃ text, nightHttpTime t = some text ∧ IsImfFixdate text ∧ text.length = 29

/-- Times behind the year 9999 are taken for its last second. -/
def Clamped (t : ℤ) : Prop :=
  253402300799 < t → nightGmtimeInt t = nightGmtimeInt 253402300799

/-- The number of days as `night_gmtime` has it. -/
def narrowedDays (t : ℤ) : ℤ := wrapInt (max t 0 / 86400)

theorem Digits.length {width : ℕ} {text : List Byte} (hdigits : Digits width text) :
    text.length = width := hdigits.1

theorem IsImfFixdate.length {text : List Byte} (hdate : IsImfFixdate text) :
    text.length = 29 := by
  obtain ⟨day, hday, month, hmonth, mday, year, hour, min, sec, hmday, hyear, hhour, hmin, hsec,
    rfl⟩ := hdate
  have hcomma : (literal ", ").length = 2 := rfl
  have hblank : (literal " ").length = 1 := rfl
  have hcolon : (literal ":").length = 1 := rfl
  have hgmt : (literal " GMT").length = 4 := rfl
  simp only [List.length_append, length_week day hday, length_months month hmonth, hmday.length,
    hyear.length, hhour.length, hmin.length, hsec.length, hcomma, hblank, hcolon, hgmt]

theorem daysAndSec_fst (t : ℤ) : (daysAndSec t).1 = min (narrowedDays t) 2932896 := by
  unfold daysAndSec narrowedDays
  split_ifs <;> omega

/-- Before the year 0 no year has four digits. -/
theorem year_lt {days year yday : ℤ} (hmarch : marchYear days = some (year, yday))
    (hdays : days < -719468) : (marchDate year yday).year < 1000 := by
  obtain ⟨start, -, -, hstart, rest, -, hcases⟩ := marchYear_cases hmarch
  have hproduct := tdiv_bounds ((days + 719470) * 400) (show (0 : ℤ) < 146097 by decide)
  rw [← hstart] at hproduct
  rw [marchDate_eq]
  dsimp only
  split_ifs <;> omega

/-- A remainder of C is negative for negative numbers that the divisor does not divide. -/
theorem tmod_nonneg_iff (n : ℤ) : 0 ≤ n.tmod 7 ↔ 0 ≤ n ∨ 7 ∣ n := by
  rw [Int.tmod_eq_emod]
  split_ifs with hcase
  · exact iff_of_true (by omega) hcase
  · exact iff_of_false (by omega) hcase

/-- Below, `days` is in the calendar. -/
theorem sound_iff_of_date {t : ℤ} {date : Date} (hvalid : date.Valid)
    (hnumber : date.number = (daysAndSec t).1 + 719468)
    (hfields : nightGmtime t = some (fields (daysAndSec t).1 (daysAndSec t).2 date)) :
    Sound t ↔ -354285 ≤ (daysAndSec t).1 ∧ 0 ≤ (4 + (daysAndSec t).1).tmod 7 := by
  have hbounds := daysAndSec_bounds t
  obtain ⟨hlow, hhigh⟩ := year_bounds_iff hvalid
  constructor
  · rintro ⟨tm, htm, htmValid, text, htext, hdate, -⟩
    rw [nightGmtimeInt_eq] at htm
    have hyear := (isImfFixdate_iff htm htmValid).mp ⟨text, htext, hdate⟩
    rw [hfields] at htm
    obtain rfl := Option.some.inj htm
    have hnumber' := hlow.mp hyear
    exact ⟨by omega, htmValid.wday.1⟩
  · rintro ⟨hfirst, hwday⟩
    have hyear := hlow.mpr (by omega)
    have hyear' := hhigh.mpr (by omega)
    have htmValid := valid_fields hvalid ⟨by omega, hyear'⟩ hbounds.2 hwday
    obtain ⟨text, htext, hdate⟩ := (isImfFixdate_iff hfields htmValid).mpr hyear
    exact ⟨_, (nightGmtimeInt_eq t).trans hfields, htmValid, text, htext, hdate, hdate.length⟩

/-- The first year of four digits and the days of the week decide about the text. -/
theorem sound_iff (t : ℤ) :
    Sound t ↔ -4 ≤ narrowedDays t ∨ -354285 ≤ narrowedDays t ∧ 7 ∣ 4 + narrowedDays t := by
  have hdays := daysAndSec_fst t
  have hwday := tmod_nonneg_iff (4 + (daysAndSec t).1)
  by_cases hcalendar : -719468 ≤ (daysAndSec t).1
  · obtain ⟨date, hvalid, hnumber, hfields⟩ := nightGmtime_date hcalendar
    rw [sound_iff_of_date hvalid hnumber hfields, hwday]
    omega
  · -- the year is 1 at the most, or there is an overflow
    apply iff_of_false
    · rintro ⟨tm, htm, htmValid, text, htext, hdate, -⟩
      rw [nightGmtimeInt_eq] at htm
      have hyear := (isImfFixdate_iff htm htmValid).mp ⟨text, htext, hdate⟩
      rw [nightGmtime_eq] at htm
      obtain ⟨⟨year, yday⟩, hmarch, rfl⟩ := Option.map_eq_some_iff.mp htm
      have hsmall := year_lt hmarch (by omega)
      exact absurd hyear (by dsimp only [fields]; omega)
    · omega

/-- What is computed for the last second of the year 9999. -/
theorem nightGmtimeInt_last : nightGmtimeInt 253402300799 = some ⟨59, 59, 23, 31, 12, 9999, 5⟩ := by
  decide

theorem daysAndSec_last : daysAndSec 253402300799 = (2932896, 86399) :=
  daysAndSec_eq (n := 253402300799) (le_refl _)

theorem daysAndSec_eq_last_iff {t : ℤ} (hpos : 0 ≤ t) :
    daysAndSec t = (2932896, 86399) ↔
      2932896 < narrowedDays t ∨ narrowedDays t = 2932896 ∧ t % 86400 = 86399 := by
  unfold daysAndSec narrowedDays
  rw [max_eq_left hpos]
  split_ifs with hlate
  · exact iff_of_true rfl (Or.inl hlate)
  · rw [Prod.mk.injEq]
    omega

/-- The clamping takes place for the narrowed number of days. -/
theorem clamped_iff {t : ℤ} (hsound : Sound t) (hpos : 0 ≤ t) :
    nightGmtimeInt t = nightGmtimeInt 253402300799 ↔
      2932896 < narrowedDays t ∨ narrowedDays t = 2932896 ∧ t % 86400 = 86399 := by
  rw [← daysAndSec_eq_last_iff hpos]
  constructor
  · intro heq
    have hdays := daysAndSec_fst t
    have hbounds := daysAndSec_bounds t
    have hrange := (sound_iff t).mp hsound
    obtain ⟨date, hvalid, hnumber, hfields⟩ := @nightGmtime_date t (by omega)
    rw [nightGmtimeInt_last, nightGmtimeInt_eq, hfields, Option.some.injEq, fields,
      Tm.mk.injEq] at heq
    obtain ⟨hsec, hmin, hhour, hmday, hmon, hyear, -⟩ := heq
    have hdate : date = ⟨9999, 12, 31⟩ := by
      obtain ⟨year, month, day⟩ := date
      exact (Date.mk.injEq ..).mpr ⟨hyear, hmon, hmday⟩
    have hlast : (⟨9999, 12, 31⟩ : Date).number = 3652364 := by decide
    rw [hdate, hlast] at hnumber
    apply Prod.ext
    · dsimp only
      omega
    · dsimp only
      omega
  · intro heq
    rw [nightGmtimeInt_eq, nightGmtimeInt_eq, nightGmtime_eq, nightGmtime_eq, heq, daysAndSec_last]

/-- Up to 2³¹ days the number of days is an `int`. -/
theorem narrowedDays_eq {t : ℤ} (ht : t < 2 ^ 31 * 86400) :
    narrowedDays t = max t 0 / 86400 :=
  wrapInt_eq (by omega) (by omega)

theorem sound_and_clamped_iff (t : ℤ) :
    Sound t ∧ Clamped t ↔ t < 2 ^ 31 * 86400 ∨ 2932896 < narrowedDays t ∨
      narrowedDays t = 2932896 ∧ t % 86400 = 86399 := by
  have hsound := sound_iff t
  by_cases hearly : t < 2 ^ 31 * 86400
  · -- no number of days is narrowed
    have hdays := narrowedDays_eq hearly
    refine iff_of_true ⟨hsound.mpr (by omega), ?_⟩ (Or.inl hearly)
    intro hlate
    exact (clamped_iff (hsound.mpr (by omega)) (by omega)).mpr (by omega)
  · constructor
    · rintro ⟨hkept, hclamped⟩
      exact Or.inr ((clamped_iff hkept (by omega)).mp (hclamped (by omega)))
    · intro hcases
      have hkept : Sound t := hsound.mpr (by omega)
      exact ⟨hkept, fun _ => (clamped_iff hkept (by omega)).mpr (by omega)⟩

/-- `night_http_time` and the fields of `night_gmtime`: for which times all is in range, and
for which of them late years are clamped as well. -/
theorem nightHttpTime_iff (t : Int64) :
    (Sound t.toInt ↔ -4 ≤ narrowedDays t.toInt ∨
      -354285 ≤ narrowedDays t.toInt ∧ 7 ∣ 4 + narrowedDays t.toInt) ∧
    (Sound t.toInt ∧ Clamped t.toInt ↔ t.toInt < 2 ^ 31 * 86400 ∨
      2932896 < narrowedDays t.toInt ∨
      narrowedDays t.toInt = 2932896 ∧ t.toInt % 86400 = 86399) :=
  ⟨sound_iff t.toInt, sound_and_clamped_iff t.toInt⟩

/-- 2³¹ days after 1970 the number of days is negative, and so is the day of the week or the
year overflows. -/
theorem nightHttpTime_narrowed : ¬ ∀ t : Int64, Sound t.toInt ∧ Clamped t.toInt := by
  intro hall
  obtain ⟨⟨tm, htm, -⟩, -⟩ := hall 185542587187200
  have hnone : nightGmtimeInt (185542587187200 : Int64).toInt = none := by decide
  rw [hnone] at htm
  exact absurd htm (by simp)

end Night.Time
