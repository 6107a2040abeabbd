import Night.Core.DecimalText
import Night.Http.HeaderFilter

/-!
# `ETag` and `Last-Modified`

The two headers by which a client tells whether it has a file already.  Neither text is that of
another file time or of another size.
-/

namespace Night.Validators

open Night.Bytes Night.Calendar Night.DecimalText Night.HeaderFilter Night.Time

/-! ## The source -/

/-- `%lx`. -/
def hex (n : BitVec 64) : List Byte := (Nat.toDigits 16 n.toNat).map ascii

/-- `"\"%lx-%lx\""`. -/
def etagText (lastModifiedTime : ℤ) (contentLengthN : Int64) : List Byte :=
  ascii '"' :: (hex (BitVec.ofInt 64 lastModifiedTime) ++
    ascii '-' :: (hex contentLengthN.toBitVec ++ [ascii '"']))

/-- `night_list_push`, where the element is set at once; `room` says whether the last part has
room for it. -/
def push (list : NightList) (room : Bool) (elt : TableElt) : NightList :=
  match list.next.getLast? with
  | none =>
    if room then { list with part := list.part ++ [elt] }
    else { list with next := [⟨[elt], List.cons_ne_nil _ _⟩] }
  | some last =>
    if room then { list with next := list.next.dropLast ++ [⟨last ++ [elt], by simp⟩] }
    else { list with next := list.next ++ [⟨[elt], List.cons_ne_nil _ _⟩] }

/-- `night_http_set_etag`, and whether it returns `NIGHT_OK`: the list may have no memory for an
element, and the pool none for the text. -/
def nightHttpSetEtag (h : HeadersOut) (pushed : Option Bool) (served : Bool) : Bool × HeadersOut :=
  match pushed with
  | none => (false, h)
  | some room =>
    if !served then (false, { h with headers := push h.headers room ⟨0, literal "ETag", []⟩ })
    else (true, { h with
      headers := push h.headers room
        ⟨1, literal "ETag", etagText h.lastModifiedTime h.contentLengthN⟩ })

theorem digitChar_inj {d d' : ℕ} (hd : d < 16) (hd' : d' < 16)
    (heq : ascii d.digitChar = ascii d'.digitChar) : d = d' := by
  have hall : ∀ d < 16, ∀ d' < 16, ascii d.digitChar = ascii d'.digitChar → d = d' := by decide
  exact hall d hd d' hd' heq

/-- The last digit and those in front of it. -/
theorem toDigits_split {n : ℕ} (hn : 16 ≤ n) :
    Nat.toDigits 16 n = Nat.toDigits 16 (n / 16) ++ [(n % 16).digitChar] :=
  Nat.toDigits_of_base_le (by decide) hn

theorem map_toDigits_inj {n m : ℕ}
    (heq : (Nat.toDigits 16 n).map ascii = (Nat.toDigits 16 m).map ascii) : n = m := by
  induction n using Nat.strong_induction_on generalizing m with
  | _ n ih =>
    have hlengths := congrArg List.length heq
    by_cases hn : n < 16 <;> by_cases hm : m < 16
    · rw [Nat.toDigits_of_lt_base hn, Nat.toDigits_of_lt_base hm] at heq
      exact digitChar_inj hn hm (List.cons.inj heq).1
    · rw [Nat.toDigits_of_lt_base hn, toDigits_split (by omega)] at hlengths
      simp [Nat.toDigits_ne_nil] at hlengths
    · rw [Nat.toDigits_of_lt_base hm, toDigits_split (by omega)] at hlengths
      simp [Nat.toDigits_ne_nil] at hlengths
    · rw [@toDigits_split n (by omega), @toDigits_split m (by omega), List.map_append,
        List.map_append] at heq
      obtain ⟨hfront, hlast⟩ := List.append_inj' heq rfl
      have hquotient := ih (n / 16) (by omega) hfront
      have hrest := digitChar_inj (Nat.mod_lt n (by decide)) (Nat.mod_lt m (by decide))
        (List.cons.inj hlast).1
      omega

theorem hex_inj {n m : BitVec 64} (heq : hex n = hex m) : n = m :=
  BitVec.eq_of_toNat_eq (map_toDigits_inj heq)

theorem length_hex (n : BitVec 64) : (hex n).length ≤ 16 := by
  rw [hex, List.length_map, Nat.length_toDigits_le_iff (by decide) (by decide)]
  exact n.isLt

theorem mem_toDigits {n : ℕ} {character : Char} (hmem : character ∈ Nat.toDigits 16 n) :
    ∃ d < 16, character = d.digitChar := by
  induction n using Nat.strong_induction_on with
  | _ n ih =>
    by_cases hn : n < 16
    · rw [Nat.toDigits_of_lt_base hn, List.mem_singleton] at hmem
      exact ⟨n, hn, hmem⟩
    · rw [toDigits_split (by omega), List.mem_append, List.mem_singleton] at hmem
      obtain hmem | hmem := hmem
      · exact ih (n / 16) (by omega) hmem
      · exact ⟨n % 16, Nat.mod_lt n (by decide), hmem⟩

/-- No digit is taken for the dash between two numbers. -/
theorem dash_not_mem_hex (n : BitVec 64) : ascii '-' ∉ hex n := by
  intro hmem
  obtain ⟨character, hcharacter, heq⟩ := List.mem_map.mp hmem
  obtain ⟨d, hd, rfl⟩ := mem_toDigits hcharacter
  have hall : ∀ d < 16, ascii d.digitChar ≠ ascii '-' := by decide
  exact hall d hd heq

/-! ## The tag -/

/-- The text fits in the memory it is written to, with the null byte of `sprintf`; two files
have one tag only if they have the same time and the same size. -/
theorem etagText_inj (mtime mtime' size size' : Int64) :
    (etagText mtime.toInt size).length + 1 ≤ offTLen + offTLen + 4 ∧
      (etagText mtime.toInt size = etagText mtime'.toInt size' ↔ mtime = mtime' ∧ size = size') := by
  constructor
  · have hfirst := length_hex (BitVec.ofInt 64 mtime.toInt)
    have hsecond := length_hex size.toBitVec
    have hlen : offTLen = 20 := rfl
    simp only [etagText, List.length_cons, List.length_append, List.length_nil]
    omega
  · constructor
    · intro heq
      obtain ⟨hfirst, hrest⟩ := append_delimiter_inj (dash_not_mem_hex _) (dash_not_mem_hex _)
        (List.cons.inj heq).2
      obtain ⟨hsecond, -⟩ := List.append_inj' hrest rfl
      have htime := hex_inj hfirst
      have hsize := hex_inj hsecond
      constructor
      · apply Int64.toInt_inj.mp
        have htoInt := congrArg BitVec.toInt htime
        simpa using htoInt
      · exact Int64.toBitVec_inj.mp hsize
    · rintro ⟨rfl, rfl⟩
      rfl

/-! ## The time -/

theorem decimalBlanks_inj {n m : ℤ} (hn : 0 ≤ n) (hm : 0 ≤ m)
    (heq : decimalBlanks n = decimalBlanks m) : n = m := by
  -- without the blanks in front it is the number
  have hfilter : ∀ k : ℤ, 0 ≤ k →
      (decimalBlanks k).filter (fun ch => ch ≠ ascii ' ') = decimal k := by
    intro k hk
    have hblanks : (List.replicate (4 - (decimal k).length) (ascii ' ')).filter
        (fun ch => ch ≠ ascii ' ') = [] := by simp
    rw [decimalBlanks, List.filter_append, hblanks, List.nil_append, List.filter_eq_self]
    intro ch hch
    have hlow : 48 ≤ ch.toNat := (digits_decimal hk ch hch).1
    rw [decide_eq_true_eq]
    rintro rfl
    exact absurd hlow (by decide)
  apply decimal_inj hn hm
  rw [← hfilter n hn, ← hfilter m hm, heq]

theorem sprintfDate_parts {tm : Tm} {text : List Byte} (htext : sprintfDate tm = some text) :
    ∃ day month, nameAt week tm.wday = some day ∧ nameAt months (tm.mon - 1) = some month ∧
      text = day ++ (literal ", " ++ (decimalZeros tm.mday ++ (literal " " ++ (month ++
        (literal " " ++ (decimalBlanks tm.year ++ (literal " " ++ (decimalZeros tm.hour ++
          (literal ":" ++ (decimalZeros tm.min ++ (literal ":" ++ (decimalZeros tm.sec ++
            literal " GMT")))))))))))) := by
  simp only [sprintfDate, Option.bind_eq_bind, Option.bind_eq_some_iff, Option.some.injEq] at htext
  obtain ⟨day, hday, month, hmonth, rfl⟩ := htext
  exact ⟨day, month, hday, hmonth, by simp only [List.append_assoc]⟩

theorem nameAt_inj {names : List (List Byte)} (hnodup : names.Nodup) {i j : ℤ} {name : List Byte}
    (hi : nameAt names i = some name) (hj : nameAt names j = some name) : i = j := by
  rw [nameAt] at hi hj
  split_ifs at hi with hineg
  split_ifs at hj with hjneg
  have hlt : i.toNat < names.length := (List.getElem?_eq_some_iff.mp hi).1
  have hsame := (List.getElem?_inj hlt hnodup).mp (hi.trans hj.symm)
  omega

theorem mem_of_nameAt {names : List (List Byte)} {i : ℤ} {name : List Byte}
    (hname : nameAt names i = some name) : name ∈ names := by
  rw [nameAt] at hname
  split_ifs at hname
  exact List.mem_of_getElem? hname

/-- From its text all fields of a date are known but the day of the week. -/
theorem sprintfDate_inj {tm tm' : Tm} (hvalid : tm.Valid) (hvalid' : tm'.Valid) {text : List Byte}
    (htext : sprintfDate tm = some text) (htext' : sprintfDate tm' = some text) :
    tm.mday = tm'.mday ∧ tm.mon = tm'.mon ∧ tm.year = tm'.year ∧ tm.hour = tm'.hour ∧
      tm.min = tm'.min ∧ tm.sec = tm'.sec := by
  obtain ⟨day, month, hday, hmonth, rfl⟩ := sprintfDate_parts htext
  obtain ⟨day', month', hday', hmonth', heq⟩ := sprintfDate_parts htext'
  have hmday := hvalid.mday
  have hmday' := hvalid'.mday
  have hhour := hvalid.hour
  have hhour' := hvalid'.hour
  have hmin := hvalid.min
  have hmin' := hvalid'.min
  have hsec := hvalid.sec
  have hsec' := hvalid'.sec
  have hyear := hvalid.year
  have hyear' := hvalid'.year
  have two : ∀ {n m : ℤ}, 0 ≤ n ∧ n < 100 → 0 ≤ m ∧ m < 100 →
      (decimalZeros n).length = (decimalZeros m).length := fun hn hm =>
    (length_decimalZeros hn.1 hn.2).trans (length_decimalZeros hm.1 hm.2).symm
  have hrest := (List.append_inj heq ((length_week _ (mem_of_nameAt hday)).trans
    (length_week _ (mem_of_nameAt hday')).symm)).2
  obtain ⟨hmdayText, hrest⟩ := List.append_inj (List.append_cancel_left hrest)
    (two ⟨by omega, by omega⟩ ⟨by omega, by omega⟩)
  obtain ⟨hmonthText, hrest⟩ := List.append_inj (List.append_cancel_left hrest)
    ((length_months _ (mem_of_nameAt hmonth)).trans (length_months _ (mem_of_nameAt hmonth')).symm)
  obtain ⟨hyearText, hrest⟩ := List.append_inj (List.append_cancel_left hrest)
    ((length_decimalBlanks hyear.1 (by omega)).trans
      (length_decimalBlanks hyear'.1 (by omega)).symm)
  obtain ⟨hhourText, hrest⟩ := List.append_inj (List.append_cancel_left hrest)
    (two ⟨by omega, by omega⟩ ⟨by omega, by omega⟩)
  obtain ⟨hminText, hrest⟩ := List.append_inj (List.append_cancel_left hrest)
    (two ⟨by omega, by omega⟩ ⟨by omega, by omega⟩)
  obtain ⟨hsecText, -⟩ := List.append_inj (List.append_cancel_left hrest)
    (two ⟨by omega, by omega⟩ ⟨by omega, by omega⟩)
  have hmon := nameAt_inj (by decide) hmonth (hmonthText ▸ hmonth')
  exact ⟨decimalZeros_inj (by omega) (by omega) hmdayText, by omega,
    decimalBlanks_inj hyear.1 hyear'.1 hyearText, decimalZeros_inj hhour.1 hhour'.1 hhourText,
    decimalZeros_inj hmin.1 hmin'.1 hminText, decimalZeros_inj hsec.1 hsec'.1 hsecText⟩

/-- Up to the end of the year 9999 no two seconds have one text. -/
theorem nightHttpTime_inj {t t' : ℤ} (hlow : 0 ≤ t) (hhigh : t ≤ 253402300799) (hlow' : 0 ≤ t')
    (hhigh' : t' ≤ 253402300799) : nightHttpTime t = nightHttpTime t' ↔ t = t' := by
  refine ⟨fun heq => ?_, fun heq => heq ▸ rfl⟩
  obtain ⟨n, rfl⟩ := Int.eq_ofNat_of_zero_le hlow
  obtain ⟨m, rfl⟩ := Int.eq_ofNat_of_zero_le hlow'
  have hn : n ≤ 253402300799 := by omega
  have hm : m ≤ 253402300799 := by omega
  have hsplit := daysAndSec_eq hn
  have hsplit' := daysAndSec_eq hm
  obtain ⟨date, -, hnumber, hfields⟩ := @nightGmtime_date (n : ℤ) (by rw [hsplit]; omega)
  obtain ⟨date', -, hnumber', hfields'⟩ := @nightGmtime_date (m : ℤ) (by rw [hsplit']; omega)
  obtain ⟨tm, htm, hvalid⟩ := @nightGmtime_valid (n : ℤ) (by omega)
  obtain ⟨tm', htm', hvalid'⟩ := @nightGmtime_valid (m : ℤ) (by omega)
  obtain ⟨text, htext, -⟩ := length_sprintfDate hvalid
  have htext' : sprintfDate tm' = some text := by
    rw [nightHttpTime_eq, nightHttpTime_eq, htm, htm', Option.bind_some, Option.bind_some,
      htext] at heq
    exact heq.symm
  rw [htm, hsplit] at hfields
  rw [htm', hsplit'] at hfields'
  obtain rfl := Option.some.inj hfields
  obtain rfl := Option.some.inj hfields'
  rw [hsplit] at hnumber
  rw [hsplit'] at hnumber'
  obtain ⟨hmday, hmon, hyear, hhour, hmin, hsec⟩ := sprintfDate_inj hvalid hvalid' htext htext'
  simp only [fields] at hmday hmon hyear hhour hmin hsec
  have hdate : date = date' := by
    obtain ⟨year, month, day⟩ := date
    obtain ⟨year', month', day'⟩ := date'
    simp only at hmday hmon hyear
    rw [hmday, hmon, hyear]
  rw [hdate] at hnumber
  omega

/-- The last second of a February, and the first of its leap day. -/
theorem nightHttpTime_inj_leapDay :
    nightHttpTime 951782399 = nightHttpTime 951782400 ↔ (951782399 : ℤ) = 951782400 :=
  nightHttpTime_inj (by decide) (by decide) (by decide) (by decide)

end Night.Validators
