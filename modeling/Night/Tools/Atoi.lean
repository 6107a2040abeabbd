import Night.Core.Bytes
import Night.Lib.Decimal

/-!
# `night_atoi`, `night_atoof` and `night_atotm`

Each of them reads a decimal number into a signed type.  There is no result when an operation
on that type overflows.
-/

namespace Night.Atoi

open Night.Bytes

/-! ## The readers -/

/-- A signed type by its greatest value. -/
def fits (max n : ℤ) : Option ℤ := if -max - 1 ≤ n ∧ n ≤ max then some n else none

/-- The loop of a reader; a `char` is signed. -/
def readLoop (max : ℤ) : ℤ → List Byte → Option ℤ
  | value, [] => some value
  | value, ch :: line =>
    if ch.toInt < '0'.toNat ∨ ch.toInt > '9'.toNat then some (-1)
    else
      let cutoff := max.tdiv 10
      let cutlim := max.tmod 10
      if value ≥ cutoff ∧ (value > cutoff ∨ ch.toInt - '0'.toNat > cutlim) then some (-1)
      else do
        let product ← fits max (value * 10)
        let value ← fits max (product + (ch.toInt - '0'.toNat))
        readLoop max value line

/-- A reader; `NIGHT_ERROR` is -1. -/
def readNumber (max : ℤ) (line : List Byte) : Option ℤ :=
  if line.length = 0 then some (-1) else readLoop max 0 line

/-- `night_atoi`, with `INT32_MAX`. -/
def nightAtoi (data : List Byte) : Option ℤ := readNumber 2147483647 data

/-- `night_atoof`, with `NIGHT_MAX_OFF_T_VALUE`. -/
def nightAtoof (line : List Byte) : Option ℤ := readNumber 9223372036854775807 line

/-- `night_atotm`, with `NIGHT_MAX_TIME_T_VALUE`. -/
def nightAtotm (line : List Byte) : Option ℤ := readNumber 9223372036854775807 line

/-! ## Decimal numbers -/

/-- A non-empty sequence of ASCII digits. -/
def IsNumber (line : List Byte) : Prop :=
  line ≠ [] ∧ ∀ ch ∈ line, ascii '0' ≤ ch ∧ ch ≤ ascii '9'

instance (line : List Byte) : Decidable (IsNumber line) := inferInstanceAs (Decidable (_ ∧ _))

/-- The decimal value of digits. -/
def decimalValue (line : List Byte) : ℕ := Decimal.value (line.map fun ch => ch.toNat - 48)

/-- A digit passes the comparisons with `'0'` and `'9'`, and no other byte. -/
theorem not_outside_digit (ch : Byte) :
    ¬ (ch.toInt < '0'.toNat ∨ ch.toInt > '9'.toNat) ↔ ascii '0' ≤ ch ∧ ch ≤ ascii '9' :=
  not_outside_iff ch (by decide) (by decide)

theorem digit_toInt {ch : Byte} (hdigit : ascii '0' ≤ ch ∧ ch ≤ ascii '9') :
    ch.toInt - '0'.toNat = (ch.toNat - 48 : ℕ) ∧ ch.toNat - 48 < 10 := by
  have hlow : 48 ≤ ch.toNat := hdigit.1
  have hhigh : ch.toNat ≤ 57 := hdigit.2
  have hzero : '0'.toNat = 48 := rfl
  rw [toInt_eq, hzero, if_pos (by omega)]
  omega

/-- A non-empty sequence of bytes that are no number has a byte that is no digit. -/
theorem exists_not_digit {line : List Byte} (hne : line ≠ []) (hline : ¬ IsNumber line) :
    ∃ ch ∈ line, ¬ (ascii '0' ≤ ch ∧ ch ≤ ascii '9') := by
  by_contra hall
  push Not at hall
  exact hline ⟨hne, hall⟩

section Loop

variable {max : ℕ}

/-- A loop that reads digits with the guard of a type, and ends with an error at any other byte
or at the digit that goes past the type. -/
structure Guarded {α : Type} (max : ℕ) (error : α) (loop : ℕ → List Byte → α) : Prop where
  digit : ∀ value ch line, ascii '0' ≤ ch ∧ ch ≤ ascii '9' →
    loop value (ch :: line) =
      if Decimal.Exceeds max value (ch.toNat - 48) then error
      else loop (value * 10 + (ch.toNat - 48)) line
  other : ∀ value ch line, ¬ (ascii '0' ≤ ch ∧ ch ≤ ascii '9') → loop value (ch :: line) = error

section Guarded

variable {α : Type} {error : α} {loop : ℕ → List Byte → α}

/-- On digits the loop is a guarded reader. -/
theorem Guarded.digits (hloop : Guarded max error loop) {line : List Byte}
    (hline : ∀ ch ∈ line, ascii '0' ≤ ch ∧ ch ≤ ascii '9') (value : ℕ) :
    loop value line =
      (Decimal.read max value (line.map fun ch => ch.toNat - 48)).elim error (loop · []) := by
  induction line generalizing value with
  | nil => rfl
  | cons ch line ih =>
    obtain ⟨hdigit, hrest⟩ := List.forall_mem_cons.mp hline
    rw [hloop.digit value ch line hdigit, List.map_cons, Decimal.read]
    by_cases hpast : Decimal.Exceeds max value (ch.toNat - 48)
    · rw [if_pos hpast, if_pos hpast]
      rfl
    · rw [if_neg hpast, if_neg hpast]
      exact ih hrest _

/-- A byte that is no digit is an error, if the digits before it are none. -/
theorem Guarded.not_digits (hloop : Guarded max error loop) {line : List Byte}
    (hline : ∃ ch ∈ line, ¬ (ascii '0' ≤ ch ∧ ch ≤ ascii '9')) (value : ℕ) :
    loop value line = error := by
  induction line generalizing value with
  | nil => simp at hline
  | cons ch line ih =>
    by_cases hdigit : ascii '0' ≤ ch ∧ ch ≤ ascii '9'
    · have hrest : ∃ ch ∈ line, ¬ (ascii '0' ≤ ch ∧ ch ≤ ascii '9') := by
        obtain ⟨other, hmem, hother⟩ := hline
        obtain rfl | hmem := List.mem_cons.mp hmem
        · exact absurd hdigit hother
        · exact ⟨other, hmem, hother⟩
      rw [hloop.digit value ch line hdigit]
      split_ifs
      · rfl
      · exact ih hrest _
    · exact hloop.other value ch line hdigit

/-- The loop ends with the value of a number that the guard lets pass. -/
theorem Guarded.eq (hloop : Guarded max error loop) {line : List Byte} (hne : line ≠ []) :
    loop 0 line =
      if IsNumber line ∧ decimalValue line ≤ max then loop (decimalValue line) [] else error := by
  by_cases hnumber : IsNumber line
  · have hdigits : ∀ digit ∈ line.map fun ch => ch.toNat - 48, digit < 10 := by
      intro digit hdigit
      obtain ⟨ch, hch, rfl⟩ := List.mem_map.mp hdigit
      exact (digit_toInt (hnumber.2 ch hch)).2
    have hread := hloop.digits hnumber.2 0
    rw [Decimal.read_zero max hdigits] at hread
    refine hread.trans ?_
    by_cases hin : Decimal.value (line.map fun ch => ch.toNat - 48) ≤ max
    · rw [if_pos hin, if_pos ⟨hnumber, hin⟩, Option.elim_some, decimalValue]
    · rw [if_neg hin, if_neg fun hboth => hin hboth.2, Option.elim_none]
  · rw [if_neg fun hboth => hnumber hboth.1]
    exact hloop.not_digits (exists_not_digit hne hnumber) 0

end Guarded

/-- The guard of the source is that of the guarded reader. -/
theorem guard_iff (value : ℕ) {ch : Byte} (hdigit : ascii '0' ≤ ch ∧ ch ≤ ascii '9') :
    ((value : ℤ) ≥ (max : ℤ).tdiv 10 ∧
        ((value : ℤ) > (max : ℤ).tdiv 10 ∨ ch.toInt - '0'.toNat > (max : ℤ).tmod 10)) ↔
      Decimal.Exceeds max value (ch.toNat - 48) := by
  rw [(digit_toInt hdigit).1, Int.tdiv_eq_ediv_of_nonneg (by omega),
    Int.tmod_eq_emod_of_nonneg (by omega), Decimal.Exceeds]
  omega

/-- A digit that the guard lets pass does not overflow. -/
theorem readLoop_cons {value : ℕ} {ch : Byte} (hdigit : ascii '0' ≤ ch ∧ ch ≤ ascii '9')
    (line : List Byte) :
    readLoop max value (ch :: line) =
      if Decimal.Exceeds max value (ch.toNat - 48) then some (-1)
      else readLoop max (value * 10 + (ch.toNat - 48) : ℕ) line := by
  have hguard := @guard_iff max value _ hdigit
  obtain ⟨htoInt, hlt⟩ := digit_toInt hdigit
  have hexceeds := Decimal.exceeds_iff max value hlt
  rw [readLoop, if_neg ((not_outside_digit ch).mpr hdigit)]
  dsimp only
  by_cases hpast : Decimal.Exceeds max value (ch.toNat - 48)
  · rw [if_pos (hguard.mpr hpast), if_pos hpast]
  · rw [hexceeds] at hpast
    rw [if_neg (by rw [hguard, hexceeds]; exact hpast), if_neg (by rw [hexceeds]; exact hpast),
      htoInt, fits, if_pos (by omega)]
    simp only [Option.bind_eq_bind, Option.bind_some]
    rw [fits, if_pos (by omega)]
    push_cast
    rfl

theorem readLoop_guarded (max : ℕ) :
    Guarded max (some (-1)) fun value line => readLoop max value line where
  digit _ _ line hdigit := readLoop_cons hdigit line
  other _ ch _ hother := by
    rw [readLoop, if_pos]
    by_contra hinside
    exact hother ((not_outside_digit ch).mp hinside)

/-- What a reader returns. -/
theorem readNumber_eq (line : List Byte) :
    readNumber max line =
      some (if IsNumber line ∧ decimalValue line ≤ max then ↑(decimalValue line) else -1) := by
  by_cases hnil : line = []
  · subst hnil
    rw [if_neg fun hboth => hboth.1.1 rfl]
    rfl
  rw [readNumber, if_neg fun hlength => hnil (List.eq_nil_of_length_eq_zero hlength)]
  refine ((readLoop_guarded max).eq hnil).trans ?_
  rw [readLoop, apply_ite some]

end Loop

/-! ## The three types -/

/-- Each reader returns the value of a number that its type has, and an error for all other
bytes; none of its operations overflows. -/
theorem readers_eq (line : List Byte) :
    nightAtoi line = some (if IsNumber line ∧ decimalValue line ≤ 2147483647 then
        ↑(decimalValue line) else -1) ∧
      nightAtoof line = some (if IsNumber line ∧ decimalValue line ≤ 9223372036854775807 then
        ↑(decimalValue line) else -1) ∧
      nightAtotm line = some (if IsNumber line ∧ decimalValue line ≤ 9223372036854775807 then
        ↑(decimalValue line) else -1) :=
  ⟨readNumber_eq line, readNumber_eq line, readNumber_eq line⟩

end Night.Atoi
