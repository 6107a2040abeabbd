import Night.Conf.Parse
import Night.Core.Time
import Night.Tools.Atoi

/-!
# `worker_processes` and `worker_connections` of the current tree

Both directives store what `night_atoi` returns.  It adds up in `uint64_t`, its guard is that of
a 64-bit type, and it returns `int`.
-/

namespace Night.NumberDirectives

open Night.Bytes Night.Time Night.Atoi

/-! ## `night_atoi` -/

/-- `NIGHT_MAX_INT_T_VALUE`. -/
def maxIntTValue : ℤ := 9223372036854775807

/-- The loop of `night_atoi`; at its end `value` is converted to `int`. -/
def atoiLoop : ℤ → List Byte → ℤ
  | value, [] => wrapInt value
  | value, ch :: line =>
    if ch.toInt < '0'.toNat ∨ ch.toInt > '9'.toNat then -1
    else
      let cutoff := maxIntTValue.tdiv 10
      let cutlim := maxIntTValue.tmod 10
      if value ≥ cutoff ∧ (value > cutoff ∨ ch.toInt - '0'.toNat > cutlim) then -1
      else atoiLoop ((value * 10 + (ch.toInt - '0'.toNat)) % 2 ^ 64) line

/-- `night_atoi`. -/
def nightAtoi (line : List Byte) : ℤ := if line.length = 0 then -1 else atoiLoop 0 line

/-! ## The directives -/

/-- What the handler of a directive returns. -/
inductive Rv
  | ok
  | error
  | text (message : List Byte)
  deriving DecidableEq, Repr

/-- `NIGHT_CONF_UNSET` and `NIGHT_ERROR`. -/
def unset : ℤ := -1

/-- `night_set_worker_processes`, with the configuration's `worker_processes` before and after. -/
def nightSetWorkerProcesses (ncpu : ℤ) (value : List Byte) (workerProcesses : ℤ) : Rv × ℤ :=
  if workerProcesses ≠ unset then (.text (literal "is duplicate"), workerProcesses)
  else if Conf.strcmp value (literal "auto") = 0 then (.ok, ncpu)
  else if nightAtoi value = -1 then (.text (literal "invalid value"), nightAtoi value)
  else (.ok, nightAtoi value)

/-- `connections` of the event configuration and `connection_n` of the cycle. -/
structure Connections where
  connections : ℤ
  connectionN : ℤ
  deriving DecidableEq, Repr

/-- The handler of `worker_connections`; `connection_n` is a `size_t`. -/
def nightEventConnections (value : List Byte) (conf : Connections) : Rv × Connections :=
  if conf.connections ≠ unset then (.text (literal "is duplicate"), conf)
  else if nightAtoi value = -1 then (.error, { conf with connections := nightAtoi value })
  else (.ok, ⟨nightAtoi value, nightAtoi value % 2 ^ 64⟩)

/-! ## What is stored -/

/-- The number that is read is the one that is written, all numbers of type `int` are read, and
the directives store no other number. -/
structure Right (line : List Byte) : Prop where
  read : nightAtoi line = -1 ∨ IsNumber line ∧ nightAtoi line = decimalValue line
  complete : IsNumber line → decimalValue line ≤ 2147483647 → nightAtoi line = decimalValue line
  processes : ∀ ncpu workerProcesses stored, Conf.strcmp line (literal "auto") ≠ 0 →
    nightSetWorkerProcesses ncpu line workerProcesses = (.ok, stored) →
      IsNumber line ∧ stored = decimalValue line
  connections : ∀ conf stored, nightEventConnections line conf = (.ok, stored) →
    IsNumber line ∧ stored = ⟨decimalValue line, decimalValue line⟩

/-- Numbers behind `int` that are cut to 32 bits and are no error then. -/
def Cut (line : List Byte) : Prop :=
  IsNumber line ∧ 2147483647 < decimalValue line ∧ decimalValue line ≤ 9223372036854775807 ∧
    decimalValue line % 2 ^ 32 ≠ 2 ^ 32 - 1

instance (line : List Byte) : Decidable (Cut line) := inferInstanceAs (Decidable (_ ∧ _))

theorem atoiLoop_cons {value : ℕ} {ch : Byte} (hdigit : ascii '0' ≤ ch ∧ ch ≤ ascii '9')
    (line : List Byte) :
    atoiLoop value (ch :: line) =
      if Decimal.Exceeds 9223372036854775807 value (ch.toNat - 48) then -1
      else atoiLoop (value * 10 + (ch.toNat - 48) : ℕ) line := by
  have hguard : ((value : ℤ) ≥ maxIntTValue.tdiv 10 ∧ ((value : ℤ) > maxIntTValue.tdiv 10 ∨
      ch.toInt - '0'.toNat > maxIntTValue.tmod 10)) ↔
      Decimal.Exceeds 9223372036854775807 value (ch.toNat - 48) := guard_iff value hdigit
  obtain ⟨htoInt, hlt⟩ := digit_toInt hdigit
  have hexceeds := Decimal.exceeds_iff 9223372036854775807 value hlt
  rw [atoiLoop, if_neg ((not_outside_digit ch).mpr hdigit)]
  dsimp only
  by_cases hpast : Decimal.Exceeds 9223372036854775807 value (ch.toNat - 48)
  · rw [if_pos (hguard.mpr hpast), if_pos hpast]
  · have hstay : ((value : ℤ) * 10 + (ch.toInt - '0'.toNat)) % 2 ^ 64 =
        (value * 10 + (ch.toNat - 48) : ℕ) := by
      rw [hexceeds] at hpast
      rw [htoInt]
      push_cast
      omega
    rw [if_neg (fun hboth => hpast (hguard.mp hboth)), if_neg hpast, hstay]

theorem atoiLoop_guarded :
    Guarded 9223372036854775807 (-1) fun value line => atoiLoop value line where
  digit _ _ line hdigit := atoiLoop_cons hdigit line
  other _ ch _ hother := by
    rw [atoiLoop, if_pos]
    by_contra hinside
    exact hother ((not_outside_digit ch).mp hinside)

/-- `night_atoi` guards a type of 64 bits and cuts the value to 32 bits. -/
theorem nightAtoi_eq (line : List Byte) :
    nightAtoi line =
      if IsNumber line ∧ decimalValue line ≤ 9223372036854775807 then wrapInt (decimalValue line)
      else -1 := by
  by_cases hnil : line = []
  · subst hnil
    rw [if_neg fun hboth => hboth.1.1 rfl]
    rfl
  rw [nightAtoi, if_neg fun hlength => hnil (List.eq_nil_of_length_eq_zero hlength)]
  refine (atoiLoop_guarded.eq hnil).trans ?_
  rw [atoiLoop]

theorem wrapInt_eq_iff {n : ℕ} (hlarge : 2147483647 < n) :
    wrapInt n ≠ n ∧ (wrapInt n = -1 ↔ n % 2 ^ 32 = 2 ^ 32 - 1) := by
  have hbounds := Int.bmod_lt (x := (n : ℤ)) (m := 2 ^ 32) (by decide)
  have hmod := Int.bmod_emod (x := (n : ℤ)) (m := 2 ^ 32)
  have hlow := Int.le_bmod (x := (n : ℤ)) (m := 2 ^ 32) (by decide)
  rw [wrapInt]
  omega

/-- Where no number is cut, an error or the number itself is read. -/
theorem nightAtoi_of_not_cut {line : List Byte} (hcut : ¬ Cut line) :
    nightAtoi line = -1 ∨
      IsNumber line ∧ decimalValue line ≤ 2147483647 ∧ nightAtoi line = decimalValue line := by
  rw [nightAtoi_eq]
  split_ifs with hnumber
  · by_cases hsmall : decimalValue line ≤ 2147483647
    · exact Or.inr ⟨hnumber.1, hsmall, wrapInt_eq (by omega) (by omega)⟩
    · left
      rw [(wrapInt_eq_iff (by omega)).2]
      by_contra hne
      exact hcut ⟨hnumber.1, by omega, hnumber.2, hne⟩
  · exact Or.inl rfl

/-- The number that is stored is the written one exactly when it is not cut to 32 bits. -/
theorem right_iff_not_cut (line : List Byte) : Right line ↔ ¬ Cut line := by
  constructor
  · rintro hright ⟨hnumber, hlarge, hlimit, herror⟩
    have hread := nightAtoi_eq line
    rw [if_pos ⟨hnumber, hlimit⟩] at hread
    obtain ⟨hne, hminus⟩ := wrapInt_eq_iff hlarge
    obtain hcase | ⟨-, hcase⟩ := hright.read
    · rw [hread, hminus] at hcase
      exact herror hcase
    · exact hne (hread.symm.trans hcase)
  · intro hcut
    have hread := nightAtoi_of_not_cut hcut
    have hvalue : nightAtoi line ≠ -1 → IsNumber line ∧ decimalValue line ≤ 2147483647 ∧
        nightAtoi line = decimalValue line := fun hne => hread.resolve_left hne
    refine ⟨hread.imp id fun hnumber => ⟨hnumber.1, hnumber.2.2⟩, ?_, ?_, ?_⟩
    · intro hnumber hsmall
      rw [nightAtoi_eq, if_pos ⟨hnumber, by omega⟩]
      exact wrapInt_eq (by omega) (by omega)
    · intro ncpu workerProcesses stored hauto hstored
      rw [nightSetWorkerProcesses] at hstored
      split_ifs at hstored with hset hinvalid
      · cases hstored
      · cases hstored
      · obtain ⟨-, rfl⟩ := Prod.mk.inj hstored
        exact ⟨(hvalue hinvalid).1, (hvalue hinvalid).2.2⟩
    · intro conf stored hstored
      rw [nightEventConnections] at hstored
      split_ifs at hstored with hset hinvalid
      · cases hstored
      · cases hstored
      · obtain ⟨-, rfl⟩ := Prod.mk.inj hstored
        obtain ⟨hnumber, hsmall, heq⟩ := hvalue hinvalid
        refine ⟨hnumber, ?_⟩
        rw [heq, Connections.mk.injEq]
        omega

/-- 2³² + 1 is read as 1. -/
theorem not_right_cut : ¬ ∀ line, Right line := by
  intro hall
  have hright := hall (literal "4294967297")
  have hread : nightAtoi (literal "4294967297") = 1 := by decide
  have hvalue : decimalValue (literal "4294967297") = 4294967297 := by decide
  obtain hcase | ⟨-, hcase⟩ := hright.read
  · rw [hread] at hcase
    exact absurd hcase (by decide)
  · rw [hread, hvalue] at hcase
    exact absurd hcase (by decide)

end Night.NumberDirectives
