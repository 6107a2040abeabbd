import Mathlib.Data.List.Induction
import Mathlib.Data.Nat.Digits.Defs
import Mathlib.Tactic.Ring

/-!
# Decimal numbers that are read from the left

A reader keeps the value so far and stops before the next digit would carry it past a bound.
The guard compares with the quotient and the remainder of the bound, and it is exact.
-/

namespace Night.Decimal

/-- The value of digits, the first one is the highest. -/
def value (digits : List ℕ) : ℕ := Nat.ofDigits 10 digits.reverse

@[simp]
theorem value_nil : value [] = 0 := rfl

theorem value_append (digits : List ℕ) (digit : ℕ) :
    value (digits ++ [digit]) = value digits * 10 + digit := by
  rw [value, value, List.reverse_append, List.reverse_singleton, List.singleton_append,
    Nat.ofDigits_cons]
  ring

/-- More digits only make a number larger. -/
theorem value_le_append (digits more : List ℕ) : value digits ≤ value (digits ++ more) := by
  induction more using List.reverseRecOn with
  | nil => simp
  | append_singleton more digit ih =>
    rw [← List.append_assoc, value_append]
    omega

/-- The guard before a digit is taken. -/
def Exceeds (bound value digit : ℕ) : Prop :=
  value ≥ bound / 10 ∧ (value > bound / 10 ∨ digit > bound % 10)

instance (bound value digit : ℕ) : Decidable (Exceeds bound value digit) :=
  inferInstanceAs (Decidable (_ ∧ _))

theorem exceeds_iff (bound value : ℕ) {digit : ℕ} (hdigit : digit < 10) :
    Exceeds bound value digit ↔ bound < value * 10 + digit := by
  unfold Exceeds
  omega

/-- A reader with the guard. -/
def read (bound : ℕ) : ℕ → List ℕ → Option ℕ
  | value, [] => some value
  | value, digit :: digits =>
    if Exceeds bound value digit then none else read bound (value * 10 + digit) digits

theorem read_eq (bound : ℕ) (before : List ℕ) {digits : List ℕ} (hdigits : ∀ digit ∈ digits, digit < 10)
    (hbefore : value before ≤ bound) :
    read bound (value before) digits =
      if value (before ++ digits) ≤ bound then some (value (before ++ digits)) else none := by
  induction digits generalizing before with
  | nil => simp [read, hbefore]
  | cons digit digits ih =>
    obtain ⟨hdigit, hrest⟩ := List.forall_mem_cons.mp hdigits
    have hguard := exceeds_iff bound (value before) hdigit
    rw [← value_append] at hguard
    have hcons : before ++ digit :: digits = before ++ [digit] ++ digits := by simp
    have hmono := value_le_append (before ++ [digit]) digits
    rw [read, ← value_append, hcons]
    by_cases hexceeds : Exceeds bound (value before) digit
    · rw [if_pos hexceeds, if_neg (by have := hguard.mp hexceeds; omega)]
    · rw [if_neg hexceeds]
      exact ih _ hrest (by rw [hguard] at hexceeds; omega)

/-- A guarded reader gives the value of the digits if that is in the bound. -/
theorem read_zero (bound : ℕ) {digits : List ℕ} (hdigits : ∀ digit ∈ digits, digit < 10) :
    read bound 0 digits = if value digits ≤ bound then some (value digits) else none :=
  read_eq bound [] hdigits (Nat.zero_le bound)

end Night.Decimal
