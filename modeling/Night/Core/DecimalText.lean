import Night.Core.TimeText
import Night.Tools.Atoi

/-!
# Numbers that are written and read

What `sprintf` writes for a number is a number for the readers, with that value; so no two
numbers have one text.
-/

namespace Night.DecimalText

open Night.Atoi Night.Bytes Night.Time

theorem value_characters (characters : List Char) :
    Decimal.value (characters.map fun character => character.toNat - 48) =
      Nat.ofDigitChars 10 characters 0 := by
  induction characters using List.reverseRecOn with
  | nil => rfl
  | append_singleton characters character ih =>
    rw [List.map_append, List.map_singleton, Decimal.value_append, ih, Nat.ofDigitChars_append,
      Nat.ofDigitChars_cons, Nat.ofDigitChars_nil, Nat.mul_comm]
    rfl

/-- A number that is written is read back. -/
theorem decimalValue_decimal {n : ℤ} (hn : 0 ≤ n) : (decimalValue (decimal n) : ℤ) = n := by
  have hmap : (decimal n).map (fun ch => ch.toNat - 48) =
      (Nat.toDigits 10 n.natAbs).map fun character => character.toNat - 48 := by
    rw [decimal, if_neg (by omega), List.map_map]
    apply List.map_congr_left
    intro character hcharacter
    have hdigit := Nat.isDigit_of_mem_toDigits (by decide) (by decide) hcharacter
    have hrange : 48 ≤ character.toNat ∧ character.toNat ≤ 57 := by
      simpa [Char.isDigit, UInt32.le_iff_toNat_le] using hdigit
    have hbyte : (ascii character).toNat = character.toNat := by
      rw [ascii, BitVec.toNat_ofNat]
      omega
    rw [Function.comp_apply, hbyte]
  rw [decimalValue, hmap, value_characters, Nat.ofDigitChars_ten_toDigits]
  omega

theorem decimal_inj {n m : ℤ} (hn : 0 ≤ n) (hm : 0 ≤ m) (heq : decimal n = decimal m) : n = m := by
  rw [← decimalValue_decimal hn, heq, decimalValue_decimal hm]

/-- A zero in front does not count. -/
theorem decimalValue_zero_cons (line : List Byte) :
    decimalValue (ascii '0' :: line) = decimalValue line := by
  rw [decimalValue, decimalValue, Decimal.value, Decimal.value, List.map_cons, List.reverse_cons,
    Nat.ofDigits_append]
  exact Nat.add_eq_left.mpr (Nat.mul_zero _)

theorem decimalValue_decimalZeros {n : ℤ} (hn : 0 ≤ n) :
    (decimalValue (decimalZeros n) : ℤ) = n := by
  rw [decimalZeros]
  split_ifs
  · rw [decimalValue_zero_cons, decimalValue_decimal hn]
  · exact decimalValue_decimal hn

theorem decimalZeros_inj {n m : ℤ} (hn : 0 ≤ n) (hm : 0 ≤ m)
    (heq : decimalZeros n = decimalZeros m) : n = m := by
  rw [← decimalValue_decimalZeros hn, heq, decimalValue_decimalZeros hm]

end Night.DecimalText
