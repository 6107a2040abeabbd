import Mathlib.Data.BitVec
import Mathlib.Data.Int.Bitwise
import Mathlib.Data.List.Basic

/-!
# Bytes as the C sources see them

A buffer holds bytes; the sources read them through `char`, which the build
compiles as a signed type.  `toInt` is therefore the value of a `char` in a C
expression and `toNat` the byte that came from the client or from a file.
-/

namespace Night.Bytes

abbrev Byte := BitVec 8

/-- The byte of an ASCII character constant. -/
def ascii (character : Char) : Byte :=
  BitVec.ofNat 8 character.toNat

def LF : Byte := 0x0A#8
def CR : Byte := 0x0D#8
def SP : Byte := 0x20#8
def DEL : Byte := 0x7F#8

/-- The end of a line: `LF`, with a `CR` before it or not. -/
def lineEnd (cr : Bool) : List Byte := if cr then [CR, LF] else [LF]

theorem length_lineEnd (cr : Bool) : (lineEnd cr).length = cr.toNat + 1 := by
  cases cr <;> rfl

/-- The conversion of a signed value to `uint64_t`, and the result of arithmetic there. -/
def u64 (n : ℤ) : ℤ := n % 2 ^ 64

/-- The value of a `char` in an expression, by the unsigned value of the byte. -/
theorem toInt_eq (ch : Byte) :
    ch.toInt = if ch.toNat < 128 then (ch.toNat : ℤ) else ch.toNat - 256 := by
  rw [BitVec.toInt_eq_toNat_cond]
  split <;> split <;> omega

/-- Between two ASCII bounds the signed comparisons of the sources and the
unsigned ones agree. -/
theorem not_outside_iff (ch : Byte) {low high : ℕ} (hlow : 0 < low)
    (hhigh : high < 128) :
    ¬(ch.toInt < low ∨ (high : ℤ) < ch.toInt) ↔
      low ≤ ch.toNat ∧ ch.toNat ≤ high := by
  rw [toInt_eq]
  have := ch.isLt
  split <;> omega

/-- The macro `night_tolower` on a byte: it lowers `A`–`Z` and leaves every other
byte, also those above `0x7f`, as it is. -/
def nightTolower (ch : Byte) : Byte :=
  if 'A'.toNat ≤ ch.toNat ∧ ch.toNat ≤ 'Z'.toNat then ch ||| 0x20#8 else ch

/-- A delimiter that occurs in neither first part cuts a list in one way only. -/
theorem append_delimiter_inj {α : Type*} {delimiter : α} {left right rest rest' : List α}
    (hleft : delimiter ∉ left) (hright : delimiter ∉ right)
    (heq : left ++ delimiter :: rest = right ++ delimiter :: rest') :
    left = right ∧ rest = rest' := by
  induction left generalizing right with
  | nil =>
      cases right with
      | nil => simpa using heq
      | cons first right =>
          simp only [List.nil_append, List.cons_append, List.cons.injEq] at heq
          exact absurd (by simp [heq.1]) hright
  | cons first left ih =>
      cases right with
      | nil =>
          simp only [List.nil_append, List.cons_append, List.cons.injEq] at heq
          exact absurd (by simp [heq.1]) hleft
      | cons first' right =>
          simp only [List.cons_append, List.cons.injEq] at heq
          simp only [List.mem_cons, not_or] at hleft hright
          obtain ⟨rfl, hrest⟩ := ih hleft.2 hright.2 heq.2
          exact ⟨by rw [heq.1], hrest⟩

end Night.Bytes
