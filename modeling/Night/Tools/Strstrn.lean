import Mathlib.Data.List.Infix
import Night.Core.Bytes

/-!
# `night_strstrn` and `night_strcasestrn`

The haystack is read up to its NUL; there is no result when a byte behind it, or behind the
bytes of the needle, is read.
-/

namespace Night.Strstrn

open Night.Bytes

/-! ## The search -/

/-- The comparison of at most `n` bytes that ends with a NUL: `fold` is applied to every byte,
`value` is what the difference is computed from. -/
def compareN (fold : Byte → Byte) (value : Byte → ℤ) : List Byte → List Byte → ℕ → Option ℤ
  | _, _, 0 => some 0
  | c1 :: s1, c2 :: s2, n + 1 =>
    if fold c1 = fold c2 then
      if fold c1 ≠ 0 then compareN fold value s1 s2 n else some 0
    else some (value (fold c1) - value (fold c2))
  | _, _, _ => none

/-- `strncmp`. -/
def strncmp : List Byte → List Byte → ℕ → Option ℤ := compareN id fun ch => ch.toNat

/-- `night_strncasecmp`; `char` is signed. -/
def nightStrncasecmp : List Byte → List Byte → ℕ → Option ℤ := compareN nightTolower BitVec.toInt

/-- The two nested loops: the inner one passes over the bytes that differ from the first one of
the needle, the outer one compares the rest of it.  `i` is the place of the next byte. -/
def search (fold : Byte → Byte) (compare : List Byte → List Byte → ℕ → Option ℤ) (c2 : Byte)
    (s2 : List Byte) (n : ℕ) : List Byte → ℕ → Option (Option ℕ)
  | [], _ => none
  | c1 :: s1, i =>
    if c1 = 0 then some none
    else if fold c1 ≠ fold c2 then search fold compare c2 s2 n s1 (i + 1)
    else do
      let difference ← compare s1 s2 (n - 1)
      if difference ≠ 0 then search fold compare c2 s2 n s1 (i + 1) else some (some i)

/-- `night_strstrn`: the place of the needle, or no place for `NULL`. -/
def nightStrstrn (s1 s2 : List Byte) (n : ℕ) : Option (Option ℕ) :=
  match s2 with
  | [] => none
  | c2 :: s2 => search id strncmp c2 s2 n s1 0

/-- `night_strcasestrn`. -/
def nightStrcasestrn (s1 s2 : List Byte) (n : ℕ) : Option (Option ℕ) :=
  match s2 with
  | [] => none
  | c2 :: s2 => search nightTolower nightStrncasecmp c2 s2 n s1 0

/-! ## Occurrences -/

/-- A string without its NUL. -/
structure CString where
  bytes : List Byte
  noNul : 0 ∉ bytes

/-- The bytes in memory. -/
def CString.memory (s : CString) : List Byte := s.bytes ++ [0]

/-- The needle is at a place of the haystack, up to `fold`. -/
def OccursAt (fold : Byte → Byte) (haystack needle : List Byte) (i : ℕ) : Prop :=
  needle.map fold <+: (haystack.drop i).map fold

/-- The first place of the needle, or that there is none. -/
def FirstPlace (fold : Byte → Byte) (haystack needle : List Byte) : Option ℕ → Prop
  | some i => OccursAt fold haystack needle i ∧ ∀ j < i, ¬ OccursAt fold haystack needle j
  | none => ∀ i, ¬ OccursAt fold haystack needle i

section Search

variable {fold : Byte → Byte} {value : Byte → ℤ}

/-- Where neither string has a NUL the comparison decides about a prefix. -/
theorem compareN_spec (hzero : ∀ ch, fold ch = 0 ↔ ch = 0) (hvalue : Function.Injective value)
    {s2 : List Byte} (hneedle : 0 ∉ s2) {s1 : List Byte} (hs1 : 0 ∉ s1) :
    ∃ difference, compareN fold value (s1 ++ [0]) s2 s2.length = some difference ∧
      (difference = 0 ↔ s2.map fold <+: s1.map fold) := by
  induction s2 generalizing s1 with
  | nil => exact ⟨0, by cases s1 <;> rfl, by simp⟩
  | cons c2 s2 ih =>
    rw [List.mem_cons, not_or] at hneedle
    have hc2 : fold c2 ≠ 0 := fun heq => hneedle.1 ((hzero c2).mp heq).symm
    cases s1 with
    | nil =>
      have hnul : fold 0 = 0 := (hzero 0).mpr rfl
      refine ⟨value (fold 0) - value (fold c2), ?_, ?_⟩
      · rw [List.nil_append, List.length_cons, compareN, if_neg (by rw [hnul]; exact hc2.symm)]
      · rw [sub_eq_zero, hvalue.eq_iff, hnul]
        exact iff_of_false hc2.symm (by simp)
    | cons c1 s1 =>
      rw [List.mem_cons, not_or] at hs1
      have hc1 : fold c1 ≠ 0 := fun heq => hs1.1 ((hzero c1).mp heq).symm
      rw [List.cons_append, List.length_cons, compareN, List.map_cons, List.map_cons,
        List.cons_prefix_cons]
      by_cases hsame : fold c1 = fold c2
      · obtain ⟨difference, hrest, hstarts⟩ := ih hneedle.2 hs1.2
        rw [if_pos hsame, if_pos hc1]
        refine ⟨difference, hrest, ?_⟩
        rw [hstarts]
        simp [hsame]
      · rw [if_neg hsame]
        refine ⟨_, rfl, ?_⟩
        rw [sub_eq_zero, hvalue.eq_iff]
        exact iff_of_false hsame fun hboth => hsame hboth.1.symm

theorem not_occursAt_nil {c2 : Byte} {s2 haystack : List Byte} {i : ℕ}
    (hi : haystack.length ≤ i) : ¬ OccursAt fold haystack (c2 :: s2) i := by
  rw [OccursAt, List.drop_eq_nil_of_le hi]
  simp

/-- The search goes through the places in order and ends at the NUL. -/
theorem search_spec (hzero : ∀ ch, fold ch = 0 ↔ ch = 0) (hvalue : Function.Injective value)
    {c2 : Byte} {s2 : List Byte} (hneedle : 0 ∉ c2 :: s2) (before : List Byte) {rest : List Byte}
    (hrest : 0 ∉ rest)
    (hbefore : ∀ j < before.length, ¬ OccursAt fold (before ++ rest) (c2 :: s2) j) :
    ∃ place, search fold (compareN fold value) c2 s2 (c2 :: s2).length (rest ++ [0])
      before.length = some place ∧ FirstPlace fold (before ++ rest) (c2 :: s2) place := by
  induction rest generalizing before with
  | nil =>
    refine ⟨none, rfl, ?_⟩
    intro i
    by_cases hi : i < before.length
    · exact hbefore i hi
    · exact not_occursAt_nil (by simpa using hi)
  | cons c1 s1 ih =>
    rw [List.mem_cons, not_or] at hrest hneedle
    have hsplit : before ++ c1 :: s1 = (before ++ [c1]) ++ s1 := by simp
    have hlength : (before ++ [c1]).length = before.length + 1 := by simp
    have hhere : OccursAt fold (before ++ c1 :: s1) (c2 :: s2) before.length ↔
        fold c2 = fold c1 ∧ s2.map fold <+: s1.map fold := by
      rw [OccursAt, List.drop_left, List.map_cons, List.map_cons, List.cons_prefix_cons]
    -- the search goes on when the needle is not here
    have hnext (hnot : ¬ OccursAt fold (before ++ c1 :: s1) (c2 :: s2) before.length) :
        ∃ place, search fold (compareN fold value) c2 s2 (c2 :: s2).length (s1 ++ [0])
          (before.length + 1) = some place ∧
          FirstPlace fold (before ++ c1 :: s1) (c2 :: s2) place := by
      rw [hsplit, ← hlength]
      apply ih _ hrest.2
      intro j hj
      rw [← hsplit]
      by_cases hlast : j = before.length
      · rw [hlast]
        exact hnot
      · exact hbefore j (by omega)
    obtain ⟨difference, hcompare, hstarts⟩ := compareN_spec hzero hvalue hneedle.2 hrest.2
    rw [List.cons_append, search, if_neg (fun heq => hrest.1 heq.symm)]
    by_cases hfirst : fold c1 = fold c2
    · rw [if_neg (not_not.mpr hfirst), List.length_cons, Nat.add_sub_cancel, hcompare]
      simp only [Option.bind_eq_bind, Option.bind_some]
      by_cases hsame : difference = 0
      · rw [if_neg (not_not.mpr hsame)]
        exact ⟨_, rfl, hhere.mpr ⟨hfirst.symm, hstarts.mp hsame⟩, hbefore⟩
      · rw [if_pos hsame]
        exact hnext fun hoccurs => hsame (hstarts.mpr (hhere.mp hoccurs).2)
    · rw [if_pos hfirst]
      exact hnext fun hoccurs => hfirst (hhere.mp hoccurs).1.symm

end Search

theorem toNat_injective : Function.Injective fun ch : Byte => (ch.toNat : ℤ) := by
  intro a b heq
  have hnat : (a.toNat : ℤ) = b.toNat := heq
  exact BitVec.eq_of_toNat_eq (by exact_mod_cast hnat)

theorem nightTolower_eq_zero (ch : Byte) : nightTolower ch = 0 ↔ ch = 0 := by
  revert ch
  decide

/-- Both functions find the first place of a needle, as it is and up to ASCII case, and read
nothing behind the NUL of the haystack. -/
theorem strstrn_firstPlace (haystack needle : CString) (hneedle : needle.bytes ≠ []) :
    (∃ place, nightStrstrn haystack.memory needle.bytes needle.bytes.length = some place ∧
      FirstPlace id haystack.bytes needle.bytes place) ∧
    ∃ place, nightStrcasestrn haystack.memory needle.bytes needle.bytes.length = some place ∧
      FirstPlace nightTolower haystack.bytes needle.bytes place := by
  obtain ⟨bytes, hbytes⟩ := needle
  cases bytes with
  | nil => exact absurd rfl hneedle
  | cons c2 s2 =>
    constructor
    · exact search_spec (fun ch => Iff.rfl) toNat_injective hbytes [] haystack.noNul
        (by simp)
    · exact search_spec nightTolower_eq_zero (fun a b => BitVec.eq_of_toInt_eq)
        hbytes [] haystack.noNul (by simp)

/-- The first of the two overlapping `"ana"` in `"bananas"`. -/
theorem strstrn_firstPlace_bananas :
    nightStrstrn (CString.memory ⟨"bananas".toList.map ascii, by decide⟩)
        ("ana".toList.map ascii) 3 = some (some 1) ∧
      FirstPlace id ("bananas".toList.map ascii) ("ana".toList.map ascii) (some 1) := by
  obtain ⟨place, hplace, hfirst⟩ := (strstrn_firstPlace ⟨"bananas".toList.map ascii, by decide⟩
    ⟨"ana".toList.map ascii, by decide⟩ (by decide)).1
  have hfound : nightStrstrn (CString.memory ⟨"bananas".toList.map ascii, by decide⟩)
      ("ana".toList.map ascii) 3 = some (some 1) := by decide
  obtain rfl : some 1 = place := Option.some.inj (hfound.symm.trans hplace)
  exact ⟨hfound, hfirst⟩

/-- A needle with a NUL inside is found where the haystack ends. -/
theorem not_firstPlace_nul : ¬ ∀ (haystack : CString) (needle : List Byte), needle ≠ [] →
    ∃ place, nightStrstrn haystack.memory needle needle.length = some place ∧
      FirstPlace id haystack.bytes needle place := by
  intro hall
  obtain ⟨place, hplace, hfirst⟩ :=
    hall ⟨[ascii 'a'], by decide⟩ [ascii 'a', 0, ascii 'b'] (by simp)
  have hfound : nightStrstrn (CString.memory ⟨[ascii 'a'], by decide⟩) [ascii 'a', 0, ascii 'b']
      [ascii 'a', 0, ascii 'b'].length = some (some 0) := by decide
  rw [hfound] at hplace
  obtain rfl := Option.some.inj hplace
  have hstarts : [ascii 'a', 0, ascii 'b'].map id <+: ([ascii 'a'].drop 0).map id := hfirst.1
  exact absurd hstarts.length_le (by decide)

end Night.Strstrn
