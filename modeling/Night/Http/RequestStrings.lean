import Night.Http.RequestHeader
import Night.Tools.Atoi
import Night.Tools.Strstrn

/-!
# The strings of a request header

`headers_in` is filled with functions that always return.  They are `night_atoof`,
`night_atotm`, `night_strncasecmp` and `night_strcasestrn`, none of which overflows or reads
behind a NUL here.
-/

namespace Night.RequestHeader

open Night.Bytes

/-! ## Numbers -/

theorem readDecimal_guarded (max : ℕ) :
    Atoi.Guarded max nightError fun value line => readDecimal max value line where
  digit value ch line hdigit := by
    have hguard := @Atoi.guard_iff max value _ hdigit
    rw [Int.tdiv_eq_ediv_of_nonneg (by omega), Int.tmod_eq_emod_of_nonneg (by omega)] at hguard
    rw [readDecimal, if_neg ((Atoi.not_outside_digit ch).mpr hdigit)]
    simp only [hguard]
    rw [(Atoi.digit_toInt hdigit).1]
    push_cast
    rfl
  other value ch line hother := by
    rw [readDecimal, if_pos]
    by_contra hinside
    exact hother ((Atoi.not_outside_digit ch).mp hinside)

/-- With the same guard as the reader the loop returns the same. -/
theorem readNumber_eq_readDecimal (max : ℕ) (line : List Byte) :
    Atoi.readNumber max line =
      some (if line.length = 0 then nightError else readDecimal max 0 line) := by
  rw [Atoi.readNumber_eq]
  by_cases hnil : line = []
  · subst hnil
    rw [if_neg fun hboth => hboth.1.1 rfl]
    rfl
  · rw [if_neg fun hlength => hnil (List.eq_nil_of_length_eq_zero hlength)]
    exact congrArg some ((readDecimal_guarded max).eq hnil).symm

theorem atoof_eq (line : List Byte) : Atoi.nightAtoof line = some (nightAtoof line) :=
  readNumber_eq_readDecimal 9223372036854775807 line

theorem atotm_eq (line : List Byte) : Atoi.nightAtotm line = some (nightAtotm line) :=
  readNumber_eq_readDecimal 9223372036854775807 line

/-! ## Comparisons -/

theorem nightStrncasecmp_cons (c1 c2 : Byte) (s1 s2 : List Byte) (n : ℕ) :
    nightStrncasecmp (c1 :: s1) (c2 :: s2) (n + 1) =
      if nightTolower c1 = nightTolower c2 then
        if nightTolower c1 ≠ 0 then nightStrncasecmp s1 s2 n else 0
      else (nightTolower c1).toInt - (nightTolower c2).toInt := rfl

/-- Of two strings in memory nothing behind a NUL is compared. -/
theorem strncasecmp_eq (s1 s2 : List Byte) (n : ℕ) :
    Strstrn.nightStrncasecmp (s1 ++ [0]) (s2 ++ [0]) n = some (nightStrncasecmp s1 s2 n) := by
  have hnul : nightTolower 0 = 0 := rfl
  induction n generalizing s1 s2 with
  | zero => cases s1 <;> rfl
  | succ n ih =>
    cases s1 with
    | nil =>
      cases s2 with
      | nil => rfl
      | cons c2 s2 =>
        rw [List.nil_append, List.cons_append, Strstrn.nightStrncasecmp, Strstrn.compareN,
          nightStrncasecmp]
        simp only [List.headD_nil, List.headD_cons, hnul]
        split_ifs <;> simp_all
    | cons c1 s1 =>
      cases s2 with
      | nil =>
        rw [List.nil_append, List.cons_append, Strstrn.nightStrncasecmp, Strstrn.compareN,
          nightStrncasecmp]
        simp only [List.headD_nil, List.headD_cons, hnul]
        split_ifs <;> simp_all
      | cons c2 s2 =>
        have hrest := ih s1 s2
        rw [Strstrn.nightStrncasecmp] at hrest
        rw [List.cons_append, List.cons_append, Strstrn.nightStrncasecmp, Strstrn.compareN, hrest,
          nightStrncasecmp_cons]
        by_cases hsame : nightTolower c1 = nightTolower c2
        · rw [if_pos hsame, if_pos hsame]
          by_cases hend : nightTolower c1 ≠ 0
          · rw [if_pos hend, if_pos hend]
          · rw [if_neg hend, if_neg hend]
        · rw [if_neg hsame, if_neg hsame]

/-- The search goes on from the same places. -/
theorem search_eq (c2 : Byte) (s2 before : List Byte) (n : ℕ) {rest : List Byte}
    (hrest : 0 ∉ rest) :
    ∃ place, Strstrn.search nightTolower Strstrn.nightStrncasecmp c2 (s2 ++ [0]) n (rest ++ [0])
        before.length = some place ∧
      nightStrcasestrn (c2 :: s2) n rest = place.map fun i => (before ++ rest).drop i := by
  induction rest generalizing before with
  | nil => exact ⟨none, rfl, rfl⟩
  | cons c1 s1 ih =>
    rw [List.mem_cons, not_or] at hrest
    obtain ⟨place, hsearch, hplace⟩ := ih (before ++ [c1]) hrest.2
    rw [List.length_append, List.length_singleton] at hsearch
    rw [List.append_assoc, List.singleton_append] at hplace
    rw [List.cons_append, Strstrn.search, if_neg fun heq => hrest.1 heq.symm, nightStrcasestrn,
      List.headD_cons, List.tail_cons]
    by_cases hfirst : nightTolower c1 = nightTolower c2
    · rw [if_neg (not_not.mpr hfirst), strncasecmp_eq]
      simp only [Option.bind_eq_bind, Option.bind_some]
      by_cases hsame : nightStrncasecmp s1 s2 (n - 1) = 0
      · rw [if_neg (not_not.mpr hsame), if_pos ⟨hfirst, hsame⟩]
        refine ⟨_, rfl, ?_⟩
        rw [Option.map_some, List.drop_left]
      · rw [if_pos hsame, if_neg fun hboth => hsame hboth.2]
        exact ⟨place, hsearch, hplace⟩
    · rw [if_pos hfirst, if_neg fun hboth => hfirst hboth.1]
      exact ⟨place, hsearch, hplace⟩

/-- In a string without a NUL the needle is found at the same place. -/
theorem strcasestrn_eq {s1 s2 : List Byte} (hs1 : 0 ∉ s1) (hs2 : s2 ≠ []) (n : ℕ) :
    ∃ place, Strstrn.nightStrcasestrn (s1 ++ [0]) (s2 ++ [0]) n = some place ∧
      nightStrcasestrn s2 n s1 = place.map s1.drop := by
  cases s2 with
  | nil => exact absurd rfl hs2
  | cons c2 s2 => exact search_eq c2 s2 [] n hs1

end Night.RequestHeader
