import Night.Conf.TokenReference

/-!
# Where `night_conf_read_token` reads what the text says

Byte by byte the flags of the function follow the modes of the reference, and the
words agree, until a hazard.  Behind a hazard the call returns something else when
`variable` does not happen to be zero.
-/

namespace Night.ConfToken

open Night.Bytes

/-! ## Decoding -/

/-- In `raw` every backslash protects a byte. -/
inductive Escaped : List Byte → Prop where
  | nil : Escaped []
  | plain {raw : List Byte} (ch : Byte) (hch : ch ≠ ascii '\\') (hraw : Escaped raw) :
      Escaped (ch :: raw)
  | pair {raw : List Byte} (ch : Byte) (hraw : Escaped raw) : Escaped (ascii '\\' :: ch :: raw)

theorem Escaped.append {raw more : List Byte} (hraw : Escaped raw) (hmore : Escaped more) :
    Escaped (raw ++ more) := by
  induction hraw with
  | nil => exact hmore
  | plain ch hch _ ih => exact .plain ch hch ih
  | pair ch _ ih => exact .pair ch ih

theorem Escaped.snoc {raw : List Byte} {ch : Byte} (hraw : Escaped raw)
    (hch : ch ≠ ascii '\\') : Escaped (raw ++ [ch]) :=
  hraw.append (.plain ch hch .nil)

theorem Escaped.snoc_pair {raw : List Byte} (hraw : Escaped raw) (ch : Byte) :
    Escaped (raw ++ [ascii '\\'] ++ [ch]) := by
  rw [List.append_assoc]
  exact hraw.append (.pair ch .nil)

theorem decodeWord_plain {next ch : Byte} (hch : ch ≠ ascii '\\') (src : List Byte) :
    decodeWord next (ch :: src) = ch :: decodeWord next src := by
  cases src with
  | nil => simp [decodeWord, hch]
  | cons ch' src => rw [decodeWord, if_neg hch]

theorem unescape_plain {ch : Byte} (hch : ch ≠ ascii '\\') (src : List Byte) :
    unescape (ch :: src) = ch :: unescape src := by
  cases src with
  | nil => rw [unescape, unescape]
  | cons ch' src => rw [unescape, if_neg hch]

theorem escape_eq_none {ch : Byte} (hescape : escape ch = none) : ch ≠ ascii '\\' := by
  rintro rfl
  simp [escape] at hescape

/-- The decoding loop decodes the words of the reference, whatever follows. -/
theorem decodeWord_append {raw : List Byte} (hraw : Escaped raw) (next : Byte)
    (more : List Byte) :
    decodeWord next (raw ++ more) = unescape raw ++ decodeWord next more := by
  induction hraw with
  | nil => rfl
  | plain ch hch _ ih =>
      rw [List.cons_append, decodeWord_plain hch, unescape_plain hch, ih, List.cons_append]
  | pair ch _ ih =>
      rw [List.cons_append, List.cons_append, decodeWord, if_pos rfl, unescape, if_pos rfl]
      cases hescape : escape ch with
      | none =>
          simp only
          rw [decodeWord_plain (escape_eq_none hescape), ih, List.cons_append, List.cons_append]
      | some decoded =>
          simp only
          rw [ih, List.cons_append]

theorem decodeWord_eq {raw : List Byte} (hraw : Escaped raw) (next : Byte) :
    decodeWord next raw = unescape raw := by
  have happend := decodeWord_append hraw next []
  rwa [List.append_nil, decodeWord, List.append_nil] at happend

theorem decodeWord_ne_nil (next : Byte) {src : List Byte} (hsrc : src ≠ []) :
    decodeWord next src ≠ [] := by
  cases src with
  | nil => exact absurd rfl hsrc
  | cons ch src =>
      cases src with
      | nil =>
          rw [decodeWord]
          split <;> simp
      | cons ch' src =>
          rw [decodeWord]
          split
          · split <;> simp
          · simp

/-! ## Flags and modes -/

/-- The flag `variable` in a word: it is set behind a `$` and where a late brace would be
taken for a part of the word, there perhaps only if it was set when the call began. -/
structure VariableIn (garbage : ℤ) (args : List Word) (raw : List Byte) (behind : Bool)
    (value : ℤ) : Prop where
  dollar : behind = true → value ≠ 0 ∧ [ascii '$'] <:+ raw
  zero : behind = false → ¬ LateBrace args raw → value = 0
  late : garbage ≠ 0 → behind = false → LateBrace args raw → value ≠ 0

/-- The flag before a word: as the call began, or zero behind the first word. -/
structure VariableBefore (garbage : ℤ) (args : List Word) (value : ℤ) : Prop where
  first : args = [] → value = garbage
  later : args ≠ [] → value = 0

/-- The flags in a mode. -/
def flags (value : ℤ) : Mode → Locals
  | .between => .start value
  | .comment _ => { Locals.start value with sharpComment := true }
  | .word _ _ => { Locals.start value with lastSpace := false }
  | .escaped _ => { Locals.start value with lastSpace := false, quoted := true }
  | .string quote _ =>
      { Locals.start value with
        lastSpace := false
        dQuoted := quote = ascii '"'
        sQuoted := quote = ascii '\'' }
  | .stringEscaped quote _ =>
      { Locals.start value with
        lastSpace := false
        quoted := true
        dQuoted := quote = ascii '"'
        sQuoted := quote = ascii '\'' }
  | .afterString => { Locals.start value with lastSpace := false, needSpace := true }

def isQuote (ch : Byte) : Prop := ch = ascii '"' ∨ ch = ascii '\''

/-- The flag `variable` and the bytes from `start` on agree with the mode. -/
def Agrees (pagesize : ℕ) (garbage value : ℤ) (args : List Word) (raw : List Byte) :
    Mode → Prop
  | .between => VariableBefore garbage args value ∧ raw.length < pagesize
  | .comment length => VariableBefore garbage args value ∧ raw.length = length
  | .word raw' behind =>
      raw' = raw ∧ raw ≠ [] ∧ Escaped raw ∧ VariableIn garbage args raw behind value
  | .escaped raw' => ∃ before, raw' = raw ∧ raw = before ++ [ascii '\\'] ∧ Escaped before ∧
      (args = [] ∧ before = [] → value = garbage) ∧ (¬ (args = [] ∧ before = []) → value = 0)
  | .string quote raw' => isQuote quote ∧ raw' = raw ∧ Escaped raw
  | .stringEscaped quote raw' => isQuote quote ∧ raw' = raw ∧
      ∃ before, raw = before ++ [ascii '\\'] ∧ Escaped before
  | .afterString => value = 0 ∧ args ≠ [] ∧ raw.length + 1 < pagesize

/-- The function follows the reference. -/
def Follows (pagesize : ℕ) (garbage : ℤ) (l : Locals) (args : List Word) (raw : List Byte)
    (mode : Mode) : Prop :=
  ∃ value, l = flags value mode ∧ Agrees pagesize garbage value args raw mode

/-- A byte does the same in the function and in the reference. -/
def StepFollows (pagesize : ℕ) (garbage : ℤ) (raw : List Byte) (ch : Byte) :
    Step → ReferenceStep → Prop
  | .ret code, .ret code' => code = code'
  | .next l args start, .next mode args' =>
      args' = args ∧ Follows pagesize garbage l args (start.move raw ch) mode
  | _, _ => False

section Steps

variable {pagesize : ℕ} {garbage : ℤ} {args : List Word} {raw : List Byte} {ch : Byte}

theorem pair_suffix {α : Type*} {a b c d : α} {front : List α} :
    [a, b] <:+ front ++ [c] ++ [d] ↔ a = c ∧ b = d := by
  constructor
  · rintro ⟨more, heq⟩
    have happend : more ++ [a] ++ [b] = front ++ [c] ++ [d] := by
      rw [List.append_assoc]
      exact heq
    obtain ⟨hfront, hlast⟩ := List.append_inj' happend rfl
    obtain ⟨-, hfirst⟩ := List.append_inj' hfront rfl
    simp only [List.cons.injEq, and_true] at hfirst hlast
    exact ⟨hfirst, hlast⟩
  · rintro ⟨rfl, rfl⟩
    exact ⟨front, by simp⟩

theorem lateBrace_first : LateBrace args [ch] ↔ args = [] := by
  constructor
  · rintro (⟨more, heq⟩ | ⟨hargs, -⟩)
    · have hlength := congrArg List.length heq
      simp at hlength
    · exact hargs
  · intro hargs
    exact .inr ⟨hargs, .inl rfl⟩

/-- A plain byte makes a late brace possible behind a `$` only. -/
theorem lateBrace_snoc (hne : raw ≠ []) (hraw : Escaped raw)
    (hlate : LateBrace args (raw ++ [ch])) :
    ch = ascii '{' := by
  rcases List.eq_nil_or_concat' raw with rfl | ⟨front, last, rfl⟩
  · exact absurd rfl hne
  · rcases hlate with hsuffix | ⟨-, hlength | ⟨hlength, hhead⟩⟩
    · exact (pair_suffix.mp hsuffix).2.symm
    · simp at hlength
    · have hfront : front = [] := by
        simp only [List.length_append, List.length_singleton] at hlength
        exact List.length_eq_zero_iff.mp (by omega)
      subst hfront
      simp only [List.nil_append, List.cons_append, List.head?_cons, Option.some.injEq] at hhead
      subst hhead
      cases hraw with
      | plain _ hch _ => exact absurd rfl hch

theorem lateBrace_pair {before : List Byte} :
    LateBrace args (before ++ [ascii '\\'] ++ [ch]) ↔ args = [] ∧ before = [] := by
  constructor
  · rintro (hsuffix | ⟨hargs, hlength | ⟨hlength, -⟩⟩)
    · have hslash : ascii '$' = ascii '\\' := (pair_suffix.mp hsuffix).1
      exact absurd hslash (by decide)
    · simp at hlength
    · refine ⟨hargs, ?_⟩
      simp only [List.length_append, List.length_singleton] at hlength
      exact List.length_eq_zero_iff.mp (by omega)
  · rintro ⟨rfl, rfl⟩
    exact .inr ⟨rfl, .inr ⟨rfl, rfl⟩⟩

theorem step_between (hpage : 1 < pagesize) {value : ℤ}
    (hvalue : VariableBefore garbage args value) :
    StepFollows pagesize garbage raw ch (step (flags value .between) args raw ch)
      (referenceBetween args ch) := by
  have hstep : step (flags value .between) args raw ch =
      stepSpace (flags value .between) args ch := by
    simp [step, flags, Locals.start]
  rw [hstep, stepSpace, referenceBetween]
  by_cases hblank : isBlank ch = true
  · rw [if_pos hblank, if_pos hblank]
    exact ⟨rfl, value, rfl, hvalue, hpage⟩
  rw [if_neg hblank, if_neg hblank]
  by_cases hsemi : ch = ascii ';'
  · subst hsemi
    by_cases hargs : args = []
    · simp [hargs, StepFollows]
    · have hne : ¬ ascii ';' = ascii '{' := by decide
      simp [hargs, hne, StepFollows]
  by_cases hbrace : ch = ascii '{'
  · subst hbrace
    by_cases hargs : args = [] <;> simp [hargs, hsemi, StepFollows]
  rw [if_neg (not_or.mpr ⟨hsemi, hbrace⟩), if_neg hsemi, if_neg hbrace]
  by_cases hclose : ch = ascii '}'
  · by_cases hargs : args = [] <;> simp [hargs, hclose, StepFollows]
  rw [if_neg hclose, if_neg hclose]
  by_cases hsharp : ch = ascii '#'
  · rw [if_pos hsharp, if_pos hsharp]
    exact ⟨rfl, value, rfl, hvalue, rfl⟩
  rw [if_neg hsharp, if_neg hsharp]
  by_cases hslash : ch = ascii '\\'
  · rw [if_pos hslash, if_pos hslash]
    refine ⟨rfl, value, rfl, [], rfl, ?_, .nil, ?_, ?_⟩
    · rw [hslash]
      rfl
    · intro hfirst
      exact hvalue.first hfirst.1
    · intro hlater
      apply hvalue.later
      intro hargs
      exact hlater ⟨hargs, rfl⟩
  rw [if_neg hslash, if_neg hslash]
  by_cases hdouble : ch = ascii '"'
  · subst hdouble
    rw [if_pos rfl, if_pos (.inl rfl)]
    exact ⟨rfl, value, rfl, .inl rfl, rfl, .nil⟩
  rw [if_neg hdouble]
  by_cases hsingle : ch = ascii '\''
  · subst hsingle
    rw [if_pos rfl, if_pos (.inr rfl)]
    exact ⟨rfl, value, rfl, .inr rfl, rfl, .nil⟩
  rw [if_neg hsingle, if_neg (not_or.mpr ⟨hdouble, hsingle⟩)]
  have hescaped : Escaped [ch] := .plain ch hslash .nil
  have hne : [ch] ≠ [] := List.cons_ne_nil _ _
  by_cases hdollar : ch = ascii '$'
  · subst hdollar
    rw [if_pos rfl]
    refine ⟨rfl, 1, rfl, rfl, hne, hescaped, ⟨?_, ?_, ?_⟩⟩
    · intro _
      exact ⟨by decide, List.suffix_rfl⟩
    · intro hbehind
      simp at hbehind
    · intro _ hbehind
      simp at hbehind
  · rw [if_neg hdollar]
    refine ⟨rfl, value, rfl, rfl, hne, hescaped, ⟨?_, ?_, ?_⟩⟩
    · intro hbehind
      simp [hdollar] at hbehind
    · intro _ hlate
      exact hvalue.later fun hargs => hlate (lateBrace_first.mpr hargs)
    · intro hgarbage _ hlate
      rw [hvalue.first (lateBrace_first.mp hlate)]
      exact hgarbage

theorem step_comment (hpage : 1 < pagesize) {value : ℤ} {length : ℕ}
    (hvalue : VariableBefore garbage args value) (hlength : raw.length = length) :
    StepFollows pagesize garbage raw ch (step (flags value (.comment length)) args raw ch)
      (referenceStep args ch (.comment length)) := by
  rw [referenceStep]
  by_cases hlf : ch = LF
  · subst hlf
    have hstep : step (flags value (.comment length)) args raw LF =
        .next (flags value .between) args .here := by
      simp [step, flags, Locals.start, stepSpace, isBlank]
    rw [hstep, if_pos rfl]
    exact ⟨rfl, value, rfl, hvalue, hpage⟩
  · have hstep : step (flags value (.comment length)) args raw ch =
        .next (flags value (.comment length)) args .same := by
      simp [step, flags, hlf]
    rw [hstep, if_neg hlf]
    refine ⟨rfl, value, rfl, hvalue, ?_⟩
    simp [Start.move, hlength]

/-- A byte in an unquoted word. -/
theorem stepWord_unquoted (value : ℤ) (raw' : List Byte) (behind : Bool) :
    step (flags value (.word raw' behind)) args raw ch =
      if ch = ascii '{' ∧ value ≠ 0 then .next (flags value (.word raw' behind)) args .same
      else if ch = ascii '\\' then .next (flags 0 (.escaped raw')) args .same
      else if ch = ascii '$' then .next (flags 1 (.word raw' behind)) args .same
      else if isBlank ch then .next (flags 0 .between) (args ++ [decodeWord ch raw]) .same
      else if ch = ascii ';' then .ret (.ok (args ++ [decodeWord ch raw]))
      else if ch = ascii '{' then .ret (.blockStart (args ++ [decodeWord ch raw]))
      else .next (flags 0 (.word raw' behind)) args .same := by
  have hstep : step (flags value (.word raw' behind)) args raw ch =
      stepWord (flags value (.word raw' behind)) args raw ch := by
    simp [step, flags, Locals.start]
  rw [hstep, stepWord]
  by_cases hvariable : ch = ascii '{' ∧ value ≠ 0
  · rw [if_pos hvariable]
    exact if_pos hvariable
  rw [if_neg hvariable]
  refine (if_neg hvariable).trans ?_
  by_cases hslash : ch = ascii '\\'
  · rw [if_pos hslash, if_pos hslash]
    rfl
  rw [if_neg hslash, if_neg hslash]
  by_cases hdollar : ch = ascii '$'
  · rw [if_pos hdollar, if_pos hdollar]
    rfl
  rw [if_neg hdollar, if_neg hdollar]
  simp only [endWord, flags, Locals.start, Bool.false_eq_true, if_false]
  by_cases hblank : isBlank ch = true
  · have hsemi : ¬ ch = ascii ';' := by
      rintro rfl
      exact absurd hblank (by decide)
    have hbrace : ¬ ch = ascii '{' := by
      rintro rfl
      exact absurd hblank (by decide)
    simp [hblank, hsemi, hbrace]
  · by_cases hsemi : ch = ascii ';'
    · subst hsemi
      rfl
    · by_cases hbrace : ch = ascii '{'
      · subst hbrace
        rfl
      · simp [hblank, hsemi, hbrace]

theorem step_word {behind : Bool} (hshort : ShortWord pagesize (.word raw behind) args ch)
    (hsafe : ¬ Hazard pagesize (.word raw behind) args ch) (hne : raw ≠ [])
    (hraw : Escaped raw) {value : ℤ} (hvalue : VariableIn garbage args raw behind value) :
    StepFollows pagesize garbage raw ch (step (flags value (.word raw behind)) args raw ch)
      (referenceWord args raw behind ch) := by
  rw [stepWord_unquoted, referenceWord, decodeWord_eq hraw]
  by_cases hslash : ch = ascii '\\'
  · subst hslash
    have hbrace : ¬ (ascii '\\' = ascii '{' ∧ value ≠ 0) := fun hboth => absurd hboth.1 (by decide)
    rw [if_neg hbrace, if_pos rfl, if_pos rfl]
    refine ⟨rfl, 0, rfl, raw, rfl, rfl, hraw, ?_, fun _ => rfl⟩
    intro hfirst
    exact absurd hfirst.2 hne
  rw [if_neg hslash, if_neg hslash]
  have hescaped : Escaped (raw ++ [ch]) := hraw.snoc hslash
  have hsnoc : raw ++ [ch] ≠ [] := by simp
  by_cases hvariable : ch = ascii '{' ∧ value ≠ 0
  · -- an opening brace that the function takes for a part of the word
    obtain ⟨rfl, hnonzero⟩ := hvariable
    have hbehind : behind = true := by
      by_contra hnot
      have hfalse : behind = false := by simpa using hnot
      exact hnonzero (hvalue.zero hfalse fun hlate => hsafe ⟨rfl, hfalse, hlate⟩)
    obtain ⟨-, front, hdollar⟩ := hvalue.dollar hbehind
    rw [if_pos ⟨rfl, hnonzero⟩, if_neg (by decide), if_neg (by decide),
      if_neg (by simp [hbehind])]
    refine ⟨rfl, value, rfl, rfl, hsnoc, hescaped, ⟨?_, ?_, ?_⟩⟩
    · intro hfalse
      exact absurd hfalse (by decide)
    · intro _ hlate
      refine absurd (.inl ⟨front, ?_⟩) hlate
      rw [← hdollar]
      simp [Start.move]
    · intro _ _ _
      exact hnonzero
  rw [if_neg hvariable]
  by_cases hdollar : ch = ascii '$'
  · subst hdollar
    rw [if_pos rfl, if_neg (by decide), if_neg (by decide),
      if_neg (fun hboth => absurd hboth.1 (by decide))]
    refine ⟨rfl, 1, rfl, rfl, hsnoc, hescaped, ⟨?_, ?_, ?_⟩⟩
    · intro _
      exact ⟨by decide, List.suffix_append _ _⟩
    · intro hbehind
      simp at hbehind
    · intro _ hbehind
      simp at hbehind
  rw [if_neg hdollar]
  by_cases hblank : isBlank ch = true
  · rw [if_pos hblank, if_pos hblank]
    have hlength := hshort raw (by simp [completes, hblank])
    refine ⟨rfl, 0, rfl, ⟨?_, fun _ => rfl⟩, ?_⟩
    · intro hargs
      simp at hargs
    · show (raw ++ [ch]).length < pagesize
      rw [List.length_append, List.length_singleton]
      omega
  rw [if_neg hblank, if_neg hblank]
  by_cases hsemi : ch = ascii ';'
  · rw [if_pos hsemi, if_pos hsemi]
    exact rfl
  rw [if_neg hsemi, if_neg hsemi]
  by_cases hbrace : ch = ascii '{'
  · have hzero : value = 0 := by
      by_contra hnonzero
      exact hvariable ⟨hbrace, hnonzero⟩
    have hfalse : behind = false := by
      by_contra hnot
      exact (hvalue.dollar (by simpa using hnot)).1 hzero
    rw [if_pos hbrace, if_pos ⟨hbrace, hfalse⟩]
    exact rfl
  · rw [if_neg hbrace, if_neg fun hboth => hbrace hboth.1]
    refine ⟨rfl, 0, rfl, rfl, hsnoc, hescaped, ⟨?_, fun _ _ => rfl, ?_⟩⟩
    · intro hbehind
      simp [hdollar] at hbehind
    · intro _ _ hlate
      exact absurd (lateBrace_snoc hne hraw hlate) hbrace

/-- A byte in a quoted word. -/
theorem stepWord_string {quote : Byte} (hquote : isQuote quote) (value : ℤ)
    (raw' : List Byte) :
    step (flags value (.string quote raw')) args raw ch =
      if ch = ascii '{' ∧ value ≠ 0 then .next (flags value (.string quote raw')) args .same
      else if ch = ascii '\\' then .next (flags 0 (.stringEscaped quote raw')) args .same
      else if ch = ascii '$' then .next (flags 1 (.string quote raw')) args .same
      else if ch = quote then .next (flags 0 .afterString) (args ++ [decodeWord ch raw]) .same
      else .next (flags 0 (.string quote raw')) args .same := by
  have hstep : step (flags value (.string quote raw')) args raw ch =
      stepWord (flags value (.string quote raw')) args raw ch := by
    simp [step, flags, Locals.start]
  rw [hstep, stepWord]
  by_cases hvariable : ch = ascii '{' ∧ value ≠ 0
  · rw [if_pos hvariable]
    exact if_pos hvariable
  rw [if_neg hvariable]
  refine (if_neg hvariable).trans ?_
  by_cases hslash : ch = ascii '\\'
  · rw [if_pos hslash, if_pos hslash]
    rfl
  rw [if_neg hslash, if_neg hslash]
  by_cases hdollar : ch = ascii '$'
  · rw [if_pos hdollar, if_pos hdollar]
    rfl
  rw [if_neg hdollar, if_neg hdollar]
  rcases hquote with rfl | rfl
  · by_cases hend : ch = ascii '"'
    · subst hend
      rfl
    · simp [endWord, flags, Locals.start, hend]
  · by_cases hend : ch = ascii '\''
    · subst hend
      rfl
    · have hother : ¬ ascii '\'' = ascii '"' := by decide
      simp [endWord, flags, Locals.start, hend, hother]

theorem step_string {quote : Byte} (hquote : isQuote quote)
    (hshort : ShortWord pagesize (.string quote raw) args ch) (hraw : Escaped raw) (value : ℤ) :
    StepFollows pagesize garbage raw ch (step (flags value (.string quote raw)) args raw ch)
      (referenceStep args ch (.string quote raw)) := by
  rw [stepWord_string hquote, referenceStep, decodeWord_eq hraw]
  have hplain (value : ℤ) (hslash : ch ≠ ascii '\\') :
      Follows pagesize garbage (flags value (.string quote raw)) args (raw ++ [ch])
        (.string quote (raw ++ [ch])) :=
    ⟨value, rfl, hquote, rfl, hraw.snoc hslash⟩
  have hquoteBrace : ascii '{' ≠ quote := by
    rcases hquote with rfl | rfl <;> decide
  have hquoteDollar : ascii '$' ≠ quote := by
    rcases hquote with rfl | rfl <;> decide
  by_cases hslash : ch = ascii '\\'
  · have hbrace : ¬ (ch = ascii '{' ∧ value ≠ 0) := by
      rintro ⟨hbrace, -⟩
      exact absurd (hslash.symm.trans hbrace) (by decide)
    rw [if_neg hbrace, if_pos hslash, if_pos hslash]
    exact ⟨rfl, 0, rfl, hquote, rfl, raw, by rw [hslash]; rfl, hraw⟩
  rw [if_neg hslash, if_neg hslash]
  by_cases hvariable : ch = ascii '{' ∧ value ≠ 0
  · rw [if_pos hvariable, if_neg fun hend => hquoteBrace (hvariable.1.symm.trans hend)]
    exact ⟨rfl, hplain value hslash⟩
  rw [if_neg hvariable]
  by_cases hdollar : ch = ascii '$'
  · rw [if_pos hdollar, if_neg fun hend => hquoteDollar (hdollar.symm.trans hend)]
    exact ⟨rfl, hplain 1 hslash⟩
  rw [if_neg hdollar]
  by_cases hend : ch = quote
  · rw [if_pos hend, if_pos hend]
    have hlength := hshort raw (by simp [completes, hend])
    refine ⟨rfl, 0, rfl, rfl, by simp, ?_⟩
    show (raw ++ [ch]).length + 1 < pagesize
    rw [List.length_append, List.length_singleton]
    exact hlength
  · rw [if_neg hend, if_neg hend]
    exact ⟨rfl, hplain 0 hslash⟩

/-- A byte behind a backslash. -/
theorem step_escaped {value : ℤ} {before : List Byte} (hbefore : Escaped before)
    (hfirst : args = [] ∧ before = [] → value = garbage)
    (hlater : ¬ (args = [] ∧ before = []) → value = 0) :
    StepFollows pagesize garbage (before ++ [ascii '\\']) ch
      (step (flags value (.escaped raw)) args (before ++ [ascii '\\']) ch)
      (.next (.word (before ++ [ascii '\\'] ++ [ch]) false) args) := by
  have hstep : step (flags value (.escaped raw)) args (before ++ [ascii '\\']) ch =
      .next (flags value (.word raw false)) args .same := by
    simp [step, flags, Locals.start]
  rw [hstep]
  refine ⟨rfl, value, rfl, rfl, by simp [Start.move], hbefore.snoc_pair ch, ⟨?_, ?_, ?_⟩⟩
  · intro hbehind
    exact absurd hbehind (by decide)
  · intro _ hlate
    exact hlater fun hboth => hlate (lateBrace_pair.mpr hboth)
  · intro hgarbage _ hlate
    rw [hfirst (lateBrace_pair.mp hlate)]
    exact hgarbage

theorem step_stringEscaped {quote : Byte} (hquote : isQuote quote) {before : List Byte}
    (hbefore : Escaped before) (value : ℤ) :
    StepFollows pagesize garbage (before ++ [ascii '\\']) ch
      (step (flags value (.stringEscaped quote raw)) args (before ++ [ascii '\\']) ch)
      (.next (.string quote (before ++ [ascii '\\'] ++ [ch])) args) := by
  have hstep : step (flags value (.stringEscaped quote raw)) args (before ++ [ascii '\\']) ch =
      .next (flags value (.string quote raw)) args .same := by
    simp [step, flags, Locals.start]
  rw [hstep]
  exact ⟨rfl, value, rfl, hquote, rfl, hbefore.snoc_pair ch⟩

theorem step_afterString (hargs : args ≠ []) (hlength : raw.length + 1 < pagesize) :
    StepFollows pagesize garbage raw ch (step (flags 0 .afterString) args raw ch)
      (referenceStep args ch .afterString) := by
  have hstep : step (flags 0 .afterString) args raw ch =
      if isBlank ch then .next (flags 0 .between) args .same
      else if ch = ascii ';' then .ret (.ok args)
      else if ch = ascii '{' then .ret (.blockStart args)
      else .ret .error := by
    simp [step, flags, Locals.start]
  rw [hstep, referenceStep]
  by_cases hblank : isBlank ch = true
  · rw [if_pos hblank, if_pos hblank]
    refine ⟨rfl, 0, rfl, ⟨fun hnil => absurd hnil hargs, fun _ => rfl⟩, ?_⟩
    show (raw ++ [ch]).length < pagesize
    rw [List.length_append, List.length_singleton]
    exact hlength
  rw [if_neg hblank, if_neg hblank]
  by_cases hsemi : ch = ascii ';'
  · rw [if_pos hsemi, if_pos hsemi]
    exact rfl
  rw [if_neg hsemi, if_neg hsemi]
  by_cases hbrace : ch = ascii '{'
  · rw [if_pos hbrace, if_pos hbrace]
    exact rfl
  · rw [if_neg hbrace, if_neg hbrace]
    exact rfl

/-- Where there is no hazard the function follows the reference. -/
theorem step_follows (hpage : 1 < pagesize) {l : Locals} {mode : Mode}
    (hfollows : Follows pagesize garbage l args raw mode)
    (hshort : ShortWord pagesize mode args ch) (hsafe : ¬ Hazard pagesize mode args ch) :
    StepFollows pagesize garbage raw ch (step l args raw ch) (referenceStep args ch mode) := by
  obtain ⟨value, rfl, hagrees⟩ := hfollows
  cases mode with
  | between => exact step_between hpage hagrees.1
  | comment length => exact step_comment hpage hagrees.1 hagrees.2
  | word raw' behind =>
      obtain ⟨rfl, hne, hraw, hvalue⟩ := hagrees
      exact step_word hshort hsafe hne hraw hvalue
  | escaped raw' =>
      obtain ⟨before, rfl, rfl, hbefore, hfirst, hlater⟩ := hagrees
      exact step_escaped hbefore hfirst hlater
  | string quote raw' =>
      obtain ⟨hquote, rfl, hraw⟩ := hagrees
      exact step_string hquote hshort hraw value
  | stringEscaped quote raw' =>
      obtain ⟨hquote, rfl, before, rfl, hbefore⟩ := hagrees
      exact step_stringEscaped hquote hbefore value
  | afterString =>
      obtain ⟨rfl, hargs, hlength⟩ := hagrees
      exact step_afterString hargs hlength

end Steps

/-! ## Behind a late brace -/

/-- The flags inside a word. -/
structure Inside (l : Locals) : Prop where
  needSpace : l.needSpace = false
  lastSpace : l.lastSpace = false
  sharpComment : l.sharpComment = false

theorem endWord_inside {l : Locals} (hl : Inside l) (ch : Byte)
    (hfound : (endWord l ch).2 = false) : Inside (endWord l ch).1 := by
  rw [endWord] at hfound ⊢
  split_ifs at hfound ⊢ <;> exact hl

/-- Inside a word a byte belongs to it, or ends it and adds it to the words. -/
theorem step_inside {l : Locals} (hl : Inside l) (args : List Word) (raw : List Byte)
    (ch : Byte) :
    (∃ l', step l args raw ch = .next l' args .same ∧ Inside l') ∨
    (∃ l', step l args raw ch = .next l' (args ++ [decodeWord ch raw]) .same) ∨
    ∃ code, step l args raw ch = .ret code ∧
      ∀ ws, code = .blockStart ws → ws = args ++ [decodeWord ch raw] := by
  have hstep : step l args raw ch = if l.quoted then .next { l with quoted := false } args .same
      else stepWord l args raw ch := by
    simp [step, hl.needSpace, hl.lastSpace, hl.sharpComment]
  have hsame (l' : Locals) (hneed : l'.needSpace = l.needSpace)
      (hlast : l'.lastSpace = l.lastSpace) (hsharp : l'.sharpComment = l.sharpComment) :
      Inside l' :=
    ⟨hneed.trans hl.needSpace, hlast.trans hl.lastSpace, hsharp.trans hl.sharpComment⟩
  rw [hstep]
  by_cases hquoted : l.quoted = true
  · rw [if_pos hquoted]
    exact .inl ⟨_, rfl, hsame _ rfl rfl rfl⟩
  rw [if_neg hquoted, stepWord]
  by_cases hvariable : ch = ascii '{' ∧ l.variableFlag ≠ 0
  · rw [if_pos hvariable]
    exact .inl ⟨_, rfl, hl⟩
  rw [if_neg hvariable]
  by_cases hslash : ch = ascii '\\'
  · simp only [if_pos hslash]
    exact .inl ⟨_, rfl, hsame _ rfl rfl rfl⟩
  by_cases hdollar : ch = ascii '$'
  · simp only [if_neg hslash, if_pos hdollar]
    exact .inl ⟨_, rfl, hsame _ rfl rfl rfl⟩
  have hkeeps := endWord_inside (hsame { l with variableFlag := 0 } rfl rfl rfl) ch
  simp only [if_neg hslash, if_neg hdollar]
  generalize endWord { l with variableFlag := 0 } ch = ended at *
  by_cases hfound : ended.2 = true
  · simp only [if_pos hfound]
    by_cases hsemi : ch = ascii ';'
    · rw [if_pos hsemi]
      refine .inr (.inr ⟨_, rfl, ?_⟩)
      intro ws hcode
      cases hcode
    rw [if_neg hsemi]
    by_cases hbrace : ch = ascii '{'
    · rw [if_pos hbrace]
      refine .inr (.inr ⟨_, rfl, ?_⟩)
      intro ws hcode
      exact (Code.blockStart.inj hcode).symm
    · rw [if_neg hbrace]
      exact .inr (.inl ⟨_, rfl⟩)
  · rw [if_neg hfound]
    exact .inl ⟨_, rfl, hkeeps (by simpa using hfound)⟩

/-- A step keeps the words it has. -/
def AddsTo (args : List Word) : Step → Prop
  | .next _ args' _ => args <+: args'
  | .ret (.blockStart args') => args <+: args'
  | .ret _ => True

theorem stepSpace_addsTo (l : Locals) (args : List Word) (ch : Byte) :
    AddsTo args (stepSpace l args ch) := by
  rw [stepSpace]
  split_ifs <;> first | exact List.prefix_rfl | trivial

theorem stepWord_addsTo (l : Locals) (args : List Word) (raw : List Byte) (ch : Byte) :
    AddsTo args (stepWord l args raw ch) := by
  rw [stepWord]
  dsimp only
  split_ifs <;> first | exact List.prefix_rfl | exact List.prefix_append _ _ | trivial

theorem step_addsTo (l : Locals) (args : List Word) (raw : List Byte) (ch : Byte) :
    AddsTo args (step l args raw ch) := by
  rw [step]
  generalize (if ch = LF ∧ l.sharpComment = true then { l with sharpComment := false } else l) = l'
  split_ifs
  · exact List.prefix_rfl
  · exact List.prefix_rfl
  · exact List.prefix_rfl
  · trivial
  · exact List.prefix_rfl
  · trivial
  · exact stepSpace_addsTo l' args ch
  · exact stepWord_addsTo l' args raw ch

variable {pagesize : ℕ}

/-- A call that ends with an opening brace returns all words it had. -/
theorem scan_args {text : List Byte} {l : Locals} {args ws : List Word} {raw : List Byte}
    (hscan : (scan pagesize text l args raw).1 = .blockStart ws) : args <+: ws := by
  induction text generalizing l args raw with
  | nil =>
      rw [scan, atEnd] at hscan
      split_ifs at hscan
  | cons ch rest ih =>
      have hadds := step_addsTo l args raw ch
      rw [scan] at hscan
      split_ifs at hscan
      cases hstep : step l args raw ch with
      | ret code =>
          rw [hstep] at hscan hadds
          simp only at hscan
          rw [hscan] at hadds
          exact hadds
      | next l' args' start =>
          rw [hstep] at hscan hadds
          exact List.IsPrefix.trans hadds (ih hscan)

/-- Inside a word it returns that word too, with what still belongs to it. -/
theorem scan_inside {text : List Byte} {l : Locals} (hl : Inside l) {args ws : List Word}
    {raw : List Byte} (hscan : (scan pagesize text l args raw).1 = .blockStart ws) :
    ∃ next more, args ++ [decodeWord next (raw ++ more)] <+: ws := by
  induction text generalizing l raw with
  | nil =>
      rw [scan, atEnd] at hscan
      split_ifs at hscan
  | cons ch rest ih =>
      rw [scan] at hscan
      split_ifs at hscan
      rcases step_inside hl args raw ch with ⟨l', hstep, hl'⟩ | ⟨l', hstep⟩ | ⟨code, hstep, hcode⟩
      · rw [hstep] at hscan
        obtain ⟨next, more, hws⟩ := ih hl' hscan
        refine ⟨next, [ch] ++ more, ?_⟩
        rw [← List.append_assoc]
        exact hws
      · rw [hstep] at hscan
        refine ⟨ch, [], ?_⟩
        rw [List.append_nil]
        exact scan_args hscan
      · rw [hstep] at hscan
        refine ⟨ch, [], ?_⟩
        rw [List.append_nil]
        exact (hcode ws hscan).symm ▸ List.prefix_rfl

/-- Behind a late brace that was taken for a part of a word the call does not return what
the reference returns there. -/
theorem scan_lateBrace {text : List Byte} {l : Locals} (hl : Inside l) {args : List Word}
    {raw : List Byte} (hraw : Escaped raw) (ch : Byte) :
    (scan pagesize text l args (raw ++ [ch])).1 ≠ .blockStart (args ++ [unescape raw]) := by
  intro hscan
  obtain ⟨next, more, hws⟩ := scan_inside hl hscan
  rw [List.append_assoc, decodeWord_append hraw] at hws
  have heq : args ++ [unescape raw ++ decodeWord next ([ch] ++ more)] =
      args ++ [unescape raw] := hws.eq_of_length (by simp)
  have hword : unescape raw ++ decodeWord next ([ch] ++ more) = unescape raw := by
    simpa using heq
  exact decodeWord_ne_nil next (by simp) (List.append_right_eq_self.mp hword)

/-! ## Calls -/

/-- The bytes of the word in which a byte stands. -/
def wordBytes : Mode → Option (List Byte)
  | .word raw _ | .escaped raw | .string _ raw | .stringEscaped _ raw => some raw
  | _ => none

/-- A byte of a word ends it or belongs to it. -/
theorem referenceStep_word {mode : Mode} {raw : List Byte} (hraw : wordBytes mode = some raw)
    (args : List Word) (ch : Byte) :
    completes ch mode = some raw ∨
      ∃ mode', referenceStep args ch mode = .next mode' args ∧
        wordBytes mode' = some (raw ++ [ch]) := by
  cases mode with
  | between => cases hraw
  | comment length => cases hraw
  | afterString => cases hraw
  | escaped raw' =>
      obtain rfl := Option.some.inj hraw
      exact .inr ⟨_, rfl, rfl⟩
  | stringEscaped quote raw' =>
      obtain rfl := Option.some.inj hraw
      exact .inr ⟨_, rfl, rfl⟩
  | string quote raw' =>
      obtain rfl := Option.some.inj hraw
      rw [referenceStep, completes]
      by_cases hslash : ch = ascii '\\'
      · rw [if_pos hslash]
        exact .inr ⟨_, rfl, rfl⟩
      · by_cases hend : ch = quote
        · exact .inl (if_pos hend)
        · rw [if_neg hslash, if_neg hend, if_neg hend]
          exact .inr ⟨_, rfl, rfl⟩
  | word raw' dollar =>
      obtain rfl := Option.some.inj hraw
      rw [referenceStep, referenceWord, completes]
      by_cases hend : isBlank ch ∨ ch = ascii ';' ∨ ch = ascii '{' ∧ dollar = false
      · exact .inl (if_pos hend)
      · obtain ⟨hblank, hsemi, hbrace⟩ := not_or.mp hend |>.imp_right not_or.mp
        rw [if_neg hblank, if_neg hsemi, if_neg hbrace]
        right
        by_cases hslash : ch = ascii '\\'
        · rw [if_pos hslash]
          exact ⟨_, rfl, rfl⟩
        · rw [if_neg hslash]
          exact ⟨_, rfl, rfl⟩

/-- A word that is too long never ends, so the reference ends with an error. -/
theorem reference_error_of_long {text : List Byte} {mode : Mode} {args : List Word}
    {raw : List Byte} (hraw : wordBytes mode = some raw) (hlong : pagesize ≤ raw.length)
    (hshort : AtEachByte (ShortWord pagesize) text mode args) :
    (reference text mode args).1 = .error := by
  induction text generalizing mode raw with
  | nil => cases mode <;> first | rfl | cases hraw
  | cons ch rest ih =>
      obtain ⟨hbyte, hrest⟩ := hshort
      rcases referenceStep_word hraw args ch with hends | ⟨mode', hstep, hraw'⟩
      · have hlength := hbyte raw hends
        omega
      · have hmore : pagesize ≤ (raw ++ [ch]).length := by
          rw [List.length_append]
          omega
        rw [hstep] at hrest
        rw [reference, hstep]
        exact ih hraw' hmore hrest

theorem atEnd_eq {garbage : ℤ} {l : Locals} {args : List Word} {raw : List Byte} {mode : Mode}
    (hfollows : Follows pagesize garbage l args raw mode) :
    atEnd l args = referenceEnd args mode := by
  obtain ⟨value, rfl, hagrees⟩ := hfollows
  by_cases hargs : args = []
  · cases mode <;> simp [atEnd, flags, Locals.start, referenceEnd, hargs]
  · cases mode <;> simp [atEnd, flags, Locals.start, referenceEnd, hargs]

/-- The two results of a call agree; what is left is read by a next call only. -/
def Same (left right : Code × List Byte) : Prop :=
  left.1 = right.1 ∧ (right.1.goesOn = true → left.2 = right.2)

/-- A call runs into the end of a full buffer in a word that never ends, or at a hazard. -/
theorem error_or_hazard_of_full {garbage : ℤ} {l : Locals} {args : List Word}
    {raw rest : List Byte} {ch : Byte} {mode : Mode}
    (hfollows : Follows pagesize garbage l args raw mode) (hfull : raw.length = pagesize)
    (hshort : AtEachByte (ShortWord pagesize) (ch :: rest) mode args) :
    (reference (ch :: rest) mode args).1 = .error ∨
      ¬ NoHazard pagesize (ch :: rest) mode args := by
  obtain ⟨value, rfl, hagrees⟩ := hfollows
  have hlong (hraw : wordBytes mode = some raw) :
      (reference (ch :: rest) mode args).1 = .error :=
    reference_error_of_long hraw (Nat.le_of_eq hfull.symm) hshort
  cases mode with
  | between =>
      have hroom := hagrees.2
      omega
  | afterString =>
      have hroom := hagrees.2.2
      omega
  | comment length =>
      right
      intro hall
      exact hall.1 (hagrees.2.symm.trans hfull)
  | word raw' behind => exact .inl (hlong (congrArg some hagrees.1))
  | escaped raw' =>
      obtain ⟨before, hraw, -⟩ := hagrees
      exact .inl (hlong (congrArg some hraw))
  | string quote raw' => exact .inl (hlong (congrArg some hagrees.2.1))
  | stringEscaped quote raw' => exact .inl (hlong (congrArg some hagrees.2.1))

/-- Without a hazard, or where the reference ends with an error, a call returns what the
reference returns; behind a hazard it does not, if `variable` was not zero. -/
theorem scan_spec (hpage : 1 < pagesize) {garbage : ℤ} {text : List Byte} {l : Locals}
    {args : List Word} {raw : List Byte} {mode : Mode}
    (hfollows : Follows pagesize garbage l args raw mode)
    (hshort : AtEachByte (ShortWord pagesize) text mode args) :
    ((reference text mode args).1 = .error ∨ NoHazard pagesize text mode args →
      Same (scan pagesize text l args raw) (reference text mode args)) ∧
    ((reference text mode args).1 ≠ .error → ¬ NoHazard pagesize text mode args →
      garbage ≠ 0 → (scan pagesize text l args raw).1 ≠ (reference text mode args).1) := by
  induction text generalizing l args raw mode with
  | nil =>
      rw [scan, reference, atEnd_eq hfollows]
      exact ⟨fun _ => ⟨rfl, fun _ => rfl⟩, fun _ hhazard => absurd trivial hhazard⟩
  | cons ch rest ih =>
      obtain ⟨hbyte, hrest⟩ := hshort
      by_cases hfull : raw.length = pagesize
      · -- the buffer is full: an error, in a comment or in a word that never ends
        have hscan : scan pagesize (ch :: rest) l args raw = (.error, ch :: rest) := by
          rw [scan, if_pos hfull]
        have hcause := error_or_hazard_of_full hfollows hfull ⟨hbyte, hrest⟩
        rw [hscan]
        refine ⟨?_, fun hne _ _ => hne.symm⟩
        intro hsafe
        have herror : (reference (ch :: rest) mode args).1 = .error := by
          rcases hcause with herror | hhazard
          · exact herror
          · exact hsafe.resolve_right hhazard
        refine ⟨herror.symm, ?_⟩
        rw [herror]
        intro hgoes
        cases hgoes
      by_cases hhazard : Hazard pagesize mode args ch
      · -- an opening brace that ends the directive for the reference only
        obtain ⟨value, rfl, hagrees⟩ := hfollows
        cases mode with
        | comment length => exact absurd (hagrees.2.trans hhazard) hfull
        | word raw' behind =>
            obtain ⟨rfl, hne, hraw, hvalue⟩ := hagrees
            obtain ⟨rfl, rfl, hlate⟩ := hhazard
            have hreference : reference (ascii '{' :: rest) (.word raw' false) args =
                (.blockStart (args ++ [unescape raw']), rest) := rfl
            rw [hreference]
            constructor
            · intro hsafe
              refine absurd (hsafe.resolve_left (by simp)) ?_
              intro hall
              exact hall.1 ⟨rfl, rfl, hlate⟩
            · intro _ _ hgarbage
              have hnonzero : value ≠ 0 := hvalue.late hgarbage rfl hlate
              rw [scan, if_neg hfull, stepWord_unquoted, if_pos ⟨rfl, hnonzero⟩]
              exact scan_lateBrace ⟨rfl, rfl, rfl⟩ hraw _
        | _ => exact absurd hhazard id
      · have hstep := step_follows hpage hfollows hbyte hhazard
        rw [scan, if_neg hfull, reference]
        cases hreference : referenceStep args ch mode with
        | ret code =>
            rw [hreference] at hstep
            cases hcode : step l args raw ch with
            | next l' args' start =>
                rw [hcode] at hstep
                exact absurd hstep id
            | ret code' =>
                rw [hcode] at hstep
                have heq : code' = code := hstep
                refine ⟨fun _ => ⟨heq, fun _ => rfl⟩, ?_⟩
                intro _ hnot
                refine absurd ⟨hhazard, ?_⟩ hnot
                rw [hreference]
                trivial
        | next mode' args'' =>
            rw [hreference] at hstep hrest
            cases hcode : step l args raw ch with
            | ret code' =>
                rw [hcode] at hstep
                exact absurd hstep id
            | next l' args' start =>
                rw [hcode] at hstep
                obtain ⟨rfl, hfollows'⟩ := hstep
                have hsafe : NoHazard pagesize (ch :: rest) mode args ↔
                    NoHazard pagesize rest mode' args'' := by
                  rw [NoHazard, AtEachByte, hreference]
                  exact ⟨fun hall => hall.2, fun hall => ⟨hhazard, hall⟩⟩
                rw [hsafe]
                exact ih hfollows' hrest

theorem follows_start (hpage : 1 < pagesize) (garbage : ℤ) :
    Follows pagesize garbage (.start garbage) [] [] .between := by
  refine ⟨garbage, rfl, ⟨fun _ => rfl, fun hnil => absurd rfl hnil⟩, ?_⟩
  show 0 < pagesize
  omega

/-! ## All calls -/

theorem scanTokens_succ (garbage : ℕ → ℤ) (calls : ℕ) (text : List Byte) :
    scanTokens pagesize garbage (calls + 1) text =
      (scanToken pagesize (garbage calls) text).1 ::
        if (scanToken pagesize (garbage calls) text).1.goesOn then
          scanTokens pagesize garbage calls (scanToken pagesize (garbage calls) text).2
        else [] := by
  rw [scanTokens]
  split <;> rfl

theorem referenceTokens_succ (calls : ℕ) (text : List Byte) :
    referenceTokens (calls + 1) text =
      (referenceToken text).1 ::
        if (referenceToken text).1.goesOn then referenceTokens calls (referenceToken text).2
        else [] := by
  rw [referenceTokens]
  split <;> rfl

/-- Whatever `variable` holds, the first calls return what the reference returns, if and
only if there is no hazard in these directives. -/
theorem scanTokens_iff (hpage : 1 < pagesize) {calls : ℕ} {text : List Byte}
    (hshort : AtEachToken (fun text => AtEachByte (ShortWord pagesize) text .between [])
      calls text) :
    (∀ garbage, scanTokens pagesize garbage calls text = referenceTokens calls text) ↔
      AtEachToken
        (fun text => (referenceToken text).1 = .error ∨ NoHazard pagesize text .between [])
        calls text := by
  induction calls generalizing text with
  | zero => simp [scanTokens, referenceTokens, AtEachToken]
  | succ calls ih =>
      obtain ⟨hwords, hlater⟩ := hshort
      have hspec (garbage : ℤ) := scan_spec hpage (follows_start hpage garbage) hwords
      simp only [scanTokens_succ, referenceTokens_succ, List.cons.injEq]
      constructor
      · intro hall
        have hsafe : (referenceToken text).1 = .error ∨ NoHazard pagesize text .between [] := by
          by_contra hnot
          obtain ⟨hne, hhazard⟩ := not_or.mp hnot
          exact (hspec 1).2 hne hhazard (by decide) (hall fun _ => 1).1
        refine ⟨hsafe, ?_⟩
        intro hgoes
        apply (ih (hlater hgoes)).mp
        intro garbage
        have hsame : Same (scanToken pagesize (garbage calls) text) (referenceToken text) :=
          (hspec (garbage calls)).1 hsafe
        have htail := (hall garbage).2
        rwa [hsame.1, hsame.2 hgoes, if_pos hgoes, if_pos hgoes] at htail
      · rintro ⟨hsafe, hsafeLater⟩ garbage
        have hsame : Same (scanToken pagesize (garbage calls) text) (referenceToken text) :=
          (hspec (garbage calls)).1 hsafe
        refine ⟨hsame.1, ?_⟩
        rw [hsame.1]
        by_cases hgoes : (referenceToken text).1.goesOn = true
        · rw [if_pos hgoes, if_pos hgoes, hsame.2 hgoes]
          exact (ih (hlater hgoes)).mpr (hsafeLater hgoes) garbage
        · rw [if_neg hgoes, if_neg hgoes]

/-- Reading a file returns what the reference says of its text, whatever `variable` holds
when a call begins, if and only if there is no hazard in it. -/
theorem readTokens_iff (hpage : 1 < pagesize) {text : List Byte}
    (hshort : ShortWords pagesize text) :
    (∀ garbage calls, readTokens pagesize text garbage calls .empty =
      some (referenceTokens calls text)) ↔ Safe pagesize text := by
  simp only [readTokens_eq, Option.some.injEq]
  rw [forall_comm]
  exact forall_congr' fun calls => scanTokens_iff hpage (hshort calls)

/-- The text `a "b";`. -/
def twoWords : List Byte :=
  [ascii 'a', SP, ascii '"', ascii 'b', ascii '"', ascii ';']

theorem readTokens_twoWords :
    readTokens 4096 twoWords (fun _ => 1) 3 .empty = some (referenceTokens 3 twoWords) := by
  have hshort : ShortWords 4096 twoWords :=
    atEachToken_cons (by decide) (atEachToken_last (by decide) (by decide))
  have hsafe : Safe 4096 twoWords :=
    atEachToken_cons (by decide) (atEachToken_last (by decide) (by decide))
  exact (readTokens_iff (by decide) hshort).mpr hsafe (fun _ => 1) 3

/-- The text `a{}`: its word has one byte. -/
def oneByteBlock : List Byte := [ascii 'a', ascii '{', ascii '}']

theorem not_readTokens_oneByteBlock :
    ShortWords 4096 oneByteBlock ∧
      ¬ ∀ garbage calls, readTokens 4096 oneByteBlock garbage calls .empty =
        some (referenceTokens calls oneByteBlock) := by
  constructor
  · have hblock : ∀ calls, AtEachToken (fun text =>
        AtEachByte (ShortWord 4096) text .between []) calls [ascii '}'] :=
      atEachToken_cons (by decide) (atEachToken_last (by decide) (by decide))
    exact atEachToken_cons (by decide) hblock
  · intro hall
    have hfirst := hall (fun _ => 1) 1
    revert hfirst
    decide

end Night.ConfToken
