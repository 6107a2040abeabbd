import Night.Http.HeaderLine

/-!
# The lines of a header block

`FieldLine` is what the state machine takes for one header line and `BlockEnd`
what ends the block: an empty line, or bytes that the machine rejects.  Where a
call stops depends on the control state only, so the record and the locals are
projected away here.
-/

namespace Night.HeaderLine

open Night.Bytes
open Night.HttpRequest
open Night.Scanner

/-! ## Grammar -/

/-- The bytes that may begin a header name. -/
def StartsName (below : ℤ → Byte) (ch : Byte) : Prop :=
  lowcase below ch.toInt ≠ 0 ∨ ch = ascii '_' ∨
    ¬(ch.toInt ≤ 0x20 ∨ ch = DEL ∨ ch = ascii ':')

instance (below : ℤ → Byte) (ch : Byte) : Decidable (StartsName below ch) :=
  inferInstanceAs (Decidable (_ ∨ _))

def IsLineEnd (ch : Byte) : Prop := ch = CR ∨ ch = LF

instance : DecidablePred IsLineEnd := fun _ => inferInstanceAs (Decidable (_ ∨ _))

/-- The colon and what follows it.  The first byte behind the blanks belongs to
the value whatever it is. -/
structure HeaderValue where
  blanks : ℕ
  first : Byte
  more : List Byte
  first_ne_blank : first ≠ SP
  no_line_end : ∀ ch ∈ more, ¬ IsLineEnd ch

def HeaderValue.bytes (value : HeaderValue) : List Byte :=
  ascii ':' :: (List.replicate value.blanks SP ++ value.first :: value.more)

/-- A header line without its end. -/
structure HeaderField (below : ℤ → Byte) where
  first : Byte
  name : List Byte
  value : Option HeaderValue
  first_no_line_end : ¬ IsLineEnd first
  startsName : StartsName below first
  name_no_end : ∀ ch ∈ name, ch ≠ ascii ':' ∧ ¬ IsLineEnd ch

def HeaderField.bytes {below : ℤ → Byte} (field : HeaderField below) : List Byte :=
  field.first :: (field.name ++ (field.value.map HeaderValue.bytes).getD [])

/-- A header line: its end is a `LF` after any number of `CR`s. -/
structure FieldLine (below : ℤ → Byte) where
  field : HeaderField below
  crs : ℕ

def FieldLine.bytes {below : ℤ → Byte} (line : FieldLine below) : List Byte :=
  line.field.bytes ++ (List.replicate line.crs CR ++ [LF])

/-- What ends a header block: an empty line, a `CR` at the start of a line with
another byte behind it, a byte that cannot begin a name, or a `CR` at the end of
a line with another byte behind it. -/
inductive BlockEnd (below : ℤ → Byte) where
  | emptyLine
  | crLine (ch : Byte)
  | badName (ch : Byte) (no_line_end : ¬ IsLineEnd ch) (not_name : ¬ StartsName below ch)
  | badEnd (field : HeaderField below) (crs : ℕ) (ch : Byte) (no_line_end : ¬ IsLineEnd ch)

def BlockEnd.bytes {below : ℤ → Byte} : BlockEnd below → List Byte
  | .emptyLine => [LF]
  | .crLine ch => [CR, ch]
  | .badName ch _ _ => [ch]
  | .badEnd field crs ch _ => field.bytes ++ (List.replicate (crs + 1) CR ++ [ch])

/-- A stretch of input that holds a header block to its end. -/
inductive CompleteBlock (below : ℤ → Byte) : List Byte → Prop where
  | last (blockEnd : BlockEnd below) (rest : List Byte) :
      CompleteBlock below (blockEnd.bytes ++ rest)
  | line (line : FieldLine below) {rest : List Byte}
      (hrest : CompleteBlock below rest) : CompleteBlock below (line.bytes ++ rest)

/-! ## The control states -/

/-- How a call ends when it does not run out of bytes. -/
inductive Ending where
  | line
  | emptyLine
  | rejected
  deriving DecidableEq, Repr

def Exit.ending : Exit → Ending
  | .done _ _ _ => .line
  | .headerDone _ _ => .emptyLine
  | .invalid _ => .rejected

/-- `headerLineStep` without the request and the locals. -/
def controlStep (below : ℤ → Byte) (_ : ℕ) : State → Byte → Verdict State Ending
  | .swStart, ch =>
      if ch = CR then .more .swHeaderAlmostDone
      else if ch = LF then .stop .emptyLine
      else if StartsName below ch then .more .swName
      else .stop .rejected
  | .swName, ch =>
      if ch = ascii ':' then .more .swSpaceBeforeValue
      else if ch = CR then .more .swAlmostDone
      else if ch = LF then .stop .line
      else .more .swName
  | .swSpaceBeforeValue, ch =>
      if ch = SP then .more .swSpaceBeforeValue else .more .swValue
  | .swValue, ch =>
      if ch = SP then .more .swSpaceAfterValue
      else if ch = CR then .more .swAlmostDone
      else if ch = LF then .stop .line
      else .more .swValue
  | .swSpaceAfterValue, ch =>
      if ch = SP then .more .swSpaceAfterValue
      else if ch = CR then .more .swAlmostDone
      else if ch = LF then .stop .line
      else .more .swValue
  | .swAlmostDone, ch =>
      if ch = LF then .stop .line
      else if ch = CR then .more .swAlmostDone
      else .stop .rejected
  | .swHeaderAlmostDone, ch =>
      if ch = LF then .stop .emptyLine else .stop .rejected
  | .other value, _ => .more (.other value)

theorem lowcase_colon (below : ℤ → Byte) : lowcase below (ascii ':').toInt = 0 := rfl

theorem lowcase_CR (below : ℤ → Byte) : lowcase below CR.toInt = 0 := rfl

theorem lowcase_LF (below : ℤ → Byte) : lowcase below LF.toInt = 0 := rfl

/-- The request and the locals do not steer the machine. -/
theorem controlStep_eq_map (below : ℤ → Byte) (p : ℕ)
    (current : State × Locals × Request) (ch : Byte) :
    controlStep below p current.1 ch =
      (headerLineStep below p current ch).map Prod.fst Exit.ending := by
  obtain ⟨state, locals, r⟩ := current
  cases state with
  | swStart =>
      simp only [controlStep, headerLineStep]
      by_cases hcr : ch = CR
      · rw [if_pos hcr, if_pos hcr]
        rfl
      by_cases hlf : ch = LF
      · rw [if_neg hcr, if_neg hcr, if_pos hlf, if_pos hlf]
        rfl
      rw [if_neg hcr, if_neg hcr, if_neg hlf, if_neg hlf]
      by_cases hlowcase : lowcase below ch.toInt ≠ 0
      · have hstarts : StartsName below ch := Or.inl hlowcase
        rw [if_pos hstarts, if_pos hlowcase]
        rfl
      by_cases hunderscore : ch = ascii '_'
      · have hstarts : StartsName below ch := Or.inr (Or.inl hunderscore)
        rw [if_pos hstarts, if_neg hlowcase, if_pos hunderscore]
        rfl
      by_cases hbad : ch.toInt ≤ 0x20 ∨ ch = DEL ∨ ch = ascii ':'
      · have hstarts : ¬ StartsName below ch := by
          rintro (hlow | hunder | hgood)
          · exact hlowcase hlow
          · exact hunderscore hunder
          · exact hgood hbad
        rw [if_neg hstarts, if_neg hlowcase, if_neg hunderscore, if_pos hbad]
        rfl
      · have hstarts : StartsName below ch := Or.inr (Or.inr hbad)
        rw [if_pos hstarts, if_neg hlowcase, if_neg hunderscore, if_neg hbad]
        rfl
  | swName =>
      simp only [controlStep, headerLineStep]
      by_cases hcolon : ch = ascii ':'
      · rw [if_pos hcolon, hcolon, lowcase_colon]
        rfl
      by_cases hcr : ch = CR
      · rw [if_neg hcolon, if_pos hcr, hcr, lowcase_CR]
        rfl
      by_cases hlf : ch = LF
      · rw [if_neg hcolon, if_neg hcr, if_pos hlf, hlf, lowcase_LF]
        rfl
      · simp only [if_neg hcolon, if_neg hcr, if_neg hlf]
        split_ifs
        all_goals rfl
  | _ =>
      simp only [controlStep, headerLineStep]
      try split_ifs
      all_goals rfl

/-! ## Lines and block ends end a scan -/

section Forward

variable {below : ℤ → Byte} {p : ℕ} {state : State}

theorem run_crs (count : ℕ) :
    run (controlStep below) p .swAlmostDone (List.replicate count CR) =
      .more .swAlmostDone := by
  induction count generalizing p with
  | zero => rfl
  | succ count ih =>
      have hstep : controlStep below p .swAlmostDone CR = .more .swAlmostDone := rfl
      rw [List.replicate_succ, run_cons_more hstep, ih]

/-- The three states in which a line may end. -/
def EndsLine (state : State) : Prop :=
  state = .swName ∨ state = .swValue ∨ state = .swSpaceAfterValue

theorem step_CR (hstate : EndsLine state) :
    controlStep below p state CR = .more .swAlmostDone := by
  rcases hstate with rfl | rfl | rfl <;> rfl

theorem step_LF (hstate : EndsLine state) :
    controlStep below p state LF = .stop .line := by
  rcases hstate with rfl | rfl | rfl <;> rfl

theorem run_line_end (hstate : EndsLine state) (crs : ℕ) :
    run (controlStep below) p state (List.replicate crs CR ++ [LF]) = .stop .line [] := by
  cases crs with
  | zero => exact run_cons_stop (step_LF hstate)
  | succ crs =>
      rw [List.replicate_succ, List.cons_append, run_cons_more (step_CR hstate),
        run_append_of_more (run_crs crs)]
      rfl

theorem run_bad_end (hstate : EndsLine state) (crs : ℕ) {ch : Byte}
    (hch : ¬ IsLineEnd ch) :
    run (controlStep below) p state (List.replicate (crs + 1) CR ++ [ch]) =
      .stop .rejected [] := by
  have hstep : ∀ q, controlStep below q .swAlmostDone ch = .stop .rejected := by
    intro q
    simp only [IsLineEnd, not_or] at hch
    simp only [controlStep, if_neg hch.1, if_neg hch.2]
  rw [List.replicate_succ, List.cons_append, run_cons_more (step_CR hstate),
    run_append_of_more (run_crs crs), run_cons_stop (hstep _)]

theorem run_name {name : List Byte}
    (hname : ∀ ch ∈ name, ch ≠ ascii ':' ∧ ¬ IsLineEnd ch) :
    run (controlStep below) p .swName name = .more .swName := by
  induction name generalizing p with
  | nil => rfl
  | cons ch name ih =>
      have hch := hname ch (by simp)
      simp only [IsLineEnd, not_or] at hch
      have hstep : controlStep below p .swName ch = .more .swName := by
        simp only [controlStep, if_neg hch.1, if_neg hch.2.1, if_neg hch.2.2]
      rw [run_cons_more hstep]
      apply ih
      intro other hother
      exact hname other (by simp [hother])

theorem run_value_blanks (count : ℕ) :
    run (controlStep below) p .swSpaceBeforeValue (List.replicate count SP) =
      .more .swSpaceBeforeValue := by
  induction count generalizing p with
  | zero => rfl
  | succ count ih =>
      have hstep : controlStep below p .swSpaceBeforeValue SP =
          .more .swSpaceBeforeValue := rfl
      rw [List.replicate_succ, run_cons_more hstep, ih]

theorem run_value {more : List Byte} (hmore : ∀ ch ∈ more, ¬ IsLineEnd ch)
    (hstate : state = .swValue ∨ state = .swSpaceAfterValue) :
    ∃ next, EndsLine next ∧ run (controlStep below) p state more = .more next := by
  induction more generalizing p state with
  | nil => exact ⟨state, Or.inr hstate, rfl⟩
  | cons ch more ih =>
      have hch := hmore ch (by simp)
      simp only [IsLineEnd, not_or] at hch
      have hrest : ∀ other ∈ more, ¬ IsLineEnd other := by
        intro other hother
        exact hmore other (by simp [hother])
      have hstep : ∃ next, (next = State.swValue ∨ next = .swSpaceAfterValue) ∧
          controlStep below p state ch = .more next := by
        by_cases hblank : ch = SP
        · refine ⟨.swSpaceAfterValue, Or.inr rfl, ?_⟩
          rcases hstate with rfl | rfl <;> simp only [controlStep, if_pos hblank]
        · refine ⟨.swValue, Or.inl rfl, ?_⟩
          rcases hstate with rfl | rfl <;>
            simp only [controlStep, if_neg hblank, if_neg hch.1, if_neg hch.2]
      obtain ⟨next, hnext, hstep⟩ := hstep
      obtain ⟨final, hfinal, hrun⟩ := ih hrest hnext (p := p + 1)
      exact ⟨final, hfinal, by rw [run_cons_more hstep, hrun]⟩

theorem run_field (field : HeaderField below) :
    ∃ next, EndsLine next ∧
      run (controlStep below) p .swStart field.bytes = .more next := by
  obtain ⟨first, name, value, hfirst, hstarts, hname⟩ := field
  simp only [IsLineEnd, not_or] at hfirst
  have hstart : controlStep below p .swStart first = .more .swName := by
    simp only [controlStep, if_neg hfirst.1, if_neg hfirst.2, if_pos hstarts]
  simp only [HeaderField.bytes]
  rw [run_cons_more hstart, run_append_of_more (run_name hname)]
  cases value with
  | none => exact ⟨.swName, Or.inl rfl, rfl⟩
  | some value =>
      obtain ⟨blanks, firstValue, more, hblank, hmore⟩ := value
      have hcolon : ∀ q, controlStep below q .swName (ascii ':') =
          .more .swSpaceBeforeValue := fun _ => rfl
      have hvalue : ∀ q, controlStep below q .swSpaceBeforeValue firstValue =
          .more .swValue := by
        intro q
        simp only [controlStep, if_neg hblank]
      simp only [HeaderValue.bytes, Option.map_some, Option.getD_some]
      rw [run_cons_more (hcolon _), run_append_of_more (run_value_blanks blanks),
        run_cons_more (hvalue _)]
      exact run_value hmore (Or.inl rfl)

theorem run_fieldLine (line : FieldLine below) :
    run (controlStep below) p .swStart line.bytes = .stop .line [] := by
  obtain ⟨next, hnext, hfield⟩ := run_field line.field
  rw [FieldLine.bytes, run_append_of_more hfield, run_line_end hnext]

theorem run_blockEnd (blockEnd : BlockEnd below) :
    ∃ ending, ending ≠ .line ∧
      run (controlStep below) p .swStart blockEnd.bytes = .stop ending [] := by
  cases blockEnd with
  | emptyLine => exact ⟨.emptyLine, by decide, rfl⟩
  | crLine ch =>
      have hcr : controlStep below p .swStart CR = .more .swHeaderAlmostDone := rfl
      by_cases hlf : ch = LF
      · refine ⟨.emptyLine, by decide, ?_⟩
        rw [BlockEnd.bytes, run_cons_more hcr, hlf]
        rfl
      · refine ⟨.rejected, by decide, ?_⟩
        rw [BlockEnd.bytes, run_cons_more hcr, run_cons_stop]
        simp only [controlStep, if_neg hlf]
  | badName ch hch hname =>
      simp only [IsLineEnd, not_or] at hch
      refine ⟨.rejected, by decide, ?_⟩
      rw [BlockEnd.bytes, run_cons_stop]
      simp only [controlStep, if_neg hch.1, if_neg hch.2, if_neg hname]
  | badEnd field crs ch hch =>
      obtain ⟨next, hnext, hfield⟩ := run_field field
      refine ⟨.rejected, by decide, ?_⟩
      rw [BlockEnd.bytes, run_append_of_more hfield, run_bad_end hnext crs hch]

end Forward

/-! ## Whatever ends a scan is a line or a block end -/

section Backward

variable {below : ℤ → Byte} {p : ℕ} {state : State} {ending : Ending}
variable {input rest : List Byte}

/-- How a line ends from a state that `EndsLine`: well, or with a byte behind a
`CR`. -/
def LineTail (ending : Ending) (input rest : List Byte) : Prop :=
  (ending = .line ∧ ∃ crs, input = List.replicate crs CR ++ LF :: rest) ∨
  (ending = .rejected ∧ ∃ crs ch, ¬ IsLineEnd ch ∧
    input = List.replicate (crs + 1) CR ++ ch :: rest)

theorem stop_almostDone
    (hrun : run (controlStep below) p .swAlmostDone input = .stop ending rest) :
    (ending = .line ∧ ∃ crs, input = List.replicate crs CR ++ LF :: rest) ∨
    (ending = .rejected ∧ ∃ crs ch, ¬ IsLineEnd ch ∧
      input = List.replicate crs CR ++ ch :: rest) := by
  induction input generalizing p with
  | nil => cases hrun
  | cons ch input ih =>
      by_cases hlf : ch = LF
      · have hstep : controlStep below p .swAlmostDone ch = .stop .line := by
          simp only [controlStep, if_pos hlf]
        rw [run_cons_stop hstep, Outcome.stop.injEq] at hrun
        exact Or.inl ⟨hrun.1.symm, 0, by simp [hlf, hrun.2]⟩
      by_cases hcr : ch = CR
      · have hstep : controlStep below p .swAlmostDone ch = .more .swAlmostDone := by
          simp only [controlStep, if_neg hlf, if_pos hcr]
        rw [run_cons_more hstep] at hrun
        rcases ih hrun with ⟨hending, crs, hinput⟩ | ⟨hending, crs, bad, hbad, hinput⟩
        · exact Or.inl ⟨hending, crs + 1, by simp [List.replicate_succ, hcr, hinput]⟩
        · exact Or.inr ⟨hending, crs + 1, bad, hbad, by
            simp [List.replicate_succ, hcr, hinput]⟩
      · have hstep : controlStep below p .swAlmostDone ch = .stop .rejected := by
          simp only [controlStep, if_neg hlf, if_neg hcr]
        rw [run_cons_stop hstep, Outcome.stop.injEq] at hrun
        refine Or.inr ⟨hrun.1.symm, 0, ch, ?_, by simp [hrun.2]⟩
        simp only [IsLineEnd, not_or]
        exact ⟨hcr, hlf⟩

/-- A state that `EndsLine` at a byte that ends the line. -/
theorem stop_lineEnd (hstate : EndsLine state) {ch : Byte} (hch : IsLineEnd ch)
    (hrun : run (controlStep below) p state (ch :: input) = .stop ending rest) :
    LineTail ending (ch :: input) rest := by
  rcases hch with rfl | rfl
  · rw [run_cons_more (step_CR hstate)] at hrun
    rcases stop_almostDone hrun with ⟨hending, crs, hinput⟩ | ⟨hending, crs, bad, hbad, hinput⟩
    · exact Or.inl ⟨hending, crs + 1, by simp [List.replicate_succ, hinput]⟩
    · exact Or.inr ⟨hending, crs, bad, hbad, by simp [List.replicate_succ, hinput]⟩
  · rw [run_cons_stop (step_LF hstate), Outcome.stop.injEq] at hrun
    exact Or.inl ⟨hrun.1.symm, 0, by simp [hrun.2]⟩

theorem stop_value (hstate : state = .swValue ∨ state = .swSpaceAfterValue)
    (hrun : run (controlStep below) p state input = .stop ending rest) :
    ∃ more tail, (∀ ch ∈ more, ¬ IsLineEnd ch) ∧ input = more ++ tail ∧
      LineTail ending tail rest := by
  induction input generalizing p state with
  | nil => cases hrun
  | cons ch input ih =>
      by_cases hch : IsLineEnd ch
      · exact ⟨[], ch :: input, by simp, rfl, stop_lineEnd (Or.inr hstate) hch hrun⟩
      · have hno := hch
        simp only [IsLineEnd, not_or] at hno
        have hstep : ∃ next, (next = State.swValue ∨ next = .swSpaceAfterValue) ∧
            controlStep below p state ch = .more next := by
          by_cases hblank : ch = SP
          · refine ⟨.swSpaceAfterValue, Or.inr rfl, ?_⟩
            rcases hstate with rfl | rfl <;> simp only [controlStep, if_pos hblank]
          · refine ⟨.swValue, Or.inl rfl, ?_⟩
            rcases hstate with rfl | rfl <;>
              simp only [controlStep, if_neg hblank, if_neg hno.1, if_neg hno.2]
        obtain ⟨next, hnext, hstep⟩ := hstep
        rw [run_cons_more hstep] at hrun
        obtain ⟨more, tail, hmore, hinput, htail⟩ := ih hnext hrun
        refine ⟨ch :: more, tail, ?_, by rw [hinput, List.cons_append], htail⟩
        intro other hother
        rcases List.mem_cons.mp hother with heq | hother
        · rw [heq]
          exact hch
        · exact hmore other hother

theorem stop_spaceBeforeValue
    (hrun : run (controlStep below) p .swSpaceBeforeValue input = .stop ending rest) :
    ∃ value : HeaderValue, ∃ tail, ascii ':' :: input = value.bytes ++ tail ∧
      LineTail ending tail rest := by
  induction input generalizing p with
  | nil => cases hrun
  | cons ch input ih =>
      by_cases hblank : ch = SP
      · have hstep : controlStep below p .swSpaceBeforeValue ch =
            .more .swSpaceBeforeValue := by
          simp only [controlStep, if_pos hblank]
        rw [run_cons_more hstep] at hrun
        obtain ⟨value, tail, hinput, htail⟩ := ih hrun
        refine ⟨{ value with blanks := value.blanks + 1 }, tail, ?_, htail⟩
        simp only [HeaderValue.bytes, List.cons_append, List.cons.injEq, true_and] at hinput
        simp [HeaderValue.bytes, List.replicate_succ, hblank, hinput]
      · have hstep : controlStep below p .swSpaceBeforeValue ch = .more .swValue := by
          simp only [controlStep, if_neg hblank]
        rw [run_cons_more hstep] at hrun
        obtain ⟨more, tail, hmore, hinput, htail⟩ := stop_value (Or.inl rfl) hrun
        exact ⟨⟨0, ch, more, hblank, hmore⟩, tail, by simp [HeaderValue.bytes, hinput], htail⟩

theorem stop_name
    (hrun : run (controlStep below) p .swName input = .stop ending rest) :
    ∃ name : List Byte, ∃ value : Option HeaderValue, ∃ tail,
      (∀ ch ∈ name, ch ≠ ascii ':' ∧ ¬ IsLineEnd ch) ∧
      input = name ++ (value.map HeaderValue.bytes).getD [] ++ tail ∧
      LineTail ending tail rest := by
  induction input generalizing p with
  | nil => cases hrun
  | cons ch input ih =>
      by_cases hcolon : ch = ascii ':'
      · have hstep : controlStep below p .swName ch = .more .swSpaceBeforeValue := by
          simp only [controlStep, if_pos hcolon]
        rw [run_cons_more hstep] at hrun
        obtain ⟨value, tail, hinput, htail⟩ := stop_spaceBeforeValue hrun
        exact ⟨[], some value, tail, by simp, by simp [hcolon, hinput], htail⟩
      by_cases hch : IsLineEnd ch
      · exact ⟨[], none, ch :: input, by simp, rfl, stop_lineEnd (Or.inl rfl) hch hrun⟩
      · have hno := hch
        simp only [IsLineEnd, not_or] at hno
        have hstep : controlStep below p .swName ch = .more .swName := by
          simp only [controlStep, if_neg hcolon, if_neg hno.1, if_neg hno.2]
        rw [run_cons_more hstep] at hrun
        obtain ⟨name, value, tail, hname, hinput, htail⟩ := ih hrun
        refine ⟨ch :: name, value, tail, ?_, by rw [hinput]; rfl, htail⟩
        intro other hother
        rcases List.mem_cons.mp hother with heq | hother
        · rw [heq]
          exact ⟨hcolon, hch⟩
        · exact hname other hother

/-- A scan from the start of a line that ends has read a line or a block end. -/
theorem stop_start
    (hrun : run (controlStep below) p .swStart input = .stop ending rest) :
    (ending = .line ∧ ∃ line : FieldLine below, input = line.bytes ++ rest) ∨
    (ending ≠ .line ∧ ∃ blockEnd : BlockEnd below, input = blockEnd.bytes ++ rest) := by
  cases input with
  | nil => cases hrun
  | cons ch input =>
      by_cases hcr : ch = CR
      · have hstep : controlStep below p .swStart ch = .more .swHeaderAlmostDone := by
          simp only [controlStep, if_pos hcr]
        rw [run_cons_more hstep] at hrun
        cases input with
        | nil => cases hrun
        | cons next input =>
            right
            by_cases hlf : next = LF
            · have hnext : controlStep below (p + 1) .swHeaderAlmostDone next =
                  .stop .emptyLine := by
                simp only [controlStep, if_pos hlf]
              rw [run_cons_stop hnext, Outcome.stop.injEq] at hrun
              exact ⟨by rw [← hrun.1]; decide, .crLine next, by
                simp [BlockEnd.bytes, hcr, hrun.2]⟩
            · have hnext : controlStep below (p + 1) .swHeaderAlmostDone next =
                  .stop .rejected := by
                simp only [controlStep, if_neg hlf]
              rw [run_cons_stop hnext, Outcome.stop.injEq] at hrun
              exact ⟨by rw [← hrun.1]; decide, .crLine next, by
                simp [BlockEnd.bytes, hcr, hrun.2]⟩
      by_cases hlf : ch = LF
      · have hstep : controlStep below p .swStart ch = .stop .emptyLine := by
          simp only [controlStep, if_neg hcr, if_pos hlf]
        rw [run_cons_stop hstep, Outcome.stop.injEq] at hrun
        exact Or.inr ⟨by rw [← hrun.1]; decide, .emptyLine, by
          simp [BlockEnd.bytes, hlf, hrun.2]⟩
      have hno : ¬ IsLineEnd ch := not_or.mpr ⟨hcr, hlf⟩
      by_cases hstarts : StartsName below ch
      · have hstep : controlStep below p .swStart ch = .more .swName := by
          simp only [controlStep, if_neg hcr, if_neg hlf, if_pos hstarts]
        rw [run_cons_more hstep] at hrun
        obtain ⟨name, value, tail, hname, hinput, htail⟩ := stop_name hrun
        let field : HeaderField below := ⟨ch, name, value, hno, hstarts, hname⟩
        have hfield : ch :: input = field.bytes ++ tail := by
          simp [field, HeaderField.bytes, hinput]
        rcases htail with ⟨hending, crs, htail⟩ | ⟨hending, crs, bad, hbad, htail⟩
        · exact Or.inl ⟨hending, ⟨field, crs⟩, by
            rw [hfield, htail]
            simp [FieldLine.bytes]⟩
        · exact Or.inr ⟨by rw [hending]; decide, .badEnd field crs bad hbad, by
            rw [hfield, htail]
            simp [BlockEnd.bytes]⟩
      · have hstep : controlStep below p .swStart ch = .stop .rejected := by
          simp only [controlStep, if_neg hcr, if_neg hlf, if_neg hstarts]
        rw [run_cons_stop hstep, Outcome.stop.injEq] at hrun
        exact Or.inr ⟨by rw [← hrun.1]; decide, .badName ch hno hstarts, by
          simp [BlockEnd.bytes, hrun.2]⟩

end Backward

end Night.HeaderLine
