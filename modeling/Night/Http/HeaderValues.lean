import Night.Http.HeaderCalls
import Mathlib.Data.List.DropRight

/-!
# The values of a header block

A header block as its sender means it: lines `name: value` with blanks around the
value, and an empty line behind them.  The parser gives each line back with its
value trimmed exactly when no value is empty.  In `sw_space_before_value` it takes
the first byte that is no blank for the value's first one, whatever it is, so the
end of a line without a value becomes part of a value.
-/

namespace Night.HeaderLine

open Night.Bytes
open Night.HttpRequest
open Night.Scanner

/-! ## Header blocks -/

/-- The characters of a token. -/
def IsToken (ch : Byte) : Prop :=
  ('0'.toNat ≤ ch.toNat ∧ ch.toNat ≤ '9'.toNat) ∨
    ('A'.toNat ≤ ch.toNat ∧ ch.toNat ≤ 'Z'.toNat) ∨
    ('a'.toNat ≤ ch.toNat ∧ ch.toNat ≤ 'z'.toNat) ∨
    ch ∈ "!#$%&'*+-.^_`|~".toList.map ascii

instance : DecidablePred IsToken := fun _ => inferInstanceAs (Decidable (_ ∨ _))

/-- One line of a block.  `content` is all that stands between the colon and the
end of the line. -/
structure SentLine where
  name : List Byte
  content : List Byte
  cr : Bool
  name_ne_nil : name ≠ []
  name_token : ∀ ch ∈ name, IsToken ch
  content_clean : ∀ ch ∈ content, ch ≠ 0 ∧ ¬ IsLineEnd ch

def SentLine.bytes (line : SentLine) : List Byte :=
  line.name ++ ascii ':' :: (line.content ++ lineEnd line.cr)

/-- The lines and the empty line behind them. -/
def blockBytes (lines : List SentLine) (cr : Bool) : List Byte :=
  (lines.map SentLine.bytes).flatten ++ lineEnd cr

def isBlank (ch : Byte) : Bool := ch = SP

/-- The bytes without the blanks at both ends. -/
def trimmed (bytes : List Byte) : List Byte :=
  (bytes.dropWhile isBlank).rdropWhile isBlank

/-! ## Trimming -/

theorem trimmed_eq_nil_iff (bytes : List Byte) :
    trimmed bytes = [] ↔ ∀ ch ∈ bytes, ch = SP := by
  rw [trimmed, List.rdropWhile_eq_nil_iff]
  constructor
  · intro hdropped
    have hnil : bytes.dropWhile isBlank = [] := by
      by_contra hne
      have hhead := List.head_dropWhile_not isBlank hne
      rw [hdropped _ (List.head_mem hne)] at hhead
      cases hhead
    intro ch hch
    have hblank := List.dropWhile_eq_nil_iff.mp hnil ch hch
    simpa [isBlank] using hblank
  · intro hblanks ch hch
    have hmem := (List.dropWhile_sublist isBlank).subset hch
    simp [isBlank, hblanks ch hmem]

/-- Blanks, the trimmed bytes, and blanks again. -/
theorem exists_trimmed (bytes : List Byte) :
    ∃ before after, bytes =
      List.replicate before SP ++ trimmed bytes ++ List.replicate after SP := by
  have hall : ∀ blanks : List Byte, (∀ ch ∈ blanks, isBlank ch = true) →
      blanks = List.replicate blanks.length SP := by
    intro blanks hblanks
    apply List.eq_replicate_of_mem
    intro ch hch
    simpa [isBlank] using hblanks ch hch
  have hbefore := hall (bytes.takeWhile isBlank)
    (fun ch hch => List.mem_takeWhile_imp hch)
  have hafter := hall ((bytes.dropWhile isBlank).rtakeWhile isBlank)
    (fun ch hch => List.mem_rtakeWhile_imp hch)
  refine ⟨(bytes.takeWhile isBlank).length,
    ((bytes.dropWhile isBlank).rtakeWhile isBlank).length, ?_⟩
  rw [← hbefore, ← hafter, List.append_assoc, trimmed, List.rdropWhile_append_rtakeWhile,
    List.takeWhile_append_dropWhile]

/-- Trimmed bytes begin and end with a byte that is no blank. -/
theorem trimmed_ends {bytes : List Byte} (hne : trimmed bytes ≠ []) :
    (trimmed bytes).head hne ≠ SP ∧ (trimmed bytes).getLast hne ≠ SP := by
  constructor
  · have hdropped : bytes.dropWhile isBlank ≠ [] := by
      intro hnil
      apply hne
      rw [trimmed, hnil, List.rdropWhile_nil]
    have hhead := List.head_dropWhile_not isBlank hdropped
    have hprefix := List.rdropWhile_prefix isBlank (bytes.dropWhile isBlank)
    rw [← List.IsPrefix.head hprefix hne] at hhead
    simpa [isBlank, trimmed] using hhead
  · have hlast := List.rdropWhile_last_not isBlank (bytes.dropWhile isBlank) hne
    simpa [isBlank, trimmed] using hlast

theorem mem_of_mem_trimmed {bytes : List Byte} {ch : Byte} (hch : ch ∈ trimmed bytes) :
    ch ∈ bytes := by
  obtain ⟨before, after, hbytes⟩ := exists_trimmed bytes
  rw [hbytes]
  simp [hch]

/-! ## Tokens -/

theorem isToken_visible : ∀ ch : Byte, IsToken ch →
    0x20 < ch.toInt ∧ ch ≠ DEL ∧ ch ≠ ascii ':' ∧ ¬ IsLineEnd ch := by
  decide +kernel

theorem isToken_startsName (below : ℤ → Byte) {ch : Byte} (hch : IsToken ch) :
    StartsName below ch := by
  obtain ⟨hlow, hdel, hcolon, -⟩ := isToken_visible ch hch
  refine Or.inr (Or.inr ?_)
  rintro (hle | hdel' | hcolon')
  · omega
  · exact hdel hdel'
  · exact hcolon hcolon'

/-! ## The scan of one line -/

section Scan

variable (below : ℤ → Byte) (p : ℕ) (locals : Locals) (r : Request)

/-- In the name the record keeps where it began. -/
theorem scan_name {name : List Byte}
    (hname : ∀ ch ∈ name, ch ≠ ascii ':' ∧ ¬ IsLineEnd ch) :
    ∃ locals' r', run (headerLineStep below) p (.swName, locals, r) name =
        .more (.swName, locals', r') ∧ r'.headerNameStart = r.headerNameStart := by
  induction name generalizing p locals r with
  | nil => exact ⟨locals, r, rfl, rfl⟩
  | cons ch name ih =>
      have hch := hname ch (by simp)
      simp only [IsLineEnd, not_or] at hch
      have hrest : ∀ other ∈ name, other ≠ ascii ':' ∧ ¬ IsLineEnd other := by
        intro other hother
        exact hname other (by simp [hother])
      have hstep : ∃ locals' r', headerLineStep below p (.swName, locals, r) ch =
          .more (.swName, locals', r') ∧ r'.headerNameStart = r.headerNameStart := by
        simp only [headerLineStep, if_neg hch.1, if_neg hch.2.1, if_neg hch.2.2]
        split_ifs
        · exact ⟨_, _, rfl, rfl⟩
        · exact ⟨_, _, rfl, rfl⟩
        · exact ⟨_, _, rfl, rfl⟩
      obtain ⟨locals', r', hstep, hkept⟩ := hstep
      obtain ⟨final, r'', hrun, hkept'⟩ := ih (p + 1) locals' r' hrest
      exact ⟨final, r'', by rw [run_cons_more hstep, hrun], by rw [hkept', hkept]⟩

/-- A name and its colon are recorded where they stand. -/
theorem scan_line_name (line : SentLine) :
    ∃ locals' r', run (headerLineStep below) p (.swStart, locals, r)
        (line.name ++ [ascii ':']) = .more (.swSpaceBeforeValue, locals', r') ∧
      r'.headerNameStart = p ∧ r'.headerNameEnd = p + line.name.length := by
  obtain ⟨name, content, cr, hne, htoken, hclean⟩ := line
  cases name with
  | nil => exact absurd rfl hne
  | cons first name =>
      have hvisible : ∀ ch ∈ name, ch ≠ ascii ':' ∧ ¬ IsLineEnd ch := by
        intro ch hch
        exact (isToken_visible ch (htoken ch (by simp [hch]))).2.2
      have hfirst := htoken first (by simp)
      have hends := (isToken_visible first hfirst).2.2.2
      simp only [IsLineEnd, not_or] at hends
      have hstep : ∃ locals' r', headerLineStep below p (.swStart, locals, r) first =
          .more (.swName, locals', r') ∧ r'.headerNameStart = p := by
        have hstarts := isToken_startsName below hfirst
        simp only [headerLineStep, if_neg hends.1, if_neg hends.2]
        split_ifs with hlowcase hunderscore hbad
        · exact ⟨_, _, rfl, rfl⟩
        · exact ⟨_, _, rfl, rfl⟩
        · rcases hstarts with hstarts | hstarts | hstarts
          · exact absurd hstarts hlowcase
          · exact absurd hstarts hunderscore
          · exact absurd hbad hstarts
        · exact ⟨_, _, rfl, rfl⟩
      obtain ⟨started, r₁, hstep, hstart⟩ := hstep
      obtain ⟨named, r₂, hrun, hkept⟩ :=
        scan_name below (p + 1) started r₁ hvisible
      have hcolon : headerLineStep below (p + 1 + name.length) (.swName, named, r₂)
          (ascii ':') = .more (.swSpaceBeforeValue, named,
            { r₂ with headerNameEnd := p + 1 + name.length }) := by
        simp only [headerLineStep, lowcase_colon]
        rfl
      refine ⟨named, { r₂ with headerNameEnd := p + 1 + name.length }, ?_, ?_, ?_⟩
      · rw [List.cons_append, run_cons_more hstep, run_append_of_more hrun,
          run_cons_more hcolon, run_nil]
      · exact hkept.trans hstart
      · simp only [List.length_cons]
        omega

/-- Blanks before the value are skipped. -/
theorem scan_blanks_before (count : ℕ) :
    run (headerLineStep below) p (.swSpaceBeforeValue, locals, r)
      (List.replicate count SP) = .more (.swSpaceBeforeValue, locals, r) := by
  induction count generalizing p with
  | zero => rfl
  | succ count ih =>
      have hstep : headerLineStep below p (.swSpaceBeforeValue, locals, r) SP =
          .more (.swSpaceBeforeValue, locals, r) := rfl
      rw [List.replicate_succ, run_cons_more hstep, ih]

/-- Blanks behind the value are skipped. -/
theorem scan_blanks_after (count : ℕ) :
    run (headerLineStep below) p (.swSpaceAfterValue, locals, r)
      (List.replicate count SP) = .more (.swSpaceAfterValue, locals, r) := by
  induction count generalizing p with
  | zero => rfl
  | succ count ih =>
      have hstep : headerLineStep below p (.swSpaceAfterValue, locals, r) SP =
          .more (.swSpaceAfterValue, locals, r) := rfl
      rw [List.replicate_succ, run_cons_more hstep, ih]

/-- Inside a value only the end that is recorded changes. -/
theorem scan_inside {more : List Byte} (hmore : ∀ ch ∈ more, ¬ IsLineEnd ch)
    {state : State} (hstate : state = .swValue ∨ state = .swSpaceAfterValue) (valueEnd : ℕ) :
    ∃ next valueEnd', (next = State.swValue ∨ next = .swSpaceAfterValue) ∧
      run (headerLineStep below) p (state, locals, { r with headerEnd := valueEnd }) more =
        .more (next, locals, { r with headerEnd := valueEnd' }) := by
  induction more generalizing p state valueEnd with
  | nil => exact ⟨state, valueEnd, hstate, rfl⟩
  | cons ch more ih =>
      have hch := hmore ch (by simp)
      simp only [IsLineEnd, not_or] at hch
      have hrest : ∀ other ∈ more, ¬ IsLineEnd other := by
        intro other hother
        exact hmore other (by simp [hother])
      have hstep : ∃ next valueEnd', (next = State.swValue ∨ next = .swSpaceAfterValue) ∧
          headerLineStep below p (state, locals, { r with headerEnd := valueEnd }) ch =
            .more (next, locals, { r with headerEnd := valueEnd' }) := by
        by_cases hblank : ch = SP
        · rcases hstate with rfl | rfl
          · refine ⟨.swSpaceAfterValue, p, Or.inr rfl, ?_⟩
            simp only [headerLineStep, if_pos hblank]
          · refine ⟨.swSpaceAfterValue, valueEnd, Or.inr rfl, ?_⟩
            simp only [headerLineStep, if_pos hblank]
        · refine ⟨.swValue, valueEnd, Or.inl rfl, ?_⟩
          rcases hstate with rfl | rfl <;>
            simp only [headerLineStep, if_neg hblank, if_neg hch.1, if_neg hch.2]
      obtain ⟨next, valueEnd', hnext, hstep⟩ := hstep
      obtain ⟨final, finalEnd, hfinal, hrun⟩ := ih (p + 1) hrest hnext valueEnd'
      exact ⟨final, finalEnd, hfinal, by rw [run_cons_more hstep, hrun]⟩

/-- A value that begins and ends with a byte that is no blank leaves the machine in
`sw_value`, with the value's start recorded. -/
theorem scan_value {value : List Byte} (hne : value ≠ []) (hhead : value.head hne ≠ SP)
    (hlast : value.getLast hne ≠ SP) (hclean : ∀ ch ∈ value, ¬ IsLineEnd ch) :
    ∃ valueEnd, run (headerLineStep below) p (.swSpaceBeforeValue, locals, r) value =
      .more (.swValue, locals, { r with headerStart := p, headerEnd := valueEnd }) := by
  cases value with
  | nil => exact absurd rfl hne
  | cons first more =>
      have hfirst : headerLineStep below p (.swSpaceBeforeValue, locals, r) first =
          .more (.swValue, locals, { r with headerStart := p }) := by
        simp only [List.head_cons] at hhead
        simp only [headerLineStep, if_neg hhead]
      rw [run_cons_more hfirst]
      rcases List.eq_nil_or_concat more with rfl | ⟨inner, last, rfl⟩
      · exact ⟨r.headerEnd, rfl⟩
      · have hinner : ∀ ch ∈ inner, ¬ IsLineEnd ch := by
          intro ch hch
          exact hclean ch (by simp [hch])
        have hend : ¬ IsLineEnd last := hclean last (by simp)
        simp only [IsLineEnd, not_or] at hend
        have hblank : last ≠ SP := by simpa using hlast
        obtain ⟨next, valueEnd, hnext, hrun⟩ := scan_inside below (p + 1) locals
          { r with headerStart := p } hinner (Or.inl rfl) r.headerEnd
        have hstep : ∀ q, headerLineStep below q
            (next, locals, { r with headerStart := p, headerEnd := valueEnd }) last =
              .more (.swValue, locals,
                { r with headerStart := p, headerEnd := valueEnd }) := by
          intro q
          rcases hnext with rfl | rfl <;>
            simp only [headerLineStep, if_neg hblank, if_neg hend.1, if_neg hend.2]
        refine ⟨valueEnd, ?_⟩
        rw [List.concat_eq_append, run_append_of_more hrun, run_cons_more (hstep _), run_nil]

/-- The blanks behind a value and the end of its line: the end of the value is
recorded in front of them. -/
theorem scan_value_end (blanks : ℕ) (cr : Bool) (rest : List Byte) :
    run (headerLineStep below) p (.swValue, locals, r)
        (List.replicate blanks SP ++ lineEnd cr ++ rest) =
      .stop (.done (p + blanks + (lineEnd cr).length - 1) locals
        { r with headerEnd := p }) rest := by
  have hcr : ∀ q, headerLineStep below q (.swAlmostDone, locals,
      { r with headerEnd := p }) LF = .stop (.done q locals { r with headerEnd := p }) :=
    fun _ => rfl
  cases blanks with
  | zero =>
      cases cr with
      | false => rfl
      | true => rfl
  | succ blanks =>
      have hblank : headerLineStep below p (.swValue, locals, r) SP =
          .more (.swSpaceAfterValue, locals, { r with headerEnd := p }) := rfl
      have hrun := scan_blanks_after below (p + 1) locals { r with headerEnd := p } blanks
      rw [List.replicate_succ, List.cons_append, List.cons_append, run_cons_more hblank,
        List.append_assoc, run_append_of_more hrun, List.length_replicate,
        show p + 1 + blanks = p + (blanks + 1) by omega]
      cases cr with
      | false => rfl
      | true => rfl

/-- A line whose value is not empty, read to its end. -/
theorem scan_line (line : SentLine) (hvalue : trimmed line.content ≠ [])
    (rest : List Byte) :
    ∃ locals' r', run (headerLineStep below) p (.swStart, locals, r) (line.bytes ++ rest) =
        .stop (.done (p + line.bytes.length - 1) locals' r') rest ∧
      ∃ blanks, r'.headerNameStart = p ∧ r'.headerNameEnd = p + line.name.length ∧
        r'.headerStart = p + line.name.length + 1 + blanks ∧
        r'.headerEnd = r'.headerStart + (trimmed line.content).length ∧
        ∃ tail, line.bytes = line.name ++ ascii ':' :: (List.replicate blanks SP ++
          trimmed line.content ++ tail) := by
  obtain ⟨locals₁, r₁, hname, hstart, hend⟩ :=
    scan_line_name below p locals r line
  obtain ⟨before, after, hcontent⟩ := exists_trimmed line.content
  obtain ⟨hhead, hlast⟩ := trimmed_ends hvalue
  have hclean : ∀ ch ∈ trimmed line.content, ¬ IsLineEnd ch := by
    intro ch hch
    exact (line.content_clean ch (mem_of_mem_trimmed hch)).2
  obtain ⟨valueEnd, hscan⟩ := scan_value below (p + line.name.length + 1 + before) locals₁ r₁
    hvalue hhead hlast hclean
  have hbytes : line.bytes ++ rest = (line.name ++ [ascii ':']) ++
      (List.replicate before SP ++ (trimmed line.content ++
        (List.replicate after SP ++ lineEnd line.cr ++ rest))) := by
    rw [SentLine.bytes]
    conv_lhs => rw [hcontent]
    simp only [List.append_assoc, List.cons_append, List.nil_append]
  have hlength : line.bytes.length = line.name.length + 1 + before +
      (trimmed line.content).length + after + (lineEnd line.cr).length := by
    rw [SentLine.bytes, List.length_append, List.length_cons, List.length_append]
    conv_lhs => rw [hcontent]
    simp only [List.length_append, List.length_replicate]
    omega
  let r₂ : Request :=
    { r₁ with headerStart := p + line.name.length + 1 + before, headerEnd := valueEnd }
  have htail := scan_value_end below
    (p + line.name.length + 1 + before + (trimmed line.content).length) locals₁ r₂
    after line.cr rest
  refine ⟨locals₁, { r₂ with
      headerEnd := p + line.name.length + 1 + before + (trimmed line.content).length }, ?_,
    before, hstart, hend, rfl, rfl, List.replicate after SP ++ lineEnd line.cr, ?_⟩
  · rw [hbytes, run_append_of_more hname,
      run_append_of_more (scan_blanks_before below _ locals₁ r₁ before),
      List.length_append, List.length_singleton, List.length_replicate,
      show p + (line.name.length + 1) + before = p + line.name.length + 1 + before by omega,
      run_append_of_more hscan, htail, hlength]
    congr 2
    omega
  · rw [SentLine.bytes]
    conv_lhs => rw [hcontent]
    simp only [List.append_assoc]

/-! ### A line without a value -/

/-- The value began at `start`, the end of its own line, and what is recorded of it
is not empty. -/
def Overrun (start p : ℕ) : State × Locals × Request → Prop
  | (.swValue, _, r) => r.headerStart = start ∧ start < p
  | (.swSpaceAfterValue, _, r) => r.headerStart = start ∧ start < p ∧ start < r.headerEnd
  | (.swAlmostDone, _, r) => r.headerStart = start ∧ start < p ∧ start < r.headerEnd
  | _ => False

/-- How such a call ends: with a value that is not empty, or with an error. -/
def Exit.Overrun (start : ℕ) : Exit → Prop
  | .done _ _ r => r.headerStart = start ∧ start < r.headerEnd
  | .headerDone _ _ => False
  | .invalid _ => True

theorem overrun_more (below : ℤ → Byte) (start p : ℕ) (current : State × Locals × Request)
    (ch : Byte) (next : State × Locals × Request) (hover : Overrun start p current)
    (hstep : headerLineStep below p current ch = .more next) :
    Overrun start (p + 1) next := by
  obtain ⟨state, locals, r⟩ := current
  cases state with
  | swValue | swSpaceAfterValue | swAlmostDone =>
      simp only [Overrun] at hover
      simp only [headerLineStep] at hstep
      split_ifs at hstep
      all_goals
        simp only [Verdict.more.injEq] at hstep
        subst hstep
        simp only [Overrun]
        omega
  | _ => exact absurd hover id

theorem overrun_stop (below : ℤ → Byte) (start p : ℕ) (current : State × Locals × Request)
    (ch : Byte) (exit : Exit) (hover : Overrun start p current)
    (hstep : headerLineStep below p current ch = .stop exit) : exit.Overrun start := by
  obtain ⟨state, locals, r⟩ := current
  cases state with
  | swValue | swSpaceAfterValue | swAlmostDone =>
      simp only [Overrun] at hover
      simp only [headerLineStep] at hstep
      split_ifs at hstep
      all_goals
        simp only [Verdict.stop.injEq] at hstep
        subst hstep
        first
          | exact trivial
          | simp only [Exit.Overrun]
            omega
  | _ => exact absurd hover id

/-- A `LF` ends every scan that is inside a value. -/
theorem exists_stop_of_overrun {start : ℕ} {current : State × Locals × Request}
    {input : List Byte} (hover : Overrun start p current) (hlf : LF ∈ input) :
    ∃ exit rest, run (headerLineStep below) p current input = .stop exit rest := by
  induction input generalizing p current with
  | nil => cases hlf
  | cons ch input ih =>
      cases hstep : headerLineStep below p current ch with
      | stop exit => exact ⟨exit, input, run_cons_stop hstep⟩
      | more next =>
          rw [run_cons_more hstep]
          refine ih (p + 1) (overrun_more below start p current ch next hover hstep) ?_
          rcases List.mem_cons.mp hlf with rfl | hlf
          · obtain ⟨state, locals, r⟩ := current
            cases state with
            | swValue | swSpaceAfterValue | swAlmostDone => cases hstep
            | _ => exact absurd hover id
          · exact hlf

/-- The scan of a line whose content is all blanks: its end becomes the first byte
of the value. -/
theorem scan_line_blank (line : SentLine) (hvalue : trimmed line.content = [])
    (rest : List Byte) (hrest : LF ∈ rest) :
    ∃ exit unread, run (headerLineStep below) p (.swStart, locals, r) (line.bytes ++ rest) =
      .stop exit unread ∧
      exit.Overrun (p + line.name.length + 1 + line.content.length) := by
  obtain ⟨locals₁, r₁, hname, -, -⟩ :=
    scan_line_name below p locals r line
  have hblanks : line.content = List.replicate line.content.length SP :=
    List.eq_replicate_of_mem ((trimmed_eq_nil_iff line.content).mp hvalue)
  obtain ⟨first, tail, hend, hfirst, htail⟩ : ∃ first tail,
      lineEnd line.cr ++ rest = first :: tail ∧ first ≠ SP ∧ LF ∈ tail := by
    cases line.cr with
    | false => exact ⟨LF, rest, rfl, by decide, hrest⟩
    | true => exact ⟨CR, LF :: rest, rfl, by decide, by simp⟩
  let start := p + line.name.length + 1 + line.content.length
  have hbytes : line.bytes ++ rest = (line.name ++ [ascii ':']) ++
      (List.replicate line.content.length SP ++ first :: tail) := by
    rw [SentLine.bytes, ← hend, ← hblanks]
    simp only [List.append_assoc, List.cons_append, List.nil_append]
  have hstep : headerLineStep below start (.swSpaceBeforeValue, locals₁, r₁) first =
      .more (.swValue, locals₁, { r₁ with headerStart := start }) := by
    simp only [headerLineStep, if_neg hfirst]
  have hover : Overrun start (start + 1)
      (.swValue, locals₁, { r₁ with headerStart := start }) := ⟨rfl, Nat.lt_succ_self start⟩
  obtain ⟨exit, unread, hrun⟩ := exists_stop_of_overrun below _ hover htail
  obtain ⟨-, -, hexit⟩ := result_of_invariant (overrun_more below start)
    (overrun_stop below start) hover hrun
  refine ⟨exit, unread, ?_, hexit⟩
  rw [hbytes, run_append_of_more hname,
    run_append_of_more (scan_blanks_before below _ locals₁ r₁ line.content.length),
    List.length_append, List.length_singleton, List.length_replicate,
    show p + (line.name.length + 1) + line.content.length = start by
      simp only [start]
      omega,
    run_cons_more hstep, hrun]

end Scan

/-! ## The calls on a block -/

/-- The code of a call and, when it is `NIGHT_OK`, the name and the value. -/
def Call.seen (call : Call) : ParseCode × Option (List Byte × List Byte) :=
  (call.code, call.header.map fun header => (header.name, header.value))

/-- The calls on a block as its sender means it. -/
def expectedCalls (lines : List SentLine) :
    List (ParseCode × Option (List Byte × List Byte)) :=
  lines.map (fun line => (.ok, some (line.name, trimmed line.content))) ++
    [(.headerDone, none)]

section Block

variable (below : ℤ → Byte)

/-- The stretch of a buffer that stands between `before` and `behind`. -/
theorem slice_middle (before middle behind : List Byte) {first last : ℕ}
    (hfirst : first = before.length) (hlast : last = first + middle.length) :
    slice (before ++ (middle ++ behind)) first last = middle := by
  rw [slice, hlast, hfirst, ← List.append_assoc, List.take_append_of_le_length
    (by rw [List.length_append]), ← List.length_append, List.take_length, List.drop_left]

theorem callOf_done {below : ℤ → Byte} {locals locals' : Locals} {r r' : Request}
    {before unread rest : List Byte} {p : ℕ} (hrun : run (headerLineStep below) before.length
      (.swStart, locals, startLine r) unread = .stop (.done p locals' r') rest) :
    nightHttpParseHeaderLine below locals (startLine r) (bufAt before unread) =
        (.ok, { r' with
          state := swStartValue, headerHash := locals'.hash, lowcaseIndex := locals'.i },
          ⟨before ++ unread, p + 1⟩) ∧
      (callOf below locals (startLine r) (bufAt before unread)).seen =
        (.ok, some (slice (before ++ unread) r'.headerNameStart r'.headerNameEnd,
          slice (before ++ unread) r'.headerStart r'.headerEnd)) := by
  have hcall : run (headerLineStep below) (bufAt before unread).pos
      (State.ofNat (startLine r).state, locals, startLine r) (bufAt before unread).unread =
        .stop (.done p locals' r') rest := by
    rw [unread_bufAt]
    exact hrun
  have hparse : nightHttpParseHeaderLine below locals (startLine r) (bufAt before unread) =
      (.ok, { r' with
        state := swStartValue, headerHash := locals'.hash, lowcaseIndex := locals'.i },
        ⟨before ++ unread, p + 1⟩) := by
    simp only [nightHttpParseHeaderLine, hcall, finishHeaderLine]
  refine ⟨hparse, ?_⟩
  simp only [Call.seen, callOf, hparse, if_pos, Option.map_some, headerOf]

/-- A call on a line with a value gives the name and the trimmed value back. -/
theorem call_sentLine (line : SentLine) (hvalue : trimmed line.content ≠ [])
    (locals : Locals) (r : Request) (before rest : List Byte) :
    ∃ r', nightHttpParseHeaderLine below locals (startLine r)
          (bufAt before (line.bytes ++ rest)) =
        (.ok, startLine r', bufAt (before ++ line.bytes) rest) ∧
      (callOf below locals (startLine r) (bufAt before (line.bytes ++ rest))).seen =
        (.ok, some (line.name, trimmed line.content)) := by
  obtain ⟨locals', r', hrun, blanks, hnameStart, hnameEnd, hstart, hend, tail, hbytes⟩ :=
    scan_line below before.length locals (startLine r) line hvalue rest
  obtain ⟨hparse, hseen⟩ := callOf_done hrun
  have hlength : 0 < line.bytes.length := by
    rw [hbytes, List.length_append, List.length_cons]
    omega
  have hname : slice (before ++ (line.bytes ++ rest)) r'.headerNameStart
      r'.headerNameEnd = line.name := by
    rw [hbytes, List.append_assoc]
    exact slice_middle before line.name _ hnameStart (by omega)
  have hcontent : slice (before ++ (line.bytes ++ rest)) r'.headerStart
      r'.headerEnd = trimmed line.content := by
    have hsplit : before ++ (line.bytes ++ rest) =
        (before ++ line.name ++ ascii ':' :: List.replicate blanks SP) ++
          (trimmed line.content ++ (tail ++ rest)) := by
      rw [hbytes]
      simp only [List.append_assoc, List.cons_append]
    rw [hsplit]
    refine slice_middle _ _ _ ?_ hend
    simp only [List.length_append, List.length_cons, List.length_replicate]
    omega
  refine ⟨{ r' with headerHash := locals'.hash, lowcaseIndex := locals'.i }, ?_, ?_⟩
  · rw [hparse, show before.length + line.bytes.length - 1 + 1 =
      (before ++ line.bytes).length by rw [List.length_append]; omega]
    simp only [bufAt, startLine, List.append_assoc]
  · rw [hseen, hname, hcontent]

/-- A call on a line without a value gives back something else. -/
theorem call_blankLine (line : SentLine) (hvalue : trimmed line.content = [])
    (locals : Locals) (r : Request) (before rest : List Byte) (hrest : LF ∈ rest) :
    (callOf below locals (startLine r) (bufAt before (line.bytes ++ rest))).seen ≠
      (.ok, some (line.name, trimmed line.content)) := by
  obtain ⟨exit, unread, hrun, hexit⟩ := scan_line_blank below before.length locals
    (startLine r) line hvalue rest hrest
  cases exit with
  | headerDone p r' => exact absurd hexit id
  | done p locals' r' =>
      obtain ⟨hstart, hend⟩ := hexit
      obtain ⟨-, hseen⟩ := callOf_done hrun
      rw [hseen, hvalue]
      intro heq
      simp only [Prod.mk.injEq, Option.some.injEq, true_and] at heq
      have hlength := congrArg List.length heq.2
      have hends : 0 < (lineEnd line.cr).length := by
        cases line.cr <;> decide
      simp only [slice, SentLine.bytes, List.length_drop, List.length_take,
        List.length_append, List.length_cons, List.length_nil] at hlength
      omega
  | invalid r' =>
      have hcall : run (headerLineStep below) (bufAt before (line.bytes ++ rest)).pos
          (State.ofNat (startLine r).state, locals, startLine r)
          (bufAt before (line.bytes ++ rest)).unread = .stop (.invalid r') unread := by
        rw [unread_bufAt]
        exact hrun
      have hcode : (callOf below locals (startLine r)
          (bufAt before (line.bytes ++ rest))).code = .invalidHeader := by
        simp only [callOf, nightHttpParseHeaderLine, hcall]
      intro heq
      have hfirst := congrArg Prod.fst heq
      simp only [Call.seen, hcode] at hfirst
      cases hfirst

/-- The empty line ends the block. -/
theorem call_emptyLine (cr : Bool) (locals : Locals) (r : Request)
    (before rest : List Byte) :
    (callOf below locals (startLine r) (bufAt before (lineEnd cr ++ rest))).seen =
      (.headerDone, none) := by
  obtain ⟨p, r', hrun⟩ : ∃ p r', run (headerLineStep below) before.length
      (.swStart, locals, startLine r) (lineEnd cr ++ rest) =
        .stop (.headerDone p r') rest := by
    cases cr with
    | false => exact ⟨_, _, rfl⟩
    | true => exact ⟨_, _, rfl⟩
  have hcall : run (headerLineStep below) (bufAt before (lineEnd cr ++ rest)).pos
      (State.ofNat (startLine r).state, locals, startLine r)
      (bufAt before (lineEnd cr ++ rest)).unread = .stop (.headerDone p r') rest := by
    rw [unread_bufAt]
    exact hrun
  simp only [Call.seen, callOf, nightHttpParseHeaderLine, hcall]
  rfl

theorem LF_mem_block (lines : List SentLine) (cr : Bool) (rest : List Byte) :
    LF ∈ blockBytes lines cr ++ rest := by
  have hend : LF ∈ lineEnd cr := by
    cases cr <;> decide
  simp [blockBytes, hend]

/-- The calls on a block are the expected ones exactly when every line has a value. -/
theorem seen_iff (locals : ℕ → Locals) (cr : Bool) (lines : List SentLine) (rest : List Byte)
    (index : ℕ) (r : Request) (before : List Byte) :
    (∀ fuel, lines.length < fuel → (processRequestHeaders below locals fuel index
      (startLine r) (bufAt before (blockBytes lines cr ++ rest)) []).map Call.seen =
        expectedCalls lines) ↔
      ∀ line ∈ lines, trimmed line.content ≠ [] := by
  induction lines generalizing index r before with
  | nil =>
      refine ⟨by simp, ?_⟩
      intro _ fuel hfuel
      obtain ⟨fuel, rfl⟩ : ∃ more, fuel = more + 1 := ⟨fuel - 1, by
        simp only [List.length_nil] at hfuel
        omega⟩
      have hseen := call_emptyLine below cr (locals index) r before rest
      have hcode : (callOf below (locals index) (startLine r)
          (bufAt before (lineEnd cr ++ rest))).code = .headerDone := congrArg Prod.fst hseen
      have hblock : blockBytes [] cr ++ rest = lineEnd cr ++ rest := rfl
      rw [hblock, calls_of_end (by rw [hcode]; decide) (by rw [hcode]; decide)]
      simp only [List.map_cons, List.map_nil, hseen]
      rfl
  | cons line lines ih =>
      have hblock : blockBytes (line :: lines) cr ++ rest =
          line.bytes ++ (blockBytes lines cr ++ rest) := by
        simp only [blockBytes, List.map_cons, List.flatten_cons, List.append_assoc]
      rw [hblock, List.forall_mem_cons]
      by_cases hvalue : trimmed line.content = []
      · constructor
        · intro hcalls
          have hfirst := hcalls ((line :: lines).length + 1) (Nat.lt_succ_self _)
          have hhead := congrArg List.head? hfirst
          simp only [processRequestHeaders, List.map_cons, List.head?_cons, expectedCalls,
            List.cons_append, Option.some.injEq] at hhead
          exact absurd hhead (call_blankLine below line hvalue (locals index) r before _
            (LF_mem_block lines cr rest))
        · intro hvalues
          exact absurd hvalue hvalues.1
      · obtain ⟨r', hparse, hseen⟩ := call_sentLine below line hvalue (locals index) r before
          (blockBytes lines cr ++ rest)
        rw [← ih (index + 1) r' (before ++ line.bytes)]
        constructor
        · intro hcalls
          refine ⟨hvalue, ?_⟩
          intro fuel hfuel
          have hfirst := hcalls (fuel + 1) (by simpa using hfuel)
          rw [calls_of_ok hparse, List.map_cons, hseen] at hfirst
          exact (List.cons.inj hfirst).2
        · intro htail fuel hfuel
          obtain ⟨fuel, rfl⟩ : ∃ more, fuel = more + 1 := ⟨fuel - 1, by omega⟩
          rw [calls_of_ok hparse, List.map_cons, hseen,
            htail.2 fuel (by simpa using hfuel)]
          rfl

end Block

/-- The contract of the calls on a block: one `NIGHT_OK` for every line, with its name
and its trimmed value, then `NIGHT_HTTP_PARSE_HEADER_DONE`, and no value with a `CR`
or a `LF` in it. -/
structure BlockContract (below : ℤ → Byte) (locals : ℕ → Locals) (r : Request)
    (before : List Byte) (lines : List SentLine) (cr : Bool) (rest : List Byte) : Prop where
  seen_eq : ∀ fuel, lines.length < fuel → (processRequestHeaders below locals fuel 0
    (startLine r) (bufAt before (blockBytes lines cr ++ rest)) []).map Call.seen =
      expectedCalls lines
  no_line_end : ∀ fuel, lines.length < fuel → ∀ call ∈ processRequestHeaders below locals
    fuel 0 (startLine r) (bufAt before (blockBytes lines cr ++ rest)) [],
      ∀ header, call.header = some header → ∀ ch ∈ header.value, ¬ IsLineEnd ch

theorem expected_no_line_end {lines : List SentLine} {name value : List Byte}
    {code : ParseCode} (hmem : (code, some (name, value)) ∈ expectedCalls lines) :
    ∀ ch ∈ value, ¬ IsLineEnd ch := by
  rw [expectedCalls, List.mem_append] at hmem
  rcases hmem with hmem | hmem
  · obtain ⟨line, -, heq⟩ := List.mem_map.mp hmem
    simp only [Prod.mk.injEq, Option.some.injEq] at heq
    intro ch hch
    rw [← heq.2.2] at hch
    exact (line.content_clean ch (mem_of_mem_trimmed hch)).2
  · simp at hmem

/-- The calls on a block meet their contract exactly when every line has a byte that
is no blank behind its colon. -/
theorem blockContract_iff (below : ℤ → Byte) (locals : ℕ → Locals) (r : Request)
    (before : List Byte) (lines : List SentLine) (cr : Bool) (rest : List Byte) :
    BlockContract below locals r before lines cr rest ↔
      ∀ line ∈ lines, ∃ ch ∈ line.content, ch ≠ SP := by
  have hvalues : (∀ line ∈ lines, ∃ ch ∈ line.content, ch ≠ SP) ↔
      ∀ line ∈ lines, trimmed line.content ≠ [] := by
    simp only [ne_eq, trimmed_eq_nil_iff, not_forall, exists_prop]
  rw [hvalues, ← seen_iff below locals cr lines rest 0 r before]
  constructor
  · intro hcontract
    exact hcontract.seen_eq
  · intro hseen
    refine ⟨hseen, ?_⟩
    intro fuel hfuel call hcall header hheader
    have hmem := List.mem_map_of_mem (f := Call.seen) hcall
    rw [hseen fuel hfuel, Call.seen, hheader, Option.map_some] at hmem
    exact expected_no_line_end hmem

/-- `A:` and an empty line: the call returns `NIGHT_OK` with a `CR` for the value. -/
theorem not_blockContract_emptyValue :
    ¬ BlockContract (fun _ => 0) (fun _ => ⟨0, 0⟩) freshRequest []
      [⟨[ascii 'A'], [], true, by decide, by decide, by decide⟩] true [] := by
  intro hcontract
  have hseen := hcontract.seen_eq 2 (by decide)
  exact absurd hseen (by decide)

end Night.HeaderLine
