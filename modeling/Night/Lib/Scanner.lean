import Mathlib.Data.List.Basic

/-!
# Resumable byte scanners

A hand-written parser of a network server is a loop that looks at one input
symbol at a time, keeps everything it must remember in a state, and either goes
on or ends with a result.  This file states what such a loop does on a whole
input, on an input that arrives in pieces, and when it ends.  Nothing in it
depends on the language that is scanned.
-/

namespace Night.Scanner

variable {State Symbol Result : Type*}

/-- What one symbol does to a scanner: it goes on in a next state, or it ends
the scan with a result. -/
inductive Verdict (State Result : Type*) where
  | more (state : State)
  | stop (result : Result)
  deriving DecidableEq

/-- What a stretch of input does: the scanner has read all of it and waits in
`state`, or it has ended with `result` and left `rest` unread. -/
inductive Outcome (State Symbol Result : Type*) where
  | more (state : State)
  | stop (result : Result) (rest : List Symbol)
  deriving DecidableEq

/-- The scanning loop.  The step also sees the position of its symbol, as a
parser does that records where it met something. -/
def run (step : ℕ → State → Symbol → Verdict State Result) :
    ℕ → State → List Symbol → Outcome State Symbol Result
  | _, state, [] => .more state
  | position, state, symbol :: rest =>
      match step position state symbol with
      | .more next => run step (position + 1) next rest
      | .stop result => .stop result rest

/-- What a scan looks at outside its input, in order: `look` lists it for one turn. -/
def looks {Seen : Type*} (step : ℕ → State → Symbol → Verdict State Result)
    (look : State → Symbol → List Seen) : ℕ → State → List Symbol → List Seen
  | _, _, [] => []
  | position, state, symbol :: rest =>
      look state symbol ++
        match step position state symbol with
        | .more next => looks step look (position + 1) next rest
        | .stop _ => []

section Run

variable {step : ℕ → State → Symbol → Verdict State Result}
variable {position : ℕ} {state next : State} {symbol : Symbol}
variable {left right rest : List Symbol} {result : Result}

@[simp]
theorem run_nil : run step position state [] = .more state := rfl

theorem run_cons_more (hstep : step position state symbol = .more next) :
    run step position state (symbol :: rest) =
      run step (position + 1) next rest := by
  simp only [run, hstep]

theorem run_cons_stop (hstep : step position state symbol = .stop result) :
    run step position state (symbol :: rest) = .stop result rest := by
  simp only [run, hstep]

/-- How a scan that ends begins. -/
theorem run_cons_eq_stop_iff :
    run step position state (symbol :: left) = .stop result rest ↔
      (∃ next, step position state symbol = .more next ∧
        run step (position + 1) next left = .stop result rest) ∨
      (step position state symbol = .stop result ∧ left = rest) := by
  cases hstep : step position state symbol with
  | more inner => simp [run_cons_more hstep]
  | stop ended => simp [run_cons_stop hstep]

/-- Reading more input after a pause is reading the joined input. -/
theorem run_append_of_more (hleft : run step position state left = .more next) :
    run step position state (left ++ right) =
      run step (position + left.length) next right := by
  induction left generalizing position state with
  | nil =>
      simp only [run_nil, Outcome.more.injEq] at hleft
      simp [hleft]
  | cons symbol left ih =>
      cases hstep : step position state symbol with
      | more inner =>
          rw [run_cons_more hstep] at hleft
          rw [List.cons_append, run_cons_more hstep, ih hleft,
            List.length_cons]
          congr 1
          omega
      | stop ended =>
          rw [run_cons_stop hstep] at hleft
          cases hleft

/-- Input that arrives after the end is left unread. -/
theorem run_append_of_stop
    (hleft : run step position state left = .stop result rest) :
    run step position state (left ++ right) = .stop result (rest ++ right) := by
  induction left generalizing position state with
  | nil => cases hleft
  | cons symbol left ih =>
      cases hstep : step position state symbol with
      | more inner =>
          rw [run_cons_more hstep] at hleft
          rw [List.cons_append, run_cons_more hstep, ih hleft]
      | stop ended =>
          rw [run_cons_stop hstep, Outcome.stop.injEq] at hleft
          obtain ⟨rfl, rfl⟩ := hleft
          rw [List.cons_append, run_cons_stop hstep]

/-- What is left unread is a suffix of the input, and at least the symbol that
ended the scan was read. -/
theorem exists_consumed_of_stop
    (hrun : run step position state left = .stop result rest) :
    ∃ consumed, consumed ≠ [] ∧ left = consumed ++ rest := by
  induction left generalizing position state with
  | nil => cases hrun
  | cons symbol left ih =>
      cases hstep : step position state symbol with
      | more inner =>
          rw [run_cons_more hstep] at hrun
          obtain ⟨consumed, -, rfl⟩ := ih hrun
          exact ⟨symbol :: consumed, by simp, rfl⟩
      | stop ended =>
          rw [run_cons_stop hstep, Outcome.stop.injEq] at hrun
          exact ⟨[symbol], by simp, by simp [hrun.2]⟩

/-- A scan that ends exactly at the end of an input still waits on every proper
prefix of it. -/
theorem exists_more_of_append_stop
    (hrun : run step position state (left ++ right) = .stop result [])
    (hright : right ≠ []) :
    ∃ next, run step position state left = .more next := by
  cases hleft : run step position state left with
  | more next => exact ⟨next, rfl⟩
  | stop ended unread =>
      rw [run_append_of_stop hleft, Outcome.stop.injEq] at hrun
      exact absurd (List.append_eq_nil_iff.mp hrun.2).2 hright

/-- Invariant rule.  What every step keeps while it goes on, and what a step that
ends gives from it, holds of the result of a scan; the step that ended stood right
in front of the symbols left unread. -/
theorem result_of_invariant {Inv : ℕ → State → Prop} {P : ℕ → Result → Prop}
    (hmore : ∀ position state symbol next, Inv position state →
      step position state symbol = .more next → Inv (position + 1) next)
    (hstop : ∀ position state symbol ended, Inv position state →
      step position state symbol = .stop ended → P position ended)
    (hinit : Inv position state)
    (hrun : run step position state left = .stop result rest) :
    ∃ final, final + 1 + rest.length = position + left.length ∧ P final result := by
  induction left generalizing position state with
  | nil => cases hrun
  | cons symbol left ih =>
      cases hstep : step position state symbol with
      | more inner =>
          rw [run_cons_more hstep] at hrun
          obtain ⟨final, hfinal, hP⟩ := ih (hmore _ _ _ _ hinit hstep) hrun
          exact ⟨final, by simp only [List.length_cons]; omega, hP⟩
      | stop ended =>
          rw [run_cons_stop hstep, Outcome.stop.injEq] at hrun
          obtain ⟨rfl, rfl⟩ := hrun
          exact ⟨position, by simp only [List.length_cons]; omega,
            hstop _ _ _ _ hinit hstep⟩

/-- The same for a scan that has read everything. -/
theorem state_of_invariant {Inv : ℕ → State → Prop}
    (hmore : ∀ position state symbol next, Inv position state →
      step position state symbol = .more next → Inv (position + 1) next)
    (hinit : Inv position state) (hrun : run step position state left = .more next) :
    Inv (position + left.length) next := by
  induction left generalizing position state with
  | nil =>
      rw [run_nil, Outcome.more.injEq] at hrun
      exact hrun ▸ hinit
  | cons symbol left ih =>
      cases hstep : step position state symbol with
      | more inner =>
          rw [run_cons_more hstep] at hrun
          rw [List.length_cons, Nat.add_comm left.length, ← Nat.add_assoc]
          exact ih (hmore _ _ _ _ hinit hstep) hrun
      | stop ended =>
          rw [run_cons_stop hstep] at hrun
          cases hrun

/-- Each thing a scan looks at is looked at in a turn that the scan reaches. -/
theorem mem_looks_iff {Seen : Type*} {look : State → Symbol → List Seen} {seen : Seen} :
    seen ∈ looks step look position state left ↔
      ∃ before symbol after inner, left = before ++ symbol :: after ∧
        run step position state before = .more inner ∧ seen ∈ look inner symbol := by
  induction left generalizing position state with
  | nil => simp [looks]
  | cons symbol left ih =>
      rw [looks, List.mem_append]
      constructor
      · rintro (hnow | hlater)
        · exact ⟨[], symbol, left, state, rfl, rfl, hnow⟩
        · cases hstep : step position state symbol with
          | stop ended =>
              rw [hstep] at hlater
              cases hlater
          | more next =>
              rw [hstep] at hlater
              obtain ⟨before, looked, after, inner, hleft, hrun, hseen⟩ := ih.mp hlater
              exact ⟨symbol :: before, looked, after, inner, by rw [hleft, List.cons_append],
                by rw [run_cons_more hstep, hrun], hseen⟩
      · rintro ⟨before, looked, after, inner, hleft, hrun, hseen⟩
        cases before with
        | nil =>
            simp only [List.nil_append, List.cons.injEq] at hleft
            simp only [run_nil, Outcome.more.injEq] at hrun
            exact Or.inl (by rw [hleft.1, hrun]; exact hseen)
        | cons first before =>
            simp only [List.cons_append, List.cons.injEq] at hleft
            obtain ⟨rfl, hleft⟩ := hleft
            cases hstep : step position state symbol with
            | stop ended =>
                rw [run_cons_stop hstep] at hrun
                cases hrun
            | more next =>
                rw [run_cons_more hstep] at hrun
                exact Or.inr (ih.mpr ⟨before, looked, after, inner, hleft, hrun, hseen⟩)

/-- A property of every result a step can give is one of the scan's result. -/
theorem result_of_run_stop {P : Result → Prop}
    (hstep : ∀ position state symbol ended,
      step position state symbol = .stop ended → P ended)
    (hrun : run step position state left = .stop result rest) : P result := by
  have hmore : ∀ position state symbol next, True →
      step position state symbol = .more next → True := fun _ _ _ _ _ _ => trivial
  have hstop : ∀ position state symbol ended, True →
      step position state symbol = .stop ended → P ended := by
    intro position state symbol ended _ hended
    exact hstep position state symbol ended hended
  obtain ⟨_, _, hP⟩ := result_of_invariant hmore hstop trivial hrun
  exact hP

end Run

/-- What a map of the states and one of the results do to an outcome. -/
def Verdict.map {State' Result' : Type*} (onState : State → State')
    (onResult : Result → Result') : Verdict State Result → Verdict State' Result'
  | .more state => .more (onState state)
  | .stop result => .stop (onResult result)

def Outcome.map {State' Result' : Type*} (onState : State → State')
    (onResult : Result → Result') :
    Outcome State Symbol Result → Outcome State' Symbol Result'
  | .more state => .more (onState state)
  | .stop result rest => .stop (onResult result) rest

/-- A part of the state that no step looks at can be changed before the scan or
after it. -/
theorem run_map {State' Result' : Type*}
    {step : ℕ → State → Symbol → Verdict State Result}
    {step' : ℕ → State' → Symbol → Verdict State' Result'}
    (onState : State → State') (onResult : Result → Result')
    (hstep : ∀ position state symbol, step' position (onState state) symbol =
      (step position state symbol).map onState onResult)
    (position : ℕ) (state : State) (input : List Symbol) :
    run step' position (onState state) input =
      (run step position state input).map onState onResult := by
  induction input generalizing position state with
  | nil => rfl
  | cons symbol input ih =>
      have hsymbol := hstep position state symbol
      cases hverdict : step position state symbol with
      | more next =>
          rw [hverdict] at hsymbol
          rw [run_cons_more hverdict, run_cons_more hsymbol, ih]
      | stop result =>
          rw [hverdict] at hsymbol
          rw [run_cons_stop hverdict, run_cons_stop hsymbol]
          rfl

/-- Two steps that agree on the positions a scan visits give the same scan. -/
theorem run_congr {left right : ℕ → State → Symbol → Verdict State Result}
    {position : ℕ} {state : State} {input : List Symbol}
    (hagree : ∀ at' state symbol, position ≤ at' → at' < position + input.length →
      left at' state symbol = right at' state symbol) :
    run left position state input = run right position state input := by
  induction input generalizing position state with
  | nil => rfl
  | cons symbol input ih =>
      have hhead := hagree position state symbol (Nat.le_refl _) (by simp)
      have htail : ∀ next, run left (position + 1) next input =
          run right (position + 1) next input := by
        intro next
        apply ih
        intro at' state symbol hlow hhigh
        apply hagree at' state symbol (by omega)
        simp only [List.length_cons]
        omega
      simp only [run, hhead, htail]

end Night.Scanner
