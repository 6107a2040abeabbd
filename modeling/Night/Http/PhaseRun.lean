import Night.Http.PhaseHandlers

/-!
# `night_http_core_run_phases`

The request walks through the array of phase handlers.  What the handlers return
and what they do to the request is a parameter; the checkers turn it into moves of
`phase_handler`, into the end of the run, or into `night_http_finalize_request`.
-/

namespace Night.PhaseRun

open Night.PhaseHandlers

/-! ## Codes -/

def nightOk : ℤ := 0
def nightError : ℤ := -1
def nightAgain : ℤ := -2
def nightDeclined : ℤ := -3
def nightDone : ℤ := -4

def nightHttpForbidden : ℤ := 403
def nightHttpNotFound : ℤ := 404
def nightHttpInternalServerError : ℤ := 500

/-- A code that must reach the client: it neither passes the request on nor takes it
over. -/
def IsResponse (code : ℤ) : Prop :=
  code ≠ nightOk ∧ code ≠ nightAgain ∧ code ≠ nightDeclined ∧ code ≠ nightDone

/-- The codes by which a handler suspends the request or takes it over. -/
def HandsOver (code : ℤ) : Prop := code = nightAgain ∨ code = nightDone

instance : DecidablePred IsResponse := fun _ => inferInstanceAs (Decidable (_ ∧ _))
instance : DecidablePred HandsOver := fun _ => inferInstanceAs (Decidable (_ ∨ _))

/-! ## Checkers -/

/-- The fields of a request that the checkers look at.  `contentHandler` is what
`r->content_handler` returns when it is called, or `none` for `NULL`. -/
structure Request where
  phaseHandler : ℕ
  uriChanged : Bool
  contentHandler : Option ℤ
  isMain : Bool
  internal : Bool
  deriving DecidableEq, Repr

/-- What a handler returns and leaves in the request. -/
structure Answer where
  code : ℤ
  uriChanged : Bool
  contentHandler : Option ℤ
  deriving DecidableEq, Repr

/-- The handlers: what the one at an index does to a request, what
`night_http_core_find_location` returns, and whether the location it has found is
marked `internal`. -/
structure Behaviour where
  call : ℕ → Request → Answer
  findLocation : Request → ℤ
  locationInternal : Request → Bool

/-- What a checker has done: its return code, the request, the code of the handler it
has called, and the code it has finalized the request with. -/
structure Checked where
  rc : ℤ
  request : Request
  called : Option ℤ
  finalized : Option ℤ
  deriving DecidableEq, Repr

/-- `r->phase_handler++; return NIGHT_AGAIN;` -/
def goOn (r : Request) (called : Option ℤ) : Checked :=
  ⟨nightAgain, { r with phaseHandler := r.phaseHandler + 1 }, called, none⟩

/-- `r->phase_handler = ph->next; return NIGHT_AGAIN;` -/
def jump (next : ℕ) (r : Request) (called : Option ℤ) : Checked :=
  ⟨nightAgain, { r with phaseHandler := next }, called, none⟩

/-- `night_http_finalize_request(r, code); return NIGHT_OK;` -/
def finalize (code : ℤ) (r : Request) (called : Option ℤ) : Checked :=
  ⟨nightOk, r, called, some code⟩

/-- `return NIGHT_OK;` -/
def leave (r : Request) (called : Option ℤ) : Checked :=
  ⟨nightOk, r, called, none⟩

/-- The request after `ph->handler(r)`. -/
def answered (answer : Answer) (r : Request) : Request :=
  { r with uriChanged := answer.uriChanged, contentHandler := answer.contentHandler }

variable {Handler : Type*}

/-- The memory at an index of the array: a written entry, a zeroed entry behind them,
or nothing when the index is behind the allocated memory. -/
def entryAt (engine : PhaseEngine Handler) (index : ℕ) : Option (PhaseHandler Handler) :=
  match engine.handlers[index]? with
  | some entry => some entry
  | none =>
      if index * sizeofPhaseHandler + sizeofPointer ≤ engine.allocated then
        some ⟨none, none, 0⟩
      else none

/-- `ph++; if (ph->checker)`. -/
def hasNextChecker (engine : PhaseEngine Handler) (index : ℕ) : Bool :=
  match entryAt engine (index + 1) with
  | some entry => entry.checker.isSome
  | none => false

def nightHttpCoreRewritePhase (behaviour : Behaviour) (r : Request) : Checked :=
  let answer := behaviour.call r.phaseHandler r
  let r := answered answer r
  if answer.code = nightDeclined then goOn r (some answer.code)
  else if answer.code = nightDone then leave r (some answer.code)
  else finalize answer.code r (some answer.code)

def nightHttpCoreFindConfigPhase (behaviour : Behaviour) (r : Request) : Checked :=
  let r := { r with contentHandler := none, uriChanged := false }
  if behaviour.findLocation r = nightError then
    finalize nightHttpInternalServerError r none
  else if !r.internal && behaviour.locationInternal r then
    finalize nightHttpNotFound r none
  else goOn r none

def nightHttpCorePostRewritePhase (r : Request) : Checked :=
  if !r.uriChanged then goOn r none else leave r none

def nightHttpCoreAccessPhase (behaviour : Behaviour) (next : ℕ) (r : Request) : Checked :=
  if !r.isMain then jump next r none
  else
    let answer := behaviour.call r.phaseHandler r
    let r := answered answer r
    if answer.code = nightDeclined then goOn r (some answer.code)
    else leave r (some answer.code)

def nightHttpCorePostAccessPhase (r : Request) : Checked := goOn r none

def nightHttpCoreContentPhase (engine : PhaseEngine Handler) (behaviour : Behaviour)
    (r : Request) : Checked :=
  match r.contentHandler with
  | some code => finalize code r (some code)
  | none =>
      let answer := behaviour.call r.phaseHandler r
      let r := answered answer r
      if answer.code ≠ nightDeclined then finalize answer.code r (some answer.code)
      else if hasNextChecker engine r.phaseHandler then goOn r (some answer.code)
      else leave r (some answer.code)

def nightHttpCoreGenericPhase (behaviour : Behaviour) (next : ℕ) (r : Request) : Checked :=
  let answer := behaviour.call r.phaseHandler r
  let r := answered answer r
  if answer.code = nightOk then jump next r (some answer.code)
  else if answer.code = nightDeclined then goOn r (some answer.code)
  else leave r (some answer.code)

/-- `ph[r->phase_handler].checker(r, &ph[r->phase_handler])`. -/
def check (engine : PhaseEngine Handler) (behaviour : Behaviour) (checker : Checker)
    (next : ℕ) (r : Request) : Checked :=
  match checker with
  | .coreRewritePhase => nightHttpCoreRewritePhase behaviour r
  | .coreFindConfigPhase => nightHttpCoreFindConfigPhase behaviour r
  | .corePostRewritePhase => nightHttpCorePostRewritePhase r
  | .coreAccessPhase => nightHttpCoreAccessPhase behaviour next r
  | .corePostAccessPhase => nightHttpCorePostAccessPhase r
  | .coreContentPhase => nightHttpCoreContentPhase engine behaviour r
  | .coreGenericPhase => nightHttpCoreGenericPhase behaviour next r

/-! ## Runs -/

/-- One turn of the loop: the checker and what it has done. -/
structure Turn where
  checker : Checker
  checked : Checked
  deriving DecidableEq, Repr

/-- How the loop was left: a checker returned `NIGHT_OK`, the checker was `NULL`, or
`phase_handler` was behind the array; `running` is a loop that is still going. -/
inductive Ending where
  | returned
  | noChecker
  | outOfBounds
  | running
  deriving DecidableEq, Repr

/-- A run: the requests at the head of the loop, its turns, and how it was left. -/
structure Run where
  visited : List Request
  turns : List Turn
  ending : Ending
  deriving DecidableEq, Repr

/-- `night_http_core_run_phases` for at most `fuel` turns. -/
def nightHttpCoreRunPhases (engine : PhaseEngine Handler) (behaviour : Behaviour) :
    ℕ → Request → Run
  | 0, _ => ⟨[], [], .running⟩
  | fuel + 1, r =>
      match entryAt engine r.phaseHandler with
      | none => ⟨[r], [], .outOfBounds⟩
      | some ⟨none, _, _⟩ => ⟨[r], [], .noChecker⟩
      | some ⟨some checker, _, next⟩ =>
          let checked := check engine behaviour checker next r
          if checked.rc = nightOk then ⟨[r], [⟨checker, checked⟩], .returned⟩
          else
            let rest := nightHttpCoreRunPhases engine behaviour fuel checked.request
            ⟨r :: rest.visited, ⟨checker, checked⟩ :: rest.turns, rest.ending⟩

/-- A turn after which the client is answered, or which has left the request to
someone else: the request was finalized with the code of the handler, with the code
of a failed search for the location, or with 404 or 403 because no content handler
has accepted it. -/
def Turn.Settles (turn : Turn) : Prop :=
  (∃ code, turn.checked.finalized = some code ∧
    (turn.checked.called = some code ∨
      (turn.checker = .coreFindConfigPhase ∧
        (code = nightHttpInternalServerError ∨ code = nightHttpNotFound)) ∨
      (turn.checker = .coreContentPhase ∧
        (code = nightHttpNotFound ∨ code = nightHttpForbidden)))) ∨
  ∃ code, turn.checked.called = some code ∧ HandsOver code

/-- What a run owes to the client. -/
structure AnswersClient (run : Run) : Prop where
  ends : run.ending = .returned ∨ run.ending = .noChecker
  settled : ∃ turn, run.turns.getLast? = some turn ∧ turn.Settles
  access_goes_on : ∀ turn ∈ run.turns, turn.checker = .coreAccessPhase →
    turn.checked.called = some nightOk → turn.checked.rc = nightAgain
  nothing_dropped : ∀ turn ∈ run.turns, turn.checker ≠ .coreGenericPhase →
    ∀ code, turn.checked.called = some code → IsResponse code →
      turn.checked.finalized = some code

/-- The requests at which no defect shows: there is a checker, a rewritten URI does
not reach the post-rewrite checker, access handlers only decline or take the request
over, generic handlers do not answer, and the last content handler accepts. -/
def AvoidsDefects (engine : PhaseEngine Handler) (behaviour : Behaviour) (r : Request) :
    Prop :=
  match entryAt engine r.phaseHandler with
  | none => False
  | some ⟨none, _, _⟩ => False
  | some ⟨some .corePostRewritePhase, _, _⟩ => r.uriChanged = false
  | some ⟨some .coreAccessPhase, _, _⟩ =>
      r.isMain → (behaviour.call r.phaseHandler r).code = nightDeclined ∨
        HandsOver (behaviour.call r.phaseHandler r).code
  | some ⟨some .coreGenericPhase, _, _⟩ => ¬ IsResponse (behaviour.call r.phaseHandler r).code
  | some ⟨some .coreContentPhase, _, _⟩ =>
      r.contentHandler = none → (behaviour.call r.phaseHandler r).code = nightDeclined →
        hasNextChecker engine r.phaseHandler
  | some _ => True

/-! ## One turn -/

section Turns

variable {engine : PhaseEngine Handler} {behaviour : Behaviour} {r : Request}
variable {checker : Checker} {handler : Option Handler} {next : ℕ}

/-- The indices that a checker jumps to lie ahead. -/
def JumpsAhead (engine : PhaseEngine Handler) : Prop :=
  ∀ index checker handler next,
    entryAt engine index = some ⟨some checker, handler, next⟩ →
    checker = .coreAccessPhase ∨ checker = .coreGenericPhase → index < next

/-- A checker that passes the request on. -/
structure PassesOn (turn : Turn) (r : Request) : Prop where
  rc : turn.checked.rc = nightAgain
  ahead : r.phaseHandler < turn.checked.request.phaseHandler
  finalized : turn.checked.finalized = none
  called : ∀ code, turn.checked.called = some code → code = nightOk ∨ code = nightDeclined

theorem PassesOn.not_settles {turn : Turn} (hpasses : PassesOn turn r) : ¬ turn.Settles := by
  rintro (⟨code, hfinalized, -⟩ | ⟨code, hcalled, hover⟩)
  · rw [hpasses.finalized] at hfinalized
    cases hfinalized
  · rcases hpasses.called code hcalled with rfl | rfl
    all_goals exact absurd hover (by decide)

theorem PassesOn.not_isResponse {turn : Turn} (hpasses : PassesOn turn r) {code : ℤ}
    (hcalled : turn.checked.called = some code) : ¬ IsResponse code := by
  rcases hpasses.called code hcalled with rfl | rfl
  all_goals decide

theorem passesOn_goOn (r' : Request) (hr : r'.phaseHandler = r.phaseHandler)
    {called : Option ℤ} (hcalled : ∀ code, called = some code →
      code = nightOk ∨ code = nightDeclined) :
    PassesOn ⟨checker, goOn r' called⟩ r := by
  refine ⟨rfl, ?_, rfl, hcalled⟩
  show r.phaseHandler < r'.phaseHandler + 1
  omega

theorem passesOn_jump (r' : Request) (hnext : r.phaseHandler < next)
    {called : Option ℤ} (hcalled : ∀ code, called = some code →
      code = nightOk ∨ code = nightDeclined) :
    PassesOn ⟨checker, jump next r' called⟩ r :=
  ⟨rfl, hnext, rfl, hcalled⟩

/-- What a turn owes to the client when the run ends with it. -/
structure Owes (turn : Turn) : Prop where
  settles : turn.Settles
  access_goes_on : turn.checker = .coreAccessPhase →
    turn.checked.called = some nightOk → turn.checked.rc = nightAgain
  nothing_dropped : turn.checker ≠ .coreGenericPhase →
    ∀ code, turn.checked.called = some code → IsResponse code →
      turn.checked.finalized = some code

theorem owes_finalize (code : ℤ) (r' : Request) (hchecker : checker ≠ .coreAccessPhase) :
    Owes ⟨checker, finalize code r' (some code)⟩ := by
  refine ⟨Or.inl ⟨code, rfl, Or.inl rfl⟩, ?_, ?_⟩
  · intro haccess
    exact absurd haccess hchecker
  · intro _ other hcalled _
    exact hcalled

theorem owes_finalize_findConfig {code : ℤ} (r' : Request)
    (hcode : code = nightHttpInternalServerError ∨ code = nightHttpNotFound) :
    Owes ⟨.coreFindConfigPhase, finalize code r' none⟩ := by
  refine ⟨Or.inl ⟨code, rfl, Or.inr (Or.inl ⟨rfl, hcode⟩)⟩, ?_, ?_⟩
  · intro haccess
    cases haccess
  · intro _ other hcalled _
    cases hcalled

/-- A checker that leaves without finalizing is in order only when the handler has
taken the request over. -/
theorem owes_leave_iff {r' : Request} {called : Option ℤ} :
    Owes ⟨checker, leave r' called⟩ ↔ ∃ code, called = some code ∧ HandsOver code := by
  constructor
  · intro howes
    rcases howes.settles with ⟨code, hfinalized, -⟩ | hover
    · cases hfinalized
    · exact hover
  · rintro ⟨code, hcalled, hover⟩
    refine ⟨Or.inr ⟨code, hcalled, hover⟩, ?_, ?_⟩
    · intro _ hok
      rw [Option.some.inj (hcalled.symm.trans hok)] at hover
      exact absurd hover (by decide)
    · intro _ other hother hresponse
      rw [← Option.some.inj (hcalled.symm.trans hother)] at hresponse
      rcases hover with rfl | rfl
      all_goals exact absurd hresponse (by decide)

theorem not_called (code : ℤ) (hnone : none = some code) :
    code = nightOk ∨ code = nightDeclined := by
  cases hnone

theorem declined_or_ok {code : ℤ} (hcode : code = nightOk ∨ code = nightDeclined)
    (other : ℤ) (hother : some code = some other) :
    other = nightOk ∨ other = nightDeclined := by
  rw [← Option.some.inj hother]
  exact hcode

/-- A turn either passes the request on, and then no defect shows at the request, or
it ends the run, and then it owes the client nothing exactly when none shows. -/
theorem check_cases (behaviour : Behaviour) (hjumps : JumpsAhead engine)
    (hentry : entryAt engine r.phaseHandler = some ⟨some checker, handler, next⟩) :
    (PassesOn ⟨checker, check engine behaviour checker next r⟩ r ∧
      AvoidsDefects engine behaviour r) ∨
    ((check engine behaviour checker next r).rc = nightOk ∧
      (Owes ⟨checker, check engine behaviour checker next r⟩ ↔
        AvoidsDefects engine behaviour r)) := by
  have hahead := hjumps r.phaseHandler checker handler next hentry
  generalize hanswer : behaviour.call r.phaseHandler r = answer
  cases checker with
  | corePostAccessPhase =>
      left
      refine ⟨passesOn_goOn r rfl not_called, ?_⟩
      simp only [AvoidsDefects, hentry]
  | coreFindConfigPhase =>
      have havoids : AvoidsDefects engine behaviour r := by
        simp only [AvoidsDefects, hentry]
      simp only [check, nightHttpCoreFindConfigPhase]
      split_ifs
      · exact Or.inr ⟨rfl, iff_of_true (owes_finalize_findConfig _ (Or.inl rfl)) havoids⟩
      · exact Or.inr ⟨rfl, iff_of_true (owes_finalize_findConfig _ (Or.inr rfl)) havoids⟩
      · exact Or.inl ⟨passesOn_goOn _ (by rfl) not_called, havoids⟩
  | corePostRewritePhase =>
      have havoids : AvoidsDefects engine behaviour r ↔ r.uriChanged = false := by
        simp only [AvoidsDefects, hentry]
      cases huri : r.uriChanged with
      | false =>
          left
          simp only [check, nightHttpCorePostRewritePhase, huri, Bool.not_false, if_true]
          exact ⟨passesOn_goOn r rfl not_called, havoids.mpr huri⟩
      | true =>
          right
          simp only [check, nightHttpCorePostRewritePhase, huri, Bool.not_true,
            Bool.false_eq_true, if_false]
          refine ⟨rfl, ?_⟩
          rw [owes_leave_iff, havoids, huri]
          simp
  | coreRewritePhase =>
      have havoids : AvoidsDefects engine behaviour r := by
        simp only [AvoidsDefects, hentry]
      simp only [check, nightHttpCoreRewritePhase, hanswer]
      split_ifs with hdeclined hdone
      · exact Or.inl ⟨passesOn_goOn _ (by rfl) (declined_or_ok (Or.inr hdeclined)), havoids⟩
      · have hover : Owes ⟨.coreRewritePhase, leave (answered answer r) (some answer.code)⟩ :=
          owes_leave_iff.mpr ⟨answer.code, rfl, Or.inr hdone⟩
        exact Or.inr ⟨rfl, iff_of_true hover havoids⟩
      · have howes : Owes ⟨.coreRewritePhase,
            finalize answer.code (answered answer r) (some answer.code)⟩ :=
          owes_finalize _ _ (by decide)
        exact Or.inr ⟨rfl, iff_of_true howes havoids⟩
  | coreAccessPhase =>
      have havoids : AvoidsDefects engine behaviour r ↔
          (r.isMain → answer.code = nightDeclined ∨ HandsOver answer.code) := by
        simp only [AvoidsDefects, hentry, hanswer]
      cases hmain : r.isMain with
      | false =>
          left
          simp only [check, nightHttpCoreAccessPhase, hmain, Bool.not_false, if_true]
          refine ⟨passesOn_jump r (hahead (Or.inl rfl)) not_called, ?_⟩
          rw [havoids, hmain]
          simp
      | true =>
          simp only [check, nightHttpCoreAccessPhase, hmain, Bool.not_true,
            Bool.false_eq_true, if_false, hanswer]
          split_ifs with hdeclined
          · refine Or.inl ⟨passesOn_goOn _ (by rfl) (declined_or_ok (Or.inr hdeclined)), ?_⟩
            rw [havoids]
            exact fun _ => Or.inl hdeclined
          · refine Or.inr ⟨rfl, ?_⟩
            rw [owes_leave_iff, havoids, hmain]
            simp [hdeclined]
  | coreGenericPhase =>
      have havoids : AvoidsDefects engine behaviour r ↔ ¬ IsResponse answer.code := by
        simp only [AvoidsDefects, hentry, hanswer]
      simp only [check, nightHttpCoreGenericPhase, hanswer]
      split_ifs with hok hdeclined
      · refine Or.inl ⟨passesOn_jump _ (hahead (Or.inr rfl)) (declined_or_ok (Or.inl hok)), ?_⟩
        rw [havoids, hok]
        decide
      · refine Or.inl ⟨passesOn_goOn _ (by rfl) (declined_or_ok (Or.inr hdeclined)), ?_⟩
        rw [havoids, hdeclined]
        decide
      · refine Or.inr ⟨rfl, ?_⟩
        rw [owes_leave_iff, havoids]
        simp only [IsResponse, HandsOver, Option.some.injEq, exists_eq_left']
        tauto
  | coreContentPhase =>
      have havoids : AvoidsDefects engine behaviour r ↔
          (r.contentHandler = none → answer.code = nightDeclined →
            hasNextChecker engine r.phaseHandler) := by
        simp only [AvoidsDefects, hentry, hanswer]
      cases hcontent : r.contentHandler with
      | some code =>
          right
          simp only [check, nightHttpCoreContentPhase, hcontent]
          refine ⟨rfl, iff_of_true (owes_finalize _ _ (by decide)) ?_⟩
          rw [havoids, hcontent]
          simp
      | none =>
          simp only [check, nightHttpCoreContentPhase, hcontent, hanswer]
          split_ifs with hdeclined hnext
          · refine Or.inr ⟨rfl, iff_of_true (owes_finalize _ _ (by decide)) ?_⟩
            rw [havoids]
            exact fun _ hcode => absurd hcode hdeclined
          · rw [ne_eq, not_not] at hdeclined
            refine Or.inl ⟨passesOn_goOn _ (by rfl) (declined_or_ok (Or.inr hdeclined)), ?_⟩
            rw [havoids]
            exact fun _ _ => hnext
          · rw [ne_eq, not_not] at hdeclined
            refine Or.inr ⟨rfl, ?_⟩
            rw [owes_leave_iff, havoids, hcontent, hdeclined]
            apply iff_of_false
            · rintro ⟨code, hcode, hover⟩
              rw [← Option.some.inj hcode] at hover
              exact absurd hover (by decide)
            · intro hgoes
              exact hnext (hgoes rfl rfl)

end Turns

/-! ## Whole runs -/

section Runs

variable {engine : PhaseEngine Handler} {behaviour : Behaviour}

theorem lt_length_of_checker {index : ℕ} {checker : Checker} {handler : Option Handler}
    {next : ℕ} (hentry : entryAt engine index = some ⟨some checker, handler, next⟩) :
    index < engine.handlers.length := by
  by_contra hbehind
  rw [entryAt, List.getElem?_eq_none (by omega)] at hentry
  simp only at hentry
  split_ifs at hentry
  simp at hentry

/-- The first turn passes the request on: the run owes what its rest owes. -/
theorem answersClient_cons {r : Request} {turn : Turn} {rest : Run}
    (hpasses : PassesOn turn r) :
    AnswersClient ⟨r :: rest.visited, turn :: rest.turns, rest.ending⟩ ↔
      AnswersClient rest := by
  constructor
  · rintro ⟨hends, ⟨last, hlast, hsettles⟩, haccess, hdropped⟩
    refine ⟨hends, ?_, ?_, ?_⟩
    · cases hturns : rest.turns with
      | nil =>
          rw [hturns, List.getLast?_singleton] at hlast
          rw [← Option.some.inj hlast] at hsettles
          exact absurd hsettles hpasses.not_settles
      | cons second turns =>
          rw [hturns, List.getLast?_cons_cons] at hlast
          exact ⟨last, hlast, hsettles⟩
    · intro other hother
      exact haccess other (List.mem_cons_of_mem _ hother)
    · intro other hother
      exact hdropped other (List.mem_cons_of_mem _ hother)
  · rintro ⟨hends, ⟨last, hlast, hsettles⟩, haccess, hdropped⟩
    refine ⟨hends, ⟨last, ?_, hsettles⟩, ?_, ?_⟩
    · cases hturns : rest.turns with
      | nil =>
          rw [hturns] at hlast
          cases hlast
      | cons second turns =>
          rw [List.getLast?_cons_cons, ← hturns]
          exact hlast
    · intro other hother hchecker hcalled
      rcases List.mem_cons.mp hother with heq | hother
      · rw [heq]
        exact hpasses.rc
      · exact haccess other hother hchecker hcalled
    · intro other hother hchecker code hcalled hresponse
      rcases List.mem_cons.mp hother with heq | hother
      · rw [heq] at hcalled
        exact absurd hresponse (hpasses.not_isResponse hcalled)
      · exact hdropped other hother hchecker code hcalled hresponse

/-- The only turn ends the run: the run owes what the turn owes. -/
theorem answersClient_last {r : Request} {turn : Turn} :
    AnswersClient ⟨[r], [turn], .returned⟩ ↔ Owes turn := by
  constructor
  · rintro ⟨-, ⟨last, hlast, hsettles⟩, haccess, hdropped⟩
    rw [List.getLast?_singleton] at hlast
    rw [← Option.some.inj hlast] at hsettles
    exact ⟨hsettles, haccess turn (by simp), hdropped turn (by simp)⟩
  · rintro ⟨hsettles, haccess, hdropped⟩
    refine ⟨Or.inl rfl, ⟨turn, rfl, hsettles⟩, ?_, ?_⟩
    · intro other hother
      rw [List.mem_singleton.mp hother]
      exact haccess
    · intro other hother
      rw [List.mem_singleton.mp hother]
      exact hdropped

theorem not_answersClient_of_no_turn {r : Request} {ending : Ending} :
    ¬ AnswersClient ⟨[r], [], ending⟩ := by
  rintro ⟨-, ⟨turn, hturn, -⟩, -, -⟩
  cases hturn

/-- Induction over the turns; `phase_handler` grows with each of them, so that the
fuel left always reaches behind the array. -/
theorem run_spec (hjumps : JumpsAhead engine) (fuel : ℕ) (r : Request)
    (hpos : 0 < fuel) (hfuel : engine.handlers.length < fuel + r.phaseHandler) :
    (nightHttpCoreRunPhases engine behaviour fuel r).ending ≠ .running ∧
      (AnswersClient (nightHttpCoreRunPhases engine behaviour fuel r) ↔
        ∀ visited ∈ (nightHttpCoreRunPhases engine behaviour fuel r).visited,
          AvoidsDefects engine behaviour visited) := by
  induction fuel generalizing r with
  | zero => exact absurd hpos (Nat.lt_irrefl 0)
  | succ fuel ih =>
      cases hentry : entryAt engine r.phaseHandler with
      | none =>
          have havoids : ¬ AvoidsDefects engine behaviour r := by
            simp only [AvoidsDefects, hentry, not_false_eq_true]
          simp only [nightHttpCoreRunPhases, hentry]
          refine ⟨by decide, iff_of_false not_answersClient_of_no_turn ?_⟩
          intro hall
          exact havoids (hall r (by simp))
      | some entry =>
          obtain ⟨checker, handler, next⟩ := entry
          cases checker with
          | none =>
              have havoids : ¬ AvoidsDefects engine behaviour r := by
                simp only [AvoidsDefects, hentry, not_false_eq_true]
              simp only [nightHttpCoreRunPhases, hentry]
              refine ⟨by decide, iff_of_false not_answersClient_of_no_turn ?_⟩
              intro hall
              exact havoids (hall r (by simp))
          | some checker =>
              have hinside := lt_length_of_checker hentry
              simp only [nightHttpCoreRunPhases, hentry]
              rcases check_cases behaviour hjumps hentry with
                ⟨hpasses, havoids⟩ | ⟨hrc, howes⟩
              · have hrc : (check engine behaviour checker next r).rc ≠ nightOk := by
                  rw [show (check engine behaviour checker next r).rc = nightAgain from
                    hpasses.rc]
                  decide
                have hahead : r.phaseHandler <
                    (check engine behaviour checker next r).request.phaseHandler :=
                  hpasses.ahead
                obtain ⟨hrunning, hiff⟩ := ih
                  (check engine behaviour checker next r).request (by omega) (by omega)
                simp only [if_neg hrc]
                refine ⟨hrunning, ?_⟩
                rw [answersClient_cons hpasses, hiff, List.forall_mem_cons]
                exact (and_iff_right havoids).symm
              · simp only [if_pos hrc]
                refine ⟨by decide, ?_⟩
                rw [answersClient_last, howes]
                simp

end Runs

/-! ## The array that the server builds -/

theorem jumpsAhead_init (phases : Phase → List Handler) :
    JumpsAhead (nightHttpInitPhaseHandlers phases) := by
  intro index checker handler next hentry hchecker
  have hinside := lt_length_of_checker hentry
  have hget : (nightHttpInitPhaseHandlers phases).handlers[index]? =
      some ⟨some checker, handler, next⟩ := by
    rw [entryAt, List.getElem?_eq_getElem hinside] at hentry
    rw [List.getElem?_eq_getElem hinside]
    exact hentry
  exact lt_next_of_getElem? phases hget hchecker

/-- For every registration and every behaviour of the handlers, each run ends, and it
answers the client exactly when none of the requests at the head of the loop shows a
defect. -/
theorem run_answersClient_iff (phases : Phase → List Handler) (behaviour : Behaviour)
    (r : Request) (more : ℕ) :
    let engine := nightHttpInitPhaseHandlers phases
    let run := nightHttpCoreRunPhases engine behaviour (engine.handlers.length + 1 + more) r
    run.ending ≠ .running ∧
      (AnswersClient run ↔ ∀ visited ∈ run.visited, AvoidsDefects engine behaviour visited) :=
  run_spec (jumpsAhead_init phases) _ r (by omega) (by omega)

/-- An access handler that returns `NIGHT_OK` ends the run, although a content handler
is registered. -/
def accessAllows : Phase → List Unit
  | .access => [()]
  | .content => [()]
  | _ => []

theorem not_answersClient_accessAllows :
    ¬ AnswersClient (nightHttpCoreRunPhases (nightHttpInitPhaseHandlers accessAllows)
      ⟨fun _ _ => ⟨nightOk, false, none⟩, fun _ => nightOk, fun _ => false⟩ 5
      ⟨0, false, none, true, false⟩) := by
  intro hanswers
  obtain ⟨turn, hlast, hsettles⟩ := hanswers.settled
  have hturn : turn = ⟨.coreAccessPhase,
      ⟨nightOk, ⟨1, false, none, true, false⟩, some nightOk, none⟩⟩ := by
    apply Option.some.inj
    rw [← hlast]
    decide
  rw [hturn] at hsettles
  rcases hsettles with ⟨code, hfinalized, -⟩ | ⟨code, hcalled, hover⟩
  · cases hfinalized
  · rw [← Option.some.inj hcalled] at hover
    exact absurd hover (by decide)

end Night.PhaseRun
