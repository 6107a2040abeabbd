import Night.Http.Connection
import Night.Http.PhaseRun

/-!
# `night_http_internal_redirect`

A handler redirects the request to another URI by a run of the phases of its own, inside of
the run that has called it.  Every redirect takes a reference to the request, which the end of
its run gives back with `night_http_finalize_request`.
-/

namespace Night.Redirect

open Night.Connections
open Night.HttpConnection
open Night.PhaseHandlers
open Night.PhaseRun (Behaviour Checked entryAt check goOn jump leave finalize nightOk nightDone
  nightDeclined nightHttpInternalServerError nightHttpCoreRewritePhase
  nightHttpCoreFindConfigPhase nightHttpCorePostRewritePhase nightHttpCoreAccessPhase
  nightHttpCoreContentPhase nightHttpCoreGenericPhase)

variable {Handler : Type*}

/-! ## Events -/

/-- What is recorded: the head of the phase loop, the call and the return of a redirect, and
the call of `night_http_finalize_request`. -/
inductive Kind where
  | turn
  | redirect
  | returned
  | finalize
  deriving DecidableEq, Repr

/-- The request at an event: `depth` redirects are in progress, and `abandoned` redirected runs
have ended without `night_http_finalize_request`. -/
structure Event where
  kind : Kind
  depth : ℕ
  abandoned : ℕ
  count : ℤ
  uriChanges : BitVec 4
  pool : Bool
  deriving DecidableEq, Repr

/-- The request as the checkers and as its end see it, the connection, and what is recorded. -/
structure State where
  request : PhaseRun.Request
  main : HttpConnection.Request
  uriChanges : BitVec 4
  cycle : Cycle
  abandoned : ℕ
  redirects : ℕ
  frees : ℕ
  trace : List Event

def State.see (kind : Kind) (depth : ℕ) (s : State) : State :=
  { s with trace := s.trace ++
    [⟨kind, depth, s.abandoned, s.main.count, s.uriChanges, s.main.pool⟩] }

/-- `r->main->count++`. -/
def State.hold (s : State) : State :=
  { s with main := { s.main with count := s.main.count + 1 } }

/-- The server and the handlers: what they do in the run at each depth, and whether the
`NIGHT_DONE` that a handler returns there is that of a redirect. -/
structure Env (Handler : Type*) where
  phases : Phase → List Handler
  flags : Flags
  input : KeepaliveInput
  behaviour : ℕ → Behaviour
  redirects : ℕ → Bool

def Env.engine (env : Env Handler) : PhaseEngine Handler := nightHttpInitPhaseHandlers env.phases

/-! ## The run of the phases -/

/-- `night_http_finalize_request`. -/
def finalizeRequest (env : Env Handler) (depth : ℕ) (rc : ℤ) (s : State) : State :=
  let s := s.see .finalize depth
  let ended := nightHttpFinalizeRequest env.flags env.input s.main rc s.cycle
  { s with
    main := ended.1
    cycle := ended.2
    frees := if s.main.pool && !ended.1.pool then s.frees + 1 else s.frees }

/-- `night_http_internal_redirect`, by what `night_http_handler` does; the second component says
whether that has returned. -/
def nightHttpInternalRedirect (env : Env Handler) (handler : State → State × Bool) (depth : ℕ)
    (s : State) : State × Bool :=
  let s := s.see .redirect depth
  let s := { s with uriChanges := s.uriChanges - 1 }
  if s.uriChanges = 0 then
    let s := finalizeRequest env (depth + 1) nightHttpInternalServerError s.hold
    (s.see .returned depth, true)
  else
    let s := { s with request := { s.request with internal := true } }
    let handled := handler { s.hold with redirects := s.redirects + 1 }
    if handled.2 then (handled.1.see .returned depth, true) else handled

/-- Where `night_http_handler` lets the loop begin. -/
def entered (env : Env Handler) (s : State) : State :=
  { s with
    request := { s.request with
      phaseHandler := if s.request.internal then env.engine.serverRewriteIndex.toNat else 0 } }

/-- The end of a run without `night_http_finalize_request`. -/
def abandon (depth : ℕ) (s : State) : State :=
  if depth = 0 then s else { s with abandoned := s.abandoned + 1 }

/-- `night_http_core_run_phases` for at most `fuel` turns, with the runs of the redirects inside
of it; the second component says whether it has returned. -/
def nightHttpCoreRunPhases (env : Env Handler) : ℕ → ℕ → State → State × Bool
  | 0, _, s => (s, false)
  | fuel + 1, depth, s =>
      let s := s.see .turn depth
      match entryAt env.engine s.request.phaseHandler with
      | none => (abandon depth s, true)
      | some ⟨none, _, _⟩ => (abandon depth s, true)
      | some ⟨some checker, _, next⟩ =>
          let checked := check env.engine (env.behaviour depth) checker next s.request
          let s := { s with request := checked.request }
          let handled :=
            if checked.called = some nightDone ∧ env.redirects depth = true then
              nightHttpInternalRedirect env
                (fun s => nightHttpCoreRunPhases env fuel (depth + 1) (entered env s)) depth s
            else (s, true)
          if handled.2 = false then handled
          else
            let s :=
              match checked.finalized with
              | some code => finalizeRequest env depth code handled.1
              | none => handled.1
            if checked.rc = nightOk then
              (if checked.finalized.isSome then s else abandon depth s, true)
            else nightHttpCoreRunPhases env fuel depth s

/-- `night_http_handler`. -/
def nightHttpHandler (env : Env Handler) (fuel : ℕ) (s : State) : State × Bool :=
  nightHttpCoreRunPhases env fuel 0 (entered env s)

/-- `NIGHT_HTTP_MAX_URI_CHANGES + 1`. -/
def maxUriChanges : BitVec 4 := 11

/-- A request after `night_http_alloc_request`, with what its header has set. -/
def freshState (request : PhaseRun.Request) (connection : ℕ) (keepalive : Bool)
    (requestLineLen : ℕ) (cycle : Cycle) : State where
  request := request
  main := ⟨connection, 1, false, keepalive, true, 0, requestLineLen⟩
  uriChanges := maxUriChanges
  cycle := cycle
  abandoned := 0
  redirects := 0
  frees := 0
  trace := []

/-! ## The references -/

/-- At an event the request is not freed, and it has one reference of its own, one for each
redirect in progress, and those that were not given back.  The counter is not zero when it is
decremented. -/
structure Counted (event : Event) : Prop where
  count : event.count = 1 + event.depth + event.abandoned
  pool : event.pool = true
  changes : event.kind = .redirect → event.uriChanges ≠ 0
  depth : event.kind = .turn → event.depth ≤ 10

/-- What holds of a run at all times. -/
structure Lawful (s : State) : Prop where
  trace : ∀ event ∈ s.trace, Counted event
  count : 0 ≤ s.main.count
  frees : s.frees ≤ 1
  redirects : s.redirects ≤ 10

/-- What holds while `depth` redirects are in progress. -/
structure Held (depth : ℕ) (s : State) : Prop where
  count : s.main.count = 1 + depth + s.abandoned
  pool : s.main.pool = true
  frees : s.frees = 0
  redirects : s.redirects ≤ 10
  trace : ∀ event ∈ s.trace, Counted event

/-- Before its redirect a run is the innermost one. -/
structure Innermost (depth : ℕ) (s : State) : Prop where
  redirects : s.redirects = depth
  changes : s.uriChanges.toNat + depth = 11

theorem Held.lawful {depth : ℕ} {s : State} (hheld : Held depth s) : Lawful s where
  trace := hheld.trace
  count := by
    have hcount := hheld.count
    omega
  frees := by
    rw [hheld.frees]
    exact Nat.zero_le 1
  redirects := hheld.redirects

theorem Held.see {depth : ℕ} {s : State} (hheld : Held depth s) {kind : Kind}
    (hchanges : kind = .redirect → s.uriChanges ≠ 0) (hdepth : kind = .turn → depth ≤ 10) :
    Held depth (s.see kind depth) where
  count := hheld.count
  pool := hheld.pool
  frees := hheld.frees
  redirects := hheld.redirects
  trace := by
    intro event hevent
    rcases List.mem_append.mp hevent with hevent | hevent
    · exact hheld.trace event hevent
    · obtain rfl := List.mem_singleton.mp hevent
      exact ⟨hheld.count, hheld.pool, hchanges, hdepth⟩

theorem Held.hold {depth : ℕ} {s : State} (hheld : Held depth s) : Held (depth + 1) s.hold where
  count := by
    have hcount := hheld.count
    show s.main.count + 1 = 1 + ((depth + 1 : ℕ) : ℤ) + s.abandoned
    push_cast
    omega
  pool := hheld.pool
  frees := hheld.frees
  redirects := hheld.redirects
  trace := hheld.trace

/-- A request with other references loses one, and nothing else happens. -/
theorem finalizeRequest_of_two_le (flags : Flags) (input : KeepaliveInput)
    {r : HttpConnection.Request} (rc : ℤ) (s : Cycle) (hcount : 2 ≤ r.count) :
    nightHttpFinalizeRequest flags input r rc s = ({ r with count := r.count - 1 }, s) := by
  have hone : r.count ≠ 1 := by omega
  have hzero : r.count - 1 ≠ 0 := by omega
  have hclose : nightHttpCloseRequest r 0 s = ({ r with count := r.count - 1 }, s) := by
    rw [nightHttpCloseRequest]
    exact if_pos (Or.inl hzero)
  rw [nightHttpFinalizeRequest, nightHttpFinalizeConnection, if_pos hone, hclose, ite_self]

/-- The last reference is either dropped with the request or stays. -/
theorem finalizeRequest_count_of_one (flags : Flags) (input : KeepaliveInput)
    {r : HttpConnection.Request} (rc : ℤ) (s : Cycle) (hcount : r.count = 1) :
    (nightHttpFinalizeRequest flags input r rc s).1.count = 1 := by
  have hfree (r' : HttpConnection.Request) : (nightHttpFreeRequest r' 0 s).1.count = r'.count := by
    rw [nightHttpFreeRequest]
    split_ifs
    · rfl
    · rfl
  have hone : ¬ r.count ≠ 1 := not_not.mpr hcount
  rw [nightHttpFinalizeRequest, nightHttpFinalizeConnection, if_neg hone, ite_self]
  split_ifs
  · exact (hfree { r with keepalive := false }).trans hcount
  · exact hcount

/-- The end of a redirected run gives its reference back. -/
theorem Held.finalize {depth : ℕ} {s : State} (env : Env Handler) (hheld : Held (depth + 1) s)
    (rc : ℤ) : Held depth (finalizeRequest env (depth + 1) rc s) := by
  have hseen : Held (depth + 1) (s.see .finalize (depth + 1)) :=
    hheld.see (fun heq => nomatch heq) fun heq => nomatch heq
  have hcount := hseen.count
  have htwo : 2 ≤ (s.see .finalize (depth + 1)).main.count := by
    push_cast at hcount
    omega
  rw [finalizeRequest, finalizeRequest_of_two_le _ _ _ _ htwo]
  exact {
    count := by
      dsimp only
      push_cast at hcount
      omega
    pool := hseen.pool
    frees := by
      dsimp only
      rw [hseen.pool]
      exact hseen.frees
    redirects := hseen.redirects
    trace := hseen.trace }

/-- After the end of the first run at most one request is freed. -/
theorem Held.finalize_main {s : State} (env : Env Handler) (hheld : Held 0 s) (rc : ℤ) :
    Lawful (finalizeRequest env 0 rc s) := by
  have hseen : Held 0 (s.see .finalize 0) :=
    hheld.see (fun heq => nomatch heq) fun heq => nomatch heq
  have hcount := hseen.count
  refine ⟨hseen.trace, ?_, ?_, hseen.redirects⟩
  · rw [finalizeRequest]
    dsimp only
    rcases Nat.eq_zero_or_pos s.abandoned with hnone | hsome
    · have hone : (s.see .finalize 0).main.count = 1 := by
        rw [hcount]
        show 1 + ((0 : ℕ) : ℤ) + s.abandoned = 1
        omega
      rw [finalizeRequest_count_of_one _ _ _ _ hone]
      exact Int.one_nonneg
    · have htwo : 2 ≤ (s.see .finalize 0).main.count := by
        rw [hcount]
        show 2 ≤ 1 + ((0 : ℕ) : ℤ) + s.abandoned
        omega
      rw [finalizeRequest_of_two_le _ _ _ _ htwo]
      dsimp only
      omega
  · rw [finalizeRequest]
    dsimp only
    rw [hseen.frees]
    split
    · exact Nat.le_refl 1
    · exact Nat.zero_le 1

/-- A redirected run that ends without it keeps its reference. -/
theorem Held.abandon {depth : ℕ} {s : State} (hheld : Held (depth + 1) s) :
    Held depth (Redirect.abandon (depth + 1) s) := by
  have hcount := hheld.count
  rw [Redirect.abandon, if_neg (Nat.succ_ne_zero depth)]
  exact {
    count := by
      dsimp only
      push_cast at hcount ⊢
      omega
    pool := hheld.pool
    frees := hheld.frees
    redirects := hheld.redirects
    trace := hheld.trace }

/-! ## A turn -/

/-- After a redirect, and after `night_http_finalize_request`, a checker ends its run. -/
structure EndsRun (checked : Checked) : Prop where
  called : checked.called = some nightDone → checked.rc = nightOk
  finalized : ∀ code, checked.finalized = some code → checked.rc = nightOk

section Checkers

variable {r : PhaseRun.Request} {called : Option ℤ}

theorem endsRun_goOn (hcalled : called ≠ some nightDone) : EndsRun (goOn r called) where
  called := fun hdone => absurd hdone hcalled
  finalized := fun _ hcode => nomatch hcode

theorem endsRun_jump {next : ℕ} (hcalled : called ≠ some nightDone) :
    EndsRun (jump next r called) where
  called := fun hdone => absurd hdone hcalled
  finalized := fun _ hcode => nomatch hcode

theorem endsRun_leave : EndsRun (leave r called) := ⟨fun _ => rfl, fun _ _ => rfl⟩

theorem endsRun_finalize {code : ℤ} : EndsRun (finalize code r called) :=
  ⟨fun _ => rfl, fun _ _ => rfl⟩

theorem none_ne_done : none ≠ some nightDone := (Option.some_ne_none nightDone).symm

theorem some_ne_done {code expected : ℤ} (hcode : code = expected)
    (hexpected : expected ≠ nightDone) : some code ≠ some nightDone := by
  intro hdone
  rw [hcode] at hdone
  exact hexpected (Option.some.inj hdone)

theorem endsRun_check (engine : PhaseEngine Handler) (behaviour : Behaviour) (checker : Checker)
    (next : ℕ) (r : PhaseRun.Request) : EndsRun (check engine behaviour checker next r) := by
  cases checker with
  | coreRewritePhase =>
      simp only [check, nightHttpCoreRewritePhase]
      split_ifs with hdeclined
      · exact endsRun_goOn (some_ne_done hdeclined (by decide))
      · exact endsRun_leave
      · exact endsRun_finalize
  | coreFindConfigPhase =>
      simp only [check, nightHttpCoreFindConfigPhase]
      split_ifs
      · exact endsRun_finalize
      · exact endsRun_finalize
      · exact endsRun_goOn none_ne_done
  | corePostRewritePhase =>
      simp only [check, nightHttpCorePostRewritePhase]
      split_ifs
      · exact endsRun_goOn none_ne_done
      · exact endsRun_leave
  | coreAccessPhase =>
      simp only [check, nightHttpCoreAccessPhase]
      split_ifs with _ hdeclined
      · exact endsRun_jump none_ne_done
      · exact endsRun_goOn (some_ne_done hdeclined (by decide))
      · exact endsRun_leave
  | corePostAccessPhase => exact endsRun_goOn none_ne_done
  | coreContentPhase =>
      simp only [check, nightHttpCoreContentPhase]
      cases r.contentHandler with
      | some code => exact endsRun_finalize
      | none =>
          dsimp only
          split_ifs with haccepted
          · exact endsRun_finalize
          · exact endsRun_goOn (some_ne_done (not_not.mp haccepted) (by decide))
          · exact endsRun_leave
  | coreGenericPhase =>
      simp only [check, nightHttpCoreGenericPhase]
      split_ifs with hok hdeclined
      · exact endsRun_jump (some_ne_done hok (by decide))
      · exact endsRun_goOn (some_ne_done hdeclined (by decide))
      · exact endsRun_leave

end Checkers

/-- A redirect that has returned leaves the references of its caller. -/
structure Returned (depth : ℕ) (ended : State × Bool) : Prop where
  lawful : Lawful ended.1
  held : ended.2 = true → Held depth ended.1

/-- What a run leaves behind: the first one has no caller. -/
def EndsAt : ℕ → State × Bool → Prop
  | 0, ended => Lawful ended.1
  | depth + 1, ended => Returned depth ended

/-- A run that has not returned owes nothing yet. -/
theorem endsAt_of_running {depth : ℕ} {ended : State × Bool} (hlawful : Lawful ended.1)
    (hrunning : ended.2 = false) : EndsAt depth ended := by
  cases depth with
  | zero => exact hlawful
  | succ depth =>
      refine ⟨hlawful, fun hreturned => ?_⟩
      rw [hrunning] at hreturned
      exact absurd hreturned (by decide)

theorem Held.endsAt_finalize {depth : ℕ} {s : State} (env : Env Handler) (hheld : Held depth s)
    (rc : ℤ) : EndsAt depth (finalizeRequest env depth rc s, true) := by
  cases depth with
  | zero => exact hheld.finalize_main env rc
  | succ depth =>
      have houter := hheld.finalize env rc
      exact ⟨houter.lawful, fun _ => houter⟩

theorem Held.endsAt_abandon {depth : ℕ} {s : State} (hheld : Held depth s) :
    EndsAt depth (Redirect.abandon depth s, true) := by
  cases depth with
  | zero => exact hheld.lawful
  | succ depth =>
      have houter := hheld.abandon
      exact ⟨houter.lawful, fun _ => houter⟩

/-! ## Runs -/

section Runs

variable (env : Env Handler) {depth : ℕ} {s : State}

/-- The counter is the number of the redirects that are left, and one more. -/
theorem Innermost.changes_ne_zero (hinner : Innermost depth s) (hheld : Held depth s) :
    s.uriChanges ≠ 0 := by
  have hchanges := hinner.changes
  have hredirects := hheld.redirects
  rw [hinner.redirects] at hredirects
  intro hzero
  rw [hzero] at hchanges
  change 0 + depth = 11 at hchanges
  omega

theorem toNat_sub_one {changes : BitVec 4} (hne : changes ≠ 0) :
    (changes - 1).toNat + 1 = changes.toNat := by
  bv_omega

/-- A redirect keeps the references, if the run inside of it does. -/
theorem returned_nightHttpInternalRedirect {handler : State → State × Bool}
    (hhandler : ∀ inner, Held (depth + 1) inner → Innermost (depth + 1) inner →
      Returned depth (handler inner))
    (hheld : Held depth s) (hinner : Innermost depth s) :
    Returned depth (nightHttpInternalRedirect env handler depth s) := by
  have hne := hinner.changes_ne_zero hheld
  have hseen : Held depth (s.see .redirect depth) :=
    hheld.see (fun _ => hne) fun heq => nomatch heq
  have hreturn (inner : State) (houter : Held depth inner) :
      Held depth (inner.see .returned depth) :=
    houter.see (fun heq => nomatch heq) fun heq => nomatch heq
  have htaken : Held (depth + 1) { s.see .redirect depth with
      uriChanges := s.uriChanges - 1 }.hold :=
    Held.hold ⟨hseen.count, hseen.pool, hseen.frees, hseen.redirects, hseen.trace⟩
  rw [nightHttpInternalRedirect]
  dsimp only
  by_cases hlimit : (s.see .redirect depth).uriChanges - 1 = 0
  · rw [if_pos hlimit]
    have houter := hreturn _ (htaken.finalize env nightHttpInternalServerError)
    exact ⟨houter.lawful, fun _ => houter⟩
  · rw [if_neg hlimit]
    have hchanges := hinner.changes
    have hfirst := toNat_sub_one hne
    have hsecond : (s.uriChanges - 1 - 1).toNat + 1 = (s.uriChanges - 1).toNat :=
      toNat_sub_one hlimit
    have hredirects := hinner.redirects
    have hdone := hhandler
      { { { s.see .redirect depth with uriChanges := s.uriChanges - 1 } with
          request := { s.request with internal := true } }.hold with
        redirects := s.redirects + 1 }
      ⟨htaken.count, htaken.pool, htaken.frees, by dsimp only; omega, htaken.trace⟩
      ⟨by dsimp only; omega, by dsimp only [State.hold]; omega⟩
    split_ifs with hreturned
    · have houter := hreturn _ (hdone.held hreturned)
      exact ⟨houter.lawful, fun _ => houter⟩
    · exact hdone

/-- Where the loop begins says nothing about the references. -/
theorem Held.entered (hheld : Held depth s) : Held depth (Redirect.entered env s) :=
  ⟨hheld.count, hheld.pool, hheld.frees, hheld.redirects, hheld.trace⟩

theorem Innermost.entered (hinner : Innermost depth s) :
    Innermost depth (Redirect.entered env s) :=
  ⟨hinner.redirects, hinner.changes⟩

/-- A run that leaves the loop has finalized the request or keeps its reference. -/
theorem Held.endsAt_leave (hheld : Held depth s) (finalized : Option ℤ) :
    EndsAt depth
      (if finalized.isSome then
        match finalized with
        | some code => finalizeRequest env depth code s
        | none => s
      else Redirect.abandon depth
        (match finalized with
        | some code => finalizeRequest env depth code s
        | none => s), true) := by
  cases finalized with
  | none => exact hheld.endsAt_abandon
  | some code => exact hheld.endsAt_finalize env code

/-- The references over the run at every depth: by induction on the number of the turns, which
the runs inside of a run share with it. -/
theorem endsAt_runPhases (fuel : ℕ) (hheld : Held depth s) (hinner : Innermost depth s) :
    EndsAt depth (nightHttpCoreRunPhases env fuel depth s) := by
  induction fuel generalizing depth s with
  | zero => exact endsAt_of_running hheld.lawful rfl
  | succ fuel ih =>
      have hdepth : depth ≤ 10 := hinner.redirects ▸ hheld.redirects
      have hseen : Held depth (s.see .turn depth) :=
        hheld.see (fun heq => nomatch heq) fun _ => hdepth
      rw [nightHttpCoreRunPhases]
      dsimp only
      split
      · exact hseen.endsAt_abandon
      · exact hseen.endsAt_abandon
      · next checker handler next hentry =>
          have hends := endsRun_check env.engine (env.behaviour depth) checker next
            (s.see .turn depth).request
          generalize check env.engine (env.behaviour depth) checker next
            (s.see .turn depth).request = checked at hends ⊢
          have hheldTurn : Held depth { s.see .turn depth with request := checked.request } :=
            ⟨hseen.count, hseen.pool, hseen.frees, hseen.redirects, hseen.trace⟩
          have hinnerTurn :
              Innermost depth { s.see .turn depth with request := checked.request } :=
            ⟨hinner.redirects, hinner.changes⟩
          generalize ({ s.see .turn depth with request := checked.request } : State) = turn
            at hheldTurn hinnerTurn ⊢
          by_cases hredirects : checked.called = some nightDone ∧ env.redirects depth = true
          · rw [if_pos hredirects, if_pos (hends.called hredirects.1)]
            have hreturned := returned_nightHttpInternalRedirect env
              (fun inner hheldInner hinnerInner =>
                ih (hheldInner.entered env) (hinnerInner.entered env)) hheldTurn hinnerTurn
            generalize nightHttpInternalRedirect env _ depth turn = handled at hreturned ⊢
            by_cases hrunning : handled.2 = false
            · rw [if_pos hrunning]
              exact endsAt_of_running hreturned.lawful hrunning
            · rw [if_neg hrunning]
              exact (hreturned.held (Bool.of_not_eq_false hrunning)).endsAt_leave env _
          · rw [if_neg hredirects, if_neg Bool.noConfusion]
            by_cases hleft : checked.rc = nightOk
            · rw [if_pos hleft]
              exact hheldTurn.endsAt_leave env _
            · rw [if_neg hleft]
              cases hfinalized : checked.finalized with
              | none => exact ih hheldTurn hinnerTurn
              | some code => exact absurd (hends.finalized code hfinalized) hleft

end Runs

/-- Over every run of a fresh request, whatever its handlers answer and however often they
redirect it, as far as it has got: the request is there at every event, its references are the
redirects in progress and those that were not given back, it is freed at most once, and
`uri_changes` does not wrap. -/
theorem nightHttpHandler_counted (env : Env Handler) (fuel : ℕ) (request : PhaseRun.Request)
    (connection : ℕ) (keepalive : Bool) (requestLineLen : ℕ) (cycle : Cycle) :
    Lawful (nightHttpHandler env fuel
      (freshState request connection keepalive requestLineLen cycle)).1 := by
  have hheld :
      Held 0 (freshState request connection keepalive requestLineLen cycle) :=
    ⟨rfl, rfl, rfl, Nat.zero_le 10, fun event hevent => nomatch hevent⟩
  have hinner :
      Innermost 0 (freshState request connection keepalive requestLineLen cycle) :=
    ⟨rfl, rfl⟩
  exact endsAt_runPhases env fuel (hheld.entered env) (hinner.entered env)

/-! ## A redirect from a rewrite -/

/-- A handler of the server's rewrite phase and one of the content phase: the first run
redirects from the second, the redirected one from the first. -/
def rewriting : Env Unit where
  phases := fun phase => if phase = .serverRewrite ∨ phase = .content then [()] else []
  flags := ⟨false, false⟩
  input := ⟨75000, true, true⟩
  behaviour := fun depth =>
    { call := fun index _ =>
        if depth = 1 then ⟨nightDone, false, none⟩
        else if index = 0 then ⟨nightDeclined, false, none⟩
        else if depth = 0 then ⟨nightDone, false, none⟩
        else ⟨nightOk, false, none⟩
      findLocation := fun _ => nightOk
      locationInternal := fun _ => false }
  redirects := fun depth => decide (depth < 2)

/-- The rewrite phase does not finalize what has redirected, so that the reference stays. -/
theorem not_exact_rewriting :
    ¬ ∀ (env : Env Unit) (fuel : ℕ) (request : PhaseRun.Request) (connection : ℕ)
      (keepalive : Bool) (requestLineLen : ℕ) (cycle : Cycle),
      ∀ event ∈ (nightHttpHandler env fuel
        (freshState request connection keepalive requestLineLen cycle)).1.trace,
        event.count = 1 + event.depth := by
  intro hexact
  have hcounts := hexact rewriting 12 ⟨0, false, none, true, false⟩ 0 true 16
    (takeConnection 7 0 (nightEventCoreProcessInit 1 16 0))
  revert hcounts
  decide

end Night.Redirect
