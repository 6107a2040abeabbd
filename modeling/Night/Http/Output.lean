import Night.Http.Finalize
import Night.Http.WriteFilterLaw

/-!
# From the output of a handler to the end of its request

A content handler hands chains to the write filter and returns a code, which the content
phase passes to `night_http_finalize_request`.  What the connection has not taken stays in
`r->out`, and `night_http_finalize_connection` decides without a look at it.
-/

namespace Night.Output

open Night.Connections
open Night.WriteFilter (Call Code Holds runCall pendingBytes bytesOf freshState runCall_spec
  pendingBytes_eq)
open Night.HttpConnection (Request Flags KeepaliveInput nightHttpFinalizeRequest)
open Night.PhaseRun (nightDeclined)

/-! ## Model -/

/-- A request with its output and its connection.  `code` is what the write filter has
returned last, `handed` counts the bytes that were handed to it, and `sentBefore` is
`c->sent` at the beginning of the request. -/
structure State where
  filter : WriteFilter.State
  request : Request
  cycle : Cycle
  code : Option Code
  handed : ℕ
  sentBefore : ℕ

/-- A request as `night_http_create_request` leaves it. -/
def start (r : Request) (cycle : Cycle) : State where
  filter := { freshState with sent := (cycle.connections r.connection).sent }
  request := { r with count := 1, pool := true }
  cycle := cycle
  code := none
  handed := 0
  sentBefore := (cycle.connections r.connection).sent

/-- What happens to a request.  A filter call carries how much the connection takes, and
the end of a handler carries what it returns. -/
inductive Step where
  | headerFilter (call : Call)
  | outputFilter (call : Call)
  | redirect
  | keepalive (value : Bool)
  | contentPhase (flags : Flags) (input : KeepaliveInput) (contentHandler : Bool) (rc : ℤ)
  | finalize (flags : Flags) (input : KeepaliveInput) (rc : ℤ)

/-- The call of the write filter at the end of `night_http_header_filter`. -/
def nightHttpHeaderFilter (call : Call) (s : State) : Option State := do
  let result ← runCall s.filter call
  some { s with
    filter := result.2
    cycle := setConnection s.request.connection
      (fun conn => { conn with sent := result.2.sent }) s.cycle
    code := some result.1
    handed := s.handed + call.bytes.length }

/-- `night_http_output_filter`: an error is noted in the connection. -/
def nightHttpOutputFilter (call : Call) (s : State) : Option State := do
  let s ← nightHttpHeaderFilter call s
  if s.code = some .error then some { s with filter := { s.filter with error := true } }
  else some s

/-- `night_http_finalize_request`. -/
def finalizeRequest (flags : Flags) (input : KeepaliveInput) (rc : ℤ) (s : State) : State :=
  let ended := nightHttpFinalizeRequest flags input s.request rc s.cycle
  { s with request := ended.1, cycle := ended.2 }

/-- `night_http_core_content_phase` behind its handler, which is `r->content_handler` or the
one of the phase.  A declined request goes on to the next handler. -/
def nightHttpCoreContentPhase (flags : Flags) (input : KeepaliveInput) (contentHandler : Bool)
    (rc : ℤ) (s : State) : State :=
  if contentHandler then finalizeRequest flags input rc s
  else if rc ≠ nightDeclined then finalizeRequest flags input rc s
  else s

/-- One step; a request that was freed makes none. -/
def step (s : State) (st : Step) : Option State :=
  if !s.request.pool then none
  else
    match st with
    | .headerFilter call => nightHttpHeaderFilter call s
    | .outputFilter call => nightHttpOutputFilter call s
    | .redirect => some { s with request := { s.request with count := s.request.count + 1 } }
    | .keepalive value => some { s with request := { s.request with keepalive := value } }
    | .contentPhase flags input contentHandler rc =>
        some (nightHttpCoreContentPhase flags input contentHandler rc s)
    | .finalize flags input rc => some (finalizeRequest flags input rc s)

/-- `night_http_request_handler`, which returns at once. -/
def nightHttpRequestHandler (s : State) : State := s

/-- `night_http_empty_handler`. -/
def nightHttpEmptyHandler (s : State) : State := s

/-- `wev->handler(wev)`; the other handlers belong to read events. -/
def writeEvent (s : State) : State :=
  match (s.cycle.events (writeOf s.request.connection)).handler with
  | .request => nightHttpRequestHandler s
  | .empty => nightHttpEmptyHandler s
  | _ => s

/-! ## The law -/

/-- A write event would do something about `r->out`. -/
def Armed (s : State) : Prop :=
  pendingBytes (writeEvent s).filter ≠ pendingBytes s.filter

/-- The steps that end in `night_http_finalize_request`. -/
def Finalizes : Step → Prop
  | .contentPhase _ _ contentHandler rc => contentHandler = true ∨ rc ≠ nightDeclined
  | .finalize _ _ _ => True
  | _ => False

/-- A step from `s` to `s'` respects the output: the request is not freed while there are
unsent bytes in `r->out`, and a finalization behind `NIGHT_AGAIN` arms a write handler
instead. -/
structure Respects (s : State) (st : Step) (s' : State) : Prop where
  freed : s'.request.pool = false → pendingBytes s'.filter = some []
  armed : Finalizes st → s.code = some .again → s'.request.pool = true ∧ Armed s'

/-- Every step of a run respects the output. -/
def Lawful : State → List Step → Prop
  | _, [] => True
  | s, st :: steps => ∀ s', step s st = some s' → Respects s st s' ∧ Lawful s' steps

/-- No empty buffer is handed to the filter, and when the request is finalized the
connection has taken as many bytes as were handed in. -/
def Meets (s : State) (st : Step) : Prop :=
  match st with
  | .headerFilter call | .outputFilter call => ∀ b ∈ call.input, b.bytes ≠ []
  | .redirect | .keepalive _ => True
  | st => Finalizes st → s.filter.sent = s.sentBefore + s.handed

/-- Every step of a run meets the condition. -/
def AllMeet : State → List Step → Prop
  | _, [] => True
  | s, st :: steps => Meets s st ∧ ∀ s', step s st = some s' → AllMeet s' steps

/-! ## What a step preserves -/

/-- No handler of a write event looks at `r->out`. -/
theorem not_armed (s : State) : ¬ Armed s := by
  intro harmed
  apply harmed
  rw [writeEvent]
  split <;> rfl

/-- What was handed in and not taken is in the links `out` of `r->out`. -/
structure Balanced (s : State) (out : List ℕ) : Prop where
  holds : Holds s.filter out
  sent : s.filter.sent + (bytesOf s.filter out).length = s.sentBefore + s.handed
  again : s.code = some .again → out ≠ []

theorem balanced_start (r : Request) (cycle : Cycle) : Balanced (start r cycle) [] where
  holds := {
    links := WriteFilter.holds_freshState.links.imp fun _ hlinks =>
      ⟨hlinks.nodup, hlinks.bound, hlinks.chain⟩
    chain := rfl
    nodup := List.nodup_nil
    bound := by simp [WriteFilter.refs]
    positive := by simp [WriteFilter.refs, WriteFilter.Positive]
    error := rfl }
  sent := rfl
  again := by
    intro hagain
    cases hagain

/-- The two filters do the same with a chain without empty buffers. -/
theorem exists_hand {s : State} {out : List ℕ} (hs : Balanced s out) {call : Call}
    (hinput : ∀ b ∈ call.input, b.bytes ≠ []) :
    ∃ s' out', nightHttpHeaderFilter call s = some s' ∧
      nightHttpOutputFilter call s = some s' ∧ Balanced s' out' ∧
      s'.request = s.request := by
  obtain ⟨code, filter, out', hrun, hcode, hholds, hbytes, hagain, hsent⟩ :=
    runCall_spec hs.holds hinput
  let s' : State := { s with
    filter := filter
    cycle := setConnection s.request.connection (fun conn => { conn with sent := filter.sent })
      s.cycle
    code := some code
    handed := s.handed + call.bytes.length }
  have hheader : nightHttpHeaderFilter call s = some s' := by
    rw [nightHttpHeaderFilter, hrun]
    rfl
  have hnoError : ¬ s'.code = some .error := fun heq => hcode (Option.some.inj heq)
  refine ⟨s', out', hheader, ?_, ⟨hholds, ?_, ?_⟩, rfl⟩
  · rw [nightHttpOutputFilter, hheader]
    exact if_neg hnoError
  · have hlength := congrArg List.length hbytes
    simp only [List.length_append] at hlength
    have hbefore := hs.sent
    show filter.sent + (bytesOf filter out').length =
      s.sentBefore + (s.handed + call.bytes.length)
    omega
  · intro heq
    exact hagain (Option.some.inj heq)

theorem Balanced.finalize {s : State} {out : List ℕ} (hs : Balanced s out) (flags : Flags)
    (input : KeepaliveInput) (rc : ℤ) : Balanced (finalizeRequest flags input rc s) out :=
  ⟨hs.holds, hs.sent, hs.again⟩

/-- With everything taken there is nothing in `r->out`. -/
theorem Balanced.out_eq_nil_iff {s : State} {out : List ℕ} (hs : Balanced s out) :
    pendingBytes s.filter = some [] ↔ s.filter.sent = s.sentBefore + s.handed := by
  rw [pendingBytes_eq hs.holds, Option.some_inj, ← List.length_eq_zero_iff]
  have hsent := hs.sent
  omega

theorem Balanced.not_again {s : State} {out : List ℕ} (hs : Balanced s out)
    (htaken : s.filter.sent = s.sentBefore + s.handed) : s.code ≠ some .again := by
  intro hagain
  have hpending := hs.out_eq_nil_iff.mpr htaken
  rw [pendingBytes_eq hs.holds, Option.some_inj, WriteFilter.bytesOf_eq_nil_iff hs.holds]
    at hpending
  exact hs.again hagain hpending

/-- A finalization with everything taken respects the output. -/
theorem respects_finalize {s : State} {out : List ℕ} (hs : Balanced s out) (st : Step)
    (htaken : s.filter.sent = s.sentBefore + s.handed) (flags : Flags)
    (input : KeepaliveInput) (rc : ℤ) : Respects s st (finalizeRequest flags input rc s) where
  freed := fun _ => hs.out_eq_nil_iff.mpr htaken
  armed := fun _ hagain => absurd hagain (hs.not_again htaken)

/-- A step that is not a finalization does not free the request. -/
theorem respects_alive {s s' : State} {st : Step} (halive : s'.request.pool = true)
    (hst : ¬ Finalizes st) : Respects s st s' where
  freed := fun hfreed => absurd (halive.symm.trans hfreed) (by decide)
  armed := fun hfinalizes => absurd hfinalizes hst

theorem contentPhase_of_finalizes (flags : Flags) (input : KeepaliveInput)
    {contentHandler : Bool} {rc : ℤ} (s : State)
    (hfinalizes : contentHandler = true ∨ rc ≠ nightDeclined) :
    nightHttpCoreContentPhase flags input contentHandler rc s =
      finalizeRequest flags input rc s := by
  rw [nightHttpCoreContentPhase]
  rcases hfinalizes with hhandler | hrc
  · rw [if_pos hhandler]
  · rw [if_pos hrc, ite_self]

theorem contentPhase_of_declined (flags : Flags) (input : KeepaliveInput)
    {contentHandler : Bool} {rc : ℤ} (s : State)
    (hdeclined : ¬ (contentHandler = true ∨ rc ≠ nightDeclined)) :
    nightHttpCoreContentPhase flags input contentHandler rc s = s := by
  rw [not_or] at hdeclined
  rw [nightHttpCoreContentPhase, if_neg hdeclined.1, if_neg hdeclined.2]

/-- A finalization that frees the request, or that comes behind `NIGHT_AGAIN`, respects the
output only if everything was taken. -/
theorem taken_of_respects {s s' : State} {st : Step} {out : List ℕ} (hs : Balanced s out)
    (hfilter : s'.filter = s.filter) (hfinalizes : Finalizes st)
    (hends : s'.request.pool = false ∨ s.code = some .again) (hrespects : Respects s st s') :
    s.filter.sent = s.sentBefore + s.handed := by
  rcases hends with hfreed | hagain
  · have hpending := hrespects.freed hfreed
    rw [hfilter] at hpending
    exact hs.out_eq_nil_iff.mp hpending
  · exact absurd (hrespects.armed hfinalizes hagain).2 (not_armed s')

/-- One step that meets the condition respects the output and keeps the balance. -/
theorem step_spec {s s' : State} {st : Step} {out : List ℕ} (hs : Balanced s out)
    (hmeets : Meets s st) (hstep : step s st = some s') :
    Respects s st s' ∧ ∃ out', Balanced s' out' := by
  by_cases hpool : s.request.pool = true
  case neg =>
    rw [step.eq_def, if_pos (by simpa using hpool)] at hstep
    cases hstep
  rw [step.eq_def, if_neg (by simpa using hpool)] at hstep
  cases st with
  | headerFilter call =>
      obtain ⟨s₁, out', hheader, -, hs', hrequest⟩ := exists_hand hs hmeets
      obtain rfl : s₁ = s' := Option.some.inj (hheader.symm.trans hstep)
      exact ⟨respects_alive (by rw [hrequest, hpool]) id, out', hs'⟩
  | outputFilter call =>
      obtain ⟨s₁, out', -, houtput, hs', hrequest⟩ := exists_hand hs hmeets
      obtain rfl : s₁ = s' := Option.some.inj (houtput.symm.trans hstep)
      exact ⟨respects_alive (by rw [hrequest, hpool]) id, out', hs'⟩
  | redirect =>
      obtain rfl := Option.some.inj hstep
      exact ⟨respects_alive hpool id, out, hs.holds, hs.sent, hs.again⟩
  | keepalive value =>
      obtain rfl := Option.some.inj hstep
      exact ⟨respects_alive hpool id, out, hs.holds, hs.sent, hs.again⟩
  | contentPhase flags input contentHandler rc =>
      obtain rfl := Option.some.inj hstep
      by_cases hfinalizes : contentHandler = true ∨ rc ≠ nightDeclined
      · rw [contentPhase_of_finalizes flags input s hfinalizes]
        exact ⟨respects_finalize hs _ (hmeets hfinalizes) flags input rc, out,
          hs.finalize flags input rc⟩
      · rw [contentPhase_of_declined flags input s hfinalizes]
        exact ⟨respects_alive hpool hfinalizes, out, hs⟩
  | finalize flags input rc =>
      obtain rfl := Option.some.inj hstep
      exact ⟨respects_finalize hs _ (hmeets trivial) flags input rc, out,
        hs.finalize flags input rc⟩

/-! ## Runs -/

theorem lawful_of_balanced {s : State} {out : List ℕ} {steps : List Step}
    (hs : Balanced s out) (hmeet : AllMeet s steps) : Lawful s steps := by
  induction steps generalizing s out with
  | nil => trivial
  | cons st steps ih =>
      intro s' hstep
      obtain ⟨hrespects, out', hs'⟩ := step_spec hs hmeet.1 hstep
      exact ⟨hrespects, ih hs' (hmeet.2 s' hstep)⟩

/-- A request whose output the connection has taken before it is finalized is never freed
with unsent bytes. -/
theorem lawful_of_allMeet (r : Request) (cycle : Cycle) (steps : List Step)
    (hmeet : AllMeet (start r cycle) steps) : Lawful (start r cycle) steps :=
  lawful_of_balanced (balanced_start r cycle) hmeet

/-- A response of two bytes. -/
def twoBytes (count : ℕ) : Call :=
  ⟨[⟨⟨[104, 105], false, false, false, false, true⟩, fun _ => .inl rfl⟩], true, count⟩

/-- A response of two bytes to a client that wants to keep the connection; its handler
returns what the filter has returned. -/
def twoByteResponse (count : ℕ) (rc : ℤ) : List Step :=
  [.keepalive true, .outputFilter (twoBytes count),
    .contentPhase ⟨false, false⟩ ⟨60000, true, true⟩ true rc]

theorem lawful_twoByteResponse :
    Lawful (start (HttpConnection.clientRequest true) HttpConnection.oneConnection)
      (twoByteResponse 2 0) := by
  apply lawful_of_allMeet
  refine ⟨trivial, ?_⟩
  rintro s' hs'
  obtain rfl := Option.some.inj hs'
  refine ⟨by simp [Meets, twoBytes], ?_⟩
  intro s' hs'
  obtain rfl := Option.some.inj hs'
  exact ⟨fun _ => rfl, fun _ _ => trivial⟩

/-- The client takes one byte of the response, and the other one is freed with the
request. -/
theorem not_lawful_slowClient :
    ¬ ∀ (r : Request) (cycle : Cycle) (steps : List Step), Lawful (start r cycle) steps := by
  intro hall
  have hlawful := hall (HttpConnection.clientRequest true) HttpConnection.oneConnection
    (twoByteResponse 1 (-2))
  have houtput := (hlawful _ rfl).2
  have hcontent := (houtput _ rfl).2
  have hfreed := (hcontent _ rfl).1.freed rfl
  exact absurd hfreed (by decide)

end Night.Output
