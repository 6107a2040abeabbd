import Night.Http.HeaderBlock

/-!
# The calls of the header-line parser

`night_http_process_request_headers` calls the parser again and again, and reads
more bytes only when a call returns `NIGHT_AGAIN`.  No call ever does, so the calls
keep to the buffer exactly when the first bytes already hold the whole block.
-/

namespace Night.HeaderLine

open Night.Bytes
open Night.HttpRequest
open Night.Scanner

/-! ## Calls -/

/-- The bytes of the buffer from offset `first` up to offset `last`. -/
def slice (data : List Byte) (first last : ℕ) : List Byte :=
  (data.take last).drop first

/-- What the caller takes from the request after a header line. -/
structure Header where
  name : List Byte
  value : List Byte
  hash : BitVec 64
  lowcaseIndex : ℕ
  lowcaseHeader : List Byte
  deriving DecidableEq, Repr

def headerOf (r : Request) (b : Buf) : Header where
  name := slice b.data r.headerNameStart r.headerNameEnd
  value := slice b.data r.headerStart r.headerEnd
  hash := r.headerHash
  lowcaseIndex := r.lowcaseIndex
  lowcaseHeader := r.lowcaseHeader

/-- The loop of a call reaches `b->last`. -/
def runsOut (below : ℤ → Byte) (locals : Locals) (r : Request) (b : Buf) : Bool :=
  match run (headerLineStep below) b.pos (State.ofNat r.state, locals, r) b.unread with
  | .more _ => true
  | .stop _ _ => false

/-- What can be seen of one call: its code, the header line when the code is
`NIGHT_OK`, `b->pos` and `b->last` after it, and whether it ran out of bytes. -/
structure Call where
  code : ParseCode
  header : Option Header
  pos : ℕ
  last : ℕ
  ranOut : Bool
  deriving DecidableEq, Repr

def callOf (below : ℤ → Byte) (locals : Locals) (r : Request) (b : Buf) : Call :=
  let ended := nightHttpParseHeaderLine below locals r b
  { code := ended.1
    header := if ended.1 = .ok then some (headerOf ended.2.1 ended.2.2) else none
    pos := ended.2.2.pos
    last := ended.2.2.last
    ranOut := runsOut below locals r b }

def Call.result (call : Call) : ParseCode × Option Header := (call.code, call.header)

/-- The buffer of the next call: the loop reads more bytes when the last call asked
for them, and ends on every other code than `NIGHT_OK`. -/
def nextCall (code : ParseCode) (b : Buf) (chunks : List (List Byte)) :
    Option (Buf × List (List Byte)) :=
  match code, chunks with
  | .ok, chunks => some (b, chunks)
  | .again, chunk :: chunks => some (b.receive chunk, chunks)
  | _, _ => none

/-- The first `fuel` calls of the loop of `night_http_process_request_headers`; the
call number `index` finds `locals index` in its uninitialised locals. -/
def processRequestHeaders (below : ℤ → Byte) (locals : ℕ → Locals) :
    ℕ → ℕ → Request → Buf → List (List Byte) → List Call
  | 0, _, _, _, _ => []
  | fuel + 1, index, r, b, chunks =>
      let ended := nightHttpParseHeaderLine below (locals index) r b
      callOf below (locals index) r b ::
        match nextCall ended.1 ended.2.2 chunks with
        | some (b, chunks) =>
            processRequestHeaders below locals fuel (index + 1) ended.2.1 b chunks
        | none => []

/-- The results of the calls, without those that only ask for more bytes. -/
def results (calls : List Call) : List (ParseCode × Option Header) :=
  (calls.map Call.result).filter fun result => result.1 ≠ .again

/-- The request as `night_http_parse_request_line` hands it on. -/
abbrev startLine (r : Request) : Request := { r with state := swStartValue }

/-! ## One call -/

theorem slice_append {data : List Byte} (more : List Byte) (first : ℕ) {last : ℕ}
    (hlast : last ≤ data.length) :
    slice (data ++ more) first last = slice data first last := by
  rw [slice, slice, List.take_append_of_le_length hlast]

/-- What a line has recorded at `p`: offsets that are not behind `p`. -/
def Recorded (p : ℕ) : State × Locals × Request → Prop
  | (.swSpaceBeforeValue, _, r) => r.headerNameEnd ≤ p
  | (.swValue, _, r) => r.headerNameEnd ≤ p
  | (.swSpaceAfterValue, _, r) => r.headerNameEnd ≤ p ∧ r.headerEnd ≤ p
  | (.swAlmostDone, _, r) => r.headerNameEnd ≤ p ∧ r.headerEnd ≤ p
  | (.other _, _, _) => False
  | _ => True

/-- What a call has recorded when its loop is left at `p`. -/
def Exit.Recorded (p : ℕ) : Exit → Prop
  | .done q _ r => q = p ∧ r.headerNameEnd ≤ p ∧ r.headerEnd ≤ p
  | .headerDone q _ => q = p
  | .invalid _ => True

theorem recorded_more (below : ℤ → Byte) (p : ℕ) (current : State × Locals × Request)
    (ch : Byte) (next : State × Locals × Request) (hrecorded : Recorded p current)
    (hstep : headerLineStep below p current ch = .more next) : Recorded (p + 1) next := by
  obtain ⟨state, locals, r⟩ := current
  cases state with
  | other value => exact absurd hrecorded id
  | _ =>
      simp only [Recorded] at hrecorded
      simp only [headerLineStep] at hstep
      split_ifs at hstep
      all_goals
        simp only [Verdict.more.injEq] at hstep
        subst hstep
        first
          | exact trivial
          | simp only [Recorded]
            omega

theorem recorded_stop (below : ℤ → Byte) (p : ℕ) (current : State × Locals × Request)
    (ch : Byte) (exit : Exit) (hrecorded : Recorded p current)
    (hstep : headerLineStep below p current ch = .stop exit) : exit.Recorded p := by
  obtain ⟨state, locals, r⟩ := current
  cases state with
  | other value => exact absurd hrecorded id
  | _ =>
      simp only [Recorded] at hrecorded
      simp only [headerLineStep] at hstep
      split_ifs at hstep
      all_goals
        simp only [Verdict.stop.injEq] at hstep
        subst hstep
        simp only [Exit.Recorded, Nat.le_refl, true_and, and_true]
        try exact hrecorded

/-- A call that begins a line does not read its uninitialised locals, unless it runs
out of bytes. -/
theorem run_start_locals {below : ℤ → Byte} {p : ℕ} {locals : Locals} {r : Request}
    {input rest : List Byte} {exit : Exit}
    (hrun : run (headerLineStep below) p (.swStart, locals, r) input = .stop exit rest)
    (locals' : Locals) :
    run (headerLineStep below) p (.swStart, locals', r) input = .stop exit rest := by
  cases input with
  | nil => cases hrun
  | cons ch input =>
      by_cases hcr : ch = CR
      · let started : Request :=
          { r with headerNameStart := p, invalidHeader := false, headerEnd := p }
        have hstep : ∀ locals, headerLineStep below p (.swStart, locals, r) ch =
            .more (.swHeaderAlmostDone, locals, started) := by
          intro locals
          simp only [headerLineStep, if_pos hcr]
          rfl
        rw [run_cons_more (hstep locals)] at hrun
        rw [run_cons_more (hstep locals')]
        cases input with
        | nil => cases hrun
        | cons next input => exact hrun
      · have hstep : headerLineStep below p (.swStart, locals', r) ch =
            headerLineStep below p (.swStart, locals, r) ch := by
          simp only [headerLineStep, if_neg hcr]
        rw [run] at hrun ⊢
        rw [hstep]
        exact hrun

section Calls

variable {below : ℤ → Byte} {r : Request} {input rest : List Byte}

/-- The control states are what a scan of the real machine goes through. -/
theorem run_control (below : ℤ → Byte) (p : ℕ) (locals : Locals) (r : Request)
    (input : List Byte) :
    run (controlStep below) p .swStart input =
      (run (headerLineStep below) p (.swStart, locals, r) input).map Prod.fst
        Exit.ending :=
  run_map Prod.fst Exit.ending
    (fun position current ch => controlStep_eq_map below position current ch) p
    (.swStart, locals, r) input

/-- The scan behind a call that begins a line, when it ends in the bytes at hand. -/
theorem exists_exit_of_control {ending : Ending} (p : ℕ) (r : Request)
    (hcontrol : run (controlStep below) p .swStart input = .stop ending []) :
    ∃ exit : Exit, exit.ending = ending ∧ exit.Recorded (p + input.length - 1) ∧
      input ≠ [] ∧ ∀ locals more,
        run (headerLineStep below) p (.swStart, locals, r) (input ++ more) =
          .stop exit more := by
  have hmap := run_control below p ⟨0, 0⟩ r input
  rw [hcontrol] at hmap
  cases hrun : run (headerLineStep below) p (.swStart, ⟨0, 0⟩, r) input with
  | more current =>
      rw [hrun] at hmap
      cases hmap
  | stop exit unread =>
      rw [hrun] at hmap
      simp only [Outcome.map, Outcome.stop.injEq] at hmap
      obtain ⟨hending, hunread⟩ := hmap
      have hinit : Recorded p (.swStart, ⟨0, 0⟩, r) := trivial
      obtain ⟨final, hfinal, hrecorded⟩ := result_of_invariant (recorded_more below)
        (recorded_stop below) hinit hrun
      rw [← hunread, List.length_nil, Nat.add_zero] at hfinal
      refine ⟨exit, hending.symm, ?_, ?_, ?_⟩
      · rw [show p + input.length - 1 = final by omega]
        exact hrecorded
      · intro hnil
        rw [hnil] at hrun
        cases hrun
      · intro locals more
        have hlocals := run_start_locals hrun locals
        rw [← hunread] at hlocals
        exact run_append_of_stop hlocals

/-- The buffer of a call that begins behind `before`. -/
abbrev bufAt (before unread : List Byte) : Buf := ⟨before ++ unread, before.length⟩

theorem unread_bufAt (before unread : List Byte) : (bufAt before unread).unread = unread :=
  List.drop_left

/-- A call on a line returns `NIGHT_OK` just behind it, whatever else the buffer
holds and whatever its locals held. -/
theorem call_line (line : FieldLine below) (r : Request) (before : List Byte) :
    ∃ r' header, ∀ locals more,
      nightHttpParseHeaderLine below locals (startLine r)
          (bufAt before (line.bytes ++ more)) =
        (.ok, startLine r', bufAt (before ++ line.bytes) more) ∧
      callOf below locals (startLine r) (bufAt before (line.bytes ++ more)) =
        ⟨.ok, some header, (before ++ line.bytes).length,
          (before ++ (line.bytes ++ more)).length, false⟩ := by
  obtain ⟨exit, hending, hrecorded, hne, hscan⟩ :=
    exists_exit_of_control before.length (startLine r) (run_fieldLine line)
  have hpos := List.length_pos_iff.mpr hne
  cases exit with
  | headerDone p ended => cases hending
  | invalid ended => cases hending
  | done p locals ended =>
      obtain ⟨hp, hname, hvalue⟩ := hrecorded
      let r' : Request := { ended with
        headerHash := locals.hash
        lowcaseIndex := locals.i }
      let header : Header := headerOf r' ⟨before ++ line.bytes, 0⟩
      refine ⟨r', header, ?_⟩
      intro given more
      have hrun : run (headerLineStep below) (bufAt before (line.bytes ++ more)).pos
          (State.ofNat (startLine r).state, given, startLine r)
          (bufAt before (line.bytes ++ more)).unread = .stop (.done p locals ended) more := by
        rw [unread_bufAt]
        exact hscan given more
      have hbehind : p + 1 = (before ++ line.bytes).length := by
        rw [List.length_append]
        omega
      have hparse : nightHttpParseHeaderLine below given (startLine r)
          (bufAt before (line.bytes ++ more)) =
            (.ok, startLine r', bufAt (before ++ line.bytes) more) := by
        simp only [nightHttpParseHeaderLine, hrun, finishHeaderLine, hbehind, bufAt,
          List.append_assoc]
        rfl
      have hheader : headerOf (startLine r') (bufAt (before ++ line.bytes) more) = header := by
        have hnameEnd : ended.headerNameEnd ≤ (before ++ line.bytes).length := by omega
        have hvalueEnd : ended.headerEnd ≤ (before ++ line.bytes).length := by omega
        simp only [headerOf, header, r', slice_append more _ hnameEnd,
          slice_append more _ hvalueEnd]
      refine ⟨hparse, ?_⟩
      simp only [callOf, hparse, if_pos, hheader, runsOut, hrun, Buf.last, List.append_assoc]

/-- A call on the end of a block returns another code, and again stays inside the
bytes it was given. -/
theorem call_blockEnd (blockEnd : BlockEnd below) (r : Request) (before : List Byte) :
    ∃ code, code ≠ .ok ∧ code ≠ .again ∧ ∀ locals more,
      let call := callOf below locals (startLine r)
        (bufAt before (blockEnd.bytes ++ more))
      call.code = code ∧ call.header = none ∧ call.pos ≤ call.last ∧
        call.ranOut = false := by
  obtain ⟨ending, hline, hcontrol⟩ := run_blockEnd (p := before.length) blockEnd
  obtain ⟨exit, hending, hrecorded, hne, hscan⟩ :=
    exists_exit_of_control before.length (startLine r) hcontrol
  have hpos := List.length_pos_iff.mpr hne
  have hrun : ∀ given more, run (headerLineStep below)
      (bufAt before (blockEnd.bytes ++ more)).pos
      (State.ofNat (startLine r).state, given, startLine r)
      (bufAt before (blockEnd.bytes ++ more)).unread = .stop exit more := by
    intro given more
    rw [unread_bufAt]
    exact hscan given more
  cases exit with
  | done p locals ended => exact absurd hending.symm hline
  | headerDone p ended =>
      have hp : p = before.length + blockEnd.bytes.length - 1 := hrecorded
      refine ⟨.headerDone, by decide, by decide, ?_⟩
      intro given more
      simp only [callOf, nightHttpParseHeaderLine, hrun, runsOut, Buf.last]
      refine ⟨trivial, rfl, ?_, trivial⟩
      simp only [List.length_append]
      omega
  | invalid ended =>
      refine ⟨.invalidHeader, by decide, by decide, ?_⟩
      intro given more
      simp only [callOf, nightHttpParseHeaderLine, hrun, runsOut, Buf.last]
      refine ⟨trivial, rfl, ?_, trivial⟩
      simp only [List.length_append]
      omega

/-- A call that runs out of bytes goes past them. -/
theorem call_ranOut {current : State} {before : List Byte}
    (hcontrol : run (controlStep below) before.length .swStart input = .more current)
    (locals : Locals) (r : Request) :
    (callOf below locals (startLine r) (bufAt before input)).last <
      (callOf below locals (startLine r) (bufAt before input)).pos := by
  have hmap := run_control below before.length locals (startLine r) input
  rw [hcontrol] at hmap
  cases hrun : run (headerLineStep below) before.length
      (.swStart, locals, startLine r) input with
  | stop exit unread =>
      rw [hrun] at hmap
      cases hmap
  | more stopped =>
      have hcall : run (headerLineStep below) (bufAt before input).pos
          (State.ofNat (startLine r).state, locals, startLine r)
          (bufAt before input).unread = .more stopped := by
        rw [unread_bufAt]
        exact hrun
      simp only [callOf, nightHttpParseHeaderLine, hcall, finishHeaderLine, Buf.last]
      simp only [unread_bufAt, List.length_append]
      omega

end Calls

/-! ## All calls -/

section Runs

variable {below : ℤ → Byte} {unread : List Byte}

theorem calls_of_ok {locals : ℕ → Locals} {fuel index : ℕ} {r r' : Request} {b b' : Buf}
    {chunks : List (List Byte)}
    (hparse : nightHttpParseHeaderLine below (locals index) r b = (.ok, r', b')) :
    processRequestHeaders below locals (fuel + 1) index r b chunks =
      callOf below (locals index) r b ::
        processRequestHeaders below locals fuel (index + 1) r' b' chunks := by
  simp only [processRequestHeaders, hparse, nextCall]

theorem calls_of_end {locals : ℕ → Locals} {fuel index : ℕ} {r : Request} {b : Buf}
    {chunks : List (List Byte)} (hok : (callOf below (locals index) r b).code ≠ .ok)
    (hagain : (callOf below (locals index) r b).code ≠ .again) :
    processRequestHeaders below locals (fuel + 1) index r b chunks =
      [callOf below (locals index) r b] := by
  have hnext : nextCall (nightHttpParseHeaderLine below (locals index) r b).1
      (nightHttpParseHeaderLine below (locals index) r b).2.2 chunks = none := by
    unfold nextCall
    split
    · exact absurd ‹_› hok
    · exact absurd ‹_› hagain
    · rfl
  simp only [processRequestHeaders, hnext]

/-- On a complete block every call stays inside the buffer, and no later byte and no
content of the locals changes a result. -/
theorem calls_of_complete (hcomplete : CompleteBlock below unread)
    (locals locals' : ℕ → Locals) (fuel index index' : ℕ) (r : Request)
    (before more : List Byte) (chunks chunks' : List (List Byte)) :
    (∀ call ∈ processRequestHeaders below locals fuel index (startLine r)
        (bufAt before unread) chunks, call.pos ≤ call.last ∧ call.ranOut = false) ∧
      (processRequestHeaders below locals fuel index (startLine r)
        (bufAt before unread) chunks).map Call.result =
      (processRequestHeaders below locals' fuel index' (startLine r)
        (bufAt before (unread ++ more)) chunks').map Call.result := by
  induction hcomplete generalizing fuel index index' r before with
  | last blockEnd rest =>
      obtain ⟨code, hok, hagain, hcall⟩ := call_blockEnd blockEnd r before
      cases fuel with
      | zero => simp [processRequestHeaders]
      | succ fuel =>
          obtain ⟨hcode, hheader, hpos, hran⟩ := hcall (locals index) rest
          obtain ⟨hcode', hheader', -, -⟩ := hcall (locals' index') (rest ++ more)
          rw [List.append_assoc, calls_of_end (by rw [hcode]; exact hok)
            (by rw [hcode]; exact hagain), calls_of_end (by rw [hcode']; exact hok)
            (by rw [hcode']; exact hagain)]
          constructor
          · intro call hmem
            rw [List.mem_singleton.mp hmem]
            exact ⟨hpos, hran⟩
          · simp only [List.map_cons, List.map_nil, Call.result, hcode, hcode', hheader,
              hheader']
  | @line line rest hrest ih =>
      obtain ⟨r', header, hcall⟩ := call_line line r before
      cases fuel with
      | zero => simp [processRequestHeaders]
      | succ fuel =>
          obtain ⟨hparse, hrecord⟩ := hcall (locals index) rest
          obtain ⟨hparse', hrecord'⟩ := hcall (locals' index') (rest ++ more)
          obtain ⟨hkeeps, hsame⟩ := ih fuel (index + 1) (index' + 1) r' (before ++ line.bytes)
          rw [List.append_assoc, calls_of_ok hparse, calls_of_ok hparse', hrecord, hrecord']
          constructor
          · intro call hmem
            rcases List.mem_cons.mp hmem with heq | hmem
            · rw [heq]
              refine ⟨?_, rfl⟩
              simp only [List.length_append]
              omega
            · exact hkeeps call hmem
          · rw [List.map_cons, List.map_cons, hsame]
            rfl

/-- Bytes that are no complete block make some call go past them. -/
theorem exists_call_of_incomplete (hincomplete : ¬ CompleteBlock below unread)
    (locals : ℕ → Locals) (index : ℕ) (r : Request) (before : List Byte)
    (chunks : List (List Byte)) :
    ∃ fuel, ∃ call ∈ processRequestHeaders below locals fuel index (startLine r)
      (bufAt before unread) chunks, call.last < call.pos := by
  induction hlength : unread.length using Nat.strongRecOn
    generalizing unread index r before with
  | ind length ih =>
      cases hcontrol : run (controlStep below) before.length .swStart unread with
      | more current =>
          have hpast := call_ranOut hcontrol (locals index) r
          refine ⟨1, callOf below (locals index) (startLine r) (bufAt before unread), ?_, hpast⟩
          rw [processRequestHeaders]
          exact List.mem_cons_self
      | stop ending rest =>
          rcases stop_start hcontrol with ⟨-, line, hunread⟩ | ⟨-, blockEnd, hunread⟩
          · obtain ⟨r', header, hcall⟩ := call_line line r before
            obtain ⟨hparse, -⟩ := hcall (locals index) rest
            have hrest : ¬ CompleteBlock below rest := by
              intro hrest
              rw [hunread] at hincomplete
              exact hincomplete (.line line hrest)
            have hshorter : rest.length < length := by
              obtain ⟨consumed, hne, hsplit⟩ := exists_consumed_of_stop hcontrol
              have hpos := List.length_pos_iff.mpr hne
              rw [← hlength, hsplit, List.length_append]
              omega
            obtain ⟨fuel, call, hmem, hpast⟩ :=
              ih rest.length hshorter hrest (index + 1) r' (before ++ line.bytes) rfl
            refine ⟨fuel + 1, call, ?_, hpast⟩
            rw [hunread, calls_of_ok hparse]
            exact List.mem_cons_of_mem _ hmem
          · rw [hunread] at hincomplete
            exact absurd (.last blockEnd rest) hincomplete

end Runs

/-- The contract of the calls on a block that arrives as `first` and then the chunks
`more`: a call that runs out of bytes asks for more, none goes past the buffer, and
the results are those of the calls on the whole block. -/
structure ChunksContract (below : ℤ → Byte) (locals wholeLocals : ℕ → Locals)
    (r : Request) (before first : List Byte) (more : List (List Byte)) : Prop where
  pos_le_last : ∀ fuel, ∀ call ∈ processRequestHeaders below locals fuel 0 (startLine r)
    (bufAt before first) more, call.pos ≤ call.last
  again_of_ranOut : ∀ fuel, ∀ call ∈ processRequestHeaders below locals fuel 0
    (startLine r) (bufAt before first) more, call.ranOut = true → call.code = .again
  results_le_whole : ∀ fuel, ∃ fuel',
    results (processRequestHeaders below locals fuel 0 (startLine r)
      (bufAt before first) more) <+:
    results (processRequestHeaders below wholeLocals fuel' 0 (startLine r)
      (bufAt before (first ++ more.flatten)) [])
  whole_le_results : ∀ fuel, ∃ fuel',
    results (processRequestHeaders below wholeLocals fuel 0 (startLine r)
      (bufAt before (first ++ more.flatten)) []) <+:
    results (processRequestHeaders below locals fuel' 0 (startLine r)
      (bufAt before first) more)

/-- The calls meet their contract exactly when the first bytes hold the block to its
end, so that no call needs more of them. -/
theorem chunksContract_iff (below : ℤ → Byte) (locals wholeLocals : ℕ → Locals)
    (r : Request) (before first : List Byte) (more : List (List Byte)) :
    ChunksContract below locals wholeLocals r before first more ↔
      CompleteBlock below first := by
  constructor
  · intro hcontract
    by_contra hincomplete
    obtain ⟨fuel, call, hcall, hpast⟩ :=
      exists_call_of_incomplete hincomplete locals 0 r before more
    have hpos := hcontract.pos_le_last fuel call hcall
    omega
  · intro hcomplete
    have hcalls : ∀ fuel, _ := fun fuel => calls_of_complete hcomplete locals wholeLocals
      fuel 0 0 r before more.flatten more []
    have hresults : ∀ fuel, results (processRequestHeaders below locals fuel 0 (startLine r)
        (bufAt before first) more) =
        results (processRequestHeaders below wholeLocals fuel 0 (startLine r)
          (bufAt before (first ++ more.flatten)) []) := by
      intro fuel
      rw [results, results, (hcalls fuel).2]
    constructor
    · intro fuel call hcall
      exact ((hcalls fuel).1 call hcall).1
    · intro fuel call hcall hranOut
      rw [((hcalls fuel).1 call hcall).2] at hranOut
      cases hranOut
    · intro fuel
      exact ⟨fuel, hresults fuel ▸ List.prefix_rfl⟩
    · intro fuel
      exact ⟨fuel, hresults fuel ▸ List.prefix_rfl⟩

/-- A header line cut in front of its last byte: the first call runs out of bytes,
returns `NIGHT_OK` and leaves `b->pos` behind `b->last`. -/
theorem not_chunksContract_cutLine :
    ¬ ChunksContract (fun _ => 0) (fun _ => ⟨0, 0⟩) (fun _ => ⟨0, 0⟩) freshRequest []
      [ascii 'A', ascii ':', ascii 'b', CR] [[LF, CR, LF]] := by
  intro hcontract
  have hpos := hcontract.pos_le_last 1 _ (List.mem_singleton.mpr rfl)
  exact absurd hpos (by decide)

end Night.HeaderLine
