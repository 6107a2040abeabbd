import Night.Http.RequestLine

/-!
# The request line in pieces

A request line may reach the buffer in any number of pieces.  The parser keeps
all it needs in the request, so the pieces give what one call on the whole line
gives.  The one exception is `r->state`: a call that ends with an error inside
the loop leaves there the state of the last pause.
-/

namespace Night.RequestLine

open Night.Bytes
open Night.HttpRequest
open Night.Scanner

/-- Call the parser after each piece until it returns something other than
`NIGHT_AGAIN`. -/
def parseInChunks (below : ℤ → BitVec 32) (r : Request) (b : Buf) :
    List (List Byte) → ParseCode × Request × Buf
  | [] => (.again, r, b)
  | chunk :: chunks =>
      match nightHttpParseRequestLine below r (b.receive chunk) with
      | (.again, r, b) => parseInChunks below r b chunks
      | ended => ended

/-- The request with another saved state. -/
abbrev withState (value : ℕ) (r : Request) : Request :=
  { r with state := value }

def Exit.withState (value : ℕ) : Exit → Exit
  | .fail code r => .fail code (RequestLine.withState value r)
  | .done p r => .done p (RequestLine.withState value r)

/-- No turn of the loop looks at `r->state`. -/
theorem requestLineStep_withState (below : ℤ → BitVec 32) (data : List Byte)
    (value p : ℕ) (current : State × Request) (ch : Byte) :
    requestLineStep below data p (current.1, withState value current.2) ch =
      (requestLineStep below data p current ch).map
        (fun next => (next.1, withState value next.2))
        (Exit.withState value) := by
  obtain ⟨state, r⟩ := current
  cases state with
  | swMethod =>
      have hmethod : methodOf data p { withState value r with methodEnd := some p } =
          methodOf data p { r with methodEnd := some p } := rfl
      simp only [requestLineStep, hmethod]
      split_ifs
      · cases methodOf data p { r with methodEnd := some p } <;> rfl
      · rfl
      · rfl
  | _ =>
      simp only [requestLineStep, expect, withState]
      try split_ifs
      all_goals rfl

/-- A comparison inside the received bytes does not see those still to come. -/
theorem strncmpEq_append {data : List Byte} {m : ℕ} (more word : List Byte)
    (hfits : m + word.length ≤ data.length) :
    strncmpEq (data ++ more) m word = strncmpEq data m word := by
  rw [strncmpEq, strncmpEq, List.drop_append_of_le_length (by omega),
    List.take_append_of_le_length (by rw [List.length_drop]; omega)]

/-- The comparison with a method name reads only bytes up to the current one. -/
theorem methodOf_append {data : List Byte} {p : ℕ} (more : List Byte)
    (r : Request) (hp : p < data.length) :
    methodOf (data ++ more) p r = methodOf data p r := by
  unfold methodOf
  cases r.requestStart with
  | none => rfl
  | some m =>
      by_cases hthree : m + 3 = p
      · have hfits : m + 4 ≤ data.length := by omega
        simp only [if_pos hthree, strncmpEq_append more [_, _, _, _] hfits]
      by_cases hfour : m + 4 = p
      · have hfits : m + 5 ≤ data.length := by omega
        have hsecond : (data ++ more)[m + 1]? = data[m + 1]? :=
          List.getElem?_append_left (by omega)
        simp only [if_neg hthree, if_pos hfour, hsecond,
          strncmpEq_append more [_, _, _, _, _] hfits]
      · simp only [if_neg hthree, if_neg hfour]

/-- A turn of the loop does not depend on bytes that are still to come. -/
theorem requestLineStep_append (below : ℤ → BitVec 32) {data : List Byte} {p : ℕ}
    (more : List Byte) (current : State × Request) (ch : Byte)
    (hp : p < data.length) :
    requestLineStep below (data ++ more) p current ch =
      requestLineStep below data p current ch := by
  obtain ⟨state, r⟩ := current
  cases state with
  | swMethod => simp only [requestLineStep, methodOf_append more _ hp]
  | _ => rfl

/-- The scan of one call does not depend on bytes that arrive after it. -/
theorem run_requestLine_append (below : ℤ → BitVec 32) (before chunk more : List Byte)
    (current : State × Request) :
    run (requestLineStep below (before ++ (chunk ++ more))) before.length current chunk =
      run (requestLineStep below (before ++ chunk)) before.length current chunk := by
  apply run_congr
  intro position current ch _ hhigh
  rw [← List.append_assoc]
  exact requestLineStep_append below more current ch (by simpa using hhigh)

/-- The saved state does not matter to a scan whose local state is given. -/
theorem run_withState (below : ℤ → BitVec 32) (data : List Byte) (value p : ℕ)
    (state : State) (r : Request) (input : List Byte) :
    run (requestLineStep below data) p (state, withState value r) input =
      (run (requestLineStep below data) p (state, r) input).map
        (fun next => (next.1, withState value next.2)) (Exit.withState value) :=
  run_map (fun next : State × Request => (next.1, withState value next.2))
    (Exit.withState value) (requestLineStep_withState below data value) p (state, r) input

/-- An exit of the loop that is an error is reported as an error. -/
def Exit.IsFinal : Exit → Prop
  | .fail code _ => code ≠ .ok ∧ code ≠ .again ∧ code ≠ .invalid09Method
  | .done _ _ => True

theorem requestLineStep_isFinal (below : ℤ → BitVec 32) (data : List Byte) (p : ℕ)
    (current : State × Request) (ch : Byte) (exit : Exit)
    (hstep : requestLineStep below data p current ch = .stop exit) : exit.IsFinal := by
  obtain ⟨state, r⟩ := current
  cases state with
  | swMethod =>
      simp only [requestLineStep] at hstep
      split_ifs at hstep
      · split at hstep
        · cases hstep
        · cases hstep
          exact ⟨by decide, by decide, by decide⟩
      · cases hstep
        exact ⟨by decide, by decide, by decide⟩
  | _ =>
      simp only [requestLineStep, expect] at hstep
      try split_ifs at hstep
      all_goals cases hstep
      all_goals trivial

theorem finishRequestLine_ne_again (p : ℕ) (r : Request) :
    (finishRequestLine p r).1 ≠ .again := by
  simp only [finishRequestLine]
  split <;> exact ParseCode.noConfusion

/-- How the result of a series of calls relates to one scan of all the bytes.
After an error only the saved state is left open. -/
def Agrees (result : ParseCode × Request × Buf) (last : ℕ) :
    Outcome (State × Request) Byte Exit → Prop
  | .more (state, r) =>
      result.1 = .again ∧ result.2.1 = withState state.toNat r ∧ result.2.2.pos = last
  | .stop (.done p r) _ =>
      result.1 = (finishRequestLine p r).1 ∧ result.2.1 = (finishRequestLine p r).2 ∧
        result.2.2.pos = p + 1
  | .stop (.fail code r) _ =>
      result.1 = code ∧ ∃ value, result.2.1 = withState value r

theorem Agrees.of_withState {result : ParseCode × Request × Buf} {last value : ℕ}
    {outcome : Outcome (State × Request) Byte Exit}
    (hagrees : Agrees result last
      (outcome.map (fun next => (next.1, withState value next.2))
        (Exit.withState value))) :
    Agrees result last outcome := by
  rcases outcome with ⟨state, r⟩ | ⟨⟨code, r⟩ | ⟨p, r⟩, rest⟩
  · exact hagrees
  · obtain ⟨hcode, saved, hrequest⟩ := hagrees
    exact ⟨hcode, saved, hrequest⟩
  · exact hagrees

/-- One call agrees with its scan. -/
theorem agrees_nightHttpParseRequestLine (below : ℤ → BitVec 32) (r : Request)
    (before input : List Byte) :
    Agrees (nightHttpParseRequestLine below r ⟨before ++ input, before.length⟩)
      (before.length + input.length)
      (run (requestLineStep below (before ++ input)) before.length
        (State.ofNat r.state, r) input) := by
  simp only [nightHttpParseRequestLine, Buf.unread, List.drop_left]
  cases hrun : run (requestLineStep below (before ++ input)) before.length
      (State.ofNat r.state, r) input with
  | more current => exact ⟨rfl, rfl, rfl⟩
  | stop exit rest =>
      cases exit with
      | done p r => exact ⟨rfl, rfl, rfl⟩
      | fail code r => exact ⟨rfl, r.state, rfl⟩

/-- The calls on the pieces agree with one scan of their concatenation. -/
theorem agrees_parseInChunks (below : ℤ → BitVec 32) (chunks : List (List Byte))
    (r : Request) (before : List Byte) :
    Agrees (parseInChunks below r ⟨before, before.length⟩ chunks)
      (before.length + chunks.flatten.length)
      (run (requestLineStep below (before ++ chunks.flatten)) before.length
        (State.ofNat r.state, r) chunks.flatten) := by
  induction chunks generalizing r before with
  | nil =>
      refine ⟨rfl, ?_, rfl⟩
      simp only [State.toNat_ofNat]
      rfl
  | cons chunk chunks ih =>
      rw [List.flatten_cons]
      have hfirst := run_requestLine_append below before chunk chunks.flatten
        (State.ofNat r.state, r)
      cases hrun : run (requestLineStep below (before ++ chunk)) before.length
          (State.ofNat r.state, r) chunk with
      | more current =>
          obtain ⟨state, paused⟩ := current
          have hcall : nightHttpParseRequestLine below r
              ⟨before ++ chunk, before.length⟩ =
              (.again, withState state.toNat paused,
                ⟨before ++ chunk, (before ++ chunk).length⟩) := by
            simp only [nightHttpParseRequestLine, Buf.unread, List.drop_left, hrun,
              List.length_append]
          have hnext := ih (withState state.toNat paused) (before ++ chunk)
          rw [hrun] at hfirst
          rw [run_append_of_more hfirst]
          simp only [State.ofNat_toNat, run_withState, List.append_assoc,
            List.length_append, Nat.add_assoc] at hnext
          simp only [parseInChunks, Buf.receive, hcall, List.length_append]
          exact hnext.of_withState
      | stop exit rest =>
          have hcall := agrees_nightHttpParseRequestLine below r before chunk
          rw [hrun] at hfirst hcall
          rw [run_append_of_stop hfirst]
          have hfinal := result_of_run_stop
            (requestLineStep_isFinal below (before ++ chunk)) hrun
          have hended : (nightHttpParseRequestLine below r
              ⟨before ++ chunk, before.length⟩).1 ≠ .again := by
            cases exit with
            | fail code r => exact hcall.1 ▸ hfinal.2.1
            | done p r => exact hcall.1 ▸ finishRequestLine_ne_again p r
          have hresult : parseInChunks below r ⟨before, before.length⟩
              (chunk :: chunks) = nightHttpParseRequestLine below r
                ⟨before ++ chunk, before.length⟩ := by
            simp only [parseInChunks, Buf.receive]
            split
            · rename_i hagain
              exact absurd (congrArg Prod.fst hagain) hended
            · rfl
          rw [hresult]
          cases exit with
          | fail code r => exact hcall
          | done p r => exact hcall

/-- Parsing a request line piece by piece and parsing it in one call give the
same code, the same `b->pos` on success and the same fields of the request.  The
saved state is the same too unless a call ended with an error in the loop. -/
theorem parseInChunks_eq_whole (below : ℤ → BitVec 32) (r : Request)
    (before : List Byte) (chunks : List (List Byte)) :
    let cut := parseInChunks below r ⟨before, before.length⟩ chunks
    let whole := nightHttpParseRequestLine below r
      ⟨before ++ chunks.flatten, before.length⟩
    cut.1 = whole.1 ∧
      (whole.1 = .ok → cut.2.2.pos = whole.2.2.pos) ∧
      withState 0 cut.2.1 = withState 0 whole.2.1 ∧
      (whole.1 = .ok ∨ whole.1 = .again ∨ whole.1 = .invalid09Method →
        cut.2.1.state = whole.2.1.state) := by
  intro cut whole
  have hcut := agrees_parseInChunks below chunks r before
  have hwhole := agrees_nightHttpParseRequestLine below r before chunks.flatten
  cases hrun : run (requestLineStep below (before ++ chunks.flatten)) before.length
      (State.ofNat r.state, r) chunks.flatten with
  | more current =>
      rw [hrun] at hcut hwhole
      obtain ⟨hcutCode, hcutRequest, hcutPos⟩ := hcut
      obtain ⟨hwholeCode, hwholeRequest, hwholePos⟩ := hwhole
      have hrequest : cut.2.1 = whole.2.1 := hcutRequest.trans hwholeRequest.symm
      exact ⟨hcutCode.trans hwholeCode.symm, fun _ => hcutPos.trans hwholePos.symm,
        congrArg _ hrequest, fun _ => congrArg _ hrequest⟩
  | stop exit rest =>
      have hfinal := result_of_run_stop (requestLineStep_isFinal below _) hrun
      rw [hrun] at hcut hwhole
      cases exit with
      | done p ended =>
          obtain ⟨hcutCode, hcutRequest, hcutPos⟩ := hcut
          obtain ⟨hwholeCode, hwholeRequest, hwholePos⟩ := hwhole
          have hrequest : cut.2.1 = whole.2.1 := hcutRequest.trans hwholeRequest.symm
          exact ⟨hcutCode.trans hwholeCode.symm, fun _ => hcutPos.trans hwholePos.symm,
            congrArg _ hrequest, fun _ => congrArg _ hrequest⟩
      | fail code ended =>
          obtain ⟨hcutCode, cutSaved, hcutRequest⟩ := hcut
          obtain ⟨hwholeCode, wholeSaved, hwholeRequest⟩ := hwhole
          obtain ⟨hok, hagain, hmethod⟩ := hfinal
          refine ⟨hcutCode.trans hwholeCode.symm, ?_, ?_, ?_⟩
          · intro hcode
            exact absurd (hwholeCode.symm.trans hcode) hok
          · rw [hcutRequest, hwholeRequest]
          · rintro (hcode | hcode | hcode)
            · exact absurd (hwholeCode.symm.trans hcode) hok
            · exact absurd (hwholeCode.symm.trans hcode) hagain
            · exact absurd (hwholeCode.symm.trans hcode) hmethod

/-- The saved state does depend on the cut: `GE1` fails in one call with the
state of a fresh request and in two calls with the state of the pause after `G`. -/
theorem parseInChunks_state_ne_whole :
    (parseInChunks (fun _ => 0) freshRequest ⟨[], 0⟩
        [[ascii 'G'], [ascii 'E', ascii '1']]).2.1.state ≠
      (nightHttpParseRequestLine (fun _ => 0) freshRequest
        ⟨[ascii 'G', ascii 'E', ascii '1'], 0⟩).2.1.state := by
  decide

end Night.RequestLine
