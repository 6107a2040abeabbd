import Night.Http.HeaderCalls
import Night.Http.ReadHeader
import Night.Http.RequestLineChunks

/-!
# What the parsers see of the bytes received

As long as `night_http_read_request_header` receives nothing, the bytes of the first
`recv` are what the parsers see.  A turn of a loop then takes bytes out of the buffer,
leaves the loop, or clears `rev->ready`, so the loops come to an end.
-/

namespace Night.ReadHeader

open Night.Bytes
open Night.HttpRequest
open Night.Scanner
open Night.RequestLine (requestLineStep nightHttpParseRequestLine)
open Night.HeaderLine (headerLineStep nightHttpParseHeaderLine)

variable {image : Image} {t : Turn} {turns : ℕ → Turn} {size : ℕ} {c : Control} {s : State}

/-! ## The buffer -/

/-- Behind the bytes used, the buffer shows the rest. -/
theorem unread_behind {b : Buf} {used rest : List Byte} (hsplit : b.unread = used ++ rest)
    {p : ℕ} (hp : p + rest.length = b.pos + b.unread.length) :
    (⟨b.data, p⟩ : Buf).unread = rest := by
  have hlength := congrArg List.length hsplit
  rw [List.length_append] at hlength
  have hposition : p = b.pos + used.length := by omega
  calc b.data.drop p
      _ = b.unread.drop used.length := by rw [hposition, ← List.drop_drop]; rfl
      _ = rest := by rw [hsplit, List.drop_left]

theorem unread_eq_nil_iff (b : Buf) : b.unread = [] ↔ b.last ≤ b.pos :=
  List.drop_eq_nil_iff

/-- A parser that stops has used what is in front of the rest. -/
theorem usedBytes_stop {Local Result : Type*}
    {step : ℕ → Local → Byte → Verdict Local Result} {p : ℕ} {current : Local}
    {unread rest : List Byte} {result : Result}
    (hrun : run step p current unread = .stop result rest) :
    usedBytes unread (run step p current unread) ++ rest = unread ∧
      rest.length < unread.length := by
  obtain ⟨used, hne, hsplit⟩ := exists_consumed_of_stop hrun
  have hpos := List.length_pos_iff.mpr hne
  rw [hrun, usedBytes, hsplit, List.length_append, Nat.add_sub_cancel, List.take_left]
  exact ⟨rfl, by omega⟩

/-- Where `goto done` leaves the loop of the request-line parser. -/
theorem requestLineStep_done (below : ℤ → BitVec 32) (data : List Byte) (p : ℕ)
    (current : RequestLine.State × Request) (ch : Byte) (exit : RequestLine.Exit) (_ : True)
    (hstep : requestLineStep below data p current ch = .stop exit) :
    ∀ q r, exit = .done q r → q = p := by
  obtain ⟨state, r⟩ := current
  cases state with
  | swMethod =>
      simp only [requestLineStep] at hstep
      split_ifs at hstep
      · split at hstep
        · cases hstep
        · cases hstep
          exact fun _ _ hexit => RequestLine.Exit.noConfusion hexit
      · cases hstep
        exact fun _ _ hexit => RequestLine.Exit.noConfusion hexit
  | _ =>
      simp only [requestLineStep, RequestLine.expect] at hstep
      try split_ifs at hstep
      all_goals cases hstep
      all_goals
        intro q r' hexit
        cases hexit
        try rfl

/-! ## One turn -/

/-- What holds between the turns until the header is done: what was received has been seen
or is in the buffer. -/
structure Holds (s : State) : Prop where
  balanced : s.seen ++ s.buf.unread = s.received
  empty : s.handler = .waitRequest → s.buf = ⟨[], 0⟩
  lineStart : s.handler = .processRequestHeaders → s.request.state = 0

/-- The state at the head of a turn. -/
def Held : Control → State → Prop
  | .waitRequest, s => Holds s ∧ s.handler = .waitRequest
  | .requestLine, s => Holds s ∧ s.handler = .processRequestLine
  | .headers _, s => Holds s ∧ s.handler = .processRequestHeaders
  | .suspended, s => Holds s
  | .finished _, _ => True

structure Sound (x : Control × State) : Prop where
  inOrder : InOrder x.2
  held : Held x.1 x.2

theorem inOrder_called (horder : InOrder s) (hs : Holds s) (used : List Byte) (r : Request)
    (b : Buf) : InOrder (s.called used r b) := by
  intro call hcall
  rcases List.mem_append.mp hcall with hcall | hcall
  · exact horder call hcall
  · rw [List.mem_singleton.mp hcall]
    exact hs.balanced

/-- A call that has used what its buffer no longer shows keeps the balance. -/
theorem called_balanced (hs : Holds s) {used : List Byte} (r : Request) {b : Buf}
    (hused : used ++ b.unread = s.buf.unread) :
    (s.called used r b).seen ++ (s.called used r b).buf.unread =
      (s.called used r b).received := by
  show s.seen ++ used ++ b.unread = s.received
  rw [List.append_assoc, hused]
  exact hs.balanced

/-- How far a loop is from its end. -/
def rank : Control × State → ℕ
  | (.requestLine, s) => s.buf.unread.length + 2 + s.ready.toNat
  | (.headers _, s) => s.buf.unread.length + 1
  | _ => 0

/-- The request-line parser uses the bytes it is shown, and comes back with fewer or with
none. -/
theorem parseRequestLine_spec (image : Image) (t : Turn) (horder : InOrder s) (hs : Holds s)
    (hhandler : s.handler = .processRequestLine) :
    Sound (parseRequestLine image t s) ∧
      ((parseRequestLine image t s).1.Idle ∨ ((parseRequestLine image t s).1 ≠ .waitRequest ∧
        (rank (parseRequestLine image t s) < s.buf.unread.length + 2 ∨
          rank (parseRequestLine image t s) = 2 + s.ready.toNat))) := by
  have hnotWait : s.handler ≠ .waitRequest := by rw [hhandler]; decide
  have hnotHeaders : s.handler ≠ .processRequestHeaders := by rw [hhandler]; decide
  have hcalls := inOrder_called horder hs
  rw [parseRequestLine]
  cases hrun : run (requestLineStep image.uriBelow s.buf.data) s.buf.pos
      (RequestLine.State.ofNat s.request.state, s.request) s.buf.unread with
  | more next =>
      -- the whole buffer is used, and the state is saved for the next call
      have hparsed : nightHttpParseRequestLine image.uriBelow s.request s.buf =
          (.again, { next.2 with state := next.1.toNat },
            ⟨s.buf.data, s.buf.pos + s.buf.unread.length⟩) := by
        rw [nightHttpParseRequestLine, hrun]
      have hnone : (⟨s.buf.data, s.buf.pos + s.buf.unread.length⟩ : Buf).unread = [] :=
        unread_behind (List.append_nil _).symm (by rw [List.length_nil, Nat.add_zero])
      have hholds : Holds (s.called s.buf.unread { next.2 with state := next.1.toNat }
          ⟨s.buf.data, s.buf.pos + s.buf.unread.length⟩) :=
        ⟨called_balanced hs _ (by rw [hnone, List.append_nil]), fun h => absurd h hnotWait,
          fun h => absurd h hnotHeaders⟩
      simp only [hparsed, usedBytes]
      split
      · exact ⟨⟨hcalls _ _ _, trivial⟩, .inl trivial⟩
      · refine ⟨⟨hcalls _ _ _, hholds, hhandler⟩, .inr ⟨by simp, .inr ?_⟩⟩
        show (⟨s.buf.data, s.buf.pos + s.buf.unread.length⟩ : Buf).unread.length + 2 +
          s.ready.toNat = _
        rw [hnone, List.length_nil, Nat.zero_add]
  | stop exit rest =>
      obtain ⟨hused, hshorter⟩ := usedBytes_stop hrun
      rw [hrun] at hused
      cases exit with
      | fail code r =>
          have hparsed : nightHttpParseRequestLine image.uriBelow s.request s.buf =
              (code, r, s.buf) := by
            rw [nightHttpParseRequestLine, hrun]
          have hfinal := result_of_run_stop
            (RequestLine.requestLineStep_isFinal image.uriBelow s.buf.data) hrun
          simp only [hparsed]
          split
          · exact absurd rfl hfinal.1
          · exact absurd rfl hfinal.2.1
          · exact ⟨⟨hcalls _ _ _, trivial⟩, .inl trivial⟩
      | done p r =>
          have hparsed : nightHttpParseRequestLine image.uriBelow s.request s.buf =
              ((RequestLine.finishRequestLine p r).1, (RequestLine.finishRequestLine p r).2,
                ⟨s.buf.data, p + 1⟩) := by
            rw [nightHttpParseRequestLine, hrun]
          obtain ⟨final, hlength, hfinal⟩ := result_of_invariant
            (fun _ _ _ _ _ _ => trivial) (requestLineStep_done image.uriBelow s.buf.data)
            trivial hrun
          obtain rfl := hfinal p r rfl
          have hrest : (⟨s.buf.data, p + 1⟩ : Buf).unread = rest :=
            unread_behind hused.symm hlength
          generalize usedBytes s.buf.unread (.stop (RequestLine.Exit.done p r) rest) = used at *
          have hbehind : used ++ (⟨s.buf.data, p + 1⟩ : Buf).unread = s.buf.unread := by
            rw [hrest]
            exact hused
          have horder' := hcalls used (RequestLine.finishRequestLine p r).2 ⟨s.buf.data, p + 1⟩
          simp only [hparsed]
          split
          · refine ⟨⟨horder', ⟨?_, by simp, fun _ => rfl⟩, rfl⟩, .inr ⟨by simp, .inl ?_⟩⟩
            · exact called_balanced hs (RequestLine.finishRequestLine p r).2 hbehind
            · show (⟨s.buf.data, p + 1⟩ : Buf).unread.length + 1 < _
              rw [hrest]
              omega
          · rename_i hagain
            exact absurd hagain (RequestLine.finishRequestLine_ne_again p r)
          · exact ⟨⟨hcalls _ _ _, trivial⟩, .inl trivial⟩

/-- The header-line parser starts a line in `sw_start`. -/
theorem parsed_of_lineStart (hstart : s.request.state = 0) :
    HeaderLine.State.ofNat s.request.state = .swStart := by
  rw [hstart]
  rfl

/-- What becomes of a header line leaves the buffer and the calls alone. -/
theorem takeHeaderLine_spec (image : Image) (t : Turn) (horder : InOrder s) (hs : Holds s)
    (hhandler : s.handler = .processRequestHeaders) :
    Sound (takeHeaderLine image t s) ∧ ((takeHeaderLine image t s).1.Idle ∨
      ((takeHeaderLine image t s).1 ≠ .waitRequest ∧
        rank (takeHeaderLine image t s) = s.buf.unread.length + 1)) := by
  rw [takeHeaderLine]
  split
  · exact ⟨⟨horder, hs, hhandler⟩, .inr ⟨nofun, rfl⟩⟩
  dsimp only
  split
  · exact ⟨⟨horder, hs, hhandler⟩, .inr ⟨nofun, rfl⟩⟩
  split
  · exact ⟨⟨horder, trivial⟩, .inl trivial⟩
  · exact ⟨⟨horder, ⟨hs.balanced, hs.empty, hs.lineStart⟩, hhandler⟩, .inr ⟨nofun, rfl⟩⟩

/-- A call of the header-line parser that does not run out of bytes uses some. -/
theorem parseHeaderLine_spec (horder : InOrder s) (hs : Holds s)
    (hhandler : s.handler = .processRequestHeaders) (hruns : runsOut image t s = false) :
    Sound (parseHeaderLine image t s) ∧ ((parseHeaderLine image t s).1.Idle ∨
      ((parseHeaderLine image t s).1 ≠ .waitRequest ∧
        rank (parseHeaderLine image t s) < s.buf.unread.length + 1)) := by
  have hcalls := inOrder_called horder hs
  have hstart := parsed_of_lineStart (hs.lineStart hhandler)
  rw [parseHeaderLine]
  cases hrun : run (headerLineStep image.lowcaseBelow) s.buf.pos
      (HeaderLine.State.ofNat s.request.state, t.locals, s.request) s.buf.unread with
  | more next =>
      rw [runsOut, HeaderLine.runsOut, hrun] at hruns
      cases hruns
  | stop exit rest =>
      obtain ⟨hused, hshorter⟩ := usedBytes_stop hrun
      rw [hrun] at hused
      rw [hstart] at hrun
      have hinit : HeaderLine.Recorded s.buf.pos (.swStart, t.locals, s.request) := trivial
      obtain ⟨final, hlength, hrecorded⟩ := result_of_invariant
        (HeaderLine.recorded_more image.lowcaseBelow)
        (HeaderLine.recorded_stop image.lowcaseBelow) hinit hrun
      rw [← hstart] at hrun
      cases exit with
      | invalid r =>
          have hparsed : nightHttpParseHeaderLine image.lowcaseBelow t.locals s.request s.buf =
              (.invalidHeader, r, s.buf) := by
            rw [nightHttpParseHeaderLine, hrun]
          simp only [hparsed]
          exact ⟨⟨hcalls _ _ _, trivial⟩, .inl trivial⟩
      | headerDone p r =>
          have hparsed : nightHttpParseHeaderLine image.lowcaseBelow t.locals s.request s.buf =
              (.headerDone, { r with state := HeaderLine.swStartValue },
                ⟨s.buf.data, p + 1⟩) := by
            rw [nightHttpParseHeaderLine, hrun]
          generalize usedBytes s.buf.unread (.stop (HeaderLine.Exit.headerDone p r) rest) =
            used at *
          have horder' := hcalls used { r with state := HeaderLine.swStartValue }
            ⟨s.buf.data, p + 1⟩
          simp only [hparsed]
          split
          · exact ⟨⟨horder', trivial⟩, .inl trivial⟩
          · exact ⟨⟨horder', trivial⟩, .inl trivial⟩
      | done p locals r =>
          have hparsed : nightHttpParseHeaderLine image.lowcaseBelow t.locals s.request s.buf =
              HeaderLine.finishHeaderLine p locals r s.buf := by
            rw [nightHttpParseHeaderLine, hrun]
          obtain ⟨rfl, -, -⟩ := hrecorded
          have hrest : (⟨s.buf.data, p + 1⟩ : Buf).unread = rest :=
            unread_behind hused.symm hlength
          generalize usedBytes s.buf.unread (.stop (HeaderLine.Exit.done p locals r) rest) =
            used at *
          have hbehind : used ++ (⟨s.buf.data, p + 1⟩ : Buf).unread = s.buf.unread := by
            rw [hrest]
            exact hused
          simp only [hparsed, HeaderLine.finishHeaderLine]
          generalize hr' : ({ r with
            state := HeaderLine.swStartValue
            headerHash := locals.hash
            lowcaseIndex := locals.i } : Request) = r'
          have hholds : Holds (s.called used r' ⟨s.buf.data, p + 1⟩) := by
            refine ⟨called_balanced hs r' hbehind, ?_, ?_⟩
            · intro hwait
              exact absurd (hhandler.symm.trans hwait) (by decide)
            · intro _
              rw [← hr']
              rfl
          have htaken := takeHeaderLine_spec image t
            (hcalls used r' ⟨s.buf.data, p + 1⟩) hholds hhandler
          refine ⟨htaken.1, htaken.2.imp_right fun hgoes => ⟨hgoes.1, ?_⟩⟩
          rw [hgoes.2]
          show (⟨s.buf.data, p + 1⟩ : Buf).unread.length + 1 < _
          rw [hrest]
          omega

/-- A read that receives nothing clears `rev->ready`, and returns a count only if it was
set. -/
theorem readRequestHeader_empty (hempty : s.buf.last ≤ s.buf.pos)
    (hbytes : Receives s → ¬ (t.recv.limit (s.size - s.buf.last)).IsBytes) :
    ∃ ended, nightHttpReadRequestHeader t s = (ended, { s with ready := false }) ∧
      (ended = .count → s.ready = true ∧ t.recv.limit (s.size - s.buf.last) = .closed) := by
  rw [nightHttpReadRequestHeader, if_neg (Nat.not_lt.mpr hempty)]
  by_cases hready : s.ready = true
  · have hnot := hbytes ⟨hempty, hready⟩
    rw [if_pos hready]
    cases hrecv : t.recv.limit (s.size - s.buf.last) with
    | again =>
        refine ⟨_, rfl, ?_⟩
        split <;> exact nofun
    | error => exact ⟨_, rfl, nofun⟩
    | closed => exact ⟨_, rfl, fun _ => ⟨hready, rfl⟩⟩
    | bytes first rest ready =>
        rw [hrecv] at hnot
        exact absurd trivial hnot
  · rw [if_neg hready]
    refine ⟨_, rfl, ?_⟩
    split <;> exact nofun

theorem readRequestHeader_unread (hunread : s.buf.pos < s.buf.last) :
    nightHttpReadRequestHeader t s = (.count, s) := by
  rw [nightHttpReadRequestHeader, if_pos hunread]

theorem limit_again (size : ℕ) : Recv.again.limit size = .again := by
  cases size <;> rfl

theorem limit_error (size : ℕ) : Recv.error.limit size = .error := by
  cases size <;> rfl

theorem Holds.notReady (hs : Holds s) : Holds { s with ready := false } :=
  ⟨hs.balanced, hs.empty, hs.lineStart⟩

/-- A turn of the loop over the request line. -/
theorem requestLine_spec (horder : InOrder s) (hs : Holds s)
    (hhandler : s.handler = .processRequestLine) (hmeets : Meets image t (.requestLine, s)) :
    let y := nightHttpProcessRequestLine image t s
    Sound y ∧ (y.1.Idle ∨ (y.1 ≠ .waitRequest ∧ rank y < rank (.requestLine, s))) := by
  rw [nightHttpProcessRequestLine]
  by_cases hunread : s.buf.pos < s.buf.last
  · have hlength : 0 < s.buf.unread.length := by
      rw [Buf.unread, List.length_drop]
      exact Nat.sub_pos_of_lt hunread
    obtain ⟨hsound, hcloser⟩ := parseRequestLine_spec image t horder hs hhandler
    rw [readRequestHeader_unread hunread]
    refine ⟨hsound, hcloser.imp_right fun hgoes => ⟨hgoes.1, ?_⟩⟩
    have hrank := hgoes.2
    show _ < s.buf.unread.length + 2 + s.ready.toNat
    dsimp only
    omega
  · have hempty := Nat.not_lt.mp hunread
    obtain ⟨ended, hread, hcount⟩ := readRequestHeader_empty hempty hmeets
    rw [hread]
    cases ended with
    | again => exact ⟨⟨horder, hs.notReady⟩, .inl trivial⟩
    | error => exact ⟨⟨horder, hs.notReady⟩, .inl trivial⟩
    | closed => exact ⟨⟨horder, trivial⟩, .inl trivial⟩
    | count =>
        obtain ⟨hready, -⟩ := hcount rfl
        have hnone : s.buf.unread = [] := (unread_eq_nil_iff s.buf).mpr hempty
        obtain ⟨hsound, hcloser⟩ :=
          parseRequestLine_spec (s := { s with ready := false }) image t horder hs.notReady
            hhandler
        refine ⟨hsound, hcloser.imp_right fun hgoes => ⟨hgoes.1, ?_⟩⟩
        have hrank := hgoes.2
        show _ < s.buf.unread.length + 2 + s.ready.toNat
        rw [hnone] at hrank ⊢
        rw [hready]
        simp only [List.length_nil, Bool.toNat_false, Bool.toNat_true] at hrank ⊢
        omega

/-- A turn of the loop over the header lines. -/
theorem headers_spec {again : Bool} (horder : InOrder s) (hs : Holds s)
    (hhandler : s.handler = .processRequestHeaders)
    (hmeets : Meets image t (.headers again, s)) :
    let y := nightHttpProcessRequestHeaders image t again s
    Sound y ∧ (y.1.Idle ∨ (y.1 ≠ .waitRequest ∧ rank y < rank (.headers again, s))) := by
  rw [nightHttpProcessRequestHeaders]
  cases again with
  | false => exact parseHeaderLine_spec horder hs hhandler hmeets
  | true =>
      rw [if_pos rfl]
      by_cases hunread : s.buf.pos < s.buf.last
      · rw [Meets, if_pos hunread] at hmeets
        rw [readRequestHeader_unread hunread]
        exact parseHeaderLine_spec horder hs hhandler hmeets
      · rw [Meets, if_neg hunread] at hmeets
        have hempty := Nat.not_lt.mp hunread
        have hlimit : Receives s → ¬ (t.recv.limit (s.size - s.buf.last)).IsBytes ∧
            t.recv.limit (s.size - s.buf.last) ≠ .closed := by
          intro hreceives
          rcases hmeets hreceives with hrecv | hrecv
          · rw [hrecv, limit_again]
            exact ⟨id, nofun⟩
          · rw [hrecv, limit_error]
            exact ⟨id, nofun⟩
        obtain ⟨ended, hread, hcount⟩ :=
          readRequestHeader_empty hempty fun hreceives => (hlimit hreceives).1
        rw [hread]
        cases ended with
        | again => exact ⟨⟨horder, hs.notReady⟩, .inl trivial⟩
        | error => exact ⟨⟨horder, hs.notReady⟩, .inl trivial⟩
        | closed => exact ⟨⟨horder, trivial⟩, .inl trivial⟩
        | count =>
            obtain ⟨hready, hclosed⟩ := hcount rfl
            exact absurd hclosed (hlimit ⟨hempty, hready⟩).2

/-- The first bytes of a request go to an empty buffer. -/
theorem waitRequest_spec (t : Turn) (horder : InOrder s) (hs : Holds s)
    (hhandler : s.handler = .waitRequest) :
    let y := nightHttpWaitRequestHandler t s
    Sound y ∧ (y.1.Idle ∨ y.1 = .requestLine) := by
  rw [nightHttpWaitRequestHandler]
  cases t.recv.limit s.size with
  | again =>
      cases t.added with
      | true => exact ⟨⟨horder, hs.notReady⟩, .inl trivial⟩
      | false => exact ⟨⟨horder, trivial⟩, .inl trivial⟩
  | error => exact ⟨⟨horder, trivial⟩, .inl trivial⟩
  | closed => exact ⟨⟨horder, trivial⟩, .inl trivial⟩
  | bytes first rest ready =>
      refine ⟨⟨horder, ⟨?_, nofun, nofun⟩, rfl⟩, .inr rfl⟩
      have hbalanced := hs.balanced
      rw [hs.empty hhandler] at hbalanced
      show s.seen ++ (s.buf.receive (first :: rest)).unread = s.received ++ first :: rest
      rw [hs.empty hhandler, ← hbalanced]
      show s.seen ++ (first :: rest) = s.seen ++ [] ++ first :: rest
      rw [List.append_nil]

theorem event_spec (t : Turn) (horder : InOrder s) (hs : Holds s) : Sound (event t s) := by
  have hready : Holds { s with ready := t.ready } := ⟨hs.balanced, hs.empty, hs.lineStart⟩
  rw [event]
  split
  · exact ⟨horder, trivial⟩
  split
  · rename_i hhandler
    split
    · exact ⟨horder, trivial⟩
    · exact ⟨horder, hready, hhandler⟩
  · rename_i hhandler
    exact ⟨horder, hready, hhandler⟩
  · rename_i hhandler
    exact ⟨horder, hready, hhandler⟩

/-- One turn keeps what is known about the bytes, and brings a running loop closer to its
end. -/
theorem step_spec {x : Control × State} (hx : Sound x) (hmeets : Meets image t x) :
    Sound (step image t x) ∧ (x.1.Idle ∨ (step image t x).1.Idle ∨
      (x.1 = .waitRequest ∧ (step image t x).1 = .requestLine) ∨
      ((step image t x).1 ≠ .waitRequest ∧ rank (step image t x) < rank x)) := by
  obtain ⟨c, s⟩ := x
  obtain ⟨horder, hheld⟩ := hx
  cases c with
  | waitRequest =>
      obtain ⟨hsound, hends⟩ := waitRequest_spec t horder hheld.1 hheld.2
      exact ⟨hsound, .inr (hends.imp_right fun hline => .inl ⟨rfl, hline⟩)⟩
  | requestLine =>
      obtain ⟨hsound, hends⟩ := requestLine_spec horder hheld.1 hheld.2 hmeets
      exact ⟨hsound, .inr (hends.imp_right .inr)⟩
  | headers again =>
      obtain ⟨hsound, hends⟩ := headers_spec horder hheld.1 hheld.2 hmeets
      exact ⟨hsound, .inr (hends.imp_right .inr)⟩
  | suspended => exact ⟨event_spec t horder hheld, .inl trivial⟩
  | finished accepted => exact ⟨⟨horder, trivial⟩, .inl trivial⟩

theorem parseRequestLine_calls (image : Image) (t : Turn) (s : State) :
    (parseRequestLine image t s).2.calls =
      s.calls ++ [⟨s.seen, s.buf.unread, s.received⟩] := by
  rw [parseRequestLine]
  split
  · rfl
  · split <;> rfl
  · rfl

theorem takeHeaderLine_cases (image : Image) (t : Turn) (s : State) :
    ((takeHeaderLine image t s).1 = .headers false ∨
      (takeHeaderLine image t s).1 = .finished false) ∧
      (takeHeaderLine image t s).2.buf = s.buf ∧
      (takeHeaderLine image t s).2.calls = s.calls := by
  rw [takeHeaderLine]
  split
  · exact ⟨.inl rfl, rfl, rfl⟩
  dsimp only
  split
  · exact ⟨.inl rfl, rfl, rfl⟩
  split
  · exact ⟨.inr rfl, rfl, rfl⟩
  · exact ⟨.inl rfl, rfl, rfl⟩

theorem parseHeaderLine_calls (image : Image) (t : Turn) (s : State) :
    (parseHeaderLine image t s).2.calls =
      s.calls ++ [⟨s.seen, s.buf.unread, s.received⟩] := by
  rw [parseHeaderLine]
  split
  · rw [(takeHeaderLine_cases image t _).2.2]
    rfl
  · split <;> rfl
  · rfl
  · rfl

/-- Bytes that `night_http_read_request_header` receives are not shown to the parser, so the
order is lost for good. -/
theorem not_inOrder_of_bytes (hs : Holds s) (hreceives : Receives s)
    (hbytes : (t.recv.limit (s.size - s.buf.last)).IsBytes) :
    ¬ InOrder (nightHttpProcessRequestLine image t s).2 ∧
      ¬ InOrder (nightHttpProcessRequestHeaders image t true s).2 := by
  have hnone : s.buf.unread = [] := (unread_eq_nil_iff s.buf).mpr hreceives.1
  have hseen : s.seen = s.received := by
    rw [← hs.balanced, hnone, List.append_nil]
  cases hrecv : t.recv.limit (s.size - s.buf.last) with
  | again => rw [hrecv] at hbytes; exact absurd hbytes id
  | error => rw [hrecv] at hbytes; exact absurd hbytes id
  | closed => rw [hrecv] at hbytes; exact absurd hbytes id
  | bytes first rest ready =>
      let s' : State := { s with ready := ready, received := s.received ++ first :: rest }
      have hread : nightHttpReadRequestHeader t s = (.count, s') := by
        rw [nightHttpReadRequestHeader, if_neg (Nat.not_lt.mpr hreceives.1),
          if_pos hreceives.2, hrecv]
      have hlost : ∀ y : State, y.calls = s'.calls ++ [⟨s'.seen, s'.buf.unread, s'.received⟩] →
          ¬ InOrder y := by
        intro y hcalls horder
        have hcall : s'.seen ++ s'.buf.unread = s'.received :=
          horder ⟨s'.seen, s'.buf.unread, s'.received⟩
            (by rw [hcalls]; exact List.mem_append_right _ (List.mem_singleton_self _))
        have hlength := congrArg List.length hcall
        have hsame : s'.seen.length = s.received.length := congrArg List.length hseen
        have hempty : s'.buf.unread.length = 0 := congrArg List.length hnone
        have hmore : s'.received.length = s.received.length + (rest.length + 1) := by
          rw [show s'.received = s.received ++ first :: rest from rfl, List.length_append,
            List.length_cons]
        rw [List.length_append] at hlength
        omega
      constructor
      · rw [nightHttpProcessRequestLine, hread]
        exact hlost _ (parseRequestLine_calls image t s')
      · rw [nightHttpProcessRequestHeaders, if_pos rfl, hread]
        exact hlost _ (parseHeaderLine_calls image t s')

/-! ## Runs -/

theorem sound_start (size : ℕ) : Sound (start size) where
  inOrder := nofun
  held := ⟨rfl, fun _ => rfl, nofun⟩

theorem sound_run (hmeets : ∀ n, Meets image (turns n) (runFor image turns size n)) (n : ℕ) :
    Sound (runFor image turns size n) := by
  induction n with
  | zero => exact sound_start size
  | succ n ih => exact (step_spec ih (hmeets n)).1

/-- With nothing to show, the header-line parser finds a line, and the loop goes on unless
the handler of that line refuses it. -/
theorem parseHeaderLine_empty (image : Image) (t : Turn) (hnone : s.buf.unread = []) :
    let y := parseHeaderLine image t s
    (y.1 = .headers false ∧ y.2.buf.unread = []) ∨ y.1 = .finished false := by
  have hbehind : (⟨s.buf.data, s.buf.pos + 1⟩ : Buf).unread = [] := by
    rw [unread_eq_nil_iff] at hnone ⊢
    exact Nat.le_succ_of_le hnone
  have hparsed : (nightHttpParseHeaderLine image.lowcaseBelow t.locals s.request s.buf).1 = .ok ∧
      (nightHttpParseHeaderLine image.lowcaseBelow t.locals s.request s.buf).2.2 =
        ⟨s.buf.data, s.buf.pos + 1⟩ := by
    rw [nightHttpParseHeaderLine, hnone]
    exact ⟨rfl, rfl⟩
  rw [parseHeaderLine]
  simp only [hparsed.1]
  obtain ⟨hends, hbuf, -⟩ := takeHeaderLine_cases image t (s.called
    (usedBytes s.buf.unread (run (headerLineStep image.lowcaseBelow) s.buf.pos
      (HeaderLine.State.ofNat s.request.state, t.locals, s.request) s.buf.unread))
    (nightHttpParseHeaderLine image.lowcaseBelow t.locals s.request s.buf).2.1
    (nightHttpParseHeaderLine image.lowcaseBelow t.locals s.request s.buf).2.2)
  refine hends.imp_left fun hheaders => ⟨hheaders, ?_⟩
  rw [hbuf, State.called, hparsed.2]
  exact hbehind

/-- A header that breaks off behind its request line keeps the loop running: it is never
suspended and never accepts the header, whatever `recv` would return. -/
theorem headers_endless {n : ℕ} (hheaders : (runFor image turns size n).1 = .headers false)
    (hnone : (runFor image turns size n).2.buf.unread = []) (m : ℕ) :
    ((runFor image turns size (n + m)).1 = .headers false ∧
      (runFor image turns size (n + m)).2.buf.unread = []) ∨
        (runFor image turns size (n + m)).1 = .finished false := by
  induction m with
  | zero => exact .inl ⟨hheaders, hnone⟩
  | succ m ih =>
      show ((step image (turns (n + m)) (runFor image turns size (n + m))).1 = _ ∧
        (step image (turns (n + m)) (runFor image turns size (n + m))).2.buf.unread = []) ∨
          (step image (turns (n + m)) (runFor image turns size (n + m))).1 = _
      generalize runFor image turns size (n + m) = x at ih ⊢
      obtain ⟨c, s⟩ := x
      rcases ih with ⟨hc, hempty⟩ | hc
      · obtain rfl := hc
        exact parseHeaderLine_empty image (turns (n + m)) hempty
      · obtain rfl := hc
        exact .inr rfl

end Night.ReadHeader
