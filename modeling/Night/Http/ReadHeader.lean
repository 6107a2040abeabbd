import Night.Http.RequestHeader
import Night.Http.RequestLine

/-!
# Reading a request header

`night_http_wait_request_handler` receives the first bytes of a request, and the loops of
`night_http_process_request_line` and `night_http_process_request_headers` ask
`night_http_read_request_header` for more.  The machine goes through these functions turn
by turn; what the system answers in a turn is its input.
-/

namespace Night.ReadHeader

open Night.Bytes
open Night.Hash
open Night.HttpRequest
open Night.Scanner
open Night.HeaderLine (tableElt findHeader)
open Night.RequestLine (requestLineStep nightHttpParseRequestLine)
open Night.HeaderLine (headerLineStep nightHttpParseHeaderLine)
open Night.RequestHeader (HeadersIn freshHeadersIn callHandler nightHttpProcessRequestHeader
  nightError nightDeclined)

/-! ## Input -/

/-- What `recv` returns: `NIGHT_AGAIN`, `NIGHT_ERROR`, 0 for the end of the stream, or a
positive count with the bytes and `rev->ready` behind the call.  The other results clear
`rev->ready`. -/
inductive Recv where
  | again
  | error
  | closed
  | bytes (first : Byte) (rest : List Byte) (ready : Bool)
  deriving DecidableEq, Repr

/-- `recv` with room for `size` bytes. -/
def Recv.limit : ℕ → Recv → Recv
  | 0, .bytes _ _ _ => .closed
  | size + 1, .bytes first rest ready => .bytes first (rest.take size) ready
  | _, answer => answer

/-- What a turn meets: `recv` and epoll, what uninitialised locals hold (the result of
`night_http_alloc_large_header_buffer`, the locals of the header-line parser and the
result of `night_http_validate_host`), and the event that arrives when the connection
waits for one. -/
structure Turn where
  recv : Recv
  added : Bool
  largeBuffer : ℤ
  locals : HeaderLine.Locals
  validHost : ℤ
  ready : Bool
  timedout : Bool
  close : Bool

/-- The program image: what lies in front of the tables of the two parsers, and the hash of
the known header lines. -/
structure Image where
  uriBelow : ℤ → BitVec 32
  lowcaseBelow : ℤ → Byte
  table : NightHash

/-! ## State -/

/-- `rev->handler`. -/
inductive Handler where
  | waitRequest
  | processRequestLine
  | processRequestHeaders
  deriving DecidableEq, Repr

/-- Where the program is: at the head of one of the handlers, in the loop over the request
line, in the loop over the header lines with `rc == NIGHT_AGAIN` or not, in the event loop,
or done with the header, which was accepted or not. -/
inductive Control where
  | waitRequest
  | requestLine
  | headers (again : Bool)
  | suspended
  | finished (accepted : Bool)
  deriving DecidableEq, Repr

/-- None of the reading loops is running. -/
def Control.Idle : Control → Prop
  | .suspended => True
  | .finished _ => True
  | _ => False

/-- A call of a parser: the bytes that earlier calls have seen, those it is shown, and those
that were received so far. -/
structure ParserCall where
  before : List Byte
  shown : List Byte
  received : List Byte
  deriving DecidableEq, Repr

/-- The connection with `r->header_in`, which is `size` bytes long; `received`, `seen` and
`calls` are records of what has happened. -/
structure State where
  size : ℕ
  buf : Buf
  request : Request
  headersIn : HeadersIn
  ready : Bool
  handler : Handler
  received : List Byte
  seen : List Byte
  calls : List ParserCall

/-- A connection that waits for its first request. -/
def start (size : ℕ) : Control × State :=
  (.suspended,
    { size := size
      buf := ⟨[], 0⟩
      request := freshRequest
      headersIn := freshHeadersIn
      ready := false
      handler := .waitRequest
      received := []
      seen := []
      calls := [] })

/-- The bytes a parser has looked at. -/
def usedBytes {Local Result : Type*} (unread : List Byte) :
    Outcome Local Byte Result → List Byte
  | .more _ => unread
  | .stop _ rest => unread.take (unread.length - rest.length)

/-- A parser was called with `header_in`, has looked at `used` and left `r` and `b`. -/
def State.called (used : List Byte) (r : Request) (b : Buf) (s : State) : State :=
  { s with
    request := r
    buf := b
    seen := s.seen ++ used
    calls := s.calls ++ [⟨s.seen, s.buf.unread, s.received⟩] }

/-! ## Functions -/

/-- How `night_http_read_request_header` ends: with `NIGHT_AGAIN`, with `NIGHT_ERROR` from
`recv`, with `NIGHT_ERROR` behind `night_http_close_request`, or with a count. -/
inductive ReadEnd where
  | again
  | error
  | closed
  | count
  deriving DecidableEq, Repr

/-- `night_http_read_request_header`.  Bytes are received behind `header_in->last`, which
stays where it is. -/
def nightHttpReadRequestHeader (t : Turn) (s : State) : ReadEnd × State :=
  if s.buf.pos < s.buf.last then (.count, s)
  else
    match if s.ready then t.recv.limit (s.size - s.buf.last) else .again with
    | .again => (if t.added then .again else .closed, { s with ready := false })
    | .error => (.error, { s with ready := false })
    | .closed => (.count, { s with ready := false })
    | .bytes first rest ready =>
        (.count, { s with ready := ready, received := s.received ++ first :: rest })

/-- `night_http_wait_request_handler` behind its first checks. -/
def nightHttpWaitRequestHandler (t : Turn) (s : State) : Control × State :=
  match t.recv.limit s.size with
  | .again => (if t.added then .suspended else .finished false, { s with ready := false })
  | .error => (.finished false, { s with ready := false })
  | .closed => (.finished false, { s with ready := false })
  | .bytes first rest ready =>
      (.requestLine, { s with
        buf := s.buf.receive (first :: rest)
        ready := ready
        handler := .processRequestLine
        received := s.received ++ first :: rest })

/-- The parser call of `night_http_process_request_line` and what follows it in the loop.
`night_http_alloc_large_header_buffer` returns a local that it never sets. -/
def parseRequestLine (image : Image) (t : Turn) (s : State) : Control × State :=
  let outcome := run (requestLineStep image.uriBelow s.buf.data) s.buf.pos
    (RequestLine.State.ofNat s.request.state, s.request) s.buf.unread
  let parsed := nightHttpParseRequestLine image.uriBelow s.request s.buf
  let s := s.called (usedBytes s.buf.unread outcome) parsed.2.1 parsed.2.2
  match parsed.1 with
  | .ok => (.headers true, { s with handler := .processRequestHeaders })
  | .again =>
      if s.buf.pos = s.size ∧ (t.largeBuffer = nightError ∨ t.largeBuffer = nightDeclined) then
        (.finished false, s)
      else (.requestLine, s)
  | _ => (.finished false, s)

/-- A turn of the loop of `night_http_process_request_line`; an error of `recv` leaves the
loop like `NIGHT_AGAIN`. -/
def nightHttpProcessRequestLine (image : Image) (t : Turn) (s : State) : Control × State :=
  match nightHttpReadRequestHeader t s with
  | (.again, s) => (.suspended, s)
  | (.error, s) => (.suspended, s)
  | (.closed, s) => (.finished false, s)
  | (.count, s) => parseRequestLine image t s

/-- What `night_http_process_request_headers` does with a header line. -/
def takeHeaderLine (image : Image) (t : Turn) (s : State) : Control × State :=
  if s.request.invalidHeader then (.headers false, s)
  else
    let h := tableElt s.request s.buf
    match (findHeader image.table h).join with
    | none => (.headers false, s)
    | some hh =>
        match callHandler t.validHost h hh s.headersIn with
        | .error _ => (.finished false, s)
        | .ok headersIn => (.headers false, { s with headersIn := headersIn })

/-- The parser call of `night_http_process_request_headers` and what follows it in the
loop. -/
def parseHeaderLine (image : Image) (t : Turn) (s : State) : Control × State :=
  let outcome := run (headerLineStep image.lowcaseBelow) s.buf.pos
    (HeaderLine.State.ofNat s.request.state, t.locals, s.request) s.buf.unread
  let parsed := nightHttpParseHeaderLine image.lowcaseBelow t.locals s.request s.buf
  let s := s.called (usedBytes s.buf.unread outcome) parsed.2.1 parsed.2.2
  match parsed.1 with
  | .ok => takeHeaderLine image t s
  | .headerDone =>
      match nightHttpProcessRequestHeader s.request.httpVersion s.request.method.toNat
          s.headersIn with
      | .error _ => (.finished false, s)
      | .ok headersIn => (.finished true, { s with headersIn := headersIn })
  | .again => (.headers true, s)
  | _ => (.finished false, s)

/-- A turn of the loop of `night_http_process_request_headers`.  It ignores the result of
`night_http_alloc_large_header_buffer`. -/
def nightHttpProcessRequestHeaders (image : Image) (t : Turn) (again : Bool) (s : State) :
    Control × State :=
  if again then
    match nightHttpReadRequestHeader t s with
    | (.again, s) => (.suspended, s)
    | (.error, s) => (.suspended, s)
    | (.closed, s) => (.finished false, s)
    | (.count, s) => parseHeaderLine image t s
  else parseHeaderLine image t s

/-- An event arrives for a connection that waits. -/
def event (t : Turn) (s : State) : Control × State :=
  let s := { s with ready := t.ready }
  if t.timedout then (.finished false, s)
  else
    match s.handler with
    | .waitRequest => if t.close then (.finished false, s) else (.waitRequest, s)
    | .processRequestLine => (.requestLine, s)
    | .processRequestHeaders => (.headers true, s)

/-- One turn. -/
def step (image : Image) (t : Turn) : Control × State → Control × State
  | (.waitRequest, s) => nightHttpWaitRequestHandler t s
  | (.requestLine, s) => nightHttpProcessRequestLine image t s
  | (.headers again, s) => nightHttpProcessRequestHeaders image t again s
  | (.suspended, s) => event t s
  | (.finished accepted, s) => (.finished accepted, s)

/-- The state after `n` turns. -/
def runFor (image : Image) (turns : ℕ → Turn) (size : ℕ) : ℕ → Control × State
  | 0 => start size
  | n + 1 => step image (turns n) (runFor image turns size n)

/-! ## The law -/

/-- The parsers see the bytes received in order and each once: what earlier calls have seen
and what a call is shown are together what was received. -/
def InOrder (s : State) : Prop :=
  ∀ call ∈ s.calls, call.before ++ call.shown = call.received

/-- The parsers see what was received, and the reading loops come to an end. -/
structure Lawful (image : Image) (turns : ℕ → Turn) (size : ℕ) : Prop where
  inOrder : ∀ n, InOrder (runFor image turns size n).2
  ends : ∀ n, ∃ m, n ≤ m ∧ (runFor image turns size m).1.Idle

/-- The call of the header-line parser runs out of bytes. -/
def runsOut (image : Image) (t : Turn) (s : State) : Bool :=
  HeaderLine.runsOut image.lowcaseBelow t.locals s.request s.buf

/-- `night_http_read_request_header` calls `recv`. -/
def Receives (s : State) : Prop := s.buf.last ≤ s.buf.pos ∧ s.ready = true

/-- `recv` hands over bytes. -/
def Recv.IsBytes : Recv → Prop
  | .bytes _ _ _ => True
  | _ => False

/-- No bytes are received by `night_http_read_request_header`, and no call of the header-line
parser runs out of bytes. -/
def Meets (image : Image) (t : Turn) : Control × State → Prop
  | (.requestLine, s) => Receives s → ¬ (t.recv.limit (s.size - s.buf.last)).IsBytes
  | (.headers true, s) =>
      if s.buf.pos < s.buf.last then runsOut image t s = false
      else Receives s → t.recv = .again ∨ t.recv = .error
  | (.headers false, s) => runsOut image t s = false
  | _ => True

end Night.ReadHeader
