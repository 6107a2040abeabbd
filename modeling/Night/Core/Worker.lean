import Night.Core.ConnectionRuns
import Night.Http.Finalize

/-!
# The worker

Who calls the functions of `night_connection.c`: the listening sockets and the channel when
the worker starts, `night_event_accept`, the handlers of HTTP connections, and the code that
shuts the worker down.  A run is a sequence of these callers in any order; what epoll, the
sockets and the allocator answer is part of each operation.
-/

namespace Night.Worker

open Night.Connections
open Night.HttpConnection
open Night.PhaseRun (nightHttpInternalServerError)

/-! ## Handlers of reusable connections -/

/-- The input is not looked at: the handler of a connection that is to be closed closes it. -/
def unusedInput : WaitInput := ⟨0, true, .again, false, true, true⟩

/-- `c->read->handler(c->read)` after `c->close = 1`.  Only connections that wait for a
request are reusable; another handler has no result here. -/
def closingHandler (c : ℕ) (s : Cycle) : Option Cycle :=
  match (s.events (readOf c)).handler with
  | .waitRequest => some (nightHttpWaitRequestHandler unusedInput c s)
  | .keepalive => some s
  | _ => none

/-! ## Accepting -/

/-- `night_enable_accept_events`; `added` is what epoll answers for each connection. -/
def nightEnableAcceptEvents (added : ℕ → Bool) : List ℕ → Cycle → Bool × Cycle
  | [], s => (true, s)
  | c :: listening, s =>
      if (s.events (readOf c)).active then nightEnableAcceptEvents added listening s
      else if added c then
        nightEnableAcceptEvents added listening
          (setEvent (readOf c) (fun ev => { ev with active := true }) s)
      else (false, s)

/-- `night_disable_accept_events`; with `NIGHT_CLOSE_EVENT` epoll is not asked. -/
def nightDisableAcceptEvents : List ℕ → Cycle → Cycle
  | [], s => s
  | c :: listening, s =>
      nightDisableAcceptEvents listening
        (if (s.events (readOf c)).active then
          setEvent (readOf c) (fun ev => { ev with active := false }) s
        else s)

def nightCloseAcceptedConnection (c : ℕ) (s : Cycle) : Cycle :=
  setConnection c (fun conn => { conn with fd := -1 }) (nightFreeConnection c s)

/-- What meets an accepted connection: its pool and address, its printed address, and
`night_http_init_connection`. -/
structure Newcomer where
  pool : Bool
  text : Bool
  allocated : Bool
  wait : WaitInput
  deriving DecidableEq, Repr

inductive Accepted where
  | again
  | aborted
  | noFiles
  | failed
  | socket (fd : ℤ) (newcomer : Newcomer)
  deriving DecidableEq, Repr

/-- `night_event_accept` for a new connection in the slot `c`. -/
def welcome (newcomer : Newcomer) (c : ℕ) (s : Cycle) : Cycle :=
  if !newcomer.pool then nightCloseAcceptedConnection c s
  else
    let s := setEvent (writeOf c) (fun ev => { ev with ready := true }) s
    let s := setEvent (readOf c) (fun ev => { ev with ready := true }) s
    if !newcomer.text then nightCloseAcceptedConnection c s
    else nightHttpInitConnection newcomer.allocated newcomer.wait c s

/-- `night_event_accept` after the event was found not to have timed out.  `ev->available`
is 0, so the loop runs once. -/
def acceptOnce (accepted : Accepted) (e : EventId) (s : Cycle) : Option Cycle :=
  let s := setEvent e (fun ev => { ev with ready := false }) s
  match accepted with
  | .again => some s
  | .aborted => some s
  | .noFiles => some (nightEventAddTimer e 600 (nightDisableAcceptEvents s.listening s))
  | .failed => some s
  | .socket fd newcomer => do
      let got ← nightGetConnection closingHandler fd s
      match got.1 with
      | none => some got.2
      | some c => some (welcome newcomer c got.2)

def nightEventAccept (added : ℕ → Bool) (accepted : Accepted) (e : EventId) (s : Cycle) :
    Option Cycle :=
  if (s.events e).timedout then
    let enabled := nightEnableAcceptEvents added s.listening s
    if !enabled.1 then some enabled.2
    else acceptOnce accepted e (setEvent e (fun ev => { ev with timedout := false }) enabled.2)
  else acceptOnce accepted e s

/-! ## Starting and stopping -/

/-- A listening socket in `night_event_core_process_init`. -/
def listen (fd : ℤ) (added : Bool) (s : Cycle) : Option Cycle := do
  let got ← nightGetConnection closingHandler fd s
  match got.1 with
  | none => some got.2
  | some c =>
      let s := setEvent (readOf c)
        (fun ev => { ev with accept := true, handler := .eventAccept, active := added }) got.2
      some { s with listening := s.listening ++ [c] }

def nightAddChannelEvent (fd : ℤ) (added : Bool) (s : Cycle) : Option Cycle := do
  let got ← nightGetConnection closingHandler fd s
  match got.1 with
  | none => some got.2
  | some c =>
      let s := setEvent (writeOf c) (fun ev => { ev with channel := true }) got.2
      let s := setEvent (readOf c) (fun ev => { ev with channel := true, handler := .channel }) s
      if added then some (setEvent (readOf c) (fun ev => { ev with active := true }) s)
      else some (nightFreeConnection c s)

/-- `night_channel_handler`: a channel that cannot be read is closed. -/
def nightChannelHandler (readable : Bool) (c : ℕ) (s : Cycle) : Cycle :=
  if readable then s else nightCloseConnection c s

/-- `night_close_listening_sockets`; `deleted` is what epoll answers.  A socket that is
closed (`ls[i].fd = -1`) leaves `listening`. -/
def nightCloseListeningSockets (deleted : ℕ → Bool) : List ℕ → Cycle → Cycle
  | [], s => s
  | c :: listening, s =>
      let s := { s with listening := listening }
      let s :=
        if (s.events (readOf c)).active && deleted c then
          setEvent (readOf c) (fun ev => { ev with active := false }) s
        else s
      let s := nightFreeConnection c s
      let s := setConnection c (fun conn => { conn with fd := -1 }) s
      nightCloseListeningSockets deleted listening s

/-- `night_close_idle_connections` from the slot `i` on. -/
def nightCloseIdleConnections : ℕ → ℕ → Cycle → Option Cycle
  | 0, _, s => some s
  | n + 1, i, s =>
      if (s.connections i).fd ≠ -1 ∧ (s.connections i).idle then do
        let s ← closingHandler i (setConnection i (fun conn => { conn with close := true }) s)
        nightCloseIdleConnections n (i + 1) s
      else nightCloseIdleConnections n (i + 1) s

/-- `ev->handler(ev)` for a posted event: only read events of kept connections are posted. -/
def postedHandler (e : EventId) (s : Cycle) : Option Cycle :=
  match (s.events e).handler with
  | .keepalive => some s
  | _ => none

/-- `night_event_process_posted`; the result is `none` when the queue does not run empty
within `fuel` events. -/
def nightEventProcessPosted : ℕ → Cycle → Option Cycle
  | fuel, s =>
      match s.postedEvents.next .head with
      | .head => some s
      | .null => none
      | .of e =>
          match fuel with
          | 0 => none
          | fuel + 1 => do
              let s ← postedHandler e (nightDeletePostedEvent e s)
              nightEventProcessPosted fuel s

/-! ## Requests -/

/-- What the functions that read and answer a request do to its connection. -/
inductive RequestStep where
  | wait (clientHeaderTimeout : ℤ) (added : Bool) (r : Request)
  | headers
  | process
  | close (r : Request) (rc : ℤ)
  | finalize (flags : Flags) (input : KeepaliveInput) (r : Request) (rc : ℤ)
  deriving DecidableEq, Repr

/-- The handlers of a connection while a request is read or answered. -/
def serving : Handler → Bool
  | .processRequestLine => true
  | .processRequestHeaders => true
  | .request => true
  | _ => false

/-- One of those steps for the connection `c`:
`night_http_read_request_header` without data, the change to the header handler,
`night_http_process_request`, `night_http_close_request`, `night_http_finalize_request`. -/
def requestStep (c : ℕ) (s : Cycle) : RequestStep → Cycle
  | .wait clientHeaderTimeout added r =>
      let s :=
        if !(s.events (readOf c)).timerSet then
          nightEventAddTimer (readOf c) clientHeaderTimeout s
        else s
      let handled := nightHandleReadEvent added (readOf c) s
      if handled.1 then handled.2
      else
        (nightHttpCloseRequest { r with connection := c } nightHttpInternalServerError handled.2).2
  | .headers => setEvent (readOf c) (fun ev => { ev with handler := .processRequestHeaders }) s
  | .process =>
      let s := delTimerIfSet (readOf c) s
      let s := setEvent (readOf c) (fun ev => { ev with handler := .request }) s
      setEvent (writeOf c) (fun ev => { ev with handler := .request }) s
  | .close r rc => (nightHttpCloseRequest { r with connection := c } rc s).2
  | .finalize flags input r rc =>
      (nightHttpFinalizeRequest flags input { r with connection := c } rc s).2

/-! ## Runs -/

/-- What the handler of a read event may meet. -/
structure EventInput where
  added : ℕ → Bool
  accepted : Accepted
  readable : Bool
  wait : WaitInput

inductive Operation where
  | listen (fd : ℤ) (added : Bool)
  | addChannel (fd : ℤ) (added : Bool)
  | readEvent (c : ℕ) (input : EventInput)
  | request (c : ℕ) (requestStep : RequestStep)
  | closeListening (deleted : ℕ → Bool)
  | closeIdle
  | processPosted
  | tick (msec : ℤ)

/-- The handler of a read event.  Those of requests do what `RequestStep` lists, one step
at a time; the remaining ones return at once. -/
def readHandler (input : EventInput) (c : ℕ) (s : Cycle) : Option Cycle :=
  match (s.events (readOf c)).handler with
  | .eventAccept => nightEventAccept input.added input.accepted (readOf c) s
  | .channel => some (nightChannelHandler input.readable c s)
  | .waitRequest => some (nightHttpWaitRequestHandler input.wait c s)
  | _ => some s

/-- One operation.  Events that are not active or belong to a closed connection are stale,
and only the connection of a request takes the steps of one. -/
def step (s : Cycle) : Operation → Option Cycle
  | .listen fd added => listen fd added s
  | .addChannel fd added => nightAddChannelEvent fd added s
  | .readEvent c input =>
      if c < s.connectionN ∧ (s.events (readOf c)).active ∧ (s.connections c).fd ≠ -1 then
        readHandler input c (setEvent (readOf c) (fun ev => { ev with ready := true }) s)
      else some s
  | .request c taken =>
      if c < s.connectionN ∧ (s.connections c).fd ≠ -1 ∧
          serving (s.events (readOf c)).handler then
        some (requestStep c s taken)
      else some s
  | .closeListening deleted => some (nightCloseListeningSockets deleted s.listening s)
  | .closeIdle => nightCloseIdleConnections s.connectionN 0 s
  | .processPosted => nightEventProcessPosted (2 * s.connectionN) s
  | .tick msec => some { s with currentMsec := msec }

/-- `night_close_listening_sockets` may be called when no listening socket waits for its
accept events to be enabled again. -/
def Clean (s : Cycle) : Operation → Prop
  | .closeListening _ => ∀ c ∈ s.listening, (s.events (readOf c)).timerSet = false
  | _ => True

instance decidableClean (s : Cycle) : ∀ operation, Decidable (Clean s operation)
  | .closeListening _ =>
      inferInstanceAs (Decidable (∀ c ∈ s.listening, (s.events (readOf c)).timerSet = false))
  | .listen _ _ => isTrue trivial
  | .addChannel _ _ => isTrue trivial
  | .readEvent _ _ => isTrue trivial
  | .request _ _ => isTrue trivial
  | .closeIdle => isTrue trivial
  | .processPosted => isTrue trivial
  | .tick _ => isTrue trivial

end Night.Worker
