import Night.Core.Connection
import Night.Http.PhaseRun

/-!
# HTTP connections and the end of a request

The functions of `night_http_connection.c` and `night_http_request.c` that open, keep and
close connections, and `night_http_finalize_request` with everything it calls.  What the
system and the allocator answer is part of the input.
-/

namespace Night.HttpConnection

open Night.Connections
open Night.PhaseRun (nightDone)

/-- `night_handle_read_event`; `added` is whether epoll takes the event. -/
def nightHandleReadEvent (added : Bool) (e : EventId) (s : Cycle) : Bool × Cycle :=
  if !(s.events e).active && !(s.events e).ready then
    if added then (true, setEvent e (fun ev => { ev with active := true }) s) else (false, s)
  else (true, s)

def nightHttpCloseConnection (c : ℕ) (s : Cycle) : Cycle :=
  nightCloseConnection c (setConnection c (fun conn => { conn with destroyed := true }) s)

/-! ## Waiting for a request -/

inductive RecvResult where
  | again
  | error
  | closed
  | bytes
  deriving DecidableEq, Repr

/-- What `night_http_wait_request_handler` meets: the buffer, `recv` and `rev->ready`
behind it, epoll, and the request record. -/
structure WaitInput where
  clientHeaderTimeout : ℤ
  buffer : Bool
  recv : RecvResult
  ready : Bool
  added : Bool
  created : Bool
  deriving DecidableEq, Repr

def nightHttpWaitRequestHandler (input : WaitInput) (c : ℕ) (s : Cycle) : Cycle :=
  if (s.events (readOf c)).timedout then nightHttpCloseConnection c s
  else if (s.connections c).close then nightHttpCloseConnection c s
  else if !input.buffer then nightHttpCloseConnection c s
  else
    let s := setEvent (readOf c) (fun ev => { ev with ready := input.ready }) s
    match input.recv with
    | .again =>
        let s :=
          if !(s.events (readOf c)).timerSet then
            nightReusableConnection c true
              (nightEventAddTimer (readOf c) input.clientHeaderTimeout s)
          else s
        let handled := nightHandleReadEvent input.added (readOf c) s
        if handled.1 then handled.2 else nightHttpCloseConnection c handled.2
    | .error => nightHttpCloseConnection c s
    | .closed => nightHttpCloseConnection c s
    | .bytes =>
        let s := nightReusableConnection c false s
        if !input.created then nightHttpCloseConnection c s
        else setEvent (readOf c) (fun ev => { ev with handler := .processRequestLine }) s

/-- `night_http_init_connection`; `allocated` is whether there is memory for the
`night_http_connection_t`. -/
def nightHttpInitConnection (allocated : Bool) (input : WaitInput) (c : ℕ) (s : Cycle) :
    Cycle :=
  if !allocated then nightHttpCloseConnection c s
  else
    let s := setEvent (readOf c) (fun ev => { ev with handler := .waitRequest }) s
    let s := setEvent (writeOf c) (fun ev => { ev with handler := .empty }) s
    if (s.events (readOf c)).ready then nightHttpWaitRequestHandler input c s
    else
      let s := nightEventAddTimer (readOf c) input.clientHeaderTimeout s
      let s := nightReusableConnection c true s
      let handled := nightHandleReadEvent input.added (readOf c) s
      if handled.1 then handled.2 else nightHttpCloseConnection c handled.2

/-! ## The end of a request -/

/-- A main request.  `pool` is whether `r->pool` is set, that is, the request is not
freed. -/
structure Request where
  connection : ℕ
  count : ℤ
  blocked : Bool
  keepalive : Bool
  pool : Bool
  status : ℤ
  requestLineLen : ℕ
  deriving DecidableEq, Repr

/-- The global flags of the worker. -/
structure Flags where
  terminate : Bool
  exiting : Bool
  deriving DecidableEq, Repr

/-- What `night_http_set_keepalive` meets: epoll and the socket option. -/
structure KeepaliveInput where
  keepaliveTimeout : ℤ
  added : Bool
  nodelay : Bool
  deriving DecidableEq, Repr

def nightHttpFreeRequest (r : Request) (rc : ℤ) (s : Cycle) : Request × Cycle :=
  if !r.pool then (r, s)
  else
    let c := r.connection
    let r :=
      if rc > 0 ∧ (r.status = 0 ∨ (s.connections c).sent = 0) then
        { r with status := rc }
      else r
    ({ r with requestLineLen := 0, pool := false },
      setConnection c (fun conn => { conn with destroyed := true }) s)

def nightHttpCloseRequest (r : Request) (rc : ℤ) (s : Cycle) : Request × Cycle :=
  let c := r.connection
  let r := { r with count := r.count - 1 }
  if r.count ≠ 0 ∨ r.blocked then (r, s)
  else
    let freed := nightHttpFreeRequest r rc s
    (freed.1, nightHttpCloseConnection c freed.2)

/-- `night_http_set_keepalive` once the read event is handled. -/
def keepConnection (input : KeepaliveInput) (c : ℕ) (s : Cycle) : Cycle :=
  let s := setEvent (writeOf c) (fun ev => { ev with handler := .empty }) s
  let s := setEvent (readOf c) (fun ev => { ev with handler := .keepalive }) s
  if !input.nodelay then nightHttpCloseConnection c s
  else
    let s := setConnection c (fun conn => { conn with idle := true }) s
    let s := nightReusableConnection c true s
    let s := nightEventAddTimer (readOf c) input.keepaliveTimeout s
    if (s.events (readOf c)).ready then nightAddPostEvent (readOf c) s else s

def nightHttpSetKeepalive (input : KeepaliveInput) (r : Request) (s : Cycle) :
    Request × Cycle :=
  let c := r.connection
  let freed := nightHttpFreeRequest { r with keepalive := false } 0 s
  let handled := nightHandleReadEvent input.added (readOf c) freed.2
  (freed.1,
    if !handled.1 then nightHttpCloseConnection c handled.2
    else keepConnection input c handled.2)

def nightHttpFinalizeConnection (flags : Flags) (input : KeepaliveInput) (r : Request)
    (s : Cycle) : Request × Cycle :=
  if r.count ≠ 1 then nightHttpCloseRequest r 0 s
  else if !flags.terminate && !flags.exiting && r.keepalive then
    nightHttpSetKeepalive input r s
  else (r, s)

def nightHttpFinalizeRequest (flags : Flags) (input : KeepaliveInput) (r : Request) (rc : ℤ)
    (s : Cycle) : Request × Cycle :=
  if rc = nightDone then nightHttpFinalizeConnection flags input r s
  else nightHttpFinalizeConnection flags input r s

end Night.HttpConnection
