import Mathlib.Algebra.Group.Int.Defs
import Mathlib.Data.List.Range
import Night.Lib.Chains
import Night.Lib.Rings

/-!
# `night_connection.c`

The connection slots of a worker with their read and write events, the free list, the
queue of reusable connections, the timers and the queue of posted events.  A slot is the
index of a connection in `night_cycle->connections`.
-/

namespace Night.Connections

open Night.Chains
open Night.Rings

/-! ## State -/

/-- The handlers that read events of connections have. -/
inductive Handler where
  | null
  | eventAccept
  | channel
  | waitRequest
  | processRequestLine
  | processRequestHeaders
  | request
  | keepalive
  | empty
  deriving DecidableEq, Repr

structure Event where
  handler : Handler
  write : Bool
  accept : Bool
  channel : Bool
  ready : Bool
  timedout : Bool
  timerSet : Bool
  active : Bool
  instanceBit : Bool
  closed : Bool
  posted : Bool
  timerKey : ℤ
  deriving DecidableEq, Repr

/-- An event after `night_memzero`. -/
def zeroEvent : Event :=
  ⟨.null, false, false, false, false, false, false, false, false, false, false, 0⟩

/-- The events `c->read` and `c->write` of a slot. -/
structure EventId where
  slot : ℕ
  write : Bool
  deriving DecidableEq, Repr

def readOf (c : ℕ) : EventId := ⟨c, false⟩

def writeOf (c : ℕ) : EventId := ⟨c, true⟩

structure Connection where
  fd : ℤ
  reusable : Bool
  close : Bool
  idle : Bool
  destroyed : Bool
  sent : ℕ
  next : Option ℕ
  deriving DecidableEq, Repr

/-- A connection after `night_memzero`, with its descriptor. -/
def zeroConnection (fd : ℤ) : Connection := ⟨fd, false, false, false, false, 0, none⟩

/-- The queue fields of the elements, the sentinel, and `NULL`. -/
inductive QueueCell (α : Type) where
  | null
  | head
  | of (a : α)
  deriving DecidableEq, Repr

/-- The worker.  `timers` are the events in the timer tree, `listening` the connections
of the listening sockets, and `inUse` the slots that were taken from the free list and
have not been given back. -/
structure Cycle where
  connectionN : ℕ
  connections : ℕ → Connection
  events : EventId → Event
  filesN : ℕ
  files : ℤ → Option ℕ
  freeConnections : Option ℕ
  freeConnectionN : ℤ
  reusableConnectionsN : ℤ
  reusableQueue : Links (QueueCell ℕ)
  postedEvents : Links (QueueCell EventId)
  timers : List EventId
  currentMsec : ℤ
  listening : List ℕ
  inUse : List ℕ

def setConnection (c : ℕ) (f : Connection → Connection) (s : Cycle) : Cycle :=
  { s with connections := Function.update s.connections c (f (s.connections c)) }

def setEvent (e : EventId) (f : Event → Event) (s : Cycle) : Cycle :=
  { s with events := Function.update s.events e (f (s.events e)) }

/-! ## Timers and posted events -/

def nightEventDelTimer (e : EventId) (s : Cycle) : Cycle :=
  setEvent e (fun ev => { ev with timerKey := 0, timerSet := false })
    { s with timers := s.timers.erase e }

/-- `NIGHT_TIMER_LAZY_DELAY`. -/
def nightTimerLazyDelay : ℕ := 600

def nightEventAddTimer (e : EventId) (timer : ℤ) (s : Cycle) : Cycle :=
  let key := s.currentMsec + timer
  if (s.events e).timerSet ∧ (key - (s.events e).timerKey).natAbs < nightTimerLazyDelay then s
  else
    let s := if (s.events e).timerSet then nightEventDelTimer e s else s
    setEvent e (fun ev => { ev with timerKey := key, timerSet := true })
      { s with timers := e :: s.timers }

/-- `if (ev->timer_set) night_event_del_timer(ev)`. -/
def delTimerIfSet (e : EventId) (s : Cycle) : Cycle :=
  if (s.events e).timerSet then nightEventDelTimer e s else s

def nightAddPostEvent (e : EventId) (s : Cycle) : Cycle :=
  if (s.events e).posted then s
  else
    setEvent e (fun ev => { ev with posted := true })
      { s with postedEvents := insertTail .head (.of e) s.postedEvents }

def nightDeletePostedEvent (e : EventId) (s : Cycle) : Cycle :=
  setEvent e (fun ev => { ev with posted := false })
    { s with postedEvents := remove (.of e) s.postedEvents }

def deletePostedIfPosted (e : EventId) (s : Cycle) : Cycle :=
  if (s.events e).posted then nightDeletePostedEvent e s else s

/-! ## Connections -/

def nightFreeConnection (c : ℕ) (s : Cycle) : Cycle :=
  let s := setConnection c (fun conn => { conn with next := s.freeConnections }) s
  let s := { s with
    freeConnections := some c
    freeConnectionN := s.freeConnectionN + 1
    inUse := s.inUse.erase c }
  if s.files (s.connections c).fd = some c then
    { s with files := Function.update s.files (s.connections c).fd none }
  else s

/-- The first half of `night_reusable_connection`. -/
def leaveReusableQueue (c : ℕ) (s : Cycle) : Cycle :=
  if (s.connections c).reusable then
    { s with
      reusableQueue := remove (.of c) s.reusableQueue
      reusableConnectionsN := s.reusableConnectionsN - 1 }
  else s

def nightReusableConnection (c : ℕ) (reusable : Bool) (s : Cycle) : Cycle :=
  let s := leaveReusableQueue c s
  let s := setConnection c (fun conn => { conn with reusable := reusable }) s
  if reusable then
    { s with
      reusableQueue := insertHead .head (.of c) s.reusableQueue
      reusableConnectionsN := s.reusableConnectionsN + 1 }
  else s

/-- `night_del_conn(c, NIGHT_CLOSE_EVENT)`: closing the descriptor removes it from epoll. -/
def nightDelConn (c : ℕ) (s : Cycle) : Cycle :=
  setEvent (writeOf c) (fun ev => { ev with active := false })
    (setEvent (readOf c) (fun ev => { ev with active := false }) s)

/-- `c->read->closed = 1; c->write->closed = 1;` -/
def markClosed (c : ℕ) (s : Cycle) : Cycle :=
  setEvent (writeOf c) (fun ev => { ev with closed := true })
    (setEvent (readOf c) (fun ev => { ev with closed := true }) s)

def nightCloseConnection (c : ℕ) (s : Cycle) : Cycle :=
  if (s.connections c).fd = -1 then s
  else
    let s := delTimerIfSet (writeOf c) (delTimerIfSet (readOf c) s)
    let s := nightDelConn c s
    let s := deletePostedIfPosted (writeOf c) (deletePostedIfPosted (readOf c) s)
    let s := nightReusableConnection c false (markClosed c s)
    let s := nightFreeConnection c s
    setConnection c (fun conn => { conn with fd := -1 }) s

/-! ## Taking a connection -/

section Get

-- `c->read->handler(c->read)`; without a result where the handler cannot be one of a
-- reusable connection
variable (handler : ℕ → Cycle → Option Cycle)

/-- The loop of `night_drain_connections`; the connection is the last one it asked to
close. -/
def drainLoop : ℕ → Option ℕ → Cycle → Option (Option ℕ × Cycle)
  | 0, last, s => some (last, s)
  | n + 1, last, s =>
      match s.reusableQueue.prev .head with
      | .head => some (last, s)
      | .of c => do
          let s ← handler c (setConnection c (fun conn => { conn with close := true }) s)
          drainLoop n (some c) s
      | .null => none

def nightDrainConnections (s : Cycle) : Option Cycle :=
  if s.freeConnectionN > s.connectionN / 16 ∨ s.reusableConnectionsN = 0 then some s
  else do
    let n := s.reusableConnectionsN.tdiv 8
    let n := if n < 1 then 1 else if n > 8 then 8 else n
    let drained ← drainLoop handler n.toNat none s
    let s := drained.2
    match drained.1 with
    | none => some s
    | some c =>
        if s.freeConnectionN = 0 ∧ (s.connections c).reusable then
          handler c (setConnection c (fun conn => { conn with close := true }) s)
        else some s

/-- The two `NULL` pointers of a queue field after `night_memzero`. -/
def zeroLinks {α : Type} [DecidableEq α] (a : α) (links : Links (QueueCell α)) :
    Links (QueueCell α) :=
  setNext (.of a) .null (setPrev (.of a) .null links)

/-- `night_get_connection` from the point where the slot `c` is at the head of the free
list. -/
def takeConnection (socket : ℤ) (c : ℕ) (s : Cycle) : Cycle :=
  let s := { s with
    freeConnections := (s.connections c).next
    freeConnectionN := s.freeConnectionN - 1
    inUse := c :: s.inUse
    files := if s.files socket = none then Function.update s.files socket (some c) else s.files }
  let instanceBit := (s.events (readOf c)).instanceBit
  let s := setConnection c (fun _ => zeroConnection socket)
    { s with reusableQueue := zeroLinks c s.reusableQueue }
  let s := setEvent (readOf c) (fun _ => { zeroEvent with instanceBit := !instanceBit })
    { s with postedEvents := zeroLinks (readOf c) s.postedEvents }
  setEvent (writeOf c) (fun _ => { zeroEvent with instanceBit := !instanceBit, write := true })
    { s with postedEvents := zeroLinks (writeOf c) s.postedEvents }

/-- `night_get_connection`: the slot, or `NULL`. -/
def nightGetConnection (socket : ℤ) (s : Cycle) : Option (Option ℕ × Cycle) :=
  if (s.filesN : ℤ) ≤ socket % 2 ^ 64 then some (none, s)
  else do
    let s ← nightDrainConnections handler s
    match s.freeConnections with
    | none => some (none, s)
    | some c => some (some c, takeConnection socket c s)

end Get

/-! ## Initialisation -/

/-- The loop of `night_event_core_process_init` over the slots, the last one first. -/
def linkFree : ℕ → Option ℕ → (ℕ → Connection) → Option ℕ × (ℕ → Connection)
  | 0, next, connections => (next, connections)
  | i + 1, next, connections =>
      linkFree i (some i) (Function.update connections i { zeroConnection (-1) with next := next })

/-- The worker after that loop; `night_events_module` asks for at least one connection. -/
def nightEventCoreProcessInit (connectionN filesN : ℕ) (currentMsec : ℤ) : Cycle :=
  let linked := linkFree connectionN none fun _ => zeroConnection 0
  { connectionN := connectionN
    connections := linked.2
    events := fun e => { zeroEvent with closed := true, instanceBit := !e.write }
    filesN := filesN
    files := fun _ => none
    freeConnections := linked.1
    freeConnectionN := connectionN
    reusableConnectionsN := 0
    reusableQueue := init .head ⟨fun _ => .null, fun _ => .null⟩
    postedEvents := init .head ⟨fun _ => .null, fun _ => .null⟩
    timers := []
    currentMsec := currentMsec
    listening := []
    inUse := [] }

/-! ## The law -/

/-- The four lists and counters agree with each other and with the slots. -/
structure Accounted (s : Cycle) (free queue : List ℕ) (posted : List EventId) : Prop where
  freeChain : Chain (fun c => (s.connections c).next) s.freeConnections free
  slots : (free ++ s.inUse).Perm (List.range s.connectionN)
  freeCount : s.freeConnectionN = free.length
  queueRing : Ring s.reusableQueue .head (queue.map .of)
  queueCount : s.reusableConnectionsN = queue.length
  reusable_iff : ∀ c < s.connectionN, (s.connections c).reusable = true ↔ c ∈ queue
  queue_inUse : ∀ c ∈ queue, c ∈ s.inUse
  timersNodup : s.timers.Nodup
  timerSet_iff : ∀ e, e.slot < s.connectionN → ((s.events e).timerSet = true ↔ e ∈ s.timers)
  timers_inUse : ∀ e ∈ s.timers, e.slot ∈ s.inUse
  postedRing : Ring s.postedEvents .head (posted.map .of)
  posted_iff : ∀ e, e.slot < s.connectionN → ((s.events e).posted = true ↔ e ∈ posted)
  posted_inUse : ∀ e ∈ posted, e.slot ∈ s.inUse

end Night.Connections
