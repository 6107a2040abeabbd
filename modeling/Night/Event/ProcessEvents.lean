import Mathlib.Algebra.Group.Even
import Night.Core.ConnectionRuns
import Night.Event.Epoll

/-!
# `night_epoll_process_events`

The loop over the events that `epoll_wait` returns, over the worker of
`Night.Core.Connection`.  A handler is a sequence of actions in any order, among them those
that close connections and take slots.  How often a slot was taken is counted beside the
code, and a pointer that was given to `epoll_ctl` remembers that count.
-/

namespace Night.ProcessEvents

open Night.Connections
open Night.Epoll (Mask Rc EPOLLIN EPOLLOUT EPOLLRDHUP)
open Night.Rings
open Night.Runs

def EPOLLERR : Mask := 0x008#32
def EPOLLHUP : Mask := 0x010#32

def nightUpdateTime : BitVec 32 := 1#32
def nightPostEvents : BitVec 32 := 2#32

def nightTimerInfinite : ℤ := -1

/-- `event_list[i].data.ptr`: the connection and the low bit, and the use of the slot in which
the event was registered. -/
structure Pointer where
  slot : ℕ
  instance_ : Bool
  use : ℕ
  deriving DecidableEq, Repr

structure EpollEvent where
  data : Pointer
  events : Mask
  deriving DecidableEq, Repr

/-- The worker, and what its events hold besides. -/
structure State where
  cycle : Cycle
  pendingEof : EventId → Bool
  available : EventId → ℤ
  postedAcceptEvents : Links (QueueCell EventId)
  uses : ℕ → ℕ
  registered : List Pointer

/-! ## What handlers do -/

/-- The actions of handlers.  What is written to an event or a connection by `setsEvent` and
`setsConnection` leaves alone what `epoll` and `night_connection.c` write. -/
inductive Act where
  | closes (c : ℕ)
  | frees (c : ℕ)
  | closesFd (c : ℕ)
  | takes (socket : ℤ)
  | asksToClose (c : ℕ)
  | addEvent (e : EventId)
  | delEvent (e : EventId)
  | addTimer (e : EventId) (timer : ℤ)
  | delTimer (e : EventId)
  | posts (e : EventId)
  | reusable (c : ℕ) (reusable : Bool)
  | setsEvent (e : EventId) (ev : Event)
  | setsConnection (c : ℕ) (conn : Connection)
  deriving DecidableEq, Repr

/-- `night_get_connection` behind `night_drain_connections`. -/
def take (socket : ℤ) (s : State) : State :=
  if (s.cycle.filesN : ℤ) ≤ socket % 2 ^ 64 then s
  else
    match s.cycle.freeConnections with
    | none => s
    | some c =>
        { s with
          cycle := takeConnection socket c s.cycle
          pendingEof := fun e => if e.slot = c then false else s.pendingEof e
          available := fun e => if e.slot = c then 0 else s.available e
          uses := Function.update s.uses c (s.uses c + 1) }

/-- `night_epoll_add_event` for an event of an open connection. -/
def addEvent (e : EventId) (s : State) : State :=
  if e.slot < s.cycle.connectionN ∧ (s.cycle.connections e.slot).fd ≠ -1 then
    let ev := s.cycle.events e
    { s with
      cycle := setEvent e (fun ev => { ev with active := true }) s.cycle
      registered := ⟨e.slot, ev.instanceBit, s.uses e.slot⟩ :: s.registered }
  else s

def act (s : State) : Act → State
  | .closes c => { s with cycle := nightCloseConnection c s.cycle }
  | .frees c => { s with cycle := nightFreeConnection c s.cycle }
  | .closesFd c => { s with cycle := setConnection c (fun conn => { conn with fd := -1 }) s.cycle }
  | .takes socket => take socket s
  | .asksToClose c =>
      { s with cycle := setConnection c (fun conn => { conn with close := true }) s.cycle }
  | .addEvent e => addEvent e s
  | .delEvent e => { s with cycle := setEvent e (fun ev => { ev with active := false }) s.cycle }
  | .addTimer e timer => { s with cycle := nightEventAddTimer e timer s.cycle }
  | .delTimer e => { s with cycle := delTimerIfSet e s.cycle }
  | .posts e => { s with cycle := nightAddPostEvent e s.cycle }
  | .reusable c reusable => { s with cycle := nightReusableConnection c reusable s.cycle }
  | .setsEvent e written =>
      let write (ev : Event) :=
        { written with active := ev.active, instanceBit := ev.instanceBit }
      { s with cycle := setEvent e write s.cycle }
  | .setsConnection c written =>
      let write (conn : Connection) := { written with fd := conn.fd, next := conn.next }
      { s with cycle := setConnection c write s.cycle }

def runActs (acts : List Act) (s : State) : State :=
  acts.foldl act s

/-! ## The loop -/

/-- A handler that was invoked: the use in which the event was registered, and the use of the
slot at the call. -/
structure Invoked where
  event : EventId
  registered : ℕ
  use : ℕ
  deriving DecidableEq, Repr

/-- The loop at work: what the handlers of the next invocations do, and what was invoked. -/
structure Turn where
  state : State
  handlers : List (List Act)
  invoked : List Invoked

/-- `ev->handler(ev)`. -/
def invoke (e : EventId) (registered : ℕ) (t : Turn) : Turn where
  state := runActs (t.handlers.headD []) t.state
  handlers := t.handlers.tail
  invoked := t.invoked ++ [⟨e, registered, t.state.uses e.slot⟩]

/-- `night_add_post_event` with one of the two queues. -/
def addPostEvent (accept : Bool) (e : EventId) (s : State) : State :=
  if !accept then { s with cycle := nightAddPostEvent e s.cycle }
  else if (s.cycle.events e).posted then s
  else
    { s with
      cycle := setEvent e (fun ev => { ev with posted := true }) s.cycle
      postedAcceptEvents := insertTail .head (.of e) s.postedAcceptEvents }

/-- `pending_eof`, `ready` and `available` of a read event. -/
def markRead (revents : Mask) (e : EventId) (s : State) : State :=
  { s with
    cycle := setEvent e (fun ev => { ev with ready := true }) s.cycle
    pendingEof :=
      if revents &&& EPOLLRDHUP ≠ 0 then Function.update s.pendingEof e true else s.pendingEof
    available := Function.update s.available e (-1) }

def markWrite (e : EventId) (s : State) : State :=
  { s with cycle := setEvent e (fun ev => { ev with ready := true }) s.cycle }

/-- The event `e` is looked at: its bit is in the mask and it is active. -/
def Due (revents bit : Mask) (e : EventId) (s : State) : Prop :=
  revents &&& bit ≠ 0 ∧ (s.cycle.events e).active = true

instance (revents bit : Mask) (e : EventId) (s : State) : Decidable (Due revents bit e s) :=
  inferInstanceAs (Decidable (_ ∧ _))

/-- The part of the loop for one of the two events; `none` is `continue`. -/
def deliver (flags : BitVec 32) (revents bit : Mask) (e : EventId) (p : Pointer)
    (mark : State → State) (t : Turn) : Option Turn :=
  let ev := t.state.cycle.events e
  if ¬Due revents bit e t.state then some t
  else if (t.state.cycle.connections p.slot).fd = -1 ∨ ev.instanceBit ≠ p.instance_ then none
  else
    let t := { t with state := mark t.state }
    if flags &&& nightPostEvents ≠ 0 then
      some { t with state := addPostEvent (!e.write && ev.accept) e t.state }
    else some (invoke e p.use t)

/-- `revents`, with the two events for errors. -/
def EpollEvent.revents (event : EpollEvent) : Mask :=
  if event.events &&& (EPOLLERR ||| EPOLLHUP) ≠ 0 then event.events ||| (EPOLLIN ||| EPOLLOUT)
  else event.events

def deliverRead (flags : BitVec 32) (event : EpollEvent) (t : Turn) : Option Turn :=
  let rev := readOf event.data.slot
  deliver flags event.revents EPOLLIN rev event.data (markRead event.revents rev) t

def deliverWrite (flags : BitVec 32) (event : EpollEvent) (t : Turn) : Option Turn :=
  let wev := writeOf event.data.slot
  deliver flags event.revents EPOLLOUT wev event.data (markWrite wev) t

/-- One turn of the loop. -/
def processEvent (flags : BitVec 32) (event : EpollEvent) (t : Turn) : Turn :=
  match deliverRead flags event t with
  | none => t
  | some t => (deliverWrite flags event t).getD t

def processBatch (flags : BitVec 32) : List EpollEvent → Turn → Turn
  | [], t => t
  | event :: batch, t => processBatch flags batch (processEvent flags event t)

/-- What `epoll_wait` returned: an error, or events. -/
def nightEpollProcessEvents (timer : ℤ) (flags : BitVec 32) (waited : Option (List EpollEvent))
    (t : Turn) : Rc × Turn :=
  match waited with
  | none => (.ok, t)
  | some [] => (if timer ≠ nightTimerInfinite then .ok else .error, t)
  | some batch => (.ok, processBatch flags batch t)

/-! ## The worker -/

/-- An action outside of the loop, or a call of it with what its handlers do. -/
inductive Label where
  | act (act : Act)
  | process (timer : ℤ) (flags : BitVec 32) (waited : Option (List EpollEvent))
      (handlers : List (List Act))
  deriving DecidableEq, Repr

/-- The pointers that `epoll_wait` returns were given to `epoll_ctl`. -/
def Returned (s : State) (waited : Option (List EpollEvent)) : Prop :=
  ∀ batch ∈ waited, ∀ event ∈ batch, event.data ∈ s.registered

instance (s : State) (waited : Option (List EpollEvent)) : Decidable (Returned s waited) :=
  match waited with
  | none => isTrue (by simp [Returned])
  | some batch =>
      decidable_of_iff (∀ event ∈ batch, event.data ∈ s.registered) (by simp [Returned])

def step (s : State) : Label → Option State
  | .act taken => some (act s taken)
  | .process timer flags waited handlers =>
      if Returned s waited then
        some (nightEpollProcessEvents timer flags waited ⟨s, handlers, []⟩).2.state
      else none

/-- The worker after `night_event_core_process_init` has linked the slots. -/
def start (connectionN filesN : ℕ) (currentMsec : ℤ) : State where
  cycle := nightEventCoreProcessInit connectionN filesN currentMsec
  pendingEof := fun _ => false
  available := fun _ => 0
  postedAcceptEvents := init .head ⟨fun _ => .null, fun _ => .null⟩
  uses := fun _ => 0
  registered := []

/-- The states of the worker before `night_epoll_process_events` or a handler. -/
def Reachable (connectionN filesN : ℕ) (currentMsec : ℤ) (s : State) : Prop :=
  Reached step (fun _ _ => True) (start connectionN filesN currentMsec) s

/-! ## Stale events -/

/-- No handler was invoked for an event of an earlier use. -/
def NeverStale (invoked : List Invoked) : Prop :=
  ∀ call ∈ invoked, call.registered = call.use

/-- When an event that is looked at is not mistaken: since it was registered, its slot was not
taken again, or taken an odd number of times.  Nothing is asked of closed slots and of events
that are posted. -/
def Meets (flags : BitVec 32) (revents bit : Mask) (e : EventId) (p : Pointer) (s : State) :
    Prop :=
  Due revents bit e s → (s.cycle.connections p.slot).fd ≠ -1 → flags &&& nightPostEvents = 0 →
    ¬(p.use < s.uses p.slot ∧ Even (s.uses p.slot - p.use))

/-- Both looks at an event meet it. -/
structure EventMeets (flags : BitVec 32) (event : EpollEvent) (t : Turn) : Prop where
  read : Meets flags event.revents EPOLLIN (readOf event.data.slot) event.data t.state
  write : ∀ t', deliverRead flags event t = some t' →
    Meets flags event.revents EPOLLOUT (writeOf event.data.slot) event.data t'.state

/-- Every look of the loop meets it. -/
def AllMeet (flags : BitVec 32) : List EpollEvent → Turn → Prop
  | [], _ => True
  | event :: batch, t =>
      EventMeets flags event t ∧ AllMeet flags batch (processEvent flags event t)

end Night.ProcessEvents
