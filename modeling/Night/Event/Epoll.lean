import Mathlib.Logic.Function.Basic
import Night.Lib.Runs

/-!
# Adding and deleting events at `epoll`

`night_epoll_add_event`, `night_epoll_del_event` and `night_epoll_del_conn`, and the loops
that disable and enable the events of listening sockets.  A descriptor that is open has a
connection with its two events, and an entry in the interest table of the kernel or none.
-/

namespace Night.Epoll

open Night.Runs

abbrev Mask := BitVec 32

def EPOLLIN : Mask := 0x001#32
def EPOLLOUT : Mask := 0x004#32
def EPOLLRDHUP : Mask := 0x2000#32
def EPOLLET : Mask := 0x80000000#32

def nightReadEvent : Mask := EPOLLIN
def nightWriteEvent : Mask := EPOLLOUT

def nightCloseEvent : Mask := 1#32

/-- Whether a mask has every bit of another. -/
def contains (mask bits : Mask) : Bool := mask &&& bits == bits

/-! ## Descriptors -/

/-- The bits of a `night_event_t` that matter here. -/
structure Event where
  active : Bool
  instance_ : Bool
  deriving DecidableEq, Repr

/-- A `struct epoll_event`; of its pointer, the low bit. -/
structure Entry where
  events : Mask
  instance_ : Bool
  deriving DecidableEq, Repr

/-- An open descriptor: the events of its connection, and what the kernel holds. -/
structure Descriptor where
  read : Event
  write : Event
  entry : Option Entry
  deriving DecidableEq, Repr

inductive Side where
  | read
  | write
  deriving DecidableEq, Repr

def Descriptor.event (d : Descriptor) : Side → Event
  | .read => d.read
  | .write => d.write

/-- `ev->active = active`. -/
def Descriptor.setActive (d : Descriptor) (side : Side) (active : Bool) : Descriptor :=
  match side with
  | .read => { d with read := { d.read with active := active } }
  | .write => { d with write := { d.write with active := active } }

/-- The event that goes with an event of a connection in every call. -/
def Side.mask : Side → Mask
  | .read => nightReadEvent
  | .write => nightWriteEvent

inductive Op where
  | add
  | mod
  | del
  deriving DecidableEq, Repr

/-- `epoll_ctl` on the entry of a descriptor. -/
def epollCtl (op : Op) (ee : Entry) (entry : Option Entry) : Option (Option Entry) :=
  match op, entry with
  | .add, none => some (some ee)
  | .add, some _ => none
  | .mod, some _ => some (some ee)
  | .mod, none => none
  | .del, some _ => some none
  | .del, none => none

inductive Rc where
  | ok
  | error
  deriving DecidableEq, Repr

/-! ## The functions of the module -/

def nightEpollAddEvent (d : Descriptor) (side : Side) (event flags : Mask) : Rc × Descriptor :=
  let ev := d.event side
  let e := if event = nightReadEvent then d.write else d.read
  let prev := if event = nightReadEvent then EPOLLOUT else EPOLLIN
  let op := if e.active then Op.mod else .add
  let events := if e.active then event ||| prev else event
  match epollCtl op ⟨events ||| flags, ev.instance_⟩ d.entry with
  | none => (.error, d)
  | some entry => (.ok, { d with entry := entry }.setActive side true)

def nightEpollDelEvent (d : Descriptor) (side : Side) (event flags : Mask) : Rc × Descriptor :=
  if flags &&& nightCloseEvent ≠ 0 then (.ok, d.setActive side false)
  else
    let ev := d.event side
    let e := if event = nightReadEvent then d.write else d.read
    let prev := if event = nightReadEvent then EPOLLOUT else EPOLLIN ||| EPOLLRDHUP
    let op := if e.active then Op.mod else .del
    let ee : Entry := if e.active then ⟨prev, ev.instance_⟩ else ⟨0, false⟩
    match epollCtl op ee d.entry with
    | none => (.error, d)
    | some entry => (.ok, { d with entry := entry }.setActive side false)

def nightEpollDelConn (d : Descriptor) (flags : Mask) : Rc × Descriptor :=
  let inactive (d : Descriptor) := (d.setActive .read false).setActive .write false
  if flags &&& nightCloseEvent ≠ 0 then (.ok, inactive d)
  else
    match epollCtl .del ⟨0, false⟩ d.entry with
    | none => (.error, d)
    | some entry => (.ok, inactive { d with entry := entry })

/-! ## Listening sockets -/

/-- The descriptors that are open. -/
abbrev Descriptors := ℕ → Option Descriptor

/-- `night_enable_accept_events`; a listening socket without a connection is `none`. -/
def nightEnableAcceptEvents : List (Option ℕ) → Descriptors → Rc × Descriptors
  | [], ds => (.ok, ds)
  | none :: listening, ds => nightEnableAcceptEvents listening ds
  | some fd :: listening, ds =>
      match ds fd with
      | none => nightEnableAcceptEvents listening ds
      | some d =>
          if d.read.active then nightEnableAcceptEvents listening ds
          else
            match nightEpollAddEvent d .read nightReadEvent EPOLLET with
            | (.error, d) => (.error, Function.update ds fd (some d))
            | (.ok, d) => nightEnableAcceptEvents listening (Function.update ds fd (some d))

/-- `night_disable_accept_events`. -/
def nightDisableAcceptEvents : List (Option ℕ) → Descriptors → Rc × Descriptors
  | [], ds => (.ok, ds)
  | none :: listening, ds => nightDisableAcceptEvents listening ds
  | some fd :: listening, ds =>
      match ds fd with
      | none => nightDisableAcceptEvents listening ds
      | some d =>
          if !d.read.active then nightDisableAcceptEvents listening ds
          else
            match nightEpollDelEvent d .read nightReadEvent nightCloseEvent with
            | (.error, d) => (.error, Function.update ds fd (some d))
            | (.ok, d) => nightDisableAcceptEvents listening (Function.update ds fd (some d))

/-! ## The system -/

structure State where
  descriptors : Descriptors
  listening : List (Option ℕ)

/-- A call, or a descriptor that is opened with a fresh connection or closed by
`night_close_connection`, which calls `night_del_conn` with `NIGHT_CLOSE_EVENT`. -/
inductive Act where
  | opens (fd : ℕ) (instance_ : Bool)
  | closes (fd : ℕ)
  | addEvent (fd : ℕ) (side : Side) (flags : Mask)
  | delEvent (fd : ℕ) (side : Side) (flags : Mask)
  | delConn (fd : ℕ) (flags : Mask)
  | disable
  | enable
  deriving DecidableEq, Repr

/-- A connection as `night_get_connection` returns it. -/
def fresh (instance_ : Bool) : Descriptor where
  read := ⟨false, instance_⟩
  write := ⟨false, instance_⟩
  entry := none

def State.put (s : State) (fd : ℕ) (d : Option Descriptor) : State :=
  { s with descriptors := Function.update s.descriptors fd d }

/-- What a call returns, and the state behind it.  Events are added when they are not active;
`NIGHT_CLOSE_EVENT` is passed by `disable` and `closes` only, and listening sockets are not
closed so. -/
def step (s : State) : Act → Option (Rc × State)
  | .opens fd instance_ =>
      if s.descriptors fd = none then some (.ok, s.put fd (some (fresh instance_))) else none
  | .closes fd =>
      match s.descriptors fd with
      | none => none
      | some d =>
          if some fd ∈ s.listening then none
          else some ((nightEpollDelConn d nightCloseEvent).1, s.put fd none)
  | .addEvent fd side flags =>
      match s.descriptors fd with
      | none => none
      | some d =>
          if (d.event side).active then none
          else
            let returned := nightEpollAddEvent d side side.mask flags
            some (returned.1, s.put fd (some returned.2))
  | .delEvent fd side flags =>
      match s.descriptors fd with
      | none => none
      | some d =>
          if flags &&& nightCloseEvent ≠ 0 then none
          else
            let returned := nightEpollDelEvent d side side.mask flags
            some (returned.1, s.put fd (some returned.2))
  | .delConn fd flags =>
      match s.descriptors fd with
      | none => none
      | some d =>
          if flags &&& nightCloseEvent ≠ 0 then none
          else
            let returned := nightEpollDelConn d flags
            some (returned.1, s.put fd (some returned.2))
  | .disable =>
      let returned := nightDisableAcceptEvents s.listening s.descriptors
      some (returned.1, { s with descriptors := returned.2 })
  | .enable =>
      let returned := nightEnableAcceptEvents s.listening s.descriptors
      some (returned.1, { s with descriptors := returned.2 })

/-- Some open descriptors that nothing was added for; the listening sockets are open. -/
structure Start (s : State) : Prop where
  fresh : ∀ fd d, s.descriptors fd = some d → ∃ instance_, d = Epoll.fresh instance_
  listening : ∀ fd, some fd ∈ s.listening → s.descriptors fd ≠ none

/-! ## Tables and runs that are right -/

def Descriptor.interest (d : Descriptor) : Mask := d.entry.elim 0 (·.events)

/-- The kernel's table says what the flags say; `readMask` is the interest of a read event. -/
structure Mirrored (readMask : Mask) (d : Descriptor) : Prop where
  read : contains d.interest readMask = true ↔ d.read.active = true
  write : contains d.interest EPOLLOUT = true ↔ d.write.active = true
  registered : d.entry.isSome = true ↔ d.read.active = true ∨ d.write.active = true

def Mirrors (readMask : Mask) (s : State) : Prop :=
  ∀ fd d, s.descriptors fd = some d → Mirrored readMask d

/-- Every listening socket has an active read event, and is registered. -/
def AllListening (s : State) : Prop :=
  ∀ fd, some fd ∈ s.listening → ∃ d, s.descriptors fd = some d ∧
    d.read.active = true ∧ d.entry.isSome = true

/-- A right step: the table is right behind it, and where it enables the events of listening
sockets it succeeds. -/
structure Right (readMask : Mask) (act : Act) (rc : Rc) (s : State) : Prop where
  mirrors : Mirrors readMask s
  enabled : act = .enable → rc = .ok ∧ AllListening s

/-- A run of right steps. -/
def AllRight (readMask : Mask) : List Act → State → Prop
  | [], _ => True
  | act :: acts, s =>
      ∀ rc s', step s act = some (rc, s') → Right readMask act rc s' ∧ AllRight readMask acts s'

/-- When a step keeps the table right: the added mask has the interest of the read event
exactly when that is active, and that of the write event likewise; no listening socket has an
active event when `NIGHT_CLOSE_EVENT` clears it, and one whose event is not active is added
with a mask that has the interest of a read event. -/
def Meets (readMask : Mask) (s : State) : Act → Prop
  | .addEvent fd .read flags => ∀ d, s.descriptors fd = some d →
      contains (EPOLLIN ||| flags) readMask = true ∧
        (contains flags EPOLLOUT = true → d.write.active = true)
  | .addEvent fd .write flags => ∀ d, s.descriptors fd = some d →
      (contains (if d.read.active then EPOLLIN ||| flags else flags) readMask = true ↔
        d.read.active = true)
  | .disable => ∀ fd, some fd ∈ s.listening → ∀ d, s.descriptors fd = some d →
      d.read.active = false
  | .enable => contains (EPOLLIN ||| EPOLLET) readMask = true ∨
      ∀ fd, some fd ∈ s.listening → ∀ d, s.descriptors fd = some d → d.read.active = true
  | .opens _ _ | .closes _ | .delEvent _ _ _ | .delConn _ _ => True

def AllMeet (readMask : Mask) : List Act → State → Prop
  | [], _ => True
  | act :: acts, s =>
      ∀ rc s', step s act = some (rc, s') → Meets readMask s act ∧ AllMeet readMask acts s'

end Night.Epoll
