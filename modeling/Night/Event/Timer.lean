import Night.Core.RbTree

/-!
# `night_event_timer.c`

The timers of the events.  An event is the address of its `timer` node.
-/

namespace Night.EventTimer

open Night.RbTree
open Night.RbTree.Rbtree

/-- `night_event_timer_rbtree`, the address of `night_event_timer_sentinel`, and the
`timer_set` of the events. -/
structure Timers where
  rbtree : Rbtree (BitVec 64)
  sentinel : Address
  timerSet : Address → Bool
  currentMsec : BitVec 64

/-- `NIGHT_TIMER_LAZY_DELAY` -/
def nightTimerLazyDelay : BitVec 64 := 600#64

/-- `NIGHT_TIMER_INFINITE` -/
def nightTimerInfinite : BitVec 64 := -1#64

/-- `night_abs` -/
def nightAbs (value : BitVec 64) : BitVec 64 :=
  if value.slt 0#64 then -value else value

/-- No event has its timer set. -/
def nightEventTimerInit (sentinel : Address) (memory : Rbtree (BitVec 64))
    (currentMsec : BitVec 64) : Timers where
  rbtree := nightRbtreeInit sentinel memory
  sentinel := sentinel
  timerSet := fun _ => false
  currentMsec := currentMsec

def nightEventDelTimer (fuel : ℕ) (ev : Address) (s : Timers) : Option Timers := do
  let rbtree ← nightRbtreeDelete fuel ev s.rbtree
  some { s with
    rbtree := setParent ev null (setChild .right ev null (setChild .left ev null
      (setKey ev 0 rbtree)))
    timerSet := Function.update s.timerSet ev false }

/-- Where the timer is set, its key stays if it is near enough. -/
def nightEventAddTimer (fuel : ℕ) (ev : Address) (timer : BitVec 64) (s : Timers) :
    Option Timers := do
  let key := s.currentMsec + timer
  if s.timerSet ev ∧ (nightAbs (key - s.rbtree.key ev)).slt nightTimerLazyDelay then some s
  else
    let s ← if s.timerSet ev then nightEventDelTimer fuel ev s else some s
    let rbtree ← nightRbtreeInsert InsertPt.timerValue.less fuel ev (setKey ev key s.rbtree)
    some { s with rbtree := rbtree, timerSet := Function.update s.timerSet ev true }

def nightEventFindTimer (fuel : ℕ) (s : Timers) : Option (BitVec 64) :=
  if s.rbtree.root = s.sentinel then some nightTimerInfinite
  else do
    let node ← nightRbtreeMin fuel s.rbtree.root s.rbtree
    let timer := s.rbtree.key node - s.currentMsec
    some (if (0#64).slt timer then timer else 0)

/-! ## Runs -/

/-- A timer is added; an event whose timer may be set loses it, as the callers do; the clock
is updated. -/
inductive Op where
  | addTimer (ev : Address) (timer : BitVec 64)
  | delTimer (ev : Address)
  | timeUpdate (currentMsec : BitVec 64)
  deriving DecidableEq, Repr

def step (fuel : ℕ) (s : Timers) : Op → Option Timers
  | .addTimer ev timer => nightEventAddTimer fuel ev timer s
  | .delTimer ev => if s.timerSet ev then nightEventDelTimer fuel ev s else some s
  | .timeUpdate currentMsec => some { s with currentMsec := currentMsec }

def run (fuel : ℕ) : List Op → Timers → Option Timers
  | [], s => some s
  | op :: ops, s => do
      let s ← step fuel s op
      run fuel ops s

/-! ## What was asked for -/

/-- The clock, and the deadlines that were asked for last. -/
structure Requested where
  now : BitVec 64
  deadline : Address → Option (BitVec 64)

def Requested.step (r : Requested) : Op → Requested
  | .addTimer ev timer =>
      { r with deadline := Function.update r.deadline ev (some (r.now + timer)) }
  | .delTimer ev => { r with deadline := Function.update r.deadline ev none }
  | .timeUpdate now => { r with now := now }

/-- The clock values and the deadlines of a run. -/
def times : BitVec 64 → List Op → List (BitVec 64)
  | now, [] => [now]
  | now, .addTimer _ timer :: ops => (now + timer) :: times now ops
  | now, .delTimer _ :: ops => times now ops
  | now, .timeUpdate now' :: ops => now :: times now' ops

/-- The node of an event is not the sentinel. -/
def Op.Apart (sentinel : Address) : Op → Prop
  | .addTimer ev _ => ev ≠ sentinel
  | .delTimer _ => True
  | .timeUpdate _ => True

/-- Differences of the times stay below `2 ^ 63`. -/
def Fits (times : List (BitVec 64)) : Prop :=
  ∀ x ∈ times, ∀ y ∈ times, x.toInt - y.toInt < 2 ^ 63

end Night.EventTimer
