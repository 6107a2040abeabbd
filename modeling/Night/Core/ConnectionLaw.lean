import Mathlib.Data.List.Perm.Basic
import Night.Core.Connection

/-!
# The accounts of the connection slots

What each function of `night_connection.c` does to the free list, the reusable queue, the
timers and the posted events.  A slot may go back to the free list when it is not reusable
and neither of its events has a timer or is posted; `night_close_connection` sees to that,
the other callers of `night_free_connection` have to.
-/

namespace Night.Connections

open Night.Chains
open Night.Rings

variable {s s' : Cycle} {free queue : List ℕ} {posted : List EventId} {c : ℕ} {e : EventId}

/-! ## Writes -/

theorem setConnection_connections (c : ℕ) (f : Connection → Connection) (s : Cycle) (i : ℕ) :
    (setConnection c f s).connections i =
      if i = c then f (s.connections c) else s.connections i :=
  Function.update_apply s.connections c _ i

theorem setEvent_events (e : EventId) (f : Event → Event) (s : Cycle) (e' : EventId) :
    (setEvent e f s).events e' = if e' = e then f (s.events e) else s.events e' :=
  Function.update_apply s.events e _ e'

@[simp]
theorem setConnection_events (c : ℕ) (f : Connection → Connection) (s : Cycle) :
    (setConnection c f s).events = s.events := rfl

/-- A field that `f` leaves alone is unchanged everywhere. -/
theorem setConnection_field {α : Type*} (field : Connection → α) {f : Connection → Connection}
    (hf : ∀ conn, field (f conn) = field conn) (c : ℕ) (s : Cycle) (i : ℕ) :
    field ((setConnection c f s).connections i) = field (s.connections i) := by
  rw [setConnection_connections]
  by_cases hi : i = c
  · rw [if_pos hi, hf, hi]
  · rw [if_neg hi]

theorem setEvent_field {α : Type*} (field : Event → α) {f : Event → Event}
    (hf : ∀ ev, field (f ev) = field ev) (e : EventId) (s : Cycle) (e' : EventId) :
    field ((setEvent e f s).events e') = field (s.events e') := by
  rw [setEvent_events]
  by_cases he : e' = e
  · rw [if_pos he, hf, he]
  · rw [if_neg he]

/-! ## Frames -/

/-- Only the slot `c` and its events are written. -/
structure Touches (c : ℕ) (s s' : Cycle) : Prop where
  connectionN : s'.connectionN = s.connectionN
  listening : s'.listening = s.listening
  connection : ∀ i ≠ c, s'.connections i = s.connections i
  event : ∀ e, e.slot ≠ c → s'.events e = s.events e
  inUse : ∀ i ≠ c, i ∈ s'.inUse ↔ i ∈ s.inUse

/-- Only the slot `c` is written and it stays where it is. -/
structure Keeps (c : ℕ) (s s' : Cycle) : Prop extends Touches c s s' where
  sameInUse : s'.inUse = s.inUse

theorem Keeps.refl (c : ℕ) (s : Cycle) : Keeps c s s :=
  ⟨⟨rfl, rfl, fun _ _ => rfl, fun _ _ => rfl, fun _ _ => Iff.rfl⟩, rfl⟩

theorem Touches.trans {s₁ s₂ s₃ : Cycle} (hleft : Touches c s₁ s₂) (hright : Touches c s₂ s₃) :
    Touches c s₁ s₃ where
  connectionN := hright.connectionN.trans hleft.connectionN
  listening := hright.listening.trans hleft.listening
  connection := fun i hi => (hright.connection i hi).trans (hleft.connection i hi)
  event := fun e he => (hright.event e he).trans (hleft.event e he)
  inUse := fun i hi => (hright.inUse i hi).trans (hleft.inUse i hi)

theorem Keeps.trans {s₁ s₂ s₃ : Cycle} (hleft : Keeps c s₁ s₂) (hright : Keeps c s₂ s₃) :
    Keeps c s₁ s₃ :=
  ⟨hleft.toTouches.trans hright.toTouches, hright.sameInUse.trans hleft.sameInUse⟩

theorem keeps_setConnection (c : ℕ) (f : Connection → Connection) (s : Cycle) :
    Keeps c s (setConnection c f s) where
  connectionN := rfl
  listening := rfl
  connection := fun i hi => by rw [setConnection_connections, if_neg hi]
  event := fun _ _ => rfl
  inUse := fun _ _ => Iff.rfl
  sameInUse := rfl

theorem keeps_setEvent (e : EventId) (f : Event → Event) (s : Cycle) :
    Keeps e.slot s (setEvent e f s) where
  connectionN := rfl
  listening := rfl
  connection := fun _ _ => rfl
  event := fun e' he' => by
    rw [setEvent_events, if_neg]
    rintro rfl
    exact he' rfl
  inUse := fun _ _ => Iff.rfl
  sameInUse := rfl

/-- The lists that belong to no slot are written freely. -/
theorem keeps_lists (c : ℕ) (s : Cycle) (timers : List EventId)
    (postedEvents : Links (QueueCell EventId)) (reusableQueue : Links (QueueCell ℕ)) (n : ℤ) :
    Keeps c s { s with
      timers := timers
      postedEvents := postedEvents
      reusableQueue := reusableQueue
      reusableConnectionsN := n } :=
  ⟨⟨rfl, rfl, fun _ _ => rfl, fun _ _ => rfl, fun _ _ => Iff.rfl⟩, rfl⟩

theorem keeps_delTimer (e : EventId) (s : Cycle) : Keeps e.slot s (nightEventDelTimer e s) :=
  (keeps_lists e.slot s _ s.postedEvents s.reusableQueue s.reusableConnectionsN).trans
    (keeps_setEvent e _ _)

theorem keeps_delTimerIfSet (e : EventId) (s : Cycle) : Keeps e.slot s (delTimerIfSet e s) := by
  rw [delTimerIfSet]
  split
  · exact keeps_delTimer e s
  · exact Keeps.refl e.slot s

theorem keeps_addTimer (e : EventId) (timer : ℤ) (s : Cycle) :
    Keeps e.slot s (nightEventAddTimer e timer s) := by
  rw [nightEventAddTimer]
  split
  · exact Keeps.refl e.slot s
  · exact ((keeps_delTimerIfSet e s).trans (keeps_lists e.slot _ _ _ _ _)).trans
      (keeps_setEvent e _ _)

theorem keeps_addPost (e : EventId) (s : Cycle) : Keeps e.slot s (nightAddPostEvent e s) := by
  rw [nightAddPostEvent]
  split
  · exact Keeps.refl e.slot s
  · exact (keeps_lists e.slot s s.timers _ s.reusableQueue s.reusableConnectionsN).trans
      (keeps_setEvent e _ _)

theorem keeps_deletePosted (e : EventId) (s : Cycle) :
    Keeps e.slot s (nightDeletePostedEvent e s) :=
  (keeps_lists e.slot s s.timers _ s.reusableQueue s.reusableConnectionsN).trans
    (keeps_setEvent e _ _)

theorem keeps_deletePostedIfPosted (e : EventId) (s : Cycle) :
    Keeps e.slot s (deletePostedIfPosted e s) := by
  rw [deletePostedIfPosted]
  split
  · exact keeps_deletePosted e s
  · exact Keeps.refl e.slot s

theorem keeps_delConn (c : ℕ) (s : Cycle) : Keeps c s (nightDelConn c s) :=
  (keeps_setEvent (readOf c) _ s).trans (keeps_setEvent (writeOf c) _ _)

theorem keeps_markClosed (c : ℕ) (s : Cycle) : Keeps c s (markClosed c s) :=
  (keeps_setEvent (readOf c) _ s).trans (keeps_setEvent (writeOf c) _ _)

theorem keeps_leaveReusableQueue (c : ℕ) (s : Cycle) : Keeps c s (leaveReusableQueue c s) := by
  rw [leaveReusableQueue]
  split
  · exact keeps_lists c s s.timers s.postedEvents _ _
  · exact Keeps.refl c s

theorem keeps_reusable (c : ℕ) (reusable : Bool) (s : Cycle) :
    Keeps c s (nightReusableConnection c reusable s) := by
  have hset := (keeps_leaveReusableQueue c s).trans (keeps_setConnection c
    (fun conn => { conn with reusable := reusable }) _)
  cases reusable with
  | false => exact hset
  | true => exact hset.trans (keeps_lists c _ _ _ _ _)

theorem touches_free (c : ℕ) (s : Cycle) : Touches c s (nightFreeConnection c s) := by
  have hset := (keeps_setConnection c (fun conn => { conn with next := s.freeConnections })
    s).toTouches
  have hinUse : ∀ i ≠ c, i ∈ s.inUse.erase c ↔ i ∈ s.inUse :=
    fun i hi => List.mem_erase_of_ne hi
  rw [nightFreeConnection]
  split
  · exact ⟨rfl, rfl, hset.connection, hset.event, hinUse⟩
  · exact ⟨rfl, rfl, hset.connection, hset.event, hinUse⟩

theorem touches_close (c : ℕ) (s : Cycle) : Touches c s (nightCloseConnection c s) := by
  rw [nightCloseConnection]
  split
  · exact (Keeps.refl c s).toTouches
  · refine Touches.trans ?_ (keeps_setConnection c _ _).toTouches
    refine Touches.trans ?_ (touches_free c _)
    refine Keeps.toTouches (Keeps.trans ?_ (keeps_reusable c false _))
    refine Keeps.trans ?_ (keeps_markClosed c _)
    refine Keeps.trans ?_ (keeps_deletePostedIfPosted (writeOf c) _)
    refine Keeps.trans ?_ (keeps_deletePostedIfPosted (readOf c) _)
    refine Keeps.trans ?_ (keeps_delConn c _)
    exact (keeps_delTimerIfSet (readOf c) s).trans (keeps_delTimerIfSet (writeOf c) _)

/-! ## Single fields -/

@[simp]
theorem addTimer_connections (e : EventId) (timer : ℤ) (s : Cycle) :
    (nightEventAddTimer e timer s).connections = s.connections := by
  rw [nightEventAddTimer]
  split
  · rfl
  · by_cases hset : (s.events e).timerSet = true
    · simp only [if_pos hset]
      rfl
    · simp only [if_neg hset]
      rfl

@[simp]
theorem addTimer_timerSet (e : EventId) (timer : ℤ) (s : Cycle) :
    ((nightEventAddTimer e timer s).events e).timerSet = true := by
  rw [nightEventAddTimer]
  split
  · rename_i hset
    exact hset.1
  · rw [setEvent_events, if_pos rfl]

theorem addTimer_events_of_ne {e e' : EventId} (he : e' ≠ e) (timer : ℤ) (s : Cycle) :
    (nightEventAddTimer e timer s).events e' = s.events e' := by
  rw [nightEventAddTimer]
  split
  · rfl
  · rw [setEvent_events, if_neg he]
    by_cases hset : (s.events e).timerSet = true
    · simp only [if_pos hset, nightEventDelTimer, setEvent_events, if_neg he]
    · simp only [if_neg hset]

/-- Timers touch neither the handler of an event nor the other flags. -/
theorem addTimer_event (e e' : EventId) (timer : ℤ) (s : Cycle) :
    ∃ timerSet timerKey, (nightEventAddTimer e timer s).events e' =
      { s.events e' with timerSet := timerSet, timerKey := timerKey } := by
  by_cases he : e' = e
  · subst he
    rw [nightEventAddTimer]
    split
    · exact ⟨_, _, rfl⟩
    · rw [setEvent_events, if_pos rfl]
      refine ⟨true, s.currentMsec + timer, ?_⟩
      by_cases hset : (s.events e').timerSet = true
      · simp only [if_pos hset, nightEventDelTimer, setEvent_events, if_true]
      · simp only [if_neg hset]
  · exact ⟨_, _, addTimer_events_of_ne he timer s⟩

@[simp]
theorem delTimerIfSet_connections (e : EventId) (s : Cycle) :
    (delTimerIfSet e s).connections = s.connections := by
  rw [delTimerIfSet]
  split <;> rfl

theorem delTimerIfSet_event (e e' : EventId) (s : Cycle) :
    ∃ timerSet timerKey, (delTimerIfSet e s).events e' =
      { s.events e' with timerSet := timerSet, timerKey := timerKey } ∧
        (e' ≠ e → timerSet = (s.events e').timerSet) := by
  rw [delTimerIfSet]
  split
  · rw [nightEventDelTimer, setEvent_events]
    by_cases he : e' = e
    · rw [if_pos he, he]
      exact ⟨_, _, rfl, fun hne => absurd rfl hne⟩
    · rw [if_neg he]
      exact ⟨_, _, rfl, fun _ => rfl⟩
  · exact ⟨_, _, rfl, fun _ => rfl⟩

/-- Posting an event leaves all but one flag. -/
theorem addPost_event (e e' : EventId) (s : Cycle) :
    ∃ posted, (nightAddPostEvent e s).events e' = { s.events e' with posted := posted } ∧
      (e' ≠ e → posted = (s.events e').posted) := by
  rw [nightAddPostEvent]
  split
  · exact ⟨_, rfl, fun _ => rfl⟩
  · rw [setEvent_events]
    by_cases he : e' = e
    · rw [if_pos he, he]
      exact ⟨true, rfl, fun hne => absurd rfl hne⟩
    · rw [if_neg he]
      exact ⟨_, rfl, fun _ => rfl⟩

@[simp]
theorem addPost_connections (e : EventId) (s : Cycle) :
    (nightAddPostEvent e s).connections = s.connections := by
  rw [nightAddPostEvent]
  split <;> rfl

theorem reusable_connections (c : ℕ) (reusable : Bool) (s : Cycle) :
    (nightReusableConnection c reusable s).connections =
      (setConnection c (fun conn => { conn with reusable := reusable }) s).connections := by
  have hleave : (leaveReusableQueue c s).connections = s.connections := by
    rw [leaveReusableQueue]
    split <;> rfl
  have hset : (setConnection c (fun conn => { conn with reusable := reusable })
      (leaveReusableQueue c s)).connections =
        (setConnection c (fun conn => { conn with reusable := reusable }) s).connections := by
    rw [setConnection, hleave]
    rfl
  cases reusable with
  | false => exact hset
  | true => exact hset

@[simp]
theorem reusable_events (c : ℕ) (reusable : Bool) (s : Cycle) :
    (nightReusableConnection c reusable s).events = s.events := by
  have hleave : (leaveReusableQueue c s).events = s.events := by
    rw [leaveReusableQueue]
    split <;> rfl
  cases reusable with
  | false => exact hleave
  | true => exact hleave

theorem free_connections (c : ℕ) (s : Cycle) :
    (nightFreeConnection c s).connections =
      (setConnection c (fun conn => { conn with next := s.freeConnections }) s).connections := by
  rw [nightFreeConnection]
  split <;> rfl

@[simp]
theorem free_events (c : ℕ) (s : Cycle) : (nightFreeConnection c s).events = s.events := by
  rw [nightFreeConnection]
  split <;> rfl

theorem free_freeConnections (c : ℕ) (s : Cycle) :
    (nightFreeConnection c s).freeConnections = some c := by
  rw [nightFreeConnection]
  split <;> rfl

theorem closeConnection_fd (c : ℕ) (s : Cycle) :
    ((nightCloseConnection c s).connections c).fd = -1 := by
  rw [nightCloseConnection]
  split
  · assumption
  · rw [setConnection_connections, if_pos rfl]

theorem closeConnection_freeConnections (hopen : (s.connections c).fd ≠ -1) :
    (nightCloseConnection c s).freeConnections = some c := by
  rw [nightCloseConnection, if_neg hopen]
  exact free_freeConnections c _

theorem closeConnection_reusable (hopen : (s.connections c).fd ≠ -1) :
    ((nightCloseConnection c s).connections c).reusable = false := by
  rw [nightCloseConnection, if_neg hopen]
  dsimp only
  rw [setConnection_connections, if_pos rfl]
  dsimp only
  rw [free_connections, setConnection_connections, if_pos rfl]
  dsimp only
  rw [reusable_connections, setConnection_connections, if_pos rfl]

/-! ## What the accounts depend on -/

/-- Two states with the same lists and counters. -/
structure SameAccounts (s s' : Cycle) : Prop where
  connectionN : s'.connectionN = s.connectionN
  freeConnections : s'.freeConnections = s.freeConnections
  freeConnectionN : s'.freeConnectionN = s.freeConnectionN
  reusableConnectionsN : s'.reusableConnectionsN = s.reusableConnectionsN
  reusableQueue : s'.reusableQueue = s.reusableQueue
  postedEvents : s'.postedEvents = s.postedEvents
  timers : s'.timers = s.timers
  inUse : s'.inUse = s.inUse
  next : ∀ i, (s'.connections i).next = (s.connections i).next
  reusable : ∀ i, (s'.connections i).reusable = (s.connections i).reusable
  timerSet : ∀ e, (s'.events e).timerSet = (s.events e).timerSet
  posted : ∀ e, (s'.events e).posted = (s.events e).posted

theorem Accounted.same (haccounted : Accounted s free queue posted)
    (hsame : SameAccounts s s') : Accounted s' free queue posted where
  freeChain := by
    rw [hsame.freeConnections]
    exact haccounted.freeChain.congr fun i _ => hsame.next i
  slots := by rw [hsame.inUse, hsame.connectionN]; exact haccounted.slots
  freeCount := by rw [hsame.freeConnectionN, haccounted.freeCount]
  queueRing := by rw [hsame.reusableQueue]; exact haccounted.queueRing
  queueCount := by rw [hsame.reusableConnectionsN, haccounted.queueCount]
  reusable_iff := by
    intro i hi
    rw [hsame.reusable, haccounted.reusable_iff i (hsame.connectionN ▸ hi)]
  queue_inUse := by rw [hsame.inUse]; exact haccounted.queue_inUse
  timersNodup := by rw [hsame.timers]; exact haccounted.timersNodup
  timerSet_iff := by
    intro e he
    rw [hsame.timerSet, hsame.timers, haccounted.timerSet_iff e (hsame.connectionN ▸ he)]
  timers_inUse := by rw [hsame.timers, hsame.inUse]; exact haccounted.timers_inUse
  postedRing := by rw [hsame.postedEvents]; exact haccounted.postedRing
  posted_iff := by
    intro e he
    rw [hsame.posted, haccounted.posted_iff e (hsame.connectionN ▸ he)]
  posted_inUse := by rw [hsame.inUse]; exact haccounted.posted_inUse

theorem sameAccounts_setConnection {f : Connection → Connection}
    (hnext : ∀ conn, (f conn).next = conn.next)
    (hreusable : ∀ conn, (f conn).reusable = conn.reusable) (c : ℕ) (s : Cycle) :
    SameAccounts s (setConnection c f s) where
  connectionN := rfl
  freeConnections := rfl
  freeConnectionN := rfl
  reusableConnectionsN := rfl
  reusableQueue := rfl
  postedEvents := rfl
  timers := rfl
  inUse := rfl
  next := setConnection_field Connection.next hnext c s
  reusable := setConnection_field Connection.reusable hreusable c s
  timerSet := fun _ => rfl
  posted := fun _ => rfl

theorem sameAccounts_setEvent {f : Event → Event}
    (htimerSet : ∀ ev, (f ev).timerSet = ev.timerSet)
    (hposted : ∀ ev, (f ev).posted = ev.posted) (e : EventId) (s : Cycle) :
    SameAccounts s (setEvent e f s) where
  connectionN := rfl
  freeConnections := rfl
  freeConnectionN := rfl
  reusableConnectionsN := rfl
  reusableQueue := rfl
  postedEvents := rfl
  timers := rfl
  inUse := rfl
  next := fun _ => rfl
  reusable := fun _ => rfl
  timerSet := setEvent_field Event.timerSet htimerSet e s
  posted := setEvent_field Event.posted hposted e s

theorem Accounted.setEvent (haccounted : Accounted s free queue posted) {f : Event → Event}
    (htimerSet : ∀ ev, (f ev).timerSet = ev.timerSet)
    (hposted : ∀ ev, (f ev).posted = ev.posted) (e : EventId) :
    Accounted (setEvent e f s) free queue posted :=
  haccounted.same (sameAccounts_setEvent htimerSet hposted e s)

theorem Accounted.setConnection (haccounted : Accounted s free queue posted)
    {f : Connection → Connection} (hnext : ∀ conn, (f conn).next = conn.next)
    (hreusable : ∀ conn, (f conn).reusable = conn.reusable) (c : ℕ) :
    Accounted (setConnection c f s) free queue posted :=
  haccounted.same (sameAccounts_setConnection hnext hreusable c s)

theorem Accounted.lt_of_inUse (haccounted : Accounted s free queue posted)
    (hc : c ∈ s.inUse) : c < s.connectionN := by
  have hin : c ∈ free ++ s.inUse := List.mem_append_right free hc
  exact List.mem_range.mp (haccounted.slots.mem_iff.mp hin)

theorem Accounted.lt_of_free (haccounted : Accounted s free queue posted)
    (hc : c ∈ free) : c < s.connectionN := by
  have hin : c ∈ free ++ s.inUse := List.mem_append_left s.inUse hc
  exact List.mem_range.mp (haccounted.slots.mem_iff.mp hin)

theorem Accounted.nodup (haccounted : Accounted s free queue posted) :
    (free ++ s.inUse).Nodup :=
  haccounted.slots.nodup_iff.mpr List.nodup_range

/-- A free slot is not in use. -/
theorem Accounted.not_inUse (haccounted : Accounted s free queue posted)
    (hc : c ∈ free) : c ∉ s.inUse := by
  intro hin
  exact (List.nodup_append.mp haccounted.nodup).2.2 c hc c hin rfl

theorem Accounted.queueNodup (haccounted : Accounted s free queue posted) : queue.Nodup :=
  (List.nodup_cons.mp haccounted.queueRing.nodup).2.of_map _

theorem Accounted.postedNodup (haccounted : Accounted s free queue posted) : posted.Nodup :=
  (List.nodup_cons.mp haccounted.postedRing.nodup).2.of_map _

/-! ## Timers -/

theorem accounted_delTimer (haccounted : Accounted s free queue posted) :
    Accounted (nightEventDelTimer e s) free queue posted where
  freeChain := haccounted.freeChain
  slots := haccounted.slots
  freeCount := haccounted.freeCount
  queueRing := haccounted.queueRing
  queueCount := haccounted.queueCount
  reusable_iff := haccounted.reusable_iff
  queue_inUse := haccounted.queue_inUse
  timersNodup := haccounted.timersNodup.erase e
  timerSet_iff := by
    intro e' he'
    rw [nightEventDelTimer, setEvent_events]
    change _ ↔ e' ∈ s.timers.erase e
    rw [haccounted.timersNodup.mem_erase_iff]
    by_cases heq : e' = e
    · simp [heq]
    · rw [if_neg heq]
      exact (haccounted.timerSet_iff e' he').trans (and_iff_right heq).symm
  timers_inUse := by
    intro e' he'
    exact haccounted.timers_inUse e' (List.mem_of_mem_erase he')
  postedRing := haccounted.postedRing
  posted_iff := by
    intro e' he'
    rw [nightEventDelTimer, setEvent_field Event.posted]
    · exact haccounted.posted_iff e' he'
    · exact fun _ => rfl
  posted_inUse := haccounted.posted_inUse

/-- After `if (ev->timer_set) night_event_del_timer(ev)` the event has no timer. -/
theorem accounted_delTimerIfSet (haccounted : Accounted s free queue posted)
    (he : e.slot < s.connectionN) :
    Accounted (delTimerIfSet e s) free queue posted ∧
      ∀ e', e' ∈ (delTimerIfSet e s).timers ↔ e' ≠ e ∧ e' ∈ s.timers := by
  rw [delTimerIfSet]
  by_cases hset : (s.events e).timerSet = true
  · rw [if_pos hset]
    refine ⟨accounted_delTimer haccounted, fun e' => ?_⟩
    exact haccounted.timersNodup.mem_erase_iff
  · rw [if_neg hset]
    refine ⟨haccounted, fun e' => ⟨fun hin => ⟨?_, hin⟩, And.right⟩⟩
    rintro rfl
    exact hset ((haccounted.timerSet_iff e' he).mpr hin)

theorem accounted_addTimer (haccounted : Accounted s free queue posted)
    (he : e.slot ∈ s.inUse) (timer : ℤ) :
    Accounted (nightEventAddTimer e timer s) free queue posted := by
  have hlt := haccounted.lt_of_inUse he
  rw [nightEventAddTimer]
  by_cases hlazy : (s.events e).timerSet = true ∧
      (s.currentMsec + timer - (s.events e).timerKey).natAbs < nightTimerLazyDelay
  · simp only [if_pos hlazy]
    exact haccounted
  · simp only [if_neg hlazy]
    obtain ⟨hdeleted, htimers⟩ := accounted_delTimerIfSet haccounted hlt
    rw [delTimerIfSet] at hdeleted htimers
    have hinUse : (if (s.events e).timerSet = true then nightEventDelTimer e s else s).inUse =
        s.inUse := by
      split <;> rfl
    have hnotin := fun hin => (htimers e).mp hin |>.1 rfl
    generalize (if (s.events e).timerSet = true then nightEventDelTimer e s else s) = t at *
    exact {
      freeChain := hdeleted.freeChain
      slots := hdeleted.slots
      freeCount := hdeleted.freeCount
      queueRing := hdeleted.queueRing
      queueCount := hdeleted.queueCount
      reusable_iff := hdeleted.reusable_iff
      queue_inUse := hdeleted.queue_inUse
      timersNodup := List.nodup_cons.mpr ⟨hnotin, hdeleted.timersNodup⟩
      timerSet_iff := by
        intro e' he'
        rw [setEvent_events]
        change _ ↔ e' ∈ e :: t.timers
        by_cases heq : e' = e
        · simp [heq]
        · rw [if_neg heq, List.mem_cons]
          exact (hdeleted.timerSet_iff e' he').trans (or_iff_right heq).symm
      timers_inUse := by
        intro e' he'
        rcases List.mem_cons.mp he' with rfl | hin
        · exact hinUse ▸ he
        · exact hdeleted.timers_inUse e' hin
      postedRing := hdeleted.postedRing
      posted_iff := by
        intro e' he'
        rw [setEvent_field Event.posted]
        · exact hdeleted.posted_iff e' he'
        · exact fun _ => rfl
      posted_inUse := hdeleted.posted_inUse }

/-! ## Posted events -/

theorem of_not_mem_map {α : Type} {a : α} {elements : List α} (ha : a ∉ elements) :
    QueueCell.of a ∉ QueueCell.head :: elements.map QueueCell.of := by
  intro hin
  rcases List.mem_cons.mp hin with heq | hin
  · cases heq
  · obtain ⟨b, hb, heq⟩ := List.mem_map.mp hin
    cases heq
    exact ha hb

theorem accounted_addPost (haccounted : Accounted s free queue posted)
    (he : e.slot ∈ s.inUse) :
    ∃ posted', Accounted (nightAddPostEvent e s) free queue posted' ∧
      ∀ e', e' ∈ posted' ↔ e' = e ∨ e' ∈ posted := by
  have hlt := haccounted.lt_of_inUse he
  rw [nightAddPostEvent]
  by_cases hset : (s.events e).posted = true
  · rw [if_pos hset]
    refine ⟨posted, haccounted, fun e' => ⟨Or.inr, ?_⟩⟩
    rintro (rfl | hin)
    · exact (haccounted.posted_iff e' hlt).mp hset
    · exact hin
  · rw [if_neg hset]
    have hnotin : e ∉ posted := fun hin => hset ((haccounted.posted_iff e hlt).mpr hin)
    refine ⟨posted ++ [e], ?_, by simp [or_comm]⟩
    exact {
      freeChain := haccounted.freeChain
      slots := haccounted.slots
      freeCount := haccounted.freeCount
      queueRing := haccounted.queueRing
      queueCount := haccounted.queueCount
      reusable_iff := haccounted.reusable_iff
      queue_inUse := haccounted.queue_inUse
      timersNodup := haccounted.timersNodup
      timerSet_iff := by
        intro e' he'
        rw [setEvent_field Event.timerSet]
        · exact haccounted.timerSet_iff e' he'
        · exact fun _ => rfl
      timers_inUse := haccounted.timers_inUse
      postedRing := by
        rw [List.map_append]
        exact ring_insertTail haccounted.postedRing (of_not_mem_map hnotin)
      posted_iff := by
        intro e' he'
        rw [setEvent_events, List.mem_append, List.mem_singleton]
        by_cases heq : e' = e
        · simp [heq]
        · rw [if_neg heq]
          exact (haccounted.posted_iff e' he').trans (or_iff_left heq).symm
      posted_inUse := by
        intro e' he'
        rcases List.mem_append.mp he' with hin | hin
        · exact haccounted.posted_inUse e' hin
        · rw [List.mem_singleton.mp hin]
          exact he }

theorem accounted_deletePosted (haccounted : Accounted s free queue posted) (he : e ∈ posted) :
    Accounted (nightDeletePostedEvent e s) free queue (posted.erase e) where
  freeChain := haccounted.freeChain
  slots := haccounted.slots
  freeCount := haccounted.freeCount
  queueRing := haccounted.queueRing
  queueCount := haccounted.queueCount
  reusable_iff := haccounted.reusable_iff
  queue_inUse := haccounted.queue_inUse
  timersNodup := haccounted.timersNodup
  timerSet_iff := by
    intro e' he'
    rw [nightDeletePostedEvent, setEvent_field Event.timerSet]
    · exact haccounted.timerSet_iff e' he'
    · exact fun _ => rfl
  timers_inUse := haccounted.timers_inUse
  postedRing := by
    obtain ⟨left, right, rfl⟩ := List.append_of_mem he
    have hring := haccounted.postedRing
    rw [List.map_append, List.map_cons] at hring
    rw [List.erase_append_right _ (fun hin => (List.nodup_append.mp
      haccounted.postedNodup).2.2 e hin e List.mem_cons_self rfl), List.erase_cons_head,
      List.map_append]
    exact ring_remove hring
  posted_iff := by
    intro e' he'
    rw [nightDeletePostedEvent, setEvent_events, haccounted.postedNodup.mem_erase_iff]
    by_cases heq : e' = e
    · simp [heq]
    · rw [if_neg heq]
      exact (haccounted.posted_iff e' he').trans (and_iff_right heq).symm
  posted_inUse := fun e' he' => haccounted.posted_inUse e' (List.mem_of_mem_erase he')

theorem accounted_deletePostedIfPosted (haccounted : Accounted s free queue posted)
    (he : e.slot < s.connectionN) :
    ∃ posted', Accounted (deletePostedIfPosted e s) free queue posted' ∧
      ∀ e', e' ∈ posted' ↔ e' ≠ e ∧ e' ∈ posted := by
  rw [deletePostedIfPosted]
  by_cases hset : (s.events e).posted = true
  · rw [if_pos hset]
    have hin := (haccounted.posted_iff e he).mp hset
    exact ⟨posted.erase e, accounted_deletePosted haccounted hin,
      fun e' => haccounted.postedNodup.mem_erase_iff⟩
  · rw [if_neg hset]
    refine ⟨posted, haccounted, fun e' => ⟨fun hin => ⟨?_, hin⟩, And.right⟩⟩
    rintro rfl
    exact hset ((haccounted.posted_iff e' he).mpr hin)

/-! ## The reusable queue -/

/-- `night_queue_remove(&c->queue)` for a reusable connection. -/
theorem accounted_leaveQueue (haccounted : Accounted s free queue posted)
    (hc : c < s.connectionN) :
    Accounted
      (setConnection c (fun conn => { conn with reusable := false })
        (leaveReusableQueue c s))
      free (queue.erase c) posted := by
  have hreusable := haccounted.reusable_iff c hc
  -- the parts that the two branches share
  have hnext : ∀ (t : Cycle) i,
      ((setConnection c (fun conn => { conn with reusable := false }) t).connections i).next =
        (t.connections i).next :=
    setConnection_field Connection.next (by intro; rfl) c
  have hiff : ∀ t : Cycle, t.connections = s.connections → ∀ i < s.connectionN,
      ((setConnection c (fun conn => { conn with reusable := false }) t).connections
        i).reusable = true ↔ i ∈ queue.erase c := by
    intro t ht i hi
    rw [setConnection_connections, ht, haccounted.queueNodup.mem_erase_iff]
    by_cases heq : i = c
    · simp [heq]
    · rw [if_neg heq]
      exact (haccounted.reusable_iff i hi).trans (and_iff_right heq).symm
  have hinUse : ∀ i ∈ queue.erase c, i ∈ s.inUse :=
    fun i hi => haccounted.queue_inUse i (List.mem_of_mem_erase hi)
  rw [leaveReusableQueue]
  by_cases hset : (s.connections c).reusable = true
  · rw [if_pos hset]
    have hin := hreusable.mp hset
    exact {
      freeChain := haccounted.freeChain.congr fun i _ => hnext _ i
      slots := haccounted.slots
      freeCount := haccounted.freeCount
      queueRing := by
        obtain ⟨left, right, rfl⟩ := List.append_of_mem hin
        have hring := haccounted.queueRing
        rw [List.map_append, List.map_cons] at hring
        rw [List.erase_append_right _ (fun hin => (List.nodup_append.mp
          haccounted.queueNodup).2.2 c hin c List.mem_cons_self rfl), List.erase_cons_head,
          List.map_append]
        exact ring_remove hring
      queueCount := by
        have hpos := List.length_pos_of_mem hin
        change s.reusableConnectionsN - 1 = _
        rw [haccounted.queueCount, List.length_erase_of_mem hin]
        omega
      reusable_iff := hiff _ rfl
      queue_inUse := hinUse
      timersNodup := haccounted.timersNodup
      timerSet_iff := haccounted.timerSet_iff
      timers_inUse := haccounted.timers_inUse
      postedRing := haccounted.postedRing
      posted_iff := haccounted.posted_iff
      posted_inUse := haccounted.posted_inUse }
  · rw [if_neg hset]
    have hnotin : c ∉ queue := fun hin => hset (hreusable.mpr hin)
    have herase := List.erase_of_not_mem hnotin
    exact {
      freeChain := haccounted.freeChain.congr fun i _ => hnext _ i
      slots := haccounted.slots
      freeCount := haccounted.freeCount
      queueRing := by
        rw [herase]
        exact haccounted.queueRing
      queueCount := by
        rw [herase]
        exact haccounted.queueCount
      reusable_iff := hiff _ rfl
      queue_inUse := hinUse
      timersNodup := haccounted.timersNodup
      timerSet_iff := haccounted.timerSet_iff
      timers_inUse := haccounted.timers_inUse
      postedRing := haccounted.postedRing
      posted_iff := haccounted.posted_iff
      posted_inUse := haccounted.posted_inUse }

theorem accounted_notReusable (haccounted : Accounted s free queue posted)
    (hc : c < s.connectionN) :
    Accounted (nightReusableConnection c false s) free (queue.erase c) posted := by
  rw [nightReusableConnection]
  exact accounted_leaveQueue haccounted hc

theorem accounted_reusable (haccounted : Accounted s free queue posted) (hc : c ∈ s.inUse) :
    Accounted (nightReusableConnection c true s) free (c :: queue.erase c) posted := by
  have hlt := haccounted.lt_of_inUse hc
  have hleft := accounted_leaveQueue haccounted hlt
  have hnotin : c ∉ queue.erase c := fun hin => (haccounted.queueNodup.mem_erase_iff.mp hin).1 rfl
  rw [nightReusableConnection]
  have hinUse := (keeps_leaveReusableQueue c s).sameInUse
  generalize leaveReusableQueue c s = t at *
  exact {
    freeChain := by
      apply hleft.freeChain.congr
      intro i _
      change ((setConnection c (fun conn => { conn with reusable := true }) t).connections
        i).next = ((setConnection c _ t).connections i).next
      rw [setConnection_field Connection.next, setConnection_field Connection.next]
      · exact fun _ => rfl
      · exact fun _ => rfl
    slots := hleft.slots
    freeCount := hleft.freeCount
    queueRing := ring_insertHead hleft.queueRing (of_not_mem_map hnotin)
    queueCount := by
      have hcount : t.reusableConnectionsN = (queue.erase c).length := hleft.queueCount
      change t.reusableConnectionsN + 1 = _
      rw [hcount, List.length_cons]
      rfl
    reusable_iff := by
      intro i hi
      have hbefore := hleft.reusable_iff i hi
      change ((setConnection c (fun conn => { conn with reusable := true }) t).connections
        i).reusable = true ↔ _
      rw [setConnection_connections] at hbefore ⊢
      rw [List.mem_cons]
      by_cases heq : i = c
      · simp [heq]
      · rw [if_neg heq] at hbefore ⊢
        exact hbefore.trans (or_iff_right heq).symm
    queue_inUse := by
      intro i hi
      rcases List.mem_cons.mp hi with rfl | hin
      · exact hinUse ▸ hc
      · exact hleft.queue_inUse i hin
    timersNodup := hleft.timersNodup
    timerSet_iff := hleft.timerSet_iff
    timers_inUse := hleft.timers_inUse
    postedRing := hleft.postedRing
    posted_iff := hleft.posted_iff
    posted_inUse := hleft.posted_inUse }

/-! ## The free list -/

/-- What a slot must have given up before it goes back to the free list. -/
structure Idle (s : Cycle) (queue : List ℕ) (posted : List EventId) (c : ℕ) : Prop where
  notReusable : c ∉ queue
  noTimer : ∀ e ∈ s.timers, e.slot ≠ c
  notPosted : ∀ e ∈ posted, e.slot ≠ c

theorem accounted_free (haccounted : Accounted s free queue posted) (hc : c ∈ s.inUse)
    (hidle : Idle s queue posted c) :
    Accounted (nightFreeConnection c s) (c :: free) queue posted := by
  have hnotin : c ∉ free := fun hin => haccounted.not_inUse hin hc
  have hreusable : ∀ i, ((setConnection c (fun conn =>
      { conn with next := s.freeConnections }) s).connections i).reusable =
        (s.connections i).reusable :=
    setConnection_field Connection.reusable (by intro; rfl) c s
  have hfreed : Accounted
      { setConnection c (fun conn => { conn with next := s.freeConnections }) s with
        freeConnections := some c
        freeConnectionN := s.freeConnectionN + 1
        inUse := s.inUse.erase c } (c :: free) queue posted := {
    freeChain := by
      refine ⟨rfl, ?_⟩
      simp only [setConnection_connections, if_true]
      apply haccounted.freeChain.congr
      intro i hi
      rw [if_neg]
      rintro rfl
      exact hnotin hi
    slots := by
      have herase : (c :: s.inUse.erase c).Perm s.inUse := (List.perm_cons_erase hc).symm
      exact (List.perm_middle.symm.trans (herase.append_left free)).trans haccounted.slots
    freeCount := by
      change s.freeConnectionN + 1 = _
      rw [haccounted.freeCount, List.length_cons]
      rfl
    queueRing := haccounted.queueRing
    queueCount := haccounted.queueCount
    reusable_iff := by
      intro i hi
      change ((setConnection c (fun conn => { conn with next := s.freeConnections }) s).connections
        i).reusable = true ↔ _
      rw [hreusable]
      exact haccounted.reusable_iff i hi
    queue_inUse := by
      intro i hi
      refine (List.mem_erase_of_ne ?_).mpr (haccounted.queue_inUse i hi)
      rintro rfl
      exact hidle.notReusable hi
    timersNodup := haccounted.timersNodup
    timerSet_iff := haccounted.timerSet_iff
    timers_inUse := fun e he =>
      (List.mem_erase_of_ne (hidle.noTimer e he)).mpr (haccounted.timers_inUse e he)
    postedRing := haccounted.postedRing
    posted_iff := haccounted.posted_iff
    posted_inUse := fun e he =>
      (List.mem_erase_of_ne (hidle.notPosted e he)).mpr (haccounted.posted_inUse e he) }
  rw [nightFreeConnection]
  -- `files` is no part of the accounts
  split
  · exact hfreed.same ⟨rfl, rfl, rfl, rfl, rfl, rfl, rfl, rfl, fun _ => rfl, fun _ => rfl,
      fun _ => rfl, fun _ => rfl⟩
  · exact hfreed

theorem deletePostedIfPosted_timers (e : EventId) (s : Cycle) :
    (deletePostedIfPosted e s).timers = s.timers := by
  rw [deletePostedIfPosted]
  split <;> rfl

theorem reusable_timers (c : ℕ) (reusable : Bool) (s : Cycle) :
    (nightReusableConnection c reusable s).timers = s.timers := by
  have hleave : (leaveReusableQueue c s).timers = s.timers := by
    rw [leaveReusableQueue]
    split <;> rfl
  cases reusable with
  | false => exact hleave
  | true => exact hleave

/-- `night_close_connection` gives up everything before it frees the slot. -/
theorem accounted_close (haccounted : Accounted s free queue posted) (hc : c ∈ s.inUse)
    (hopen : (s.connections c).fd ≠ -1) :
    ∃ posted', Accounted (nightCloseConnection c s) (c :: free) (queue.erase c) posted' ∧
      ∀ e, e ∈ posted' ↔ e.slot ≠ c ∧ e ∈ posted := by
  rw [nightCloseConnection, if_neg hopen]
  dsimp only
  have hlt := haccounted.lt_of_inUse hc
  -- the timers go
  have hkeeps₁ := keeps_delTimerIfSet (readOf c) s
  obtain ⟨haccounted₁, htimers₁⟩ := accounted_delTimerIfSet haccounted (e := readOf c) hlt
  generalize delTimerIfSet (readOf c) s = s₁ at *
  have hkeeps₂ := keeps_delTimerIfSet (writeOf c) s₁
  obtain ⟨haccounted₂, htimers₂⟩ := accounted_delTimerIfSet haccounted₁ (e := writeOf c)
    (hkeeps₁.connectionN ▸ hlt)
  generalize delTimerIfSet (writeOf c) s₁ = s₂ at *
  -- the events leave epoll
  have hkeeps₃ := keeps_delConn c s₂
  have haccounted₃ : Accounted (nightDelConn c s₂) free queue posted :=
    (haccounted₂.setEvent (by intro; rfl) (by intro; rfl) (readOf c)).setEvent
      (by intro; rfl) (by intro; rfl) (writeOf c)
  have htimers₃ : ∀ e ∈ (nightDelConn c s₂).timers, e.slot ≠ c := by
    rintro ⟨slot, write⟩ he rfl
    have hs₂ := (htimers₂ ⟨slot, write⟩).mp he
    cases write with
    | false => exact ((htimers₁ _).mp hs₂.2).1 rfl
    | true => exact hs₂.1 rfl
  have hkeeps := ((hkeeps₁.trans hkeeps₂).trans hkeeps₃)
  generalize nightDelConn c s₂ = s₃ at *
  -- the posted events go
  have hkeeps₄ := keeps_deletePostedIfPosted (readOf c) s₃
  have htimers₄ := deletePostedIfPosted_timers (readOf c) s₃
  obtain ⟨posted₄, haccounted₄, hposted₄⟩ := accounted_deletePostedIfPosted haccounted₃
    (e := readOf c) (hkeeps.connectionN ▸ hlt)
  generalize deletePostedIfPosted (readOf c) s₃ = s₄ at *
  have hkeeps₅ := keeps_deletePostedIfPosted (writeOf c) s₄
  have htimers₅ := deletePostedIfPosted_timers (writeOf c) s₄
  obtain ⟨posted₅, haccounted₅, hposted₅⟩ := accounted_deletePostedIfPosted haccounted₄
    (e := writeOf c) (hkeeps₄.connectionN ▸ hkeeps.connectionN ▸ hlt)
  have hposted : ∀ e, e ∈ posted₅ ↔ e.slot ≠ c ∧ e ∈ posted := by
    rintro ⟨slot, write⟩
    rw [hposted₅, hposted₄, readOf, writeOf]
    cases write <;> simp
  have hkeeps := (hkeeps.trans hkeeps₄).trans hkeeps₅
  generalize deletePostedIfPosted (writeOf c) s₄ = s₅ at *
  -- the rest is about the connection
  have haccounted₆ : Accounted (markClosed c s₅) free queue posted₅ :=
    (haccounted₅.setEvent (by intro; rfl) (by intro; rfl) (readOf c)).setEvent
      (by intro; rfl) (by intro; rfl) (writeOf c)
  have htimers₆ : (markClosed c s₅).timers = s₅.timers := rfl
  have hkeeps := hkeeps.trans (keeps_markClosed c s₅)
  generalize markClosed c s₅ = s₆ at *
  have haccounted₇ := accounted_notReusable haccounted₆ (c := c) (hkeeps.connectionN ▸ hlt)
  have hidle : Idle (nightReusableConnection c false s₆) (queue.erase c) posted₅ c := {
    notReusable := fun hin => (haccounted.queueNodup.mem_erase_iff.mp hin).1 rfl
    noTimer := by
      intro e he
      rw [reusable_timers, htimers₆, htimers₅, htimers₄] at he
      exact htimers₃ e he
    notPosted := fun e he => ((hposted e).mp he).1 }
  have hinUse := (hkeeps.trans (keeps_reusable c false s₆)).sameInUse
  refine ⟨posted₅, ?_, hposted⟩
  exact (accounted_free haccounted₇ (hinUse ▸ hc) hidle).setConnection (by intro; rfl)
    (by intro; rfl) c

end Night.Connections
