import Mathlib.Data.List.Perm.Subperm
import Night.Core.WorkerLaw

/-!
# Runs of the worker

Each caller keeps the invariant of the worker, and so does a run in which the listening
sockets are closed at a time when none of them has a timer.
-/

namespace Night.Worker

open Night.Chains
open Night.Connections
open Night.HttpConnection

variable {n c : ℕ} {s s' : Cycle} {free queue : List ℕ} {posted : List EventId} {e : EventId}

/-! ## Handlers stay -/

theorem addTimer_handler (e e' : EventId) (timer : ℤ) (s : Cycle) :
    ((nightEventAddTimer e timer s).events e').handler = (s.events e').handler := by
  obtain ⟨timerSet, timerKey, hevent⟩ := addTimer_event e e' timer s
  rw [hevent]

theorem delTimerIfSet_handler (e e' : EventId) (s : Cycle) :
    ((delTimerIfSet e s).events e').handler = (s.events e').handler := by
  obtain ⟨timerSet, timerKey, hevent, -⟩ := delTimerIfSet_event e e' s
  rw [hevent]

theorem handleReadEvent_cases (added : Bool) (e : EventId) (s : Cycle) :
    (nightHandleReadEvent added e s).2 = s ∨
      (nightHandleReadEvent added e s).2 = setEvent e (fun ev => { ev with active := true }) s := by
  rw [nightHandleReadEvent]
  split
  · split
    · exact Or.inr rfl
    · exact Or.inl rfl
  · exact Or.inl rfl

theorem handleReadEvent_handler (added : Bool) (e e' : EventId) (s : Cycle) :
    ((nightHandleReadEvent added e s).2.events e').handler = (s.events e').handler := by
  rcases handleReadEvent_cases added e s with heq | heq
  · rw [heq]
  · rw [heq]
    exact setEvent_field Event.handler (by intro; rfl) e s e'

theorem keeps_handleReadEvent (added : Bool) (e : EventId) (s : Cycle) :
    Keeps e.slot s (nightHandleReadEvent added e s).2 := by
  rcases handleReadEvent_cases added e s with heq | heq
  · rw [heq]
    exact Keeps.refl e.slot s
  · rw [heq]
    exact keeps_setEvent e _ s

theorem Sound.handleReadEvent (hs : Sound n s) (hc : c ∈ s.inUse) (added : Bool) :
    Sound n (nightHandleReadEvent added (readOf c) s).2 := by
  rcases handleReadEvent_cases added (readOf c) s with heq | heq
  · rw [heq]
    exact hs
  · rw [heq]
    exact hs.writeEvent hc (by intro; rfl) (by intro; rfl) (by intro; rfl)

/-! ## Connections that wait for a request -/

/-- A slot in use whose read event has the given handler. -/
structure Has (handler : Handler) (s : Cycle) (c : ℕ) : Prop where
  inUse : c ∈ s.inUse
  handler : (s.events (readOf c)).handler = handler

variable {handler : Handler}

theorem Has.keeps (hhas : Has handler s c) (hkeeps : Keeps c s s')
    (hhandler : (s'.events (readOf c)).handler = (s.events (readOf c)).handler) :
    Has handler s' c :=
  ⟨hkeeps.sameInUse ▸ hhas.inUse, hhandler.trans hhas.handler⟩

theorem Has.not_listening (hhas : Has handler s c) (hs : Sound n s)
    (hne : handler ≠ .eventAccept) : c ∉ s.listening :=
  hs.not_listening (by rw [hhas.handler]; exact hne)

/-- The end of both functions that start to wait. -/
theorem sound_waitOrClose (hs : Sound n s) (hhas : Has .waitRequest s c) (added : Bool) :
    Sound n (if (nightHandleReadEvent added (readOf c) s).1 then
        (nightHandleReadEvent added (readOf c) s).2
      else nightHttpCloseConnection c (nightHandleReadEvent added (readOf c) s).2) := by
  have hhandled := hs.handleReadEvent hhas.inUse added
  have hhas' := hhas.keeps (keeps_handleReadEvent added (readOf c) s)
    (handleReadEvent_handler added (readOf c) (readOf c) s)
  split
  · exact hhandled
  · exact hhandled.httpClose hhas'.inUse (hhas'.not_listening hhandled (by decide))

theorem sound_waitRequestHandler (hs : Sound n s) (hhas : Has .waitRequest s c)
    (input : WaitInput) : Sound n (nightHttpWaitRequestHandler input c s) := by
  have hclose : ∀ {t : Cycle}, Sound n t → Has .waitRequest t c →
      Sound n (nightHttpCloseConnection c t) :=
    fun ht hhas => ht.httpClose hhas.inUse (hhas.not_listening ht (by decide))
  rw [nightHttpWaitRequestHandler]
  split
  · exact hclose hs hhas
  split
  · exact hclose hs hhas
  split
  · exact hclose hs hhas
  have hready : Sound n (setEvent (readOf c) (fun ev => { ev with ready := input.ready }) s) :=
    hs.writeEvent hhas.inUse (by intro; rfl) (by intro; rfl) (by intro; rfl)
  have hhasReady := hhas.keeps (keeps_setEvent (readOf c)
    (fun ev => { ev with ready := input.ready }) s)
    (setEvent_field Event.handler (by intro; rfl) (readOf c) s (readOf c))
  generalize setEvent (readOf c) (fun ev => { ev with ready := input.ready }) s = t at *
  dsimp only
  cases input.recv with
  | again =>
      dsimp only
      by_cases hset : (t.events (readOf c)).timerSet = true
      · simp only [hset, Bool.not_true, Bool.false_eq_true, if_false]
        exact sound_waitOrClose hready hhasReady input.added
      · simp only [hset, Bool.not_false, if_true]
        have htimer := hready.addTimer hhasReady.inUse input.clientHeaderTimeout
        have hhasTimer := hhasReady.keeps (keeps_addTimer (readOf c) input.clientHeaderTimeout t)
          (addTimer_handler (readOf c) (readOf c) input.clientHeaderTimeout t)
        refine sound_waitOrClose (htimer.makeReusable hhasTimer.inUse (Or.inl hhasTimer.handler))
          (hhasTimer.keeps (keeps_reusable c true _) ?_) input.added
        rw [reusable_events]
  | error => exact hclose hready hhasReady
  | closed => exact hclose hready hhasReady
  | bytes =>
      have hnot := hready.notReusable hhasReady.inUse
      have hhasNot := hhasReady.keeps (keeps_reusable c false t) (by rw [reusable_events])
      have hreusable : ((nightReusableConnection c false t).connections c).reusable = false := by
        rw [reusable_connections, setConnection_connections, if_pos rfl]
      generalize nightReusableConnection c false t = u at *
      dsimp only
      split
      · exact hclose hnot hhasNot
      · have hrole := hnot.role c (hnot.lt hhasNot.inUse)
        have hwait := hhasNot.handler
        refine hnot.setHandler hhasNot.inUse (hhasNot.not_listening hnot (by decide))
          (by intro; rfl) (by intro; rfl) (by intro; rfl) ?_ ?_ ?_
        · rw [hreusable]
          exact fun hfalse => absurd hfalse Bool.false_ne_true
        · intro hfd hidle
          exact absurd (hwait.symm.trans (hrole.idle hfd hidle)) (by decide)
        · intro hposted
          exact absurd (hwait.symm.trans (hrole.posted hposted)) (by decide)

/-- The handlers of reusable connections keep the invariant when they are asked to close. -/
theorem keptByHandlers (n : ℕ) : KeptByHandlers closingHandler n (Sound n) where
  connectionN := fun _ hs => hs.connectionN
  accounted := fun _ hs => hs.accounted
  handled := by
    intro s hs c hc hreusable
    obtain ⟨free, queue, posted, haccounted⟩ := hs.accounted
    have hinUse : c ∈ s.inUse := haccounted.queue_inUse c
      ((haccounted.reusable_iff c (hs.connectionN ▸ hc)).mp hreusable)
    have hclosing := hs.writeConnection hinUse (f := fun conn => { conn with close := true })
      (by intro; rfl) (by intro; rfl) (by intro; rfl) (by intro; rfl)
    rw [closingHandler, setConnection_events]
    rcases (hs.role c hc).reusable hreusable with hwait | hkeepalive
    · rw [hwait]
      exact ⟨_, rfl, sound_waitRequestHandler hclosing ⟨hinUse, hwait⟩ unusedInput⟩
    · rw [hkeepalive]
      exact ⟨_, rfl, hclosing⟩

/-! ## New connections -/

/-- A slot that was just taken. -/
structure Newborn (s : Cycle) (c : ℕ) : Prop where
  inUse : c ∈ s.inUse
  notListening : c ∉ s.listening
  quiet : Quiet s c
  inactive : (s.events (readOf c)).active = false
  notIdle : (s.connections c).idle = false

theorem sound_take (hs : Sound n s) (hfree : s.freeConnections = some c) (socket : ℤ) :
    Sound n (takeConnection socket c s) ∧ Newborn (takeConnection socket c s) c := by
  obtain ⟨free, queue, posted, haccounted⟩ := hs.accounted
  obtain ⟨rest, rfl⟩ : ∃ rest, free = c :: rest := by
    have hhead := haccounted.freeChain.head_eq
    rw [hfree] at hhead
    cases free with
    | nil => cases hhead
    | cons first rest =>
        cases hhead
        exact ⟨rest, rfl⟩
  have hnotListening : c ∉ s.listening :=
    fun hin => haccounted.not_inUse List.mem_cons_self (hs.listening c hin).1
  have hconnection : (takeConnection socket c s).connections c = zeroConnection socket := by
    rw [takeConnection_connections, if_pos rfl]
  have hread := takeConnection_events_self (c := c) socket s (e := readOf c) rfl
  have hquiet : Quiet (takeConnection socket c s) c := {
    notReusable := by
      rw [hconnection]
      rfl
    timers := fun e he => takeConnection_event_timerSet socket s he
    posted := fun e he => takeConnection_event_posted socket s he }
  have hinUse : c ∈ (takeConnection socket c s).inUse := List.mem_cons_self
  refine ⟨?_, hinUse, hnotListening, hquiet, ?_, ?_⟩
  · refine hs.touch (touches_take socket c s) ⟨_, _, _, accounted_take haccounted socket⟩ ?_
      fun hin => absurd hin hnotListening
    exact {
      held := fun _ => Or.inl hinUse
      reusable := by
        rw [hquiet.notReusable]
        exact fun hfalse => absurd hfalse Bool.false_ne_true
      idle := by
        rw [hconnection]
        exact fun _ hfalse => absurd hfalse Bool.false_ne_true
      posted := by
        rw [hquiet.posted (readOf c) rfl]
        exact fun hfalse => absurd hfalse Bool.false_ne_true
      writePosted := hquiet.posted (writeOf c) rfl
      writeTimer := hquiet.timers (writeOf c) rfl }
  · rw [hread]
    rfl
  · rw [hconnection]
    rfl

/-- Taking a connection leads to a newborn slot, or to nothing. -/
theorem sound_getConnection (hs : Sound n s) (socket : ℤ) :
    ∃ got s', nightGetConnection closingHandler socket s = some (got, s') ∧ Sound n s' ∧
      ∀ c ∈ got, Newborn s' c := by
  obtain ⟨s', hs', hnone | ⟨c, hfree, hsome⟩⟩ :=
    nightGetConnection_cases (keptByHandlers n) socket hs
  · exact ⟨none, s', hnone, hs', by simp⟩
  · obtain ⟨htaken, hnewborn⟩ := sound_take hs' hfree socket
    refine ⟨some c, _, hsome, htaken, ?_⟩
    intro i hi
    cases hi
    exact hnewborn

theorem Newborn.setEvent (hnewborn : Newborn s c) {f : Event → Event}
    (htimerSet : ∀ ev, (f ev).timerSet = ev.timerSet)
    (hposted : ∀ ev, (f ev).posted = ev.posted) (hactive : ∀ ev, (f ev).active = ev.active)
    (e : EventId) : Newborn (setEvent e f s) c where
  inUse := hnewborn.inUse
  notListening := hnewborn.notListening
  quiet := hnewborn.quiet.setEvent htimerSet hposted e
  inactive := (setEvent_field Event.active hactive e s (readOf c)).trans hnewborn.inactive
  notIdle := hnewborn.notIdle

/-- Any handler may be given to a newborn connection. -/
theorem Newborn.sound_setHandler (hnewborn : Newborn s c) (hs : Sound n s)
    {h : Handler} {f : Event → Event} (hhandler : ∀ ev, (f ev).handler = h)
    (htimerSet : ∀ ev, (f ev).timerSet = ev.timerSet)
    (hposted : ∀ ev, (f ev).posted = ev.posted) :
    Sound n (Night.Connections.setEvent (readOf c) f s) := by
  refine hs.setHandler hnewborn.inUse hnewborn.notListening hhandler htimerSet hposted ?_ ?_ ?_
  · rw [hnewborn.quiet.notReusable]
    exact fun hfalse => absurd hfalse Bool.false_ne_true
  · rw [hnewborn.notIdle]
    exact fun _ hfalse => absurd hfalse Bool.false_ne_true
  · rw [hnewborn.quiet.posted (readOf c) rfl]
    exact fun hfalse => absurd hfalse Bool.false_ne_true

theorem sound_initConnection (hs : Sound n s) (hnewborn : Newborn s c) (allocated : Bool)
    (input : WaitInput) : Sound n (nightHttpInitConnection allocated input c s) := by
  rw [nightHttpInitConnection]
  split
  · exact hs.httpClose hnewborn.inUse hnewborn.notListening
  have hread : Sound n (setEvent (readOf c) (fun ev => { ev with handler := .waitRequest }) s) :=
    hnewborn.sound_setHandler hs (by intro; rfl) (by intro; rfl) (by intro; rfl)
  have hhas : Has .waitRequest
      (setEvent (readOf c) (fun ev => { ev with handler := .waitRequest }) s) c :=
    ⟨hnewborn.inUse, by rw [setEvent_events, if_pos rfl]⟩
  generalize setEvent (readOf c) (fun ev => { ev with handler := .waitRequest }) s = t at *
  have hwrite : Sound n (setEvent (writeOf c) (fun ev => { ev with handler := .empty }) t) :=
    hread.setWrite hhas.inUse (by intro; rfl) (by intro; rfl)
  have hhasWrite := hhas.keeps (keeps_setEvent (writeOf c)
    (fun ev => { ev with handler := .empty }) t)
    (by rw [setEvent_events, if_neg (by simp [readOf, writeOf])])
  dsimp only
  generalize setEvent (writeOf c) (fun ev => { ev with handler := .empty }) t = u at *
  split
  · exact sound_waitRequestHandler hwrite hhasWrite input
  · have htimer := hwrite.addTimer hhasWrite.inUse input.clientHeaderTimeout
    have hhasTimer := hhasWrite.keeps (keeps_addTimer (readOf c) input.clientHeaderTimeout u)
      (addTimer_handler (readOf c) (readOf c) input.clientHeaderTimeout u)
    refine sound_waitOrClose (htimer.makeReusable hhasTimer.inUse (Or.inl hhasTimer.handler))
      (hhasTimer.keeps (keeps_reusable c true _) ?_) input.added
    rw [reusable_events]

theorem sound_welcome (hs : Sound n s) (hnewborn : Newborn s c) (newcomer : Newcomer) :
    Sound n (welcome newcomer c s) := by
  rw [welcome]
  split
  · exact hs.release hnewborn.inUse hnewborn.notListening hnewborn.quiet
  have hwrite : Sound n (setEvent (writeOf c) (fun ev => { ev with ready := true }) s) :=
    hs.writeEvent hnewborn.inUse (by intro; rfl) (by intro; rfl) (by intro; rfl)
  have hnewbornWrite : Newborn (setEvent (writeOf c) (fun ev => { ev with ready := true }) s) c :=
    hnewborn.setEvent (by intro; rfl) (by intro; rfl) (by intro; rfl) (writeOf c)
  have hread : Sound n (setEvent (readOf c) (fun ev => { ev with ready := true })
      (setEvent (writeOf c) (fun ev => { ev with ready := true }) s)) :=
    hwrite.writeEvent hnewborn.inUse (by intro; rfl) (by intro; rfl) (by intro; rfl)
  have hnewbornRead := hnewbornWrite.setEvent (f := fun ev => { ev with ready := true })
    (by intro; rfl) (by intro; rfl) (by intro; rfl) (readOf c)
  dsimp only
  split
  · exact hread.release hnewbornRead.inUse hnewbornRead.notListening hnewbornRead.quiet
  · exact sound_initConnection hread hnewbornRead newcomer.allocated newcomer.wait

/-! ## Accepting -/

theorem sound_enable (added : ℕ → Bool) (listening : List ℕ) (hs : Sound n s)
    (hinUse : ∀ c ∈ listening, c ∈ s.inUse) :
    Sound n (nightEnableAcceptEvents added listening s).2 ∧
      (nightEnableAcceptEvents added listening s).2.inUse = s.inUse := by
  induction listening generalizing s with
  | nil => exact ⟨hs, rfl⟩
  | cons c listening ih =>
      have hrest : ∀ i ∈ listening, i ∈ s.inUse := fun i hi => hinUse i (List.mem_cons_of_mem c hi)
      rw [nightEnableAcceptEvents]
      split
      · exact ih hs hrest
      split
      · have hactive := hs.writeEvent (e := readOf c) (hinUse c List.mem_cons_self)
          (f := fun ev => { ev with active := true }) (by intro; rfl) (by intro; rfl)
          (by intro; rfl)
        exact ih hactive hrest
      · exact ⟨hs, rfl⟩

theorem sound_disable (listening : List ℕ) (hs : Sound n s)
    (hinUse : ∀ c ∈ listening, c ∈ s.inUse) :
    Sound n (nightDisableAcceptEvents listening s) ∧
      (nightDisableAcceptEvents listening s).inUse = s.inUse := by
  induction listening generalizing s with
  | nil => exact ⟨hs, rfl⟩
  | cons c listening ih =>
      have hrest : ∀ i ∈ listening, i ∈ s.inUse := fun i hi => hinUse i (List.mem_cons_of_mem c hi)
      rw [nightDisableAcceptEvents]
      by_cases hactive : (s.events (readOf c)).active = true
      · rw [if_pos hactive]
        exact ih (hs.writeEvent (e := readOf c) (hinUse c List.mem_cons_self) (by intro; rfl)
          (by intro; rfl) (by intro; rfl)) hrest
      · rw [if_neg hactive]
        exact ih hs hrest

theorem sound_acceptOnce (hs : Sound n s) (hc : c ∈ s.inUse) (accepted : Accepted) :
    ∃ s', acceptOnce accepted (readOf c) s = some s' ∧ Sound n s' := by
  have hready : Sound n (setEvent (readOf c) (fun ev => { ev with ready := false }) s) :=
    hs.writeEvent hc (by intro; rfl) (by intro; rfl) (by intro; rfl)
  have hc' : c ∈ (setEvent (readOf c) (fun ev => { ev with ready := false }) s).inUse := hc
  rw [acceptOnce.eq_def]
  dsimp only
  generalize setEvent (readOf c) (fun ev => { ev with ready := false }) s = t at *
  cases accepted with
  | again => exact ⟨t, rfl, hready⟩
  | aborted => exact ⟨t, rfl, hready⟩
  | noFiles =>
      obtain ⟨hdisabled, hinUse⟩ := sound_disable t.listening hready
        fun i hi => (hready.listening i hi).1
      exact ⟨_, rfl, hdisabled.addTimer (hinUse ▸ hc') 600⟩
  | failed => exact ⟨t, rfl, hready⟩
  | socket fd newcomer =>
      obtain ⟨got, s', hget, hs', hnewborn⟩ := sound_getConnection hready fd
      simp only [hget, Option.bind_eq_bind, Option.bind_some]
      cases got with
      | none => exact ⟨s', rfl, hs'⟩
      | some i => exact ⟨_, rfl, sound_welcome hs' (hnewborn i rfl) newcomer⟩

theorem sound_eventAccept (hs : Sound n s) (hc : c ∈ s.inUse) (added : ℕ → Bool)
    (accepted : Accepted) :
    ∃ s', nightEventAccept added accepted (readOf c) s = some s' ∧ Sound n s' := by
  obtain ⟨henabled, hinUse⟩ := sound_enable added s.listening hs
    fun i hi => (hs.listening i hi).1
  rw [nightEventAccept]
  by_cases htimedout : (s.events (readOf c)).timedout = true
  · rw [if_pos htimedout]
    dsimp only
    split
    · exact ⟨_, rfl, henabled⟩
    · exact sound_acceptOnce (henabled.writeEvent (e := readOf c) (hinUse ▸ hc) (by intro; rfl)
        (by intro; rfl) (by intro; rfl)) (hinUse ▸ hc) accepted
  · rw [if_neg htimedout]
    exact sound_acceptOnce hs hc accepted

/-! ## Starting and stopping -/

theorem sound_listen (hs : Sound n s) (fd : ℤ) (added : Bool) :
    ∃ s', listen fd added s = some s' ∧ Sound n s' := by
  obtain ⟨got, s', hget, hs', hnewborn⟩ := sound_getConnection hs fd
  rw [listen]
  simp only [hget, Option.bind_eq_bind, Option.bind_some]
  cases got with
  | none => exact ⟨s', rfl, hs'⟩
  | some c =>
      have hborn := hnewborn c rfl
      have haccepts := hborn.sound_setHandler hs' (h := .eventAccept)
        (f := fun ev => { ev with accept := true, handler := .eventAccept, active := added })
        (by intro; rfl) (by intro; rfl) (by intro; rfl)
      have hhandler : ((setEvent (readOf c) (fun ev =>
          { ev with accept := true, handler := .eventAccept, active := added }) s').events
            (readOf c)).handler = .eventAccept := by
        rw [setEvent_events, if_pos rfl]
      refine ⟨_, rfl, ?_⟩
      exact {
        connectionN := haccepts.connectionN
        accounted := by
          obtain ⟨free, queue, posted, haccounted⟩ := haccepts.accounted
          exact ⟨free, queue, posted, haccounted.same ⟨rfl, rfl, rfl, rfl, rfl, rfl, rfl, rfl,
            fun _ => rfl, fun _ => rfl, fun _ => rfl, fun _ => rfl⟩⟩
        listeningNodup := by
          refine List.nodup_append.mpr ⟨hs'.listeningNodup, List.nodup_singleton c, ?_⟩
          rintro i hi j hj rfl
          rw [List.mem_singleton.mp hj] at hi
          exact hborn.notListening hi
        listening := by
          intro i hi
          rcases List.mem_append.mp hi with hin | hin
          · exact haccepts.listening i hin
          · rw [List.mem_singleton.mp hin]
            exact ⟨hborn.inUse, hhandler⟩
        role := fun i hi =>
          let hrole := haccepts.role i hi
          ⟨hrole.held, hrole.reusable, hrole.idle, hrole.posted, hrole.writePosted,
            hrole.writeTimer⟩ }

theorem sound_addChannelEvent (hs : Sound n s) (fd : ℤ) (added : Bool) :
    ∃ s', nightAddChannelEvent fd added s = some s' ∧ Sound n s' := by
  obtain ⟨got, s', hget, hs', hnewborn⟩ := sound_getConnection hs fd
  rw [nightAddChannelEvent]
  simp only [hget, Option.bind_eq_bind, Option.bind_some]
  cases got with
  | none => exact ⟨s', rfl, hs'⟩
  | some c =>
      dsimp only
      have hborn := hnewborn c rfl
      have hwrite : Sound n (setEvent (writeOf c) (fun ev => { ev with channel := true }) s') :=
        hs'.setWrite hborn.inUse (by intro; rfl) (by intro; rfl)
      have hbornWrite := hborn.setEvent (f := fun ev => { ev with channel := true })
        (by intro; rfl) (by intro; rfl) (by intro; rfl) (writeOf c)
      generalize setEvent (writeOf c) (fun ev => { ev with channel := true }) s' = t at *
      have hread := hbornWrite.sound_setHandler hwrite (h := .channel)
        (f := fun ev => { ev with channel := true, handler := .channel })
        (by intro; rfl) (by intro; rfl) (by intro; rfl)
      have hbornRead := hbornWrite.setEvent
        (f := fun ev => { ev with channel := true, handler := .channel })
        (by intro; rfl) (by intro; rfl) (by intro; rfl) (readOf c)
      split
      · exact ⟨_, rfl, hread.writeEvent hbornRead.inUse (by intro; rfl) (by intro; rfl)
          (by intro; rfl)⟩
      · refine ⟨_, rfl, hread.releaseChannel hbornRead.inUse hbornRead.quiet ?_
          hbornRead.inactive hbornRead.notIdle⟩
        rw [setEvent_events, if_pos rfl]

/-- The connection of a listening socket is given back like one that was just accepted; the
read event alone may still have a timer. -/
theorem quiet_listening (hs : Sound n s) (hc : c ∈ s.listening)
    (htimer : (s.events (readOf c)).timerSet = false) : Quiet s c := by
  obtain ⟨hinUse, hhandler⟩ := hs.listening c hc
  have hrole := hs.role c (hs.lt hinUse)
  exact {
    notReusable := by
      rw [← Bool.not_eq_true]
      intro hreusable
      rcases hrole.reusable hreusable with hother | hother
      · exact absurd (hhandler.symm.trans hother) (by decide)
      · exact absurd (hhandler.symm.trans hother) (by decide)
    timers := by
      rintro ⟨slot, write⟩ rfl
      cases write with
      | false => exact htimer
      | true => exact hrole.writeTimer
    posted := by
      rintro ⟨slot, write⟩ rfl
      cases write with
      | false =>
          rw [← Bool.not_eq_true]
          intro hposted
          exact absurd (hhandler.symm.trans (hrole.posted hposted)) (by decide)
      | true => exact hrole.writePosted }

theorem sound_dropListening {listening : List ℕ} (hs : Sound n s)
    (hlistening : s.listening = c :: listening) :
    Sound n { s with listening := listening } where
  connectionN := hs.connectionN
  accounted := by
    obtain ⟨free, queue, posted, haccounted⟩ := hs.accounted
    exact ⟨free, queue, posted, haccounted.same ⟨rfl, rfl, rfl, rfl, rfl, rfl, rfl, rfl,
      fun _ => rfl, fun _ => rfl, fun _ => rfl, fun _ => rfl⟩⟩
  listeningNodup := by
    have hnodup := hs.listeningNodup
    rw [hlistening] at hnodup
    exact (List.nodup_cons.mp hnodup).2
  listening := fun i hi => hs.listening i (hlistening ▸ List.mem_cons_of_mem c hi)
  role := fun i hi =>
    let hrole := hs.role i hi
    ⟨hrole.held, hrole.reusable, hrole.idle, hrole.posted, hrole.writePosted, hrole.writeTimer⟩

theorem sound_closeListening (deleted : ℕ → Bool) (listening : List ℕ) (hs : Sound n s)
    (hlistening : s.listening = listening)
    (hclean : ∀ c ∈ listening, (s.events (readOf c)).timerSet = false) :
    Sound n (nightCloseListeningSockets deleted listening s) := by
  induction listening generalizing s with
  | nil => exact hs
  | cons c listening ih =>
      have hnodup := hs.listeningNodup
      rw [hlistening] at hnodup
      obtain ⟨hnotin, -⟩ := List.nodup_cons.mp hnodup
      have hin : c ∈ s.listening := hlistening ▸ List.mem_cons_self
      have hc := (hs.listening c hin).1
      have hquiet := quiet_listening hs hin (hclean c List.mem_cons_self)
      have hdropped := sound_dropListening hs hlistening
      have hdroppedQuiet : Quiet { s with listening := listening } c :=
        ⟨hquiet.notReusable, hquiet.timers, hquiet.posted⟩
      rw [nightCloseListeningSockets]
      have hclean' : ∀ i ∈ listening, (s.events (readOf i)).timerSet = false :=
        fun i hi => hclean i (List.mem_cons_of_mem c hi)
      have hclosed : ∀ t : Cycle, Sound n t → t.listening = listening → c ∈ t.inUse →
          Quiet t c → (∀ i ∈ listening, (t.events (readOf i)).timerSet = false) →
          Sound n (nightCloseListeningSockets deleted listening
            (nightCloseAcceptedConnection c t)) := by
        intro t ht htlistening htc htquiet htclean
        have hsame : (nightCloseAcceptedConnection c t).listening = t.listening :=
          (touches_free c t).listening
        refine ih (ht.release htc (htlistening ▸ hnotin) htquiet) (hsame.trans htlistening) ?_
        intro i hi
        have hevents : (nightCloseAcceptedConnection c t).events = t.events := free_events c t
        rw [hevents]
        exact htclean i hi
      by_cases hactive : ((s.events (readOf c)).active && deleted c) = true
      · simp only [hactive, if_true]
        refine hclosed _ (hdropped.writeEvent hc (by intro; rfl) (by intro; rfl) (by intro; rfl))
          rfl hc (hdroppedQuiet.setEvent (by intro; rfl) (by intro; rfl) (readOf c)) ?_
        intro i hi
        exact (setEvent_field Event.timerSet (by intro; rfl) (readOf c) _ _).trans (hclean' i hi)
      · simp only [hactive, Bool.false_eq_true, if_false]
        exact hclosed _ hdropped rfl hc hdroppedQuiet hclean'

/-- Idle connections that are open are kept ones, whose handler does nothing. -/
theorem sound_closeIdle (turns i : ℕ) (hs : Sound n s) (hn : i + turns = n) :
    ∃ s', nightCloseIdleConnections turns i s = some s' ∧ Sound n s' := by
  induction turns generalizing i s with
  | zero => exact ⟨s, rfl, hs⟩
  | succ turns ih =>
      rw [nightCloseIdleConnections]
      by_cases hidle : (s.connections i).fd ≠ -1 ∧ (s.connections i).idle = true
      · rw [if_pos hidle]
        have hrole := hs.role i (by omega)
        have hkeepalive := hrole.idle hidle.1 hidle.2
        have hinUse : i ∈ s.inUse := by
          rcases hrole.held hidle.1 with hinUse | hchannel
          · exact hinUse
          · exact absurd (hkeepalive.symm.trans hchannel.1) (by decide)
        have hclosing := hs.writeConnection hinUse (f := fun conn => { conn with close := true })
          (by intro; rfl) (by intro; rfl) (by intro; rfl) (by intro; rfl)
        rw [closingHandler, setConnection_events, hkeepalive]
        exact ih (i + 1) hclosing (by omega)
      · rw [if_neg hidle]
        exact ih (i + 1) hs (by omega)

theorem sound_deletePosted (hs : Sound n s) (haccounted : Accounted s free queue posted)
    (he : e ∈ posted) : Sound n (nightDeletePostedEvent e s) := by
  have hc := haccounted.posted_inUse e he
  have hrole := hs.role e.slot (hs.lt hc)
  have hfield : ∀ {α : Type} (field : Event → α),
      (∀ ev : Event, field { ev with posted := false } = field ev) → ∀ e',
        field ((nightDeletePostedEvent e s).events e') = field (s.events e') :=
    fun field hfield e' => setEvent_field field hfield e _ e'
  have hcleared : ∀ e', (s.events e').posted = false →
      ((nightDeletePostedEvent e s).events e').posted = false := by
    intro e' he'
    rw [nightDeletePostedEvent, setEvent_events]
    split
    · rfl
    · exact he'
  refine hs.touch (keeps_deletePosted e s).toTouches
    ⟨_, _, _, accounted_deletePosted haccounted he⟩ ?_ ?_
  · exact {
      held := fun _ => Or.inl hc
      reusable := by
        rw [hfield Event.handler fun _ => rfl]
        exact hrole.reusable
      idle := by
        rw [hfield Event.handler fun _ => rfl]
        exact hrole.idle
      posted := by
        intro hposted
        rw [hfield Event.handler fun _ => rfl]
        apply hrole.posted
        by_contra hnot
        rw [Bool.not_eq_true] at hnot
        rw [hcleared _ hnot] at hposted
        cases hposted
      writePosted := hcleared _ hrole.writePosted
      writeTimer := by
        rw [hfield Event.timerSet fun _ => rfl]
        exact hrole.writeTimer }
  · intro hin
    rw [hfield Event.handler fun _ => rfl]
    exact ⟨hc, (hs.listening e.slot hin).2⟩

/-- The handlers of posted events post nothing, so the queue runs empty. -/
theorem sound_processPosted (fuel : ℕ) (hs : Sound n s)
    (haccounted : Accounted s free queue posted) (hfuel : posted.length ≤ fuel) :
    ∃ s', nightEventProcessPosted fuel s = some s' ∧ Sound n s' := by
  induction fuel generalizing s posted with
  | zero =>
      have hnil : posted = [] := List.length_eq_zero_iff.mp (Nat.le_zero.mp hfuel)
      subst hnil
      rw [nightEventProcessPosted, haccounted.postedRing.next_head]
      exact ⟨s, rfl, hs⟩
  | succ fuel ih =>
      rw [nightEventProcessPosted, haccounted.postedRing.next_head]
      cases posted with
      | nil => exact ⟨s, rfl, hs⟩
      | cons e rest =>
          have hlt := hs.lt (haccounted.posted_inUse e List.mem_cons_self)
          have hposted := (haccounted.posted_iff e (hs.connectionN ▸ hlt)).mpr List.mem_cons_self
          have hrole := hs.role e.slot hlt
          have hkeepalive : (s.events e).handler = .keepalive := by
            obtain ⟨slot, write⟩ := e
            cases write with
            | false => exact hrole.posted hposted
            | true => exact absurd (hposted.symm.trans hrole.writePosted) (by decide)
          have hdeleted := sound_deletePosted hs haccounted List.mem_cons_self
          have haccounted' := accounted_deletePosted haccounted (List.mem_cons_self (a := e))
          rw [List.erase_cons_head] at haccounted'
          have hstill : ((nightDeletePostedEvent e s).events e).handler = .keepalive := by
            rw [nightDeletePostedEvent, setEvent_events, if_pos rfl]
            exact hkeepalive
          simp only [List.map_cons, List.headD_cons, postedHandler, hstill, Option.bind_eq_bind,
            Option.bind_some]
          exact ih hdeleted haccounted' (by simpa using hfuel)

/-- Only read events are posted, at most one a slot. -/
theorem posted_length_le (hs : Sound n s) (haccounted : Accounted s free queue posted) :
    posted.length ≤ n := by
  have hsubset : ∀ e ∈ posted, e ∈ (List.range n).map readOf := by
    intro e he
    have hlt := hs.lt (haccounted.posted_inUse e he)
    have hposted := (haccounted.posted_iff e (hs.connectionN ▸ hlt)).mpr he
    obtain ⟨slot, write⟩ := e
    cases write with
    | false => exact List.mem_map.mpr ⟨slot, List.mem_range.mpr hlt, rfl⟩
    | true => exact absurd (hposted.symm.trans (hs.role slot hlt).writePosted) (by decide)
  have hlength := (List.subperm_of_subset haccounted.postedNodup hsubset).length_le
  rwa [List.length_map, List.length_range] at hlength

/-! ## Requests -/

/-- While a request is served its connection is neither reusable nor idle nor posted. -/
structure Serves (s : Cycle) (c : ℕ) : Prop where
  inUse : c ∈ s.inUse
  serving : serving (s.events (readOf c)).handler = true

theorem Serves.not_listening (hserves : Serves s c) (hs : Sound n s) : c ∉ s.listening := by
  apply hs.not_listening
  intro haccept
  have hserving := hserves.serving
  rw [haccept] at hserving
  cases hserving

theorem Serves.keeps (hserves : Serves s c) (hkeeps : Keeps c s s')
    (hhandler : (s'.events (readOf c)).handler = (s.events (readOf c)).handler) : Serves s' c :=
  ⟨hkeeps.sameInUse ▸ hserves.inUse, by rw [hhandler]; exact hserves.serving⟩

/-- A served connection may get any handler. -/
theorem Serves.sound_setHandler (hserves : Serves s c) (hs : Sound n s) {h : Handler}
    {f : Event → Event} (hhandler : ∀ ev, (f ev).handler = h)
    (htimerSet : ∀ ev, (f ev).timerSet = ev.timerSet)
    (hposted : ∀ ev, (f ev).posted = ev.posted) : Sound n (setEvent (readOf c) f s) := by
  have hrole := hs.role c (hs.lt hserves.inUse)
  have hserving := hserves.serving
  refine hs.setHandler hserves.inUse (hserves.not_listening hs) hhandler htimerSet hposted ?_ ?_ ?_
  · intro hreusable
    rcases hrole.reusable hreusable with hother | hother
    · rw [hother] at hserving
      cases hserving
    · rw [hother] at hserving
      cases hserving
  · intro hfd hidle
    rw [hrole.idle hfd hidle] at hserving
    cases hserving
  · intro hflag
    rw [hrole.posted hflag] at hserving
    cases hserving

theorem sound_freeRequest (hs : Sound n s) (r : Request) (rc : ℤ) (hc : r.connection ∈ s.inUse) :
    Sound n (nightHttpFreeRequest r rc s).2 := by
  rw [nightHttpFreeRequest]
  split
  · exact hs
  · dsimp only
    exact hs.writeConnection hc (by intro; rfl) (by intro; rfl) (by intro; rfl) (by intro; rfl)

theorem keeps_freeRequest (r : Request) (rc : ℤ) (s : Cycle) :
    Keeps r.connection s (nightHttpFreeRequest r rc s).2 := by
  rw [nightHttpFreeRequest]
  split
  · exact Keeps.refl r.connection s
  · dsimp only
    exact keeps_setConnection r.connection _ s

theorem freeRequest_events (r : Request) (rc : ℤ) (s : Cycle) :
    (nightHttpFreeRequest r rc s).2.events = s.events := by
  rw [nightHttpFreeRequest]
  split <;> rfl

theorem sound_closeRequest (hs : Sound n s) (r : Request) (rc : ℤ)
    (hserves : Serves s r.connection) : Sound n (nightHttpCloseRequest r rc s).2 := by
  rw [nightHttpCloseRequest]
  dsimp only
  split
  · exact hs
  · have hkeeps := keeps_freeRequest { r with count := r.count - 1 } rc s
    have hfreed := sound_freeRequest hs { r with count := r.count - 1 } rc hserves.inUse
    refine hfreed.httpClose (hkeeps.sameInUse ▸ hserves.inUse) ?_
    rw [hkeeps.listening]
    exact hserves.not_listening hs

theorem sound_keepConnection (hs : Sound n s) (input : KeepaliveInput) (hc : c ∈ s.inUse)
    (hnot : c ∉ s.listening) : Sound n (keepConnection input c s) := by
  have hwrite : Sound n (setEvent (writeOf c) (fun ev => { ev with handler := .empty }) s) :=
    hs.setWrite hc (by intro; rfl) (by intro; rfl)
  have hread : Sound n (setEvent (readOf c) (fun ev => { ev with handler := .keepalive })
      (setEvent (writeOf c) (fun ev => { ev with handler := .empty }) s)) :=
    hwrite.setHandler hc hnot (h := .keepalive) (by intro; rfl) (by intro; rfl)
      (by intro; rfl) (fun _ => Or.inr rfl) (fun _ _ => rfl) fun _ => rfl
  have hhas : Has .keepalive (setEvent (readOf c) (fun ev => { ev with handler := .keepalive })
      (setEvent (writeOf c) (fun ev => { ev with handler := .empty }) s)) c :=
    ⟨hc, by rw [setEvent_events, if_pos rfl]⟩
  rw [keepConnection]
  dsimp only
  generalize setEvent (readOf c) (fun ev => { ev with handler := .keepalive })
    (setEvent (writeOf c) (fun ev => { ev with handler := .empty }) s) = t at *
  split
  · exact hread.httpClose hhas.inUse (hhas.not_listening hread (by decide))
  · have hidle := hread.setIdle hhas.inUse hhas.handler
    have hhasIdle : Has .keepalive (setConnection c (fun conn => { conn with idle := true }) t) c :=
      ⟨hhas.inUse, hhas.handler⟩
    have hreusable := hidle.makeReusable hhasIdle.inUse (Or.inr hhasIdle.handler)
    have hhasReusable := hhasIdle.keeps (keeps_reusable c true _) (by rw [reusable_events])
    have htimer := hreusable.addTimer hhasReusable.inUse input.keepaliveTimeout
    have hhasTimer := hhasReusable.keeps (keeps_addTimer (readOf c) input.keepaliveTimeout _)
      (addTimer_handler (readOf c) (readOf c) input.keepaliveTimeout _)
    split
    · exact htimer.addPost hhasTimer.inUse hhasTimer.handler
    · exact htimer

theorem sound_setKeepalive (hs : Sound n s) (input : KeepaliveInput) (r : Request)
    (hserves : Serves s r.connection) : Sound n (nightHttpSetKeepalive input r s).2 := by
  have hfreed := sound_freeRequest hs { r with keepalive := false } 0 hserves.inUse
  have hserves' : Serves (nightHttpFreeRequest { r with keepalive := false } 0 s).2 r.connection :=
    hserves.keeps (keeps_freeRequest { r with keepalive := false } 0 s)
      (by rw [freeRequest_events])
  rw [nightHttpSetKeepalive]
  dsimp only
  generalize (nightHttpFreeRequest { r with keepalive := false } 0 s).2 = t at *
  have hhandled := hfreed.handleReadEvent hserves'.inUse input.added
  have hserves'' := hserves'.keeps (keeps_handleReadEvent input.added (readOf r.connection) t)
    (handleReadEvent_handler input.added _ _ t)
  split
  · exact hhandled.httpClose hserves''.inUse (hserves''.not_listening hhandled)
  · exact sound_keepConnection hhandled input hserves''.inUse (hserves''.not_listening hhandled)

theorem sound_finalizeRequest (hs : Sound n s) (flags : Flags) (input : KeepaliveInput)
    (r : Request) (rc : ℤ) (hserves : Serves s r.connection) :
    Sound n (nightHttpFinalizeRequest flags input r rc s).2 := by
  rw [nightHttpFinalizeRequest, ite_self, nightHttpFinalizeConnection]
  split
  · exact sound_closeRequest hs r 0 hserves
  split
  · exact sound_setKeepalive hs input r hserves
  · exact hs

theorem sound_requestStep (hs : Sound n s) (hserves : Serves s c) (taken : RequestStep) :
    Sound n (requestStep c s taken) := by
  cases taken with
  | wait clientHeaderTimeout added r =>
      have hafter : ∀ t : Cycle, Sound n t → Serves t c →
          Sound n (if (nightHandleReadEvent added (readOf c) t).1 then
              (nightHandleReadEvent added (readOf c) t).2
            else (nightHttpCloseRequest { r with connection := c }
              Night.PhaseRun.nightHttpInternalServerError
              (nightHandleReadEvent added (readOf c) t).2).2) := by
        intro t ht hserves
        have hhandled := ht.handleReadEvent hserves.inUse added
        have hserves' := hserves.keeps (keeps_handleReadEvent added (readOf c) t)
          (handleReadEvent_handler added _ _ t)
        split
        · exact hhandled
        · exact sound_closeRequest hhandled { r with connection := c } _ hserves'
      rw [requestStep]
      by_cases hset : (s.events (readOf c)).timerSet = true
      · simp only [hset, Bool.not_true, Bool.false_eq_true, if_false]
        exact hafter s hs hserves
      · simp only [hset, Bool.not_false, if_true]
        exact hafter _ (hs.addTimer hserves.inUse clientHeaderTimeout)
          (hserves.keeps (keeps_addTimer (readOf c) clientHeaderTimeout s)
            (addTimer_handler _ _ clientHeaderTimeout s))
  | headers =>
      rw [requestStep]
      exact hserves.sound_setHandler hs (by intro; rfl) (by intro; rfl) (by intro; rfl)
  | process =>
      have hdeleted := hs.delTimerIfSet hserves.inUse
      have hserves' := hserves.keeps (keeps_delTimerIfSet (readOf c) s)
        (delTimerIfSet_handler _ _ s)
      rw [requestStep]
      generalize delTimerIfSet (readOf c) s = t at *
      have hread : Sound n (setEvent (readOf c) (fun ev => { ev with handler := .request }) t) :=
        hserves'.sound_setHandler hdeleted (by intro; rfl) (by intro; rfl) (by intro; rfl)
      exact hread.setWrite hserves'.inUse (by intro; rfl) (by intro; rfl)
  | close r rc => exact sound_closeRequest hs { r with connection := c } rc hserves
  | finalize flags input r rc =>
      exact sound_finalizeRequest hs flags input { r with connection := c } rc hserves

/-! ## One operation -/

/-- An open connection whose handler is not that of a channel is in use. -/
theorem Sound.inUse_of_open (hs : Sound n s) (hc : c < n) (hopen : (s.connections c).fd ≠ -1)
    (hhandler : (s.events (readOf c)).handler ≠ .channel ∨
      (s.events (readOf c)).active = true) : c ∈ s.inUse := by
  rcases (hs.role c hc).held hopen with hinUse | ⟨hchannel, hinactive, -⟩
  · exact hinUse
  · rcases hhandler with hne | hactive
    · exact absurd hchannel hne
    · rw [hinactive] at hactive
      cases hactive

theorem sound_readHandler (hs : Sound n s) (hc : c ∈ s.inUse) (input : EventInput) :
    ∃ s', readHandler input c s = some s' ∧ Sound n s' := by
  rw [readHandler]
  cases hhandler : (s.events (readOf c)).handler with
  | eventAccept => exact sound_eventAccept hs hc input.added input.accepted
  | channel =>
      refine ⟨_, rfl, ?_⟩
      rw [nightChannelHandler]
      split
      · exact hs
      · exact hs.close hc (hs.not_listening (by rw [hhandler]; decide))
  | waitRequest => exact ⟨_, rfl, sound_waitRequestHandler hs ⟨hc, hhandler⟩ input.wait⟩
  | null => exact ⟨s, rfl, hs⟩
  | processRequestLine => exact ⟨s, rfl, hs⟩
  | processRequestHeaders => exact ⟨s, rfl, hs⟩
  | request => exact ⟨s, rfl, hs⟩
  | keepalive => exact ⟨s, rfl, hs⟩
  | empty => exact ⟨s, rfl, hs⟩

theorem sound_step (hs : Sound n s) (operation : Operation) (hclean : Clean s operation) :
    ∃ s', step s operation = some s' ∧ Sound n s' := by
  cases operation with
  | listen fd added => exact sound_listen hs fd added
  | addChannel fd added => exact sound_addChannelEvent hs fd added
  | readEvent c input =>
      rw [step]
      by_cases hfresh : c < s.connectionN ∧ (s.events (readOf c)).active = true ∧
          (s.connections c).fd ≠ -1
      · rw [if_pos hfresh]
        have hc := hs.inUse_of_open (hs.connectionN ▸ hfresh.1) hfresh.2.2 (Or.inr hfresh.2.1)
        exact sound_readHandler (hs.writeEvent (e := readOf c) hc (by intro; rfl) (by intro; rfl)
          (by intro; rfl)) hc input
      · rw [if_neg hfresh]
        exact ⟨s, rfl, hs⟩
  | request c taken =>
      rw [step]
      by_cases hserving : c < s.connectionN ∧ (s.connections c).fd ≠ -1 ∧
          serving (s.events (readOf c)).handler = true
      · rw [if_pos hserving]
        have hne : (s.events (readOf c)).handler ≠ .channel := by
          intro hchannel
          have hfalse := hserving.2.2
          rw [hchannel] at hfalse
          cases hfalse
        have hc := hs.inUse_of_open (hs.connectionN ▸ hserving.1) hserving.2.1 (Or.inl hne)
        exact ⟨_, rfl, sound_requestStep hs ⟨hc, hserving.2.2⟩ taken⟩
      · rw [if_neg hserving]
        exact ⟨s, rfl, hs⟩
  | closeListening deleted =>
      exact ⟨_, rfl, sound_closeListening deleted s.listening hs rfl hclean⟩
  | closeIdle => exact sound_closeIdle s.connectionN 0 hs (by rw [hs.connectionN, Nat.zero_add])
  | processPosted =>
      obtain ⟨free, queue, posted, haccounted⟩ := hs.accounted
      have hlength := posted_length_le hs haccounted
      rw [← hs.connectionN] at hlength
      exact sound_processPosted (2 * s.connectionN) hs haccounted (by omega)
  | tick msec =>
      refine ⟨_, rfl, ?_⟩
      obtain ⟨free, queue, posted, haccounted⟩ := hs.accounted
      exact {
        connectionN := hs.connectionN
        accounted := ⟨free, queue, posted, haccounted.same ⟨rfl, rfl, rfl, rfl, rfl, rfl, rfl,
          rfl, fun _ => rfl, fun _ => rfl, fun _ => rfl, fun _ => rfl⟩⟩
        listeningNodup := hs.listeningNodup
        listening := hs.listening
        role := fun i hi =>
          let hrole := hs.role i hi
          ⟨hrole.held, hrole.reusable, hrole.idle, hrole.posted, hrole.writePosted,
            hrole.writeTimer⟩ }

/-! ## Runs -/

/-- The lists and counters of the worker say what its slots say: a slot is in use or once on
the free list, and there it is in no other list. -/
structure LawfulWith (s : Cycle) (free queue : List ℕ) (posted : List EventId) : Prop where
  freeChain : Chain (fun c => (s.connections c).next) s.freeConnections free
  freeNodup : free.Nodup
  free_iff : ∀ c, c ∈ free ↔ c < s.connectionN ∧ c ∉ s.inUse
  freeCount : s.freeConnectionN = free.length
  queueRing : Rings.Ring s.reusableQueue .head (queue.map .of)
  queueCount : s.reusableConnectionsN = queue.length
  reusable_iff : ∀ c < s.connectionN, (s.connections c).reusable = true ↔ c ∈ queue
  postedRing : Rings.Ring s.postedEvents .head (posted.map .of)
  freeTimer : ∀ e, e.slot ∈ free → (s.events e).timerSet = false ∧ e ∉ s.timers
  freePosted : ∀ e, e.slot ∈ free → (s.events e).posted = false ∧ e ∉ posted
  freeReusable : ∀ c ∈ free, (s.connections c).reusable = false

def Lawful (s : Cycle) : Prop := ∃ free queue posted, LawfulWith s free queue posted

theorem Sound.lawful (hs : Sound n s) : Lawful s := by
  obtain ⟨free, queue, posted, haccounted⟩ := hs.accounted
  refine ⟨free, queue, posted, ?_⟩
  exact {
    freeChain := haccounted.freeChain
    freeNodup := (List.nodup_append.mp haccounted.nodup).1
    free_iff := by
      intro c
      have hslots := haccounted.slots.mem_iff (a := c)
      rw [List.mem_append, List.mem_range] at hslots
      constructor
      · exact fun hfree => ⟨hslots.mp (Or.inl hfree), haccounted.not_inUse hfree⟩
      · exact fun hin => (hslots.mpr hin.1).resolve_right hin.2
    freeCount := haccounted.freeCount
    queueRing := haccounted.queueRing
    queueCount := haccounted.queueCount
    reusable_iff := haccounted.reusable_iff
    postedRing := haccounted.postedRing
    freeTimer := by
      intro e he
      have hnotin : e ∉ s.timers :=
        fun hin => haccounted.not_inUse he (haccounted.timers_inUse e hin)
      rw [← haccounted.timerSet_iff e (haccounted.lt_of_free he), Bool.not_eq_true] at hnotin
      refine ⟨hnotin, fun hin => haccounted.not_inUse he (haccounted.timers_inUse e hin)⟩
    freePosted := by
      intro e he
      have hnotin : e ∉ posted :=
        fun hin => haccounted.not_inUse he (haccounted.posted_inUse e hin)
      rw [← haccounted.posted_iff e (haccounted.lt_of_free he), Bool.not_eq_true] at hnotin
      refine ⟨hnotin, fun hin => haccounted.not_inUse he (haccounted.posted_inUse e hin)⟩
    freeReusable := by
      intro c hc
      rw [← Bool.not_eq_true, haccounted.reusable_iff c (haccounted.lt_of_free hc)]
      exact fun hin => haccounted.not_inUse hc (haccounted.queue_inUse c hin) }

theorem sound_init (connectionN filesN : ℕ) (currentMsec : ℤ) :
    Sound connectionN (nightEventCoreProcessInit connectionN filesN currentMsec) where
  connectionN := rfl
  accounted := ⟨_, _, _, accounted_init connectionN filesN currentMsec⟩
  listeningNodup := List.nodup_nil
  listening := by
    intro c hc
    cases hc
  role := by
    intro c hc
    have haccounted := accounted_init connectionN filesN currentMsec
    apply role_of_free haccounted (List.mem_range.mpr hc)
    obtain ⟨next, heq⟩ := init_connection connectionN filesN currentMsec hc
    rw [heq]
    exact fun hfd => absurd rfl hfd

def run (s : Cycle) : List Operation → Option Cycle
  | [] => some s
  | operation :: operations => do
      let s ← step s operation
      run s operations

/-- All operations of the run are clean where they happen. -/
def CleanRun (s : Cycle) : List Operation → Prop
  | [] => True
  | operation :: operations =>
      Clean s operation ∧ ∀ s' ∈ step s operation, CleanRun s' operations

instance decidableCleanRun : ∀ s operations, Decidable (CleanRun s operations)
  | _, [] => isTrue trivial
  | s, operation :: operations =>
      have := fun s' => decidableCleanRun s' operations
      inferInstanceAs
        (Decidable (Clean s operation ∧ ∀ s' ∈ step s operation, CleanRun s' operations))

theorem sound_run (operations : List Operation) (hs : Sound n s)
    (hclean : CleanRun s operations) : ∃ s', run s operations = some s' ∧ Sound n s' := by
  induction operations generalizing s with
  | nil => exact ⟨s, rfl, hs⟩
  | cons operation operations ih =>
      obtain ⟨s', hstep, hs'⟩ := sound_step hs operation hclean.1
      rw [run, hstep]
      exact ih hs' (hclean.2 s' hstep)

/-- The state that a run of callers reaches from the initialised worker is lawful. -/
theorem run_lawful (connectionN filesN : ℕ) (currentMsec : ℤ) (operations : List Operation)
    (hclean : CleanRun (nightEventCoreProcessInit connectionN filesN currentMsec) operations) :
    ∃ s, run (nightEventCoreProcessInit connectionN filesN currentMsec) operations = some s ∧
      Lawful s := by
  obtain ⟨s, hrun, hs⟩ := sound_run operations (sound_init connectionN filesN currentMsec) hclean
  exact ⟨s, hrun, hs.lawful⟩

/-- The worker listens, accepts one client whose request is answered and kept, and quits. -/
def quietDay : List Operation :=
  [.listen 5 true,
    .readEvent 0 ⟨fun _ => true, .socket 6 ⟨true, true, true, ⟨60, true, .bytes, true, true, true⟩⟩,
      true, unusedInput⟩,
    .request 1 .process, .request 1 (.finalize ⟨false, false⟩ ⟨60, true, true⟩
      ⟨1, 1, false, true, true, 0, 9⟩ 0),
    .closeListening fun _ => true, .closeIdle, .processPosted]

theorem run_lawful_quietDay :
    ∃ s, run (nightEventCoreProcessInit 2 16 0) quietDay = some s ∧ Lawful s := by
  exact run_lawful 2 16 0 quietDay (by decide +kernel)

/-- The worker runs out of descriptors while it accepts, and quits before the timer of the
listening socket is deleted. -/
def busyDay : List Operation :=
  [.listen 5 true, .readEvent 0 ⟨fun _ => true, .noFiles, true, unusedInput⟩,
    .closeListening fun _ => true]

theorem not_lawful_busyDay :
    ¬ ∀ (connectionN filesN : ℕ) (currentMsec : ℤ) (operations : List Operation),
      ∃ s, run (nightEventCoreProcessInit connectionN filesN currentMsec) operations = some s ∧
        Lawful s := by
  intro hall
  obtain ⟨s, hrun, free, queue, posted, hlawful⟩ := hall 2 16 0 busyDay
  have hhead : (run (nightEventCoreProcessInit 2 16 0) busyDay).map (·.freeConnections) =
      some (some 0) := by
    decide +kernel
  have htimer : (run (nightEventCoreProcessInit 2 16 0) busyDay).map
      (fun s => (s.events (readOf 0)).timerSet) = some true := by
    decide +kernel
  rw [hrun] at hhead htimer
  have hfree := hlawful.freeChain.head_eq
  simp only [Option.map_some, Option.some.injEq] at hhead htimer
  rw [hhead] at hfree
  have hin : 0 ∈ free := List.mem_of_mem_head? hfree.symm
  have hfalse := (hlawful.freeTimer (readOf 0) hin).1
  rw [htimer] at hfalse
  cases hfalse

end Night.Worker
