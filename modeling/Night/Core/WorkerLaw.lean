import Night.Core.Worker

/-!
# The law of the connection slots over whole runs

Every caller keeps the accounts.  What the callers rely on is in `Role`: the handler of a
connection tells whether it may be reusable, idle or posted.  The only caller that frees a
slot without having looked at its timers is `night_close_listening_sockets`.
-/

namespace Night.Worker

open Night.Connections
open Night.HttpConnection

variable {n c : ℕ} {s s' : Cycle} {free queue : List ℕ} {posted : List EventId} {e : EventId}

/-! ## The invariant -/

/-- What the handler of a slot says about it.  The slot of a channel that epoll did not
take keeps its descriptor when it is freed. -/
structure Role (s : Cycle) (c : ℕ) : Prop where
  held : (s.connections c).fd ≠ -1 → c ∈ s.inUse ∨
    (s.events (readOf c)).handler = .channel ∧ (s.events (readOf c)).active = false ∧
      (s.connections c).idle = false
  reusable : (s.connections c).reusable = true →
    (s.events (readOf c)).handler = .waitRequest ∨ (s.events (readOf c)).handler = .keepalive
  idle : (s.connections c).fd ≠ -1 → (s.connections c).idle = true →
    (s.events (readOf c)).handler = .keepalive
  posted : (s.events (readOf c)).posted = true → (s.events (readOf c)).handler = .keepalive
  writePosted : (s.events (writeOf c)).posted = false
  writeTimer : (s.events (writeOf c)).timerSet = false

structure Sound (n : ℕ) (s : Cycle) : Prop where
  connectionN : s.connectionN = n
  accounted : ∃ free queue posted, Accounted s free queue posted
  listeningNodup : s.listening.Nodup
  listening : ∀ c ∈ s.listening, c ∈ s.inUse ∧ (s.events (readOf c)).handler = .eventAccept
  role : ∀ c < n, Role s c

theorem Sound.lt (hs : Sound n s) (hc : c ∈ s.inUse) : c < n := by
  obtain ⟨free, queue, posted, haccounted⟩ := hs.accounted
  exact hs.connectionN ▸ haccounted.lt_of_inUse hc

/-- A connection with another handler is not that of a listening socket. -/
theorem Sound.not_listening (hs : Sound n s)
    (hhandler : (s.events (readOf c)).handler ≠ .eventAccept) : c ∉ s.listening :=
  fun hin => hhandler (hs.listening c hin).2

/-- A function that writes one slot has to answer for that slot only. -/
theorem Sound.touch (hs : Sound n s) (htouches : Touches c s s')
    (haccounted : ∃ free queue posted, Accounted s' free queue posted) (hrole : Role s' c)
    (hlistening : c ∈ s.listening →
      c ∈ s'.inUse ∧ (s'.events (readOf c)).handler = .eventAccept) : Sound n s' where
  connectionN := htouches.connectionN.trans hs.connectionN
  accounted := haccounted
  listeningNodup := htouches.listening ▸ hs.listeningNodup
  listening := by
    intro i hi
    rw [htouches.listening] at hi
    by_cases heq : i = c
    · subst heq
      exact hlistening hi
    · obtain ⟨hinUse, hhandler⟩ := hs.listening i hi
      rw [htouches.inUse i heq, htouches.event (readOf i) heq]
      exact ⟨hinUse, hhandler⟩
  role := by
    intro i hi
    by_cases heq : i = c
    · subst heq
      exact hrole
    · have hi' := hs.role i hi
      have hconnection := htouches.connection i heq
      have hread := htouches.event (readOf i) heq
      have hwrite := htouches.event (writeOf i) heq
      exact {
        held := by
          rw [hconnection, hread, htouches.inUse i heq]
          exact hi'.held
        reusable := by
          rw [hconnection, hread]
          exact hi'.reusable
        idle := by
          rw [hconnection, hread]
          exact hi'.idle
        posted := by
          rw [hread]
          exact hi'.posted
        writePosted := by
          rw [hwrite]
          exact hi'.writePosted
        writeTimer := by
          rw [hwrite]
          exact hi'.writeTimer }

/-! ## Single writes -/

/-- A write to a slot in use that leaves what `Role` speaks of. -/
theorem Sound.keep (hs : Sound n s) (hc : c ∈ s.inUse) (hkeeps : Keeps c s s')
    (haccounted : ∃ free queue posted, Accounted s' free queue posted)
    (hreusable : (s'.connections c).reusable = (s.connections c).reusable)
    (hfd : (s'.connections c).fd = (s.connections c).fd)
    (hidle : (s'.connections c).idle = (s.connections c).idle)
    (hhandler : (s'.events (readOf c)).handler = (s.events (readOf c)).handler)
    (hposted : (s'.events (readOf c)).posted = (s.events (readOf c)).posted)
    (hwritePosted : (s'.events (writeOf c)).posted = (s.events (writeOf c)).posted)
    (hwriteTimer : (s'.events (writeOf c)).timerSet = (s.events (writeOf c)).timerSet) :
    Sound n s' := by
  have hrole := hs.role c (hs.lt hc)
  have hc' : c ∈ s'.inUse := hkeeps.sameInUse ▸ hc
  refine hs.touch hkeeps.toTouches haccounted ?_ ?_
  · exact {
      held := fun _ => Or.inl hc'
      reusable := by
        rw [hreusable, hhandler]
        exact hrole.reusable
      idle := by
        rw [hfd, hidle, hhandler]
        exact hrole.idle
      posted := by
        rw [hposted, hhandler]
        exact hrole.posted
      writePosted := hwritePosted.trans hrole.writePosted
      writeTimer := hwriteTimer.trans hrole.writeTimer }
  · intro hin
    exact ⟨hc', hhandler.trans (hs.listening c hin).2⟩

theorem Sound.writeEvent (hs : Sound n s) (hc : e.slot ∈ s.inUse) {f : Event → Event}
    (hhandler : ∀ ev, (f ev).handler = ev.handler)
    (htimerSet : ∀ ev, (f ev).timerSet = ev.timerSet)
    (hposted : ∀ ev, (f ev).posted = ev.posted) : Sound n (setEvent e f s) := by
  obtain ⟨free, queue, posted, haccounted⟩ := hs.accounted
  exact hs.keep hc (keeps_setEvent e f s)
    ⟨free, queue, posted, haccounted.setEvent htimerSet hposted e⟩ rfl rfl rfl
    (setEvent_field Event.handler hhandler e s _) (setEvent_field Event.posted hposted e s _)
    (setEvent_field Event.posted hposted e s _) (setEvent_field Event.timerSet htimerSet e s _)

theorem Sound.writeConnection (hs : Sound n s) (hc : c ∈ s.inUse) {f : Connection → Connection}
    (hfd : ∀ conn, (f conn).fd = conn.fd) (hreusable : ∀ conn, (f conn).reusable = conn.reusable)
    (hidle : ∀ conn, (f conn).idle = conn.idle) (hnext : ∀ conn, (f conn).next = conn.next) :
    Sound n (setConnection c f s) := by
  obtain ⟨free, queue, posted, haccounted⟩ := hs.accounted
  exact hs.keep hc (keeps_setConnection c f s)
    ⟨free, queue, posted, haccounted.setConnection hnext hreusable c⟩
    (setConnection_field Connection.reusable hreusable c s c)
    (setConnection_field Connection.fd hfd c s c)
    (setConnection_field Connection.idle hidle c s c) rfl rfl rfl rfl

theorem Sound.addTimer (hs : Sound n s) (hc : c ∈ s.inUse) (timer : ℤ) :
    Sound n (nightEventAddTimer (readOf c) timer s) := by
  obtain ⟨free, queue, posted, haccounted⟩ := hs.accounted
  obtain ⟨timerSet, timerKey, hread⟩ := addTimer_event (readOf c) (readOf c) timer s
  have hwrite : (nightEventAddTimer (readOf c) timer s).events (writeOf c) =
      s.events (writeOf c) :=
    addTimer_events_of_ne (by simp [readOf, writeOf]) timer s
  refine hs.keep hc (keeps_addTimer (readOf c) timer s)
    ⟨free, queue, posted, accounted_addTimer haccounted hc timer⟩ ?_ ?_ ?_ ?_ ?_ ?_ ?_
  · rw [addTimer_connections]
  · rw [addTimer_connections]
  · rw [addTimer_connections]
  · rw [hread]
  · rw [hread]
  · rw [hwrite]
  · rw [hwrite]

theorem Sound.delTimerIfSet (hs : Sound n s) (hc : c ∈ s.inUse) :
    Sound n (delTimerIfSet (readOf c) s) := by
  obtain ⟨free, queue, posted, haccounted⟩ := hs.accounted
  obtain ⟨timerSet, timerKey, hread, -⟩ := delTimerIfSet_event (readOf c) (readOf c) s
  obtain ⟨writeSet, writeKey, hwrite, hwriteSet⟩ := delTimerIfSet_event (readOf c) (writeOf c) s
  refine hs.keep hc (keeps_delTimerIfSet (readOf c) s)
    ⟨free, queue, posted, (accounted_delTimerIfSet haccounted (haccounted.lt_of_inUse hc)).1⟩
    ?_ ?_ ?_ ?_ ?_ ?_ ?_
  · rw [delTimerIfSet_connections]
  · rw [delTimerIfSet_connections]
  · rw [delTimerIfSet_connections]
  · rw [hread]
  · rw [hread]
  · rw [hwrite]
  · rw [hwrite]
    exact hwriteSet (by simp [readOf, writeOf])

theorem Sound.notReusable (hs : Sound n s) (hc : c ∈ s.inUse) :
    Sound n (nightReusableConnection c false s) := by
  obtain ⟨free, queue, posted, haccounted⟩ := hs.accounted
  have hrole := hs.role c (hs.lt hc)
  have hkeeps := keeps_reusable c false s
  have hc' := hkeeps.sameInUse ▸ hc
  refine hs.touch hkeeps.toTouches
    ⟨_, _, _, accounted_notReusable haccounted (haccounted.lt_of_inUse hc)⟩ ?_ ?_
  · exact {
      held := fun _ => Or.inl hc'
      reusable := by
        rw [reusable_connections, setConnection_connections, if_pos rfl]
        exact fun hfalse => absurd hfalse Bool.false_ne_true
      idle := by
        rw [reusable_connections, setConnection_connections, if_pos rfl, reusable_events]
        exact hrole.idle
      posted := by
        rw [reusable_events]
        exact hrole.posted
      writePosted := by
        rw [reusable_events]
        exact hrole.writePosted
      writeTimer := by
        rw [reusable_events]
        exact hrole.writeTimer }
  · intro hin
    rw [reusable_events]
    exact ⟨hc', (hs.listening c hin).2⟩

/-- Only a connection that waits may become reusable. -/
theorem Sound.makeReusable (hs : Sound n s) (hc : c ∈ s.inUse)
    (hwaits : (s.events (readOf c)).handler = .waitRequest ∨
      (s.events (readOf c)).handler = .keepalive) :
    Sound n (nightReusableConnection c true s) := by
  obtain ⟨free, queue, posted, haccounted⟩ := hs.accounted
  have hrole := hs.role c (hs.lt hc)
  have hkeeps := keeps_reusable c true s
  have hc' := hkeeps.sameInUse ▸ hc
  refine hs.touch hkeeps.toTouches ⟨_, _, _, accounted_reusable haccounted hc⟩ ?_ ?_
  · exact {
      held := fun _ => Or.inl hc'
      reusable := by
        rw [reusable_events]
        exact fun _ => hwaits
      idle := by
        rw [reusable_connections, setConnection_connections, if_pos rfl, reusable_events]
        exact hrole.idle
      posted := by
        rw [reusable_events]
        exact hrole.posted
      writePosted := by
        rw [reusable_events]
        exact hrole.writePosted
      writeTimer := by
        rw [reusable_events]
        exact hrole.writeTimer }
  · intro hin
    rw [reusable_events]
    exact ⟨hc', (hs.listening c hin).2⟩

/-- A handler may be installed when what `Role` says about it holds already. -/
theorem Sound.setHandler (hs : Sound n s) (hc : c ∈ s.inUse) (hnot : c ∉ s.listening)
    {h : Handler} {f : Event → Event} (hhandler : ∀ ev, (f ev).handler = h)
    (htimerSet : ∀ ev, (f ev).timerSet = ev.timerSet)
    (hposted : ∀ ev, (f ev).posted = ev.posted)
    (hreusable : (s.connections c).reusable = true →
      h = .waitRequest ∨ h = .keepalive)
    (hidle : (s.connections c).fd ≠ -1 → (s.connections c).idle = true → h = .keepalive)
    (hkeepalive : (s.events (readOf c)).posted = true → h = .keepalive) :
    Sound n (setEvent (readOf c) f s) := by
  obtain ⟨free, queue, posted, haccounted⟩ := hs.accounted
  have hrole := hs.role c (hs.lt hc)
  have hread : (setEvent (readOf c) f s).events (readOf c) =
      f (s.events (readOf c)) := by
    rw [setEvent_events, if_pos rfl]
  have hwrite : (setEvent (readOf c) f s).events (writeOf c) =
      s.events (writeOf c) := by
    rw [setEvent_events, if_neg (by simp [readOf, writeOf])]
  refine hs.touch (c := c) (keeps_setEvent (readOf c) f s).toTouches
    ⟨free, queue, posted, haccounted.setEvent htimerSet hposted (readOf c)⟩ ?_ ?_
  · exact {
      held := fun _ => Or.inl hc
      reusable := by
        rw [hread, hhandler]
        exact hreusable
      idle := by
        rw [hread, hhandler]
        exact hidle
      posted := by
        rw [hread, hhandler, hposted]
        exact hkeepalive
      writePosted := by
        rw [hwrite]
        exact hrole.writePosted
      writeTimer := by
        rw [hwrite]
        exact hrole.writeTimer }
  · exact fun hin => absurd hin hnot

/-- The handler of a write event does not matter. -/
theorem Sound.setWrite (hs : Sound n s) (hc : c ∈ s.inUse) {f : Event → Event}
    (htimerSet : ∀ ev, (f ev).timerSet = ev.timerSet)
    (hposted : ∀ ev, (f ev).posted = ev.posted) : Sound n (setEvent (writeOf c) f s) := by
  obtain ⟨free, queue, posted, haccounted⟩ := hs.accounted
  have hread : (setEvent (writeOf c) f s).events (readOf c) =
      s.events (readOf c) := by
    rw [setEvent_events, if_neg (by simp [readOf, writeOf])]
  refine hs.keep hc (keeps_setEvent (writeOf c) f s)
    ⟨free, queue, posted, haccounted.setEvent htimerSet hposted (writeOf c)⟩ rfl rfl rfl ?_ ?_
    (setEvent_field Event.posted hposted _ s _) (setEvent_field Event.timerSet htimerSet _ s _)
  · rw [hread]
  · rw [hread]

/-- A kept connection becomes idle. -/
theorem Sound.setIdle (hs : Sound n s) (hc : c ∈ s.inUse)
    (hkeepalive : (s.events (readOf c)).handler = .keepalive) :
    Sound n (setConnection c (fun conn => { conn with idle := true }) s) := by
  obtain ⟨free, queue, posted, haccounted⟩ := hs.accounted
  have hrole := hs.role c (hs.lt hc)
  refine hs.touch (keeps_setConnection c _ s).toTouches
    ⟨free, queue, posted, haccounted.setConnection (by intro; rfl) (by intro; rfl) c⟩ ?_ ?_
  · exact {
      held := fun _ => Or.inl hc
      reusable := fun _ => Or.inr hkeepalive
      idle := fun _ _ => hkeepalive
      posted := hrole.posted
      writePosted := hrole.writePosted
      writeTimer := hrole.writeTimer }
  · exact hs.listening c

/-- Only kept connections are posted. -/
theorem Sound.addPost (hs : Sound n s) (hc : c ∈ s.inUse)
    (hkeepalive : (s.events (readOf c)).handler = .keepalive) :
    Sound n (nightAddPostEvent (readOf c) s) := by
  obtain ⟨free, queue, posted, haccounted⟩ := hs.accounted
  obtain ⟨posted', haccounted', -⟩ := accounted_addPost haccounted (e := readOf c) hc
  have hrole := hs.role c (hs.lt hc)
  obtain ⟨flag, hread, -⟩ := addPost_event (readOf c) (readOf c) s
  obtain ⟨writeFlag, hwrite, hwriteFlag⟩ := addPost_event (readOf c) (writeOf c) s
  have hsame := hwriteFlag (by simp [readOf, writeOf])
  have hkeeps := keeps_addPost (readOf c) s
  have hhandler : ((nightAddPostEvent (readOf c) s).events (readOf c)).handler = .keepalive := by
    rw [hread]
    exact hkeepalive
  refine hs.touch (c := c) hkeeps.toTouches ⟨_, _, _, haccounted'⟩ ?_ ?_
  · exact {
      held := fun _ => Or.inl (hkeeps.sameInUse ▸ hc)
      reusable := fun _ => Or.inr hhandler
      idle := fun _ _ => hhandler
      posted := fun _ => hhandler
      writePosted := by
        rw [hwrite, hsame]
        exact hrole.writePosted
      writeTimer := by
        rw [hwrite]
        exact hrole.writeTimer }
  · intro hin
    exact absurd ((hs.listening c hin).2.symm.trans hkeepalive) (by decide)

/-! ## Giving a slot back -/

/-- What the accounts say about a free slot. -/
theorem role_of_free (haccounted : Accounted s free queue posted) (hc : c ∈ free)
    (hheld : (s.connections c).fd ≠ -1 →
      (s.events (readOf c)).handler = .channel ∧ (s.events (readOf c)).active = false ∧
        (s.connections c).idle = false) : Role s c := by
  have hlt := haccounted.lt_of_free hc
  have hnotin := haccounted.not_inUse hc
  have hposted : ∀ e : EventId, e.slot = c → (s.events e).posted = false := by
    intro e he
    rw [← Bool.not_eq_true, haccounted.posted_iff e (he ▸ hlt)]
    exact fun hin => hnotin (he ▸ haccounted.posted_inUse e hin)
  have htimer : ∀ e : EventId, e.slot = c → (s.events e).timerSet = false := by
    intro e he
    rw [← Bool.not_eq_true, haccounted.timerSet_iff e (he ▸ hlt)]
    exact fun hin => hnotin (he ▸ haccounted.timers_inUse e hin)
  exact {
    held := fun hfd => Or.inr (hheld hfd)
    reusable := fun hreusable =>
      absurd (haccounted.queue_inUse c ((haccounted.reusable_iff c hlt).mp hreusable)) hnotin
    idle := by
      intro hfd hidle
      rw [(hheld hfd).2.2] at hidle
      cases hidle
    posted := by
      rw [hposted (readOf c) rfl]
      exact fun hfalse => absurd hfalse Bool.false_ne_true
    writePosted := hposted (writeOf c) rfl
    writeTimer := htimer (writeOf c) rfl }

/-- Neither reusable nor waiting for anything. -/
structure Quiet (s : Cycle) (c : ℕ) : Prop where
  notReusable : (s.connections c).reusable = false
  timers : ∀ e : EventId, e.slot = c → (s.events e).timerSet = false
  posted : ∀ e : EventId, e.slot = c → (s.events e).posted = false

theorem Quiet.idle (hquiet : Quiet s c) (haccounted : Accounted s free queue posted)
    (hlt : c < s.connectionN) : Idle s queue posted c where
  notReusable := by
    rw [← haccounted.reusable_iff c hlt, hquiet.notReusable]
    exact Bool.false_ne_true
  noTimer := by
    intro e he hslot
    have hset := (haccounted.timerSet_iff e (hslot ▸ hlt)).mpr he
    rw [hquiet.timers e hslot] at hset
    cases hset
  notPosted := by
    intro e he hslot
    have hset := (haccounted.posted_iff e (hslot ▸ hlt)).mpr he
    rw [hquiet.posted e hslot] at hset
    cases hset

theorem Quiet.setEvent (hquiet : Quiet s c) {f : Event → Event}
    (htimerSet : ∀ ev, (f ev).timerSet = ev.timerSet)
    (hposted : ∀ ev, (f ev).posted = ev.posted) (e : EventId) : Quiet (setEvent e f s) c where
  notReusable := hquiet.notReusable
  timers := fun e' he' =>
    (setEvent_field Event.timerSet htimerSet e s e').trans (hquiet.timers e' he')
  posted := fun e' he' =>
    (setEvent_field Event.posted hposted e s e').trans (hquiet.posted e' he')

/-- `night_close_accepted_connection`, and what `night_close_listening_sockets` does to a
connection. -/
theorem Sound.release (hs : Sound n s) (hc : c ∈ s.inUse) (hnot : c ∉ s.listening)
    (hquiet : Quiet s c) : Sound n (nightCloseAcceptedConnection c s) := by
  obtain ⟨free, queue, posted, haccounted⟩ := hs.accounted
  have hfreed := accounted_free haccounted hc
    (hquiet.idle haccounted (haccounted.lt_of_inUse hc))
  have hclosed : Accounted (nightCloseAcceptedConnection c s) (c :: free) queue posted :=
    hfreed.setConnection (by intro; rfl) (by intro; rfl) c
  refine hs.touch ((touches_free c s).trans (keeps_setConnection c _ _).toTouches)
    ⟨_, _, _, hclosed⟩ (role_of_free hclosed List.mem_cons_self ?_) fun hin => absurd hin hnot
  intro hfd
  rw [nightCloseAcceptedConnection, setConnection_connections, if_pos rfl] at hfd
  exact absurd rfl hfd

/-- The slot of a channel that epoll does not take. -/
theorem Sound.releaseChannel (hs : Sound n s) (hc : c ∈ s.inUse) (hquiet : Quiet s c)
    (hchannel : (s.events (readOf c)).handler = .channel)
    (hactive : (s.events (readOf c)).active = false) (hidle : (s.connections c).idle = false) :
    Sound n (nightFreeConnection c s) := by
  obtain ⟨free, queue, posted, haccounted⟩ := hs.accounted
  have hfreed := accounted_free haccounted hc
    (hquiet.idle haccounted (haccounted.lt_of_inUse hc))
  have hnot : c ∉ s.listening := hs.not_listening (by rw [hchannel]; decide)
  refine hs.touch (touches_free c s) ⟨_, _, _, hfreed⟩
    (role_of_free hfreed List.mem_cons_self fun _ => ?_) fun hin => absurd hin hnot
  rw [free_events, free_connections, setConnection_connections, if_pos rfl]
  exact ⟨hchannel, hactive, hidle⟩

theorem Sound.close (hs : Sound n s) (hc : c ∈ s.inUse) (hnot : c ∉ s.listening) :
    Sound n (nightCloseConnection c s) := by
  by_cases hopen : (s.connections c).fd = -1
  · rw [nightCloseConnection, if_pos hopen]
    exact hs
  · obtain ⟨free, queue, posted, haccounted⟩ := hs.accounted
    obtain ⟨posted', hclosed, -⟩ := accounted_close haccounted hc hopen
    exact hs.touch (touches_close c s) ⟨_, _, _, hclosed⟩
      (role_of_free hclosed List.mem_cons_self fun hfd => absurd (closeConnection_fd c s) hfd)
      fun hin => absurd hin hnot

theorem Sound.httpClose (hs : Sound n s) (hc : c ∈ s.inUse) (hnot : c ∉ s.listening) :
    Sound n (nightHttpCloseConnection c s) :=
  (hs.writeConnection hc (by intro; rfl) (by intro; rfl) (by intro; rfl) (by intro; rfl)).close
    hc hnot

end Night.Worker
