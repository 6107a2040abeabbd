import Night.Core.WorkerRuns

/-!
# `night_drain_connections` with the handlers of reusable connections

A worker without a free connection asks the oldest reusable ones to close.  One that waits for
its first request does so; the handler of a kept one is empty, and with such a connection at the
end of the queue the function gets nowhere.
-/

namespace Night.DrainConnections

open Chains Rings Connections HttpConnection Worker

variable {s s' : Cycle} {free queue front gone rest : List ℕ} {c : ℕ}

/-! ## States -/

/-- The free list and the reusable queue with their counters; the connections in the queue have a
handler with which `night_reusable_connection` is called. -/
structure Drainable (s : Cycle) (free queue : List ℕ) : Prop where
  freeChain : Chain (fun c => (s.connections c).next) s.freeConnections free
  freeCount : s.freeConnectionN = free.length
  queueRing : Ring s.reusableQueue .head (queue.map .of)
  queueCount : s.reusableConnectionsN = queue.length
  apart : ∀ c ∈ queue, c ∉ free
  reusable : ∀ c ∈ queue, (s.connections c).reusable = true
  handler : ∀ c ∈ queue, (s.events (readOf c)).handler = .waitRequest ∨
    (s.events (readOf c)).handler = .keepalive

/-- How often `night_drain_connections` asks a connection to close. -/
def drainTurns (s : Cycle) : ℕ :=
  (if s.reusableConnectionsN.tdiv 8 < 1 then 1
    else if s.reusableConnectionsN.tdiv 8 > 8 then 8
    else s.reusableConnectionsN.tdiv 8).toNat

/-- The connections `gone` were the oldest of the queue; they are closed and on the free list,
each of them once, and no other connection is closed. -/
structure Drained (s s' : Cycle) (free queue gone rest : List ℕ) : Prop where
  oldest : queue = rest ++ gone
  bounded : gone.length ≤ drainTurns s
  freeChain : Chain (fun c => (s'.connections c).next) s'.freeConnections (gone ++ free)
  freeCount : s'.freeConnectionN = (gone ++ free).length
  freeNodup : gone.Nodup ∧ ∀ c ∈ gone, c ∉ free
  queueRing : Ring s'.reusableQueue .head (rest.map .of)
  queueCount : s'.reusableConnectionsN = rest.length
  closed : ∀ c ∈ gone, (s.connections c).fd ≠ -1 ∧ (s'.connections c).fd = -1
  kept : ∀ c ∉ gone, (s'.connections c).fd = (s.connections c).fd

/-- At least one connection gets free. -/
def Drains (s : Cycle) (free queue : List ℕ) : Prop :=
  ∃ s' gone rest, nightDrainConnections closingHandler s = some s' ∧ gone ≠ [] ∧
    Drained s s' free queue gone rest

/-- The connection is open and waits for its first request. -/
def Waiting (s : Cycle) (c : ℕ) : Prop :=
  (s.connections c).fd ≠ -1 ∧ (s.events (readOf c)).handler = .waitRequest

/-- What the callers of these functions keep up is such a state. -/
theorem drainable_of_sound {n : ℕ} (hs : Sound n s) : ∃ free queue, Drainable s free queue := by
  obtain ⟨free, queue, posted, haccounted⟩ := hs.accounted
  have hlt : ∀ c ∈ queue, c < s.connectionN :=
    fun c hc => haccounted.lt_of_inUse (haccounted.queue_inUse c hc)
  have hreusable : ∀ c ∈ queue, (s.connections c).reusable = true :=
    fun c hc => (haccounted.reusable_iff c (hlt c hc)).mpr hc
  exact ⟨free, queue, {
    freeChain := haccounted.freeChain
    freeCount := haccounted.freeCount
    queueRing := haccounted.queueRing
    queueCount := haccounted.queueCount
    apart := fun c hc hfree => haccounted.not_inUse hfree (haccounted.queue_inUse c hc)
    reusable := hreusable
    handler := fun c hc => (hs.role c (hs.connectionN ▸ hlt c hc)).reusable (hreusable c hc) }⟩

theorem Drainable.nodup (hdrainable : Drainable s free queue) : queue.Nodup :=
  List.Nodup.of_map _ (List.nodup_cons.mp hdrainable.queueRing.nodup).2

/-! ## What a close writes -/

/-- The lists and the connections are left alone, and so are the handlers. -/
structure Aside (s s' : Cycle) : Prop where
  connections : s'.connections = s.connections
  freeConnections : s'.freeConnections = s.freeConnections
  freeConnectionN : s'.freeConnectionN = s.freeConnectionN
  reusableQueue : s'.reusableQueue = s.reusableQueue
  reusableConnectionsN : s'.reusableConnectionsN = s.reusableConnectionsN
  handler : ∀ e, (s'.events e).handler = (s.events e).handler

theorem Aside.refl (s : Cycle) : Aside s s := ⟨rfl, rfl, rfl, rfl, rfl, fun _ => rfl⟩

theorem Aside.trans {s'' : Cycle} (hleft : Aside s s') (hright : Aside s' s'') : Aside s s'' :=
  ⟨hright.connections.trans hleft.connections, hright.freeConnections.trans hleft.freeConnections,
    hright.freeConnectionN.trans hleft.freeConnectionN,
    hright.reusableQueue.trans hleft.reusableQueue,
    hright.reusableConnectionsN.trans hleft.reusableConnectionsN,
    fun e => (hright.handler e).trans (hleft.handler e)⟩

theorem aside_setEvent {f : Event → Event} (hhandler : ∀ ev, (f ev).handler = ev.handler)
    (e : EventId) (s : Cycle) : Aside s (setEvent e f s) := by
  refine ⟨rfl, rfl, rfl, rfl, rfl, fun e' => ?_⟩
  rw [setEvent_events]
  split
  · next heq => rw [hhandler, heq]
  · rfl

theorem aside_delTimerIfSet (e : EventId) (s : Cycle) : Aside s (delTimerIfSet e s) := by
  rw [delTimerIfSet]
  split
  · have hlist : Aside s { s with timers := s.timers.erase e } :=
      ⟨rfl, rfl, rfl, rfl, rfl, fun _ => rfl⟩
    exact hlist.trans (aside_setEvent (by intro; rfl) e _)
  · exact Aside.refl s

theorem aside_deletePostedIfPosted (e : EventId) (s : Cycle) :
    Aside s (deletePostedIfPosted e s) := by
  rw [deletePostedIfPosted]
  split
  · have hlist : Aside s { s with postedEvents := remove (.of e) s.postedEvents } :=
      ⟨rfl, rfl, rfl, rfl, rfl, fun _ => rfl⟩
    exact hlist.trans (aside_setEvent (by intro; rfl) e _)
  · exact Aside.refl s

theorem aside_delConn (c : ℕ) (s : Cycle) : Aside s (nightDelConn c s) :=
  (aside_setEvent (by intro; rfl) (readOf c) s).trans
    (aside_setEvent (by intro; rfl) (writeOf c) _)

theorem aside_markClosed (c : ℕ) (s : Cycle) : Aside s (markClosed c s) :=
  (aside_setEvent (by intro; rfl) (readOf c) s).trans
    (aside_setEvent (by intro; rfl) (writeOf c) _)

/-- A reusable connection leaves the queue and gets to the head of the free list. -/
structure Freed (c : ℕ) (s s' : Cycle) : Prop where
  fd : (s'.connections c).fd = -1
  next : (s'.connections c).next = s.freeConnections
  connections : ∀ i ≠ c, s'.connections i = s.connections i
  freeConnections : s'.freeConnections = some c
  freeConnectionN : s'.freeConnectionN = s.freeConnectionN + 1
  reusableQueue : s'.reusableQueue = remove (.of c) s.reusableQueue
  reusableConnectionsN : s'.reusableConnectionsN = s.reusableConnectionsN - 1
  handler : ∀ e, (s'.events e).handler = (s.events e).handler

theorem freed_close (hopen : (s.connections c).fd ≠ -1)
    (hreusable : (s.connections c).reusable = true) : Freed c s (nightCloseConnection c s) := by
  rw [nightCloseConnection, if_neg hopen]
  dsimp only
  have haside := ((((((Aside.refl s).trans (aside_delTimerIfSet (readOf c) s)).trans
    (aside_delTimerIfSet (writeOf c) _)).trans (aside_delConn c _)).trans
    (aside_deletePostedIfPosted (readOf c) _)).trans
    (aside_deletePostedIfPosted (writeOf c) _)).trans (aside_markClosed c _)
  generalize markClosed c _ = s₁ at haside ⊢
  have hreusable₁ : (s₁.connections c).reusable = true := by
    rw [haside.connections]
    exact hreusable
  have hleave : nightReusableConnection c false s₁ =
      setConnection c (fun conn => { conn with reusable := false }) { s₁ with
        reusableQueue := remove (.of c) s₁.reusableQueue
        reusableConnectionsN := s₁.reusableConnectionsN - 1 } := by
    rw [nightReusableConnection, leaveReusableQueue, if_pos hreusable₁]
    rfl
  generalize hleft : nightReusableConnection c false s₁ = s₂
  rw [hleave] at hleft
  have hlists : (nightFreeConnection c s₂).freeConnectionN = s₂.freeConnectionN + 1 ∧
      (nightFreeConnection c s₂).reusableQueue = s₂.reusableQueue ∧
      (nightFreeConnection c s₂).reusableConnectionsN = s₂.reusableConnectionsN := by
    rw [nightFreeConnection]
    split <;> exact ⟨rfl, rfl, rfl⟩
  have hconnections : ∀ i, (nightFreeConnection c s₂).connections i =
      if i = c then { s₂.connections c with next := s₂.freeConnections }
      else s₂.connections i := by
    intro i
    rw [free_connections, setConnection_connections]
  refine ⟨?_, ?_, ?_, free_freeConnections c s₂, ?_, ?_, ?_, ?_⟩
  · rw [setConnection_connections, if_pos rfl]
  · rw [setConnection_connections, if_pos rfl, hconnections, if_pos rfl, ← hleft]
    exact haside.freeConnections
  · intro i hi
    rw [setConnection_connections, if_neg hi, hconnections, if_neg hi, ← hleft,
      setConnection_connections, if_neg hi]
    exact congrFun haside.connections i
  · change (nightFreeConnection c s₂).freeConnectionN = _
    rw [hlists.1, ← hleft, ← haside.freeConnectionN]
    rfl
  · change (nightFreeConnection c s₂).reusableQueue = _
    rw [hlists.2.1, ← hleft, ← haside.reusableQueue]
    rfl
  · change (nightFreeConnection c s₂).reusableConnectionsN = _
    rw [hlists.2.2, ← hleft, ← haside.reusableConnectionsN]
    rfl
  · intro e
    rw [setConnection_events, free_events, ← hleft]
    exact haside.handler e

/-! ## One connection is asked -/

/-- `c->close = 1; c->read->handler(c->read)`. -/
def ask (c : ℕ) (s : Cycle) : Option Cycle :=
  closingHandler c (setConnection c (fun conn => { conn with close := true }) s)

theorem Drainable.setConnection (hdrainable : Drainable s free queue)
    {f : Connection → Connection} (hnext : ∀ conn, (f conn).next = conn.next)
    (hreusable : ∀ conn, (f conn).reusable = conn.reusable) (c : ℕ) :
    Drainable (setConnection c f s) free queue := by
  refine ⟨?_, hdrainable.freeCount, hdrainable.queueRing, hdrainable.queueCount,
    hdrainable.apart, ?_, hdrainable.handler⟩
  · exact hdrainable.freeChain.congr fun i _ => setConnection_field Connection.next hnext c s i
  · intro i hi
    rw [setConnection_field Connection.reusable hreusable c s i]
    exact hdrainable.reusable i hi

/-- A waiting connection that is asked to close does nothing else. -/
theorem ask_wait (hhandler : (s.events (readOf c)).handler = .waitRequest) :
    ask c s = some (nightCloseConnection c
      (setConnection c (fun conn => { conn with destroyed := true })
        (setConnection c (fun conn => { conn with close := true }) s))) := by
  have hclose : ((setConnection c (fun conn => { conn with close := true }) s).connections
      c).close = true := by
    rw [setConnection_connections, if_pos rfl]
  rw [ask, closingHandler, setConnection_events, hhandler]
  simp only
  rw [nightHttpWaitRequestHandler, if_pos hclose, ite_self, nightHttpCloseConnection]

/-- The youngest element of the free list is the oldest of the queue. -/
theorem ask_waiting (hdrainable : Drainable s free (front ++ [c])) (hwaiting : Waiting s c) :
    ∃ s', ask c s = some s' ∧ Drainable s' (c :: free) front ∧ (s'.connections c).fd = -1 ∧
      (∀ i ≠ c, (s'.connections i).fd = (s.connections i).fd) ∧
      ∀ e, (s'.events e).handler = (s.events e).handler := by
  have hdrainable₁ := (hdrainable.setConnection (f := fun conn => { conn with close := true })
    (by intro; rfl) (by intro; rfl) c).setConnection
    (f := fun conn => { conn with destroyed := true }) (by intro; rfl) (by intro; rfl) c
  rw [ask_wait hwaiting.2]
  have hfd : ∀ i, ((setConnection c (fun conn => { conn with destroyed := true })
      (setConnection c (fun conn => { conn with close := true }) s)).connections i).fd =
        (s.connections i).fd := by
    intro i
    rw [setConnection_field Connection.fd (by intro; rfl), setConnection_field Connection.fd
      (by intro; rfl)]
  have hevents : ∀ e, (setConnection c (fun conn => { conn with destroyed := true })
      (setConnection c (fun conn => { conn with close := true }) s)).events e = s.events e :=
    fun _ => rfl
  generalize Connections.setConnection c (fun conn => { conn with destroyed := true })
    (Connections.setConnection c (fun conn => { conn with close := true }) s) = s₁ at *
  have hin : c ∈ front ++ [c] := List.mem_append_right front List.mem_cons_self
  have hfreed : Freed c s₁ (nightCloseConnection c s₁) :=
    freed_close (by rw [hfd]; exact hwaiting.1) (hdrainable₁.reusable c hin)
  generalize nightCloseConnection c s₁ = s₂ at hfreed ⊢
  have hnotFree : c ∉ free := hdrainable₁.apart c hin
  have hnotFront : c ∉ front := fun hmem =>
    (List.nodup_append.mp hdrainable₁.nodup).2.2 c hmem c List.mem_cons_self rfl
  have hne : ∀ i ∈ front, i ≠ c := fun i hi heq => hnotFront (heq ▸ hi)
  refine ⟨s₂, rfl, ?_, hfreed.fd, ?_, ?_⟩
  · exact {
      freeChain := by
        refine ⟨hfreed.freeConnections, ?_⟩
        change Chain _ (s₂.connections c).next free
        rw [hfreed.next]
        apply hdrainable₁.freeChain.congr
        intro i hi
        rw [hfreed.connections i (fun heq => hnotFree (heq ▸ hi))]
      freeCount := by
        rw [hfreed.freeConnectionN, hdrainable₁.freeCount, List.length_cons]
        rfl
      queueRing := by
        have hring := hdrainable₁.queueRing
        rw [List.map_append, List.map_singleton] at hring
        rw [hfreed.reusableQueue, ← List.append_nil (front.map QueueCell.of)]
        exact ring_remove hring
      queueCount := by
        rw [hfreed.reusableConnectionsN, hdrainable₁.queueCount, List.length_append]
        simp
      apart := by
        intro i hi hmem
        obtain heq | hfree := List.mem_cons.mp hmem
        · exact hne i hi heq
        · exact hdrainable₁.apart i (List.mem_append_left _ hi) hfree
      reusable := by
        intro i hi
        rw [hfreed.connections i (hne i hi)]
        exact hdrainable₁.reusable i (List.mem_append_left _ hi)
      handler := by
        intro i hi
        rw [hfreed.handler]
        exact hdrainable₁.handler i (List.mem_append_left _ hi) }
  · intro i hi
    rw [hfreed.connections i hi, hfd]
  · intro e
    rw [hfreed.handler, hevents]

/-- Any other connection stays where it is. -/
theorem ask_other (hdrainable : Drainable s free queue) (hc : c ∈ queue)
    (hother : ¬Waiting s c) :
    ∃ s', ask c s = some s' ∧ Drainable s' free queue ∧
      (∀ i, (s'.connections i).fd = (s.connections i).fd) ∧
      ∀ e, (s'.events e).handler = (s.events e).handler := by
  have hdrainable₁ := hdrainable.setConnection (f := fun conn => { conn with close := true })
    (by intro; rfl) (by intro; rfl) c
  have hfd := setConnection_field Connection.fd (f := fun conn => { conn with close := true })
    (by intro; rfl) c s
  obtain hwait | hkeep := hdrainable.handler c hc
  · have hclosed : (s.connections c).fd = -1 := by
      by_contra hopen
      exact hother ⟨hopen, hwait⟩
    rw [ask_wait hwait, nightCloseConnection, if_pos]
    · refine ⟨_, rfl, hdrainable₁.setConnection (by intro; rfl) (by intro; rfl) c, ?_,
        fun _ => rfl⟩
      intro i
      rw [setConnection_field Connection.fd (by intro; rfl), hfd]
    · rw [setConnection_field Connection.fd (by intro; rfl), hfd, hclosed]
  · refine ⟨_, ?_, hdrainable₁, hfd, fun _ => rfl⟩
    rw [ask, closingHandler, setConnection_events, hkeep]

/-! ## The loop -/

theorem Drainable.prev_head (hdrainable : Drainable s free (front ++ [c])) :
    s.reusableQueue.prev .head = .of c := by
  rw [hdrainable.queueRing.prev_head, List.map_append, List.map_singleton, List.getLastD_concat]

theorem drainLoop_succ (hdrainable : Drainable s free (front ++ [c])) (n : ℕ)
    (last : Option ℕ) (hask : ask c s = some s') :
    drainLoop closingHandler (n + 1) last s = drainLoop closingHandler n (some c) s' := by
  rw [ask] at hask
  rw [drainLoop, hdrainable.prev_head]
  simp only [hask, Option.bind_eq_bind, Option.bind_some]

/-- What `gone` says of the states before and after. -/
structure Gone (s s' : Cycle) (gone : List ℕ) : Prop where
  nodup : gone.Nodup
  closed : ∀ c ∈ gone, (s.connections c).fd ≠ -1 ∧ (s'.connections c).fd = -1
  kept : ∀ c ∉ gone, (s'.connections c).fd = (s.connections c).fd

/-- Every turn closes the oldest connection, or none. -/
theorem drainLoop_gone (n : ℕ) (last : Option ℕ) (hdrainable : Drainable s free queue) :
    ∃ last' s' gone rest, drainLoop closingHandler n last s = some (last', s') ∧
      queue = rest ++ gone ∧ gone.length ≤ n ∧ Drainable s' (gone ++ free) rest ∧
      Gone s s' gone ∧ (n ≠ 0 → (∃ c ∈ queue.getLast?, Waiting s c) → gone ≠ []) := by
  induction n generalizing last s free queue with
  | zero =>
    exact ⟨last, s, [], queue, rfl, (List.append_nil _).symm, le_rfl, hdrainable,
      ⟨List.nodup_nil, by simp, fun _ _ => rfl⟩, fun hn => absurd rfl hn⟩
  | succ n ih =>
    rcases List.eq_nil_or_concat queue with rfl | ⟨front, c, rfl⟩
    · refine ⟨last, s, [], [], ?_, rfl, Nat.zero_le _, hdrainable,
        ⟨List.nodup_nil, by simp, fun _ _ => rfl⟩, by simp⟩
      rw [drainLoop, hdrainable.queueRing.prev_head]
      rfl
    · rw [List.concat_eq_append] at hdrainable ⊢
      by_cases hwaiting : Waiting s c
      · obtain ⟨s₁, hask, hdrainable₁, hfd, hsame, -⟩ := ask_waiting hdrainable hwaiting
        obtain ⟨last', s', gone, rest, hloop, hfront, hlength, hafter, hgone, -⟩ :=
          ih (some c) hdrainable₁
        have hnotFront : c ∉ front := fun hmem =>
          (List.nodup_append.mp hdrainable.nodup).2.2 c hmem c List.mem_cons_self rfl
        have hnotGone : c ∉ gone := fun hmem =>
          hnotFront (hfront ▸ List.mem_append_right rest hmem)
        have hne : ∀ i ∈ gone, i ≠ c := fun i hi heq => hnotGone (heq ▸ hi)
        refine ⟨last', s', gone ++ [c], rest, ?_, ?_, ?_, ?_, ⟨?_, ?_, ?_⟩, fun _ _ => by simp⟩
        · rw [drainLoop_succ hdrainable n last hask]
          exact hloop
        · rw [hfront, List.append_assoc]
        · rw [List.length_append, List.length_singleton]
          omega
        · rw [List.append_assoc, List.singleton_append]
          exact hafter
        · exact hgone.nodup.append (List.nodup_singleton c)
            (List.disjoint_singleton.mpr hnotGone)
        · intro i hi
          obtain hi | hi := List.mem_append.mp hi
          · rw [← hsame i (hne i hi)]
            exact hgone.closed i hi
          · obtain rfl := List.mem_singleton.mp hi
            exact ⟨hwaiting.1, (hgone.kept i hnotGone).trans hfd⟩
        · intro i hi
          rw [List.mem_append, List.mem_singleton, not_or] at hi
          rw [hgone.kept i hi.1, hsame i hi.2]
      · obtain ⟨s₁, hask, hdrainable₁, hfd, -⟩ :=
          ask_other hdrainable (List.mem_append_right front List.mem_cons_self) hwaiting
        obtain ⟨last', s', gone, rest, hloop, hfront, hlength, hafter, hgone, -⟩ :=
          ih (some c) hdrainable₁
        refine ⟨last', s', gone, rest, ?_, hfront, Nat.le_succ_of_le hlength, hafter,
          ⟨hgone.nodup, ?_, ?_⟩, fun _ hlast => absurd (by simpa using hlast) hwaiting⟩
        · rw [drainLoop_succ hdrainable n last hask]
          exact hloop
        · intro i hi
          rw [← hfd]
          exact hgone.closed i hi
        · intro i hi
          rw [hgone.kept i hi, hfd]

/-- With a connection at the end that does not close the loop does nothing but ask it. -/
theorem drainLoop_other (n : ℕ) (last : Option ℕ) (hdrainable : Drainable s free (front ++ [c]))
    (hother : ¬Waiting s c) :
    ∃ s', drainLoop closingHandler (n + 1) last s = some (some c, s') ∧
      Drainable s' free (front ++ [c]) ∧ ¬Waiting s' c := by
  have hin : c ∈ front ++ [c] := List.mem_append_right front List.mem_cons_self
  induction n generalizing last s with
  | zero =>
    obtain ⟨s', hask, hdrainable', hfd, hhandler⟩ := ask_other hdrainable hin hother
    refine ⟨s', ?_, hdrainable', ?_⟩
    · rw [drainLoop_succ hdrainable 0 last hask, drainLoop]
    · rw [Waiting, hfd, hhandler]
      exact hother
  | succ n ih =>
    obtain ⟨s₁, hask, hdrainable₁, hfd, hhandler⟩ := ask_other hdrainable hin hother
    have hother₁ : ¬Waiting s₁ c := by
      rw [Waiting, hfd, hhandler]
      exact hother
    rw [drainLoop_succ hdrainable (n + 1) last hask]
    exact ih (some c) hdrainable₁ hother₁

/-! ## The function -/

theorem drainTurns_pos (s : Cycle) : ∃ n, drainTurns s = n + 1 := by
  apply Nat.exists_eq_add_one.mpr
  rw [drainTurns]
  split
  · decide
  · split
    · decide
    · omega

/-- A worker with reusable connections but without a free one does not return at once. -/
theorem nightDrainConnections_eq (hnone : s.freeConnectionN = 0)
    (hqueue : s.reusableConnectionsN ≠ 0) :
    nightDrainConnections closingHandler s =
      (drainLoop closingHandler (drainTurns s) none s).bind fun drained =>
        match drained.1 with
        | none => some drained.2
        | some c =>
          if drained.2.freeConnectionN = 0 ∧ (drained.2.connections c).reusable then
            ask c drained.2
          else some drained.2 := by
  rw [nightDrainConnections, if_neg]
  · rfl
  · rintro (hmany | hempty)
    · rw [hnone] at hmany
      omega
    · exact hqueue hempty

/-- Without a free connection a connection is freed if the oldest reusable one waits for its
first request, and only then. -/
theorem drains_iff (s : Cycle) (free queue : List ℕ) (hdrainable : Drainable s free queue)
    (hnone : s.freeConnectionN = 0) (hqueue : queue ≠ []) :
    Drains s free queue ↔ ∃ c ∈ queue.getLast?, Waiting s c := by
  obtain ⟨front, c, rfl⟩ := (List.eq_nil_or_concat queue).resolve_left hqueue
  rw [List.concat_eq_append] at hdrainable hqueue ⊢
  have hcount : s.reusableConnectionsN ≠ 0 := by
    rw [hdrainable.queueCount, List.length_append]
    exact Int.natCast_ne_zero.mpr (Nat.succ_ne_zero _)
  have hlast : (∃ x ∈ (front ++ [c]).getLast?, Waiting s x) ↔ Waiting s c := by simp
  obtain ⟨n, hn⟩ := drainTurns_pos s
  rw [hlast, Drains, nightDrainConnections_eq hnone hcount, hn]
  constructor
  · rintro ⟨s', gone, rest, hdrain, hgone, hdrained⟩
    by_contra hother
    obtain ⟨s₁, hloop, hdrainable₁, hother₁⟩ := drainLoop_other n none hdrainable hother
    have hsame : s'.freeConnectionN = free.length := by
      rw [hloop, Option.bind_some] at hdrain
      dsimp only at hdrain
      split at hdrain
      · obtain ⟨s₂, hask, hdrainable₂, -⟩ := ask_other hdrainable₁
          (List.mem_append_right front List.mem_cons_self) hother₁
        rw [hask] at hdrain
        rw [← Option.some.inj hdrain]
        exact hdrainable₂.freeCount
      · rw [← Option.some.inj hdrain]
        exact hdrainable₁.freeCount
    have hmore := hdrained.freeCount
    rw [hsame, List.length_append] at hmore
    have hpos := List.length_pos_iff.mpr hgone
    omega
  · intro hwaiting
    obtain ⟨last, s', gone, rest, hloop, hsplit, hlength, hafter, hgone, hsome⟩ :=
      drainLoop_gone (n + 1) none hdrainable
    have hne : gone ≠ [] := hsome (Nat.succ_ne_zero n) (hlast.mpr hwaiting)
    have hpositive : s'.freeConnectionN ≠ 0 := by
      rw [hafter.freeCount, List.length_append]
      have hpos := List.length_pos_iff.mpr hne
      omega
    refine ⟨s', gone, rest, ?_, hne, {
      oldest := hsplit
      bounded := hn ▸ hlength
      freeChain := hafter.freeChain
      freeCount := hafter.freeCount
      freeNodup := ⟨hgone.nodup, fun i hi =>
        hdrainable.apart i (hsplit ▸ List.mem_append_right rest hi)⟩
      queueRing := hafter.queueRing
      queueCount := hafter.queueCount
      closed := hgone.closed
      kept := hgone.kept }⟩
    rw [hloop, Option.bind_some]
    cases last with
    | none => rfl
    | some i => exact if_neg fun hagain => hpositive hagain.1

/-- The worker listens and accepts one client, which has not sent anything. -/
def arrivedDay : List Operation :=
  [.listen 5 true,
    .readEvent 0 ⟨fun _ => true,
      .socket 6 ⟨true, true, true, ⟨60, true, .again, false, true, true⟩⟩, true, unusedInput⟩]

theorem drains_iff_arrivedDay :
    ∃ s free queue, run (nightEventCoreProcessInit 2 16 0) arrivedDay = some s ∧
      s.freeConnectionN = 0 ∧ queue ≠ [] ∧
      (Drains s free queue ↔ ∃ c ∈ queue.getLast?, Waiting s c) := by
  obtain ⟨s, hrun, hs⟩ := sound_run arrivedDay (sound_init 2 16 0) (by decide +kernel)
  obtain ⟨free, queue, hdrainable⟩ := drainable_of_sound hs
  have hcounts : (run (nightEventCoreProcessInit 2 16 0) arrivedDay).map
      (fun s => (s.freeConnectionN, s.reusableConnectionsN)) = some (0, 1) := by
    decide +kernel
  rw [hrun, Option.map_some, Option.some.injEq, Prod.mk.injEq] at hcounts
  have hqueue : queue ≠ [] := by
    rintro rfl
    exact absurd (hcounts.2.symm.trans hdrainable.queueCount) (by decide)
  exact ⟨s, free, queue, hrun, hcounts.1, hqueue,
    drains_iff s free queue hdrainable hcounts.1 hqueue⟩

/-- The request of the client is answered and its connection is kept. -/
def keptDay : List Operation :=
  [.listen 5 true,
    .readEvent 0 ⟨fun _ => true, .socket 6 ⟨true, true, true, ⟨60, true, .bytes, true, true, true⟩⟩,
      true, unusedInput⟩,
    .request 1 .process, .request 1 (.finalize ⟨false, false⟩ ⟨60, true, true⟩
      ⟨1, 1, false, true, true, 0, 9⟩ 0)]

/-- Then no connection gets free any more. -/
theorem not_drains_keptDay :
    ¬ ∀ (connectionN filesN : ℕ) (currentMsec : ℤ) (operations : List Operation) (s : Cycle)
      (free queue : List ℕ),
      run (nightEventCoreProcessInit connectionN filesN currentMsec) operations = some s →
      Drainable s free queue → s.freeConnectionN = 0 → queue ≠ [] → Drains s free queue := by
  intro hall
  obtain ⟨s, hrun, hs⟩ := sound_run keptDay (sound_init 2 16 0) (by decide +kernel)
  obtain ⟨free, queue, hdrainable⟩ := drainable_of_sound hs
  have hcounts : (run (nightEventCoreProcessInit 2 16 0) keptDay).map
      (fun s => (s.freeConnectionN, s.reusableConnectionsN)) = some (0, 1) := by
    decide +kernel
  have hdrain : ((run (nightEventCoreProcessInit 2 16 0) keptDay).bind
      (nightDrainConnections closingHandler)).map (·.freeConnectionN) = some 0 := by
    decide +kernel
  rw [hrun] at hcounts hdrain
  rw [Option.map_some, Option.some.injEq, Prod.mk.injEq] at hcounts
  have hqueue : queue ≠ [] := by
    rintro rfl
    exact absurd (hcounts.2.symm.trans hdrainable.queueCount) (by decide)
  obtain ⟨s', gone, rest, hs', hgone, hdrained⟩ :=
    hall 2 16 0 keptDay s free queue hrun hdrainable hcounts.1 hqueue
  rw [Option.bind_some, hs', Option.map_some, Option.some.injEq, hdrained.freeCount,
    List.length_append] at hdrain
  have hpos := List.length_pos_iff.mpr hgone
  omega

end Night.DrainConnections
