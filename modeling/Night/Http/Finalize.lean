import Night.Core.ConnectionLaw
import Night.Http.Connection

/-!
# What becomes of the connection of a finished request

A finished request either leaves its connection to the next one, with a timer, or closes
it.  `night_http_finalize_connection` knows the first way only: behind the test for
keepalive it has nothing to close the connection with.
-/

namespace Night.HttpConnection

open Night.Connections

variable {flags : Flags} {input : KeepaliveInput} {r r' : Request} {rc : ℤ} {s s' : Cycle}
variable {c : ℕ}

/-- The request is freed and its connection waits for the next one. -/
structure KeptAlive (c : ℕ) (r' : Request) (s' : Cycle) : Prop where
  freed : r'.pool = false
  stillOpen : (s'.connections c).fd ≠ -1
  reusable : (s'.connections c).reusable = true
  timer : (s'.events (readOf c)).timerSet = true
  handler : (s'.events (readOf c)).handler = .keepalive

/-- The request is freed and its connection is back on the free list. -/
structure ClosedDown (c : ℕ) (r' : Request) (s' : Cycle) : Prop where
  freed : r'.pool = false
  closed : (s'.connections c).fd = -1
  returned : s'.freeConnections = some c
  notReusable : (s'.connections c).reusable = false

/-- Something is responsible for the connection of a finished request. -/
def Settled (c : ℕ) (ended : Request × Cycle) : Prop :=
  KeptAlive c ended.1 ended.2 ∨ ClosedDown c ended.1 ended.2

/-! ## The pieces -/

theorem freeRequest_pool (r : Request) (rc : ℤ) (s : Cycle) :
    (nightHttpFreeRequest r rc s).1.pool = false := by
  rw [nightHttpFreeRequest]
  by_cases hpool : r.pool = true
  · simp only [hpool, Bool.not_true, Bool.false_eq_true, if_false]
  · simp only [Bool.not_eq_true] at hpool
    simp only [hpool, Bool.not_false, if_true]

theorem freeRequest_fd (r : Request) (rc : ℤ) (s : Cycle) (c : ℕ) :
    ((nightHttpFreeRequest r rc s).2.connections c).fd = (s.connections c).fd := by
  rw [nightHttpFreeRequest]
  split
  · rfl
  · dsimp only
    exact setConnection_field Connection.fd (by intro; rfl) r.connection s c

@[simp]
theorem handleReadEvent_connections (added : Bool) (e : EventId) (s : Cycle) :
    (nightHandleReadEvent added e s).2.connections = s.connections := by
  rw [nightHandleReadEvent]
  split
  · split <;> rfl
  · rfl

theorem closedDown_httpClose (hfreed : r'.pool = false)
    (hopen : (s.connections c).fd ≠ -1) : ClosedDown c r' (nightHttpCloseConnection c s) := by
  have hstill : ((setConnection c (fun conn => { conn with destroyed := true }) s).connections
      c).fd ≠ -1 := by
    rw [setConnection_field Connection.fd]
    · exact hopen
    · exact fun _ => rfl
  exact ⟨hfreed, closeConnection_fd c _, closeConnection_freeConnections hstill,
    closeConnection_reusable hstill⟩

/-- A reusable connection with a timer and the keepalive handler waits, posted or not. -/
theorem keptAlive_post (hkept : KeptAlive c r' s) :
    KeptAlive c r'
      (if (s.events (readOf c)).ready then nightAddPostEvent (readOf c) s else s) := by
  by_cases hready : (s.events (readOf c)).ready = true
  · rw [if_pos hready]
    obtain ⟨posted, hevent, -⟩ := addPost_event (readOf c) (readOf c) s
    refine ⟨hkept.freed, ?_, ?_, ?_, ?_⟩
    · rw [addPost_connections]
      exact hkept.stillOpen
    · rw [addPost_connections]
      exact hkept.reusable
    · rw [hevent]
      exact hkept.timer
    · rw [hevent]
      exact hkept.handler
  · rw [if_neg hready]
    exact hkept

/-- With the read event handled, the connection is kept, or it is closed when the socket
option cannot be set. -/
theorem settled_keepConnection (input : KeepaliveInput) (hfreed : r'.pool = false)
    (hopen : (s.connections c).fd ≠ -1) : Settled c (r', keepConnection input c s) := by
  rw [keepConnection]
  cases input.nodelay with
  | false =>
      right
      exact closedDown_httpClose hfreed hopen
  | true =>
      left
      apply keptAlive_post
      have hconnection : ∀ t, (nightEventAddTimer (readOf c) input.keepaliveTimeout
          (nightReusableConnection c true (setConnection c (fun conn =>
            { conn with idle := true }) t))).connections c =
          { t.connections c with idle := true, reusable := true } := by
        intro t
        rw [addTimer_connections, reusable_connections, setConnection_connections, if_pos rfl,
          setConnection_connections, if_pos rfl]
      refine ⟨hfreed, ?_, ?_, addTimer_timerSet _ _ _, ?_⟩
      · rw [hconnection]
        exact hopen
      · rw [hconnection]
      · obtain ⟨timerSet, timerKey, hevent⟩ := addTimer_event (readOf c) (readOf c)
          input.keepaliveTimeout (nightReusableConnection c true (setConnection c (fun conn =>
            { conn with idle := true })
            (setEvent (readOf c) (fun ev => { ev with handler := .keepalive })
              (setEvent (writeOf c) (fun ev => { ev with handler := .empty }) s))))
        rw [hevent, reusable_events]
        rw [setConnection_events, setEvent_events, if_pos rfl]

theorem settled_setKeepalive (input : KeepaliveInput) (r : Request)
    (hopen : (s.connections r.connection).fd ≠ -1) :
    Settled r.connection (nightHttpSetKeepalive input r s) := by
  have hfreed := freeRequest_pool { r with keepalive := false } 0 s
  have hstill : ((nightHandleReadEvent input.added (readOf r.connection)
      (nightHttpFreeRequest { r with keepalive := false } 0 s).2).2.connections
        r.connection).fd ≠ -1 := by
    rw [handleReadEvent_connections, freeRequest_fd]
    exact hopen
  rw [nightHttpSetKeepalive]
  split
  · exact Or.inr (closedDown_httpClose hfreed hstill)
  · exact settled_keepConnection input hfreed hstill

/-! ## Finalization -/

/-- For the last reference to a main request, whatever the result code: its connection is
looked after exactly when it can be kept. -/
theorem finalizeRequest_settled_iff (flags : Flags) (input : KeepaliveInput) (r : Request)
    (rc : ℤ) (s : Cycle) (hcount : r.count = 1) (hlive : r.pool = true)
    (hopen : (s.connections r.connection).fd ≠ -1) :
    Settled r.connection (nightHttpFinalizeRequest flags input r rc s) ↔
      flags.terminate = false ∧ flags.exiting = false ∧ r.keepalive = true := by
  rw [nightHttpFinalizeRequest, ite_self, nightHttpFinalizeConnection,
    if_neg (not_not.mpr hcount)]
  by_cases hkeep : (!flags.terminate && !flags.exiting && r.keepalive) = true
  · rw [if_pos hkeep]
    simp only [Bool.and_eq_true, Bool.not_eq_true'] at hkeep
    exact iff_of_true (settled_setKeepalive input r hopen) (and_assoc.mp hkeep)
  · rw [if_neg hkeep]
    simp only [Bool.and_eq_true, Bool.not_eq_true'] at hkeep
    apply iff_of_false
    · -- nothing was done, so the request is not even freed
      rintro (hkept | hclosed)
      · exact absurd hkept.freed (by simp [hlive])
      · exact absurd hclosed.freed (by simp [hlive])
    · exact fun hall => hkeep (and_assoc.mpr hall)

/-- A worker with one connection, which a client has opened. -/
def oneConnection : Cycle := takeConnection 7 0 (nightEventCoreProcessInit 1 16 0)

def clientRequest (keepalive : Bool) : Request := ⟨0, 1, false, keepalive, true, 0, 0⟩

theorem finalizeRequest_settled_keepalive :
    Settled 0 (nightHttpFinalizeRequest ⟨false, false⟩ ⟨60000, true, true⟩ (clientRequest true)
      0 oneConnection) :=
  (finalizeRequest_settled_iff ⟨false, false⟩ ⟨60000, true, true⟩ (clientRequest true) 0
    oneConnection rfl rfl (by decide)).mpr ⟨rfl, rfl, rfl⟩

/-- A request of an HTTP/1.0 client leaves its connection behind. -/
theorem not_settled_http10 :
    ¬ ∀ (flags : Flags) (input : KeepaliveInput) (r : Request) (rc : ℤ) (s : Cycle),
      r.count = 1 → r.pool = true → (s.connections r.connection).fd ≠ -1 →
        Settled r.connection (nightHttpFinalizeRequest flags input r rc s) := by
  intro hall
  have hsettled := hall ⟨false, false⟩ ⟨60000, true, true⟩ (clientRequest false) 0 oneConnection
    rfl rfl (by decide)
  rcases hsettled with hkept | hclosed
  · exact absurd hkept.freed (by decide)
  · exact absurd hclosed.freed (by decide)

end Night.HttpConnection
