import Night.Core.ConnectionLaw

/-!
# Taking connections from the free list

`night_get_connection` may first ask the connections at the end of the reusable queue to
close.  What their handlers do is a parameter here: an invariant that they keep is kept by
the whole function.
-/

namespace Night.Connections

open Night.Chains
open Night.Rings

variable {s s' : Cycle} {free queue : List ℕ} {posted : List EventId} {c : ℕ} {e : EventId}

/-! ## The slot that is taken -/

theorem takeConnection_connections (socket : ℤ) (c : ℕ) (s : Cycle) (i : ℕ) :
    (takeConnection socket c s).connections i =
      if i = c then zeroConnection socket else s.connections i :=
  Function.update_apply s.connections c _ i

theorem takeConnection_events_of_ne (socket : ℤ) (s : Cycle) (he : e.slot ≠ c) :
    (takeConnection socket c s).events e = s.events e := by
  rw [takeConnection, setEvent_events, if_neg, setEvent_events, if_neg]
  · rfl
  · rintro rfl
    exact he rfl
  · rintro rfl
    exact he rfl

/-- The two events are cleared but for the instance and the direction. -/
theorem takeConnection_events_self (socket : ℤ) (s : Cycle) (he : e.slot = c) :
    (takeConnection socket c s).events e =
      { zeroEvent with
        instanceBit := !(s.events (readOf c)).instanceBit
        write := e.write } := by
  obtain ⟨slot, write⟩ := e
  cases he
  rw [takeConnection, setEvent_events]
  cases write with
  | true => exact if_pos rfl
  | false => exact (if_neg (by simp [writeOf])).trans (Function.update_self _ _ _)

theorem takeConnection_event_timerSet (socket : ℤ) (s : Cycle) (he : e.slot = c) :
    ((takeConnection socket c s).events e).timerSet = false := by
  rw [takeConnection_events_self socket s he]
  rfl

theorem takeConnection_event_posted (socket : ℤ) (s : Cycle) (he : e.slot = c) :
    ((takeConnection socket c s).events e).posted = false := by
  rw [takeConnection_events_self socket s he]
  rfl

theorem ring_zeroLinks {α : Type} [DecidableEq α] {links : Links (QueueCell α)}
    {elements : List α} (hring : Ring links .head (elements.map .of)) {a : α}
    (ha : a ∉ elements) : Ring (zeroLinks a links) .head (elements.map .of) := by
  have hne : ∀ cell ∈ QueueCell.head :: elements.map QueueCell.of, cell ≠ .of a := by
    rintro cell hcell rfl
    exact of_not_mem_map ha hcell
  apply hring.congr
  · intro cell hcell
    rw [zeroLinks, setNext_next, if_neg (hne cell hcell), setPrev_next]
  · intro cell hcell
    rw [zeroLinks, setNext_prev, setPrev_prev, if_neg (hne cell hcell)]

/-- A free slot has neither timers nor posted events, so clearing it loses nothing. -/
theorem accounted_take (haccounted : Accounted s (c :: free) queue posted) (socket : ℤ) :
    Accounted (takeConnection socket c s) free queue posted := by
  have hnotin := haccounted.not_inUse (c := c) List.mem_cons_self
  have hcfree : c ∉ free := by
    have hnodup := (List.nodup_append.mp haccounted.nodup).1
    exact (List.nodup_cons.mp hnodup).1
  have hposted : ∀ e : EventId, e.slot = c → e ∉ posted :=
    fun e he hin => hnotin (he ▸ haccounted.posted_inUse e hin)
  have htimers : ∀ e : EventId, e.slot = c → e ∉ s.timers :=
    fun e he hin => hnotin (he ▸ haccounted.timers_inUse e hin)
  exact {
    freeChain := by
      have hrest := haccounted.freeChain.2
      apply hrest.congr
      intro i hi
      rw [takeConnection_connections, if_neg]
      rintro rfl
      exact hcfree hi
    slots := by
      refine List.Perm.trans ?_ haccounted.slots
      exact List.perm_middle
    freeCount := by
      have hcount := haccounted.freeCount
      change s.freeConnectionN - 1 = _
      rw [hcount, List.length_cons]
      omega
    queueRing := ring_zeroLinks haccounted.queueRing
      fun hin => hnotin (haccounted.queue_inUse c hin)
    queueCount := haccounted.queueCount
    reusable_iff := by
      intro i hi
      rw [takeConnection_connections]
      by_cases heq : i = c
      · rw [if_pos heq, heq]
        constructor
        · intro hreusable
          cases hreusable
        · intro hin
          exact absurd (haccounted.queue_inUse c hin) hnotin
      · rw [if_neg heq]
        exact haccounted.reusable_iff i hi
    queue_inUse := fun i hi => List.mem_cons_of_mem c (haccounted.queue_inUse i hi)
    timersNodup := haccounted.timersNodup
    timerSet_iff := by
      intro e he
      by_cases heq : e.slot = c
      · rw [takeConnection_event_timerSet socket s heq]
        exact iff_of_false (by decide) (htimers e heq)
      · rw [takeConnection_events_of_ne socket s heq]
        exact haccounted.timerSet_iff e he
    timers_inUse := fun e he => List.mem_cons_of_mem c (haccounted.timers_inUse e he)
    postedRing := ring_zeroLinks (ring_zeroLinks haccounted.postedRing (hposted _ rfl))
      (hposted _ rfl)
    posted_iff := by
      intro e he
      by_cases heq : e.slot = c
      · rw [takeConnection_event_posted socket s heq]
        exact iff_of_false (by decide) (hposted e heq)
      · rw [takeConnection_events_of_ne socket s heq]
        exact haccounted.posted_iff e he
    posted_inUse := fun e he => List.mem_cons_of_mem c (haccounted.posted_inUse e he) }

theorem touches_take (socket : ℤ) (c : ℕ) (s : Cycle) :
    Touches c s (takeConnection socket c s) where
  connectionN := rfl
  listening := rfl
  connection := fun i hi => by rw [takeConnection_connections, if_neg hi]
  event := fun e he => takeConnection_events_of_ne socket s he
  inUse := fun i hi => by
    change i ∈ c :: s.inUse ↔ _
    rw [List.mem_cons, or_iff_right hi]

/-! ## Draining -/

section Drain

variable {handler : ℕ → Cycle → Option Cycle} {Inv : Cycle → Prop}

/-- The invariant accounts for the `n` slots of the worker and is kept by the handlers of
reusable connections that are asked to close. -/
structure KeptByHandlers (handler : ℕ → Cycle → Option Cycle) (n : ℕ) (Inv : Cycle → Prop) :
    Prop where
  connectionN : ∀ s, Inv s → s.connectionN = n
  accounted : ∀ s, Inv s → ∃ free queue posted, Accounted s free queue posted
  handled : ∀ s, Inv s → ∀ c < n, (s.connections c).reusable = true →
    ∃ s', handler c (setConnection c (fun conn => { conn with close := true }) s) = some s' ∧
      Inv s'

variable {n : ℕ}

theorem drainLoop_inv (hkept : KeptByHandlers handler n Inv) (turns : ℕ) {last : Option ℕ}
    (hlast : ∀ c ∈ last, c < n) (hs : Inv s) :
    ∃ last' s', drainLoop handler turns last s = some (last', s') ∧ Inv s' ∧
      ∀ c ∈ last', c < n := by
  induction turns generalizing last s with
  | zero => exact ⟨last, s, rfl, hs, hlast⟩
  | succ turns ih =>
      obtain ⟨free, queue, posted, haccounted⟩ := hkept.accounted s hs
      have hprev := haccounted.queueRing.prev_head
      rcases List.eq_nil_or_concat queue with rfl | ⟨front, c, rfl⟩
      · refine ⟨last, s, ?_, hs, hlast⟩
        rw [drainLoop, hprev]
        rfl
      · rw [List.concat_eq_append] at haccounted hprev
        rw [List.map_append, List.map_singleton, List.getLastD_concat] at hprev
        have hin : c ∈ front ++ [c] := List.mem_append_right front List.mem_cons_self
        have hlt := haccounted.lt_of_inUse (haccounted.queue_inUse c hin)
        have hreusable := (haccounted.reusable_iff c hlt).mpr hin
        rw [hkept.connectionN s hs] at hlt
        obtain ⟨s', hhandled, hs'⟩ := hkept.handled s hs c hlt hreusable
        rw [drainLoop, hprev]
        simp only [hhandled, Option.bind_eq_bind, Option.bind_some]
        exact ih (by simpa using hlt) hs'

theorem nightDrainConnections_inv (hkept : KeptByHandlers handler n Inv) (hs : Inv s) :
    ∃ s', nightDrainConnections handler s = some s' ∧ Inv s' := by
  rw [nightDrainConnections]
  by_cases henough : s.freeConnectionN > s.connectionN / 16 ∨ s.reusableConnectionsN = 0
  · rw [if_pos henough]
    exact ⟨s, rfl, hs⟩
  · rw [if_neg henough]
    have hnone : ∀ c ∈ (none : Option ℕ), c < n := by simp
    obtain ⟨last, s', hloop, hs', hlast⟩ := drainLoop_inv hkept
      (if s.reusableConnectionsN.tdiv 8 < 1 then 1
        else if s.reusableConnectionsN.tdiv 8 > 8 then 8
        else s.reusableConnectionsN.tdiv 8).toNat hnone hs
    simp only [hloop, Option.bind_eq_bind, Option.bind_some]
    cases last with
    | none => exact ⟨s', rfl, hs'⟩
    | some c =>
        dsimp only
        by_cases hagain : s'.freeConnectionN = 0 ∧ (s'.connections c).reusable = true
        · rw [if_pos hagain]
          exact hkept.handled s' hs' c (hlast c rfl) hagain.2
        · rw [if_neg hagain]
          exact ⟨s', rfl, hs'⟩

/-- The function fails, or it takes the first slot of the free list that the handlers
leave. -/
theorem nightGetConnection_cases (hkept : KeptByHandlers handler n Inv) (socket : ℤ)
    (hs : Inv s) :
    ∃ s', Inv s' ∧
      (nightGetConnection handler socket s = some (none, s') ∨
        ∃ c, s'.freeConnections = some c ∧
          nightGetConnection handler socket s = some (some c, takeConnection socket c s')) := by
  rw [nightGetConnection]
  by_cases hfiles : (s.filesN : ℤ) ≤ socket % 2 ^ 64
  · rw [if_pos hfiles]
    exact ⟨s, hs, Or.inl rfl⟩
  · rw [if_neg hfiles]
    obtain ⟨s', hdrain, hs'⟩ := nightDrainConnections_inv hkept hs
    refine ⟨s', hs', ?_⟩
    simp only [hdrain, Option.bind_eq_bind, Option.bind_some]
    cases hfree : s'.freeConnections with
    | none => exact Or.inl rfl
    | some c => exact Or.inr ⟨c, rfl, rfl⟩

end Drain

/-! ## Initialisation -/

theorem linkFree_spec (i count : ℕ) (next : Option ℕ) (connections : ℕ → Connection)
    (hchain : Chain (fun c => (connections c).next) next (List.range' i count)) :
    Chain (fun c => ((linkFree i next connections).2 c).next) (linkFree i next connections).1
      (List.range' 0 (i + count)) := by
  induction i generalizing count next connections with
  | zero => simpa [linkFree] using hchain
  | succ i ih =>
      rw [linkFree, Nat.add_right_comm, Nat.add_assoc]
      apply ih
      rw [List.range'_succ]
      refine ⟨rfl, ?_⟩
      simp only [Function.update_self]
      apply hchain.congr
      intro c hc
      rw [Function.update_of_ne]
      have hle := (List.mem_range'_1.mp hc).1
      omega

/-- Every slot below `i` is written. -/
theorem linkFree_forall {p : Connection → Prop}
    (hp : ∀ next, p { zeroConnection (-1) with next := next }) (i : ℕ) (next : Option ℕ)
    (connections : ℕ → Connection) (hrest : i ≤ c → p (connections c)) :
    p ((linkFree i next connections).2 c) := by
  induction i generalizing next connections with
  | zero => exact hrest (Nat.zero_le c)
  | succ i ih =>
      rw [linkFree]
      apply ih
      intro hle
      by_cases heq : c = i
      · rw [heq, Function.update_self]
        exact hp next
      · rw [Function.update_of_ne heq]
        exact hrest (by omega)

/-- After the loop all slots are closed and in no list. -/
theorem init_connection (connectionN filesN : ℕ) (currentMsec : ℤ) (hc : c < connectionN) :
    ∃ next, (nightEventCoreProcessInit connectionN filesN currentMsec).connections c =
      { zeroConnection (-1) with next := next } := by
  refine linkFree_forall (p := fun conn => ∃ next, conn = { zeroConnection (-1) with next := next })
    ?_ connectionN none _ ?_
  · exact fun next => ⟨next, rfl⟩
  · exact fun hle => absurd hc (Nat.not_lt.mpr hle)

theorem accounted_init (connectionN filesN : ℕ) (currentMsec : ℤ) :
    Accounted (nightEventCoreProcessInit connectionN filesN currentMsec)
      (List.range connectionN) [] [] where
  freeChain := by
    have hlinked := linkFree_spec connectionN 0 none (fun _ => zeroConnection 0) rfl
    rw [Nat.add_zero, ← List.range_eq_range'] at hlinked
    exact hlinked
  slots := by
    change (List.range connectionN ++ []).Perm (List.range connectionN)
    rw [List.append_nil]
  freeCount := by
    rw [List.length_range]
    rfl
  queueRing := ring_init QueueCell.head ⟨fun _ => .null, fun _ => .null⟩
  queueCount := rfl
  reusable_iff := by
    intro c hc
    obtain ⟨next, heq⟩ := init_connection connectionN filesN currentMsec hc
    rw [heq]
    exact iff_of_false (by simp [zeroConnection]) List.not_mem_nil
  queue_inUse := by simp
  timersNodup := List.nodup_nil
  timerSet_iff := by
    intro e he
    exact iff_of_false Bool.false_ne_true List.not_mem_nil
  timers_inUse := by
    intro e he
    cases he
  postedRing := ring_init QueueCell.head ⟨fun _ => .null, fun _ => .null⟩
  posted_iff := by
    intro e he
    exact iff_of_false Bool.false_ne_true List.not_mem_nil
  posted_inUse := by simp

end Night.Connections
