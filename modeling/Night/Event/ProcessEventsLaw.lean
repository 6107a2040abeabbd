import Mathlib.Algebra.Group.Nat.Even
import Night.Event.ProcessEvents

/-!
# One bit against stale events

The instance of a slot is the parity of its use.  So the loop tells an event of an earlier use
from one of the present use exactly when the slot was taken an odd number of times between.
-/

namespace Night.ProcessEvents

open Night.Connections
open Night.Epoll (Mask EPOLLIN)
open Night.Runs

variable {s s' : State} {e : EventId} {p : Pointer}

/-! ## Actions that take no slot -/

/-- No slot is taken: instances stay, and descriptors stay or are closed. -/
structure Quiet (s s' : Cycle) : Prop where
  connectionN : s'.connectionN = s.connectionN
  filesN : s'.filesN = s.filesN
  instanceBit : ∀ e, (s'.events e).instanceBit = (s.events e).instanceBit
  fd : ∀ c, (s'.connections c).fd = (s.connections c).fd ∨ (s'.connections c).fd = -1

namespace Quiet

theorem refl (s : Cycle) : Quiet s s :=
  ⟨rfl, rfl, fun _ => rfl, fun _ => Or.inl rfl⟩

theorem trans {s₁ s₂ s₃ : Cycle} (hleft : Quiet s₁ s₂) (hright : Quiet s₂ s₃) :
    Quiet s₁ s₃ where
  connectionN := hright.connectionN.trans hleft.connectionN
  filesN := hright.filesN.trans hleft.filesN
  instanceBit := fun e => (hright.instanceBit e).trans (hleft.instanceBit e)
  fd := by
    intro c
    rcases hright.fd c with hsame | hclosed
    · rcases hleft.fd c with hsame' | hclosed
      · exact Or.inl (hsame.trans hsame')
      · exact Or.inr (hsame.trans hclosed)
    · exact Or.inr hclosed

theorem setEvent {f : Event → Event} (hf : ∀ ev, (f ev).instanceBit = ev.instanceBit)
    (e : EventId) (s : Cycle) : Quiet s (Connections.setEvent e f s) where
  connectionN := rfl
  filesN := rfl
  instanceBit := setEvent_field (·.instanceBit) hf e s
  fd := fun _ => Or.inl rfl

theorem setConnection {f : Connection → Connection}
    (hf : ∀ conn, (f conn).fd = conn.fd ∨ (f conn).fd = -1) (c : ℕ) (s : Cycle) :
    Quiet s (Connections.setConnection c f s) where
  connectionN := rfl
  filesN := rfl
  instanceBit := fun _ => rfl
  fd := by
    intro i
    rw [setConnection_connections]
    by_cases hi : i = c
    · rw [if_pos hi, hi]
      exact hf (s.connections c)
    · rw [if_neg hi]
      exact Or.inl rfl

/-- Nothing that matters is written. -/
theorem same {s s' : Cycle} (hconnectionN : s'.connectionN = s.connectionN)
    (hfilesN : s'.filesN = s.filesN) (hevents : s'.events = s.events)
    (hconnections : s'.connections = s.connections) : Quiet s s' where
  connectionN := hconnectionN
  filesN := hfilesN
  instanceBit := fun e => by rw [hevents]
  fd := fun c => Or.inl (by rw [hconnections])

theorem delTimerIfSet (e : EventId) (s : Cycle) : Quiet s (Connections.delTimerIfSet e s) := by
  rw [Connections.delTimerIfSet]
  split
  · refine trans ?_ (setEvent ?_ e _)
    · exact same rfl rfl rfl rfl
    · exact fun _ => rfl
  · exact refl s

theorem addTimer (e : EventId) (timer : ℤ) (s : Cycle) :
    Quiet s (nightEventAddTimer e timer s) where
  connectionN := (keeps_addTimer e timer s).connectionN
  filesN := by
    rw [nightEventAddTimer]
    split
    · rfl
    · by_cases hset : (s.events e).timerSet = true
      · simp only [if_pos hset]
        rfl
      · simp only [if_neg hset]
        rfl
  instanceBit := by
    intro e'
    obtain ⟨timerSet, timerKey, heq⟩ := addTimer_event e e' timer s
    rw [heq]
  fd := fun c => Or.inl (by rw [addTimer_connections])

theorem addPost (e : EventId) (s : Cycle) : Quiet s (nightAddPostEvent e s) := by
  rw [nightAddPostEvent]
  split
  · exact refl s
  · refine trans ?_ (setEvent ?_ e _)
    · exact same rfl rfl rfl rfl
    · exact fun _ => rfl

theorem deletePostedIfPosted (e : EventId) (s : Cycle) :
    Quiet s (Connections.deletePostedIfPosted e s) := by
  rw [Connections.deletePostedIfPosted]
  split
  · refine trans ?_ (setEvent ?_ e _)
    · exact same rfl rfl rfl rfl
    · exact fun _ => rfl
  · exact refl s

theorem delConn (c : ℕ) (s : Cycle) : Quiet s (nightDelConn c s) := by
  refine trans (setEvent ?_ (readOf c) s) (setEvent ?_ (writeOf c) _)
  · exact fun _ => rfl
  · exact fun _ => rfl

theorem markClosed (c : ℕ) (s : Cycle) : Quiet s (Connections.markClosed c s) := by
  refine trans (setEvent ?_ (readOf c) s) (setEvent ?_ (writeOf c) _)
  · exact fun _ => rfl
  · exact fun _ => rfl

theorem reusable (c : ℕ) (reusable : Bool) (s : Cycle) :
    Quiet s (nightReusableConnection c reusable s) := by
  have hset := setConnection (f := fun conn => { conn with reusable := reusable })
    (fun _ => Or.inl rfl) c s
  have hfilesN : (nightReusableConnection c reusable s).filesN = s.filesN := by
    have hleave : (leaveReusableQueue c s).filesN = s.filesN := by
      rw [leaveReusableQueue]
      split <;> rfl
    cases reusable with
    | false => exact hleave
    | true => exact hleave
  exact hset.trans (same (keeps_reusable c reusable s).connectionN hfilesN
    (reusable_events c reusable s) (reusable_connections c reusable s))

theorem free (c : ℕ) (s : Cycle) : Quiet s (nightFreeConnection c s) := by
  have hset := setConnection (f := fun conn => { conn with next := s.freeConnections })
    (fun _ => Or.inl rfl) c s
  have hfilesN : (nightFreeConnection c s).filesN = s.filesN := by
    rw [nightFreeConnection]
    split <;> rfl
  exact hset.trans (same (touches_free c s).connectionN hfilesN (free_events c s)
    (free_connections c s))

theorem close (c : ℕ) (s : Cycle) : Quiet s (nightCloseConnection c s) := by
  rw [nightCloseConnection]
  split
  · exact refl s
  · have hfd (s : Cycle) :=
      setConnection (f := fun conn => { conn with fd := -1 }) (fun _ => Or.inr rfl) c s
    refine trans ?_ (hfd _)
    refine trans ?_ (free c _)
    refine trans ?_ (reusable c false _)
    refine trans ?_ (markClosed c _)
    refine trans ?_ (deletePostedIfPosted (writeOf c) _)
    refine trans ?_ (deletePostedIfPosted (readOf c) _)
    refine trans ?_ (delConn c _)
    exact (delTimerIfSet (readOf c) s).trans (delTimerIfSet (writeOf c) _)

end Quiet

/-! ## The instance is the parity of the use -/

def instanceOf (use : ℕ) : Bool := decide (Even use)

theorem instanceOf_succ (use : ℕ) : instanceOf (use + 1) = !instanceOf use := by
  rw [instanceOf, instanceOf, ← decide_not, decide_eq_decide]
  exact Nat.even_add_one

/-- Two uses have one instance exactly when an even number of uses lies between them. -/
theorem instanceOf_eq_iff {earlier use : ℕ} (hle : earlier ≤ use) :
    instanceOf use = instanceOf earlier ↔ Even (use - earlier) := by
  rw [instanceOf, instanceOf, decide_eq_decide, Nat.even_sub hle]

structure Lawful (s : State) : Prop where
  read : ∀ c, (s.cycle.events (readOf c)).instanceBit = instanceOf (s.uses c)
  write : ∀ c, 0 < s.uses c → (s.cycle.events (writeOf c)).instanceBit = instanceOf (s.uses c)
  unused : ∀ c < s.cycle.connectionN, s.uses c = 0 → (s.cycle.connections c).fd = -1
  instance_ : ∀ p ∈ s.registered, p.instance_ = instanceOf p.use
  used : ∀ p ∈ s.registered, 0 < p.use
  past : ∀ p ∈ s.registered, p.use ≤ s.uses p.slot

theorem lawful_start (connectionN filesN : ℕ) (currentMsec : ℤ) :
    Lawful (start connectionN filesN currentMsec) where
  read := fun _ => rfl
  write := fun _ hused => absurd hused (Nat.lt_irrefl 0)
  unused := by
    intro c hc _
    obtain ⟨next, heq⟩ := init_connection connectionN filesN currentMsec hc
    change ((nightEventCoreProcessInit connectionN filesN currentMsec).connections c).fd = -1
    rw [heq]
    rfl
  instance_ := fun p hp => absurd hp List.not_mem_nil
  used := fun p hp => absurd hp List.not_mem_nil
  past := fun p hp => absurd hp List.not_mem_nil

/-- Where no slot is taken and nothing is registered, the law stays. -/
theorem Lawful.quiet (hlawful : Lawful s) (hquiet : Quiet s.cycle s'.cycle)
    (huses : s'.uses = s.uses) (hregistered : s'.registered = s.registered) : Lawful s' where
  read := fun c => by
    rw [hquiet.instanceBit, huses]
    exact hlawful.read c
  write := fun c => by
    rw [hquiet.instanceBit, huses]
    exact hlawful.write c
  unused := by
    intro c hc hzero
    rw [hquiet.connectionN] at hc
    rw [huses] at hzero
    have hclosed := hlawful.unused c hc hzero
    rcases hquiet.fd c with hsame | hnow
    · exact hsame.trans hclosed
    · exact hnow
  instance_ := by
    rw [hregistered]
    exact hlawful.instance_
  used := by
    rw [hregistered]
    exact hlawful.used
  past := by
    rw [hregistered, huses]
    exact hlawful.past

/-- A slot that is taken gets the other instance. -/
theorem lawful_take (hlawful : Lawful s) (socket : ℤ) : Lawful (take socket s) := by
  rw [take]
  split
  · exact hlawful
  split
  · exact hlawful
  · rename_i c _
    have huses (i : ℕ) : Function.update s.uses c (s.uses c + 1) i =
        if i = c then s.uses c + 1 else s.uses i := Function.update_apply _ _ _ _
    have hgrows (i : ℕ) : s.uses i ≤ Function.update s.uses c (s.uses c + 1) i := by
      rw [huses]
      split
      · rename_i hi
        rw [hi]
        exact Nat.le_succ _
      · exact Nat.le_refl _
    have hinstance (e : EventId) (hsame : e.slot ≠ c →
        (s.cycle.events e).instanceBit = instanceOf (s.uses e.slot)) :
        ((takeConnection socket c s.cycle).events e).instanceBit =
          instanceOf (Function.update s.uses c (s.uses c + 1) e.slot) := by
      rw [huses]
      by_cases he : e.slot = c
      · rw [takeConnection_events_self socket s.cycle he, if_pos he, instanceOf_succ]
        exact congrArg (!·) (hlawful.read c)
      · rw [takeConnection_events_of_ne socket s.cycle he, if_neg he]
        exact hsame he
    exact {
      read := fun i => hinstance (readOf i) fun _ => hlawful.read i
      write := by
        intro i hused
        apply hinstance (writeOf i)
        intro hi
        apply hlawful.write i
        have hpos : 0 < Function.update s.uses c (s.uses c + 1) i := hused
        rw [huses] at hpos
        rwa [if_neg (show i ≠ c from hi)] at hpos
      unused := by
        intro i hi hzero
        change Function.update s.uses c (s.uses c + 1) i = 0 at hzero
        rw [huses] at hzero
        change ((takeConnection socket c s.cycle).connections i).fd = -1
        rw [takeConnection_connections]
        by_cases heq : i = c
        · rw [if_pos heq] at hzero
          omega
        · rw [if_neg heq] at hzero
          rw [if_neg heq]
          exact hlawful.unused i hi hzero
      instance_ := hlawful.instance_
      used := hlawful.used
      past := fun p hp => (hlawful.past p hp).trans (hgrows p.slot) }

/-- An open slot is in use, so its pointer has the instance of that use. -/
theorem lawful_addEvent (hlawful : Lawful s) (e : EventId) : Lawful (addEvent e s) := by
  rw [addEvent]
  split
  · rename_i hopen
    have hused : 0 < s.uses e.slot :=
      Nat.pos_of_ne_zero fun hzero => hopen.2 (hlawful.unused e.slot hopen.1 hzero)
    have hinstance : (s.cycle.events e).instanceBit = instanceOf (s.uses e.slot) := by
      obtain ⟨slot, write⟩ := e
      cases write with
      | false => exact hlawful.read slot
      | true => exact hlawful.write slot hused
    have hactive := Quiet.setEvent (f := fun ev => { ev with active := true }) (fun _ => rfl) e
      s.cycle
    have hset : Lawful { s with cycle := _ } := hlawful.quiet hactive rfl rfl
    exact {
      read := hset.read
      write := hset.write
      unused := hset.unused
      instance_ := List.forall_mem_cons.mpr ⟨hinstance, hlawful.instance_⟩
      used := List.forall_mem_cons.mpr ⟨hused, hlawful.used⟩
      past := List.forall_mem_cons.mpr ⟨Nat.le_refl _, hlawful.past⟩ }
  · exact hlawful

/-! ## Runs of actions -/

/-- The other actions take no slot and register nothing. -/
structure QuietAct (s s' : State) : Prop where
  cycle : Quiet s.cycle s'.cycle
  uses : s'.uses = s.uses
  registered : s'.registered = s.registered

theorem act_cases (s : State) (taken : Act) :
    (∃ socket, act s taken = take socket s) ∨ (∃ e, act s taken = addEvent e s) ∨
      QuietAct s (act s taken) := by
  have hset {f : Event → Event} (hf : ∀ ev, (f ev).instanceBit = ev.instanceBit) (e : EventId) :
      QuietAct s { s with cycle := setEvent e f s.cycle } :=
    ⟨Quiet.setEvent hf e s.cycle, rfl, rfl⟩
  have hconnection {f : Connection → Connection}
      (hf : ∀ conn, (f conn).fd = conn.fd ∨ (f conn).fd = -1) (c : ℕ) :
      QuietAct s { s with cycle := setConnection c f s.cycle } :=
    ⟨Quiet.setConnection hf c s.cycle, rfl, rfl⟩
  cases taken with
  | takes socket => exact Or.inl ⟨socket, rfl⟩
  | addEvent e => exact Or.inr (Or.inl ⟨e, rfl⟩)
  | closes c => exact Or.inr (Or.inr ⟨Quiet.close c s.cycle, rfl, rfl⟩)
  | frees c => exact Or.inr (Or.inr ⟨Quiet.free c s.cycle, rfl, rfl⟩)
  | closesFd c =>
      refine Or.inr (Or.inr (hconnection ?_ c))
      exact fun _ => Or.inr rfl
  | asksToClose c =>
      refine Or.inr (Or.inr (hconnection ?_ c))
      exact fun _ => Or.inl rfl
  | delEvent e =>
      refine Or.inr (Or.inr (hset ?_ e))
      exact fun _ => rfl
  | addTimer e timer => exact Or.inr (Or.inr ⟨Quiet.addTimer e timer s.cycle, rfl, rfl⟩)
  | delTimer e => exact Or.inr (Or.inr ⟨Quiet.delTimerIfSet e s.cycle, rfl, rfl⟩)
  | posts e => exact Or.inr (Or.inr ⟨Quiet.addPost e s.cycle, rfl, rfl⟩)
  | reusable c reusable => exact Or.inr (Or.inr ⟨Quiet.reusable c reusable s.cycle, rfl, rfl⟩)
  | setsEvent e ev =>
      refine Or.inr (Or.inr (hset ?_ e))
      exact fun _ => rfl
  | setsConnection c conn =>
      refine Or.inr (Or.inr (hconnection ?_ c))
      exact fun _ => Or.inl rfl

theorem lawful_act (hlawful : Lawful s) (taken : Act) : Lawful (act s taken) := by
  rcases act_cases s taken with ⟨socket, htake⟩ | ⟨e, hadd⟩ | hquiet
  · rw [htake]
    exact lawful_take hlawful socket
  · rw [hadd]
    exact lawful_addEvent hlawful e
  · exact hlawful.quiet hquiet.cycle hquiet.uses hquiet.registered

theorem lawful_runActs (hlawful : Lawful s) (acts : List Act) : Lawful (runActs acts s) := by
  induction acts generalizing s with
  | nil => exact hlawful
  | cons taken acts ih => exact ih (lawful_act hlawful taken)

theorem take_frame (socket : ℤ) (s : State) :
    (take socket s).registered = s.registered ∧ (take socket s).cycle.filesN = s.cycle.filesN := by
  rw [take]
  split
  · exact ⟨rfl, rfl⟩
  · split <;> exact ⟨rfl, rfl⟩

/-- What was registered stays known. -/
theorem mem_registered_act (hp : p ∈ s.registered) (taken : Act) :
    p ∈ (act s taken).registered := by
  rcases act_cases s taken with ⟨socket, htake⟩ | ⟨e, hadd⟩ | hquiet
  · rw [htake, (take_frame socket s).1]
    exact hp
  · rw [hadd, addEvent]
    split
    · exact List.mem_cons_of_mem _ hp
    · exact hp
  · rw [hquiet.registered]
    exact hp

theorem mem_registered_runActs (hp : p ∈ s.registered) (acts : List Act) :
    p ∈ (runActs acts s).registered := by
  induction acts generalizing s with
  | nil => exact hp
  | cons taken acts ih => exact ih (mem_registered_act hp taken)

theorem runActs_append (first second : List Act) (s : State) :
    runActs (first ++ second) s = runActs second (runActs first s) :=
  List.foldl_append

theorem runActs_filesN (acts : List Act) (s : State) :
    (runActs acts s).cycle.filesN = s.cycle.filesN := by
  induction acts generalizing s with
  | nil => rfl
  | cons taken acts ih =>
      refine (ih (act s taken)).trans ?_
      rcases act_cases s taken with ⟨socket, htake⟩ | ⟨e, hadd⟩ | hquiet
      · rw [htake, (take_frame socket s).2]
      · rw [hadd, addEvent]
        split <;> rfl
      · exact hquiet.cycle.filesN

/-! ## `night_get_connection` is a sequence of actions -/

section Get

variable {handler : ℕ → Cycle → Option Cycle}

/-- Whatever the handlers of the drained connections do are actions. -/
def HandlersAct (handler : ℕ → Cycle → Option Cycle) : Prop :=
  ∀ c s cycle, handler c s.cycle = some cycle → ∃ acts, (runActs acts s).cycle = cycle

variable (hhandlers : HandlersAct handler)

include hhandlers

/-- A connection is asked to close. -/
theorem handler_acts {c : ℕ} {cycle : Cycle}
    (hhandler : handler c (setConnection c (fun conn => { conn with close := true }) s.cycle) =
      some cycle) : ∃ acts, (runActs acts s).cycle = cycle := by
  obtain ⟨acts, hacts⟩ := hhandlers c (act s (.asksToClose c)) cycle hhandler
  exact ⟨.asksToClose c :: acts, hacts⟩

theorem drainLoop_acts (turns : ℕ) {last : Option ℕ} {drained : Option ℕ × Cycle}
    (hloop : drainLoop handler turns last s.cycle = some drained) :
    ∃ acts, (runActs acts s).cycle = drained.2 := by
  induction turns generalizing s last with
  | zero =>
      cases hloop
      exact ⟨[], rfl⟩
  | succ turns ih =>
      rw [drainLoop] at hloop
      split at hloop
      · cases hloop
        exact ⟨[], rfl⟩
      · rename_i c _
        obtain ⟨cycle, hhandler, hrest⟩ := Option.bind_eq_some_iff.mp hloop
        obtain ⟨acts, rfl⟩ := handler_acts hhandlers hhandler
        obtain ⟨acts', hacts'⟩ := ih hrest
        refine ⟨acts ++ acts', ?_⟩
        rw [runActs_append]
        exact hacts'
      · cases hloop

theorem nightDrainConnections_acts {cycle : Cycle}
    (hdrain : nightDrainConnections handler s.cycle = some cycle) :
    ∃ acts, (runActs acts s).cycle = cycle := by
  rw [nightDrainConnections] at hdrain
  split at hdrain
  · cases hdrain
    exact ⟨[], rfl⟩
  · obtain ⟨drained, hloop, hrest⟩ := Option.bind_eq_some_iff.mp hdrain
    obtain ⟨acts, hacts⟩ := drainLoop_acts hhandlers _ hloop
    obtain ⟨last, cycle'⟩ := drained
    cases hacts
    cases last with
    | none =>
        cases hrest
        exact ⟨acts, rfl⟩
    | some c =>
        dsimp only at hrest
        split at hrest
        · obtain ⟨acts', hacts'⟩ := handler_acts hhandlers hrest
          refine ⟨acts ++ acts', ?_⟩
          rw [runActs_append]
          exact hacts'
        · cases hrest
          exact ⟨acts, rfl⟩

/-- So a run of actions does what the whole function does. -/
theorem nightGetConnection_acts {socket : ℤ} {got : Option ℕ × Cycle}
    (hget : nightGetConnection handler socket s.cycle = some got) :
    ∃ acts, (runActs acts s).cycle = got.2 := by
  rw [nightGetConnection] at hget
  split at hget
  · cases hget
    exact ⟨[], rfl⟩
  · rename_i hfiles
    obtain ⟨cycle, hdrain, hrest⟩ := Option.bind_eq_some_iff.mp hget
    obtain ⟨acts, hacts⟩ := nightDrainConnections_acts hhandlers hdrain
    cases hacts
    refine ⟨acts ++ [.takes socket], ?_⟩
    rw [← runActs_filesN acts s] at hfiles
    rw [runActs_append]
    change (take socket (runActs acts s)).cycle = got.2
    rw [take, if_neg hfiles]
    cases hfree : (runActs acts s).cycle.freeConnections with
    | none =>
        rw [hfree] at hrest
        obtain rfl := Option.some.inj hrest
        rfl
    | some c =>
        rw [hfree] at hrest
        obtain rfl := Option.some.inj hrest
        rfl

end Get

/-! ## One look at an event -/

/-- The law holds, and what was registered before still is. -/
structure Follows (s s' : State) : Prop where
  lawful : Lawful s'
  registered : ∀ p ∈ s.registered, p ∈ s'.registered

theorem Follows.refl (hlawful : Lawful s) : Follows s s :=
  ⟨hlawful, fun _ hp => hp⟩

theorem Follows.trans {s₁ s₂ s₃ : State} (hleft : Follows s₁ s₂) (hright : Follows s₂ s₃) :
    Follows s₁ s₃ :=
  ⟨hright.lawful, fun p hp => hright.registered p (hleft.registered p hp)⟩

theorem follows_runActs (hlawful : Lawful s) (acts : List Act) : Follows s (runActs acts s) :=
  ⟨lawful_runActs hlawful acts, fun _ hp => mem_registered_runActs hp acts⟩

/-- Marking an event takes no slot and registers nothing. -/
structure Marks (mark : State → State) (s : State) : Prop where
  lawful : Lawful (mark s)
  uses : (mark s).uses = s.uses
  registered : (mark s).registered = s.registered

theorem marks_markRead (hlawful : Lawful s) (revents : Mask) (e : EventId) :
    Marks (markRead revents e) s where
  lawful := hlawful.quiet
    (Quiet.setEvent (f := fun ev => { ev with ready := true }) (fun _ => rfl) e s.cycle) rfl rfl
  uses := rfl
  registered := rfl

theorem marks_markWrite (hlawful : Lawful s) (e : EventId) : Marks (markWrite e) s where
  lawful := hlawful.quiet
    (Quiet.setEvent (f := fun ev => { ev with ready := true }) (fun _ => rfl) e s.cycle) rfl rfl
  uses := rfl
  registered := rfl

theorem follows_addPostEvent (hlawful : Lawful s) (accept : Bool) (e : EventId) :
    Follows s (addPostEvent accept e s) := by
  rw [addPostEvent]
  split
  · exact ⟨hlawful.quiet (Quiet.addPost e s.cycle) rfl rfl, fun _ hp => hp⟩
  split
  · exact Follows.refl hlawful
  · have hset := Quiet.setEvent (f := fun ev => { ev with posted := true }) (fun _ => rfl) e s.cycle
    exact ⟨hlawful.quiet hset rfl rfl, fun _ hp => hp⟩

section Deliver

variable {flags : BitVec 32} {revents bit : Mask} {mark : State → State} {t t' : Turn}

theorem deliver_follows (hmark : Marks mark t.state)
    (hlawful : Lawful t.state)
    (hdeliver : deliver flags revents bit e p mark t = some t') : Follows t.state t'.state := by
  have hmarked : Follows t.state (mark t.state) := by
    refine ⟨hmark.lawful, ?_⟩
    rw [hmark.registered]
    exact fun _ hp => hp
  rw [deliver] at hdeliver
  split at hdeliver
  · cases hdeliver
    exact Follows.refl hlawful
  split at hdeliver
  · cases hdeliver
  split at hdeliver
  · cases hdeliver
    exact hmarked.trans (follows_addPostEvent hmark.lawful _ e)
  · cases hdeliver
    exact hmarked.trans (follows_runActs hmark.lawful _)

theorem neverStale_append {invoked : List Invoked} {call : Invoked} :
    NeverStale (invoked ++ [call]) ↔ NeverStale invoked ∧ call.registered = call.use := by
  rw [NeverStale, List.forall_mem_append, List.forall_mem_singleton]
  exact Iff.rfl

/-- A look invokes the handler of another use exactly when it does not meet the condition. -/
theorem deliver_neverStale_iff (hmark : Marks mark t.state) (hlawful : Lawful t.state)
    (hp : p ∈ t.state.registered) (hslot : e.slot = p.slot) :
    NeverStale ((deliver flags revents bit e p mark t).getD t).invoked ↔
      NeverStale t.invoked ∧ Meets flags revents bit e p t.state := by
  have hle := hlawful.past p hp
  have hinstance : (t.state.cycle.events e).instanceBit = instanceOf (t.state.uses p.slot) := by
    obtain ⟨slot, write⟩ := e
    cases hslot
    cases write with
    | false => exact hlawful.read p.slot
    | true => exact hlawful.write p.slot ((hlawful.used p hp).trans_le hle)
  have heven : (t.state.cycle.events e).instanceBit = p.instance_ ↔
      Even (t.state.uses p.slot - p.use) := by
    rw [hinstance, hlawful.instance_ p hp]
    exact instanceOf_eq_iff hle
  rw [deliver]
  split
  · rename_i hdue
    have hmeets : Meets flags revents bit e p t.state := fun hnow => absurd hnow hdue
    exact (and_iff_left hmeets).symm
  split
  · rename_i hstale
    have hmeets : Meets flags revents bit e p t.state := by
      intro _ hopen _ hagain
      rcases hstale with hclosed | hdiffers
      · exact hopen hclosed
      · exact hdiffers (heven.mpr hagain.2)
    exact (and_iff_left hmeets).symm
  rename_i hdue hfresh
  obtain ⟨hopen, hsame⟩ := not_or.mp hfresh
  split
  · rename_i hpost
    have hmeets : Meets flags revents bit e p t.state := fun _ _ hnoPost => absurd hnoPost hpost
    exact (and_iff_left hmeets).symm
  · rename_i hnoPost
    have hiff : Meets flags revents bit e p t.state ↔ p.use = t.state.uses p.slot := by
      constructor
      · intro hmeets
        have hnot := hmeets (not_not.mp hdue) hopen (not_not.mp hnoPost)
        by_contra hne
        exact hnot ⟨lt_of_le_of_ne hle hne, heven.mp (not_not.mp hsame)⟩
      · intro heq _ _ _ hagain
        exact absurd heq (Nat.ne_of_lt hagain.1)
    rw [hiff, Option.getD_some, invoke, neverStale_append, hmark.uses, hslot]

end Deliver

/-! ## The loop -/

section Loop

variable {flags : BitVec 32} {event : EpollEvent} {t : Turn}

theorem deliverRead_follows {t' : Turn} (hlawful : Lawful t.state)
    (hdeliver : deliverRead flags event t = some t') : Follows t.state t'.state :=
  deliver_follows (marks_markRead hlawful _ _) hlawful hdeliver

theorem deliverWrite_follows {t' : Turn} (hlawful : Lawful t.state)
    (hdeliver : deliverWrite flags event t = some t') : Follows t.state t'.state :=
  deliver_follows (marks_markWrite hlawful _) hlawful hdeliver

theorem processEvent_follows (hlawful : Lawful t.state) :
    Follows t.state (processEvent flags event t).state := by
  rw [processEvent]
  split
  · exact Follows.refl hlawful
  · rename_i t₁ hread
    have hfollows := deliverRead_follows hlawful hread
    cases hwrite : deliverWrite flags event t₁ with
    | none => exact hfollows
    | some t₂ => exact hfollows.trans (deliverWrite_follows hfollows.lawful hwrite)

theorem processEvent_neverStale_iff (hlawful : Lawful t.state)
    (hdata : event.data ∈ t.state.registered) :
    NeverStale (processEvent flags event t).invoked ↔
      NeverStale t.invoked ∧ EventMeets flags event t := by
  have hreadIff : NeverStale ((deliverRead flags event t).getD t).invoked ↔ _ :=
    deliver_neverStale_iff (marks_markRead hlawful _ _) hlawful hdata rfl
  rw [processEvent]
  cases hread : deliverRead flags event t with
  | none =>
      rw [hread, Option.getD_none] at hreadIff
      constructor
      · intro hnever
        refine ⟨hnever, (hreadIff.mp hnever).2, ?_⟩
        intro t₁ hsome
        rw [hread] at hsome
        cases hsome
      · exact And.left
  | some t₁ =>
      rw [hread, Option.getD_some] at hreadIff
      have hfollows := deliverRead_follows hlawful hread
      have hwriteIff : NeverStale ((deliverWrite flags event t₁).getD t₁).invoked ↔ _ :=
        deliver_neverStale_iff (marks_markWrite hfollows.lawful _) hfollows.lawful
          (hfollows.registered _ hdata) rfl
      dsimp only
      rw [hwriteIff, hreadIff, and_assoc]
      apply and_congr_right
      intro _
      constructor
      · rintro ⟨hmeetsRead, hmeetsWrite⟩
        refine ⟨hmeetsRead, ?_⟩
        intro t' hsome
        rw [hread] at hsome
        cases hsome
        exact hmeetsWrite
      · intro hmeets
        exact ⟨hmeets.read, hmeets.write t₁ hread⟩

theorem processBatch_follows (hlawful : Lawful t.state) (batch : List EpollEvent) :
    Follows t.state (processBatch flags batch t).state := by
  induction batch generalizing t with
  | nil => exact Follows.refl hlawful
  | cons event batch ih =>
      have hfollows : Follows t.state (processEvent flags event t).state :=
        processEvent_follows hlawful
      exact hfollows.trans (ih hfollows.lawful)

theorem processBatch_neverStale_iff (hlawful : Lawful t.state) {batch : List EpollEvent}
    (hdata : ∀ event ∈ batch, event.data ∈ t.state.registered) :
    NeverStale (processBatch flags batch t).invoked ↔
      NeverStale t.invoked ∧ AllMeet flags batch t := by
  induction batch generalizing t with
  | nil => exact (and_iff_left trivial).symm
  | cons event batch ih =>
      obtain ⟨hevent, hrest⟩ := List.forall_mem_cons.mp hdata
      have hfollows : Follows t.state (processEvent flags event t).state :=
        processEvent_follows hlawful
      rw [processBatch, ih hfollows.lawful fun event' hin =>
          hfollows.registered _ (hrest event' hin),
        processEvent_neverStale_iff hlawful hevent, and_assoc]
      exact Iff.rfl

theorem nightEpollProcessEvents_follows (t : Turn) (hlawful : Lawful t.state) (timer : ℤ)
    (waited : Option (List EpollEvent)) :
    Follows t.state (nightEpollProcessEvents timer flags waited t).2.state := by
  match waited with
  | none => exact Follows.refl hlawful
  | some [] => exact Follows.refl hlawful
  | some (_ :: _) => exact processBatch_follows hlawful _

end Loop

/-! ## The worker -/

theorem lawful_step (hlawful : Lawful s) {label : Label} (hstep : step s label = some s') :
    Lawful s' := by
  cases label with
  | act taken =>
      cases hstep
      exact lawful_act hlawful taken
  | process timer flags waited handlers =>
      rw [step] at hstep
      split at hstep
      · cases hstep
        have hfollows : Follows s
            (nightEpollProcessEvents timer flags waited ⟨s, handlers, []⟩).2.state :=
          nightEpollProcessEvents_follows ⟨s, handlers, []⟩ hlawful timer waited
        exact hfollows.lawful
      · cases hstep

theorem lawful_of_reachable {connectionN filesN : ℕ} {currentMsec : ℤ}
    (hreachable : Reachable connectionN filesN currentMsec s) : Lawful s :=
  hreachable.invariant (lawful_start connectionN filesN currentMsec)
    fun _ _ _ hlawful _ hstep => lawful_step hlawful hstep

/-- In every state that the worker reaches, and whatever its handlers do, the loop invokes no
handler for an event of an earlier use exactly when every look of the loop meets the
condition. -/
theorem processEvents_neverStale_iff {connectionN filesN : ℕ} {currentMsec : ℤ}
    (hreachable : Reachable connectionN filesN currentMsec s) (timer : ℤ) (flags : BitVec 32)
    (batch : List EpollEvent) (hreturned : Returned s (some batch))
    (handlers : List (List Act)) :
    NeverStale
        (nightEpollProcessEvents timer flags (some batch) ⟨s, handlers, []⟩).2.invoked ↔
      AllMeet flags batch ⟨s, handlers, []⟩ := by
  have hlawful := lawful_of_reachable hreachable
  have hdata := hreturned batch rfl
  have hnone : NeverStale [] := fun call hin => absurd hin List.not_mem_nil
  have hiff : NeverStale (processBatch flags batch ⟨s, handlers, []⟩).invoked ↔ _ :=
    processBatch_neverStale_iff hlawful hdata
  rw [and_iff_right hnone] at hiff
  rw [← hiff]
  cases batch with
  | nil => exact Iff.rfl
  | cons event batch => exact Iff.rfl

theorem reachable_runActs {connectionN filesN : ℕ} {currentMsec : ℤ} (acts : List Act)
    (hreachable : Reachable connectionN filesN currentMsec s) :
    Reachable connectionN filesN currentMsec (runActs acts s) := by
  induction acts generalizing s with
  | nil => exact hreachable
  | cons taken acts ih =>
      have hstep : step s (.act taken) = some (act s taken) := rfl
      exact ih (Reached.step hreachable trivial hstep)

/-- Two listening sockets and an idle connection, all with their read events at `epoll`. -/
def listeningTwice : State :=
  runActs [.takes 5, .takes 6, .takes 7, .addEvent (readOf 0), .addEvent (readOf 1),
    .addEvent (readOf 2)] (start 3 16 0)

def readEvents : List EpollEvent :=
  [⟨⟨0, false, 1⟩, EPOLLIN⟩, ⟨⟨1, false, 1⟩, EPOLLIN⟩, ⟨⟨2, false, 1⟩, EPOLLIN⟩]

/-- What `night_event_accept` does when no slot is free: the idle connection is asked to
close, and the new one gets its slot. -/
def acceptsBySlot (socket : ℤ) : List Act :=
  [.asksToClose 2, .closes 2, .takes socket, .addEvent (readOf 2)]

theorem reachable_listeningTwice : Reachable 3 16 0 listeningTwice :=
  reachable_runActs _ Reached.start

theorem processEvents_neverStale_acceptsOnce :
    NeverStale (nightEpollProcessEvents (-1) nightUpdateTime (some readEvents)
        ⟨listeningTwice, [acceptsBySlot 8], []⟩).2.invoked ↔
      AllMeet nightUpdateTime readEvents ⟨listeningTwice, [acceptsBySlot 8], []⟩ :=
  processEvents_neverStale_iff reachable_listeningTwice (-1) nightUpdateTime readEvents
    (by decide) [acceptsBySlot 8]

/-- Both sockets accept, so the slot is taken twice before its event is looked at. -/
theorem not_processEvents_neverStale_acceptsTwice :
    ¬∀ (connectionN filesN : ℕ) (currentMsec : ℤ) (s : State),
      Reachable connectionN filesN currentMsec s →
      ∀ (timer : ℤ) (flags : BitVec 32) (batch : List EpollEvent), Returned s (some batch) →
      ∀ handlers : List (List Act),
        NeverStale
          (nightEpollProcessEvents timer flags (some batch) ⟨s, handlers, []⟩).2.invoked := by
  intro hnever
  have hrun := hnever 3 16 0 listeningTwice reachable_listeningTwice (-1) nightUpdateTime readEvents
    (by decide) [acceptsBySlot 8, acceptsBySlot 9]
  have hinvoked : (nightEpollProcessEvents (-1) nightUpdateTime (some readEvents)
      ⟨listeningTwice, [acceptsBySlot 8, acceptsBySlot 9], []⟩).2.invoked =
        [⟨readOf 0, 1, 1⟩, ⟨readOf 1, 1, 1⟩, ⟨readOf 2, 1, 3⟩] := by
    decide
  rw [hinvoked] at hrun
  have hstale := hrun ⟨readOf 2, 1, 3⟩ (by decide)
  cases hstale

end Night.ProcessEvents
