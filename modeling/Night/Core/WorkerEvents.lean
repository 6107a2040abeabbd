import Night.Core.Worker
import Night.Event.Epoll
import Night.Event.Posted

/-!
# The events of a worker

What the worker does with its posted events and with the events of its listening sockets is what
`night_event_posted.c` and `night_epoll_module.c` do with events and descriptors.
-/

namespace Night.WorkerEvents

open Night.Connections (Cycle EventId QueueCell readOf setEvent)
open Night.Rings

/-! ## Posted events -/

/-- The worker has the events of the posted queue, and no other queue has one. -/
structure Queued (s : Cycle) (w : Posted.World EventId) (queue : List EventId) : Prop where
  ring : Ring s.postedEvents .head (queue.map .of)
  links : Ring w.links (.head .posted) (queue.map .event)
  flag : ∀ e, (s.events e).posted = (w.events e).posted
  posted : ∀ e, (w.events e).posted = true ↔ e ∈ queue

variable {s s' : Cycle} {w : Posted.World EventId} {queue left right : List EventId} {e : EventId}

theorem setEvent_posted (e : EventId) (posted : Bool) (s : Cycle) (x : EventId) :
    ((setEvent e (fun ev => { ev with posted := posted }) s).events x).posted =
      if x = e then posted else (s.events x).posted := by
  rw [Connections.setEvent_events, apply_ite Connections.Event.posted]

theorem update_posted (events : EventId → Posted.NightEvent) (e : EventId) (posted : Bool)
    (x : EventId) :
    (Function.update events e { events e with posted := posted } x).posted =
      if x = e then posted else (events x).posted := by
  by_cases heq : x = e
  · rw [if_pos heq, heq]
    simp
  · rw [if_neg heq, Function.update_of_ne heq]

/-- When the worker starts no event is posted. -/
theorem queued_start (connectionN filesN : ℕ) (currentMsec : ℤ)
    (links : Links (Posted.Cell EventId)) (events : EventId → Posted.NightEvent) :
    Queued (Connections.nightEventCoreProcessInit connectionN filesN currentMsec)
      (Posted.nightEventCoreProcessInit links events) [] where
  ring := ring_init _ _
  links := ring_init _ _
  flag _ := rfl
  posted _ := iff_of_false Bool.false_ne_true List.not_mem_nil

theorem Queued.add (hqueued : Queued s w queue) (hfree : e ∉ queue) :
    Queued (Connections.nightAddPostEvent e s) (Posted.nightAddPostEvent .posted e w)
      (queue ++ [e]) := by
  have hnot : ¬ (w.events e).posted = true := fun hposted => hfree ((hqueued.posted e).mp hposted)
  have hnot' : ¬ (s.events e).posted = true := by rwa [hqueued.flag]
  rw [Connections.nightAddPostEvent, if_neg hnot', Posted.nightAddPostEvent, if_neg hnot]
  refine ⟨?_, ?_, ?_, ?_⟩
  · rw [List.map_append]
    exact ring_insertTail hqueued.ring (by simpa using hfree)
  · rw [List.map_append]
    exact ring_insertTail hqueued.links (by simpa using hfree)
  · intro x
    rw [setEvent_posted, update_posted]
    split
    · rfl
    · exact hqueued.flag x
  · intro x
    rw [update_posted, List.mem_append, List.mem_singleton]
    split
    · next heq => exact iff_of_true rfl (Or.inr heq)
    · next hne => exact (hqueued.posted x).trans (or_iff_left hne).symm

/-- An event that is posted already stays where it is. -/
theorem Queued.add_again (hqueued : Queued s w queue) (he : e ∈ queue) :
    Connections.nightAddPostEvent e s = s ∧ Posted.nightAddPostEvent .posted e w = w := by
  have hposted := (hqueued.posted e).mpr he
  exact ⟨if_pos ((hqueued.flag e).trans hposted), if_pos hposted⟩

theorem Queued.delete (hqueued : Queued s w (left ++ e :: right)) :
    Queued (Connections.nightDeletePostedEvent e s) (Posted.nightDeletePostedEvent e w)
      (left ++ right) := by
  have hring := hqueued.ring
  have hlinks := hqueued.links
  rw [List.map_append, List.map_cons] at hring hlinks
  have hnodup : (left ++ e :: right).Nodup := by
    have hcells := (List.nodup_cons.mp hqueued.ring.nodup).2
    exact hcells.of_map _
  refine ⟨?_, ?_, ?_, ?_⟩
  · rw [List.map_append]
    exact ring_remove hring
  · rw [List.map_append]
    exact ring_remove hlinks
  · intro x
    rw [Connections.nightDeletePostedEvent, Posted.nightDeletePostedEvent, setEvent_posted,
      update_posted]
    split
    · rfl
    · exact hqueued.flag x
  · intro x
    rw [Posted.nightDeletePostedEvent, update_posted]
    have hposted := hqueued.posted x
    by_cases heq : x = e
    · rw [if_pos heq, heq]
      exact iff_of_false (by decide) (List.nodup_middle.mp hnodup |> List.nodup_cons.mp).1
    · rw [if_neg heq, hposted]
      simp [heq]

/-- Where the worker takes no event any more the loop has come to its end. -/
theorem Queued.ends (hqueued : Queued s w []) (rounds : ℕ) :
    Posted.nightEventProcessPosted (fun _ _ => []) .posted (rounds + 1) w = some (w, true) := by
  rw [Posted.nightEventProcessPosted, if_pos ((Posted.prev_head_iff hqueued.links).mpr rfl)]

/-- An event that is taken by both is the first one of the queue. -/
theorem Queued.takes (hqueued : Queued s w (e :: right)) :
    s.postedEvents.next .head = .of e ∧
      ∃ taken, Queued (Connections.nightDeletePostedEvent e s) taken right ∧
        ∀ rounds, Posted.nightEventProcessPosted (fun _ _ => []) .posted (rounds + 1) w =
          Posted.nightEventProcessPosted (fun _ _ => []) .posted rounds taken := by
  have hdeleted := @Queued.delete _ _ [] right e hqueued
  have hnext : w.links.next (.head .posted) = .event e := hqueued.links.next_head
  have hsome : ¬ w.links.prev (.head .posted) = .head .posted := fun hhead =>
    List.cons_ne_nil e right ((Posted.prev_head_iff hqueued.links).mp hhead)
  refine ⟨hqueued.ring.next_head, { Posted.nightDeletePostedEvent e w with
    log := w.log ++ [.call .posted e] }, ?_, ?_⟩
  · exact ⟨hdeleted.ring, hdeleted.links, hdeleted.flag, hdeleted.posted⟩
  · intro rounds
    rw [Posted.nightEventProcessPosted, if_neg hsome]
    simp only [hnext, List.foldl_nil]

/-- The loop of the worker is that of `night_event_process_posted`, with handlers that post and
delete nothing. -/
theorem processPosted_queued {fuel : ℕ} (hqueued : Queued s w queue)
    (hreturn : Worker.nightEventProcessPosted fuel s = some s') :
    ∃ w', Posted.nightEventProcessPosted (fun _ _ => []) .posted (fuel + 1) w = some (w', true) ∧
      Queued s' w' [] := by
  induction fuel generalizing s w queue with
  | zero =>
    rw [Worker.nightEventProcessPosted] at hreturn
    cases queue with
    | nil =>
      rw [show s.postedEvents.next .head = .head from hqueued.ring.next_head] at hreturn
      cases hreturn
      exact ⟨w, hqueued.ends 0, hqueued⟩
    | cons e right =>
      rw [hqueued.takes.1] at hreturn
      cases hreturn
  | succ fuel ih =>
    rw [Worker.nightEventProcessPosted] at hreturn
    cases queue with
    | nil =>
      rw [show s.postedEvents.next .head = .head from hqueued.ring.next_head] at hreturn
      cases hreturn
      exact ⟨w, hqueued.ends _, hqueued⟩
    | cons e right =>
      obtain ⟨hnext, taken, hqueued', hround⟩ := hqueued.takes
      rw [hnext] at hreturn
      obtain ⟨handled, hhandler, hrest⟩ := Option.bind_eq_some_iff.mp hreturn
      have hsame : handled = Connections.nightDeletePostedEvent e s := by
        rw [Worker.postedHandler] at hhandler
        split at hhandler
        · exact (Option.some.inj hhandler).symm
        · cases hhandler
      rw [hround]
      exact ih (hsame ▸ hqueued') hrest

/-! ## Accept events -/

/-- The slots of listening sockets have descriptors of their own, with their read events. -/
structure Watched (place : ℕ → ℕ) (slots : List ℕ) (s : Cycle) (ds : Epoll.Descriptors) :
    Prop where
  places : ∀ c ∈ slots, ∀ c' ∈ slots, place c = place c' → c = c'
  active : ∀ c ∈ slots, ∃ d, ds (place c) = some d ∧
    d.read.active = (s.events (readOf c)).active

variable {place : ℕ → ℕ} {slots listening : List ℕ} {ds : Epoll.Descriptors} {c : ℕ}

/-- The event of a slot becomes active, or not active, on both sides. -/
theorem Watched.set (hwatched : Watched place slots s ds) (hc : c ∈ slots) {d : Epoll.Descriptor}
    {active : Bool} (hd : d.read.active = active) :
    Watched place slots (setEvent (readOf c) (fun ev => { ev with active := active }) s)
      (Function.update ds (place c) (some d)) where
  places := hwatched.places
  active := by
    intro c' hc'
    by_cases heq : c' = c
    · subst heq
      refine ⟨d, Function.update_self _ _ _, ?_⟩
      simp [setEvent, hd]
    · have hplace : place c' ≠ place c := fun hsame => heq (hwatched.places c' hc' c hc hsame)
      have hread : readOf c' ≠ readOf c := fun hsame => heq (congrArg EventId.slot hsame)
      obtain ⟨d', hd', hactive⟩ := hwatched.active c' hc'
      refine ⟨d', by rw [Function.update_of_ne hplace, hd'], ?_⟩
      rw [hactive]
      simp [setEvent, Function.update_of_ne hread]

/-- A refused descriptor stays as it is. -/
theorem Watched.same (hwatched : Watched place slots s ds) {d : Epoll.Descriptor}
    (hd : ds (place c) = some d) :
    Watched place slots s (Function.update ds (place c) (some d)) := by
  rw [← hd, Function.update_eq_self]
  exact hwatched

theorem addRead_cases (d : Epoll.Descriptor) (flags : Epoll.Mask) :
    (∃ d', Epoll.nightEpollAddEvent d .read Epoll.nightReadEvent flags = (.ok, d') ∧
        d'.read.active = true) ∨
      Epoll.nightEpollAddEvent d .read Epoll.nightReadEvent flags = (.error, d) := by
  rw [Epoll.nightEpollAddEvent]
  split
  · exact Or.inr rfl
  · exact Or.inl ⟨_, rfl, rfl⟩

/-- With what epoll answers the worker enables the accept events as the descriptors are
registered. -/
theorem enableAcceptEvents_watched {added : ℕ → Bool} (hwatched : Watched place slots s ds)
    (hlistening : ∀ c ∈ listening, c ∈ slots) (hnodup : listening.Nodup)
    (hadded : ∀ c ∈ listening, ∀ d, ds (place c) = some d → (added c = true ↔
      (Epoll.nightEpollAddEvent d .read Epoll.nightReadEvent Epoll.EPOLLET).1 = .ok)) :
    ((Worker.nightEnableAcceptEvents added listening s).1 = true ↔
        (Epoll.nightEnableAcceptEvents (listening.map fun c => some (place c)) ds).1 = .ok) ∧
      Watched place slots (Worker.nightEnableAcceptEvents added listening s).2
        (Epoll.nightEnableAcceptEvents (listening.map fun c => some (place c)) ds).2 := by
  induction listening generalizing s ds with
  | nil => exact ⟨iff_of_true rfl rfl, hwatched⟩
  | cons c listening ih =>
    obtain ⟨hc, hrest⟩ := List.forall_mem_cons.mp hlistening
    obtain ⟨hnew, hnodup⟩ := List.nodup_cons.mp hnodup
    obtain ⟨hadd, hadded⟩ := List.forall_mem_cons.mp hadded
    obtain ⟨d, hd, hactive⟩ := hwatched.active c hc
    rw [Worker.nightEnableAcceptEvents, List.map_cons, Epoll.nightEnableAcceptEvents]
    simp only [hd, ← hactive]
    by_cases hread : d.read.active = true
    · rw [if_pos hread, if_pos hread]
      exact ih hwatched hrest hnodup hadded
    · rw [if_neg hread, if_neg hread]
      have hanswer := hadd d hd
      rcases addRead_cases d Epoll.EPOLLET with ⟨d', hok, hactive'⟩ | herror
      · rw [if_pos (hanswer.mpr (by rw [hok])), hok]
        refine ih (hwatched.set hc hactive') hrest hnodup ?_
        intro c' hc' d'' hd''
        have hplace : place c' ≠ place c := fun hsame =>
          hnew (hwatched.places c' (hrest c' hc') c hc hsame ▸ hc')
        rw [Function.update_of_ne hplace] at hd''
        exact hadded c' hc' d'' hd''
      · have hrefused : ¬ added c = true := fun hadd => by
          have hanswer := hanswer.mp hadd
          rw [herror] at hanswer
          cases hanswer
        rw [if_neg hrefused, herror]
        exact ⟨by simp, hwatched.same hd⟩

/-- With `NIGHT_CLOSE_EVENT` the descriptors are not asked. -/
theorem disableAcceptEvents_watched (hwatched : Watched place slots s ds)
    (hlistening : ∀ c ∈ listening, c ∈ slots) :
    (Epoll.nightDisableAcceptEvents (listening.map fun c => some (place c)) ds).1 = .ok ∧
      Watched place slots (Worker.nightDisableAcceptEvents listening s)
        (Epoll.nightDisableAcceptEvents (listening.map fun c => some (place c)) ds).2 := by
  induction listening generalizing s ds with
  | nil => exact ⟨rfl, hwatched⟩
  | cons c listening ih =>
    obtain ⟨hc, hrest⟩ := List.forall_mem_cons.mp hlistening
    obtain ⟨d, hd, hactive⟩ := hwatched.active c hc
    rw [Worker.nightDisableAcceptEvents, List.map_cons, Epoll.nightDisableAcceptEvents]
    simp only [hd, ← hactive]
    by_cases hread : d.read.active = true
    · have hclosed : Epoll.nightEpollDelEvent d .read Epoll.nightReadEvent Epoll.nightCloseEvent =
          (.ok, d.setActive .read false) := rfl
      simp only [hread, Bool.not_true, Bool.false_eq_true, if_false, if_true, hclosed]
      exact ih (hwatched.set hc rfl) hrest
    · simp only [Bool.not_eq_true] at hread
      simp only [hread, Bool.not_false, Bool.false_eq_true, if_false, if_true]
      exact ih hwatched hrest

end Night.WorkerEvents
