import Night.Event.PostedLog
import Night.Lib.Rings

/-!
# `night_event_posted.c`

Events in the three posted queues.  The handlers that `night_event_process_posted` calls may
post and delete events themselves, among them those of the queue it works on.
-/

namespace Night.Posted

open PostedLog Rings

/-! ## The source -/

/-- `night_event_t`, without the `queue` member. -/
structure NightEvent where
  posted : Bool
  ready : Bool
  available : ℤ
  deriving DecidableEq, Repr

/-- The three sentinels, and the `queue` members of the events. -/
inductive Cell (Event : Type*) where
  | head (h : Queue)
  | event (e : Event)
  deriving DecidableEq, Repr

/-- The log is kept for the statements; nothing in the source reads it. -/
structure World (Event : Type*) where
  links : Links (Cell Event)
  events : Event → NightEvent
  log : List (Entry Event)

variable {Event : Type*} [DecidableEq Event]

def nightAddPostEvent (h : Queue) (e : Event) (w : World Event) : World Event :=
  if (w.events e).posted then w
  else
    { links := insertTail (.head h) (.event e) w.links
      events := Function.update w.events e { w.events e with posted := true }
      log := w.log ++ [.post h e] }

def nightDeletePostedEvent (e : Event) (w : World Event) : World Event :=
  { w with
    links := remove (.event e) w.links
    events := Function.update w.events e { w.events e with posted := false } }

/-- What a handler or another caller does with the queues.  Who deletes an event looks at its
flag first, as `night_close_connection` does. -/
inductive Action (Event : Type*) where
  | post (h : Queue) (e : Event)
  | delete (e : Event)

def act (w : World Event) : Action Event → World Event
  | .post h e => nightAddPostEvent h e w
  | .delete e =>
    if (w.events e).posted then
      { nightDeletePostedEvent e w with log := w.log ++ [.delete e] }
    else w

/-- At most `rounds` rounds of the loop, and whether it has come to its end.  What a handler does
may depend on all that was done before; `none` is a handler of something that is no event. -/
def nightEventProcessPosted (handlers : List (Entry Event) → Event → List (Action Event))
    (h : Queue) : ℕ → World Event → Option (World Event × Bool)
  | 0, w => some (w, false)
  | rounds + 1, w =>
    if w.links.prev (.head h) = .head h then some (w, true)
    else
      match w.links.next (.head h) with
      | .head _ => none
      | .event e =>
        let w := { nightDeletePostedEvent e w with log := w.log ++ [.call h e] }
        nightEventProcessPosted handlers h rounds ((handlers w.log e).foldl act w)

/-- The `for` loop of `night_event_move_posted_next`; it takes one of `fuel` for each event. -/
def markReady (links : Links (Cell Event)) :
    ℕ → Cell Event → (Event → NightEvent) → Option (Event → NightEvent)
  | 0, _, _ => none
  | fuel + 1, q, events =>
    if q = .head .next then some events
    else
      match q with
      | .head _ => none
      | .event e =>
        markReady links fuel (links.next q)
          (Function.update events e { events e with ready := true, available := -1 })

def nightEventMovePostedNext (fuel : ℕ) (w : World Event) : Option (World Event) := do
  let events ← markReady w.links fuel (w.links.next (.head .next)) w.events
  return { links := init (.head .next) (add (.head .posted) (.head .next) w.links)
           events
           log := w.log ++ [.move] }

/-- The queues as `night_event_core_process_init` leaves them, with no event posted. -/
def nightEventCoreProcessInit (links : Links (Cell Event)) (events : Event → NightEvent) :
    World Event where
  links := init (.head .posted) (init (.head .accept) (init (.head .next) links))
  events e := { events e with posted := false }
  log := []

inductive Call (Event : Type*) where
  | act (action : Action Event)
  | process (h : Queue) (rounds : ℕ)
  | move

/-- Calls one after the other.  The run stops where `night_event_process_posted` has not yet
returned; the loop of a move has one round for each entry of the log. -/
def run (handlers : List (Entry Event) → Event → List (Action Event)) :
    List (Call Event) → World Event → Option (World Event)
  | [], w => some w
  | .act action :: calls, w => run handlers calls (act w action)
  | .process h rounds :: calls, w =>
    match nightEventProcessPosted handlers h rounds w with
    | none => none
    | some (w, true) => run handlers calls w
    | some (w, false) => some w
  | .move :: calls, w =>
    match nightEventMovePostedNext (w.log.length + 1) w with
    | none => none
    | some w => run handlers calls w

/-! ## What holds -/

/-- The rings hold what the log says, and the flag is set for the events in them. -/
structure Held (w : World Event) : Prop where
  legal : Legal w.log
  rings : ∀ h, Ring w.links (.head h) ((replay w.log h).map .event)
  posted : ∀ e, (w.events e).posted = true ↔ Waits (replay w.log) e

/-- Every event of the queue is marked, and the queue goes to the end of the posted one. -/
structure Moved (w after : World Event) : Prop where
  posted : Ring after.links (.head .posted)
    ((replay w.log .posted ++ replay w.log .next).map .event)
  accept : Ring after.links (.head .accept) ((replay w.log .accept).map .event)
  next : Ring after.links (.head .next) []
  events : ∀ e, after.events e =
    if e ∈ replay w.log .next then { w.events e with ready := true, available := -1 }
    else w.events e

/-- An event that is in no queue goes to the end of one, and one that waits stays where it is. -/
structure Added (w : World Event) (h : Queue) (e : Event) (after : World Event) : Prop where
  posted : (after.events e).posted = true
  waits : (w.events e).posted = true → after = w
  log : (w.events e).posted = false → after.log = w.log ++ [.post h e]
  queue : (w.events e).posted = false →
    Ring after.links (.head h) ((replay w.log h ++ [e]).map .event)
  others : ∀ k, k ≠ h → Ring after.links (.head k) ((replay w.log k).map .event)
  events : ∀ x, x ≠ e → after.events x = w.events x

/-- The event is in no queue any more, and its flag is clear. -/
structure Deleted (w : World Event) (e : Event) (entry : Entry Event) (after : World Event) :
    Prop where
  queues : ∀ h, Ring after.links (.head h) (((replay w.log h).erase e).map .event)
  gone : ∀ h, e ∉ (replay w.log h).erase e
  events : after.events = Function.update w.events e { w.events e with posted := false }
  log : after.log = w.log ++ [entry]

/-- A round of the loop of `night_event_process_posted` takes the first event out of the queue,
clears its flag and then calls its handler; without an event the loop ends. -/
def Round (handlers : List (Entry Event) → Event → List (Action Event)) (h : Queue)
    (w : World Event) : Prop :=
  ∀ rounds, match replay w.log h with
    | [] => nightEventProcessPosted handlers h (rounds + 1) w = some (w, true)
    | e :: _ => ∃ called, Deleted w e (.call h e) called ∧
        nightEventProcessPosted handlers h (rounds + 1) w =
          nightEventProcessPosted handlers h rounds ((handlers called.log e).foldl act called)

/-- However many rounds are made, there are at most so many posts. -/
def PostsAtMost (handlers : List (Entry Event) → Event → List (Action Event)) (h : Queue)
    (w : World Event) (most : ℕ) : Prop :=
  ∀ rounds after done, nightEventProcessPosted handlers h rounds w = some (after, done) →
    after.log.countP Entry.isPost ≤ most

/-- The state of the queues at any moment of a run, and what each call does there. -/
structure Right (handlers : List (Entry Event) → Event → List (Action Event)) (w : World Event) :
    Prop where
  rings : ∀ h, Ring w.links (.head h) ((replay w.log h).map .event)
  /-- The flag says whether the event is in one of the queues, in which it is once. -/
  posted : ∀ e, (replay w.log .posted ++ replay w.log .accept ++ replay w.log .next).count e =
    if (w.events e).posted then 1 else 0
  alternates : ∀ e, Alternates e (w.events e).posted w.log
  inOrder : InOrder w.log
  add : ∀ h e, Added w h e (nightAddPostEvent h e w)
  delete : ∀ e, (w.events e).posted = true → Deleted w e (.delete e) (act w (.delete e))
  round : ∀ h, Round handlers h w
  /-- When the handlers post finitely often, `night_event_process_posted` returns. -/
  returns : ∀ h most, PostsAtMost handlers h w most →
    ∃ rounds after, nightEventProcessPosted handlers h rounds w = some (after, true)
  /-- When `night_event_process_posted` returns, no event is left. -/
  process : ∀ h rounds after, nightEventProcessPosted handlers h rounds w = some (after, true) →
    Ring after.links (.head h) []
  move : ∃ after, nightEventMovePostedNext (w.log.length + 1) w = some after ∧ Moved w after

/-! ## Cells -/

variable {w : World Event} {h k : Queue} {e : Event} {entry : Entry Event}
  {q : Queue → List Event}

omit [DecidableEq Event] in
theorem event_mem {l : List Event} : Cell.event e ∈ Cell.head h :: l.map Cell.event ↔ e ∈ l := by
  simp

omit [DecidableEq Event] in
theorem heads_apart (hapart : Apart q) (hne : k ≠ h) :
    ∀ a ∈ Cell.head k :: (q k).map Cell.event, a ∉ Cell.head h :: (q h).map Cell.event := by
  rintro (k' | e) hk hh
  · have hk' : k' = k := by simpa using hk
    have hh' : k' = h := by simpa using hh
    exact hne (hk'.symm.trans hh')
  · exact hne (hapart.one (event_mem.mp hk) (event_mem.mp hh))

/-! ## One call -/

theorem Held.post (hheld : Held w) : Held (nightAddPostEvent h e w) := by
  rw [nightAddPostEvent]
  split
  · exact hheld
  · next hfree =>
    have hnot : ∀ k, e ∉ replay w.log k := fun k hin => hfree ((hheld.posted e).mpr ⟨k, hin⟩)
    have hcell : ∀ k, Cell.event e ∉ Cell.head k :: (replay w.log k).map Cell.event :=
      fun k hin => hnot k (event_mem.mp hin)
    have hapart := hheld.legal.apart
    refine ⟨hheld.legal.snoc hnot, ?_, ?_⟩
    · intro k
      rw [replay_concat, Entry.enter]
      split
      · next heq =>
        subst heq
        rw [List.map_append]
        exact ring_insertTail (hheld.rings k) (hcell k)
      · next hne =>
        exact (hheld.rings k).insertTail_other (hheld.rings h) (heads_apart hapart hne) (hcell k)
    · intro x
      rw [replay_concat, waits_enter hapart]
      by_cases heq : e = x
      · subst heq
        simp [turn]
      · have hne : x ≠ e := fun hsame => heq hsame.symm
        rw [turn, if_neg heq]
        simp only [Function.update_of_ne hne]
        exact hheld.posted x

theorem turn_of_ends (hends : entry.Ends e) (x : Event) :
    turn x entry = if e = x then some false else none := by
  cases entry with
  | post h e' => exact hends.elim
  | call h e' =>
    obtain rfl : e' = e := hends
    rfl
  | delete e' =>
    obtain rfl : e' = e := hends
    rfl
  | move => exact hends.elim

theorem enter_of_ends (hends : entry.Ends e) (q : Queue → List Event) (k : Queue) :
    entry.enter q k = (q k).erase e := by
  cases entry with
  | post h e' => exact hends.elim
  | call h e' => rw [Entry.enter, show e' = e from hends]
  | delete e' => rw [Entry.enter, show e' = e from hends]
  | move => exact hends.elim

/-- `night_delete_posted_event` for a handler call or for a deletion. -/
theorem Held.ended (hheld : Held w) (hpossible : entry.Possible (replay w.log))
    (hends : entry.Ends e) :
    Held { nightDeletePostedEvent e w with log := w.log ++ [entry] } := by
  have hapart := hheld.legal.apart
  obtain ⟨h, hin⟩ : Waits (replay w.log) e := by
    by_contra hnot
    have hturn : turn e entry = some false := by rw [turn_of_ends hends, if_pos rfl]
    exact absurd ((hpossible.turn hturn).mpr hnot) (by decide)
  refine ⟨hheld.legal.snoc hpossible, ?_, ?_⟩
  · intro k
    rw [replay_concat, enter_of_ends hends]
    by_cases heq : k = h
    · subst heq
      obtain ⟨left, right, hsplit⟩ := List.append_of_mem hin
      have hnodup := hapart.nodup k
      have hring := hheld.rings k
      rw [hsplit] at hnodup
      rw [hsplit, List.map_append, List.map_cons] at hring
      have hleft : e ∉ left := fun hmem =>
        (List.nodup_append.mp hnodup).2.2 e hmem e List.mem_cons_self rfl
      rw [hsplit, List.erase_append_right _ hleft, List.erase_cons_head, List.map_append]
      exact ring_remove hring
    · have hnot : e ∉ replay w.log k := fun hmem => heq (hapart.one hmem hin)
      rw [List.erase_of_not_mem hnot]
      exact (hheld.rings k).remove_other (hheld.rings h) (heads_apart hapart heq)
        (List.mem_map_of_mem hin)
  · intro x
    rw [replay_concat, waits_enter hapart, turn_of_ends hends]
    by_cases heq : e = x
    · subst heq
      simp [nightDeletePostedEvent]
    · have hne : x ≠ e := fun hsame => heq hsame.symm
      rw [if_neg heq]
      simp only [nightDeletePostedEvent, Function.update_of_ne hne]
      exact hheld.posted x

theorem Held.act (hheld : Held w) (action : Action Event) : Held (act w action) := by
  cases action with
  | post h e => exact hheld.post
  | delete e =>
    rw [Posted.act]
    split
    · next hposted => exact hheld.ended ((hheld.posted e).mp hposted) rfl
    · exact hheld

theorem Held.actions (hheld : Held w) (actions : List (Action Event)) :
    Held (actions.foldl Posted.act w) := by
  induction actions generalizing w with
  | nil => exact hheld
  | cons action actions ih => exact ih (hheld.act action)

/-! ## The two loops -/

omit [DecidableEq Event] in
theorem prev_head_iff {links : Links (Cell Event)} {l : List Event}
    (hring : Ring links (.head h) (l.map .event)) : links.prev (.head h) = .head h ↔ l = [] := by
  rw [hring.prev_head]
  rcases List.eq_nil_or_concat l with rfl | ⟨front, last, rfl⟩
  · exact iff_of_true rfl rfl
  · simp

theorem process_held (handlers : List (Entry Event) → Event → List (Action Event)) (h : Queue)
    (rounds : ℕ) (hheld : Held w) :
    ∃ after done, nightEventProcessPosted handlers h rounds w = some (after, done) ∧
      Held after ∧ (done = true → replay after.log h = []) := by
  induction rounds generalizing w with
  | zero => exact ⟨w, false, rfl, hheld, nofun⟩
  | succ rounds ih =>
    have hring := hheld.rings h
    rw [nightEventProcessPosted]
    by_cases hempty : w.links.prev (.head h) = .head h
    · rw [if_pos hempty]
      exact ⟨w, true, rfl, hheld, fun _ => (prev_head_iff hring).mp hempty⟩
    · rw [if_neg hempty]
      obtain ⟨e, rest, hfirst⟩ :=
        List.exists_cons_of_ne_nil fun hnil => hempty ((prev_head_iff hring).mpr hnil)
      have hnext : w.links.next (.head h) = .event e := by
        rw [hring.next_head, hfirst]
        rfl
      rw [hnext]
      have hcalled : Held { nightDeletePostedEvent e w with log := w.log ++ [.call h e] } :=
        hheld.ended ⟨rest, hfirst⟩ rfl
      exact ih (hcalled.actions _)

theorem Held.added (hheld : Held w) (h : Queue) (e : Event) :
    Added w h e (nightAddPostEvent h e w) := by
  by_cases hposted : (w.events e).posted = true
  · have hsame : nightAddPostEvent h e w = w := if_pos hposted
    have habsurd : (w.events e).posted ≠ false := fun hfree => by
      rw [hposted] at hfree
      cases hfree
    rw [hsame]
    exact ⟨hposted, fun _ => rfl, fun hfree => absurd hfree habsurd,
      fun hfree => absurd hfree habsurd, fun k _ => hheld.rings k, fun _ _ => rfl⟩
  · have hafter := hheld.post (h := h) (e := e)
    have hadded : nightAddPostEvent h e w =
        { links := insertTail (.head h) (.event e) w.links
          events := Function.update w.events e { w.events e with posted := true }
          log := w.log ++ [.post h e] } := if_neg hposted
    rw [hadded] at hafter ⊢
    have hrings := hafter.rings
    simp only [replay_concat, Entry.enter] at hrings
    refine ⟨by simp, fun heq => absurd heq hposted, fun _ => rfl, fun _ => ?_, fun k hk => ?_,
      fun x hx => Function.update_of_ne hx _ _⟩
    · have hring := hrings h
      rwa [if_pos rfl] at hring
    · have hring := hrings k
      rwa [if_neg hk] at hring

/-- What `Held.ended` keeps says where the event is not. -/
theorem Held.deleted (hheld : Held w) (hpossible : entry.Possible (replay w.log))
    (hends : entry.Ends e) :
    Deleted w e entry { nightDeletePostedEvent e w with log := w.log ++ [entry] } := by
  have hafter := hheld.ended hpossible hends
  refine ⟨fun h => ?_, fun h hin => ?_, rfl, rfl⟩
  · have hring := hafter.rings h
    rwa [replay_concat, enter_of_ends hends] at hring
  · exact (hheld.legal.apart.nodup h).not_mem_erase hin

theorem Held.round (hheld : Held w)
    (handlers : List (Entry Event) → Event → List (Action Event)) (h : Queue) :
    Round handlers h w := by
  intro rounds
  have hring := hheld.rings h
  cases hqueue : replay w.log h with
  | nil =>
    dsimp only
    rw [nightEventProcessPosted, if_pos ((prev_head_iff hring).mpr hqueue)]
  | cons e rest =>
    have hnext : w.links.next (.head h) = .event e := by
      rw [hring.next_head, hqueue]
      rfl
    have hsome : ¬ w.links.prev (.head h) = .head h := by
      rw [prev_head_iff hring, hqueue]
      exact List.cons_ne_nil _ _
    have hdeleted := @Held.deleted _ _ w e (.call h e) hheld ⟨rest, hqueue⟩ rfl
    refine ⟨_, hdeleted, ?_⟩
    rw [nightEventProcessPosted, if_neg hsome, hnext]

theorem isCall_act (w : World Event) (action : Action Event) :
    w.log.countP Entry.isCall ≤ (act w action).log.countP Entry.isCall := by
  have hmore : ∀ entry, w.log.countP Entry.isCall ≤ (w.log ++ [entry]).countP Entry.isCall := by
    intro entry
    rw [List.countP_append]
    exact Nat.le_add_right _ _
  cases action with
  | post h e =>
    rw [act, nightAddPostEvent]
    split
    · exact le_rfl
    · exact hmore _
  | delete e =>
    rw [act]
    split
    · exact hmore _
    · exact le_rfl

/-- Every round that does not find the queue empty calls a handler. -/
theorem process_calls (handlers : List (Entry Event) → Event → List (Action Event)) (h : Queue)
    (rounds : ℕ) (w : World Event) {after : World Event}
    (hsome : nightEventProcessPosted handlers h rounds w = some (after, false)) :
    w.log.countP Entry.isCall + rounds ≤ after.log.countP Entry.isCall := by
  induction rounds generalizing w with
  | zero =>
    obtain ⟨rfl, -⟩ := Prod.mk.inj (Option.some.inj hsome)
    exact le_rfl
  | succ rounds ih =>
    rw [nightEventProcessPosted] at hsome
    split at hsome
    · cases hsome
    · split at hsome
      · cases hsome
      · next e _ =>
        have hrest := ih _ hsome
        have hactions : ∀ (actions : List (Action Event)) (w : World Event),
            w.log.countP Entry.isCall ≤ (actions.foldl act w).log.countP Entry.isCall := by
          intro actions
          induction actions with
          | nil => exact fun w => le_rfl
          | cons action actions ih => exact fun w => (isCall_act w action).trans (ih _)
        have hcalled := hactions (handlers (w.log ++ [.call h e]) e)
          { nightDeletePostedEvent e w with log := w.log ++ [.call h e] }
        have hone : (w.log ++ [Entry.call h e]).countP Entry.isCall =
            w.log.countP Entry.isCall + 1 := by
          rw [List.countP_append]
          rfl
        dsimp only at hcalled hrest
        rw [hone] at hcalled
        omega

/-- Every call needs a post, so the loop makes no more rounds than there are posts. -/
theorem process_returns (handlers : List (Entry Event) → Event → List (Action Event)) (h : Queue)
    (hheld : Held w) {most : ℕ} (hposts : PostsAtMost handlers h w most) :
    ∃ rounds after, nightEventProcessPosted handlers h rounds w = some (after, true) := by
  obtain ⟨after, done, hsome, hafter, -⟩ := process_held handlers h (most + 1) hheld
  cases done with
  | true => exact ⟨most + 1, after, hsome⟩
  | false =>
    have hcalls := process_calls handlers h (most + 1) w hsome
    have hlegal := hafter.legal.calls_le
    have hmost := hposts _ _ _ hsome
    omega

/-- The loop sets the fields of the events from its cell on. -/
theorem markReady_eq {links : Links (Cell Event)} {left right : List Event}
    (hring : Ring links (.head .next) ((left ++ right).map .event)) {fuel : ℕ}
    (hfuel : right.length < fuel) (events : Event → NightEvent) :
    ∃ marked, markReady links fuel ((right.map .event).headD (.head .next)) events = some marked ∧
      ∀ e, marked e =
        if e ∈ right then { events e with ready := true, available := -1 } else events e := by
  induction right generalizing left fuel events with
  | nil =>
    obtain ⟨fuel, rfl⟩ := Nat.exists_eq_add_one.mpr hfuel
    exact ⟨events, by simp [markReady], by simp⟩
  | cons e right ih =>
    obtain ⟨fuel, rfl⟩ := Nat.exists_eq_add_one.mpr (Nat.zero_lt_of_lt hfuel)
    have hring' : Ring links (.head .next) (((left ++ [e]) ++ right).map .event) := by
      simpa using hring
    have hnext : links.next (.event e) = (right.map .event).headD (.head .next) := by
      rw [List.map_append, List.map_cons] at hring
      exact hring.next_cell
    obtain ⟨marked, hloop, hmarked⟩ := ih hring' (Nat.lt_of_succ_lt_succ hfuel)
      (Function.update events e { events e with ready := true, available := -1 })
    refine ⟨marked, ?_, ?_⟩
    · rw [List.map_cons, List.headD_cons, markReady, if_neg nofun]
      simp only [hnext]
      exact hloop
    · intro x
      rw [hmarked]
      by_cases heq : x = e
      · subst heq
        simp
      · simp [heq]

theorem move_held (hheld : Held w) {fuel : ℕ} (hfuel : (replay w.log .next).length < fuel) :
    ∃ after, nightEventMovePostedNext fuel w = some after ∧ Held after ∧ Moved w after := by
  have hapart := hheld.legal.apart
  obtain ⟨marked, hloop, hmarked⟩ :=
    @markReady_eq _ _ w.links [] (replay w.log .next) (hheld.rings .next) fuel hfuel w.events
  have hadd : Ring (add (.head .posted) (.head .next) w.links) (.head .posted)
      ((replay w.log .posted ++ replay w.log .next).map .event) := by
    rw [List.map_append]
    apply ring_add (hheld.rings .posted) (hheld.rings .next)
    intro a ha b hb heq
    exact heads_apart hapart (show Queue.posted ≠ .next by decide) a ha (heq ▸ hb)
  have hmoved : Moved w
      { links := init (.head .next) (add (.head .posted) (.head .next) w.links)
        events := marked
        log := w.log ++ [.move] } := by
    refine ⟨?_, ?_, ring_init _ _, hmarked⟩
    · apply hadd.init_other
      simp
    · apply Ring.init_other
      · exact (hheld.rings .accept).add_other (hheld.rings .posted) (hheld.rings .next)
          (heads_apart hapart (by decide)) (heads_apart hapart (by decide))
      · simp
  refine ⟨_, ?_, ⟨@Legal.snoc _ _ _ .move hheld.legal trivial, ?_, ?_⟩, hmoved⟩
  · rw [nightEventMovePostedNext, (hheld.rings .next).next_head, hloop]
    rfl
  · intro k
    rw [replay_concat]
    cases k with
    | posted => exact hmoved.posted
    | accept => exact hmoved.accept
    | next => exact hmoved.next
  · intro e
    rw [replay_concat, waits_enter hapart]
    have hposted : (marked e).posted = (w.events e).posted := by
      rw [hmarked]
      split <;> rfl
    simp only [turn, hposted]
    exact hheld.posted e

/-! ## Whole runs -/

/-- Only a post makes the queues longer. -/
theorem length_replay_le (log : List (Entry Event)) :
    (replay log .posted).length + (replay log .accept).length + (replay log .next).length ≤
      log.length := by
  induction log using List.reverseRecOn with
  | nil => exact le_rfl
  | append_singleton log entry ih =>
    have herase : ∀ e, ((replay log .posted).erase e).length +
        ((replay log .accept).erase e).length + ((replay log .next).erase e).length ≤
          (replay log .posted).length + (replay log .accept).length + (replay log .next).length :=
      fun e => Nat.add_le_add (Nat.add_le_add List.length_erase_le List.length_erase_le)
        List.length_erase_le
    rw [List.length_append, List.length_singleton, replay_concat]
    cases entry with
    | post h e => cases h <;> simp [Entry.enter] <;> omega
    | call h e => exact (herase e).trans (Nat.le_succ_of_le ih)
    | delete e => exact (herase e).trans (Nat.le_succ_of_le ih)
    | move => simp [Entry.enter]; omega

theorem length_next_lt (log : List (Entry Event)) :
    (replay log .next).length < log.length + 1 :=
  Nat.lt_succ_of_le ((Nat.le_add_left _ _).trans (length_replay_le log))

/-- The flag counts the places of the event. -/
theorem Held.count (hheld : Held w) (e : Event) :
    (replay w.log .posted ++ replay w.log .accept ++ replay w.log .next).count e =
      if (w.events e).posted then 1 else 0 := by
  have hapart := hheld.legal.apart
  have hcount : ∀ k, (replay w.log k).count e = if e ∈ replay w.log k then 1 else 0 :=
    fun k => (hapart.nodup k).count
  rw [List.count_append, List.count_append, hcount, hcount, hcount]
  by_cases hposted : (w.events e).posted = true
  · obtain ⟨h, hin⟩ := (hheld.posted e).mp hposted
    have hiff : ∀ k, e ∈ replay w.log k ↔ k = h :=
      fun k => ⟨fun hk => hapart.one hk hin, fun heq => heq ▸ hin⟩
    rw [if_pos hposted]
    simp only [hiff]
    cases h <;> rfl
  · have hnot : ∀ k, e ∉ replay w.log k := fun k hk => hposted ((hheld.posted e).mpr ⟨k, hk⟩)
    simp [hnot, hposted]

theorem Held.right (hheld : Held w)
    (handlers : List (Entry Event) → Event → List (Action Event)) : Right handlers w := by
  refine ⟨hheld.rings, hheld.count, fun e => hheld.legal.alternates (hheld.posted e),
    hheld.legal.inOrder, hheld.added, ?_, hheld.round handlers,
    fun h _ hposts => process_returns handlers h hheld hposts, ?_, ?_⟩
  · intro e hposted
    rw [Posted.act, if_pos hposted]
    exact @Held.deleted _ _ w e (.delete e) hheld ((hheld.posted e).mp hposted) rfl
  · intro h rounds after hprocess
    obtain ⟨_, _, hsome, hafter, hdone⟩ := process_held handlers h rounds hheld
    rw [hprocess, Option.some.injEq, Prod.mk.injEq] at hsome
    obtain ⟨rfl, rfl⟩ := hsome
    have hring := hafter.rings h
    rwa [hdone rfl] at hring
  · obtain ⟨after, hsome, -, hmoved⟩ := move_held hheld (length_next_lt w.log)
    exact ⟨after, hsome, hmoved⟩

theorem run_held (handlers : List (Entry Event) → Event → List (Action Event))
    (calls : List (Call Event)) (hheld : Held w) :
    ∃ after, run handlers calls w = some after ∧ Held after := by
  induction calls generalizing w with
  | nil => exact ⟨w, rfl, hheld⟩
  | cons call calls ih =>
    cases call with
    | act action => exact ih (hheld.act action)
    | process h rounds =>
      obtain ⟨after, done, hsome, hafter, -⟩ := process_held handlers h rounds hheld
      rw [run, hsome]
      cases done with
      | true => exact ih hafter
      | false => exact ⟨after, rfl, hafter⟩
    | move =>
      obtain ⟨after, hsome, hafter, -⟩ := move_held hheld (length_next_lt w.log)
      rw [run, hsome]
      exact ih hafter

theorem init_held (links : Links (Cell Event)) (events : Event → NightEvent) :
    Held (nightEventCoreProcessInit links events) := by
  refine ⟨.nil, ?_, ?_⟩
  · intro h
    have hnext : Ring (init (.head .next) links) (Cell.head .next) [] := ring_init _ _
    cases h with
    | posted => exact ring_init _ _
    | accept => exact (ring_init _ _).init_other (by simp)
    | next => exact (hnext.init_other (by simp)).init_other (by simp)
  · intro e
    refine iff_of_false Bool.false_ne_true ?_
    rintro ⟨h, hin⟩
    exact absurd hin List.not_mem_nil

/-- From the initialised queues on, at every moment of every run, with any handlers. -/
theorem queues_right (links : Links (Cell Event)) (events : Event → NightEvent)
    (handlers : List (Entry Event) → Event → List (Action Event)) (calls : List (Call Event)) :
    ∃ w, run handlers calls (nightEventCoreProcessInit links events) = some w ∧
      Right handlers w := by
  obtain ⟨w, hsome, hheld⟩ := run_held handlers calls (init_held links events)
  exact ⟨w, hsome, hheld.right handlers⟩

end Night.Posted
