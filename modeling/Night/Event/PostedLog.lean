import Mathlib.Data.List.Infix
import Mathlib.Data.List.Nodup
import Mathlib.Data.List.Perm.Basic
import Mathlib.Logic.Function.Basic

/-!
# What is posted, in the order of time

A log of posts, handler calls and deletions of events, and of the moves of the next queue.
It says what the queues hold, and a log whose entries were all possible has the order in
which events are run.
-/

namespace Night.PostedLog

/-- `night_posted_events`, `night_posted_accept_events` and `night_posted_next_events`. -/
inductive Queue where
  | posted
  | accept
  | next
  deriving DecidableEq, Repr

inductive Entry (Event : Type*) where
  | post (h : Queue) (e : Event)
  | call (h : Queue) (e : Event)
  | delete (e : Event)
  | move
  deriving DecidableEq, Repr

variable {Event : Type*} [DecidableEq Event]

/-- The queues after one more entry. -/
def Entry.enter (q : Queue → List Event) : Entry Event → Queue → List Event
  | .post h e, k => if k = h then q h ++ [e] else q k
  | .call _ e, k => (q k).erase e
  | .delete e, k => (q k).erase e
  | .move, .posted => q .posted ++ q .next
  | .move, .accept => q .accept
  | .move, .next => []

/-- What the queues hold after a log. -/
def replay (log : List (Entry Event)) : Queue → List Event :=
  log.foldl Entry.enter fun _ => []

/-- A post is made when the event is in no queue, a call takes the first event of the queue, and
a deletion is one of an event in a queue. -/
def Entry.Possible (q : Queue → List Event) : Entry Event → Prop
  | .post _ e => ∀ k, e ∉ q k
  | .call h e => ∃ rest, q h = e :: rest
  | .delete e => ∃ h, e ∈ q h
  | .move => True

inductive Legal : List (Entry Event) → Prop
  | nil : Legal []
  | snoc {log : List (Entry Event)} {entry : Entry Event} (hlog : Legal log)
      (hpossible : entry.Possible (replay log)) : Legal (log ++ [entry])

/-- The handler is called, or the event is deleted. -/
def Entry.Ends (e : Event) : Entry Event → Prop
  | .call _ e' => e' = e
  | .delete e' => e' = e
  | _ => False

/-- The event is in a queue. -/
def Waits (q : Queue → List Event) (e : Event) : Prop := ∃ h, e ∈ q h

def Entry.isPost : Entry Event → Bool
  | .post _ _ => true
  | _ => false

def Entry.isCall : Entry Event → Bool
  | .call _ _ => true
  | _ => false

/-- A post of the event, and what ends it. -/
def turn (e : Event) : Entry Event → Option Bool
  | .post _ e' => if e' = e then some true else none
  | .call _ e' => if e' = e then some false else none
  | .delete e' => if e' = e then some false else none
  | .move => none

/-- Every post of the event is ended once before the next one; the last may be open. -/
def Alternates (e : Event) (waiting : Bool) (log : List (Entry Event)) : Prop :=
  ∃ n, log.filterMap (turn e) =
    (List.replicate n [true, false]).flatten ++ if waiting then [true] else []

/-- Of two events posted to one queue the first is ended when the second is run, if the queue was
not moved away between the posts and is not run itself. -/
def InOrder (log : List (Entry Event)) : Prop :=
  ∀ (A B C D : List (Entry Event)) (x y : Event) (k h : Queue),
    log = A ++ .post k x :: (B ++ .post k y :: (C ++ .call h y :: D)) →
    (∀ entry ∈ C, ¬entry.Ends y) → (.move ∈ B → h ≠ .next) → ∃ entry ∈ B ++ C, entry.Ends x

/-! ## The queues -/

variable {q : Queue → List Event} {entry : Entry Event} {log : List (Entry Event)}
  {e x y : Event} {h k : Queue}

theorem replay_concat (log : List (Entry Event)) (entry : Entry Event) :
    replay (log ++ [entry]) = entry.enter (replay log) := by
  rw [replay, List.foldl_concat, replay]

theorem legal_concat : Legal (log ++ [entry]) ↔ Legal log ∧ entry.Possible (replay log) := by
  constructor
  · intro hlegal
    generalize heq : log ++ [entry] = whole at hlegal
    cases hlegal with
    | nil => simp at heq
    | snoc hlog hpossible =>
      obtain ⟨rfl, hentry⟩ := List.append_inj' heq rfl
      obtain rfl := List.singleton_inj.mp hentry
      exact ⟨hlog, hpossible⟩
  · rintro ⟨hlog, hpossible⟩
    exact hlog.snoc hpossible

theorem Legal.of_append {rest : List (Entry Event)} (hlegal : Legal (log ++ rest)) : Legal log := by
  induction rest using List.reverseRecOn with
  | nil => simpa using hlegal
  | append_singleton rest entry ih =>
    rw [← List.append_assoc, legal_concat] at hlegal
    exact ih hlegal.1

/-- No event is in two queues or twice in one. -/
structure Apart (q : Queue → List Event) : Prop where
  nodup : ∀ h, (q h).Nodup
  one : ∀ {h k e}, e ∈ q h → e ∈ q k → h = k

theorem Apart.enter (hapart : Apart q) (hpossible : entry.Possible q) : Apart (entry.enter q) := by
  have herase : ∀ e, Apart fun k => (q k).erase e := fun e =>
    ⟨fun h => (hapart.nodup h).erase e,
      fun hx hy => hapart.one (List.mem_of_mem_erase hx) (List.mem_of_mem_erase hy)⟩
  cases entry with
  | post h e =>
    have hmem : ∀ {k x}, x ∈ (Entry.post h e).enter q k → x ∈ q k ∨ x = e ∧ k = h := by
      intro k x hx
      rw [Entry.enter] at hx
      split at hx
      · next heq =>
          subst heq
          simpa using hx
      · exact Or.inl hx
    constructor
    · intro k
      rw [Entry.enter]
      split
      · exact (hapart.nodup h).append (List.nodup_singleton e)
          (List.disjoint_singleton.mpr (hpossible h))
      · exact hapart.nodup k
    · intro k k' x hx hx'
      obtain hin | ⟨rfl, rfl⟩ := hmem hx
      · obtain hin' | ⟨rfl, rfl⟩ := hmem hx'
        · exact hapart.one hin hin'
        · exact absurd hin (hpossible k)
      · obtain hin' | ⟨-, rfl⟩ := hmem hx'
        · exact absurd hin' (hpossible k')
        · rfl
  | call h e => exact herase e
  | delete e => exact herase e
  | move =>
    have hdisjoint : List.Disjoint (q .posted) (q .next) := fun x hx hx' =>
      absurd (hapart.one hx hx') (by decide)
    constructor
    · rintro (_ | _ | _)
      · exact (hapart.nodup _).append (hapart.nodup _) hdisjoint
      · exact hapart.nodup _
      · exact List.nodup_nil
    · have haccept : ∀ {x}, x ∈ q .posted ++ q .next → x ∉ q .accept := by
        intro x hx haccept
        obtain hin | hin := List.mem_append.mp hx
        · exact absurd (hapart.one hin haccept) (by decide)
        · exact absurd (hapart.one hin haccept) (by decide)
      rintro (_ | _ | _) (_ | _ | _) x hx hx'
      · rfl
      · exact absurd hx' (haccept hx)
      · exact absurd hx' List.not_mem_nil
      · exact absurd hx (haccept hx')
      · rfl
      · exact absurd hx' List.not_mem_nil
      · exact absurd hx List.not_mem_nil
      · exact absurd hx List.not_mem_nil
      · rfl

theorem Legal.apart (hlegal : Legal log) : Apart (replay log) := by
  induction hlegal with
  | nil => exact ⟨fun _ => List.nodup_nil, fun hx => absurd hx List.not_mem_nil⟩
  | snoc hlog hpossible ih =>
    rw [replay_concat]
    exact ih.enter hpossible

/-! ## Posts and their ends -/

theorem waits_enter (hapart : Apart q) (e : Event) :
    Waits (entry.enter q) e ↔
      match turn e entry with
      | some posted => posted = true
      | none => Waits q e := by
  have herase : ∀ e', (∃ h, e ∈ (q h).erase e') ↔ e ≠ e' ∧ Waits q e := by
    intro e'
    simp only [(hapart.nodup _).mem_erase_iff, exists_and_left, Waits]
  cases entry with
  | post h e' =>
    by_cases heq : e' = e
    · subst heq
      rw [turn, if_pos rfl]
      exact iff_of_true ⟨h, by simp [Entry.enter]⟩ rfl
    · have hne : e ≠ e' := fun hsame => heq hsame.symm
      rw [turn, if_neg heq]
      apply exists_congr
      intro k
      rw [Entry.enter]
      split
      · next hk => simp [hk, hne]
      · rfl
  | call h e' =>
    rw [turn, Waits]
    simp only [Entry.enter, herase]
    by_cases heq : e' = e
    · simp [heq]
    · simp [heq, Ne.symm heq]
  | delete e' =>
    rw [turn, Waits]
    simp only [Entry.enter, herase]
    by_cases heq : e' = e
    · simp [heq]
    · simp [heq, Ne.symm heq]
  | move =>
    rw [turn]
    constructor
    · rintro ⟨_ | _ | _, hin⟩
      · obtain hin | hin := List.mem_append.mp hin
        · exact ⟨_, hin⟩
        · exact ⟨_, hin⟩
      · exact ⟨_, hin⟩
      · exact absurd hin List.not_mem_nil
    · rintro ⟨_ | _ | _, hin⟩
      · exact ⟨.posted, List.mem_append_left _ hin⟩
      · exact ⟨.accept, hin⟩
      · exact ⟨.posted, List.mem_append_right _ hin⟩

/-- A post is possible when the event does not wait, its end when it does. -/
theorem Entry.Possible.turn (hpossible : entry.Possible q) {posted : Bool}
    (hturn : turn e entry = some posted) : posted = true ↔ ¬Waits q e := by
  cases entry with
  | post h e' =>
    obtain ⟨rfl, rfl⟩ : e' = e ∧ posted = true := by
      simpa [PostedLog.turn, eq_comm] using hturn
    exact iff_of_true rfl fun ⟨k, hin⟩ => hpossible k hin
  | call h e' =>
    obtain ⟨rfl, rfl⟩ : e' = e ∧ posted = false := by
      simpa [PostedLog.turn, eq_comm] using hturn
    obtain ⟨rest, hrest⟩ := hpossible
    exact iff_of_false (by decide) fun hnot => hnot ⟨h, by simp [hrest]⟩
  | delete e' =>
    obtain ⟨rfl, rfl⟩ : e' = e ∧ posted = false := by
      simpa [PostedLog.turn, eq_comm] using hturn
    exact iff_of_false (by decide) fun hnot => hnot hpossible
  | move => simp [PostedLog.turn] at hturn

theorem Legal.alternates (hlegal : Legal log) {waiting : Bool}
    (hwaiting : waiting = true ↔ Waits (replay log) e) : Alternates e waiting log := by
  induction hlegal generalizing waiting with
  | nil =>
    have hnot : ¬Waits (replay ([] : List (Entry Event))) e := fun ⟨_, hin⟩ =>
      absurd hin List.not_mem_nil
    refine ⟨0, ?_⟩
    rw [if_neg (fun h => hnot (hwaiting.mp h))]
    rfl
  | @snoc log entry hlog hpossible ih =>
    rw [replay_concat, waits_enter hlog.apart] at hwaiting
    rw [Alternates, List.filterMap_append]
    cases hturn : turn e entry with
    | none =>
      rw [hturn] at hwaiting
      obtain ⟨n, hn⟩ := ih hwaiting
      exact ⟨n, by rw [hn]; simp [hturn]⟩
    | some posted =>
      rw [hturn] at hwaiting
      obtain rfl : waiting = posted := Bool.eq_iff_iff.mpr hwaiting
      have hbefore := hpossible.turn hturn
      cases waiting with
      | true =>
        obtain ⟨n, hn⟩ := @ih false (iff_of_false (by decide) (hbefore.mp rfl))
        exact ⟨n, by rw [hn]; simp [hturn]⟩
      | false =>
        obtain ⟨n, hn⟩ := @ih true (iff_of_true rfl (by simpa using hbefore))
        refine ⟨n + 1, ?_⟩
        rw [hn, List.replicate_succ']
        simp [hturn]

/-- Every event in a queue and every call has a post of its own. -/
theorem Legal.calls_le (hlegal : Legal log) :
    (replay log .posted).length + (replay log .accept).length + (replay log .next).length +
      log.countP Entry.isCall ≤ log.countP Entry.isPost := by
  induction hlegal with
  | nil => exact le_rfl
  | @snoc log entry hlog hpossible ih =>
    have hshorter : ∀ k e, ((replay log k).erase e).length ≤ (replay log k).length :=
      fun k e => List.length_erase_le
    rw [List.countP_append, List.countP_append, replay_concat]
    cases entry with
    | post h e => cases h <;> simp [Entry.enter, Entry.isCall, Entry.isPost] <;> omega
    | call h e =>
      obtain ⟨rest, hrest⟩ := hpossible
      have hlength : ((replay log h).erase e).length + 1 = (replay log h).length := by
        rw [hrest, List.erase_cons_head, List.length_cons]
      have hposted := hshorter .posted e
      have haccept := hshorter .accept e
      have hnext := hshorter .next e
      cases h <;> simp [Entry.enter, Entry.isCall, Entry.isPost] <;> omega
    | delete e =>
      have hposted := hshorter .posted e
      have haccept := hshorter .accept e
      have hnext := hshorter .next e
      simp [Entry.enter, Entry.isCall, Entry.isPost]
      omega
    | move =>
      simp [Entry.enter, Entry.isCall, Entry.isPost]
      omega

/-! ## The order -/

/-- `x` stands before `y` in a queue. -/
def Before (q : Queue → List Event) (x y : Event) : Prop := ∃ k, [x, y].Sublist (q k)

theorem before_enter (hx : ¬entry.Ends x) (hy : ¬entry.Ends y) (hbefore : Before q x y) :
    Before (entry.enter q) x y := by
  obtain ⟨k, hsub⟩ := hbefore
  have herase : ∀ e, e ≠ x → e ≠ y → [x, y].Sublist ((q k).erase e) := by
    intro e hex hey
    have herased := hsub.erase e
    rwa [List.erase_of_not_mem (by simp [hex, hey])] at herased
  cases entry with
  | post h e =>
    refine ⟨k, ?_⟩
    rw [Entry.enter]
    split
    · next hk => exact (hk ▸ hsub).trans (List.sublist_append_left _ _)
    · exact hsub
  | call h e => exact ⟨k, herase e hx hy⟩
  | delete e => exact ⟨k, herase e hx hy⟩
  | move =>
    cases k with
    | posted => exact ⟨.posted, hsub.trans (List.sublist_append_left _ _)⟩
    | accept => exact ⟨.accept, hsub⟩
    | next => exact ⟨.posted, hsub.trans (List.sublist_append_right _ _)⟩

/-- An event stays in its queue until it ends; a move may take it along. -/
theorem stays (hx : ¬entry.Ends x) (hin : x ∈ q k) :
    x ∈ entry.enter q k ∨ entry = .move ∧ k = .next ∧ x ∈ entry.enter q .posted := by
  cases entry with
  | post h e =>
    left
    rw [Entry.enter]
    split
    · next hk => exact List.mem_append_left _ (hk ▸ hin)
    · exact hin
  | call h e => exact Or.inl ((List.mem_erase_of_ne (Ne.symm hx)).mpr hin)
  | delete e => exact Or.inl ((List.mem_erase_of_ne (Ne.symm hx)).mpr hin)
  | move =>
    cases k with
    | posted => exact Or.inl (List.mem_append_left _ hin)
    | accept => exact Or.inl hin
    | next => exact Or.inr ⟨rfl, rfl, List.mem_append_right _ hin⟩

theorem stays_run {rest : List (Entry Event)} (hx : ∀ entry ∈ rest, ¬entry.Ends x)
    (hin : x ∈ replay log k) :
    x ∈ replay (log ++ rest) k ∨ .move ∈ rest ∧ k = .next ∧ x ∈ replay (log ++ rest) .posted := by
  induction rest using List.reverseRecOn with
  | nil => exact Or.inl (by simpa using hin)
  | append_singleton rest entry ih =>
    have hentry : ¬entry.Ends x := hx entry (by simp)
    rw [← List.append_assoc, replay_concat]
    obtain hstill | ⟨hmove, hk, hposted⟩ := ih fun entry hmem => hx entry (by simp [hmem])
    · obtain hnow | ⟨rfl, hk, hposted⟩ := stays hentry hstill
      · exact Or.inl hnow
      · exact Or.inr ⟨by simp, hk, hposted⟩
    · obtain hnow | ⟨-, hnext, -⟩ := stays hentry hposted
      · exact Or.inr ⟨by simp [hmove], hk, hnow⟩
      · exact absurd hnext (by decide)

theorem before_run {rest : List (Entry Event)} (hx : ∀ entry ∈ rest, ¬entry.Ends x)
    (hy : ∀ entry ∈ rest, ¬entry.Ends y) (hbefore : Before (replay log) x y) :
    Before (replay (log ++ rest)) x y := by
  induction rest using List.reverseRecOn with
  | nil => simpa using hbefore
  | append_singleton rest entry ih =>
    rw [← List.append_assoc, replay_concat]
    apply before_enter (hx entry (by simp)) (hy entry (by simp))
    exact ih (fun entry hmem => hx entry (by simp [hmem])) fun entry hmem =>
      hy entry (by simp [hmem])

/-- An event that was moved away is before those that wait for the next move. -/
theorem moved_run {rest : List (Entry Event)} (hx : ∀ entry ∈ rest, ¬entry.Ends x)
    (hy : ∀ entry ∈ rest, ¬entry.Ends y) (hposted : x ∈ replay log .posted)
    (hnext : y ∈ replay log .next) :
    Before (replay (log ++ rest)) x y ∨ y ∈ replay (log ++ rest) .next := by
  have hmoved : Before (replay (log ++ rest)) x y ∨
      x ∈ replay (log ++ rest) .posted ∧ y ∈ replay (log ++ rest) .next := by
    induction rest using List.reverseRecOn with
    | nil => exact Or.inr (by simpa using ⟨hposted, hnext⟩)
    | append_singleton rest entry ih =>
      have hentryX : ¬entry.Ends x := hx entry (by simp)
      have hentryY : ¬entry.Ends y := hy entry (by simp)
      rw [← List.append_assoc, replay_concat]
      obtain hbefore | ⟨hinX, hinY⟩ := ih (fun entry hmem => hx entry (by simp [hmem]))
        fun entry hmem => hy entry (by simp [hmem])
      · exact Or.inl (before_enter hentryX hentryY hbefore)
      · obtain hnowX | ⟨-, hfalse, -⟩ := stays hentryX hinX
        · obtain hnowY | ⟨rfl, -, -⟩ := stays hentryY hinY
          · exact Or.inr ⟨hnowX, hnowY⟩
          · exact Or.inl ⟨.posted, (List.singleton_sublist.mpr hinX).append
              (List.singleton_sublist.mpr hinY)⟩
        · exact absurd hfalse (by decide)
  exact hmoved.imp_right And.right

omit [DecidableEq Event] in
/-- The first event of a queue has none before it. -/
theorem not_before_first (hapart : Apart q) {rest : List Event} (hfirst : q h = y :: rest) :
    ¬Before q x y := by
  rintro ⟨k, hsub⟩
  have hin : y ∈ q k := hsub.subset (by simp)
  obtain rfl : k = h := hapart.one hin (by simp [hfirst])
  have hnodup := hapart.nodup k
  rw [hfirst] at hsub hnodup
  have hrest : [y].Sublist rest := by
    cases hsub with
    | cons _ hsub => exact (List.sublist_cons_self _ _).trans hsub
    | cons_cons _ hsub => exact hsub
  exact (List.nodup_cons.mp hnodup).1 (List.singleton_sublist.mp hrest)

/-- An event is run before one that waits for longer only from the next queue, when the other
was moved away before it was posted. -/
theorem overtakes {B C : List (Entry Event)} (hin : x ∈ replay log k)
    (hlegal : Legal (log ++ B ++ [Entry.post k y] ++ C ++ [Entry.call h y]))
    (hxB : ∀ entry ∈ B, ¬entry.Ends x) (hxC : ∀ entry ∈ C, ¬entry.Ends x)
    (hy : ∀ entry ∈ C, ¬entry.Ends y) : Entry.move ∈ B ∧ h = .next := by
  obtain ⟨hlegalC, rest, hfirst⟩ := legal_concat.mp hlegal
  have hapart := hlegalC.apart
  have hstays := stays_run hxB hin
  generalize log ++ B = before at hstays hapart hfirst
  have hposted : ∀ j, replay (before ++ [Entry.post k y]) j =
      if j = k then replay before k ++ [y] else replay before j := by
    intro j
    rw [replay_concat, Entry.enter]
  have hself : y ∈ replay (before ++ [Entry.post k y]) k := by
    rw [hposted, if_pos rfl]
    exact List.mem_append_right _ (List.mem_singleton.mpr rfl)
  obtain hstill | ⟨hmoved, rfl, hthere⟩ := hstays
  · have hbefore : Before (replay (before ++ [Entry.post k y])) x y := by
      refine ⟨k, ?_⟩
      rw [hposted, if_pos rfl]
      exact (List.singleton_sublist.mpr hstill).append (List.Sublist.refl [y])
    exact absurd (before_run hxC hy hbefore) (not_before_first hapart hfirst)
  · have hother : x ∈ replay (before ++ [Entry.post .next y]) .posted := by
      rw [hposted, if_neg (by decide)]
      exact hthere
    obtain hbefore | hwaits := moved_run hxC hy hother hself
    · exact absurd hbefore (not_before_first hapart hfirst)
    · refine ⟨hmoved, hapart.one ?_ hwaits⟩
      rw [hfirst]
      exact List.mem_cons_self

theorem Legal.inOrder (hlegal : Legal log) : InOrder log := by
  rintro A B C D x y k h rfl hy hmove
  by_contra hnone
  have hxB : ∀ entry ∈ B, ¬entry.Ends x := fun entry hmem hends =>
    hnone ⟨entry, List.mem_append_left _ hmem, hends⟩
  have hxC : ∀ entry ∈ C, ¬entry.Ends x := fun entry hmem hends =>
    hnone ⟨entry, List.mem_append_right _ hmem, hends⟩
  obtain ⟨log, hlog⟩ : ∃ log, log = A ++ [Entry.post k x] := ⟨_, rfl⟩
  have hin : x ∈ replay log k := by
    rw [hlog, replay_concat, Entry.enter, if_pos rfl]
    exact List.mem_append_right _ (List.mem_singleton.mpr rfl)
  have hcalled : Legal (log ++ B ++ [Entry.post k y] ++ C ++ [Entry.call h y]) := by
    apply @Legal.of_append _ _ _ D
    rw [hlog]
    simpa using hlegal
  obtain ⟨hmoved, hnext⟩ := overtakes hin hcalled hxB hxC hy
  exact hmove hmoved hnext

end Night.PostedLog
