import Mathlib.Data.List.Pairwise
import Night.Http.LocationLayout

/-!
# The search for a location

At every node the search goes to the side where the URI belongs.  This is the side where
its location is, unless a name stands behind one of its own extensions: then one of the two
is out of reach.
-/

namespace Night.Locations

open Night.Bytes Night.FileName Night.Queue Night.PrefixOrder

/-! ## One node -/

section Node

variable {base u : List ℤ} {name uri : List Byte} {left right tree : LocationTree}
variable {exact inclusive : Option CoreLocConf} {rv : Code} {locConf : LocConf}

theorem find_left (hname : Proper name)
    (hturn : Below (keys uri) (keys name) ∨ Shorter (keys uri) (keys name)) :
    nightHttpCoreFindStaticLocation (.node left right tree exact inclusive name) uri rv locConf =
      nightHttpCoreFindStaticLocation left uri rv locConf := by
  rw [nightHttpCoreFindStaticLocation.eq_def]
  have hcases := nightFilenameCmp_cases uri hname
  rcases hturn with hbelow | hshort
  · rcases hcases with ⟨_, hneg⟩ | ⟨hback, _⟩ | ⟨hpre | hpre, _⟩
    · simp only [hneg.ne, ne_eq, not_false_eq_true, if_true, if_pos hneg]
    · exact absurd hback hbelow.asymm
    · exact absurd hpre hbelow.not_isPrefix
    · exact absurd hpre hbelow.not_isPrefix'
  · have hlength : uri.length < name.length := by simpa using hshort.length_lt
    rcases hcases with ⟨hbelow, _⟩ | ⟨hbelow, _⟩ | ⟨_, hzero⟩
    · exact absurd hshort.1 hbelow.not_isPrefix
    · exact absurd hshort.1 hbelow.not_isPrefix'
    · simp only [hzero, ne_eq, not_true_eq_false, if_false, if_neg hlength.asymm,
        if_neg hlength.ne]

theorem find_right (hname : Proper name)
    (hturn : Below (keys name) (keys uri) ∨
      Shorter (keys name) (keys uri) ∧ inclusive = none) :
    nightHttpCoreFindStaticLocation (.node left right tree exact inclusive name) uri rv locConf =
      nightHttpCoreFindStaticLocation right uri rv locConf := by
  rw [nightHttpCoreFindStaticLocation.eq_def]
  have hcases := nightFilenameCmp_cases uri hname
  rcases hturn with hbelow | ⟨hshort, rfl⟩
  · rcases hcases with ⟨hback, _⟩ | ⟨_, hpos⟩ | ⟨hpre | hpre, _⟩
    · exact absurd hback hbelow.asymm
    · simp only [hpos.ne', ne_eq, not_false_eq_true, if_true, if_neg hpos.asymm]
    · exact absurd hpre hbelow.not_isPrefix'
    · exact absurd hpre hbelow.not_isPrefix
  · have hlength : name.length < uri.length := by simpa using hshort.length_lt
    rcases hcases with ⟨hbelow, _⟩ | ⟨hbelow, _⟩ | ⟨_, hzero⟩
    · exact absurd hshort.1 hbelow.not_isPrefix'
    · exact absurd hshort.1 hbelow.not_isPrefix
    · simp only [hzero, ne_eq, not_true_eq_false, if_false, if_pos hlength]

theorem find_inside {lc : CoreLocConf} (hname : Proper name)
    (hshort : Shorter (keys name) (keys uri)) :
    nightHttpCoreFindStaticLocation (.node left right tree exact (some lc) name) uri rv locConf =
      nightHttpCoreFindStaticLocation tree (uri.drop name.length) .again (.location lc) := by
  rw [nightHttpCoreFindStaticLocation.eq_def]
  have hlength : name.length < uri.length := by simpa using hshort.length_lt
  rcases nightFilenameCmp_cases uri hname with ⟨hbelow, _⟩ | ⟨hbelow, _⟩ | ⟨_, hzero⟩
  · exact absurd hshort.1 hbelow.not_isPrefix'
  · exact absurd hshort.1 hbelow.not_isPrefix
  · simp only [hzero, ne_eq, not_true_eq_false, if_false, if_pos hlength]
    rw [Nat.min_eq_right hlength.le]

theorem find_self (hname : Proper name) (heq : keys uri = keys name) :
    nightHttpCoreFindStaticLocation (.node left right tree exact inclusive name) uri rv locConf =
      match exact with
      | some lc => some (.ok, .location lc)
      | none => inclusive.map fun lc => (.again, .location lc) := by
  rw [nightHttpCoreFindStaticLocation.eq_def]
  have hlength : uri.length = name.length := by simpa using congrArg List.length heq
  have hcases := nightFilenameCmp_cases uri hname
  rw [heq] at hcases
  rcases hcases with ⟨hbelow, _⟩ | ⟨hbelow, _⟩ | ⟨_, hzero⟩
  · exact absurd hbelow (not_below_self _)
  · exact absurd hbelow (not_below_self _)
  · cases exact <;> simp only [hzero, ne_eq, not_true_eq_false, if_false, if_pos hlength,
      if_neg (Nat.not_lt.mpr hlength.le)]

/-- Where the search goes at a node, and which location it finds there. -/
theorem find_node_cases {code : Code} {lc : CoreLocConf} (hname : Proper name)
    (hfind : nightHttpCoreFindStaticLocation (.node left right tree exact inclusive name)
      uri rv locConf = some (code, .location lc)) :
    ((Below (keys uri) (keys name) ∨ Shorter (keys uri) (keys name)) ∧
        nightHttpCoreFindStaticLocation left uri rv locConf = some (code, .location lc)) ∨
      ((Below (keys name) (keys uri) ∨ Shorter (keys name) (keys uri) ∧ inclusive = none) ∧
        nightHttpCoreFindStaticLocation right uri rv locConf = some (code, .location lc)) ∨
      (Shorter (keys name) (keys uri) ∧ ∃ lc' ∈ inclusive,
        nightHttpCoreFindStaticLocation tree (uri.drop name.length) .again (.location lc') =
          some (code, .location lc)) ∨
      (keys uri = keys name ∧ (lc ∈ exact ∨ lc ∈ inclusive)) := by
  rcases below_or_shorter (keys uri) (keys name) with hbelow | habove | hshort | hlong | heq
  · rw [find_left hname (Or.inl hbelow)] at hfind
    exact Or.inl ⟨Or.inl hbelow, hfind⟩
  · rw [find_right hname (Or.inl habove)] at hfind
    exact Or.inr (Or.inl ⟨Or.inl habove, hfind⟩)
  · rw [find_left hname (Or.inr hshort)] at hfind
    exact Or.inl ⟨Or.inr hshort, hfind⟩
  · cases inclusive with
    | none =>
        rw [find_right hname (Or.inr ⟨hlong, rfl⟩)] at hfind
        exact Or.inr (Or.inl ⟨Or.inr ⟨hlong, rfl⟩, hfind⟩)
    | some lc' =>
        rw [find_inside hname hlong] at hfind
        exact Or.inr (Or.inr (Or.inl ⟨hlong, lc', rfl, hfind⟩))
  · rw [find_self hname heq] at hfind
    right
    right
    right
    refine ⟨heq, ?_⟩
    cases exact with
    | some lc' =>
        cases hfind
        exact Or.inl rfl
    | none =>
        cases inclusive with
        | some lc' =>
            cases hfind
            exact Or.inr rfl
        | none => cases hfind

end Node

/-! ## The best location of a queue -/

/-- One of the element's locations matches the URI. -/
def Hit (u : List ℤ) (lq : LocationQueue) : Prop :=
  lq.exact.isSome ∧ keys lq.name = u ∨ lq.inclusive.isSome ∧ keys lq.name <+: u

theorem Hit.pre {u : List ℤ} {lq : LocationQueue} (hhit : Hit u lq) : keys lq.name <+: u := by
  rcases hhit with ⟨_, heq⟩ | ⟨_, hpre⟩
  · exact heq ▸ List.prefix_rfl
  · exact hpre

/-- What a search among some elements should find. -/
inductive Best (queue : List LocationQueue) (u : List ℤ) : Option (Code × LocConf) → Prop
  | none (hnone : ∀ lq ∈ queue, ¬ Hit u lq) : Best queue u none
  | exact {lq : LocationQueue} {lc : CoreLocConf} (hlq : lq ∈ queue)
      (hlc : lq.exact = some lc) (heq : keys lq.name = u) :
      Best queue u (some (.ok, .location lc))
  | inclusive {lq : LocationQueue} {lc : CoreLocConf} (hlq : lq ∈ queue)
      (hlc : lq.inclusive = some lc) (hpre : keys lq.name <+: u)
      (hbest : ∀ other ∈ queue, Hit u other →
        (other.exact.isSome → keys other.name ≠ u) ∧ other.name.length ≤ lq.name.length) :
      Best queue u (some (.again, .location lc))

/-- More elements that do not match make no difference. -/
theorem Best.mono {queue queue' : List LocationQueue} {u : List ℤ}
    {best : Option (Code × LocConf)} (hbest : Best queue u best) (hsub : queue ⊆ queue')
    (hother : ∀ lq ∈ queue', lq ∉ queue → ¬ Hit u lq) : Best queue' u best := by
  cases hbest with
  | none hnone =>
      apply Best.none
      intro lq hlq
      by_cases hmem : lq ∈ queue
      · exact hnone lq hmem
      · exact hother lq hlq hmem
  | exact hlq hlc heq => exact Best.exact (hsub hlq) hlc heq
  | inclusive hlq hlc hpre hbest =>
      apply Best.inclusive (hsub hlq) hlc hpre
      intro other hother' hhit
      by_cases hmem : other ∈ queue
      · exact hbest other hmem hhit
      · exact absurd hhit (hother other hother' hmem)

/-- The names in the order in which a prefix stands before its extensions. -/
def Before (one two : LocationQueue) : Prop :=
  Below (keys one.name) (keys two.name) ∨ Shorter (keys one.name) (keys two.name)

theorem Before.ne {one two : LocationQueue} (hbefore : Before one two) :
    keys one.name ≠ keys two.name := by
  intro heq
  rcases hbefore with hbelow | hshort
  · rw [heq] at hbelow
    exact not_below_self _ hbelow
  · exact hshort.2 heq

/-! ## The best location and the sides of a node -/

section Turn

variable {u : List ℤ} {front inside behind : List LocationQueue} {lq e : LocationQueue}
variable {best : Option (Code × LocConf)}

theorem not_hit_after (hturn : Below u (keys lq.name) ∨ Shorter u (keys lq.name))
    (hafter : Before lq e ∨ keys lq.name <+: keys e.name) : ¬ Hit u e := by
  intro hhit
  have hpre := hhit.pre
  rcases hturn with hbelow | hshort
  · rcases hafter with (habove | hlonger) | hlonger
    · exact (hbelow.trans habove).not_isPrefix' hpre
    · exact (hbelow.extend List.prefix_rfl hlonger.1).not_isPrefix' hpre
    · exact (hbelow.extend List.prefix_rfl hlonger).not_isPrefix' hpre
  · have hback : keys e.name <+: keys lq.name := hpre.trans hshort.1
    rcases hafter with (habove | hlonger) | hlonger
    · exact habove.not_isPrefix' hback
    · exact hlonger.not_isPrefix hback
    · exact hshort.not_isPrefix (hlonger.trans hpre)

theorem not_hit_front (hturn : Below (keys lq.name) u ∨ Shorter (keys lq.name) u)
    (hbefore : Before e lq) (hsplit : e.inclusive.isSome → ¬ keys e.name <+: keys lq.name) :
    ¬ Hit u e := by
  rintro (⟨_, rfl⟩ | ⟨hsome, hpre⟩)
  · rcases hbefore with hbelow | hshort
    · rcases hturn with habove | hlonger
      · exact hbelow.asymm habove
      · exact hbelow.not_isPrefix' hlonger.1
    · rcases hturn with habove | hlonger
      · exact habove.not_isPrefix' hshort.1
      · exact hshort.not_isPrefix hlonger.1
  · have hbelow : Below (keys e.name) (keys lq.name) := by
      rcases hbefore with hbelow | hshort
      · exact hbelow
      · exact absurd hshort.1 (hsplit hsome)
    rcases hturn with habove | hlonger
    · exact (hbelow.trans habove).not_isPrefix hpre
    · exact (hbelow.extend List.prefix_rfl hlonger.1).not_isPrefix hpre

/-- What is not in one part is in another one. -/
theorem mem_node {p : LocationQueue → Prop} (hfront : ∀ e ∈ front, p e) (hlq : p lq)
    (hinside : ∀ e ∈ inside, p e) (hbehind : ∀ e ∈ behind, p e) :
    ∀ e ∈ front ++ lq :: (inside ++ behind), p e := by
  intro e he
  simp only [List.mem_append, List.mem_cons] at he
  rcases he with he | rfl | he | he
  · exact hfront e he
  · exact hlq
  · exact hinside e he
  · exact hbehind e he

/-- The relation of the elements of a node to the one in the middle. -/
structure Around (front : List LocationQueue) (lq : LocationQueue)
    (inside behind : List LocationQueue) : Prop extends Split front lq inside behind where
  before : ∀ e ∈ front, Before e lq
  after : ∀ e ∈ inside ++ behind, Before lq e

variable (haround : Around front lq inside behind)
include haround

theorem best_left (hturn : Below u (keys lq.name) ∨ Shorter u (keys lq.name))
    (hbest : Best front u best) : Best (front ++ lq :: (inside ++ behind)) u best := by
  apply hbest.mono (List.subset_append_left _ _)
  apply mem_node
  · exact fun e he hnot => absurd he hnot
  · exact fun _ => not_hit_after hturn (Or.inr List.prefix_rfl)
  · exact fun e he _ => not_hit_after hturn (Or.inl (haround.after e (by simp [he])))
  · exact fun e he _ => not_hit_after hturn (Or.inl (haround.after e (by simp [he])))

theorem best_right
    (hturn : Below (keys lq.name) u ∨ Shorter (keys lq.name) u ∧ lq.inclusive = none)
    (hbest : Best behind u best) : Best (front ++ lq :: (inside ++ behind)) u best := by
  apply hbest.mono (fun e he => by simp [he])
  apply mem_node
  · exact fun e he _ => not_hit_front (hturn.imp_right And.left) (haround.before e he)
      (haround.front_apart e he)
  · intro _ hhit
    rcases hturn with habove | ⟨hlong, hnone⟩
    · exact habove.not_isPrefix hhit.pre
    · rcases hhit with ⟨_, heq⟩ | ⟨hsome, _⟩
      · exact hlong.2 heq
      · simp [hnone] at hsome
  · intro e he _ hhit
    obtain ⟨hsome, hpre⟩ := haround.inside_below e he
    rcases hturn with habove | ⟨_, hnone⟩
    · exact (habove.extend hpre List.prefix_rfl).not_isPrefix hhit.pre
    · simp [hnone] at hsome
  · exact fun e he hnot => absurd he hnot

theorem best_inside {lc : CoreLocConf} (hlong : Shorter (keys lq.name) u)
    (hlc : lq.inclusive = some lc) (hbest : Best inside u best) :
    Best (front ++ lq :: (inside ++ behind)) u
      (some (best.getD (.again, .location lc))) := by
  have hfront : ∀ e ∈ front, ¬ Hit u e := fun e he =>
    not_hit_front (Or.inr hlong) (haround.before e he) (haround.front_apart e he)
  have hbehind : ∀ e ∈ behind, ¬ Hit u e := by
    intro e he hhit
    have hapart := haround.behind_apart (by simp [hlc]) e he
    rcases List.prefix_or_prefix_of_prefix hlong.1 hhit.pre with hpre | hpre
    · exact hapart hpre
    · rcases haround.after e (by simp [he]) with hbelow | hshort
      · exact hbelow.not_isPrefix' hpre
      · exact hshort.not_isPrefix hpre
  have hlqExact : lq.exact.isSome → keys lq.name ≠ u := fun _ => hlong.2
  cases hbest with
  | none hnone =>
      apply Best.inclusive (by simp) hlc hlong.1
      apply mem_node
      · exact fun e he hhit => absurd hhit (hfront e he)
      · exact fun _ => ⟨hlqExact, Nat.le_refl _⟩
      · exact fun e he hhit => absurd hhit (hnone e he)
      · exact fun e he hhit => absurd hhit (hbehind e he)
  | exact he hexact heq => exact Best.exact (by simp [he]) hexact heq
  | @inclusive e _ he hinclusive hpre hbest =>
      apply Best.inclusive (by simp [he]) hinclusive hpre
      apply mem_node
      · exact fun other hother hhit => absurd hhit (hfront other hother)
      · exact fun _ => ⟨hlqExact, by simpa using (haround.inside_below e he).2.length_le⟩
      · exact hbest
      · exact fun other hother hhit => absurd hhit (hbehind other hother)

omit haround in
theorem best_self (hsome : lq.exact.isSome ∨ lq.inclusive.isSome) (heq : keys lq.name = u)
    (hunique : ∀ e ∈ front ++ lq :: (inside ++ behind), keys e.name = u → e = lq) :
    ∃ found, (match lq.exact with
        | some lc => some (.ok, .location lc)
        | none => lq.inclusive.map fun lc => (.again, .location lc)) = some found ∧
      Best (front ++ lq :: (inside ++ behind)) u (some found) := by
  cases hexact : lq.exact with
  | some lc => exact ⟨_, rfl, Best.exact (by simp) hexact heq⟩
  | none =>
      have hinclusive : lq.inclusive.isSome := by simpa [hexact] using hsome
      obtain ⟨lc, hlc⟩ := Option.isSome_iff_exists.mp hinclusive
      refine ⟨(.again, .location lc), by simp [hlc], ?_⟩
      apply Best.inclusive (by simp) hlc (heq ▸ List.prefix_rfl)
      intro other hother hhit
      constructor
      · intro hotherExact hsame
        rw [hunique other hother hsame, hexact] at hotherExact
        cases hotherExact
      · have hle := hhit.pre.length_le
        rw [← heq] at hle
        simpa using hle

end Turn

/-- The search returns the best location of the elements, or what it had before. -/
theorem find_correct {base : List ℤ} {queue : List LocationQueue} {tree : LocationTree}
    (hbuilt : Built base queue tree) (hordered : queue.Pairwise Before)
    (hsome : ∀ lq ∈ queue, lq.exact.isSome ∨ lq.inclusive.isSome) (uri : List Byte)
    (rv : Code) (locConf : LocConf) :
    ∃ best, Best queue (base ++ keys uri) best ∧
      nightHttpCoreFindStaticLocation tree uri rv locConf = some (best.getD (rv, locConf)) := by
  induction hbuilt generalizing uri rv locConf with
  | null base =>
      exact ⟨none, Best.none (by simp), by simp [nightHttpCoreFindStaticLocation]⟩
  | @node base front inside behind lq left right tree name hsplit hname hproper _ _ _ ihLeft
      ihTree ihRight =>
      obtain ⟨hfrontOrder, hrestOrder, hfrontRest⟩ := List.pairwise_append.mp hordered
      obtain ⟨hlqRest, hbelowOrder⟩ := List.pairwise_cons.mp hrestOrder
      obtain ⟨hinsideOrder, hbehindOrder, _⟩ := List.pairwise_append.mp hbelowOrder
      have haround : Around front lq inside behind :=
        { hsplit with
          before := fun e he => hfrontRest e he lq (by simp)
          after := hlqRest }
      rcases below_or_shorter (keys uri) (keys name) with hbelow | habove | hshort | hlong | heq
      · obtain ⟨best, hbest, hfind⟩ := ihLeft hfrontOrder (fun e he => hsome e (by simp [he]))
          uri rv locConf
        refine ⟨best, best_left haround (Or.inl ?_) hbest, ?_⟩
        · rwa [← hname, below_append]
        · rw [find_left hproper (Or.inl hbelow), hfind]
      · obtain ⟨best, hbest, hfind⟩ := ihRight hbehindOrder (fun e he => hsome e (by simp [he]))
          uri rv locConf
        refine ⟨best, best_right haround (Or.inl ?_) hbest, ?_⟩
        · rwa [← hname, below_append]
        · rw [find_right hproper (Or.inl habove), hfind]
      · obtain ⟨best, hbest, hfind⟩ := ihLeft hfrontOrder (fun e he => hsome e (by simp [he]))
          uri rv locConf
        refine ⟨best, best_left haround (Or.inr ?_) hbest, ?_⟩
        · rwa [← hname, shorter_append]
        · rw [find_left hproper (Or.inr hshort), hfind]
      · have hlong' : Shorter (keys lq.name) (base ++ keys uri) := by
          rwa [← hname, shorter_append]
        cases hinclusive : lq.inclusive with
        | none =>
            obtain ⟨best, hbest, hfind⟩ := ihRight hbehindOrder
              (fun e he => hsome e (by simp [he])) uri rv locConf
            refine ⟨best, best_right haround (Or.inr ⟨hlong', hinclusive⟩) hbest, ?_⟩
            rw [find_right hproper (Or.inr ⟨hlong, rfl⟩), hfind]
        | some lc =>
            obtain ⟨best, hbest, hfind⟩ := ihTree hinsideOrder (fun e he => hsome e (by simp [he]))
              (uri.drop name.length) .again (.location lc)
            have hrest : keys lq.name ++ keys (uri.drop name.length) = base ++ keys uri := by
              have hcut : keys name ++ (keys uri).drop (keys name).length = keys uri :=
                List.prefix_iff_eq_append.mp hlong.1
              rw [List.length_map] at hcut
              have hdrop : keys (uri.drop name.length) = (keys uri).drop name.length :=
                List.map_drop
              rw [← hname, List.append_assoc, hdrop, hcut]
            rw [hrest] at hbest
            refine ⟨_, best_inside haround hlong' hinclusive hbest, ?_⟩
            rw [find_inside hproper hlong, hfind]
            rfl
      · have heq' : keys lq.name = base ++ keys uri := by rw [← hname, heq]
        have hunique : ∀ e ∈ front ++ lq :: (inside ++ behind),
            keys e.name = base ++ keys uri → e = lq := by
          rw [← heq']
          apply mem_node
          · exact fun e he hsame => absurd hsame (haround.before e he).ne
          · exact fun _ => rfl
          · exact fun e he hsame => absurd hsame.symm (haround.after e (by simp [he])).ne
          · exact fun e he hsame => absurd hsame.symm (haround.after e (by simp [he])).ne
        obtain ⟨found, hfound, hbest⟩ := best_self (hsome lq (by simp)) heq' hunique
        refine ⟨some found, hbest, ?_⟩
        rw [find_self hproper heq, hfound]
        rfl

/-! ## Names that are out of reach -/

/-- A location that is found is one of the elements' or was there before. -/
theorem find_mem {base : List ℤ} {queue : List LocationQueue} {tree : LocationTree}
    (hbuilt : Built base queue tree) {uri : List Byte} {rv code : Code}
    {locConf : LocConf} {lc : CoreLocConf}
    (hfind : nightHttpCoreFindStaticLocation tree uri rv locConf = some (code, .location lc)) :
    locConf = .location lc ∨ lc ∈ queue.flatMap LocationQueue.locs := by
  induction hbuilt generalizing uri rv locConf with
  | null base =>
      left
      simpa [nightHttpCoreFindStaticLocation] using congrArg (Option.map Prod.snd) hfind
  | @node base front inside behind lq left right tree name hsplit hname hproper _ _ _ ihLeft
      ihTree ihRight =>
      simp only [List.flatMap_append, List.flatMap_cons, List.mem_append]
      rcases find_node_cases hproper hfind with ⟨_, hleft⟩ | ⟨_, hright⟩ |
        ⟨_, lc', hlc', htree⟩ | ⟨_, hlc⟩
      · rcases ihLeft hleft with hsame | hmem
        · exact Or.inl hsame
        · exact Or.inr (Or.inl hmem)
      · rcases ihRight hright with hsame | hmem
        · exact Or.inl hsame
        · exact Or.inr (Or.inr (Or.inr (Or.inr hmem)))
      · right
        right
        rcases ihTree htree with hsame | hmem
        · cases hsame
          exact Or.inl (by simp [LocationQueue.locs, Option.mem_def.mp hlc'])
        · exact Or.inr (Or.inl hmem)
      · right
        right
        left
        simpa [LocationQueue.locs, Option.mem_def] using hlc

/-- The search for an element's name finds one of its locations. -/
def Found (base : List ℤ) (tree : LocationTree) (rv : Code) (locConf : LocConf)
    (lq : LocationQueue) : Prop :=
  ∀ uri, base ++ keys uri = keys lq.name → ∃ code, ∃ lc ∈ lq.locs,
    nightHttpCoreFindStaticLocation tree uri rv locConf = some (code, .location lc)

/-- The part of a node where a location is, by the way the search took to it. -/
theorem find_part {base : List ℤ} {front inside behind : List LocationQueue}
    {lq : LocationQueue} {left right tree : LocationTree} {name uri : List Byte}
    {rv code : Code} {locConf : LocConf} {lc : CoreLocConf} (hname : Proper name)
    (hleft : Built base front left) (htree : Built (keys lq.name) inside tree)
    (hright : Built base behind right)
    (hnew : locConf ≠ .location lc)
    (hfind : nightHttpCoreFindStaticLocation (.node left right tree lq.exact lq.inclusive name)
      uri rv locConf = some (code, .location lc)) :
    (lc ∈ front.flatMap LocationQueue.locs ∧
        (Below (keys uri) (keys name) ∨ Shorter (keys uri) (keys name)) ∧
        nightHttpCoreFindStaticLocation left uri rv locConf = some (code, .location lc)) ∨
      (lc ∈ behind.flatMap LocationQueue.locs ∧
        (Below (keys name) (keys uri) ∨ Shorter (keys name) (keys uri) ∧ lq.inclusive = none) ∧
        nightHttpCoreFindStaticLocation right uri rv locConf = some (code, .location lc)) ∨
      (lc ∈ inside.flatMap LocationQueue.locs ∧
        Shorter (keys name) (keys uri) ∧ ∃ lc' ∈ lq.inclusive,
          nightHttpCoreFindStaticLocation tree (uri.drop name.length) .again (.location lc') =
            some (code, .location lc)) ∨
      lc ∈ lq.locs := by
  rcases find_node_cases hname hfind with ⟨hturn, hgo⟩ | ⟨hturn, hgo⟩ |
    ⟨hturn, lc', hlc', hgo⟩ | ⟨_, hlc⟩
  · rcases find_mem hleft hgo with hsame | hmem
    · exact absurd hsame hnew
    · exact Or.inl ⟨hmem, hturn, hgo⟩
  · rcases find_mem hright hgo with hsame | hmem
    · exact absurd hsame hnew
    · exact Or.inr (Or.inl ⟨hmem, hturn, hgo⟩)
  · rcases find_mem htree hgo with hsame | hmem
    · cases hsame
      exact Or.inr (Or.inr (Or.inr (by simp [LocationQueue.locs, Option.mem_def.mp hlc'])))
    · exact Or.inr (Or.inr (Or.inl ⟨hmem, hturn, lc', hlc', hgo⟩))
  · exact Or.inr (Or.inr (Or.inr (by simpa [LocationQueue.locs, Option.mem_def] using hlc)))

/-- No element stands behind one of its extensions. -/
abbrev NotBehind (one two : LocationQueue) : Prop := ¬ Shorter (keys two.name) (keys one.name)

/-- The elements of a node, when each one is on the side to which its name leads. -/
theorem pairwise_node {front inside behind : List LocationQueue} {lq : LocationQueue}
    (hfront : ∀ e ∈ front, Below (keys e.name) (keys lq.name) ∨
      Shorter (keys e.name) (keys lq.name))
    (hinside : ∀ e ∈ inside, Shorter (keys lq.name) (keys e.name) ∧ lq.inclusive.isSome)
    (hbehind : ∀ e ∈ behind, Below (keys lq.name) (keys e.name) ∨
      Shorter (keys lq.name) (keys e.name) ∧ lq.inclusive = none)
    (hpairsFront : front.Pairwise NotBehind) (hpairsInside : inside.Pairwise NotBehind)
    (hpairsBehind : behind.Pairwise NotBehind) :
    (front ++ lq :: (inside ++ behind)).Pairwise NotBehind := by
  -- An extension of the middle name is not on the left side.
  have hfrontNot : ∀ e ∈ front, ¬ keys lq.name <+: keys e.name := by
    intro e he hpre
    rcases hfront e he with hbelow | hshort
    · exact hbelow.not_isPrefix' hpre
    · exact hshort.not_isPrefix hpre
  refine List.pairwise_append.mpr ⟨hpairsFront, List.pairwise_cons.mpr
    ⟨?_, List.pairwise_append.mpr ⟨hpairsInside, hpairsBehind, ?_⟩⟩, ?_⟩
  · intro f hf hshort
    rcases List.mem_append.mp hf with hf | hf
    · exact hshort.not_isPrefix (hinside f hf).1.1
    · rcases hbehind f hf with habove | ⟨hlong, _⟩
      · exact habove.not_isPrefix' hshort.1
      · exact hlong.not_isPrefix hshort.1
  · intro e he f hf hshort
    obtain ⟨hlong, hsome⟩ := hinside e he
    have habove : Below (keys lq.name) (keys f.name) := by
      rcases hbehind f hf with habove | ⟨_, hnone⟩
      · exact habove
      · simp [hnone] at hsome
    exact (habove.extend hlong.1 List.prefix_rfl).not_isPrefix' hshort.1
  · intro e he f hf hshort
    rcases List.mem_cons.mp hf with rfl | hf
    · exact hfrontNot e he hshort.1
    · rcases List.mem_append.mp hf with hf | hf
      · exact hfrontNot e he ((hinside f hf).1.1.trans hshort.1)
      · rcases hbehind f hf with habove | ⟨hlong, _⟩
        · rcases hfront e he with hbelow | hless
          · exact (hbelow.trans habove).not_isPrefix' hshort.1
          · exact habove.not_isPrefix' (hshort.1.trans hless.1)
        · exact hfrontNot e he (hlong.1.trans hshort.1)

/-- If all elements are found, none of them stands behind one of its extensions. -/
theorem pairwise_of_found {base : List ℤ} {queue : List LocationQueue} {tree : LocationTree}
    (hbuilt : Built base queue tree) {rv : Code} {locConf : LocConf}
    (hnodup : (queue.flatMap LocationQueue.locs).Nodup)
    (hnew : ∀ lc ∈ queue.flatMap LocationQueue.locs, locConf ≠ .location lc)
    (hbase : ∀ lq ∈ queue, base <+: keys lq.name)
    (hfound : ∀ lq ∈ queue, Found base tree rv locConf lq) :
    queue.Pairwise NotBehind := by
  induction hbuilt generalizing rv locConf with
  | null base => exact List.Pairwise.nil
  | @node base front inside behind lq left right tree name hsplit hname hproper hleftBuilt
      htreeBuilt hrightBuilt ihLeft ihTree ihRight =>
      simp only [List.flatMap_append, List.flatMap_cons, List.nodup_append, List.mem_append]
        at hnodup hnew
      obtain ⟨hnodupFront, ⟨_, ⟨hnodupInside, hnodupBehind, hapartInside⟩, hapartLq⟩,
        hapartFront⟩ := hnodup
      have hmemLocs {part : List LocationQueue} {e : LocationQueue} {lc : CoreLocConf}
          (he : e ∈ part) (hlc : lc ∈ e.locs) : lc ∈ part.flatMap LocationQueue.locs :=
        List.mem_flatMap.mpr ⟨e, he, hlc⟩
      have hfindPart {uri : List Byte} {code : Code} {lc : CoreLocConf}
          (hmem : lc ∈ front.flatMap LocationQueue.locs ∨ lc ∈ lq.locs ∨
            lc ∈ inside.flatMap LocationQueue.locs ∨ lc ∈ behind.flatMap LocationQueue.locs)
          (hfind : nightHttpCoreFindStaticLocation
            (.node left right tree lq.exact lq.inclusive name) uri rv locConf =
              some (code, .location lc)) :=
        find_part hproper hleftBuilt htreeBuilt hrightBuilt (hnew lc hmem) hfind
      have hfront : ∀ e ∈ front, ∀ uri, base ++ keys uri = keys e.name →
          (Below (keys uri) (keys name) ∨ Shorter (keys uri) (keys name)) ∧
            ∃ code, ∃ lc ∈ e.locs,
              nightHttpCoreFindStaticLocation left uri rv locConf = some (code, .location lc) := by
        intro e he uri huri
        obtain ⟨code, lc, hlc, hfind⟩ := hfound e (by simp [he]) uri huri
        have hmem := hmemLocs he hlc
        rcases hfindPart (Or.inl hmem) hfind with ⟨_, hturn, hgo⟩ | ⟨hother, _⟩ | ⟨hother, _⟩ |
          hother
        · exact ⟨hturn, code, lc, hlc, hgo⟩
        · exact absurd rfl (hapartFront lc hmem lc (Or.inr (Or.inr hother)))
        · exact absurd rfl (hapartFront lc hmem lc (Or.inr (Or.inl hother)))
        · exact absurd rfl (hapartFront lc hmem lc (Or.inl hother))
      have hbehind : ∀ e ∈ behind, ∀ uri, base ++ keys uri = keys e.name →
          (Below (keys name) (keys uri) ∨
              Shorter (keys name) (keys uri) ∧ lq.inclusive = none) ∧
            ∃ code, ∃ lc ∈ e.locs,
              nightHttpCoreFindStaticLocation right uri rv locConf = some (code, .location lc) := by
        intro e he uri huri
        obtain ⟨code, lc, hlc, hfind⟩ := hfound e (by simp [he]) uri huri
        have hmem := hmemLocs he hlc
        rcases hfindPart (Or.inr (Or.inr (Or.inr hmem))) hfind with ⟨hother, _⟩ |
          ⟨_, hturn, hgo⟩ | ⟨hother, _⟩ | hother
        · exact absurd rfl (hapartFront lc hother lc (Or.inr (Or.inr hmem)))
        · exact ⟨hturn, code, lc, hlc, hgo⟩
        · exact absurd rfl (hapartInside lc hother lc hmem)
        · exact absurd rfl (hapartLq lc hother lc (Or.inr hmem))
      have hinside : ∀ e ∈ inside, ∀ uri, base ++ keys uri = keys e.name →
          Shorter (keys name) (keys uri) ∧ ∃ lc' ∈ lq.inclusive, ∃ code, ∃ lc ∈ e.locs,
            nightHttpCoreFindStaticLocation tree (uri.drop name.length) .again
              (.location lc') = some (code, .location lc) := by
        intro e he uri huri
        obtain ⟨code, lc, hlc, hfind⟩ := hfound e (by simp [he]) uri huri
        have hmem := hmemLocs he hlc
        rcases hfindPart (Or.inr (Or.inr (Or.inl hmem))) hfind with ⟨hother, _⟩ |
          ⟨hother, _⟩ | ⟨_, hturn, lc', hlc', hgo⟩ | hother
        · exact absurd rfl (hapartFront lc hother lc (Or.inr (Or.inl hmem)))
        · exact absurd rfl (hapartInside lc hmem lc hother)
        · exact ⟨hturn, lc', hlc', code, lc, hlc, hgo⟩
        · exact absurd rfl (hapartLq lc hother lc (Or.inl hmem))
      have huri : ∀ e ∈ front ++ lq :: (inside ++ behind),
          ∃ uri, base ++ keys uri = keys e.name := by
        intro e he
        have hcut : base ++ (keys e.name).drop base.length = keys e.name :=
          List.prefix_iff_eq_append.mp (hbase e he)
        exact ⟨e.name.drop base.length, by rw [keys, List.map_drop, hcut]⟩
      apply pairwise_node
      · intro e he
        obtain ⟨uri, heq⟩ := huri e (by simp [he])
        rw [← heq, ← hname, below_append, shorter_append]
        exact (hfront e he uri heq).1
      · intro e he
        obtain ⟨uri, heq⟩ := huri e (by simp [he])
        rw [← heq, ← hname, shorter_append]
        obtain ⟨hlong, lc', hlc', _⟩ := hinside e he uri heq
        exact ⟨hlong, by simp [Option.mem_def.mp hlc']⟩
      · intro e he
        obtain ⟨uri, heq⟩ := huri e (by simp [he])
        rw [← heq, ← hname, below_append, shorter_append]
        exact (hbehind e he uri heq).1
      · exact ihLeft hnodupFront (fun lc hlc => hnew lc (Or.inl hlc))
          (fun e he => hbase e (by simp [he])) (fun e he uri heq => (hfront e he uri heq).2)
      · cases hinclusive : lq.inclusive with
        | none =>
            have hnil : inside = [] := by
              apply List.eq_nil_iff_forall_not_mem.mpr
              intro e he
              have hsome := (hsplit.inside_below e he).1
              simp [hinclusive] at hsome
            rw [hnil]
            exact List.Pairwise.nil
        | some lc' =>
            have hlc' : lc' ∈ lq.locs := by simp [LocationQueue.locs, hinclusive]
            apply @ihTree .again (.location lc') hnodupInside
            · intro lc hlc hsame
              cases hsame
              exact hapartLq lc' hlc' lc' (Or.inl hlc) rfl
            · exact fun e he => (hsplit.inside_below e he).2
            · intro e he uri heq
              obtain ⟨_, lc, hlc, hgo⟩ := hinside e he (name ++ uri) (by
                rw [← heq, ← hname, List.append_assoc, keys, List.map_append])
              rw [hinclusive, Option.mem_def, Option.some.injEq] at hlc
              rw [hlc]
              simpa using hgo
      · exact ihRight hnodupBehind (fun lc hlc => hnew lc (Or.inr (Or.inr (Or.inr hlc))))
          (fun e he => hbase e (by simp [he])) (fun e he uri heq => (hbehind e he uri heq).2)

/-! ## The server -/

section Server

variable {locations : List CoreLocConf} {queue : List LocationQueue}

theorem Layout.mem_iff (hlayout : Layout locations queue) {lc : CoreLocConf} :
    lc ∈ locations ↔ ∃ lq ∈ queue, lc ∈ lq.locs := by
  rw [← hlayout.locs.mem_iff, List.mem_flatMap]

theorem Element.locs_keys {lq : LocationQueue} {lc : CoreLocConf} (hlq : Element lq)
    (hlc : lc ∈ lq.locs) : keys lc.name = keys lq.name := by
  simp only [LocationQueue.locs, List.mem_append, Option.mem_toList] at hlc
  rcases hlc with hexact | hinclusive
  · exact (hlq.exact lc hexact).2
  · exact (hlq.inclusive lc hinclusive).2

theorem Element.exists_loc {lq : LocationQueue} (hlq : Element lq) : ∃ lc, lc ∈ lq.locs := by
  rcases hlq.some with hsome | hsome
  · obtain ⟨lc, hlc⟩ := Option.isSome_iff_exists.mp hsome
    exact ⟨lc, by simp [LocationQueue.locs, hlc]⟩
  · obtain ⟨lc, hlc⟩ := Option.isSome_iff_exists.mp hsome
    exact ⟨lc, by simp [LocationQueue.locs, hlc]⟩

/-- The elements have different names. -/
theorem Layout.eq_of_keys (hlayout : Layout locations queue) {one two : LocationQueue}
    (hone : one ∈ queue) (htwo : two ∈ queue) (heq : keys one.name = keys two.name) :
    one = two := by
  by_contra hne
  let Differ (one two : LocationQueue) : Prop := keys one.name ≠ keys two.name
  have hsymm : Std.Symm Differ := ⟨fun _ _ h => Ne.symm h⟩
  have hdiffer : queue.Pairwise Differ := by
    apply hlayout.ordered.imp
    intro one two hbefore hsame
    exact not_below_self _ (hbefore.congr hsame rfl)
  exact hdiffer.forall hone htwo hne heq

theorem Layout.nodup (hlayout : Layout locations queue) (hvalid : ValidLocations locations) :
    (queue.flatMap LocationQueue.locs).Nodup := by
  rw [hlayout.locs.nodup_iff]
  apply hvalid.differ.imp
  rintro lc other hne rfl
  exact hne rfl rfl

/-- A location that matches makes its element match. -/
theorem Element.hit {lq : LocationQueue} {lc : CoreLocConf} {uri : List Byte}
    (hlq : Element lq) (hlc : lc ∈ lq.locs) (hmatch : Matches uri lc) :
    Hit (keys uri) lq ∧ (lc.exactMatch = true → lq.exact.isSome ∧ keys lq.name = keys uri) := by
  have hkeys := hlq.locs_keys hlc
  simp only [LocationQueue.locs, List.mem_append, Option.mem_toList] at hlc
  rw [Matches] at hmatch
  rcases hlc with hexact | hinclusive
  · have hkind := (hlq.exact lc hexact).1
    rw [if_pos hkind] at hmatch
    have heq : keys lq.name = keys uri := hkeys ▸ keys_eq_iff.mpr hmatch
    have hsome : lq.exact.isSome := by simp [Option.mem_def.mp hexact]
    exact ⟨Or.inl ⟨hsome, heq⟩, fun _ => ⟨hsome, heq⟩⟩
  · have hkind := (hlq.inclusive lc hinclusive).1
    rw [hkind, if_neg (by decide)] at hmatch
    have hpre : keys lq.name <+: keys uri := hkeys ▸ prefix_keys_iff.mpr hmatch
    have hsome : lq.inclusive.isSome := by simp [Option.mem_def.mp hinclusive]
    refine ⟨Or.inr ⟨hsome, hpre⟩, ?_⟩
    intro htrue
    rw [hkind] at htrue
    cases htrue

/-- The best location of the queue is the one the URI belongs to. -/
theorem chosen_of_best (hlayout : Layout locations queue) {uri : List Byte}
    {best : Option (Code × LocConf)} (hbest : Best queue (keys uri) best) :
    Chosen locations uri (best.getD (.declined, .server)).2 := by
  cases hbest with
  | none hnone =>
      intro lc hlc hmatch
      obtain ⟨lq, hlq, hmem⟩ := hlayout.mem_iff.mp hlc
      exact hnone lq hlq ((hlayout.elements lq hlq).hit hmem hmatch).1
  | @exact lq lc hlq hlc heq =>
      obtain ⟨hkind, hkeys⟩ := (hlayout.elements lq hlq).exact lc hlc
      refine ⟨hlayout.mem_iff.mpr ⟨lq, hlq, by simp [LocationQueue.locs, hlc]⟩, ?_, ?_⟩
      · rw [Matches, if_pos hkind]
        exact keys_eq_iff.mp (hkeys.trans heq)
      · exact fun _ _ _ => Or.inl hkind
  | @inclusive lq lc hlq hlc hpre hbest =>
      obtain ⟨hkind, hkeys⟩ := (hlayout.elements lq hlq).inclusive lc hlc
      refine ⟨hlayout.mem_iff.mpr ⟨lq, hlq, by simp [LocationQueue.locs, hlc]⟩, ?_, ?_⟩
      · rw [Matches, hkind, if_neg (by decide)]
        exact prefix_keys_iff.mp (hkeys ▸ hpre)
      · intro other hother hmatch
        obtain ⟨lq', hlq', hmem⟩ := hlayout.mem_iff.mp hother
        have helement := hlayout.elements lq' hlq'
        obtain ⟨hhit, hexact⟩ := helement.hit hmem hmatch
        obtain ⟨hnotExact, hlength⟩ := hbest lq' hlq' hhit
        right
        constructor
        · by_contra htrue
          obtain ⟨hsome, heq⟩ := hexact (by simpa using htrue)
          exact hnotExact hsome heq
        · have hlc' := congrArg List.length hkeys
          have hother' := congrArg List.length (helement.locs_keys hmem)
          simp only [List.length_map] at hlc' hother'
          omega

/-- A URI that is the name of an element belongs to one of its locations. -/
theorem chosen_mem_locs (hlayout : Layout locations queue) {uri : List Byte}
    {lq : LocationQueue} {locConf : LocConf} (hlq : lq ∈ queue)
    (huri : keys uri = keys lq.name) (hchosen : Chosen locations uri locConf) :
    ∃ lc ∈ lq.locs, locConf = .location lc := by
  have helement := hlayout.elements lq hlq
  obtain ⟨lc', hlc'⟩ := helement.exists_loc
  have hmem' : lc' ∈ locations := hlayout.mem_iff.mpr ⟨lq, hlq, hlc'⟩
  have hkeys' : keys lc'.name = keys uri := (helement.locs_keys hlc').trans huri.symm
  have hmatch' : Matches uri lc' := by
    have hlower := keys_eq_iff.mp hkeys'
    rw [Matches]
    split
    · exact hlower
    · exact hlower ▸ List.prefix_rfl
  cases locConf with
  | server => exact absurd hmatch' (hchosen lc' hmem')
  | location lc =>
      obtain ⟨hlc, hmatch, hbest⟩ := hchosen
      have hkeys : keys lc.name = keys uri := by
        rw [Matches] at hmatch
        by_cases hkind : lc.exactMatch = true
        · rw [if_pos hkind] at hmatch
          exact keys_eq_iff.mpr hmatch
        · rw [if_neg hkind] at hmatch
          have hpre : keys lc.name <+: keys uri := prefix_keys_iff.mpr hmatch
          apply hpre.eq_of_length_le
          rcases hbest lc' hmem' hmatch' with htrue | ⟨_, hlength⟩
          · exact absurd htrue hkind
          · rw [← hkeys', List.length_map, List.length_map]
            exact hlength
      obtain ⟨other, hother, hlcOther⟩ := hlayout.mem_iff.mp hlc
      have hsame : other = lq := by
        apply hlayout.eq_of_keys hother hlq
        rw [← (hlayout.elements other hother).locs_keys hlcOther, hkeys, huri]
      exact ⟨lc, hsame ▸ hlcOther, rfl⟩

theorem before_of_noHighExtension (hlayout : Layout locations queue)
    (hno : NoHighExtension locations) : queue.Pairwise Before := by
  apply hlayout.ordered.imp_of_mem
  intro one two hone htwo hbefore
  rcases below_mark_iff.mp hbefore with hbelow | ⟨a, rest, heq, _⟩ | ⟨a, rest, heq, hneg⟩
  · exact Or.inl hbelow
  · right
    rw [Shorter, heq]
    exact ⟨List.prefix_append _ _, by simp⟩
  · obtain ⟨long, hlong⟩ := (hlayout.elements one hone).exists_loc
    obtain ⟨short, hshort⟩ := (hlayout.elements two htwo).exists_loc
    have hlongKeys := (hlayout.elements one hone).locs_keys hlong
    have hshortKeys := (hlayout.elements two htwo).locs_keys hshort
    rw [heq, ← hshortKeys] at hlongKeys
    have hpre : keys short.name <+: keys long.name := hlongKeys ▸ List.prefix_append _ _
    have hget : (keys long.name)[short.name.length]? = some a := by
      rw [hlongKeys, List.getElem?_append_right (by simp)]
      simp
    rw [List.getElem?_map, Option.map_eq_some_iff] at hget
    obtain ⟨ch, hch, rfl⟩ := hget
    have hlow := hno short (hlayout.mem_iff.mpr ⟨two, htwo, hshort⟩) long
      (hlayout.mem_iff.mpr ⟨one, hone, hlong⟩) (prefix_keys_iff.mp hpre) ch hch
    exact absurd (key_neg_iff.mp hneg) (Nat.not_le.mpr hlow)

theorem noHighExtension_of_notBehind (hlayout : Layout locations queue)
    (hpairs : queue.Pairwise NotBehind) : NoHighExtension locations := by
  intro short hshort long hlong hlower ch hch
  by_contra hhigh
  have hneg : key ch < 0 := key_neg_iff.mpr (Nat.not_lt.mp hhigh)
  obtain ⟨lqShort, hlqShort, hshortLocs⟩ := hlayout.mem_iff.mp hshort
  obtain ⟨lqLong, hlqLong, hlongLocs⟩ := hlayout.mem_iff.mp hlong
  have hshortKeys := (hlayout.elements lqShort hlqShort).locs_keys hshortLocs
  have hlongKeys := (hlayout.elements lqLong hlqLong).locs_keys hlongLocs
  obtain ⟨rest, hrest⟩ : keys lqShort.name <+: keys lqLong.name := by
    rw [← hshortKeys, ← hlongKeys]
    exact prefix_keys_iff.mpr hlower
  have hget : (keys lqLong.name)[(keys lqShort.name).length]? = some (key ch) := by
    rw [← hlongKeys, ← hshortKeys, List.length_map, List.getElem?_map, hch]
    rfl
  rw [← hrest, List.getElem?_append_right (Nat.le_refl _), Nat.sub_self] at hget
  cases rest with
  | nil => simp at hget
  | cons a rest =>
      rw [List.getElem?_cons_zero, Option.some.injEq] at hget
      subst hget
      have hbefore : NameBefore lqLong lqShort := by
        rw [NameBefore, ← hrest]
        exact (below_mark_extension (key ch) rest).1.mpr hneg
      have hshorter : Shorter (keys lqShort.name) (keys lqLong.name) := by
        rw [Shorter, ← hrest]
        exact ⟨List.prefix_append _ _, by simp⟩
      have hne : lqLong ≠ lqShort := by
        rintro rfl
        exact hshorter.2 rfl
      let Either (one two : LocationQueue) : Prop :=
        (NameBefore one two ∧ NotBehind one two) ∨ NameBefore two one ∧ NotBehind two one
      have hsymm : Std.Symm Either := ⟨fun one two h => h.symm⟩
      have heither : queue.Pairwise Either := (hlayout.ordered.and hpairs).imp Or.inl
      rcases heither.forall hlqLong hlqShort hne with ⟨_, hnot⟩ | ⟨hback, _⟩
      · exact hnot hshorter
      · exact hbefore.asymm hback

end Server

/-- A search that does not find anything returns what it had before. -/
theorem find_unchanged {tree : LocationTree} {uri : List Byte} {rv code : Code}
    {locConf found : LocConf}
    (hfind : nightHttpCoreFindStaticLocation tree uri rv locConf = some (code, found)) :
    code = rv ∧ found = locConf ∨ ∃ lc, found = .location lc := by
  induction tree generalizing uri rv locConf with
  | null =>
      left
      rw [nightHttpCoreFindStaticLocation, Option.some.injEq, Prod.mk.injEq] at hfind
      exact ⟨hfind.1.symm, hfind.2.symm⟩
  | node left right tree exact inclusive name ihLeft ihRight ihTree =>
      rw [nightHttpCoreFindStaticLocation.eq_def] at hfind
      simp only at hfind
      split at hfind
      · split at hfind
        · exact ihLeft hfind
        · exact ihRight hfind
      · split at hfind
        · cases inclusive with
          | none => exact ihRight hfind
          | some lc =>
              rcases ihTree hfind with ⟨_, hsame⟩ | hlocation
              · exact Or.inr ⟨lc, hsame⟩
              · exact Or.inr hlocation
        · split at hfind
          · right
            cases exact with
            | some lc =>
                cases hfind
                exact ⟨lc, rfl⟩
            | none =>
                cases inclusive with
                | none => cases hfind
                | some lc =>
                    cases hfind
                    exact ⟨lc, rfl⟩
          · exact ihLeft hfind

/-- What a request ends with, by the search in the tree of the server. -/
theorem findLocation_eq {locations : List CoreLocConf} {tree : LocationTree} {code : Code}
    {locConf : LocConf} {uri : List Byte} (depth : ℕ)
    (htree : nightHttpInitStaticLocationTrees
      (nightHttpInitLocations (locations.foldl nightHttpAddLocation [])) = some tree)
    (hfind : nightHttpCoreFindStaticLocation tree uri .declined .server = some (code, locConf))
    (hagain : code = .again → locConf ≠ .server) :
    findLocation locations (depth + 2) uri = some locConf := by
  rw [findLocation]
  simp only [htree, Option.bind_eq_bind, Option.bind_some]
  rw [nightHttpCoreFindLocation]
  simp only [staticLocationsTree, hfind, Option.bind_eq_bind, Option.bind_some]
  by_cases hcode : code = .again
  · rw [if_pos hcode, nightHttpCoreFindLocation]
    cases locConf with
    | server => exact absurd rfl (hagain hcode)
    | location lc => simp [staticLocationsTree, nightHttpCoreFindStaticLocation]
  · rw [if_neg hcode]
    rfl

theorem findLocation_inv {locations : List CoreLocConf} {tree : LocationTree}
    {locConf : LocConf} {uri : List Byte} {depth : ℕ}
    (htree : nightHttpInitStaticLocationTrees
      (nightHttpInitLocations (locations.foldl nightHttpAddLocation [])) = some tree)
    (hresult : findLocation locations (depth + 2) uri = some locConf) :
    ∃ code, nightHttpCoreFindStaticLocation tree uri .declined .server =
      some (code, locConf) := by
  cases hfind : nightHttpCoreFindStaticLocation tree uri .declined .server with
  | none =>
      simp [findLocation, htree, nightHttpCoreFindLocation, staticLocationsTree, hfind]
        at hresult
  | some found =>
      obtain ⟨code, found⟩ := found
      have hsame := findLocation_eq depth htree hfind (by
        rintro rfl hserver
        rcases find_unchanged hfind with ⟨hcode, _⟩ | ⟨lc, hlc⟩
        · cases hcode
        · rw [hlc] at hserver
          cases hserver)
      rw [hresult, Option.some.injEq] at hsame
      exact ⟨code, by rw [hsame]⟩

/-- Every request gets the configuration that its URI belongs to, if and only if no name
goes on behind another one with a byte from `0x80` on. -/
theorem findLocation_chosen_iff {locations : List CoreLocConf}
    (hvalid : ValidLocations locations) :
    (∀ depth uri, ∃ locConf, findLocation locations (depth + 2) uri = some locConf ∧
      Chosen locations uri locConf) ↔ NoHighExtension locations := by
  obtain ⟨queue, tree, htree, hbuilt, hlayout⟩ := initStaticLocationTrees_spec hvalid
  have hsome : ∀ lq ∈ queue, lq.exact.isSome ∨ lq.inclusive.isSome :=
    fun lq hlq => (hlayout.elements lq hlq).some
  constructor
  · intro hall
    apply noHighExtension_of_notBehind hlayout
    apply @pairwise_of_found _ _ _ hbuilt .declined .server
    · exact hlayout.nodup hvalid
    · exact fun _ _ h => by cases h
    · exact fun _ _ => List.nil_prefix
    · intro lq hlq uri huri
      obtain ⟨locConf, hlocConf, hchosen⟩ := hall 0 uri
      obtain ⟨code, hfind⟩ := findLocation_inv htree hlocConf
      obtain ⟨lc, hlc, rfl⟩ := chosen_mem_locs hlayout hlq huri hchosen
      exact ⟨code, lc, hlc, hfind⟩
  · intro hno depth uri
    obtain ⟨best, hbest, hfind⟩ := find_correct hbuilt
      (before_of_noHighExtension hlayout hno) hsome uri .declined .server
    refine ⟨(best.getD (.declined, .server)).2, ?_, chosen_of_best hlayout hbest⟩
    apply findLocation_eq depth htree hfind
    cases hbest <;> simp

/-- The locations `/`, `= /a` and `/a`. -/
def smallServer : List CoreLocConf :=
  [⟨[ascii '/'], false⟩, ⟨[ascii '/', ascii 'a'], true⟩, ⟨[ascii '/', ascii 'a'], false⟩]

theorem findLocation_smallServer :
    ∃ locConf, findLocation smallServer 2 [ascii '/', ascii 'a', ascii 'b'] = some locConf ∧
      Chosen smallServer [ascii '/', ascii 'a', ascii 'b'] locConf := by
  have hvalid : ValidLocations smallServer :=
    { names := by simp [smallServer, Proper, ascii]
      differ := by simp [smallServer, lower, nightTolower, ascii] }
  have hno : NoHighExtension smallServer := by
    intro short hshort long hlong _ ch hch
    have hbyte : ch ∈ long.name := List.mem_of_getElem? (Option.mem_def.mp hch)
    have hascii : ∀ lc ∈ smallServer, ∀ ch ∈ lc.name, ch.toNat < 128 := by
      decide
    exact hascii long hlong ch hbyte
  exact (findLocation_chosen_iff hvalid).mpr hno 0 [ascii '/', ascii 'a', ascii 'b']

/-- The locations `/` and `/` with the byte `0xe9`. -/
def highServer : List CoreLocConf :=
  [⟨[ascii '/'], false⟩, ⟨[ascii '/', 0xE9#8], false⟩]

theorem not_findLocation_highServer :
    ValidLocations highServer ∧
      ¬ ∀ uri, ∃ locConf, findLocation highServer 2 uri = some locConf ∧
        Chosen highServer uri locConf := by
  constructor
  · exact { names := by simp [highServer, Proper, ascii]
            differ := by simp [highServer, lower, nightTolower, ascii] }
  · intro hall
    obtain ⟨locConf, hfind, hchosen⟩ := hall [ascii '/', 0xE9#8]
    have hroot : findLocation highServer 2 [ascii '/', 0xE9#8] =
        some (.location ⟨[ascii '/'], false⟩) := by decide
    rw [hroot, Option.some.injEq] at hfind
    subst hfind
    have hlonger := hchosen.2.2 ⟨[ascii '/', 0xE9#8], false⟩ (by simp [highServer])
      (by simp [Matches])
    simp [Precedes] at hlonger

end Night.Locations
