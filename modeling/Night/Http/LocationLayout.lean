import Mathlib.Data.List.TakeWhile
import Night.Http.Locations

/-!
# The queues and the trees of a server

What sorting, joining, nesting and splitting make of the locations: the elements stay in
the order of their names, and every element is at one place of the tree.
-/

namespace Night.Locations

open Night.Bytes Night.FileName Night.Queue Night.PrefixOrder

/-! ## Elements -/

/-- The locations of an element. -/
def LocationQueue.locs (lq : LocationQueue) : List CoreLocConf :=
  lq.exact.toList ++ lq.inclusive.toList

/-- An element before nesting: its locations have its name. -/
structure Element (lq : LocationQueue) : Prop where
  proper : Proper lq.name
  exact : ∀ lc ∈ lq.exact, lc.exactMatch = true ∧ keys lc.name = keys lq.name
  inclusive : ∀ lc ∈ lq.inclusive, lc.exactMatch = false ∧ keys lc.name = keys lq.name
  some : lq.exact.isSome ∨ lq.inclusive.isSome
  list : lq.list = []

theorem element_ofLoc {lc : CoreLocConf} (hproper : Proper lc.name) :
    Element (LocationQueue.ofLoc lc) where
  proper := hproper
  exact := by cases h : lc.exactMatch <;> simp [LocationQueue.ofLoc, h]
  inclusive := by cases h : lc.exactMatch <;> simp [LocationQueue.ofLoc, h]
  some := by cases h : lc.exactMatch <;> simp [LocationQueue.ofLoc, h]
  list := rfl

theorem locs_ofLoc (lc : CoreLocConf) : (LocationQueue.ofLoc lc).locs = [lc] := by
  cases h : lc.exactMatch <;> simp [LocationQueue.ofLoc, LocationQueue.locs, h]

theorem foldl_addLocation (queue : List LocationQueue) (locations : List CoreLocConf) :
    locations.foldl nightHttpAddLocation queue = queue ++ locations.map LocationQueue.ofLoc := by
  induction locations generalizing queue with
  | nil => simp
  | cons lc locations ih => simp [ih, nightHttpAddLocation]

/-! ## Sorting -/

/-- The names in the order of `night_filename_cmp`. -/
def NameBefore (one two : LocationQueue) : Prop :=
  Below (keys one.name ++ [0]) (keys two.name ++ [0])

/-- The order that the queue is sorted by. -/
def SortedBefore (one two : LocationQueue) : Prop :=
  NameBefore one two ∨
    keys one.name = keys two.name ∧ (two.exact.isSome → one.exact.isSome)

theorem NameBefore.trans {one two three : LocationQueue} (hleft : NameBefore one two)
    (hright : NameBefore two three) : NameBefore one three :=
  Below.trans hleft hright

theorem NameBefore.congr {one two one' two' : LocationQueue} (hbefore : NameBefore one two)
    (hone : keys one.name = keys one'.name) (htwo : keys two.name = keys two'.name) :
    NameBefore one' two' := by
  rwa [NameBefore, ← hone, ← htwo]

/-- The comparison function decides the order of the elements. -/
theorem cmpLocations_decides :
    Decides nightHttpCmpLocations SortedBefore fun lq => Proper lq.name where
  nonpos := by
    intro one two hone htwo hcmp
    rw [nightHttpCmpLocations] at hcmp
    rcases nightFilenameCmp_names hone htwo with ⟨hbelow, _⟩ | ⟨_, hpos⟩ | ⟨hsame, hzero⟩
    · exact Or.inl hbelow
    · simp only [hpos.ne', false_and, if_false] at hcmp
      exact absurd hcmp (not_le.mpr hpos)
    · right
      refine ⟨hsame, ?_⟩
      intro hexact
      by_contra hnone
      have hisNone : one.exact.isNone = true := by simpa using hnone
      rw [if_pos ⟨hzero, hisNone, hexact⟩] at hcmp
      exact absurd hcmp (by decide)
  pos := by
    intro one two hone htwo hcmp
    rw [nightHttpCmpLocations] at hcmp
    rcases nightFilenameCmp_names hone htwo with ⟨_, hneg⟩ | ⟨hbelow, _⟩ | ⟨hsame, hzero⟩
    · simp only [hneg.ne, false_and, if_false] at hcmp
      exact absurd hneg.le hcmp
    · exact Or.inl hbelow
    · right
      refine ⟨hsame.symm, ?_⟩
      intro hexact
      have hisSome : ¬ one.exact.isNone = true := by
        rw [Option.isNone_iff_eq_none, ← Option.not_isSome_iff_eq_none, not_not]
        exact hexact
      rw [if_neg (fun h => hisSome h.2.1), hzero] at hcmp
      exact absurd (le_refl 0) hcmp
  trans := by
    intro one two three hleft hright
    rcases hleft with hleft | ⟨hsame, hexact⟩
    · rcases hright with hright | ⟨hsame', _⟩
      · exact Or.inl (hleft.trans hright)
      · exact Or.inl (hleft.congr rfl hsame')
    · rcases hright with hright | ⟨hsame', hexact'⟩
      · exact Or.inl (hright.congr hsame.symm rfl)
      · exact Or.inr ⟨hsame.trans hsame', fun h => hexact (hexact' h)⟩

/-- The order of the queue, with the two elements of a name that has both kinds. -/
def Ahead (one two : LocationQueue) : Prop :=
  NameBefore one two ∨
    keys one.name = keys two.name ∧ one.inclusive = none ∧ two.exact = none

theorem isSome_exact_ofLoc (lc : CoreLocConf) :
    (LocationQueue.ofLoc lc).exact.isSome = lc.exactMatch := by
  cases h : lc.exactMatch <;> simp [LocationQueue.ofLoc, h]

/-- Of two elements of one name, sorted and of different kinds, the exact one is first. -/
theorem ahead_ofLoc {lc other : CoreLocConf}
    (hsorted : SortedBefore (LocationQueue.ofLoc lc) (LocationQueue.ofLoc other))
    (hdiffer : lc.exactMatch = other.exactMatch → keys lc.name ≠ keys other.name) :
    Ahead (LocationQueue.ofLoc lc) (LocationQueue.ofLoc other) := by
  rcases hsorted with hbefore | ⟨hsame, hexact⟩
  · exact Or.inl hbefore
  · have hkinds : lc.exactMatch ≠ other.exactMatch := fun heq => hdiffer heq hsame
    rw [isSome_exact_ofLoc, isSome_exact_ofLoc] at hexact
    have hlc : lc.exactMatch = true := by
      by_contra hfalse
      have hother : other.exactMatch = true := by grind
      exact hfalse (hexact hother)
    have hother : other.exactMatch = false := by grind
    exact Or.inr ⟨hsame, by simp [LocationQueue.ofLoc, hlc], by simp [LocationQueue.ofLoc, hother]⟩

/-- The queue of a server with valid locations after `night_http_init_locations`. -/
theorem initLocations_spec {locations : List CoreLocConf} (hvalid : ValidLocations locations) :
    (nightHttpInitLocations (locations.foldl nightHttpAddLocation [])).Perm
        (locations.map LocationQueue.ofLoc) ∧
      (nightHttpInitLocations (locations.foldl nightHttpAddLocation [])).Pairwise Ahead := by
  rw [foldl_addLocation, List.nil_append, nightHttpInitLocations]
  have hproper : ∀ lq ∈ locations.map LocationQueue.ofLoc, Proper lq.name := by
    intro lq hlq
    obtain ⟨lc, hlc, rfl⟩ := List.mem_map.mp hlq
    exact hvalid.names lc hlc
  have hperm := nightQueueSort_perm cmpLocations_decides hproper
  have hsorted := pairwise_nightQueueSort cmpLocations_decides hproper
  let Differ (one two : LocationQueue) : Prop :=
    one.exact.isSome = two.exact.isSome → keys one.name ≠ keys two.name
  have hdiffer : (locations.map LocationQueue.ofLoc).Pairwise Differ := by
    apply List.pairwise_map.mpr
    apply hvalid.differ.imp
    intro lc other hne hkinds hsame
    rw [isSome_exact_ofLoc, isSome_exact_ofLoc] at hkinds
    exact hne hkinds (keys_eq_iff.mp hsame)
  have hsymm : ∀ {one two}, Differ one two → Differ two one := by
    intro one two hne hkinds hsame
    exact hne hkinds.symm hsame.symm
  have hdifferSorted := (hperm.pairwise_iff hsymm).mpr hdiffer
  refine ⟨hperm, ?_⟩
  apply (hsorted.and hdifferSorted).imp_of_mem
  rintro one two hone htwo ⟨hbefore, hne⟩
  obtain ⟨lc, _, rfl⟩ := List.mem_map.mp (hperm.mem_iff.mp hone)
  obtain ⟨other, _, rfl⟩ := List.mem_map.mp (hperm.mem_iff.mp htwo)
  apply ahead_ofLoc hbefore
  intro hkinds
  apply hne
  rw [isSome_exact_ofLoc, isSome_exact_ofLoc, hkinds]

/-! ## Joining -/

theorem sameName_iff {lq lx : LocationQueue} (hlx : Proper lx.name) :
    (lq.name.length = lx.name.length ∧
      nightFilenameCmp lq.name lx.name lx.name.length = 0) ↔ keys lq.name = keys lx.name := by
  constructor
  · rintro ⟨hlength, hzero⟩
    have hmin : min lq.name.length lx.name.length = lx.name.length := by omega
    have hcases := nightFilenameCmp_cases lq.name hlx
    rw [hmin, hzero] at hcases
    have hlengths : (keys lq.name).length = (keys lx.name).length := by simpa using hlength
    rcases hcases with ⟨_, hneg⟩ | ⟨_, hpos⟩ | ⟨hpre | hpre, _⟩
    · exact absurd hneg (lt_irrefl 0)
    · exact absurd hpos (lt_irrefl 0)
    · exact hpre.eq_of_length hlengths
    · exact (hpre.eq_of_length hlengths.symm).symm
  · intro hsame
    have hlength : lq.name.length = lx.name.length := by simpa using congrArg List.length hsame
    have hmin : min lq.name.length lx.name.length = lx.name.length := by omega
    have hcases := nightFilenameCmp_cases lq.name hlx
    rw [hmin, hsame] at hcases
    rcases hcases with ⟨hbelow, _⟩ | ⟨hbelow, _⟩ | ⟨_, hzero⟩
    · exact absurd hbelow (not_below_self _)
    · exact absurd hbelow (not_below_self _)
    · exact ⟨hlength, hzero⟩

/-- A queue after joining. -/
structure Joined (joined : List LocationQueue) (sorted : List LocationQueue) : Prop where
  elements : ∀ lq ∈ joined, Element lq
  ordered : joined.Pairwise NameBefore
  names : ∀ lq ∈ joined, ∃ lx ∈ sorted, keys lq.name = keys lx.name
  locs : joined.flatMap LocationQueue.locs = sorted.flatMap LocationQueue.locs

theorem Joined.cons {lq : LocationQueue} {joined sorted : List LocationQueue}
    (hjoined : Joined joined sorted) (hlq : Element lq)
    (hbefore : ∀ lx ∈ sorted, NameBefore lq lx) : Joined (lq :: joined) (lq :: sorted) where
  elements := List.forall_mem_cons.mpr ⟨hlq, hjoined.elements⟩
  ordered := by
    refine List.pairwise_cons.mpr ⟨?_, hjoined.ordered⟩
    intro e he
    obtain ⟨lx, hlx, hkeys⟩ := hjoined.names e he
    exact (hbefore lx hlx).congr rfl hkeys.symm
  names := by
    intro e he
    rcases List.mem_cons.mp he with rfl | he
    · exact ⟨e, by simp, rfl⟩
    · obtain ⟨lx, hlx, hkeys⟩ := hjoined.names e he
      exact ⟨lx, List.mem_cons_of_mem _ hlx, hkeys⟩
  locs := by simp only [List.flatMap_cons, hjoined.locs]

/-- The element that two elements of one name become. -/
theorem element_merge {lq lx : LocationQueue} (hlq : Element lq) (hlx : Element lx)
    (hsame : keys lq.name = keys lx.name) (hexact : lx.exact = none) :
    Element { lq with inclusive := lx.inclusive } where
  proper := hlq.proper
  exact := hlq.exact
  inclusive := fun lc hlc => hsame ▸ hlx.inclusive lc hlc
  some := Or.inr (by simpa [hexact] using hlx.some)
  list := hlq.list

theorem joinLoop_spec {lq : LocationQueue} {queue : List LocationQueue}
    (helements : ∀ e ∈ lq :: queue, Element e) (hahead : (lq :: queue).Pairwise Ahead) :
    ∃ joined, joinLoop lq queue = some joined ∧ Joined joined (lq :: queue) := by
  induction queue generalizing lq with
  | nil =>
      exact ⟨[lq], rfl, helements, List.pairwise_singleton _ _, fun e he => ⟨e, he, rfl⟩, rfl⟩
  | cons lx queue ih =>
      have hlq : Element lq := helements lq (by simp)
      have hlx : Element lx := helements lx (by simp)
      obtain ⟨hfirst, hrest⟩ := List.pairwise_cons.mp hahead
      obtain ⟨hsecond, hqueue⟩ := List.pairwise_cons.mp hrest
      rw [joinLoop]
      by_cases hsame : keys lq.name = keys lx.name
      · rw [if_pos ((sameName_iff hlx.proper).mpr hsame)]
        have hkinds : lq.inclusive = none ∧ lx.exact = none := by
          rcases hfirst lx (by simp) with hbefore | ⟨_, hkinds⟩
          · exact absurd (hbefore.congr hsame rfl) (not_below_self _)
          · exact hkinds
        obtain ⟨hlqInclusive, hlxExact⟩ := hkinds
        rw [if_neg (by simp [hlqInclusive, hlxExact])]
        let merged : LocationQueue := { lq with inclusive := lx.inclusive }
        have hmerged : Element merged := element_merge hlq hlx hsame hlxExact
        have haheadMerged : (merged :: queue).Pairwise Ahead := by
          refine List.pairwise_cons.mpr ⟨?_, hqueue⟩
          intro f hf
          rcases hsecond f hf with hbefore | ⟨_, hnone, _⟩
          · exact Or.inl (hbefore.congr hsame.symm rfl)
          · have hsome := hlx.some
            simp [hnone, hlxExact] at hsome
        obtain ⟨joined, hjoin, hjoined⟩ := @ih merged
          (List.forall_mem_cons.mpr ⟨hmerged, fun e he => helements e (by simp [he])⟩)
          haheadMerged
        refine ⟨joined, hjoin, hjoined.elements, hjoined.ordered, ?_, ?_⟩
        · intro e he
          obtain ⟨f, hf, hkeys⟩ := hjoined.names e he
          rcases List.mem_cons.mp hf with rfl | hf
          · exact ⟨lq, by simp, hkeys⟩
          · exact ⟨f, by simp [hf], hkeys⟩
        · rw [hjoined.locs]
          simp [LocationQueue.locs, merged, hlqInclusive, hlxExact]
      · rw [if_neg (fun h => hsame ((sameName_iff hlx.proper).mp h))]
        obtain ⟨joined, hjoin, hjoined⟩ := ih (fun e he => helements e (by simp [he])) hrest
        have hbefore : ∀ f ∈ lx :: queue, NameBefore lq f := by
          have hlxBefore : NameBefore lq lx := by
            rcases hfirst lx (by simp) with hbefore | ⟨heq, _⟩
            · exact hbefore
            · exact absurd heq hsame
          intro f hf
          rcases List.mem_cons.mp hf with rfl | hf
          · exact hlxBefore
          · rcases hsecond f hf with hbefore | ⟨heq, _⟩
            · exact hlxBefore.trans hbefore
            · exact hlxBefore.congr rfl heq
        exact ⟨lq :: joined, by simp [hjoin], hjoined.cons hlq hbefore⟩

/-! ## Nesting -/

theorem extendsName_iff {lq lx : LocationQueue} (hlx : Proper lx.name) :
    extendsName lq lx = true ↔ keys lq.name <+: keys lx.name := by
  simp only [extendsName, Bool.decide_and, Bool.and_eq_true, decide_eq_true_eq]
  have hcases := nightFilenameCmp_cases lq.name hlx
  constructor
  · rintro ⟨hlength, hzero⟩
    rw [Nat.min_eq_left hlength, hzero] at hcases
    rcases hcases with ⟨_, hneg⟩ | ⟨_, hpos⟩ | ⟨hpre | hpre, _⟩
    · exact absurd hneg (lt_irrefl 0)
    · exact absurd hpos (lt_irrefl 0)
    · exact hpre
    · have heq := hpre.eq_of_length_le (by simpa using hlength)
      exact heq ▸ List.prefix_rfl
  · intro hpre
    have hlength : lq.name.length ≤ lx.name.length := by simpa using hpre.length_le
    rw [Nat.min_eq_left hlength] at hcases
    rcases hcases with ⟨hbelow, _⟩ | ⟨hbelow, _⟩ | ⟨_, hzero⟩
    · exact absurd hpre hbelow.not_isPrefix
    · exact absurd hpre hbelow.not_isPrefix'
    · exact ⟨hlength, hzero⟩

/-- The elements of a queue and the queue that `night_http_create_locations_list` makes of
it: those that extend an inclusive name are below it. -/
inductive Nested : List LocationQueue → List LocationQueue → Prop
  | nil : Nested [] []
  | cons {lq : LocationQueue} {inside outside list rest : List LocationQueue}
      (inclusive : ∀ e ∈ inside, lq.inclusive.isSome ∧ keys lq.name <+: keys e.name)
      (apart : lq.inclusive.isSome → ∀ e ∈ outside, ¬ keys lq.name <+: keys e.name)
      (below : Nested inside list) (behind : Nested outside rest) :
      Nested (lq :: (inside ++ outside)) ({ lq with list := list } :: rest)

theorem Nested.eq_nil_iff {queue nested : List LocationQueue} (hnested : Nested queue nested) :
    queue = [] ↔ nested = [] := by
  cases hnested <;> simp

/-- An element with nothing below it. -/
theorem Nested.single {lq : LocationQueue} {outside rest : List LocationQueue}
    (hlist : lq.list = [])
    (hapart : lq.inclusive.isSome → ∀ e ∈ outside, ¬ keys lq.name <+: keys e.name)
    (hbehind : Nested outside rest) : Nested (lq :: outside) (lq :: rest) := by
  have hnone : ∀ e ∈ ([] : List LocationQueue),
      lq.inclusive.isSome ∧ keys lq.name <+: keys e.name := by simp
  have hcons := Nested.cons hnone hapart Nested.nil hbehind
  cases lq
  cases hlist
  exact hcons

/-- None of the elements behind the loop over `x` extends the name. -/
theorem outside_apart {lq : LocationQueue} {queue : List LocationQueue}
    (helements : ∀ e ∈ queue, Element e) (hordered : (lq :: queue).Pairwise NameBefore) :
    ∀ e ∈ queue.dropWhile (extendsName lq), ¬ keys lq.name <+: keys e.name := by
  obtain ⟨hlq, hqueue⟩ := List.pairwise_cons.mp hordered
  induction queue with
  | nil => simp
  | cons x queue ih =>
      obtain ⟨hx, hrest⟩ := List.pairwise_cons.mp hqueue
      have helement : Element x := helements x (by simp)
      by_cases hextends : extendsName lq x = true
      · rw [List.dropWhile_cons_of_pos hextends]
        have hlqRest : ∀ e ∈ queue, NameBefore lq e := fun e he => hlq e (by simp [he])
        exact ih (fun e he => helements e (by simp [he]))
          (List.pairwise_cons.mpr ⟨hlqRest, hrest⟩) hlqRest hrest
      · rw [List.dropWhile_cons_of_neg hextends]
        have hnotX : ¬ keys lq.name <+: keys x.name :=
          fun hpre => hextends ((extendsName_iff helement.proper).mpr hpre)
        intro e he
        rcases List.mem_cons.mp he with rfl | he
        · exact hnotX
        · intro hpre
          apply hnotX
          exact Below.prefix_between (hlq x (by simp)) (hx e he) List.prefix_rfl hpre

theorem createLocationsList_spec {fuel : ℕ} {queue : List LocationQueue}
    (hne : queue ≠ []) (hfuel : queue.length ≤ fuel) (helements : ∀ e ∈ queue, Element e)
    (hordered : queue.Pairwise NameBefore) :
    ∃ nested, nightHttpCreateLocationsList fuel queue = some nested ∧ Nested queue nested := by
  induction fuel generalizing queue with
  | zero => exact absurd (List.length_eq_zero_iff.mp (Nat.le_zero.mp hfuel)) hne
  | succ fuel ih =>
      rcases queue with _ | ⟨lq, _ | ⟨lx, queue⟩⟩
      · exact absurd rfl hne
      · exact ⟨[lq], rfl, Nested.single (helements lq (by simp)).list (by simp) Nested.nil⟩
      · have hlist : lq.list = [] := (helements lq (by simp)).list
        have hrest : (lx :: queue).Pairwise NameBefore := hordered.of_cons
        have helementsRest : ∀ e ∈ lx :: queue, Element e :=
          fun e he => helements e (List.mem_cons_of_mem _ he)
        have hfuelRest : (lx :: queue).length ≤ fuel := Nat.le_of_succ_le_succ hfuel
        rw [nightHttpCreateLocationsList]
        by_cases hexactOnly : lq.inclusive.isNone = true
        · rw [if_pos hexactOnly]
          obtain ⟨rest, hcreate, hnested⟩ := ih (by simp) hfuelRest helementsRest hrest
          refine ⟨lq :: rest, by rw [hcreate]; rfl, Nested.single hlist ?_ hnested⟩
          intro hsome
          simp [Option.isNone_iff_eq_none.mp hexactOnly] at hsome
        · rw [if_neg hexactOnly]
          have hinclusive : lq.inclusive.isSome = true := by
            simpa [Option.isNone_iff_eq_none, Option.isSome_iff_ne_none] using hexactOnly
          obtain ⟨inside, hinside⟩ : ∃ inside, (lx :: queue).takeWhile (extendsName lq) = inside :=
            ⟨_, rfl⟩
          obtain ⟨outside, houtside⟩ :
              ∃ outside, (lx :: queue).dropWhile (extendsName lq) = outside := ⟨_, rfl⟩
          have hsplit : inside ++ outside = lx :: queue := by
            rw [← hinside, ← houtside]
            exact List.takeWhile_append_dropWhile
          have hlength : inside.length + outside.length ≤ fuel := by
            rw [← List.length_append, hsplit]
            exact hfuelRest
          have hbelow : ∀ e ∈ inside, lq.inclusive.isSome ∧ keys lq.name <+: keys e.name := by
            intro e he
            have helement : Element e := helementsRest e (hsplit ▸ List.mem_append_left _ he)
            rw [← hinside] at he
            exact ⟨hinclusive, (extendsName_iff helement.proper).mp (List.mem_takeWhile_imp he)⟩
          have hapart : ∀ e ∈ outside, ¬ keys lq.name <+: keys e.name := by
            rw [← houtside]
            exact outside_apart helementsRest hordered
          rw [← hsplit] at helementsRest hrest
          obtain ⟨horderInside, horderOutside, _⟩ := List.pairwise_append.mp hrest
          have hnest (hne : inside ≠ []) := ih hne (by omega)
            (fun e he => helementsRest e (List.mem_append_left _ he)) horderInside
          have hrestNest (hne : outside ≠ []) := ih hne (by omega)
            (fun e he => helementsRest e (List.mem_append_right _ he)) horderOutside
          simp only [hinside, houtside, hlist, List.nil_append]
          rw [← hsplit]
          by_cases hnoneInside : inside = []
          · subst hnoneInside
            have hne : outside ≠ [] := by
              rintro rfl
              simp at hsplit
            obtain ⟨rest, hcreate, hnested⟩ := hrestNest hne
            exact ⟨lq :: rest, by simp [hcreate], Nested.single hlist (fun _ => hapart) hnested⟩
          · obtain ⟨list, hcreate, hnested⟩ := hnest hnoneInside
            by_cases hnoneOutside : outside = []
            · subst hnoneOutside
              refine ⟨[{ lq with list := list }], by simp [hnoneInside, hcreate], ?_⟩
              exact Nested.cons hbelow (fun _ => hapart) hnested Nested.nil
            · obtain ⟨rest, hcreateRest, hnestedRest⟩ := hrestNest hnoneOutside
              refine ⟨{ lq with list := list } :: rest, ?_, ?_⟩
              · simp [hnoneInside, hnoneOutside, hcreate, hcreateRest]
              · exact Nested.cons hbelow (fun _ => hapart) hnested hnestedRest

/-! ## The tree -/

/-- The middle element `lq` of a queue, the elements before it, below it and behind it. -/
structure Split (front : List LocationQueue) (lq : LocationQueue)
    (inside behind : List LocationQueue) : Prop where
  front_apart : ∀ e ∈ front, e.inclusive.isSome → ¬ keys e.name <+: keys lq.name
  inside_below : ∀ e ∈ inside, lq.inclusive.isSome ∧ keys lq.name <+: keys e.name
  behind_apart : lq.inclusive.isSome → ∀ e ∈ behind, ¬ keys lq.name <+: keys e.name

/-- The tree of a queue whose names begin with `base`, with the elements in order. -/
inductive Built : List ℤ → List LocationQueue → LocationTree → Prop
  | null (base : List ℤ) : Built base [] .null
  | node {base : List ℤ} {front inside behind : List LocationQueue} {lq : LocationQueue}
      {left right tree : LocationTree} {name : List Byte}
      (split : Split front lq inside behind) (name_eq : base ++ keys name = keys lq.name)
      (proper : Proper name) (left_built : Built base front left)
      (tree_built : Built (keys lq.name) inside tree)
      (right_built : Built base behind right) :
      Built base (front ++ lq :: (inside ++ behind))
        (.node left right tree lq.exact lq.inclusive name)

/-- A nested queue cut at one of its elements. -/
theorem Nested.split {queue front tail : List LocationQueue} {middle : LocationQueue}
    (hnested : Nested queue (front ++ middle :: tail)) :
    ∃ frontE lq inside behind, queue = frontE ++ lq :: (inside ++ behind) ∧
      (middle.name = lq.name ∧ middle.exact = lq.exact ∧ middle.inclusive = lq.inclusive) ∧
      Nested frontE front ∧ Nested inside middle.list ∧ Nested behind tail ∧
        Split frontE lq inside behind := by
  induction front generalizing queue with
  | nil =>
      cases hnested with
      | @cons lq inside outside list rest hinclusive hapart hbelow hbehind =>
          exact ⟨[], lq, inside, outside, rfl, ⟨rfl, rfl, rfl⟩, Nested.nil, hbelow, hbehind,
            by simp, hinclusive, hapart⟩
  | cons first front ih =>
      cases hnested with
      | @cons lq inside outside list rest hinclusive hapart hbelow hbehind =>
          obtain ⟨frontE, lq', inside', behind, rfl, hmiddle, hfront, hinside, hbehind', hsplit⟩ :=
            ih hbehind
          refine ⟨lq :: (inside ++ frontE), lq', inside', behind, by simp, hmiddle,
            Nested.cons hinclusive ?_ hbelow hfront, hinside, hbehind', ?_, hsplit.inside_below,
            hsplit.behind_apart⟩
          · intro hsome e he
            exact hapart hsome e (List.mem_append_left _ he)
          · intro e he hsome hpre
            rcases List.mem_cons.mp he with rfl | he
            · exact hapart hsome lq' (by simp) hpre
            · rcases List.mem_append.mp he with he | he
              · obtain ⟨hlqSome, hlqPre⟩ := hinclusive e he
                exact hapart hlqSome lq' (by simp) (hlqPre.trans hpre)
              · exact hsplit.front_apart e he hsome hpre

theorem createLocationsTree_spec {fuel pre : ℕ} {base : List ℤ}
    {queue nested : List LocationQueue} (hnested : Nested queue nested) (hne : queue ≠ [])
    (hfuel : queue.length ≤ fuel) (hproper : ∀ e ∈ queue, Proper e.name)
    (hbase : ∀ e ∈ queue, base <+: keys e.name) (hpre : pre = base.length) :
    ∃ tree, nightHttpCreateLocationsTree fuel nested pre = some tree ∧
      Built base queue tree := by
  induction fuel generalizing queue nested base pre with
  | zero => exact absurd (List.length_eq_zero_iff.mp (Nat.le_zero.mp hfuel)) hne
  | succ fuel ih =>
      have hnestedNe : nested ≠ [] := fun hnil => hne (hnested.eq_nil_iff.mpr hnil)
      have hmiddle := nightQueueMiddle_lt hnestedNe
      rw [nightHttpCreateLocationsTree]
      cases hdrop : nested.drop (nightQueueMiddle nested) with
      | nil => exact absurd (List.drop_eq_nil_iff.mp hdrop) (not_le.mpr hmiddle)
      | cons middle tail =>
          have hcut : nested = nested.take (nightQueueMiddle nested) ++ middle :: tail := by
            rw [← hdrop, List.take_append_drop]
          generalize hfront : nested.take (nightQueueMiddle nested) = front at hcut
          have htail : front = [] → tail = [] := by
            intro hnil
            have hzero : nightQueueMiddle nested = 0 := by
              rcases List.take_eq_nil_iff.mp (hfront.trans hnil) with hzero | hnil
              · exact hzero
              · exact absurd hnil hnestedNe
            have hone := (nightQueueMiddle_eq_zero hnestedNe).mp hzero
            rw [hcut, List.length_append, List.length_cons] at hone
            exact List.length_eq_zero_iff.mp (by omega)
          rw [hcut] at hnested
          obtain ⟨frontE, lq, inside, behind, rfl, ⟨hname, hexact, hinclusive⟩, hfrontNested,
            hinsideNested, hbehindNested, hsplit⟩ := hnested.split
          simp only [List.length_append, List.length_cons] at hfuel
          have hpart (base' : List ℤ) (pre' : ℕ) {partE part : List LocationQueue}
              (hnest : Nested partE part) (hlength : partE.length ≤ fuel)
              (hsub : ∀ e ∈ partE, e ∈ frontE ++ lq :: (inside ++ behind))
              (hbase' : ∀ e ∈ partE, base' <+: keys e.name) (hpre' : pre' = base'.length) :
              ∃ tree, (if part.isEmpty then some .null
                else nightHttpCreateLocationsTree fuel part pre') = some tree ∧
                Built base' partE tree := by
            by_cases hnil : part = []
            · have hnilE : partE = [] := hnest.eq_nil_iff.mpr hnil
              subst hnil hnilE
              exact ⟨.null, rfl, Built.null base'⟩
            · rw [if_neg (by simpa using hnil)]
              exact ih hnest (fun h => hnil (hnest.eq_nil_iff.mp h)) hlength
                (fun e he => hproper e (hsub e he)) hbase' hpre'
          have hlqBase : base <+: keys lq.name := hbase lq (by simp)
          have hlength : pre ≤ lq.name.length := by
            simpa [hpre] using hlqBase.length_le
          obtain ⟨left, hleft, hleftBuilt⟩ := hpart base pre hfrontNested (by omega)
            (fun e he => by simp [he]) (fun e he => hbase e (by simp [he])) hpre
          obtain ⟨right, hright, hrightBuilt⟩ := hpart base pre hbehindNested (by omega)
            (fun e he => by simp [he]) (fun e he => hbase e (by simp [he])) hpre
          obtain ⟨tree, htree, htreeBuilt⟩ := hpart (keys lq.name)
            (pre + (lq.name.length - pre)) hinsideNested (by omega)
            (fun e he => by simp [he]) (fun e he => (hsplit.inside_below e he).2)
            (by rw [List.length_map]; omega)
          refine ⟨.node left right tree lq.exact lq.inclusive (lq.name.drop pre), ?_, ?_⟩
          · have hright' : (if front.isEmpty ∨ tail.isEmpty then some .null
                else nightHttpCreateLocationsTree fuel tail pre) = some right := by
              by_cases hnil : front.isEmpty ∨ tail.isEmpty
              · have htailNil : tail.isEmpty = true := by
                  simp only [List.isEmpty_iff] at hnil ⊢
                  exact hnil.elim htail id
                rw [if_pos hnil, ← hright, if_pos htailNil]
              · rw [if_neg hnil, ← hright, if_neg (fun h => hnil (Or.inr h))]
            simp only [hname, hexact, hinclusive, hleft, hright', htree,
              Option.bind_eq_bind, Option.bind_some]
          · refine Built.node hsplit ?_ ?_ hleftBuilt htreeBuilt hrightBuilt
            · rw [keys, List.map_drop, hpre]
              exact List.prefix_iff_eq_append.mp hlqBase
            · intro ch hch
              exact hproper lq (by simp) ch (List.mem_of_mem_drop hch)

/-- What a server with valid locations has after both initialisations. -/
structure Layout (locations : List CoreLocConf) (queue : List LocationQueue) : Prop where
  elements : ∀ lq ∈ queue, Element lq
  ordered : queue.Pairwise NameBefore
  locs : (queue.flatMap LocationQueue.locs).Perm locations

theorem initStaticLocationTrees_spec {locations : List CoreLocConf}
    (hvalid : ValidLocations locations) :
    ∃ queue tree, nightHttpInitStaticLocationTrees
        (nightHttpInitLocations (locations.foldl nightHttpAddLocation [])) = some tree ∧
      Built [] queue tree ∧ Layout locations queue := by
  obtain ⟨hperm, hahead⟩ := initLocations_spec hvalid
  have helements : ∀ e ∈ nightHttpInitLocations (locations.foldl nightHttpAddLocation []),
      Element e := by
    intro e he
    obtain ⟨lc, hlc, rfl⟩ := List.mem_map.mp (hperm.mem_iff.mp he)
    exact element_ofLoc (hvalid.names lc hlc)
  have hlocs : ((nightHttpInitLocations (locations.foldl nightHttpAddLocation [])).flatMap
      LocationQueue.locs).Perm locations := by
    have hflat := hperm.flatMap_right LocationQueue.locs
    have hsingle : (locations.map LocationQueue.ofLoc).flatMap LocationQueue.locs = locations := by
      simp [List.flatMap_map, locs_ofLoc]
    rwa [hsingle] at hflat
  rw [nightHttpInitStaticLocationTrees]
  cases hsorted : nightHttpInitLocations (locations.foldl nightHttpAddLocation []) with
  | nil =>
      rw [hsorted] at hlocs
      exact ⟨[], .null, rfl, Built.null [], ⟨by simp, List.Pairwise.nil, hlocs⟩⟩
  | cons lq queue =>
      rw [hsorted] at hlocs helements hahead
      obtain ⟨joined, hjoin, hjoined⟩ := joinLoop_spec helements hahead
      have hne : joined ≠ [] := by
        rintro rfl
        have hnone := hjoined.locs
        have hsome := (helements lq (by simp)).some
        rcases hsome with hsome | hsome
        · obtain ⟨lc, hlc⟩ := Option.isSome_iff_exists.mp hsome
          simp [LocationQueue.locs, hlc] at hnone
        · obtain ⟨lc, hlc⟩ := Option.isSome_iff_exists.mp hsome
          simp [LocationQueue.locs, hlc] at hnone
      obtain ⟨nested, hcreate, hnested⟩ := createLocationsList_spec hne (Nat.le_refl _)
        hjoined.elements hjoined.ordered
      obtain ⟨tree, htree, hbuilt⟩ := createLocationsTree_spec hnested hne (Nat.le_refl _)
        (fun e he => (hjoined.elements e he).proper) (fun e _ => List.nil_prefix) rfl
      refine ⟨joined, tree, ?_, hbuilt, hjoined.elements, hjoined.ordered, hjoined.locs ▸ hlocs⟩
      rw [List.isEmpty_cons, if_neg (by decide)]
      simp only [nightHttpJoinExactLocations, hjoin, hcreate, Option.bind_eq_bind,
        Option.bind_some]
      exact htree

end Night.Locations
