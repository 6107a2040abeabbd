import Night.Http.LocationSearch

/-!
# What the location tree holds

The build fails on two locations of one kind and one name.  Otherwise the tree has
one node for each name, with the locations of this name as its payloads, and the
names on the way down to a node spell the name of its locations.
-/

namespace Night.Locations

open Night.Bytes Night.FileName Night.Queue Night.PrefixOrder

/-! ## Nodes and payloads -/

/-- A node of the tree: the names of the nodes whose `tree` leads to it and its own
one, and its two payloads. -/
structure TreeNode where
  path : List Byte
  exact : Option CoreLocConf
  inclusive : Option CoreLocConf
  deriving DecidableEq, Repr

/-- The nodes below `path`.  The sons of a node have its `path`, what is below it has
its name in front. -/
def LocationTree.nodes : LocationTree → List Byte → List TreeNode
  | .null, _ => []
  | .node left right tree exact inclusive name, path =>
      left.nodes path ++
        ⟨path ++ name, exact, inclusive⟩ :: (tree.nodes (path ++ name) ++ right.nodes path)

def TreeNode.locs (node : TreeNode) : List CoreLocConf :=
  node.exact.toList ++ node.inclusive.toList

/-- The tree that a server with these locations gets. -/
def buildTree (locations : List CoreLocConf) : Option LocationTree :=
  nightHttpInitStaticLocationTrees
    (nightHttpInitLocations (locations.foldl nightHttpAddLocation []))

/-- Two locations of one kind do not have the same name. -/
def Differ (lc other : CoreLocConf) : Prop :=
  lc.exactMatch = other.exactMatch → lower lc.name ≠ lower other.name

/-- Every location is at one place of the tree: as the payload of its kind of a node
whose path spells its name.  No two nodes have the same path and none is empty. -/
structure Arranged (locations : List CoreLocConf) (nodes : List TreeNode) : Prop where
  once : (nodes.flatMap TreeNode.locs).Perm locations
  exact : ∀ node ∈ nodes, ∀ lc ∈ node.exact,
    lc.exactMatch = true ∧ lower node.path = lower lc.name
  inclusive : ∀ node ∈ nodes, ∀ lc ∈ node.inclusive,
    lc.exactMatch = false ∧ lower node.path = lower lc.name
  paths : nodes.Pairwise fun node other => lower node.path ≠ lower other.path
  used : ∀ node ∈ nodes, node.locs ≠ []

/-! ## The nodes of a tree that was built -/

/-- The node that an element becomes. -/
def NodeOf (lq : LocationQueue) (node : TreeNode) : Prop :=
  keys node.path = keys lq.name ∧ node.exact = lq.exact ∧ node.inclusive = lq.inclusive

theorem NodeOf.locs_eq {lq : LocationQueue} {node : TreeNode} (hnode : NodeOf lq node) :
    node.locs = lq.locs := by
  rw [TreeNode.locs, LocationQueue.locs, hnode.2.1, hnode.2.2]

/-- Every element of the queue becomes one node, in the order of the queue. -/
theorem Built.nodes {base : List ℤ} {queue : List LocationQueue} {tree : LocationTree}
    (hbuilt : Built base queue tree) {path : List Byte} (hpath : keys path = base) :
    List.Forall₂ NodeOf queue (tree.nodes path) := by
  induction hbuilt generalizing path with
  | null base => exact List.Forall₂.nil
  | @node base front inside behind lq left right tree name _ hname _ _ _ _ ihLeft ihTree
      ihRight =>
      have hfull : keys (path ++ name) = keys lq.name := by
        rw [keys, List.map_append, ← hname, ← hpath]
      have hmiddle : NodeOf lq ⟨path ++ name, lq.exact, lq.inclusive⟩ := ⟨hfull, rfl, rfl⟩
      have hbelow := List.rel_append (ihTree hfull) (ihRight hpath)
      exact List.rel_append (ihLeft hpath) (List.Forall₂.cons hmiddle hbelow)

theorem forall₂_locs {queue : List LocationQueue} {nodes : List TreeNode}
    (hnodes : List.Forall₂ NodeOf queue nodes) :
    nodes.flatMap TreeNode.locs = queue.flatMap LocationQueue.locs := by
  induction hnodes with
  | nil => rfl
  | cons hnode _ ih => rw [List.flatMap_cons, List.flatMap_cons, hnode.locs_eq, ih]

/-- A node that is there comes from an element. -/
theorem exists_element {queue : List LocationQueue} {nodes : List TreeNode}
    (hnodes : List.Forall₂ NodeOf queue nodes) {node : TreeNode} (hnode : node ∈ nodes) :
    ∃ lq ∈ queue, NodeOf lq node := by
  induction hnodes with
  | nil => cases hnode
  | @cons lq first queue nodes hfirst _ ih =>
      rcases List.mem_cons.mp hnode with rfl | hnode
      · exact ⟨lq, by simp, hfirst⟩
      · obtain ⟨other, hother, hof⟩ := ih hnode
        exact ⟨other, List.mem_cons_of_mem _ hother, hof⟩

theorem pairwise_paths {queue : List LocationQueue} {nodes : List TreeNode}
    (hnodes : List.Forall₂ NodeOf queue nodes) (hordered : queue.Pairwise NameBefore) :
    nodes.Pairwise fun node other => lower node.path ≠ lower other.path := by
  induction hnodes with
  | nil => exact List.Pairwise.nil
  | @cons lq first queue nodes hfirst hrest ih =>
      obtain ⟨hbefore, hqueue⟩ := List.pairwise_cons.mp hordered
      refine List.pairwise_cons.mpr ⟨?_, ih hqueue⟩
      intro node hnode hsame
      obtain ⟨other, hother, hof⟩ := exists_element hrest hnode
      have hkeys : keys lq.name = keys other.name := by
        rw [← hfirst.1, ← hof.1]
        exact keys_eq_iff.mpr hsame
      exact not_below_self _ ((hbefore other hother).congr hkeys rfl)

/-- A server whose locations differ gets a tree that holds each of them once. -/
theorem buildTree_of_differ {locations : List CoreLocConf}
    (hproper : ∀ lc ∈ locations, Proper lc.name) (hdiffer : locations.Pairwise Differ) :
    ∃ tree, buildTree locations = some tree ∧ Arranged locations (tree.nodes []) := by
  obtain ⟨queue, tree, htree, hbuilt, hlayout⟩ :=
    initStaticLocationTrees_spec ⟨hproper, hdiffer⟩
  have hnodes : List.Forall₂ NodeOf queue (tree.nodes []) := hbuilt.nodes rfl
  refine ⟨tree, htree, ?_, ?_, ?_, pairwise_paths hnodes hlayout.ordered, ?_⟩
  · rw [forall₂_locs hnodes]
    exact hlayout.locs
  · intro node hnode lc hlc
    obtain ⟨lq, hlq, hpath, hexact, -⟩ := exists_element hnodes hnode
    rw [hexact] at hlc
    obtain ⟨hkind, hkeys⟩ := (hlayout.elements lq hlq).exact lc hlc
    exact ⟨hkind, keys_eq_iff.mp (hpath.trans hkeys.symm)⟩
  · intro node hnode lc hlc
    obtain ⟨lq, hlq, hpath, -, hinclusive⟩ := exists_element hnodes hnode
    rw [hinclusive] at hlc
    obtain ⟨hkind, hkeys⟩ := (hlayout.elements lq hlq).inclusive lc hlc
    exact ⟨hkind, keys_eq_iff.mp (hpath.trans hkeys.symm)⟩
  · intro node hnode
    obtain ⟨lq, hlq, hof⟩ := exists_element hnodes hnode
    obtain ⟨lc, hlc⟩ := (hlayout.elements lq hlq).exists_loc
    rw [hof.locs_eq]
    exact List.ne_nil_of_mem hlc

/-! ## Locations with one name -/

/-- Two elements of a queue do not both hold a location of one kind and one name. -/
def Apart (one two : LocationQueue) : Prop :=
  keys one.name = keys two.name →
    ¬ (one.exact.isSome ∧ two.exact.isSome) ∧ ¬ (one.inclusive.isSome ∧ two.inclusive.isSome)

theorem Apart.symm {one two : LocationQueue} (hapart : Apart one two) : Apart two one := by
  intro hsame
  obtain ⟨hexact, hinclusive⟩ := hapart hsame.symm
  exact ⟨fun h => hexact h.symm, fun h => hinclusive h.symm⟩

/-- The loop ends well only on a sorted queue without two locations of one kind and one
name. -/
theorem pairwise_apart_of_joinLoop {lq : LocationQueue} {queue joined : List LocationQueue}
    (helements : ∀ e ∈ lq :: queue, Element e) (hsorted : (lq :: queue).Pairwise SortedBefore)
    (hjoin : joinLoop lq queue = some joined) : (lq :: queue).Pairwise Apart := by
  induction queue generalizing lq joined with
  | nil => exact List.pairwise_singleton _ _
  | cons lx queue ih =>
      have hlq : Element lq := helements lq (by simp)
      have hlx : Element lx := helements lx (by simp)
      obtain ⟨hfirst, hrest⟩ := List.pairwise_cons.mp hsorted
      obtain ⟨hsecond, hqueue⟩ := List.pairwise_cons.mp hrest
      rw [joinLoop] at hjoin
      by_cases hsame : keys lq.name = keys lx.name
      · rw [if_pos ((sameName_iff hlx.proper).mpr hsame)] at hjoin
        split_ifs at hjoin with hclash
        rw [not_or] at hclash
        obtain ⟨hexact, hinclusive⟩ := hclash
        have hlxExact : lx.exact = none := by
          rcases hfirst lx (by simp) with hbefore | ⟨-, hexactFirst⟩
          · exact absurd (hbefore.congr hsame rfl) (not_below_self _)
          · by_contra hsome
            have hlxSome : lx.exact.isSome = true := Option.isSome_iff_ne_none.mpr hsome
            exact hexact ⟨hexactFirst hlxSome, hlxSome⟩
        have hlqInclusive : lq.inclusive = none := by
          have hsome := hlx.some
          simp only [hlxExact, Option.isSome_none, Bool.false_eq_true, false_or] at hsome
          by_contra hlqSome
          exact hinclusive ⟨Option.isSome_iff_ne_none.mpr hlqSome, hsome⟩
        let merged : LocationQueue := { lq with inclusive := lx.inclusive }
        have hmerged : Element merged := element_merge hlq hlx hsame hlxExact
        have hsortedMerged : (merged :: queue).Pairwise SortedBefore := by
          refine List.pairwise_cons.mpr ⟨?_, hqueue⟩
          intro f hf
          rcases hsecond f hf with hbefore | ⟨hkeys, hexactFirst⟩
          · exact Or.inl (hbefore.congr hsame.symm rfl)
          · refine Or.inr ⟨hsame.trans hkeys, ?_⟩
            intro hfSome
            have hlxSome := hexactFirst hfSome
            simp [hlxExact] at hlxSome
        have hapart := @ih merged joined
          (List.forall_mem_cons.mpr ⟨hmerged, fun e he => helements e (by simp [he])⟩)
          hsortedMerged hjoin
        obtain ⟨hmergedApart, hqueueApart⟩ := List.pairwise_cons.mp hapart
        refine List.pairwise_cons.mpr ⟨?_, List.pairwise_cons.mpr ⟨?_, hqueueApart⟩⟩
        · intro f hf
          rcases List.mem_cons.mp hf with rfl | hf
          · exact fun _ => ⟨hexact, hinclusive⟩
          · intro hkeys
            exact ⟨(hmergedApart f hf hkeys).1, by simp [hlqInclusive]⟩
        · intro f hf hkeys
          exact ⟨by simp [hlxExact], (hmergedApart f hf (hsame.trans hkeys)).2⟩
      · rw [if_neg (fun h => hsame ((sameName_iff hlx.proper).mp h))] at hjoin
        obtain ⟨rest, hjoinRest, -⟩ := Option.map_eq_some_iff.mp hjoin
        have hrestApart := ih (fun e he => helements e (by simp [he])) hrest hjoinRest
        refine List.pairwise_cons.mpr ⟨?_, hrestApart⟩
        have hlxBefore : NameBefore lq lx := by
          rcases hfirst lx (by simp) with hbefore | ⟨heq, -⟩
          · exact hbefore
          · exact absurd heq hsame
        intro f hf hkeys
        have hbefore : NameBefore lq f := by
          rcases List.mem_cons.mp hf with rfl | hf
          · exact hlxBefore
          · rcases hsecond f hf with hbefore | ⟨heq, -⟩
            · exact hlxBefore.trans hbefore
            · exact hlxBefore.congr rfl heq
        exact absurd (hbefore.congr hkeys rfl) (not_below_self _)

theorem apart_ofLoc_iff (lc other : CoreLocConf) :
    Apart (LocationQueue.ofLoc lc) (LocationQueue.ofLoc other) ↔ Differ lc other := by
  have hname (lc : CoreLocConf) : (LocationQueue.ofLoc lc).name = lc.name := rfl
  have hinclusive (lc : CoreLocConf) :
      (LocationQueue.ofLoc lc).inclusive.isSome = !lc.exactMatch := by
    cases h : lc.exactMatch <;> simp [LocationQueue.ofLoc, h]
  simp only [Apart, Differ, hname, isSome_exact_ofLoc, hinclusive, keys_eq_iff]
  cases lc.exactMatch <;> cases other.exactMatch <;> simp

/-- If the build ends well, the locations differ. -/
theorem differ_of_buildTree {locations : List CoreLocConf} {tree : LocationTree}
    (hproper : ∀ lc ∈ locations, Proper lc.name) (htree : buildTree locations = some tree) :
    locations.Pairwise Differ := by
  have hnames : ∀ lq ∈ locations.map LocationQueue.ofLoc, Proper lq.name := by
    intro lq hlq
    obtain ⟨lc, hlc, rfl⟩ := List.mem_map.mp hlq
    exact hproper lc hlc
  have hperm := nightQueueSort_perm cmpLocations_decides hnames
  have hsorted := pairwise_nightQueueSort cmpLocations_decides hnames
  have helements : ∀ e ∈ nightQueueSort nightHttpCmpLocations
      (locations.map LocationQueue.ofLoc), Element e := by
    intro e he
    obtain ⟨lc, hlc, rfl⟩ := List.mem_map.mp (hperm.mem_iff.mp he)
    exact element_ofLoc (hproper lc hlc)
  rw [buildTree, foldl_addLocation, List.nil_append, nightHttpInitLocations,
    nightHttpInitStaticLocationTrees] at htree
  have hapart : (nightQueueSort nightHttpCmpLocations
      (locations.map LocationQueue.ofLoc)).Pairwise Apart := by
    cases hqueue : nightQueueSort nightHttpCmpLocations
        (locations.map LocationQueue.ofLoc) with
    | nil => exact List.Pairwise.nil
    | cons lq queue =>
        rw [hqueue] at htree hsorted helements
        rw [List.isEmpty_cons, if_neg (by decide)] at htree
        obtain ⟨joined, hjoin, -⟩ := Option.bind_eq_some_iff.mp htree
        exact pairwise_apart_of_joinLoop helements hsorted hjoin
  have hqueueApart := (hperm.pairwise_iff Apart.symm).mp hapart
  exact (List.pairwise_map.mp hqueueApart).imp (fun h => (apart_ofLoc_iff _ _).mp h)

/-- The build fails exactly on two locations of one kind whose names differ in case at
most, and otherwise the tree holds every location at one place, under its name. -/
theorem buildTree_spec {locations : List CoreLocConf}
    (hproper : ∀ lc ∈ locations, Proper lc.name) :
    (buildTree locations = none ↔ ¬ locations.Pairwise Differ) ∧
      ∀ tree, buildTree locations = some tree → Arranged locations (tree.nodes []) := by
  constructor
  · constructor
    · intro hnone hdiffer
      obtain ⟨tree, htree, -⟩ := buildTree_of_differ hproper hdiffer
      rw [hnone] at htree
      cases htree
    · intro hsame
      cases htree : buildTree locations with
      | none => rfl
      | some tree => exact absurd (differ_of_buildTree hproper htree) hsame
  · intro tree htree
    obtain ⟨tree', htree', harranged⟩ :=
      buildTree_of_differ hproper (differ_of_buildTree hproper htree)
    rw [htree, Option.some.injEq] at htree'
    rw [htree']
    exact harranged

/-- A server with `/`, `= /a` and `/a`. -/
theorem buildTree_smallServer :
    (buildTree smallServer = none ↔ ¬ smallServer.Pairwise Differ) ∧
      ∀ tree, buildTree smallServer = some tree → Arranged smallServer (tree.nodes []) :=
  buildTree_spec (by simp [smallServer, Proper, ascii])

/-- The build fails on `/A` and `/a`, whose names are not the same.  On the names `a`,
`NUL`, `b` and `a`, `NUL`, `c`, `d` it ends well, but the name of the second location is
not what the path to it spells. -/
theorem not_buildTree_exactNames :
    (buildTree [⟨[ascii '/', ascii 'A'], false⟩, ⟨[ascii '/', ascii 'a'], false⟩] = none ∧
        [ascii '/', ascii 'A'] ≠ [ascii '/', ascii 'a']) ∧
      ∃ tree, buildTree [⟨[ascii 'a', 0#8, ascii 'b'], false⟩,
          ⟨[ascii 'a', 0#8, ascii 'c', ascii 'd'], false⟩] = some tree ∧
        ∃ node ∈ tree.nodes [], ∃ lc ∈ node.inclusive,
          lower node.path ≠ lower lc.name := by
  refine ⟨⟨by decide, by decide⟩, .node .null .null
    (.node .null .null .null none (some ⟨[ascii 'a', 0#8, ascii 'c', ascii 'd'], false⟩)
      [ascii 'd']) none (some ⟨[ascii 'a', 0#8, ascii 'b'], false⟩)
      [ascii 'a', 0#8, ascii 'b'], by decide, ?_⟩
  exact ⟨⟨[ascii 'a', 0#8, ascii 'b', ascii 'd'], none,
    some ⟨[ascii 'a', 0#8, ascii 'c', ascii 'd'], false⟩⟩, by decide, _, rfl, by decide⟩

end Night.Locations
