import Night.Lib.Loops
import Night.Core.RbTreeRuns

/-!
# Rounds of the loops

The loops of an insertion and of a deletion go down or up a path.  The trees of a run are not
higher than twice the logarithm of the number of their nodes, so each loop is done after so
many rounds.
-/

namespace Night.RbTree

open Night.Loops
open Night.RedBlack
open Night.RedBlack.Tree
open Rbtree

/-! ## Rounds that are enough -/

section Rounds

variable {Key : Type} {less : Key → Key → Bool} {s s' : Rbtree Key} {node temp : Address}
  {fuel more : ℕ} {t : RedBlack.Tree Address} {above : Option Address}

/-- The round of an insert function at `temp`. -/
def descend (less : Key → Key → Bool) (node : Address) (s : Rbtree Key) (temp : Address) :
    Rbtree Key ⊕ Address :=
  let side := if less (s.key node) (s.key temp) then Side.left else .right
  if s.child side temp = s.sentinel then
    let s := setChild side temp node s
    let s := setParent node temp s
    .inl (setRed node true (setChild .right node s.sentinel (setChild .left node s.sentinel s)))
  else .inr (s.child side temp)

theorem loop_nightRbtreeInsertValue (less : Key → Key → Bool) (node : Address) (s : Rbtree Key) :
    Loop (fun rounds temp => nightRbtreeInsertValue less rounds temp node s)
      (descend less node s) where
  zero _ := rfl
  succ rounds temp := by
    simp only [nightRbtreeInsertValue, descend]
    split <;> split <;> rfl

theorem loop_nightRbtreeMin (s : Rbtree Key) :
    Loop (fun rounds node => nightRbtreeMin rounds node s) fun node =>
      if s.child .left node ≠ s.sentinel then .inr (s.child .left node) else .inl node where
  zero _ := rfl
  succ rounds node := by
    simp only [nightRbtreeMin]
    split <;> rfl

/-- The side of its parent where a node is, as the loops find it. -/
def sideOf (node : Address) (s : Rbtree Key) : Side :=
  if node = s.child .left (s.parent node) then .left else .right

theorem loop_insertFixups : Loop (fun rounds (at_ : Address × Rbtree Key) =>
      insertFixups rounds at_.1 at_.2) fun at_ =>
    if at_.1 ≠ at_.2.root ∧ at_.2.red (at_.2.parent at_.1) then
      .inr (insertFixup (sideOf (at_.2.parent at_.1) at_.2) at_.1 at_.2)
    else .inl at_.2 where
  zero _ := rfl
  succ rounds at_ := by
    simp only [insertFixups]
    split <;> rfl

theorem loop_deleteFixups : Loop (fun rounds (at_ : Address × Rbtree Key) =>
      deleteFixups rounds at_.1 at_.2) fun at_ =>
    if at_.1 ≠ at_.2.root ∧ !at_.2.red at_.1 then
      .inr (deleteFixup (sideOf at_.1 at_.2) at_.1 at_.2)
    else .inl (setRed at_.1 false at_.2) where
  zero _ := rfl
  succ rounds at_ := by
    simp only [deleteFixups]
    split <;> rfl

theorem chooseSubst_more (hmore : fuel ≤ more) {chosen : Address × Address}
    (hchoose : chooseSubst fuel node s = some chosen) :
    chooseSubst more node s = some chosen := by
  rw [chooseSubst] at hchoose ⊢
  split at hchoose
  · rename_i hleft
    rw [if_pos hleft]
    exact hchoose
  · rename_i hleft
    rw [if_neg hleft]
    split at hchoose
    · rename_i hright
      rw [if_pos hright]
      exact hchoose
    · rename_i hright
      rw [if_neg hright]
      obtain ⟨least, hmin, hrest⟩ := Option.bind_eq_some_iff.mp hchoose
      exact Option.bind_eq_some_iff.mpr ⟨least, (loop_nightRbtreeMin s).more hmore hmin, hrest⟩

theorem nightRbtreeInsert_more (hmore : fuel ≤ more)
    (hinsert : nightRbtreeInsert less fuel node s = some s') :
    nightRbtreeInsert less more node s = some s' := by
  rw [nightRbtreeInsert] at hinsert ⊢
  split at hinsert
  · rename_i hempty
    rw [if_pos hempty]
    exact hinsert
  · rename_i hempty
    rw [if_neg hempty]
    obtain ⟨s₁, hlinked, hrest⟩ := Option.bind_eq_some_iff.mp hinsert
    obtain ⟨s₂, hloop, hrest⟩ := Option.bind_eq_some_iff.mp hrest
    refine Option.bind_eq_some_iff.mpr
      ⟨s₁, (loop_nightRbtreeInsertValue less node s).more hmore hlinked, ?_⟩
    exact Option.bind_eq_some_iff.mpr
      ⟨s₂, @Loop.more _ _ _ _ (node, s₁) _ _ _ loop_insertFixups hmore hloop, hrest⟩

theorem nightRbtreeDelete_more [Zero Key] (hmore : fuel ≤ more)
    (hdelete : nightRbtreeDelete fuel node s = some s') :
    nightRbtreeDelete more node s = some s' := by
  rw [nightRbtreeDelete] at hdelete ⊢
  obtain ⟨⟨temp, subst⟩, hchoose, hrest⟩ := Option.bind_eq_some_iff.mp hdelete
  refine Option.bind_eq_some_iff.mpr ⟨(temp, subst), chooseSubst_more hmore hchoose, ?_⟩
  simp only at hrest ⊢
  split at hrest
  · rename_i hroot
    rw [if_pos hroot]
    exact hrest
  · rename_i hroot
    rw [if_neg hroot]
    split at hrest
    · rename_i hred
      rw [if_pos hred]
      exact hrest
    · rename_i hred
      rw [if_neg hred]
      exact @Loop.more _ _ _ _ (temp, _) _ _ _ loop_deleteFixups hmore hrest

/-! ## Paths -/

/-- The node at the root of a subtree that is not higher than `n + 1`. -/
def Under (s : Rbtree Key) (n : ℕ) (temp : Address) : Prop :=
  ∃ (above : Option Address) (t : RedBlack.Tree Address), Rep s above t ∧ t ≠ .nil ∧
    rootOf s.sentinel t = temp ∧ t.height ≤ n + 1

/-- The subtree on a side of such a node. -/
theorem Under.child {n : ℕ} (hunder : Under s n temp) (side : Side)
    (hchild : s.child side temp ≠ s.sentinel) :
    ∃ m, m < n ∧ Under s m (s.child side temp) := by
  obtain ⟨above, t, hrep, ht, rfl, hheight⟩ := hunder
  obtain ⟨red, a, near, far, rfl⟩ := join_of_ne_nil side ht
  have hholds := rep_join_iff.mp hrep
  rw [rootOf_join] at hchild ⊢
  have hnear : near ≠ .nil := by
    rintro rfl
    exact hchild hholds.childNear
  have hpos : 0 < near.height := by
    cases near with
    | nil => exact absurd rfl hnear
    | node => exact Nat.succ_pos _
  rw [height_join] at hheight
  refine ⟨n - 1, by omega, some a, near, hholds.repNear, hnear, hholds.childNear.symm, by omega⟩

theorem under_root (h : At s [] t) (ht : t ≠ .nil) : Under s (t.height - 1) s.root :=
  ⟨none, t, h.rep, ht, h.around.symm, by omega⟩

theorem falls_descend (less : Key → Key → Bool) (node : Address) (s : Rbtree Key) :
    Falls (Under s) (descend less node s) := by
  intro n temp hunder
  unfold descend
  generalize (if less (s.key node) (s.key temp) then Side.left else .right) = side
  by_cases hchild : s.child side temp = s.sentinel
  · exact .inl ⟨_, if_pos hchild⟩
  · obtain ⟨m, hm, hnext⟩ := hunder.child side hchild
    exact .inr ⟨m, _, hm, if_neg hchild, hnext⟩

theorem falls_min (s : Rbtree Key) : Falls (Under s) fun node =>
    if s.child .left node ≠ s.sentinel then (.inr (s.child .left node) : Address ⊕ Address)
    else .inl node := by
  intro n temp hunder
  by_cases hchild : s.child .left temp = s.sentinel
  · exact .inl ⟨temp, if_neg fun hne => hne hchild⟩
  · obtain ⟨m, hm, hnext⟩ := hunder.child .left hchild
    exact .inr ⟨m, _, hm, if_pos hchild, hnext⟩

theorem height_pos (ht : t ≠ .nil) : 0 < t.height := by
  cases t with
  | nil => exact absurd rfl ht
  | node => exact Nat.succ_pos _

/-- The insertion is done after as many rounds as the tree is high, and one. -/
theorem nightRbtreeInsert_height (h : Represents less s t) (hnode : node ∉ t.toList)
    (hne : node ≠ s.sentinel) (hcompares : Compares less (s.key node :: t.toList.map s.key))
    (hfuel : t.height < fuel) : ∃ s', nightRbtreeInsert less fuel node s = some s' := by
  have hroot : s.root = rootOf s.sentinel t := h.at_.around
  rw [nightRbtreeInsert]
  by_cases hnil : t = .nil
  · subst hnil
    have hempty : s.root = s.sentinel := hroot
    exact ⟨_, if_pos hempty⟩
  · rw [if_neg (by rw [hroot]; exact h.at_.rootOf_ne_sentinel hnil)]
    obtain ⟨s₁, inner, hlinked, heq, hat, hkeys, -⟩ :=
      nightRbtreeInsertValue_spec h.at_ hnil hnode hne hcompares h.sorted (Nat.le_refl _)
    subst heq
    have hpos := height_pos hnil
    obtain ⟨s₁', hlinked'⟩ := (loop_nightRbtreeInsertValue less node s).ends
      (falls_descend less node s) (under_root h.at_ hnil)
      (show (plug inner .nil).height - 1 < fuel by omega)
    -- with more rounds the node gets the same place
    have hsame : s₁' = s₁ := by
      have hmany := (loop_nightRbtreeInsertValue less node s).more
        (Nat.le_max_left fuel (plug inner .nil).toList.length) hlinked'
      have hmany' := (loop_nightRbtreeInsertValue less node s).more
        (Nat.le_max_right fuel (plug inner .nil).toList.length) hlinked
      rw [hroot] at hmany
      exact Option.some.inj (hmany.symm.trans hmany')
    subst hsame
    rw [List.append_nil] at hat
    have hfitting : Fitting inner 0 (.node true .nil node .nil) := h.lawful.leaf node
    have hinner := length_add_height_le inner .nil
    obtain ⟨s₂, t₂, hloop, -⟩ :=
      insertFixups_spec hat hfitting rfl (show inner.length < fuel by omega)
    have hloop : insertFixups fuel node s₁' = some s₂ := hloop
    have hlinked' : nightRbtreeInsertValue less fuel s.root node s = some s₁' := hlinked'
    exact ⟨setRed s₂.root false s₂, by
      simp only [hlinked', hloop, Option.bind_eq_bind, Option.bind_some]⟩

/-- The least node of a subtree is found after as many rounds as the subtree is high. -/
theorem nightRbtreeMin_height (hrep : Rep s above t) (ht : t ≠ .nil) (hfuel : t.height ≤ fuel) :
    ∃ inner red y right, nightRbtreeMin fuel (rootOf s.sentinel t) s = some y ∧
      t = plug inner (.node red .nil y right) ∧ ∀ frame ∈ inner, frame.side = .left := by
  have hpos := height_pos ht
  obtain ⟨y', hfew⟩ := (loop_nightRbtreeMin s).ends (falls_min s)
    (show Under s (t.height - 1) (rootOf s.sentinel t) from ⟨above, t, hrep, ht, rfl, by omega⟩)
    (show t.height - 1 < fuel by omega)
  obtain ⟨inner, red, y, right, hmin, heq, hsides⟩ :=
    nightRbtreeMin_spec hrep ht (Nat.le_max_right fuel t.toList.length)
  have hsame := (loop_nightRbtreeMin s).more (Nat.le_max_left fuel t.toList.length) hfew
  cases Option.some.inj (hsame.symm.trans hmin)
  exact ⟨inner, red, y', right, hfew, heq, hsides⟩

/-- A node with two subtrees. -/
theorem nightRbtreeDelete_substitute_height [Zero Key] {outer : List (Frame Address)} {red : Bool}
    {left right : RedBlack.Tree Address} (h : At s outer (.node red left node right))
    (hlawful : (plug outer (.node red left node right)).Lawful) (hleft : left ≠ .nil)
    (hright : right ≠ .nil)
    (hfuel : (plug outer (.node red left node right)).height + 1 < fuel) :
    ∃ s', nightRbtreeDelete fuel node s = some s' := by
  obtain ⟨hne, -, -, hchildLeft, hchildRight, hrepLeft, hrepRight⟩ := h.rep
  have hdepth := length_add_height_le outer (.node red left node right)
  have hhigh : (RedBlack.Tree.node red left node right).height =
      max left.height right.height + 1 := rfl
  obtain ⟨inner, red', y, r, hmin, heq, hsides⟩ :=
    nightRbtreeMin_height hrepRight hright (show right.height ≤ fuel by omega)
  have hinner := length_add_height_le inner (.node red' .nil y r)
  rw [← heq] at hinner
  have hbefore : before inner = [] := before_eq_nil hsides
  subst heq
  obtain ⟨hroot, hhole, hkeys⟩ := atHole_unlink_least h hbefore
  have hplace : At s (inner ++ ⟨.right, red, node, left⟩ :: outer) (join .left red' y .nil r) :=
    at_plug_iff.mpr (at_cons_iff.mpr h)
  have hy := rep_join_iff.mp hplace.rep
  have hchoose : chooseSubst fuel node s = some (rootOf s.sentinel r, y) := by
    rw [chooseSubst, hchildLeft, hchildRight,
      if_neg (hrepLeft.ne_sentinel (rootOf_mem s.sentinel hleft)),
      if_neg (hrepRight.ne_sentinel (rootOf_mem s.sentinel hright)), hmin]
    have hchild : s.child .right y = rootOf s.sentinel r := hy.childFar
    simp only [Option.bind_eq_bind, Option.bind_some, hchild]
  obtain ⟨n, hfills⟩ : ∃ n, Fills (inner ++ ⟨.right, red, node, left⟩ :: outer) n
      (join .left red' y .nil r) := by
    apply RedBlack.Tree.Lawful.fills
    rw [plug_append]
    exact hlawful
  have hout : node ∉ (plug (inner ++ ⟨.right, red, y, left⟩ :: outer) r).toList := by
    have hall := h.nodup
    simp only [toList_plug, RedBlack.Tree.toList, hbefore] at hall
    rw [plug_append]
    change node ∉ (plug outer (.node red left y (plug inner r))).toList
    simp only [toList_plug, RedBlack.Tree.toList, hbefore]
    rw [List.append_assoc, List.append_assoc, List.cons_append, ← List.append_assoc,
      List.perm_middle.nodup_iff, List.nodup_cons] at hall
    simpa using hall.1
  have hframes : (inner ++ ⟨.right, red, y, left⟩ :: outer).length + 1 < fuel := by
    rw [List.length_append, List.length_cons]
    omega
  obtain ⟨s', -, hdone, -⟩ := deleted_of_hole hhole hkeys hout hne
    (fun hred' => (hfills.splice.1 hred').replace) (fun hred' => (hfills.splice.2 hred').replace)
    hframes
  refine ⟨s', ?_⟩
  rw [nightRbtreeDelete, hchoose]
  simp only [Option.bind_eq_bind, Option.bind_some]
  rw [if_neg hroot, hy.red]
  exact hdone

/-- The deletion is done after as many rounds as the tree is high, and two. -/
theorem nightRbtreeDelete_height [Zero Key] (h : Represents less s t) (hnode : node ∈ t.toList)
    (hfuel : t.height + 1 < fuel) : ∃ s', nightRbtreeDelete fuel node s = some s' := by
  obtain ⟨outer, red, left, right, heq⟩ := exists_plug t hnode
  subst heq
  have hat : At s outer (.node red left node right) := at_nil_iff.mpr h.at_
  have hframes : outer.length + 1 < fuel := by
    have hdepth := length_add_height_le outer (.node red left node right)
    omega
  obtain ⟨hne, -, -, hchildLeft, hchildRight, hrepLeft, hrepRight⟩ := hat.rep
  by_cases hleft : left = .nil
  · subst hleft
    have hchoose : chooseSubst fuel node s = some (rootOf s.sentinel right, node) := by
      rw [chooseSubst, hchildLeft, hchildRight]
      exact if_pos rfl
    have hnear : At s outer (join .left red node .nil right) := hat
    obtain ⟨s', -, hdelete, -⟩ := nightRbtreeDelete_splice hnear h.lawful hchoose hframes
    exact ⟨s', hdelete⟩
  · by_cases hright : right = .nil
    · subst hright
      have hchoose : chooseSubst fuel node s = some (rootOf s.sentinel left, node) := by
        rw [chooseSubst, hchildLeft, hchildRight,
          if_neg (hrepLeft.ne_sentinel (rootOf_mem s.sentinel hleft))]
        exact if_pos rfl
      have hnear : At s outer (join .right red node .nil left) := hat
      obtain ⟨s', -, hdelete, -⟩ := nightRbtreeDelete_splice hnear h.lawful hchoose hframes
      exact ⟨s', hdelete⟩
    · exact nightRbtreeDelete_substitute_height hat h.lawful hleft hright hfuel

end Rounds

/-! ## Runs -/

variable {insert : InsertPt} {s s' : Rbtree (BitVec 64)} {live : Live} {t : RedBlack.Tree Address}
  {sentinel : Address} {fuel : ℕ}

/-- The rounds that each loop of an operation on so many nodes may take. -/
def roundsFor (nodes : ℕ) : ℕ := 2 * Nat.log2 (nodes + 1) + 2

theorem roundsFor_mono {nodes most : ℕ} (hmost : nodes ≤ most) :
    roundsFor nodes ≤ roundsFor most := by
  have hlog : Nat.log2 (nodes + 1) ≤ Nat.log2 (most + 1) := by
    rw [Nat.le_log2 (Nat.succ_ne_zero _)]
    exact (Nat.log2_self_le (Nat.succ_ne_zero _)).trans (Nat.succ_le_succ hmost)
  unfold roundsFor
  omega

theorem Inv.height_le (h : Inv insert sentinel s live t) :
    t.height + 2 ≤ roundsFor live.length := by
  have hheight := h.represents.lawful.height_le
  have hlength := h.members.length_eq
  rw [List.length_map] at hlength
  rw [hlength] at hheight
  exact Nat.add_le_add_right hheight 2

theorem step_height (h : Inv insert sentinel s live t) {op : Op}
    (hallowed : Allowed insert sentinel live op) (hfuel : roundsFor live.length ≤ fuel) :
    ∃ s' t', step insert fuel s op = some s' ∧ Inv insert sentinel s' (liveAfter live op) t' := by
  have hheight := h.height_le
  obtain ⟨s', t', hmany, h'⟩ := step_inv h hallowed
    (show live.length + 1 < max fuel (live.length + 2) by omega)
  have hmore := Nat.le_max_left fuel (live.length + 2)
  refine ⟨s', t', ?_, h'⟩
  cases op with
  | insert node key =>
      obtain ⟨hne, hnew, horders⟩ := hallowed
      have hnode : node ∉ t.toList := fun hin => hnew (h.members.mem_iff.mp hin)
      have hset := h.represents.setKey hnode key
      have hkeys : t.toList.map (setKey node key s).key ⊆ live.map Prod.snd := by
        intro k hk
        obtain ⟨x, hx, rfl⟩ := List.mem_map.mp hk
        obtain ⟨entry, hentry, rfl⟩ := List.mem_map.mp (h.members.mem_iff.mp hx)
        have hother : entry.1 ≠ node := by
          rintro rfl
          exact hnode hx
        have hsame : (setKey node key s).key entry.1 = s.key entry.1 :=
          Function.update_of_ne hother _ _
        rw [hsame, h.keys entry hentry]
        exact List.mem_map_of_mem hentry
      have hkey : (setKey node key s).key node = key := Function.update_self _ _ _
      have hcompares : Compares insert.less
          ((setKey node key s).key node :: t.toList.map (setKey node key s).key) := by
        rw [hkey]
        apply horders.compares.mono
        exact List.cons_subset_cons key hkeys
      have hne' : node ≠ (setKey node key s).sentinel := by
        rw [show (setKey node key s).sentinel = sentinel from h.sentinel]
        exact hne
      obtain ⟨s₁, hfew⟩ := nightRbtreeInsert_height hset hnode hne' hcompares
        (show t.height < fuel by omega)
      have hsame := nightRbtreeInsert_more hmore hfew
      have hmany : nightRbtreeInsert insert.less (max fuel (live.length + 2)) node
          (setKey node key s) = some s' := hmany
      exact hfew.trans (hsame.symm.trans hmany)
  | delete node =>
      have hnode : node ∈ t.toList := h.members.mem_iff.mpr hallowed
      obtain ⟨s₁, hfew⟩ := nightRbtreeDelete_height h.represents hnode
        (show t.height + 1 < fuel by omega)
      have hsame := nightRbtreeDelete_more hmore hfew
      exact hfew.trans (hsame.symm.trans hmany)

theorem run_height {most : ℕ} {ops : List Op} (h : Inv insert sentinel s live t)
    (hallowed : AllAllowed insert sentinel live ops)
    (hmost : ∀ before, before <+: ops → (liveAfterAll live before).length ≤ most)
    (hfuel : roundsFor most ≤ fuel) :
    ∃ s' t', run insert fuel ops s = some s' ∧
      Inv insert sentinel s' (liveAfterAll live ops) t' := by
  induction ops generalizing s live t with
  | nil => exact ⟨s, t, rfl, h⟩
  | cons op ops ih =>
      have hnow : live.length ≤ most := hmost [] List.nil_prefix
      obtain ⟨s', t', hstep, h'⟩ :=
        step_height h hallowed.1 ((roundsFor_mono hnow).trans hfuel)
      obtain ⟨s'', t'', hrun, h''⟩ := ih h' hallowed.2 fun before hbefore =>
        hmost (op :: before) (List.cons_prefix_cons.mpr ⟨rfl, hbefore⟩)
      refine ⟨s'', t'', ?_, h''⟩
      rw [run, hstep]
      exact hrun

/-- A run that never has more than `most` nodes in the tree takes two rounds more than twice
the logarithm of that in each of its loops, and the tree is not higher. -/
theorem run_logarithmic (insert : InsertPt) (sentinel : Address) (memory : Rbtree (BitVec 64))
    {ops : List Op} (hallowed : AllAllowed insert sentinel [] ops) {most : ℕ}
    (hmost : ∀ before, before <+: ops → (liveAfterAll [] before).length ≤ most) :
    ∃ s t, run insert (2 * Nat.log2 (most + 1) + 2) ops (nightRbtreeInit sentinel memory) =
        some s ∧ Valid insert s (liveAfterAll [] ops) t ∧
      t.height ≤ 2 * Nat.log2 ((liveAfterAll [] ops).length + 1) ∧
      (t ≠ .nil → nightRbtreeMin (2 * Nat.log2 (most + 1) + 2) s.root s = t.toList.head?) := by
  obtain ⟨s, t, hrun, h⟩ := run_height (Inv.init insert sentinel memory) hallowed hmost
    (Nat.le_refl _)
  have hheight := h.height_le
  refine ⟨s, t, hrun, h.valid, Nat.le_of_add_le_add_right hheight, fun ht => ?_⟩
  have hnow := roundsFor_mono (hmost ops List.prefix_rfl)
  have hroot : s.root = rootOf s.sentinel t := h.represents.at_.around
  obtain ⟨inner, red, y, right, hmin, heq, hsides⟩ := nightRbtreeMin_height h.represents.at_.rep ht
    (show t.height ≤ roundsFor most by omega)
  rw [hroot, show 2 * Nat.log2 (most + 1) + 2 = roundsFor most from rfl, hmin, heq, toList_plug,
    before_eq_nil hsides]
  rfl

/-- Never more than two timers. -/
theorem run_logarithmic_two :
    ∃ s t, run .timerValue (2 * Nat.log2 (2 + 1) + 2)
        [.insert 1 5, .insert 2 3, .delete 1, .insert 3 5]
        (nightRbtreeInit 9 ⟨fun _ => 0, fun _ _ => 0, fun _ => 0, fun _ => true, 0, 0⟩) = some s ∧
      Valid .timerValue s [(3, 5), (2, 3)] t := by
  have hsmall : ∀ x ∈ [(5 : BitVec 64), 3], 0 ≤ x.toInt ∧ x.toInt ≤ 5 := by
    simp only [List.forall_mem_cons, List.not_mem_nil, IsEmpty.forall_iff, implies_true, and_true]
    exact ⟨⟨by decide, by decide⟩, by decide, by decide⟩
  have horders {keys : List (BitVec 64)} (hkeys : keys ⊆ [5, 3]) :
      InsertPt.Orders .timerValue keys := by
    intro x hx y hy
    have hx' := hsmall x (hkeys hx)
    have hy' := hsmall y (hkeys hy)
    omega
  have hdelete : (1 : Address) ∈ [2, 1] := by decide
  have hallowed : AllAllowed .timerValue 9 []
      [.insert 1 5, .insert 2 3, .delete 1, .insert 3 5] :=
    ⟨⟨by decide, by decide, horders (by decide)⟩, ⟨by decide, by decide, horders (by decide)⟩,
      hdelete, ⟨by decide, by decide, horders (by decide)⟩, trivial⟩
  have hinits : ∀ before ∈ [.insert 1 5, .insert 2 3, .delete 1, .insert 3 5].inits,
      (liveAfterAll [] before).length ≤ 2 := by decide
  obtain ⟨s, t, hrun, hvalid, -⟩ := run_logarithmic .timerValue 9
    ⟨fun _ => 0, fun _ _ => 0, fun _ => 0, fun _ => true, 0, 0⟩ hallowed
    (fun before hbefore => hinits before ((List.mem_inits before _).mpr hbefore))
  exact ⟨s, t, hrun, hvalid⟩

end Night.RbTree
