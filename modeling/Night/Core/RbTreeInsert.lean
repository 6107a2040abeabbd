import Night.Core.RbTreeLaw

/-!
# Insertion

A node is linked at the place that the comparison leads to, and the fixup moves the defect
of two red nodes up until a rotation repairs it.
-/

namespace Night.RbTree

open Night.RedBlack
open Night.RedBlack.Tree
open Rbtree

variable {Key : Type} {s s' : Rbtree Key} {p q x : Address} {side : Side} {red red' : Bool}
  {frames : List (Frame Address)} {t near far : RedBlack.Tree Address} {n : ℕ}

/-! ## The body of the loop -/

section Body

variable {parent grand : Frame Address}

/-- The nodes above a node. -/
theorem At.parents (h : At s (parent :: grand :: frames) t) (ht : t ≠ .nil) :
    s.parent (rootOf s.sentinel t) = parent.node ∧ s.parent parent.node = grand.node ∧
      s.red (s.child grand.side.other grand.node) = grand.sibling.isRed := by
  have habove := at_cons_iff.mp h
  have hgrand := habove.parent join_ne_nil
  rw [Frame.attach, rootOf_join] at hgrand
  exact ⟨h.parent ht, hgrand, habove.red_sibling⟩

theorem insertFixup_recolour (h : At s (parent :: grand :: frames) t) (ht : t ≠ .nil)
    (huncle : grand.sibling.isRed = true) :
    (insertFixup grand.side (rootOf s.sentinel t) s).1 = grand.node ∧
      At (insertFixup grand.side (rootOf s.sentinel t) s).2 frames
        (join grand.side true grand.node (join parent.side false parent.node t parent.sibling)
          grand.sibling.blacken) := by
  obtain ⟨hparent, hgrand, hred⟩ := h.parents ht
  have htemp := (at_cons_iff.mp h).child_sibling
  obtain ⟨side, red, g, sibling⟩ := grand
  have hsibling : sibling ≠ .nil := by
    rintro rfl
    cases huncle
  obtain ⟨red', u, near, far, rfl⟩ := join_of_ne_nil side hsibling
  rw [rootOf_join] at htemp
  rw [huncle, htemp] at hred
  have hparentBlack : At (setRed parent.node false s)
      (⟨side, red, g, join side red' u near far⟩ :: frames)
      (join parent.side false parent.node t parent.sibling) :=
    at_setRed (at_cons_iff.mp h) false
  have hdone := at_setRed (at_cons_iff.mp (at_setRed_sibling hparentBlack false)) true
  rw [insertFixup, hparent, hgrand, htemp, if_pos hred]
  simp only [setRed_parent, hparent, hgrand, blacken_join]
  exact ⟨trivial, hdone⟩

theorem at_rotateGrand (h : At s (⟨side, red, p, near⟩ :: ⟨side, red', q, far⟩ :: frames) t)
    (ht : t ≠ .nil) :
    At (rotateGrand side (rootOf s.sentinel t) s)
      (⟨side, false, p, join side true q near far⟩ :: frames) t := by
  obtain ⟨hparent, hgrand, -⟩ := h.parents ht
  have hparentBlack := at_setRed (at_cons_iff.mp h) false
  have hgrandRed := at_setRed (at_cons_iff.mp hparentBlack) true
  rw [rotateGrand, hparent]
  simp only [setRed_parent, hparent, hgrand]
  have hflip : join side true q (join side false p t near) far =
      join side.other true q far (join side.other false p near t) := by
    rw [join_other, join_other]
  have hgrandRed : At _ frames (join side true q (join side false p t near) far) := hgrandRed
  rw [hflip] at hgrandRed
  have hrotated := at_rotate hgrandRed
  rw [join_other, join_other] at hrotated
  exact at_cons_iff.mpr hrotated

/-- The uncle is black and the node is on the outer side. -/
theorem insertFixup_outer (h : At s (parent :: grand :: frames) t) (ht : t ≠ .nil)
    (huncle : grand.sibling.isRed = false) (hside : parent.side = grand.side) :
    (insertFixup grand.side (rootOf s.sentinel t) s).1 = rootOf s.sentinel t ∧
      At (insertFixup grand.side (rootOf s.sentinel t) s).2
        (⟨grand.side, false, parent.node,
          join grand.side true grand.node parent.sibling grand.sibling⟩ :: frames) t := by
  obtain ⟨hparent, hgrand, hred⟩ := h.parents ht
  have hchild := (h.eq_child_iff (Or.inl ht) grand.side.other).not.mpr
    (hside ▸ (Side.ne_other _).symm)
  rw [insertFixup, hparent, hgrand, hred, huncle, if_neg Bool.false_ne_true, if_neg hchild]
  obtain ⟨side, red, p, near⟩ := parent
  obtain ⟨side', red', q, far⟩ := grand
  cases hside
  exact ⟨rfl, at_rotateGrand h ht⟩

/-- The uncle is black and the node is on the inner side. -/
theorem insertFixup_inner
    (h : At s (parent :: grand :: frames) (join grand.side true x near far))
    (huncle : grand.sibling.isRed = false) (hside : parent.side = grand.side.other) :
    (insertFixup grand.side x s).1 = parent.node ∧
      At (insertFixup grand.side x s).2
        (⟨grand.side, false, x, join grand.side true grand.node far grand.sibling⟩ :: frames)
        (join grand.side parent.red parent.node parent.sibling near) := by
  obtain ⟨hparent, hgrand, hred⟩ := h.parents join_ne_nil
  have hchild := (h.eq_child_iff (Or.inl join_ne_nil) grand.side.other).mpr hside.symm
  rw [rootOf_join] at hparent hchild
  rw [insertFixup, hparent, hgrand, hred, huncle, if_neg Bool.false_ne_true, if_pos hchild]
  obtain ⟨side, red, p, sibling⟩ := parent
  obtain ⟨side', red', q, uncle⟩ := grand
  obtain rfl : side = side'.other := hside
  have hbelow : At s (⟨side', red', q, uncle⟩ :: frames)
      (join side'.other red p (join side' true x near far) sibling) := at_cons_iff.mp h
  rw [join_other] at hbelow
  have hfocus : At (rotate side' p s) 
        (⟨side', true, x, far⟩ :: ⟨side', red', q, uncle⟩ :: frames)
      (join side' red p sibling near) := at_cons_iff.mpr (at_rotate hbelow)
  have hgrandRotated := at_rotateGrand hfocus join_ne_nil
  rw [rootOf_join] at hgrandRotated
  exact ⟨rfl, hgrandRotated⟩

end Body

theorem sameKeys_insertFixup (side : Side) (node : Address) (s : Rbtree Key) :
    SameKeys s (insertFixup side node s).2 := by
  have hgrand (node : Address) (s : Rbtree Key) : SameKeys s (rotateGrand side node s) :=
    ((sameKeys_setRed _ _ _).trans (sameKeys_setRed _ _ _)).trans (sameKeys_rotate _ _ _)
  rw [insertFixup]
  split
  · exact ((sameKeys_setRed _ _ s).trans (sameKeys_setRed _ _ _)).trans (sameKeys_setRed _ _ _)
  · split
    · exact (sameKeys_rotate _ _ s).trans (hgrand _ _)
    · exact hgrand _ s

/-! ## The loop -/

/-- At the root the loop ends. -/
theorem insertFixups_root (h : At s [] t) (fuel : ℕ) :
    insertFixups (fuel + 1) (rootOf s.sentinel t) s = some s :=
  if_neg fun hgoes => hgoes.1 (Eq.symm h.around)

/-- Below a black node the loop ends. -/
theorem insertFixups_black {frame : Frame Address} (h : At s (frame :: frames) t)
    (ht : t ≠ .nil) (hblack : frame.red = false) (fuel : ℕ) :
    insertFixups (fuel + 1) (rootOf s.sentinel t) s = some s := by
  apply if_neg
  rintro ⟨-, hred⟩
  rw [h.parent ht, h.red_node, hblack] at hred
  cases hred

/-- Below a red node it goes on: not that one is the root. -/
theorem insertFixups_red {parent grand : Frame Address}
    (h : At s (parent :: grand :: frames) t) (ht : t ≠ .nil) (hred : parent.red = true)
    (fuel : ℕ) :
    insertFixups (fuel + 1) (rootOf s.sentinel t) s =
      insertFixups fuel (insertFixup grand.side (rootOf s.sentinel t) s).1
        (insertFixup grand.side (rootOf s.sentinel t) s).2 := by
  obtain ⟨hparent, hgrand, -⟩ := h.parents ht
  have hroot : rootOf s.sentinel t ≠ s.root := by
    intro heq
    have hin := h.around.root_mem
    rw [← heq] at hin
    exact h.rootOf_notMem hin
  have hgoes : s.red (s.parent (rootOf s.sentinel t)) = true := by
    rw [hparent, h.red_node, hred]
  have hside := (at_cons_iff.mp h).chosen_side (Or.inl join_ne_nil)
  rw [Frame.attach, rootOf_join] at hside
  rw [insertFixups, if_pos ⟨hroot, hgoes⟩, hparent, hgrand, hside]

/-- What the loop leaves: a red-black tree, but for the colour of the root. -/
structure Fixed (s : Rbtree Key) (l : List Address) (s' : Rbtree Key) (t : RedBlack.Tree Address) :
    Prop where
  at_ : At s' [] t
  toList : t.toList = l
  lawful : t.blacken.Lawful
  keys : SameKeys s s'

/-- Below a black node nothing remains to be done. -/
theorem insertFixups_done {frame : Frame Address} (h : At s (frame :: frames) t)
    (ht : t ≠ .nil) (hblack : frame.red = false) (hlawful : (plug (frame :: frames) t).Lawful)
    (fuel : ℕ) :
    ∃ s' t', insertFixups (fuel + 1) (rootOf s.sentinel t) s = some s' ∧
      Fixed s (plug (frame :: frames) t).toList s' t' := by
  refine ⟨s, _, insertFixups_black h ht hblack fuel, at_nil_iff.mp h, rfl, ?_, SameKeys.refl s⟩
  rw [blacken_of_black hlawful.black]
  exact hlawful

/-- A turn of the loop in front of the others. -/
theorem Fixed.before {s₁ : Rbtree Key} {l l₁ : List Address} {t' : RedBlack.Tree Address}
    (hfixed : Fixed s₁ l₁ s' t') (hkeys : SameKeys s s₁) (hlist : l₁ = l) : Fixed s l s' t' where
  at_ := hfixed.at_
  toList := hfixed.toList.trans hlist
  lawful := hfixed.lawful
  keys := hkeys.trans hfixed.keys

theorem ne_nil_of_isRed (ht : t.isRed = true) : t ≠ .nil := by
  rintro rfl
  cases ht

theorem insertFixups_spec (h : At s frames t) (hfitting : Fitting frames n t)
    (ht : t.isRed = true) {fuel : ℕ} (hfuel : frames.length < fuel) :
    ∃ s' t', insertFixups fuel (rootOf s.sentinel t) s = some s' ∧
      Fixed s (plug frames t).toList s' t' := by
  induction fuel generalizing s frames t n with
  | zero => cases hfuel
  | succ fuel ih =>
      match frames with
      | [] =>
          refine ⟨s, t, insertFixups_root h fuel, h, rfl, ?_, SameKeys.refl s⟩
          exact ⟨isRed_blacken, hfitting.noRedRed.blacken, n + 1, hfitting.balanced.blacken ht⟩
      | parent :: frames =>
          cases hred : parent.red with
          | false =>
              exact insertFixups_done h (ne_nil_of_isRed ht) hred
                (hfitting.fills_of_black hred).lawful fuel
          | true =>
              match frames with
              | [] => cases (hfitting.fits.2.2.1 hred).2
              | grand :: frames =>
                  rw [insertFixups_red h (ne_nil_of_isRed ht) hred]
                  have hkeys := sameKeys_insertFixup grand.side (rootOf s.sentinel t) s
                  cases huncle : grand.sibling.isRed with
                  | true =>
                      obtain ⟨hnode, hat⟩ := insertFixup_recolour h (ne_nil_of_isRed ht) huncle
                      have hlength : frames.length < fuel := by
                        simp only [List.length_cons] at hfuel
                        omega
                      obtain ⟨s', t', hloop, hfixed⟩ :=
                        ih hat (hfitting.recolour hred huncle) isRed_join hlength
                      rw [rootOf_join] at hloop
                      rw [hnode]
                      refine ⟨s', t', hloop, hfixed.before hkeys ?_⟩
                      rw [plug, plug]
                      apply toList_plug_congr
                      exact toList_join_congr (toList_join_congr rfl rfl) toList_blacken
                  | false =>
                      obtain ⟨fuel, rfl⟩ : ∃ rest, fuel = rest + 1 :=
                        Nat.exists_eq_succ_of_ne_zero (by
                          simp only [List.length_cons] at hfuel
                          omega)
                      rcases Side.eq_or_eq_other grand.side parent.side with hside | hside
                      · obtain ⟨hnode, hat⟩ :=
                          insertFixup_outer h (ne_nil_of_isRed ht) huncle hside
                        have hlawful := (hfitting.rotateOuter hred huncle).lawful
                        rw [hside] at hlawful
                        obtain ⟨s', t', hloop, hfixed⟩ := insertFixups_done hat
                          (ne_nil_of_isRed ht) rfl hlawful fuel
                        rw [hkeys.sentinel] at hloop
                        rw [hnode]
                        refine ⟨s', t', hloop, hfixed.before hkeys ?_⟩
                        rw [plug, plug, plug]
                        apply toList_plug_congr
                        rw [Frame.attach, Frame.attach, Frame.attach, hside]
                        exact toList_rotate
                      · obtain ⟨red, x, near, far, rfl⟩ :=
                          join_of_ne_nil grand.side (ne_nil_of_isRed ht)
                        rw [isRed_join] at ht
                        subst ht
                        rw [rootOf_join] at hkeys ⊢
                        obtain ⟨hnode, hat⟩ := insertFixup_inner h huncle hside
                        have hbelow := hfitting.rotateInner hred
                        have hlawful := (hbelow.rotateOuter rfl huncle).lawful
                        rw [hred] at hat
                        obtain ⟨s', t', hloop, hfixed⟩ := insertFixups_done hat
                          join_ne_nil rfl hlawful fuel
                        rw [rootOf_join] at hloop
                        rw [hnode]
                        refine ⟨s', t', hloop, hfixed.before hkeys ?_⟩
                        rw [plug, plug, plug]
                        apply toList_plug_congr
                        rw [Frame.attach, Frame.attach, Frame.attach, hside, join_other]
                        have houter : (join grand.side false x
                            (join grand.side true parent.node parent.sibling near)
                            (join grand.side true grand.node far grand.sibling)).toList =
                            (join grand.side true grand.node (join grand.side true x
                              (join grand.side true parent.node parent.sibling near) far)
                              grand.sibling).toList := toList_rotate
                        exact houter.trans (toList_join_congr toList_rotate.symm rfl)

/-! ## The place of a node -/

/-- The comparison is a strict weak order on some keys. -/
structure Compares (less : Key → Key → Bool) (keys : List Key) : Prop where
  asymm : ∀ x ∈ keys, ∀ y ∈ keys, less x y = true → less y x = false
  trans : ∀ x ∈ keys, ∀ y ∈ keys, ∀ z ∈ keys, less y x = false → less z y = false →
    less z x = false

theorem Compares.mono {less : Key → Key → Bool} {keys keys' : List Key}
    (hcompares : Compares less keys) (hsub : ∀ x ∈ keys', x ∈ keys) : Compares less keys' where
  asymm := fun x hx y hy => hcompares.asymm x (hsub x hx) y (hsub y hy)
  trans := fun x hx y hy z hz =>
    hcompares.trans x (hsub x hx) y (hsub y hy) z (hsub z hz)

/-- No node goes to the left of one that stands before it. -/
def Sorted (less : Key → Key → Bool) (s : Rbtree Key) (l : List Address) : Prop :=
  l.Pairwise fun x y => less (s.key y) (s.key x) = false

/-- A node is linked into an empty place. -/
theorem at_link {frame : Frame Address} {node : Address} (h : At s (frame :: frames) .nil)
    (hnode : node ∉ nodes (frame :: frames)) (hne : node ≠ s.sentinel) :
    At (setRed node true (setChild .right node s.sentinel (setChild .left node s.sentinel
      (setParent node frame.node (setChild frame.side frame.node node s)))))
      (frame :: frames) (.node true .nil node .nil) := by
  refine ⟨?_, ?_, ?_, ?_⟩
  · refine (around_link h.around (nodup_plug_iff.mp h.nodup).2.1 node).congr rfl rfl ?_
    intro x hx
    have hxne : x ≠ node := by
      rintro rfl
      exact hnode hx
    exact (((Same.setParent hxne).trans (Same.setChild hxne)).trans (Same.setChild hxne)).trans
      (Same.setRed hxne)
  · refine ⟨hne, ?_, if_pos rfl, ?_, ?_, trivial, trivial⟩
    · rintro _ ⟨⟩
      exact if_pos rfl
    · rw [setRed_child, setChild_child, if_neg fun hboth => absurd hboth.1 (by decide),
        setChild_child, if_pos ⟨rfl, rfl⟩]
      rfl
    · exact if_pos ⟨rfl, rfl⟩
  · rw [nodup_plug_iff]
    refine ⟨List.nodup_singleton node, (nodup_plug_iff.mp h.nodup).2.1, ?_⟩
    intro x hx
    rw [List.mem_singleton.mp hx]
    exact hnode
  · exact (if_neg hne.symm).trans h.black

theorem mem_leaf_list {inner : List (Frame Address)} {node : Address}
    (hx : x ∈ before inner ++ node :: behind inner) :
    x = node ∨ x ∈ (plug inner RedBlack.Tree.nil).toList := by
  rw [mem_toList_plug, nodes, List.mem_append]
  rw [List.mem_append, List.mem_cons] at hx
  tauto

section Descend

variable {less : Key → Key → Bool} {node a : Address} {inner : List (Frame Address)}

/-- What the comparison with a node says about the place in the subtree behind it. -/
theorem sorted_leaf_cons
    (hcompares : Compares less (s.key node :: (join side red a near far).toList.map s.key))
    (hsorted : Sorted less s (join side red a near far).toList)
    (hside : (if less (s.key node) (s.key a) then Side.left else .right) = side)
    (hnear : near = plug inner .nil)
    (hinner : Sorted less s (before inner ++ node :: behind inner)) :
    Sorted less s (before (inner ++ [⟨side, red, a, far⟩]) ++
      node :: behind (inner ++ [⟨side, red, a, far⟩])) := by
  have hmem : ∀ x ∈ (join side red a near far).toList,
      s.key x ∈ s.key node :: (join side red a near far).toList.map s.key :=
    fun x hx => List.mem_cons_of_mem _ (List.mem_map_of_mem hx)
  have ha : a ∈ (join side red a near far).toList := mem_toList_join.mpr (Or.inl rfl)
  have hnearMem : ∀ x ∈ near.toList, x ∈ (join side red a near far).toList :=
    fun x hx => mem_toList_join.mpr (Or.inr (Or.inl hx))
  have hfarMem : ∀ x ∈ far.toList, x ∈ (join side red a near far).toList :=
    fun x hx => mem_toList_join.mpr (Or.inr (Or.inr hx))
  rw [before_append, behind_append]
  cases side with
  | left =>
      have hless : less (s.key node) (s.key a) = true := by
        by_contra hnot
        rw [if_neg hnot] at hside
        cases hside
      have hnodeA := hcompares.asymm _ List.mem_cons_self _ (hmem a ha) hless
      have hparts := List.pairwise_append.mp hsorted
      have hafar := List.pairwise_cons.mp hparts.2.1
      have happ : Sorted less s ((before inner ++ node :: behind inner) ++ a :: far.toList) := by
        refine List.pairwise_append.mpr ⟨hinner, hparts.2.1, ?_⟩
        intro x hx y hy
        rcases mem_leaf_list hx with rfl | hin
        · rcases List.mem_cons.mp hy with rfl | hy
          · exact hnodeA
          · exact hcompares.trans _ List.mem_cons_self _ (hmem a ha) _ (hmem y (hfarMem y hy))
              hnodeA (hafar.1 y hy)
        · rw [← hnear] at hin
          exact hparts.2.2 x hin y hy
      simpa [before, behind] using happ
  | right =>
      have hless : less (s.key node) (s.key a) = false := by
        rw [Bool.eq_false_iff]
        intro hnot
        rw [if_pos hnot] at hside
        cases hside
      have hparts := List.pairwise_append.mp hsorted
      have hanear := List.pairwise_cons.mp hparts.2.1
      have happ : Sorted less s (far.toList ++ a :: (before inner ++ node :: behind inner)) := by
        refine List.pairwise_append.mpr ⟨hparts.1, List.pairwise_cons.mpr ⟨?_, hinner⟩, ?_⟩
        · intro y hy
          rcases mem_leaf_list hy with rfl | hin
          · exact hless
          · rw [← hnear] at hin
            exact hanear.1 y hin
        · intro x hx y hy
          rcases List.mem_cons.mp hy with rfl | hy
          · exact hparts.2.2 x hx _ List.mem_cons_self
          · rcases mem_leaf_list hy with rfl | hin
            · exact hcompares.trans _ (hmem x (hfarMem x hx)) _ (hmem a ha) _ List.mem_cons_self
                (hparts.2.2 x hx a List.mem_cons_self) hless
            · rw [← hnear] at hin
              exact hparts.2.2 x hx y (List.mem_cons_of_mem a hin)
      simpa [before, behind] using happ

/-- The loop finds an empty place where the node keeps the order. -/
theorem nightRbtreeInsertValue_spec (h : At s frames t) (ht : t ≠ .nil)
    (hnode : node ∉ (plug frames t).toList) (hne : node ≠ s.sentinel)
    (hcompares : Compares less (s.key node :: t.toList.map s.key))
    (hsorted : Sorted less s t.toList) {fuel : ℕ} (hfuel : t.toList.length ≤ fuel) :
    ∃ s' inner, nightRbtreeInsertValue less fuel (rootOf s.sentinel t) node s = some s' ∧
      t = plug inner .nil ∧ At s' (inner ++ frames) (.node true .nil node .nil) ∧
      SameKeys s s' ∧ Sorted less s (before inner ++ node :: behind inner) := by
  induction fuel generalizing frames t with
  | zero =>
      have hin := rootOf_mem s.sentinel ht
      rw [List.eq_nil_of_length_eq_zero (Nat.le_zero.mp hfuel)] at hin
      cases hin
  | succ fuel ih =>
      generalize hside :
        (if less (s.key node) (s.key (rootOf s.sentinel t)) then Side.left else .right) = side
      obtain ⟨red, a, near, far, rfl⟩ := join_of_ne_nil side ht
      rw [rootOf_join] at hside ⊢
      have hnear : At s (⟨side, red, a, far⟩ :: frames) near := at_cons_iff.mpr h
      have hchild : s.child side a = rootOf s.sentinel near := hnear.child_node
      rw [nightRbtreeInsertValue, hside, hchild]
      by_cases hnil : near = .nil
      · subst hnil
        have hnotin : node ∉ nodes (⟨side, red, a, far⟩ :: frames) := by
          have hout : node ∉ (plug (⟨side, red, a, far⟩ :: frames) .nil).toList := hnode
          exact fun hin => hout (mem_toList_plug.mpr (Or.inr hin))
        have hplace : Sorted less s (before ([] ++ [⟨side, red, a, far⟩]) ++
            node :: behind ([] ++ [⟨side, red, a, far⟩])) :=
          sorted_leaf_cons hcompares hsorted hside rfl (List.pairwise_singleton _ _)
        exact ⟨_, [⟨side, red, a, far⟩], if_pos rfl, rfl, at_link hnear hnotin hne, ⟨rfl, rfl⟩,
          hplace⟩
      · have hlength : near.toList.length ≤ fuel := by
          have hperm : (join side red a near far).toList.length = _ := perm_toList_join.length_eq
          simp only [List.length_cons, List.length_append] at hperm
          omega
        have hsub : ∀ x ∈ near.toList, x ∈ (join side red a near far).toList :=
          fun x hx => mem_toList_join.mpr (Or.inr (Or.inl hx))
        have hcomparesNear : Compares less (s.key node :: near.toList.map s.key) := by
          apply hcompares.mono
          intro k hk
          rcases List.mem_cons.mp hk with rfl | hk
          · exact List.mem_cons_self
          · obtain ⟨x, hx, rfl⟩ := List.mem_map.mp hk
            exact List.mem_cons_of_mem _ (List.mem_map_of_mem (hsub x hx))
        have hsortedNear : Sorted less s near.toList := hsorted.sublist near_sublist_join
        obtain ⟨s', inner, hloop, heq, hat, hkeys, hinner⟩ :=
          ih hnear hnil hnode hcomparesNear hsortedNear hlength
        have hne' : rootOf s.sentinel near ≠ s.sentinel := hnear.rootOf_ne_sentinel hnil
        refine ⟨s', inner ++ [⟨side, red, a, far⟩], ?_, ?_, ?_, hkeys, ?_⟩
        · rw [if_neg hne']
          exact hloop
        · rw [plug_append, ← heq]
          rfl
        · rw [List.append_assoc]
          exact hat
        · exact sorted_leaf_cons hcompares hsorted hside heq hinner

end Descend

/-! ## The insertion -/

/-- The nodes hold a red-black tree that is sorted. -/
structure Represents (less : Key → Key → Bool) (s : Rbtree Key) (t : RedBlack.Tree Address) :
    Prop where
  at_ : At s [] t
  lawful : t.Lawful
  sorted : Sorted less s t.toList

theorem Sorted.congr {less : Key → Key → Bool} {l : List Address} (hsorted : Sorted less s l)
    (hkey : ∀ x ∈ l, s'.key x = s.key x) : Sorted less s' l := by
  refine List.Pairwise.imp_of_mem ?_ hsorted
  intro x y hx hy hxy
  rw [hkey x hx, hkey y hy]
  exact hxy

theorem at_setRed_root (h : At s [] t) : At (setRed s.root false s) [] t.blacken := by
  have hroot : s.root = rootOf s.sentinel t := h.around
  rw [hroot]
  exact at_setRed_rootOf h

/-- The first node of a tree. -/
theorem represents_single (less : Key → Key → Bool) {node : Address} (h : At s [] .nil)
    (hne : node ≠ s.sentinel) :
    Represents less (setRoot node (setRed node false (setChild .right node s.sentinel
      (setChild .left node s.sentinel (setParent node null s))))) (.node false .nil node .nil) where
  at_ := by
    refine ⟨rfl, ⟨hne, ?_, if_pos rfl, ?_, if_pos ⟨rfl, rfl⟩, trivial, trivial⟩,
      List.nodup_singleton node, (if_neg hne.symm).trans h.black⟩
    · rintro _ ⟨⟩
    · change (setChild .right node s.sentinel _).child .left node = _
      rw [setChild_child, if_neg fun hboth => absurd hboth.1 (by decide)]
      exact if_pos ⟨rfl, rfl⟩
  lawful := ⟨rfl, ⟨fun hred => absurd hred Bool.false_ne_true, trivial, trivial⟩,
    1, 0, rfl, rfl, rfl⟩
  sorted := List.pairwise_singleton _ _

theorem nightRbtreeInsert_spec {less : Key → Key → Bool} {node : Address}
    (h : Represents less s t) (hnode : node ∉ t.toList) (hne : node ≠ s.sentinel)
    (hcompares : Compares less (s.key node :: t.toList.map s.key)) {fuel : ℕ}
    (hfuel : t.toList.length < fuel) :
    ∃ s' t', nightRbtreeInsert less fuel node s = some s' ∧ Represents less s' t' ∧
      t'.toList.Perm (node :: t.toList) ∧ SameKeys s s' := by
  have hroot : s.root = rootOf s.sentinel t := h.at_.around
  rw [nightRbtreeInsert]
  by_cases hnil : t = .nil
  · subst hnil
    have hempty : s.root = s.sentinel := hroot
    rw [if_pos hempty]
    exact ⟨_, _, rfl, represents_single less h.at_ hne, List.Perm.refl _, rfl, rfl⟩
  · rw [hroot, if_neg (h.at_.rootOf_ne_sentinel hnil)]
    obtain ⟨s₁, inner, hlinked, heq, hat, hkeys, hplace⟩ :=
      nightRbtreeInsertValue_spec h.at_ hnil hnode hne hcompares h.sorted (Nat.le_of_lt hfuel)
    subst heq
    rw [List.append_nil] at hat
    have hfitting : Fitting inner 0 (.node true .nil node .nil) := h.lawful.leaf node
    have hinner : inner.length < fuel := Nat.lt_of_le_of_lt (length_le_plug inner .nil) hfuel
    obtain ⟨s₂, t₂, hloop, hfixed⟩ := insertFixups_spec hat hfitting rfl hinner
    have hlist : t₂.toList = before inner ++ node :: behind inner := by
      rw [hfixed.toList, toList_plug]
      rfl
    change insertFixups fuel node s₁ = some s₂ at hloop
    refine ⟨setRed s₂.root false s₂, t₂.blacken, ?_, ⟨at_setRed_root hfixed.at_, hfixed.lawful,
      ?_⟩, ?_, (hkeys.trans hfixed.keys).trans (sameKeys_setRed _ _ _)⟩
    · simp only [hlinked, hloop, Option.bind_eq_bind, Option.bind_some]
    · rw [toList_blacken, hlist]
      apply hplace.congr
      intro x _
      change s₂.key x = s.key x
      rw [hfixed.keys.key, hkeys.key]
    · rw [toList_blacken, hlist, toList_plug]
      exact List.perm_middle

end Night.RbTree
