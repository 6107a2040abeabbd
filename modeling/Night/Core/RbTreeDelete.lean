import Night.Core.RbTreeInsert

/-!
# Deletion

The fixup moves the lack of a black node up until a rotation or a red node repairs it.  What
moved up may be the sentinel, whose parent is written for that.
-/

namespace Night.RbTree

open Night.RedBlack
open Night.RedBlack.Tree
open Rbtree

variable {Key : Type} {s s' : Rbtree Key} {p q x : Address} {side : Side} {red red' : Bool}
  {frames : List (Frame Address)} {t near far mid : RedBlack.Tree Address} {n : ℕ}

/-! ## Holes with a parent -/

/-- What is in the hole has its parent, also the sentinel. -/
structure AtHole (s : Rbtree Key) (frames : List (Frame Address)) (t : RedBlack.Tree Address) : Prop
    extends At s frames t where
  hole : ∀ a ∈ nodeAbove frames, s.parent (rootOf s.sentinel t) = a

theorem At.hole_of_ne_nil (h : At s frames t) (ht : t ≠ .nil) : AtHole s frames t := by
  refine ⟨h, ?_⟩
  intro a ha
  cases t with
  | nil => exact absurd rfl ht
  | node red left b right => exact h.rep.2.1 a ha

/-- A step that leaves the sentinel alone keeps the parent of the hole. -/
theorem AtHole.of_at {frames' : List (Frame Address)} (h : AtHole s frames t)
    (hat : At s' frames' t) (habove : nodeAbove frames' = nodeAbove frames)
    (hsentinel : s'.sentinel = s.sentinel)
    (hparent : s'.parent s.sentinel = s.parent s.sentinel) : AtHole s' frames' t := by
  by_cases hnil : t = .nil
  · subst hnil
    refine ⟨hat, ?_⟩
    rw [habove, hsentinel]
    exact fun a ha => hparent.trans (h.hole a ha)
  · exact hat.hole_of_ne_nil hnil

/-! ## The body of the loop -/

section Body

variable {a b c : Address}

theorem AtHole.parent (h : AtHole s (⟨side, red, a, mid⟩ :: frames) t) :
    s.parent (rootOf s.sentinel t) = a :=
  h.hole a rfl

/-- A red sibling is rotated above the parent. -/
theorem lowerSibling_red (h : AtHole s (⟨side, red, a, join side true b near far⟩ :: frames) t) :
    ∃ s', lowerSibling side (rootOf s.sentinel t) b s = (rootOf s'.sentinel near, s') ∧
      AtHole s' (⟨side, true, a, near⟩ :: ⟨side, false, b, far⟩ :: frames) t ∧
      SameKeys s s' := by
  have hred : s.red b = true := (rep_join_iff.mp h.rep_sibling).red
  have hparent := h.parent
  have hsiblingBlack := at_setRed_sibling h.toAt false
  have hparentRed : At (setRed a true (setRed b false s)) frames
      (join side true a t (join side false b near far)) :=
    at_setRed (at_cons_iff.mp hsiblingBlack) true
  have hrotated := at_rotate hparentRed
  have hkeys : SameKeys s (rotate side a (setRed a true (setRed b false s))) :=
    ((sameKeys_setRed b _ s).trans (sameKeys_setRed a _ _)).trans (sameKeys_rotate side a _)
  have hat : AtHole (rotate side a (setRed a true (setRed b false s)))
      (⟨side, true, a, near⟩ :: ⟨side, false, b, far⟩ :: frames) t := by
    apply h.of_at
    · exact at_cons_iff.mpr (at_cons_iff.mpr hrotated)
    · rfl
    · exact hkeys.sentinel
    · exact hparentRed.rotate_sentinel
  refine ⟨_, ?_, hat, hkeys⟩
  have hparent' := hat.parent
  rw [hkeys.sentinel] at hparent'
  rw [lowerSibling, if_pos hred]
  simp only [setRed_parent, hparent, hparent']
  exact congrArg (·, _) hat.child_sibling

theorem lowerSibling_black {w : Address} (hred : s.red w = false) (side : Side)
    (temp : Address) : lowerSibling side temp w s = (w, s) :=
  if_neg (by rw [hred]; exact Bool.false_ne_true)

/-- A red inner child of the sibling is rotated above it. -/
theorem raiseNephew_red
    (h : AtHole s (⟨side, red, a, join side false b (join side true c near mid) far⟩ :: frames) t)
    (hfar : far.isRed = false) :
    ∃ s', raiseNephew side (rootOf s.sentinel t) b s = (c, s') ∧
      AtHole s' (⟨side, red, a, join side false c near (join side true b mid far)⟩ :: frames) t ∧
      SameKeys s s' := by
  have hsibling := at_sibling_iff.mp h.toAt
  have hholds := rep_join_iff.mp h.rep_sibling
  have hfarRed : s.red (s.child side.other b) = false := by
    rw [hholds.childFar, hholds.repFar.red_rootOf h.black, hfar]
  have hnear : s.child side b = c := by
    rw [hholds.childNear, rootOf_join]
  have hfocus : At s (⟨side, false, b, far⟩ :: ⟨side.other, red, a, t⟩ :: frames)
      (join side true c near mid) := at_cons_iff.mpr hsibling
  have hsiblingRed : At (setRed b true (setRed c false s)) (⟨side.other, red, a, t⟩ :: frames)
      (join side true b (join side false c near mid) far) :=
    at_setRed (at_cons_iff.mp (at_setRed hfocus false)) true
  have hflip : join side true b (join side false c near mid) far =
      join side.other true b far (join side.other false c mid near) := by
    rw [join_other, join_other]
  rw [hflip] at hsiblingRed
  have hrotated := at_rotate hsiblingRed
  rw [join_other, join_other] at hrotated
  have hkeys : SameKeys s (rotate side.other b (setRed b true (setRed c false s))) :=
    ((sameKeys_setRed c _ s).trans (sameKeys_setRed b _ _)).trans (sameKeys_rotate side.other b _)
  have hat : AtHole (rotate side.other b (setRed b true (setRed c false s)))
      (⟨side, red, a, join side false c near (join side true b mid far)⟩ :: frames) t := by
    apply h.of_at
    · exact at_sibling_iff.mpr hrotated
    · rfl
    · exact hkeys.sentinel
    · exact hsiblingRed.rotate_sentinel
  refine ⟨_, ?_, hat, hkeys⟩
  have hparent' := hat.parent
  rw [hkeys.sentinel] at hparent'
  have hchild := hat.child_sibling
  dsimp only at hchild
  rw [rootOf_join] at hchild
  rw [raiseNephew, hfarRed, hnear]
  dsimp only
  rw [if_pos (show (!false) = true from rfl), hparent', hchild]

theorem raiseNephew_black {w : Address} (hred : s.red (s.child side.other w) = true)
    (temp : Address) : raiseNephew side temp w s = (w, s) := by
  rw [raiseNephew, hred]
  exact if_neg Bool.false_ne_true

/-- The last rotation, where the outer child of the sibling is red. -/
theorem at_rotateParent
    (h : AtHole s (⟨side, red, a, join side false b near far⟩ :: frames) t)
    (hfar : far.isRed = true) :
    At (rotateParent side (rootOf s.sentinel t) b s) frames
      (join side red b (join side false a t near) far.blacken) := by
  have hparent := h.parent
  have hholds := rep_join_iff.mp h.rep_sibling
  have hred : s.red a = red := h.red_node
  obtain ⟨red', c, fnear, ffar, rfl⟩ := join_of_ne_nil side (ne_nil_of_isRed hfar)
  have hfarChild : s.child side.other b = c := by
    rw [hholds.childFar, rootOf_join]
  have hsiblingRed := at_setRed_sibling h.toAt red
  have hparentBlack : At (setRed a false (setRed b red s)) frames
      (join side false a t (join side red b near (join side red' c fnear ffar))) :=
    at_setRed (at_cons_iff.mp hsiblingRed) false
  have hdown : At (setRed a false (setRed b red s)) (⟨side, false, a,
      join side red b near (join side red' c fnear ffar)⟩ :: frames) t :=
    at_cons_iff.mpr hparentBlack
  have hsibling := at_sibling_iff.mp hdown
  rw [← join_other] at hsibling
  have hfocus : At (setRed a false (setRed b red s))
      (⟨side.other, red, b, near⟩ :: ⟨side.other, false, a, t⟩ :: frames)
      (join side red' c fnear ffar) := at_cons_iff.mpr hsibling
  have hfarBlack := at_cons_iff.mp (at_setRed hfocus false)
  rw [Frame.attach] at hfarBlack
  have hall := at_cons_iff.mp hfarBlack
  rw [Frame.attach] at hall
  dsimp only at hall
  rw [join_other, join_other] at hall
  have hrotated := at_rotate hall
  rw [rotateParent, hparent]
  simp only [setRed_parent, setRed_child, hparent, hred, hfarChild, blacken_join]
  exact hrotated

theorem Holds.kids_black_iff {above : Option Address} (h : Holds s above side red b near far)
    (hblack : s.red s.sentinel = false) :
    ((!s.red (s.child .left b)) = true ∧ (!s.red (s.child .right b)) = true) ↔
      near.isRed = false ∧ far.isRed = false := by
  have hnear : s.red (s.child side b) = near.isRed := by
    rw [h.childNear, h.repNear.red_rootOf hblack]
  have hfar : s.red (s.child side.other b) = far.isRed := by
    rw [h.childFar, h.repFar.red_rootOf hblack]
  rw [← hnear, ← hfar, Bool.not_eq_true', Bool.not_eq_true']
  cases side with
  | left => exact Iff.rfl
  | right => exact and_comm

/-- What the body leaves: a hole again, with another tree in it. -/
structure Moved (s : Rbtree Key) (l : List Address) (s' : Rbtree Key)
    (frames : List (Frame Address)) (t : RedBlack.Tree Address) : Prop where
  hole : AtHole s' frames t
  short : ∃ n, Short frames n t
  toList : (plug frames t).toList = l
  keys : SameKeys s s'

/-- After the last rotation nothing is lacking. -/
theorem rotateParent_moved
    (h : AtHole s (⟨side, red, a, join side false b near far⟩ :: frames) t)
    (hshort : Short (⟨side, red, a, join side false b near far⟩ :: frames) n t)
    (hblack : t.isRed = false) (hfar : far.isRed = true) :
    ∃ t', (rotateParent side (rootOf s.sentinel t) b s).root =
        rootOf (rotateParent side (rootOf s.sentinel t) b s).sentinel t' ∧
      Moved s (plug (⟨side, red, a, join side false b near far⟩ :: frames) t).toList
        (rotateParent side (rootOf s.sentinel t) b s) [] t' := by
  have hat := at_nil_iff.mp (at_rotateParent h hfar)
  have hlawful := (hshort.rotateOuter hblack hfar).lawful
  refine ⟨_, hat.around, ⟨hat, ?_⟩, hlawful.short, ?_, ?_⟩
  · rintro _ ⟨⟩
  · refine toList_plug_congr frames ?_
    have houter : (join side red b (join side false a t near) far).toList =
        (join side red a t (join side false b near far)).toList := toList_rotate.symm
    exact (toList_join_congr rfl toList_blacken).trans houter
  · exact (((sameKeys_setRed _ _ s).trans (sameKeys_setRed _ _ _)).trans
      (sameKeys_setRed _ _ _)).trans (sameKeys_rotate _ _ _)

theorem repairBlack_spec (h : AtHole s (⟨side, red, a, join side false b near far⟩ :: frames) t)
    (hshort : Short (⟨side, red, a, join side false b near far⟩ :: frames) n t)
    (hblack : t.isRed = false) :
    ∃ s' frames' t',
      repairBlack side (rootOf s.sentinel t) b s = (rootOf s'.sentinel t', s') ∧
      Moved s (plug (⟨side, red, a, join side false b near far⟩ :: frames) t).toList s' frames' t' ∧
      (frames' = [] ∨ frames' = frames ∧ t'.isRed = red) := by
  have hholds := rep_join_iff.mp h.rep_sibling
  have hkids := hholds.kids_black_iff h.black
  rw [repairBlack]
  by_cases hboth : near.isRed = false ∧ far.isRed = false
  · rw [if_pos (hkids.mpr hboth), h.parent]
    have hat := at_cons_iff.mp (at_setRed_sibling h.toAt true)
    refine ⟨setRed b true s, frames, join side red a t (join side true b near far), ?_,
      ⟨hat.hole_of_ne_nil join_ne_nil, ⟨_, hshort.recolour hblack hboth.1 hboth.2⟩, ?_,
        sameKeys_setRed b true s⟩, Or.inr ⟨rfl, isRed_join⟩⟩
    · rw [rootOf_join]
    · refine toList_plug_congr frames ?_
      exact toList_join_congr rfl (toList_join_congr rfl rfl)
  · rw [if_neg (hkids.not.mpr hboth)]
    cases hfar : far.isRed with
    | true =>
        have hred : s.red (s.child side.other b) = true := by
          rw [hholds.childFar, hholds.repFar.red_rootOf h.black, hfar]
        rw [raiseNephew_black hred]
        obtain ⟨t', hroot, hmoved⟩ := rotateParent_moved h hshort hblack hfar
        refine ⟨_, [], t', ?_, hmoved, Or.inl rfl⟩
        exact congrArg (·, _) hroot
    | false =>
        have hnear : near.isRed = true := by
          rw [← Bool.not_eq_false]
          exact fun hnear => hboth ⟨hnear, hfar⟩
        obtain ⟨red', c, inner, mid, rfl⟩ := join_of_ne_nil side (ne_nil_of_isRed hnear)
        rw [isRed_join] at hnear
        subst hnear
        obtain ⟨s₁, hraise, hhole, hkeys⟩ := raiseNephew_red h hfar
        rw [hraise]
        obtain ⟨t', hroot, hmoved⟩ := rotateParent_moved hhole (hshort.rotateInner hfar) hblack
          isRed_join
        rw [hkeys.sentinel] at hroot hmoved
        refine ⟨_, [], t', congrArg (·, _) hroot, ⟨hmoved.hole, hmoved.short, ?_,
          hkeys.trans hmoved.keys⟩, Or.inl rfl⟩
        rw [hmoved.toList]
        refine toList_plug_congr frames ?_
        exact toList_join_congr rfl toList_rotate

theorem deleteFixup_spec {frame : Frame Address} (h : AtHole s (frame :: frames) t)
    (hshort : Short (frame :: frames) n t) (hblack : t.isRed = false) :
    ∃ s' frames' t',
      deleteFixup frame.side (rootOf s.sentinel t) s = (rootOf s'.sentinel t', s') ∧
      Moved s (plug (frame :: frames) t).toList s' frames' t' ∧
      (frames' = [] ∨ t'.isRed = true ∨ frames'.length < (frame :: frames).length) := by
  obtain ⟨side, red, a, sibling⟩ := frame
  have hsibling : sibling ≠ .nil := hshort.fits.2.1.ne_nil
  obtain ⟨red', b, near, far, rfl⟩ := join_of_ne_nil side hsibling
  have hchild := h.child_sibling
  dsimp only at hchild
  rw [rootOf_join] at hchild
  have hred : s.red b = red' := (rep_join_iff.mp h.rep_sibling).red
  rw [deleteFixup, h.parent]
  dsimp only
  rw [hchild]
  cases red' with
  | false =>
      rw [lowerSibling_black hred]
      obtain ⟨s', frames', t', hrepair, hmoved, hnearer⟩ := repairBlack_spec h hshort hblack
      refine ⟨s', frames', t', hrepair, hmoved, ?_⟩
      rcases hnearer with hnil | ⟨rfl, -⟩
      · exact Or.inl hnil
      · exact Or.inr (Or.inr (Nat.lt_succ_self _))
  | true =>
      obtain ⟨hlowered, hnearBlack, -⟩ := hshort.redSibling
      have hnear : near ≠ .nil := hlowered.fits.2.1.ne_nil
      obtain ⟨red', c, inner, outer, rfl⟩ := join_of_ne_nil side hnear
      rw [isRed_join] at hnearBlack
      subst hnearBlack
      obtain ⟨s₁, hlower, hhole, hkeys⟩ := lowerSibling_red h
      rw [hlower]
      dsimp only
      rw [rootOf_join]
      obtain ⟨s', frames', t', hrepair, hmoved, hnearer⟩ :=
        repairBlack_spec hhole hlowered hblack
      rw [hkeys.sentinel] at hrepair
      refine ⟨s', frames', t', hrepair, ⟨hmoved.hole, hmoved.short, ?_,
        hkeys.trans hmoved.keys⟩, ?_⟩
      · rw [hmoved.toList]
        refine toList_plug_congr frames ?_
        exact toList_rotate.symm
      · rcases hnearer with hnil | ⟨-, hred⟩
        · exact Or.inl hnil
        · exact Or.inr (Or.inl hred)

end Body

/-! ## The loop -/

theorem deleteFixups_ends (h : At s frames t) (hends : frames = [] ∨ t.isRed = true) (fuel : ℕ) :
    deleteFixups (fuel + 1) (rootOf s.sentinel t) s =
      some (setRed (rootOf s.sentinel t) false s) := by
  apply if_neg
  rintro ⟨hroot, hred⟩
  rcases hends with rfl | hends
  · exact hroot (Eq.symm h.around)
  · rw [h.rep.red_rootOf h.black, hends] at hred
    cases hred

theorem deleteFixups_goes {frame : Frame Address} (h : AtHole s (frame :: frames) t)
    (hsibling : frame.sibling ≠ .nil) (hblack : t.isRed = false) (fuel : ℕ) :
    deleteFixups (fuel + 1) (rootOf s.sentinel t) s =
      deleteFixups fuel (deleteFixup frame.side (rootOf s.sentinel t) s).1
        (deleteFixup frame.side (rootOf s.sentinel t) s).2 := by
  have hroot : rootOf s.sentinel t ≠ s.root := by
    intro heq
    have hin := h.around.root_mem
    rw [← heq] at hin
    exact h.rootOf_notMem hin
  have hgoes : (!s.red (rootOf s.sentinel t)) = true := by
    rw [h.rep.red_rootOf h.black, hblack]
    rfl
  have hparent : s.parent (rootOf s.sentinel t) = frame.node := h.hole _ rfl
  have hside := h.chosen_side (Or.inr hsibling)
  rw [deleteFixups, if_pos ⟨hroot, hgoes⟩, hparent, hside]

/-- Where the loop ends, a red-black tree is left. -/
theorem Moved.ends {l : List Address} (hmoved : Moved s l s' frames t)
    (hends : frames = [] ∨ t.isRed = true) :
    ∃ t', At (setRed (rootOf s'.sentinel t) false s') [] t' ∧ t'.Lawful ∧ t'.toList = l := by
  obtain ⟨n, hshort⟩ := hmoved.short
  refine ⟨_, at_nil_iff.mp (at_setRed_rootOf hmoved.hole.toAt), ?_, ?_⟩
  · rcases hends with rfl | hred
    · exact hshort.lawful_of_root
    · exact (hshort.fills_of_red hred).lawful
  · rw [toList_plug_congr frames toList_blacken]
    exact hmoved.toList

theorem deleteFixups_spec {l : List Address} (hmoved : Moved s l s' frames t) {fuel : ℕ}
    (hfuel : frames.length + 1 < fuel ∨ (frames = [] ∨ t.isRed = true) ∧ 0 < fuel) :
    ∃ s'' t', deleteFixups fuel (rootOf s'.sentinel t) s' = some s'' ∧ At s'' [] t' ∧
      t'.Lawful ∧ t'.toList = l ∧ SameKeys s s'' := by
  induction fuel generalizing s' frames t with
  | zero => omega
  | succ fuel ih =>
      by_cases hends : frames = [] ∨ t.isRed = true
      · obtain ⟨t', hat, hlawful, hlist⟩ := hmoved.ends hends
        exact ⟨_, t', deleteFixups_ends hmoved.hole.toAt hends fuel, hat, hlawful, hlist,
          hmoved.keys.trans (sameKeys_setRed _ _ _)⟩
      · obtain ⟨hframes, hblack⟩ := not_or.mp hends
        rw [Bool.not_eq_true] at hblack
        obtain ⟨frame, frames, rfl⟩ := List.exists_cons_of_ne_nil hframes
        obtain ⟨n, hshort⟩ := hmoved.short
        have hsibling : frame.sibling ≠ .nil := hshort.fits.2.1.ne_nil
        obtain ⟨s₁, frames₁, t₁, hbody, hmoved₁, hnearer⟩ :=
          deleteFixup_spec hmoved.hole hshort hblack
        rw [deleteFixups_goes hmoved.hole hsibling hblack, hbody]
        rw [hmoved.toList] at hmoved₁
        apply ih ⟨hmoved₁.hole, hmoved₁.short, hmoved₁.toList, hmoved.keys.trans hmoved₁.keys⟩
        have hlength : (frame :: frames).length + 1 < fuel + 1 := by
          rcases hfuel with hfuel | hfuel
          · exact hfuel
          · exact absurd hfuel.1 hends
        rcases hnearer with hnil | hred | hshorter
        · exact Or.inr ⟨Or.inl hnil, by omega⟩
        · exact Or.inr ⟨Or.inr hred, by omega⟩
        · exact Or.inl (by omega)

end Night.RbTree
