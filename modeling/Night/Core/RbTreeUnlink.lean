import Night.Core.RbTreeDelete

/-!
# Taking a node out

A node with one subtree is spliced out.  A node with two gets replaced by the first node of its
right subtree, which is spliced out there; that node may be its child.
-/

namespace Night.RbTree

open Night.RedBlack
open Night.RedBlack.Tree
open Rbtree

variable {Key : Type} {s s' : Rbtree Key} {p q x y : Address} {side : Side} {red red' : Bool}
  {frame : Frame Address} {frames inner outer : List (Frame Address)}
  {t left right : RedBlack.Tree Address} {above : Option Address} {n : ℕ}

/-! ## The first node -/

theorem nightRbtreeMin_spec (hrep : Rep s above t) (ht : t ≠ .nil) {fuel : ℕ}
    (hfuel : t.toList.length ≤ fuel) :
    ∃ inner red y right, nightRbtreeMin fuel (rootOf s.sentinel t) s = some y ∧
      t = plug inner (.node red .nil y right) ∧ ∀ frame ∈ inner, frame.side = .left := by
  induction fuel generalizing above t with
  | zero =>
      have hin := rootOf_mem s.sentinel ht
      rw [List.eq_nil_of_length_eq_zero (Nat.le_zero.mp hfuel)] at hin
      cases hin
  | succ fuel ih =>
      cases t with
      | nil => exact absurd rfl ht
      | node red left a right =>
          have hchild : s.child .left a = rootOf s.sentinel left := hrep.2.2.2.1
          have hleft : Rep s (some a) left := hrep.2.2.2.2.2.1
          rw [rootOf, nightRbtreeMin, hchild]
          by_cases hnil : left = .nil
          · subst hnil
            refine ⟨[], red, a, right, if_neg fun hne => hne rfl, rfl, ?_⟩
            simp
          · have hlength : left.toList.length ≤ fuel := by
              rw [RedBlack.Tree.toList, List.length_append, List.length_cons] at hfuel
              omega
            obtain ⟨inner, red', y, right', hmin, heq, hsides⟩ := ih hleft hnil hlength
            refine ⟨inner ++ [⟨.left, red, a, right⟩], red', y, right', ?_, ?_, ?_⟩
            · rw [if_pos (hleft.ne_sentinel (rootOf_mem s.sentinel hnil))]
              exact hmin
            · rw [plug_append, ← heq]
              rfl
            · intro frame hin
              rcases List.mem_append.mp hin with hin | hin
              · exact hsides frame hin
              · rw [List.mem_singleton.mp hin]

/-! ## A node leaves its place -/

/-- The links and the colours after `temp`, the root of `t`, was moved up to where `p` was. -/
structure Unlinked (s s' : Rbtree Key) (frames : List (Frame Address)) (t : RedBlack.Tree Address)
    (parent p : Address) : Prop where
  around : Around s' frames (rootOf s.sentinel t)
  rep : Rep s' (some parent) t
  hole : s'.parent (rootOf s.sentinel t) = parent
  keys : SameKeys s s'
  red : s'.red = s.red
  self : Same s s' p

theorem unlinked (h : At s (frame :: frames) (join side red p .nil t)) (parent : Address) :
    Unlinked s (setParent (rootOf s.sentinel t) parent
      (replaceChild .left p (rootOf s.sentinel t) s)) (frame :: frames) t parent p := by
  have hholds := rep_join_iff.mp h.rep
  have hparts := nodup_join_iff.mp h.nodupTree
  have hp : p ∉ nodes (frame :: frames) := h.disjoint p (mem_toList_join.mpr (Or.inl rfl))
  have hparent : s.parent p = frame.node := hholds.parent _ rfl
  have haround := h.around
  rw [rootOf_join] at haround
  have hframe : frame.node ∈ nodes (frame :: frames) := mem_nodes_cons.mpr (Or.inl rfl)
  have hout : ∀ x ∈ t.toList, x ∉ nodes (frame :: frames) :=
    fun x hx => h.disjoint x (mem_toList_join.mpr (Or.inr (Or.inr hx)))
  have hroot : rootOf s.sentinel t ∉ nodes (frame :: frames) := by
    by_cases hnil : t = .nil
    · rw [hnil]
      exact haround.sentinel_notMem
    · exact hout _ (rootOf_mem s.sentinel hnil)
  rw [haround.replaceChild_eq hparent hholds.ne_sentinel hp]
  have hsame : ∀ x, x ≠ frame.node → x ≠ rootOf s.sentinel t →
      Same s (setParent (rootOf s.sentinel t) parent
        (setChild frame.side frame.node (rootOf s.sentinel t) s)) x :=
    fun x hframe hroot => (Same.setChild hframe).trans (Same.setParent hroot)
  have hne : ∀ x ∈ t.toList, x ≠ frame.node := by
    rintro x hx rfl
    exact hout _ hx hframe
  refine ⟨?_, ?_, if_pos rfl, ⟨rfl, rfl⟩, rfl, ?_⟩
  · refine (around_link haround (nodup_plug_iff.mp h.nodup).2.1 _).congr rfl rfl ?_
    intro x hx
    apply Same.setParent
    rintro rfl
    exact hroot hx
  · apply hholds.repFar.reparent hparts.2.2.2.1
    · rfl
    · exact fun x hx hxroot => hsame x (hne x hx) hxroot
    · intro hnil
      have hin := rootOf_mem s.sentinel hnil
      refine ⟨fun side' => ?_, ?_, rfl⟩
      · exact if_neg fun hboth => hne _ hin hboth.2
      · exact (if_pos rfl).trans (if_pos rfl).symm
  · apply hsame
    · rintro rfl
      exact hp hframe
    · intro heq
      by_cases hnil : t = .nil
      · rw [hnil] at heq
        exact hholds.ne_sentinel heq
      · have hin := rootOf_mem s.sentinel hnil
        rw [← heq] at hin
        exact hparts.2.1 hin

/-- What is around an inner place is a tree at the outer one. -/
theorem around_append (haround : Around s (inner ++ outer) (rootOf s.sentinel t))
    (hrep : Rep s (nodeAbove inner) t) :
    Around s outer (rootOf s.sentinel (plug inner t)) ∧ Rep s none (plug inner t) := by
  induction inner generalizing t with
  | nil => exact ⟨haround, hrep⟩
  | cons frame inner ih =>
      obtain ⟨hne, hparent, hred, hnear, hfar, hsibling, hrest⟩ := haround
      rw [plug]
      apply ih
      · rw [Frame.attach, rootOf_join]
        exact hrest
      · rw [Frame.attach, rep_join_iff]
        refine ⟨hne, ?_, hred, hnear, hfar, hrep, hsibling⟩
        intro a ha
        apply hparent a
        cases inner with
        | nil => cases ha
        | cons frame' inner => exact ha

/-! ## A node gets the place of another one -/

/-- A node becomes the parent of its two subtrees. -/
theorem at_reparent {above' : Option Address} (haround : Around s outer y)
    (hparent : ∀ a ∈ nodeAbove outer, s.parent y = a) (hred : s.red y = red)
    (hleft : s.child .left y = rootOf s.sentinel left)
    (hright : s.child .right y = rootOf s.sentinel right) (hrepLeft : Rep s above left)
    (hrepRight : Rep s above' right) (hne : y ≠ s.sentinel)
    (hnodup : (plug outer (.node red left y right)).toList.Nodup)
    (hblack : s.red s.sentinel = false) :
    At (reparent (rootOf s.sentinel right) y (reparent (rootOf s.sentinel left) y s)) outer
      (.node red left y right) := by
  obtain ⟨htree, -, hdisjoint⟩ := nodup_plug_iff.mp hnodup
  obtain ⟨hyl, hyr, hleftNodup, hrightNodup, hlr⟩ :=
    nodup_join_iff.mp (show (join .left red y left right).toList.Nodup from htree)
  have hleftMem : ∀ z ∈ left.toList, z ∉ nodes outer :=
    fun z hz => hdisjoint z (List.mem_append_left _ hz)
  have hrightMem : ∀ z ∈ right.toList, z ∉ nodes outer :=
    fun z hz => hdisjoint z (List.mem_append_right _ (List.mem_cons_of_mem y hz))
  have hyout : y ∉ nodes outer := hdisjoint y (List.mem_append_right _ List.mem_cons_self)
  -- the roots of the subtrees, which may be the sentinel
  have hroot : ∀ {t : RedBlack.Tree Address}, rootOf s.sentinel t ≠ s.sentinel →
      rootOf s.sentinel t ∈ t.toList := by
    intro t hroot
    apply rootOf_mem
    rintro rfl
    exact hroot rfl
  have hsame : ∀ z, (rootOf s.sentinel left ≠ s.sentinel → z ≠ rootOf s.sentinel left) →
      (rootOf s.sentinel right ≠ s.sentinel → z ≠ rootOf s.sentinel right) →
      Same s (reparent (rootOf s.sentinel right) y (reparent (rootOf s.sentinel left) y s)) z := by
    intro z hzleft hzright
    refine (Same.reparent hzleft).trans (Same.reparent ?_)
    rw [reparent_sentinel]
    exact hzright
  have hsentinel : (reparent (rootOf s.sentinel right) y
      (reparent (rootOf s.sentinel left) y s)).sentinel = s.sentinel := by
    rw [reparent_sentinel, reparent_sentinel]
  have hother : ∀ {l : List Address}, (∀ z ∈ left.toList, z ∉ l) → (∀ z ∈ right.toList, z ∉ l) →
      ∀ z ∈ l, Same s (reparent (rootOf s.sentinel right) y
        (reparent (rootOf s.sentinel left) y s)) z := by
    intro l hl hr z hz
    apply hsame
    · rintro hne rfl
      exact hl _ (hroot hne) hz
    · rintro hne rfl
      exact hr _ (hroot hne) hz
  have hy : Same s (reparent (rootOf s.sentinel right) y
      (reparent (rootOf s.sentinel left) y s)) y := by
    apply hother (l := [y])
    · exact fun z hz hin => hyl (List.mem_singleton.mp hin ▸ hz)
    · exact fun z hz hin => hyr (List.mem_singleton.mp hin ▸ hz)
    · exact List.mem_singleton_self y
  refine ⟨?_, ⟨?_, ?_, ?_, ?_, ?_, ?_, ?_⟩, hnodup, ?_⟩
  · refine haround.congr hsentinel ?_ (hother hleftMem hrightMem)
    rw [reparent_root, reparent_root]
  · rw [hsentinel]
    exact hne
  · exact fun a ha => hy.parent.trans (hparent a ha)
  · exact hy.red.trans hred
  · rw [hsentinel]
    exact (hy.child .left).trans hleft
  · rw [hsentinel]
    exact (hy.child .right).trans hright
  · apply hrepLeft.reparent hleftNodup hsentinel
    · intro z hz hzroot
      apply hsame z fun _ => hzroot
      rintro hne rfl
      exact hlr _ hz (hroot hne)
    · intro hnil
      have hin := rootOf_mem s.sentinel hnil
      have hneLeft := hrepLeft.ne_sentinel hin
      refine ⟨fun side => ?_, ?_, ?_⟩
      · rw [reparent_child, reparent_child]
        rfl
      · rw [reparent_parent_of_ne, reparent_parent_self hneLeft]
        · exact (if_pos rfl).symm
        · rw [reparent_sentinel]
          rintro hne heq
          exact hlr _ hin (heq ▸ hroot hne)
      · rw [reparent_red, reparent_red]
        rfl
  · apply hrepRight.reparent hrightNodup hsentinel
    · intro z hz hzroot
      refine hsame z ?_ fun _ => hzroot
      rintro hne rfl
      exact hlr _ (hroot hne) hz
    · intro hnil
      have hneRight := hrepRight.ne_sentinel (rootOf_mem s.sentinel hnil)
      refine ⟨fun side => ?_, ?_, ?_⟩
      · rw [reparent_child, reparent_child]
        rfl
      · refine (reparent_parent_self ?_).trans (if_pos rfl).symm
        rw [reparent_sentinel]
        exact hneRight
      · rw [reparent_red, reparent_red]
        rfl
  · rw [hsentinel, reparent_red, reparent_red]
    exact hblack

section Substitute

variable (haround : Around s (⟨.right, red, x, left⟩ :: outer) (rootOf s.sentinel right))
  (hrep : Rep s none right) (hnodup : (plug outer (.node red left x right)).toList.Nodup)
  (hy : y ∉ (plug outer (.node red left x right)).toList) (hne : y ≠ s.sentinel)

include haround hrep hnodup hy hne

theorem at_substitute (hblack : s.red s.sentinel = false) :
    At (substitute x y s) outer (.node red left y right) ∧ SameKeys s (substitute x y s) ∧
      (substitute x y s).parent s.sentinel = s.parent s.sentinel := by
  obtain ⟨hx, hparent, hred, hright, hleft, hrepLeft, houter⟩ := haround
  obtain ⟨-, hnodes, hdisjoint⟩ := nodup_plug_iff.mp hnodup
  have hxout : x ∉ nodes outer := hdisjoint x (List.mem_append_right _ List.mem_cons_self)
  obtain ⟨hytree, hyout⟩ := not_or.mp (mem_toList_plug.not.mp hy)
  have hyx : y ≠ x := by
    rintro rfl
    exact hytree (List.mem_append_right _ List.mem_cons_self)
  -- up to the link from above only the new node is written
  generalize hs₁ : setRed y red (setParent y (s.parent x)
    (setChild .right y (rootOf s.sentinel right) (setChild .left y (rootOf s.sentinel left) s))) =
      s₁
  have hsame₁ : ∀ z, z ≠ y → Same s s₁ z := by
    intro z hz
    rw [← hs₁]
    exact (((Same.setChild hz).trans (Same.setChild hz)).trans (Same.setParent hz)).trans
      (Same.setRed hz)
  have hkeys₁ : SameKeys s s₁ := by
    rw [← hs₁]
    exact ⟨rfl, rfl⟩
  have haround₁ : Around s₁ outer x := by
    apply houter.congr hkeys₁.sentinel
    · rw [← hs₁]
      rfl
    · intro z hz
      apply hsame₁
      rintro rfl
      exact hyout hz
  obtain ⟨haround₂, hsentinel₂, hsame₂⟩ := around_replaceNode .left haround₁
    (fun a ha => ((hsame₁ x hyx.symm).parent).trans (hparent a ha)) (hkeys₁.sentinel ▸ hx) hxout
    hnodes y
  have hchildLeft : s₁.child .left y = rootOf s.sentinel left := by
    rw [← hs₁, setRed_child, setParent_child, setChild_child,
      if_neg fun hboth => absurd hboth.1 (by decide), setChild_child, if_pos ⟨rfl, rfl⟩]
  have hchildRight : s₁.child .right y = rootOf s.sentinel right := by
    rw [← hs₁]
    exact if_pos ⟨rfl, rfl⟩
  have heq : substitute x y s = reparent (rootOf s.sentinel right) y
      (reparent (rootOf s.sentinel left) y (replaceNode .left x y s₁)) := by
    have hleft' : s.child .left x = rootOf s.sentinel left := hleft
    have hright' : (setChild .left y (rootOf s.sentinel left) s).child .right x =
        rootOf s.sentinel right := by
      rw [setChild_child, if_neg fun hboth => absurd hboth.1 (by decide)]
      exact hright
    have hred' : s.red x = red := hred
    rw [substitute, hleft', hright']
    simp only [setChild_parent, setParent_red, setChild_red, hred']
    rw [hs₁, (hsame₂ y hyout).child, hchildLeft, reparent_child, (hsame₂ y hyout).child,
      hchildRight]
  have hkeys₂ : SameKeys s (replaceNode .left x y s₁) :=
    hkeys₁.trans ⟨replaceNode_key _ _ _ _, replaceNode_sentinel _ _ _ _⟩
  have hsubtree : ∀ {t : RedBlack.Tree Address},
      (∀ z ∈ t.toList, z ∈ (RedBlack.Tree.node red left x right).toList) →
      ∀ z ∈ t.toList, Same s (replaceNode .left x y s₁) z := by
    intro t hsub z hz
    refine (hsame₁ z ?_).trans (hsame₂ z (hdisjoint z (hsub z hz)))
    rintro rfl
    exact hytree (hsub _ hz)
  have hrepLeft₂ := hrepLeft.congr hkeys₂.sentinel
    (hsubtree fun z hz => List.mem_append_left _ hz)
  have hrep₂ := hrep.congr hkeys₂.sentinel
    (hsubtree fun z hz => List.mem_append_right _ (List.mem_cons_of_mem x hz))
  have hnodup₂ : (plug outer (.node red left y right)).toList.Nodup := by
    obtain ⟨htree, -, -⟩ := nodup_plug_iff.mp hnodup
    obtain ⟨-, -, hleftNodup, hrightNodup, hlr⟩ :=
      nodup_join_iff.mp (show (join .left red x left right).toList.Nodup from htree)
    refine nodup_plug_iff.mpr ⟨?_, hnodes, ?_⟩
    · change (join .left red y left right).toList.Nodup
      refine nodup_join_iff.mpr ⟨?_, ?_, hleftNodup, hrightNodup, hlr⟩
      · exact fun hin => hytree (List.mem_append_left _ hin)
      · exact fun hin => hytree (List.mem_append_right _ (List.mem_cons_of_mem x hin))
    · intro z hz
      rcases List.mem_append.mp hz with hz | hz
      · exact hdisjoint z (List.mem_append_left _ hz)
      · rcases List.mem_cons.mp hz with rfl | hz
        · exact hyout
        · exact hdisjoint z (List.mem_append_right _ (List.mem_cons_of_mem x hz))
  have hat : At (reparent (rootOf s.sentinel right) y (reparent (rootOf s.sentinel left) y
      (replaceNode .left x y s₁))) outer (.node red left y right) := by
    rw [← hkeys₂.sentinel]
    refine at_reparent haround₂ ?_ ?_ ?_ ?_ hrepLeft₂ hrep₂ ?_ hnodup₂ ?_
    · intro a ha
      rw [replaceNode_parent, ← hs₁]
      exact (if_pos rfl).trans (hparent a ha)
    · rw [(hsame₂ y hyout).red, ← hs₁]
      exact if_pos rfl
    · rw [(hsame₂ y hyout).child, hkeys₂.sentinel, hchildLeft]
    · rw [(hsame₂ y hyout).child, hkeys₂.sentinel, hchildRight]
    · rw [hkeys₂.sentinel]
      exact hne
    · rw [hkeys₂.sentinel, (hsame₂ _ houter.sentinel_notMem).red, (hsame₁ _ hne.symm).red]
      exact hblack
  rw [heq]
  refine ⟨hat, ?_, ?_⟩
  · exact hkeys₂.trans ⟨(reparent_key _ _ _).trans (reparent_key _ _ _),
      (reparent_sentinel _ _ _).trans (reparent_sentinel _ _ _)⟩
  · rw [reparent_parent_of_ne, reparent_parent_of_ne, replaceNode_parent]
    · exact (hsame₁ _ hne.symm).parent
    · rw [hkeys₂.sentinel]
      exact Ne.symm
    · rw [reparent_sentinel, hkeys₂.sentinel]
      exact Ne.symm

end Substitute

/-! ## The deletion -/

section Delete

variable [Zero Key] {node : Address} {l : List Address}

/-- The links and the key of a node that is in no tree are cleared. -/
theorem AtHole.clearNode (h : AtHole s frames t) (hnode : node ∉ (plug frames t).toList)
    (hne : node ≠ s.sentinel) : AtHole (clearNode node s) frames t := by
  have hsame : ∀ x, x ≠ node → Same s (RbTree.clearNode node s) x := by
    intro x hx
    have hlinks : Same s (setParent node null (setChild .right node null
        (setChild .left node null s))) x :=
      ((Same.setChild hx).trans (Same.setChild hx)).trans (Same.setParent hx)
    exact ⟨hlinks.child, hlinks.parent, hlinks.red⟩
  have hat : At (RbTree.clearNode node s) frames t := by
    refine h.toAt.congr rfl rfl rfl ?_
    intro x hx
    apply hsame
    rintro rfl
    exact hnode hx
  exact h.of_at hat rfl rfl (hsame _ hne.symm).parent

theorem clearNode_key (hx : x ≠ node) (s : Rbtree Key) : (clearNode node s).key x = s.key x :=
  Function.update_of_ne hx _ _

/-- What a deletion leaves. -/
structure Deleted (s : Rbtree Key) (node : Address) (l : List Address) (s' : Rbtree Key)
    (t : RedBlack.Tree Address) : Prop where
  at_ : At s' [] t
  lawful : t.Lawful
  toList : t.toList = l
  sentinel : s'.sentinel = s.sentinel
  key : ∀ x ≠ node, s'.key x = s.key x

/-- The rest of the deletion, from where the node is out of the tree. -/
theorem deleted_of_hole (h : AtHole s' frames t) (hkeys : SameKeys s s')
    (hnode : node ∉ (plug frames t).toList) (hne : node ≠ s.sentinel)
    (hred : red = true → Fills frames n t) (hblack : red = false → Short frames 0 t) {fuel : ℕ}
    (hfuel : frames.length + 1 < fuel) :
    ∃ s'' t', (if red then some (clearNode node s')
        else deleteFixups fuel (rootOf s.sentinel t) (clearNode node s')) = some s'' ∧
      Deleted s node (plug frames t).toList s'' t' := by
  have hclear := h.clearNode hnode (hkeys.sentinel ▸ hne)
  have hkey : ∀ x ≠ node, (clearNode node s').key x = s.key x := by
    intro x hx
    rw [clearNode_key hx, hkeys.key]
  cases red with
  | true =>
      exact ⟨_, _, if_pos rfl, at_nil_iff.mp hclear.toAt, (hred rfl).lawful, rfl, hkeys.sentinel,
        hkey⟩
  | false =>
      have hmoved : Moved (clearNode node s') (plug frames t).toList (clearNode node s') frames t :=
        ⟨hclear, ⟨0, hblack rfl⟩, rfl, SameKeys.refl _⟩
      obtain ⟨s'', t', hloop, hat, hlawful, hlist, hkeys'⟩ :=
        deleteFixups_spec hmoved (Or.inl hfuel)
      have hsentinel : (clearNode node s').sentinel = s.sentinel := hkeys.sentinel
      rw [hsentinel] at hloop
      refine ⟨s'', t', ?_, hat, hlawful, hlist, hkeys'.sentinel.trans hsentinel, ?_⟩
      · rw [if_neg Bool.false_ne_true]
        exact hloop
      · intro x hx
        rw [hkeys'.key]
        exact hkey x hx

/-- A node with at most one subtree. -/
theorem nightRbtreeDelete_splice (h : At s frames (join side red node .nil t))
    (hlawful : (plug frames (join side red node .nil t)).Lawful) {fuel : ℕ}
    (hchoose : chooseSubst fuel node s = some (rootOf s.sentinel t, node))
    (hfuel : frames.length + 1 < fuel) :
    ∃ s' t', nightRbtreeDelete fuel node s = some s' ∧
      Deleted s node (plug frames t).toList s' t' := by
  have hholds := rep_join_iff.mp h.rep
  obtain ⟨n, hfills⟩ := hlawful.fills
  have hsplice := hfills.splice
  have hparts := nodup_join_iff.mp h.nodupTree
  have hnode : node ∉ (plug frames t).toList := by
    rw [mem_toList_plug]
    rintro (hin | hin)
    · exact hparts.2.1 hin
    · exact h.disjoint node (mem_toList_join.mpr (Or.inl rfl)) hin
  rw [nightRbtreeDelete, hchoose]
  simp only [Option.bind_eq_bind, Option.bind_some]
  cases frames with
  | nil =>
      have hroot : node = s.root := by
        rw [h.around, rootOf_join]
      rw [if_pos hroot]
      have hblack : red = false := by
        rw [Bool.eq_false_iff]
        intro hred
        have habove := hfills.red (isRed_join.trans hred)
        cases habove
      have hat : At (setRoot (rootOf s.sentinel t) s) [] t := by
        refine ⟨rfl, hholds.repFar.forget.congr rfl ?_, hparts.2.2.2.1, h.black⟩
        exact fun x _ => ⟨fun _ => rfl, rfl, rfl⟩
      have hblackened : AtHole (setRed (rootOf s.sentinel t) false
          (setRoot (rootOf s.sentinel t) s)) [] t.blacken := by
        refine ⟨at_setRed_rootOf hat, ?_⟩
        rintro _ ⟨⟩
      have hout : node ∉ (plug [] t.blacken).toList := by
        change node ∉ t.blacken.toList
        rw [toList_blacken]
        exact hnode
      refine ⟨_, t.blacken, rfl, (hblackened.clearNode hout hholds.ne_sentinel).toAt,
        (hsplice.2 hblack).lawful_of_root, toList_blacken, rfl, ?_⟩
      exact fun x hx => clearNode_key hx _
  | cons frame frames =>
      have hroot : node ≠ s.root := by
        intro heq
        have hin := h.around.root_mem
        rw [← heq] at hin
        exact h.disjoint node (mem_toList_join.mpr (Or.inl rfl)) hin
      rw [if_neg hroot]
      have hparent : s.parent node = frame.node := hholds.parent _ rfl
      have hunlinked := unlinked h frame.node
      have hunlink : unlink node (rootOf s.sentinel t) node s =
          setParent (rootOf s.sentinel t) frame.node
            (replaceChild .left node (rootOf s.sentinel t) s) := by
        rw [unlink]
        dsimp only
        rw [if_pos rfl, replaceChild_parent, hparent]
      rw [hunlink, hholds.red]
      generalize setParent (rootOf s.sentinel t) frame.node
        (replaceChild .left node (rootOf s.sentinel t) s) = s₁ at hunlinked
      have hat : At s₁ (frame :: frames) t := by
        refine ⟨?_, hunlinked.rep, ?_, ?_⟩
        · rw [hunlinked.keys.sentinel]
          exact hunlinked.around
        · have hplug := nodup_plug_iff.mp h.nodup
          refine nodup_plug_iff.mpr ⟨hparts.2.2.2.1, hplug.2.1, ?_⟩
          exact fun x hx => hplug.2.2 x (mem_toList_join.mpr (Or.inr (Or.inr hx)))
        · rw [hunlinked.keys.sentinel, hunlinked.red]
          exact h.black
      have hhole : AtHole s₁ (frame :: frames) t := by
        refine ⟨hat, ?_⟩
        rintro _ ⟨⟩
        rw [hunlinked.keys.sentinel]
        exact hunlinked.hole
      exact deleted_of_hole hhole hunlinked.keys hnode hholds.ne_sentinel hsplice.1 hsplice.2 hfuel

section Least

variable {inner : List (Frame Address)} {frame : Frame Address} {rest : List (Frame Address)}
  {y : Address} {r : RedBlack.Tree Address}

/-- The order around the least node of a right subtree. -/
theorem toList_plug_least (hbefore : before inner = []) (x : Address) (t : RedBlack.Tree Address) :
    (plug outer (.node red left x (plug inner t))).toList =
      (before outer ++ (left.toList ++ [x])) ++
        (t.toList ++ (behind inner ++ behind outer)) := by
  simp [toList_plug, RedBlack.Tree.toList, hbefore]

/-- The node above the least one, once this one has taken the place of `node`. -/
theorem nodeAbove_least
    (hnodes : (nodes (inner ++ ⟨.right, red, node, left⟩ :: outer)).Nodup)
    (hcons : inner ++ ⟨.right, red, node, left⟩ :: outer = frame :: rest) :
    nodeAbove (inner ++ ⟨.right, red, y, left⟩ :: outer) =
        some (if frame.node = node then y else frame.node) ∧
      ∀ a ∈ nodeAbove inner, a = (if frame.node = node then y else frame.node) := by
  cases inner with
  | nil =>
      cases hcons
      exact ⟨congrArg some (if_pos rfl).symm, fun a ha => nomatch ha⟩
  | cons frame' inner =>
      cases hcons
      have hframe : frame.node ≠ node := by
        intro heq
        have hnotin := (nodup_nodes_cons hnodes).2
        rw [heq] at hnotin
        exact hnotin (node_mem_nodes (List.mem_append_right _ List.mem_cons_self))
      rw [if_neg hframe]
      refine ⟨rfl, ?_⟩
      rintro _ ⟨⟩
      rfl

omit [Zero Key] in
/-- The least node of the right subtree is unlinked and put in the place of `node`. -/
theorem atHole_unlink_least
    (h : At s outer (.node red left node (plug inner (.node red' .nil y r))))
    (hbefore : before inner = []) :
    y ≠ s.root ∧
      AtHole (unlink node (rootOf s.sentinel r) y s)
        (inner ++ ⟨.right, red, y, left⟩ :: outer) r ∧
      SameKeys s (unlink node (rootOf s.sentinel r) y s) := by
  have hplace : At s (inner ++ ⟨.right, red, node, left⟩ :: outer) (join .left red' y .nil r) :=
    at_plug_iff.mpr (at_cons_iff.mpr h)
  obtain ⟨frame, rest, hcons⟩ : ∃ frame rest,
      inner ++ ⟨.right, red, node, left⟩ :: outer = frame :: rest :=
    List.exists_cons_of_ne_nil (by simp)
  have hy := rep_join_iff.mp hplace.rep
  have hyout := hplace.disjoint y (mem_toList_join.mpr (Or.inl rfl))
  have hroot : y ≠ s.root := by
    have hin := hplace.around
    rw [hcons] at hin hyout
    rintro rfl
    exact hyout hin.root_mem
  have hyne : y ≠ node := by
    rintro rfl
    exact hyout (node_mem_nodes (List.mem_append_right _ List.mem_cons_self))
  obtain ⟨habove, hinner⟩ :=
    nodeAbove_least (y := y) (nodup_plug_iff.mp hplace.nodup).2.1 hcons
  have hparent : s.parent y = frame.node := by
    rw [hcons] at hplace
    exact hplace.parent join_ne_nil
  have hunlinked : Unlinked s (setParent (rootOf s.sentinel r)
      (if frame.node = node then y else frame.node)
      (replaceChild .left y (rootOf s.sentinel r) s))
      (inner ++ ⟨.right, red, node, left⟩ :: outer) r
      (if frame.node = node then y else frame.node) y := by
    rw [hcons] at hplace ⊢
    exact unlinked hplace _
  have hunlink : unlink node (rootOf s.sentinel r) y s = substitute node y
      (setParent (rootOf s.sentinel r) (if frame.node = node then y else frame.node)
        (replaceChild .left y (rootOf s.sentinel r) s)) := by
    rw [unlink]
    dsimp only
    rw [if_neg hyne, replaceChild_parent, hparent]
  have hnodup := h.nodup
  have hperm : (plug outer (.node red left node (plug inner (.node red' .nil y r)))).toList.Perm
      (y :: (plug outer (.node red left node (plug inner r))).toList) := by
    rw [toList_plug_least hbefore, toList_plug_least hbefore]
    exact List.perm_middle
  rw [hperm.nodup_iff, List.nodup_cons] at hnodup
  obtain ⟨hynotin, hnodup⟩ := hnodup
  rw [hunlink]
  generalize setParent (rootOf s.sentinel r) (if frame.node = node then y else frame.node)
    (replaceChild .left y (rootOf s.sentinel r) s) = s₁ at hunlinked
  generalize (if frame.node = node then y else frame.node) = a at habove hinner hunlinked
  have hsentinel := hunlinked.keys.sentinel
  obtain ⟨haround, hrep⟩ : Around s₁ (⟨.right, red, node, left⟩ :: outer)
      (rootOf s₁.sentinel (plug inner r)) ∧ Rep s₁ none (plug inner r) := by
    apply around_append
    · rw [hsentinel]
      exact hunlinked.around
    · exact hunlinked.rep.mono fun b hb => congrArg some (hinner b hb).symm
  have hblack : s₁.red s₁.sentinel = false := by
    rw [hsentinel, hunlinked.red]
    exact h.black
  obtain ⟨hat, hkeys, hparentSentinel⟩ := at_substitute haround hrep hnodup
    hynotin (hsentinel ▸ hy.ne_sentinel) hblack
  generalize substitute node y s₁ = s₂ at hat hkeys hparentSentinel ⊢
  have hplaced : At s₂ (inner ++ ⟨.right, red, y, left⟩ :: outer) r :=
    at_plug_iff.mpr (at_cons_iff.mpr hat)
  refine ⟨hroot, ?_, hunlinked.keys.trans hkeys⟩
  by_cases hnil : r = .nil
  · subst hnil
    refine ⟨hplaced, ?_⟩
    rw [habove]
    rintro _ ⟨⟩
    rw [hkeys.sentinel]
    change s₂.parent s₁.sentinel = a
    rw [hparentSentinel, hsentinel]
    exact hunlinked.hole
  · exact hplaced.hole_of_ne_nil hnil

end Least

/-- A node with two subtrees gets replaced by the first node of the right one. -/
theorem nightRbtreeDelete_substitute (h : At s outer (.node red left node right))
    (hlawful : (plug outer (.node red left node right)).Lawful) (hleft : left ≠ .nil)
    (hright : right ≠ .nil) {fuel : ℕ}
    (hfuel : (plug outer (.node red left node right)).toList.length + 1 < fuel) :
    ∃ s' t', nightRbtreeDelete fuel node s = some s' ∧
      Deleted s node (before outer ++ (left.toList ++ (right.toList ++ behind outer))) s' t' := by
  obtain ⟨hne, -, -, hchildLeft, hchildRight, hrepLeft, hrepRight⟩ := h.rep
  have hlength : right.toList.length ≤ fuel := by
    rw [(perm_toList_plug _ _).length_eq, List.length_append, RedBlack.Tree.toList,
      List.length_append, List.length_cons] at hfuel
    omega
  obtain ⟨inner, red', y, r, hmin, heq, hsides⟩ := nightRbtreeMin_spec hrepRight hright hlength
  subst heq
  have hbefore : before inner = [] := before_eq_nil hsides
  have hplace : At s (inner ++ ⟨.right, red, node, left⟩ :: outer) (join .left red' y .nil r) :=
    at_plug_iff.mpr (at_cons_iff.mpr h)
  have hy := rep_join_iff.mp hplace.rep
  obtain ⟨hroot, hhole, hkeys⟩ := atHole_unlink_least h hbefore
  have hchoose : chooseSubst fuel node s = some (rootOf s.sentinel r, y) := by
    rw [chooseSubst, hchildLeft, hchildRight,
      if_neg (hrepLeft.ne_sentinel (rootOf_mem s.sentinel hleft)),
      if_neg (hrepRight.ne_sentinel (rootOf_mem s.sentinel hright)), hmin]
    have hchild : s.child .right y = rootOf s.sentinel r := hy.childFar
    simp only [Option.bind_eq_bind, Option.bind_some, hchild]
  rw [nightRbtreeDelete, hchoose]
  simp only [Option.bind_eq_bind, Option.bind_some]
  rw [if_neg hroot, hy.red]
  obtain ⟨n, hfills⟩ : ∃ n, Fills (inner ++ ⟨.right, red, node, left⟩ :: outer) n
      (join .left red' y .nil r) := by
    apply RedBlack.Tree.Lawful.fills
    rw [plug_append]
    exact hlawful
  have hlist : (plug (inner ++ ⟨.right, red, y, left⟩ :: outer) r).toList =
      before outer ++ (left.toList ++
        ((plug inner (.node red' .nil y r)).toList ++ behind outer)) := by
    rw [plug_append]
    change (plug outer (.node red left y (plug inner r))).toList = _
    simp [toList_plug, RedBlack.Tree.toList, hbefore]
  have hnode : node ∉ (plug (inner ++ ⟨.right, red, y, left⟩ :: outer) r).toList := by
    have hperm : (plug outer (.node red left node (plug inner (.node red' .nil y r)))).toList =
        (before outer ++ left.toList) ++
          node :: ((plug inner (.node red' .nil y r)).toList ++ behind outer) := by
      simp [toList_plug, RedBlack.Tree.toList]
    have hall := h.nodup
    rw [hperm, List.perm_middle.nodup_iff, List.nodup_cons, List.append_assoc] at hall
    rw [hlist]
    exact hall.1
  have hframes : (inner ++ ⟨.right, red, y, left⟩ :: outer).length + 1 < fuel := by
    have hle := length_le_plug (inner ++ ⟨.right, red, y, left⟩ :: outer) r
    have hsame := congrArg List.length hlist
    rw [(perm_toList_plug _ _).length_eq] at hfuel
    simp only [List.length_append, List.length_cons, RedBlack.Tree.toList, nodes] at hfuel hsame hle
    simp only [List.length_append, List.length_cons]
    omega
  obtain ⟨s', t', hdone, hdeleted⟩ := deleted_of_hole hhole hkeys hnode hne
    (fun hred' => (hfills.splice.1 hred').replace) (fun hred' => (hfills.splice.2 hred').replace)
    hframes
  rw [hlist] at hdeleted
  exact ⟨s', t', hdone, hdeleted⟩

/-- A deletion takes the node out of the order, and leaves a red-black tree that is sorted. -/
theorem nightRbtreeDelete_spec {less : Key → Key → Bool} (h : Represents less s t)
    (hnode : node ∈ t.toList) {fuel : ℕ} (hfuel : t.toList.length + 1 < fuel) :
    ∃ s' t', nightRbtreeDelete fuel node s = some s' ∧ Represents less s' t' ∧
      t.toList.Perm (node :: t'.toList) ∧ s'.sentinel = s.sentinel ∧
      ∀ x ≠ node, s'.key x = s.key x := by
  obtain ⟨outer, red, left, right, heq⟩ := exists_plug t hnode
  subst heq
  have hat : At s outer (.node red left node right) := at_nil_iff.mpr h.at_
  have hlist : (plug outer (.node red left node right)).toList =
      (before outer ++ left.toList) ++ node :: (right.toList ++ behind outer) := by
    simp [toList_plug, RedBlack.Tree.toList]
  have hdeleted : ∃ s' t', nightRbtreeDelete fuel node s = some s' ∧
      Deleted s node (before outer ++ (left.toList ++ (right.toList ++ behind outer))) s' t' := by
    have hframes : outer.length + 1 < fuel := by
      have hle := length_le_plug outer (.node red left node right)
      omega
    obtain ⟨hne, -, -, hchildLeft, hchildRight, hrepLeft, hrepRight⟩ := hat.rep
    by_cases hleft : left = .nil
    · subst hleft
      have hchoose : chooseSubst fuel node s = some (rootOf s.sentinel right, node) := by
        rw [chooseSubst, hchildLeft, hchildRight]
        exact if_pos rfl
      have hnear : At s outer (join .left red node .nil right) := hat
      have hsplice := nightRbtreeDelete_splice hnear h.lawful hchoose hframes
      rw [toList_plug] at hsplice
      exact hsplice
    · by_cases hright : right = .nil
      · subst hright
        have hchoose : chooseSubst fuel node s = some (rootOf s.sentinel left, node) := by
          rw [chooseSubst, hchildLeft, hchildRight,
            if_neg (hrepLeft.ne_sentinel (rootOf_mem s.sentinel hleft))]
          exact if_pos rfl
        have hnear : At s outer (join .right red node .nil left) := hat
        have hsplice := nightRbtreeDelete_splice hnear h.lawful hchoose hframes
        rw [toList_plug] at hsplice
        exact hsplice
      · exact nightRbtreeDelete_substitute hat h.lawful hleft hright hfuel
  obtain ⟨s', t', hdelete, hdeleted⟩ := hdeleted
  have hlist' : t'.toList = (before outer ++ left.toList) ++ (right.toList ++ behind outer) := by
    rw [hdeleted.toList, List.append_assoc]
  have hperm : (plug outer (.node red left node right)).toList.Perm (node :: t'.toList) := by
    rw [hlist, hlist']
    exact List.perm_middle
  have hnodup := h.at_.nodup
  rw [plug, hperm.nodup_iff, List.nodup_cons] at hnodup
  refine ⟨s', t', hdelete, ⟨hdeleted.at_, hdeleted.lawful, ?_⟩, hperm, hdeleted.sentinel,
    hdeleted.key⟩
  have hsorted := h.sorted
  rw [hlist] at hsorted
  have hsub : Sorted less s t'.toList := by
    rw [hlist']
    exact hsorted.sublist ((List.sublist_cons_self _ _).append_left _)
  apply hsub.congr
  intro x hx
  apply hdeleted.key
  rintro rfl
  exact hnodup.1 hx

end Delete

end Night.RbTree
