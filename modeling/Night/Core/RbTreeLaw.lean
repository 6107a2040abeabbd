import Night.Core.RbTree

/-!
# Trees in the memory

What it means that the nodes hold a tree, with a hole or without, and what rotations and
colours do to it.  All places are holes, so each operation is described where it happens.
-/

namespace Night.RbTree

open Night.RedBlack
open Night.RedBlack.Tree
open Rbtree

variable {Key : Type} {s s' s'' : Rbtree Key} {p q x : Address} {side side' : Side}
  {red red' : Bool} {frame : Frame Address} {frames : List (Frame Address)}
  {t near far mid : RedBlack.Tree Address} {above : Option Address}

/-! ## Fields -/

@[simp]
theorem setChild_child (side : Side) (p x : Address) (s : Rbtree Key) (side' : Side)
    (q : Address) : (setChild side p x s).child side' q =
      if side' = side ∧ q = p then x else s.child side' q := rfl

@[simp]
theorem setChild_parent (side : Side) (p x : Address) (s : Rbtree Key) :
    (setChild side p x s).parent = s.parent := rfl

@[simp]
theorem setChild_red (side : Side) (p x : Address) (s : Rbtree Key) :
    (setChild side p x s).red = s.red := rfl

@[simp]
theorem setChild_root (side : Side) (p x : Address) (s : Rbtree Key) :
    (setChild side p x s).root = s.root := rfl

@[simp]
theorem setChild_sentinel (side : Side) (p x : Address) (s : Rbtree Key) :
    (setChild side p x s).sentinel = s.sentinel := rfl

@[simp]
theorem setParent_child (p x : Address) (s : Rbtree Key) :
    (setParent p x s).child = s.child := rfl

@[simp]
theorem setParent_parent (p x : Address) (s : Rbtree Key) (q : Address) :
    (setParent p x s).parent q = if q = p then x else s.parent q := rfl

@[simp]
theorem setParent_red (p x : Address) (s : Rbtree Key) : (setParent p x s).red = s.red := rfl

@[simp]
theorem setParent_root (p x : Address) (s : Rbtree Key) : (setParent p x s).root = s.root := rfl

@[simp]
theorem setParent_sentinel (p x : Address) (s : Rbtree Key) :
    (setParent p x s).sentinel = s.sentinel := rfl

@[simp]
theorem setRed_child (p : Address) (red : Bool) (s : Rbtree Key) :
    (setRed p red s).child = s.child := rfl

@[simp]
theorem setRed_parent (p : Address) (red : Bool) (s : Rbtree Key) :
    (setRed p red s).parent = s.parent := rfl

@[simp]
theorem setRed_red (p : Address) (red : Bool) (s : Rbtree Key) (q : Address) :
    (setRed p red s).red q = if q = p then red else s.red q := rfl

@[simp]
theorem setRed_root (p : Address) (red : Bool) (s : Rbtree Key) :
    (setRed p red s).root = s.root := rfl

@[simp]
theorem setRed_sentinel (p : Address) (red : Bool) (s : Rbtree Key) :
    (setRed p red s).sentinel = s.sentinel := rfl

@[simp]
theorem reparent_child (p x : Address) (s : Rbtree Key) : (reparent p x s).child = s.child := by
  rw [reparent]
  split <;> rfl

@[simp]
theorem reparent_red (p x : Address) (s : Rbtree Key) : (reparent p x s).red = s.red := by
  rw [reparent]
  split <;> rfl

@[simp]
theorem reparent_root (p x : Address) (s : Rbtree Key) : (reparent p x s).root = s.root := by
  rw [reparent]
  split <;> rfl

@[simp]
theorem reparent_sentinel (p x : Address) (s : Rbtree Key) :
    (reparent p x s).sentinel = s.sentinel := by
  rw [reparent]
  split <;> rfl

theorem reparent_parent_self (hp : p ≠ s.sentinel) : (reparent p x s).parent p = x := by
  rw [reparent, if_pos hp]
  exact if_pos rfl

theorem reparent_parent_of_ne (hq : p ≠ s.sentinel → q ≠ p) :
    (reparent p x s).parent q = s.parent q := by
  rw [reparent]
  split
  · rename_i hp
    exact if_neg (hq hp)
  · rfl

@[simp]
theorem replaceChild_parent (side : Side) (p q : Address) (s : Rbtree Key) :
    (replaceChild side p q s).parent = s.parent := by
  rw [replaceChild]
  split <;> rfl

@[simp]
theorem replaceNode_parent (side : Side) (p q : Address) (s : Rbtree Key) :
    (replaceNode side p q s).parent = s.parent := by
  rw [replaceNode]
  split
  · rfl
  · exact replaceChild_parent side p q s

@[simp]
theorem replaceNode_sentinel (side : Side) (p q : Address) (s : Rbtree Key) :
    (replaceNode side p q s).sentinel = s.sentinel := by
  rw [replaceNode, replaceChild]
  split
  · rfl
  · split <;> rfl

@[simp]
theorem replaceNode_key (side : Side) (p q : Address) (s : Rbtree Key) :
    (replaceNode side p q s).key = s.key := by
  rw [replaceNode, replaceChild]
  split
  · rfl
  · split <;> rfl

@[simp]
theorem reparent_key (p x : Address) (s : Rbtree Key) : (reparent p x s).key = s.key := by
  rw [reparent]
  split <;> rfl

/-! ## Nodes that are left alone -/

/-- The links and the colour of a node are the same. -/
structure Same (s s' : Rbtree Key) (x : Address) : Prop where
  child : ∀ side, s'.child side x = s.child side x
  parent : s'.parent x = s.parent x
  red : s'.red x = s.red x

namespace Same

theorem refl (s : Rbtree Key) (x : Address) : Same s s x :=
  ⟨fun _ => rfl, rfl, rfl⟩

theorem trans (hleft : Same s s' x) (hright : Same s' s'' x) : Same s s'' x :=
  ⟨fun side => (hright.child side).trans (hleft.child side), hright.parent.trans hleft.parent,
    hright.red.trans hleft.red⟩

theorem setChild (hx : x ≠ p) : Same s (Rbtree.setChild side p q s) x :=
  ⟨fun _ => if_neg fun hboth => hx hboth.2, rfl, rfl⟩

theorem setParent (hx : x ≠ p) : Same s (Rbtree.setParent p q s) x :=
  ⟨fun _ => rfl, if_neg hx, rfl⟩

theorem setRed (hx : x ≠ p) : Same s (Rbtree.setRed p red s) x :=
  ⟨fun _ => rfl, rfl, if_neg hx⟩

theorem reparent (hx : p ≠ s.sentinel → x ≠ p) : Same s (RbTree.reparent p q s) x := by
  rw [RbTree.reparent]
  split
  · rename_i hp
    exact setParent (hx hp)
  · exact refl s x

end Same

/-! ## Trees -/

def rootOf (sentinel : Address) : RedBlack.Tree Address → Address
  | .nil => sentinel
  | .node _ _ p _ => p

/-- The nodes hold the tree; its root has the parent above, if one is given. -/
def Rep (s : Rbtree Key) : Option Address → RedBlack.Tree Address → Prop
  | _, .nil => True
  | above, .node red left p right =>
      p ≠ s.sentinel ∧ (∀ a ∈ above, s.parent p = a) ∧ s.red p = red ∧
        s.child .left p = rootOf s.sentinel left ∧ s.child .right p = rootOf s.sentinel right ∧
        Rep s (some p) left ∧ Rep s (some p) right

/-- The node at the root of a tree that the nodes hold. -/
structure Holds (s : Rbtree Key) (above : Option Address) (side : Side) (red : Bool) (p : Address)
    (near far : RedBlack.Tree Address) : Prop where
  ne_sentinel : p ≠ s.sentinel
  parent : ∀ a ∈ above, s.parent p = a
  red : s.red p = red
  childNear : s.child side p = rootOf s.sentinel near
  childFar : s.child side.other p = rootOf s.sentinel far
  repNear : Rep s (some p) near
  repFar : Rep s (some p) far

@[simp]
theorem rootOf_join (sentinel : Address) :
    rootOf sentinel (join side red p near far) = p := by
  cases side <;> rfl

theorem rep_join_iff :
    Rep s above (join side red p near far) ↔ Holds s above side red p near far := by
  cases side with
  | left =>
      constructor
      · rintro ⟨hne, hparent, hred, hleft, hright, hrepLeft, hrepRight⟩
        exact ⟨hne, hparent, hred, hleft, hright, hrepLeft, hrepRight⟩
      · intro h
        exact ⟨h.ne_sentinel, h.parent, h.red, h.childNear, h.childFar, h.repNear, h.repFar⟩
  | right =>
      constructor
      · rintro ⟨hne, hparent, hred, hleft, hright, hrepLeft, hrepRight⟩
        exact ⟨hne, hparent, hred, hright, hleft, hrepRight, hrepLeft⟩
      · intro h
        exact ⟨h.ne_sentinel, h.parent, h.red, h.childFar, h.childNear, h.repFar, h.repNear⟩

theorem rootOf_mem (sentinel : Address) (ht : t ≠ .nil) : rootOf sentinel t ∈ t.toList := by
  cases t with
  | nil => exact absurd rfl ht
  | node red left a right => exact List.mem_append_right _ List.mem_cons_self

theorem Rep.sentinel_notMem (hrep : Rep s above t) : s.sentinel ∉ t.toList := by
  induction t generalizing above with
  | nil => exact List.not_mem_nil
  | node red left a right ihleft ihright =>
      obtain ⟨hne, -, -, -, -, hleft, hright⟩ := hrep
      rw [toList, List.mem_append, List.mem_cons]
      rintro (hin | heq | hin)
      · exact ihleft hleft hin
      · exact hne heq.symm
      · exact ihright hright hin

theorem Rep.ne_sentinel (hrep : Rep s above t) (hx : x ∈ t.toList) : x ≠ s.sentinel := by
  rintro rfl
  exact hrep.sentinel_notMem hx

theorem Rep.congr (hrep : Rep s above t) (hsentinel : s'.sentinel = s.sentinel)
    (hsame : ∀ x ∈ t.toList, Same s s' x) : Rep s' above t := by
  induction t generalizing above with
  | nil => exact trivial
  | node red left a right ihleft ihright =>
      obtain ⟨hne, hparent, hred, hchildLeft, hchildRight, hleft, hright⟩ := hrep
      have ha := hsame a (List.mem_append_right _ List.mem_cons_self)
      rw [Rep, hsentinel, ha.parent, ha.red, ha.child, ha.child]
      refine ⟨hne, hparent, hred, hchildLeft, hchildRight, ihleft hleft ?_, ihright hright ?_⟩
      · exact fun x hx => hsame x (List.mem_append_left _ hx)
      · exact fun x hx => hsame x (List.mem_append_right _ (List.mem_cons_of_mem a hx))

theorem Rep.mono {above' : Option Address} (hrep : Rep s above t)
    (habove : ∀ a ∈ above', a ∈ above) : Rep s above' t := by
  cases t with
  | nil => exact trivial
  | node red left p right => exact ⟨hrep.1, fun a ha => hrep.2.1 a (habove a ha), hrep.2.2⟩

theorem Rep.forget (hrep : Rep s above t) : Rep s none t :=
  hrep.mono fun _ ha => nomatch ha

/-- The tree gets another parent. -/
theorem Rep.reparent (hrep : Rep s above t) (hnodup : t.toList.Nodup)
    (hsentinel : s'.sentinel = s.sentinel)
    (hsame : ∀ x ∈ t.toList, x ≠ rootOf s.sentinel t → Same s s' x)
    (hroot : t ≠ .nil → Same (Rbtree.setParent (rootOf s.sentinel t) p s) s'
      (rootOf s.sentinel t)) : Rep s' (some p) t := by
  cases t with
  | nil => exact trivial
  | node red left a right =>
      obtain ⟨hne, -, hred, hchildLeft, hchildRight, hleft, hright⟩ := hrep
      have ha := hroot fun heq => nomatch heq
      change Same (setParent a p s) s' a at ha
      have hparts := nodup_join_iff.mp (show (join .left red a left right).toList.Nodup from hnodup)
      rw [Rep, hsentinel, ha.parent, ha.red, ha.child, ha.child]
      refine ⟨hne, ?_, hred, hchildLeft, hchildRight, hleft.congr hsentinel ?_,
        hright.congr hsentinel ?_⟩
      · rintro _ ⟨⟩
        exact if_pos rfl
      · intro x hx
        refine hsame x (List.mem_append_left _ hx) ?_
        rintro rfl
        exact hparts.1 hx
      · intro x hx
        refine hsame x (List.mem_append_right _ (List.mem_cons_of_mem a hx)) ?_
        rintro rfl
        exact hparts.2.1 hx

/-! ## Holes -/

/-- The node above a hole. -/
def nodeAbove : List (Frame Address) → Option Address
  | [] => none
  | frame :: _ => some frame.node

/-- The nodes around a hole; the hole has an address. -/
def Around (s : Rbtree Key) : List (Frame Address) → Address → Prop
  | [], hole => s.root = hole
  | frame :: frames, hole =>
      frame.node ≠ s.sentinel ∧ (∀ a ∈ nodeAbove frames, s.parent frame.node = a) ∧
        s.red frame.node = frame.red ∧ s.child frame.side frame.node = hole ∧
        s.child frame.side.other frame.node = rootOf s.sentinel frame.sibling ∧
        Rep s (some frame.node) frame.sibling ∧ Around s frames frame.node

/-- A tree at a place in the memory. -/
structure At (s : Rbtree Key) (frames : List (Frame Address)) (t : RedBlack.Tree Address) :
    Prop where
  around : Around s frames (rootOf s.sentinel t)
  rep : Rep s (nodeAbove frames) t
  nodup : (plug frames t).toList.Nodup
  black : s.red s.sentinel = false

theorem at_cons_iff : At s (frame :: frames) t ↔ At s frames (frame.attach t) := by
  obtain ⟨side, red, p, sibling⟩ := frame
  constructor
  · intro h
    obtain ⟨hne, hparent, hred, hnear, hfar, hsibling, hrest⟩ := h.around
    refine ⟨?_, ?_, h.nodup, h.black⟩
    · rw [Frame.attach, rootOf_join]
      exact hrest
    · rw [Frame.attach, rep_join_iff]
      exact ⟨hne, hparent, hred, hnear, hfar, h.rep, hsibling⟩
  · intro h
    have hrest := h.around
    have hrep := h.rep
    rw [Frame.attach, rootOf_join] at hrest
    rw [Frame.attach, rep_join_iff] at hrep
    exact ⟨⟨hrep.ne_sentinel, hrep.parent, hrep.red, hrep.childNear, hrep.childFar,
      hrep.repFar, hrest⟩, hrep.repNear, h.nodup, h.black⟩

/-- A tree at a place is part of the whole tree. -/
theorem at_plug_iff {inner outer : List (Frame Address)} :
    At s (inner ++ outer) t ↔ At s outer (plug inner t) := by
  induction inner generalizing t with
  | nil => exact Iff.rfl
  | cons frame inner ih => exact at_cons_iff.trans ih

theorem at_nil_iff : At s frames t ↔ At s [] (plug frames t) := by
  rw [← at_plug_iff, List.append_nil]

theorem Around.congr {hole : Address} (haround : Around s frames hole)
    (hsentinel : s'.sentinel = s.sentinel) (hroot : s'.root = s.root)
    (hsame : ∀ x ∈ nodes frames, Same s s' x) : Around s' frames hole := by
  induction frames generalizing hole with
  | nil => exact hroot.trans haround
  | cons frame frames ih =>
      obtain ⟨hne, hparent, hred, hnear, hfar, hsibling, hrest⟩ := haround
      have hnode := hsame frame.node (mem_nodes_cons.mpr (Or.inl rfl))
      rw [Around, hsentinel, hnode.parent, hnode.red, hnode.child, hnode.child]
      refine ⟨hne, hparent, hred, hnear, hfar, hsibling.congr hsentinel ?_, ih hrest ?_⟩
      · exact fun x hx => hsame x (mem_nodes_cons.mpr (Or.inr (Or.inl hx)))
      · exact fun x hx => hsame x (mem_nodes_cons.mpr (Or.inr (Or.inr hx)))

theorem Around.sentinel_notMem {hole : Address} (haround : Around s frames hole) :
    s.sentinel ∉ nodes frames := by
  induction frames generalizing hole with
  | nil => exact not_mem_nodes_nil
  | cons frame frames ih =>
      obtain ⟨hne, -, -, -, -, hsibling, hrest⟩ := haround
      rw [mem_nodes_cons]
      rintro (heq | hin | hin)
      · exact hne heq.symm
      · exact hsibling.sentinel_notMem hin
      · exact ih hrest hin

/-- Where something is around the hole, the root is there. -/
theorem Around.root_mem {hole : Address} (haround : Around s (frame :: frames) hole) :
    s.root ∈ nodes (frame :: frames) := by
  induction frames generalizing frame hole with
  | nil =>
      obtain ⟨-, -, -, -, -, -, hroot⟩ := haround
      exact mem_nodes_cons.mpr (Or.inl hroot)
  | cons frame' frames ih =>
      obtain ⟨-, -, -, -, -, -, hrest⟩ := haround
      exact mem_nodes_cons.mpr (Or.inr (Or.inr (ih hrest)))

/-! ## Places -/

theorem At.disjoint (h : At s frames t) : ∀ x ∈ t.toList, x ∉ nodes frames :=
  (nodup_plug_iff.mp h.nodup).2.2

theorem At.nodupTree (h : At s frames t) : t.toList.Nodup :=
  (nodup_plug_iff.mp h.nodup).1

/-- What is in the hole is another node. -/
theorem around_link {hole : Address} (haround : Around s (frame :: frames) hole)
    (hnodup : (nodes (frame :: frames)).Nodup) (q : Address) :
    Around (setChild frame.side frame.node q s) (frame :: frames) q := by
  obtain ⟨hframe, habove, hred, hnear, hfar, hsibling, hrest⟩ := haround
  obtain ⟨hnotSibling, hnotRest⟩ := nodup_nodes_cons hnodup
  have hsame : ∀ x, x ≠ frame.node → Same s (setChild frame.side frame.node q s) x :=
    fun x hx => Same.setChild hx
  refine ⟨hframe, habove, hred, ?_, ?_, ?_, ?_⟩
  · rw [setChild_child, if_pos ⟨rfl, rfl⟩]
  · rw [setChild_child, if_neg fun hboth => Side.ne_other _ hboth.1.symm]
    exact hfar
  · apply hsibling.congr
    · rfl
    · intro x hx
      apply hsame
      rintro rfl
      exact hnotSibling hx
  · apply hrest.congr
    · rfl
    · rfl
    · intro x hx
      apply hsame
      rintro rfl
      exact hnotRest hx

/-- The hole and the sibling are different nodes, if one of them is a node. -/
theorem Around.hole_ne {hole : Address} (haround : Around s (frame :: frames) hole)
    (hne : hole ≠ s.sentinel ∨ frame.sibling ≠ .nil) (hhole : hole ∉ nodes (frame :: frames)) :
    hole ≠ s.child frame.side.other frame.node := by
  obtain ⟨-, -, -, -, hfar, hsibling, -⟩ := haround
  rw [hfar]
  intro heq
  by_cases hnil : frame.sibling = .nil
  · rw [hnil] at heq hne
    exact hne.elim (fun hne => hne heq) fun hne => hne rfl
  · have hin := rootOf_mem s.sentinel hnil
    rw [← heq] at hin
    exact hhole (mem_nodes_cons.mpr (Or.inr (Or.inl hin)))

/-- Whichever side is tried first, the pointer from above is found. -/
theorem Around.replaceChild_eq (haround : Around s (frame :: frames) p)
    (hparent : s.parent p = frame.node) (hne : p ≠ s.sentinel)
    (hp : p ∉ nodes (frame :: frames)) (side : Side) (q : Address) :
    replaceChild side p q s = setChild frame.side frame.node q s := by
  have hother := haround.hole_ne (Or.inl hne) hp
  obtain ⟨-, -, -, hnear, -⟩ := haround
  rw [replaceChild, hparent]
  rcases Side.eq_or_eq_other side frame.side with hside | hside
  · rw [hside] at hnear ⊢
    rw [if_pos hnear.symm]
  · rw [hside, Side.other_other] at hother
    rw [if_neg hother, hside]

/-- A node gets the place of another one. -/
theorem around_replaceNode (side : Side) (haround : Around s frames p)
    (hparent : ∀ a ∈ nodeAbove frames, s.parent p = a) (hne : p ≠ s.sentinel)
    (hp : p ∉ nodes frames) (hnodup : (nodes frames).Nodup) (q : Address) :
    Around (replaceNode side p q s) frames q ∧
      (replaceNode side p q s).sentinel = s.sentinel ∧
      ∀ x ∉ nodes frames, Same s (replaceNode side p q s) x := by
  cases frames with
  | nil =>
      rw [replaceNode, if_pos haround.symm]
      exact ⟨rfl, rfl, fun x _ => ⟨fun _ => rfl, rfl, rfl⟩⟩
  | cons frame frames =>
      have hroot : p ≠ s.root := by
        rintro rfl
        exact hp haround.root_mem
      rw [replaceNode, if_neg hroot, haround.replaceChild_eq (hparent _ rfl) hne hp]
      refine ⟨around_link haround hnodup q, rfl, ?_⟩
      intro x hx
      apply Same.setChild
      rintro rfl
      exact hx (mem_nodes_cons.mpr (Or.inl rfl))

/-- The colour of a node is set where it is. -/
theorem at_setRed (h : At s frames (join side red p near far)) (red' : Bool) :
    At (setRed p red' s) frames (join side red' p near far) := by
  have hrep := rep_join_iff.mp h.rep
  have hparts := nodup_join_iff.mp h.nodupTree
  have hp : p ∉ nodes frames := h.disjoint p (mem_toList_join.mpr (Or.inl rfl))
  have hsame : ∀ {l : List Address}, p ∉ l → ∀ x ∈ l, Same s (setRed p red' s) x := by
    intro l hl x hx
    apply Same.setRed
    rintro rfl
    exact hl hx
  refine ⟨?_, ?_, ?_, ?_⟩
  · have haround := h.around
    rw [rootOf_join] at haround ⊢
    exact haround.congr rfl rfl (hsame hp)
  · rw [rep_join_iff]
    exact {
      ne_sentinel := hrep.ne_sentinel
      parent := hrep.parent
      red := if_pos rfl
      childNear := hrep.childNear
      childFar := hrep.childFar
      repNear := hrep.repNear.congr rfl (hsame hparts.1)
      repFar := hrep.repFar.congr rfl (hsame hparts.2.1) }
  · rw [(perm_toList_plug _ _).nodup_iff, toList_join_congr rfl rfl,
      ← (perm_toList_plug _ _).nodup_iff]
    exact h.nodup
  · rw [setRed_sentinel, setRed_red, if_neg hrep.ne_sentinel.symm]
    exact h.black

/-! ## Rotations -/

/-- What a rotation does at the node `p`, at its child `q`, which takes its place, and at the
subtree `mid` that moves from the one to the other. -/
structure Rotated (side : Side) (p q mid : Address) (frames : List (Frame Address))
    (s s' : Rbtree Key) : Prop where
  sentinel : s'.sentinel = s.sentinel
  around : Around s' frames q
  red : ∀ x ∉ nodes frames, s'.red x = s.red x
  childNode : ∀ side', s'.child side' p = if side' = side.other then mid else s.child side' p
  childTemp : ∀ side', s'.child side' q = if side' = side then p else s.child side' q
  childMid : mid ≠ s.sentinel → ∀ side', s'.child side' mid = s.child side' mid
  parentNode : s'.parent p = q
  parentTemp : s'.parent q = s.parent p
  parentMid : mid ≠ s.sentinel → s'.parent mid = p
  same : ∀ x, x ≠ p → x ≠ q → (mid ≠ s.sentinel → x ≠ mid) → x ∉ nodes frames → Same s s' x

section Rotate

variable (h : At s frames (join side red p near (join side red' q mid far)))

include h

/-- The nodes of a rotation are different ones. -/
theorem At.rotate_ne :
    p ≠ q ∧ (rootOf s.sentinel mid ≠ s.sentinel → rootOf s.sentinel mid ∈ mid.toList) ∧
      (p ≠ rootOf s.sentinel mid) ∧ q ≠ rootOf s.sentinel mid := by
  have hp := rep_join_iff.mp h.rep
  have hq := rep_join_iff.mp hp.repFar
  have hparts := nodup_join_iff.mp h.nodupTree
  have hpartsq := nodup_join_iff.mp hparts.2.2.2.1
  have hroot : ∀ x, x ≠ s.sentinel → x ∉ mid.toList → x ≠ rootOf s.sentinel mid := by
    rintro x hne hx rfl
    by_cases hnil : mid = .nil
    · rw [hnil] at hne
      exact hne rfl
    · exact hx (rootOf_mem s.sentinel hnil)
  refine ⟨?_, ?_, ?_, ?_⟩
  · rintro rfl
    exact hparts.2.1 (mem_toList_join.mpr (Or.inl rfl))
  · intro hne
    apply rootOf_mem
    rintro rfl
    exact hne rfl
  · exact hroot p hp.ne_sentinel fun hin =>
      hparts.2.1 (mem_toList_join.mpr (Or.inr (Or.inl hin)))
  · exact hroot q hq.ne_sentinel hpartsq.1

/-- The rotation up to the link from above. -/
theorem At.rotate_eq :
    rotate side p s = setParent p q (setChild side q p (replaceNode side p q
      (setParent q (s.parent p) (reparent (rootOf s.sentinel mid) p
        (setChild side.other p (rootOf s.sentinel mid) s))))) := by
  obtain ⟨hpq, -, hpmid, -⟩ := h.rotate_ne
  have hp := rep_join_iff.mp h.rep
  have hq := rep_join_iff.mp hp.repFar
  have htemp : s.child side.other p = q := by
    rw [hp.childFar, rootOf_join]
  have hmid : (setChild side.other p (rootOf s.sentinel mid) s).child side q =
      rootOf s.sentinel mid := by
    rw [setChild_child, if_neg fun hboth => hpq hboth.2.symm, hq.childNear]
  have hparent : (reparent (rootOf s.sentinel mid) p
      (setChild side.other p (rootOf s.sentinel mid) s)).parent p = s.parent p :=
    reparent_parent_of_ne fun _ => hpmid
  rw [rotate, htemp, hq.childNear, hmid, hparent]

/-- The addresses in a rotation are those of nodes below the hole. -/
theorem At.rotate_notMem :
    p ∉ nodes frames ∧ q ∉ nodes frames ∧
      (rootOf s.sentinel mid ≠ s.sentinel → rootOf s.sentinel mid ∉ nodes frames) := by
  have hmidIn := h.rotate_ne.2.1
  refine ⟨?_, ?_, ?_⟩
  · exact h.disjoint p (mem_toList_join.mpr (Or.inl rfl))
  · exact h.disjoint q (mem_toList_join.mpr (Or.inr (Or.inr (mem_toList_join.mpr (Or.inl rfl)))))
  · intro hne
    have hin : rootOf s.sentinel mid ∈ (join side red' q mid far).toList :=
      mem_toList_join.mpr (Or.inr (Or.inl (hmidIn hne)))
    exact h.disjoint _ (mem_toList_join.mpr (Or.inr (Or.inr hin)))

/-- The step lemma of the rotation: everything that it does to the nodes. -/
theorem At.rotated :
    Rotated side p q (rootOf s.sentinel mid) frames s (rotate side p s) := by
  obtain ⟨hpq, -, hpmid, hqmid⟩ := h.rotate_ne
  obtain ⟨hpout, hqout, hmidout⟩ := h.rotate_notMem
  have hp := rep_join_iff.mp h.rep
  rw [h.rotate_eq]
  generalize rootOf s.sentinel mid = mid at hpmid hqmid hmidout ⊢
  generalize hs₃ : setParent q (s.parent p) (reparent mid p
    (setChild side.other p mid s)) = s₃
  have hsentinel₃ : s₃.sentinel = s.sentinel := by
    rw [← hs₃, setParent_sentinel, reparent_sentinel, setChild_sentinel]
  have hsame₃ : ∀ x, x ≠ p → x ≠ q → (mid ≠ s.sentinel → x ≠ mid) → Same s s₃ x := by
    intro x hxp hxq hxmid
    rw [← hs₃]
    exact ((Same.setChild hxp).trans (Same.reparent hxmid)).trans (Same.setParent hxq)
  have haround₃ : Around s₃ frames p := by
    have haround := h.around
    rw [rootOf_join] at haround
    apply haround.congr hsentinel₃
    · rw [← hs₃, setParent_root, reparent_root, setChild_root]
    · intro x hx
      apply hsame₃
      · rintro rfl
        exact hpout hx
      · rintro rfl
        exact hqout hx
      · rintro hne rfl
        exact hmidout hne hx
  have hparent₃ : s₃.parent p = s.parent p := by
    rw [← hs₃, setParent_parent, if_neg hpq]
    exact reparent_parent_of_ne fun _ => hpmid
  obtain ⟨haround₄, hsentinel₄, hsame₄⟩ := around_replaceNode side haround₃
    (fun a ha => hparent₃.trans (hp.parent a ha)) (hsentinel₃ ▸ hp.ne_sentinel) hpout
    (nodup_plug_iff.mp h.nodup).2.1 q
  generalize replaceNode side p q s₃ = s₄ at haround₄ hsentinel₄ hsame₄ ⊢
  exact {
    sentinel := hsentinel₄.trans hsentinel₃
    around := by
      apply haround₄.congr (by rfl) (by rfl)
      intro x hx
      refine (Same.setChild ?_).trans (Same.setParent ?_)
      · rintro rfl
        exact hqout hx
      · rintro rfl
        exact hpout hx
    red := by
      intro x hx
      rw [setParent_red, setChild_red, (hsame₄ x hx).red, ← hs₃, setParent_red, reparent_red,
        setChild_red]
    childNode := by
      intro side'
      rw [setParent_child, setChild_child, if_neg fun hboth => hpq hboth.2,
        (hsame₄ p hpout).child, ← hs₃, setParent_child, reparent_child, setChild_child]
      exact if_congr (and_iff_left rfl) rfl rfl
    childTemp := by
      intro side'
      rw [setParent_child, setChild_child, (hsame₄ q hqout).child, ← hs₃, setParent_child,
        reparent_child, setChild_child, if_neg (show ¬(side' = side.other ∧ q = p) from
          fun hboth => hpq hboth.2.symm)]
      exact if_congr (and_iff_left rfl) rfl rfl
    childMid := by
      intro hne side'
      rw [setParent_child, setChild_child, if_neg fun hboth => hqmid hboth.2.symm,
        (hsame₄ mid (hmidout hne)).child, ← hs₃, setParent_child, reparent_child, setChild_child,
        if_neg fun hboth => hpmid hboth.2.symm]
    parentNode := if_pos rfl
    parentTemp := by
      rw [setParent_parent, if_neg hpq.symm, setChild_parent, (hsame₄ q hqout).parent, ← hs₃,
        setParent_parent, if_pos rfl]
    parentMid := by
      intro hne
      rw [setParent_parent, if_neg hpmid.symm, setChild_parent, (hsame₄ mid (hmidout hne)).parent,
        ← hs₃, setParent_parent, if_neg hqmid.symm]
      exact reparent_parent_self hne
    same := by
      intro x hxp hxq hxmid hxout
      exact (((hsame₃ x hxp hxq hxmid).trans (hsame₄ x hxout)).trans (Same.setChild hxq)).trans
        (Same.setParent hxp) }

theorem at_rotate :
    At (rotate side p s) frames (join side red' q (join side red p near mid) far) := by
  obtain ⟨-, hmidIn, -, -⟩ := h.rotate_ne
  obtain ⟨hpout, hqout, hmidout⟩ := h.rotate_notMem
  have hrotated := h.rotated
  have hp := rep_join_iff.mp h.rep
  have hq := rep_join_iff.mp hp.repFar
  have hparts := nodup_join_iff.mp h.nodupTree
  have hpartsq := nodup_join_iff.mp hparts.2.2.2.1
  generalize rotate side p s = s' at hrotated ⊢
  have hsentinel := hrotated.sentinel
  -- a subtree without `p`, `q` and the root of `mid` is left alone
  have hsubtree : ∀ {l : List Address}, (∀ x ∈ l, x ∉ nodes frames) → p ∉ l → q ∉ l →
      (∀ x ∈ mid.toList, x ∉ l) → ∀ x ∈ l, Same s s' x := by
    intro l hout hpl hql hmidl x hx
    apply hrotated.same
    · rintro rfl
      exact hpl hx
    · rintro rfl
      exact hql hx
    · rintro hne rfl
      exact hmidl _ (hmidIn hne) hx
    · exact hout x hx
  have hmidRep : Rep s' (some p) mid := by
    have hpm : p ∉ mid.toList := fun hin =>
      hparts.2.1 (mem_toList_join.mpr (Or.inr (Or.inl hin)))
    apply hq.repNear.reparent hpartsq.2.2.1 hsentinel
    · intro x hx hne
      apply hrotated.same
      · rintro rfl
        exact hpm hx
      · rintro rfl
        exact hpartsq.1 hx
      · exact fun _ => hne
      · exact h.disjoint x (mem_toList_join.mpr (Or.inr (Or.inr
          (mem_toList_join.mpr (Or.inr (Or.inl hx))))))
    · intro hnil
      have hne : rootOf s.sentinel mid ≠ s.sentinel :=
        hq.repNear.ne_sentinel (rootOf_mem s.sentinel hnil)
      refine ⟨hrotated.childMid hne, ?_, hrotated.red _ (hmidout hne)⟩
      exact (hrotated.parentMid hne).trans (if_pos rfl).symm
  have hnearRep : Rep s' (some p) near := by
    apply hp.repNear.congr hsentinel
    apply hsubtree
    · exact fun x hx => h.disjoint x (mem_toList_join.mpr (Or.inr (Or.inl hx)))
    · exact hparts.1
    · exact fun hin => hparts.2.2.2.2 q hin (mem_toList_join.mpr (Or.inl rfl))
    · exact fun x hx hin => hparts.2.2.2.2 x hin (mem_toList_join.mpr (Or.inr (Or.inl hx)))
  have hfarRep : Rep s' (some q) far := by
    have hfarSub : ∀ x ∈ far.toList, x ∈ (join side red' q mid far).toList :=
      fun x hx => mem_toList_join.mpr (Or.inr (Or.inr hx))
    apply hq.repFar.congr hsentinel
    apply hsubtree
    · exact fun x hx => h.disjoint x (mem_toList_join.mpr (Or.inr (Or.inr (hfarSub x hx))))
    · exact fun hin => hparts.2.1 (hfarSub p hin)
    · exact hpartsq.2.1
    · exact hpartsq.2.2.2.2
  have hnode : Rep s' (some q) (join side red p near mid) := by
    rw [rep_join_iff]
    exact {
      ne_sentinel := hsentinel ▸ hp.ne_sentinel
      parent := by
        rintro _ ⟨⟩
        exact hrotated.parentNode
      red := (hrotated.red p hpout).trans hp.red
      childNear := by
        rw [hrotated.childNode, if_neg (Side.ne_other side), hp.childNear, hsentinel]
      childFar := by
        rw [hrotated.childNode, if_pos rfl, hsentinel]
      repNear := hnearRep
      repFar := hmidRep }
  refine ⟨?_, ?_, ?_, ?_⟩
  · rw [rootOf_join]
    exact hrotated.around
  · rw [rep_join_iff]
    exact {
      ne_sentinel := hsentinel ▸ hq.ne_sentinel
      parent := fun a ha => hrotated.parentTemp.trans (hp.parent a ha)
      red := (hrotated.red q hqout).trans hq.red
      childNear := by
        rw [hrotated.childTemp, if_pos rfl, rootOf_join]
      childFar := by
        rw [hrotated.childTemp, if_neg (Side.ne_other side).symm, hq.childFar, hsentinel]
      repNear := hnode
      repFar := hfarRep }
  · rw [toList_plug_congr frames toList_rotate.symm]
    exact h.nodup
  · rw [hsentinel, hrotated.red _ h.around.sentinel_notMem]
    exact h.black

/-- The parent of the sentinel stays, which the deletion relies on. -/
theorem At.rotate_sentinel : (rotate side p s).parent s.sentinel = s.parent s.sentinel := by
  have hp := rep_join_iff.mp h.rep
  have hq := rep_join_iff.mp hp.repFar
  rw [h.rotate_eq, setParent_parent, if_neg hp.ne_sentinel.symm, setChild_parent,
    replaceNode_parent, setParent_parent, if_neg hq.ne_sentinel.symm]
  exact reparent_parent_of_ne Ne.symm

end Rotate

/-! ## What is read at a place -/

/-- The keys and the sentinel are the same. -/
structure SameKeys (s s' : Rbtree Key) : Prop where
  key : s'.key = s.key
  sentinel : s'.sentinel = s.sentinel

theorem SameKeys.refl (s : Rbtree Key) : SameKeys s s :=
  ⟨rfl, rfl⟩

theorem SameKeys.trans (hleft : SameKeys s s') (hright : SameKeys s' s'') : SameKeys s s'' :=
  ⟨hright.key.trans hleft.key, hright.sentinel.trans hleft.sentinel⟩

theorem sameKeys_setRed (p : Address) (red : Bool) (s : Rbtree Key) :
    SameKeys s (setRed p red s) :=
  ⟨rfl, rfl⟩

theorem sameKeys_rotate (side : Side) (p : Address) (s : Rbtree Key) :
    SameKeys s (rotate side p s) := by
  constructor
  · change (replaceNode _ _ _ _).key = _
    rw [replaceNode_key]
    exact reparent_key _ _ _
  · change (replaceNode _ _ _ _).sentinel = _
    rw [replaceNode_sentinel]
    exact reparent_sentinel _ _ _

/-- The colour of the root of a tree can be read also where the tree is empty. -/
theorem Rep.red_rootOf (hrep : Rep s above t) (hblack : s.red s.sentinel = false) :
    s.red (rootOf s.sentinel t) = t.isRed := by
  cases t with
  | nil => exact hblack
  | node red left a right => exact hrep.2.2.1

theorem At.parent (h : At s (frame :: frames) t) (ht : t ≠ .nil) :
    s.parent (rootOf s.sentinel t) = frame.node := by
  cases t with
  | nil => exact absurd rfl ht
  | node red left a right => exact h.rep.2.1 frame.node rfl

/-- The hole on the other side. -/
theorem at_sibling_iff :
    At s (⟨side, red, p, far⟩ :: frames) near ↔
      At s (⟨side.other, red, p, near⟩ :: frames) far := by
  rw [at_cons_iff, at_cons_iff, Frame.attach, Frame.attach, join_other]

/-- The colour of the sibling is set. -/
theorem at_setRed_sibling (h : At s (⟨side, red, p, join side red' q near far⟩ :: frames) t)
    (colour : Bool) :
    At (setRed q colour s) (⟨side, red, p, join side colour q near far⟩ :: frames) t := by
  have hset := at_sibling_iff.mp (at_setRed (at_sibling_iff.mp h) colour)
  rwa [Side.other_other] at hset

theorem At.red_node (h : At s (frame :: frames) t) : s.red frame.node = frame.red :=
  h.around.2.2.1

theorem At.child_node (h : At s (frame :: frames) t) :
    s.child frame.side frame.node = rootOf s.sentinel t :=
  h.around.2.2.2.1

theorem At.child_sibling (h : At s (frame :: frames) t) :
    s.child frame.side.other frame.node = rootOf s.sentinel frame.sibling :=
  h.around.2.2.2.2.1

theorem At.rep_sibling (h : At s (frame :: frames) t) :
    Rep s (some frame.node) frame.sibling :=
  h.around.2.2.2.2.2.1

theorem At.red_sibling (h : At s (frame :: frames) t) :
    s.red (s.child frame.side.other frame.node) = frame.sibling.isRed := by
  rw [h.child_sibling]
  exact h.rep_sibling.red_rootOf h.black

theorem At.rootOf_notMem (h : At s frames t) : rootOf s.sentinel t ∉ nodes frames := by
  by_cases ht : t = .nil
  · rw [ht]
    exact h.around.sentinel_notMem
  · exact h.disjoint _ (rootOf_mem s.sentinel ht)

theorem At.rootOf_ne_sentinel (h : At s frames t) (ht : t ≠ .nil) :
    rootOf s.sentinel t ≠ s.sentinel :=
  h.rep.ne_sentinel (rootOf_mem s.sentinel ht)

/-- Only the child on the side of the hole is in the hole. -/
theorem At.eq_child_iff (h : At s (frame :: frames) t) (hne : t ≠ .nil ∨ frame.sibling ≠ .nil)
    (side : Side) : rootOf s.sentinel t = s.child side frame.node ↔ side = frame.side := by
  have hother := h.around.hole_ne (hne.imp_left h.rootOf_ne_sentinel) h.rootOf_notMem
  constructor
  · intro heq
    rcases Side.eq_or_eq_other frame.side side with hside | hside
    · exact hside
    · rw [hside] at heq
      exact absurd heq hother
  · rintro rfl
    exact h.child_node.symm

/-- The side that the loops find. -/
theorem At.chosen_side (h : At s (frame :: frames) t) (hne : t ≠ .nil ∨ frame.sibling ≠ .nil) :
    (if rootOf s.sentinel t = s.child .left frame.node then Side.left else .right) =
      frame.side := by
  have hiff := h.eq_child_iff hne .left
  cases hside : frame.side with
  | left => exact if_pos (hiff.mpr hside.symm)
  | right =>
      apply if_neg
      rw [hiff, hside]
      exact Side.noConfusion

/-! ## Frames of whole places -/

/-- What is not in the tree may change. -/
theorem At.congr (h : At s frames t) (hsentinel : s'.sentinel = s.sentinel)
    (hroot : s'.root = s.root) (hblack : s'.red s.sentinel = s.red s.sentinel)
    (hsame : ∀ x ∈ (plug frames t).toList, Same s s' x) : At s' frames t where
  around := by
    rw [hsentinel]
    apply h.around.congr hsentinel hroot
    exact fun x hx => hsame x (mem_toList_plug.mpr (Or.inr hx))
  rep := h.rep.congr hsentinel fun x hx => hsame x (mem_toList_plug.mpr (Or.inl hx))
  nodup := h.nodup
  black := by
    rw [hsentinel, hblack]
    exact h.black

/-- The root of what is in the hole gets black, also the sentinel. -/
theorem at_setRed_rootOf (h : At s frames t) :
    At (setRed (rootOf s.sentinel t) false s) frames t.blacken := by
  by_cases hnil : t = .nil
  · subst hnil
    refine h.congr ?_ ?_ ?_ ?_
    · rfl
    · rfl
    · rw [setRed_red, rootOf, if_pos rfl, h.black]
    · intro x hx
      apply Same.setRed
      rintro rfl
      rcases mem_toList_plug.mp hx with hin | hin
      · cases hin
      · exact h.around.sentinel_notMem hin
  · obtain ⟨red, p, near, far, rfl⟩ := join_of_ne_nil .left hnil
    rw [rootOf_join, blacken_join]
    exact at_setRed h false

end Night.RbTree
