import Mathlib.Algebra.GroupWithZero.Nat
import Mathlib.Data.List.Nodup
import Mathlib.Data.List.Perm.Basic

/-!
# Red-black trees with a hole

Binary trees with colours, and trees with a hole as lists of frames, the innermost first.
What the two sides share is stated once: `join side` builds a node from its subtree on a side
and the one on the other side.
-/

namespace Night.RedBlack

inductive Side where
  | left
  | right
  deriving DecidableEq, Repr

def Side.other : Side → Side
  | .left => .right
  | .right => .left

@[simp]
theorem Side.other_other (side : Side) : side.other.other = side := by
  cases side <;> rfl

theorem Side.ne_other (side : Side) : side ≠ side.other := by
  cases side <;> exact Side.noConfusion

theorem Side.eq_or_eq_other (side side' : Side) : side' = side ∨ side' = side.other := by
  cases side <;> cases side' <;> simp [Side.other]

inductive Tree (α : Type*) where
  | nil
  | node (red : Bool) (left : Tree α) (a : α) (right : Tree α)

variable {α : Type*} {a b x : α} {red red' : Bool} {side : Side} {n : ℕ}

namespace Tree

variable {t near far mid : Tree α}

def toList : Tree α → List α
  | nil => []
  | node _ left a right => left.toList ++ a :: right.toList

/-- The colour of the root; the empty tree is black. -/
def isRed : Tree α → Bool
  | nil => false
  | node red _ _ _ => red

def blacken : Tree α → Tree α
  | nil => nil
  | node _ left a right => node false left a right

/-- A node from its subtree on a side and the one on the other side. -/
def join (side : Side) (red : Bool) (a : α) (near far : Tree α) : Tree α :=
  match side with
  | .left => node red near a far
  | .right => node red far a near

/-- Every path to an empty tree has `n` black nodes. -/
def Balanced : Tree α → ℕ → Prop
  | nil, n => n = 0
  | node true left _ right, n => left.Balanced n ∧ right.Balanced n
  | node false left _ right, n => ∃ m, n = m + 1 ∧ left.Balanced m ∧ right.Balanced m

/-- No red node has a red child. -/
def NoRedRed : Tree α → Prop
  | nil => True
  | node red left _ right =>
      (red = true → left.isRed = false ∧ right.isRed = false) ∧ left.NoRedRed ∧ right.NoRedRed

/-- A red-black tree. -/
structure Lawful (t : Tree α) : Prop where
  black : t.isRed = false
  noRedRed : t.NoRedRed
  balanced : ∃ n, t.Balanced n

/-! ## Nodes by side -/

theorem join_of_ne_nil (side : Side) (ht : t ≠ nil) :
    ∃ red a near far, t = join side red a near far := by
  cases t with
  | nil => exact absurd rfl ht
  | node red left a right =>
      cases side with
      | left => exact ⟨red, a, left, right, rfl⟩
      | right => exact ⟨red, a, right, left, rfl⟩

theorem join_ne_nil : join side red a near far ≠ nil := by
  cases side <;> exact fun heq => nomatch heq

theorem join_other : join side.other red a near far = join side red a far near := by
  cases side <;> rfl

@[simp]
theorem isRed_join : (join side red a near far).isRed = red := by
  cases side <;> rfl

@[simp]
theorem blacken_join : (join side red a near far).blacken = join side false a near far := by
  cases side <;> rfl

theorem mem_toList_join :
    x ∈ (join side red a near far).toList ↔ x = a ∨ x ∈ near.toList ∨ x ∈ far.toList := by
  cases side with
  | left =>
      rw [join, toList, List.mem_append, List.mem_cons]
      exact or_left_comm
  | right =>
      rw [join, toList, List.mem_append, List.mem_cons, or_left_comm, or_comm (a := x ∈ far.toList)]

theorem perm_toList_join :
    (join side red a near far).toList.Perm (a :: (near.toList ++ far.toList)) := by
  cases side with
  | left => exact List.perm_middle
  | right => exact List.perm_middle.trans (List.Perm.cons a List.perm_append_comm)

theorem near_sublist_join : near.toList.Sublist (join side red a near far).toList := by
  cases side with
  | left => exact List.sublist_append_left _ _
  | right => exact (List.sublist_cons_self a near.toList).trans (List.sublist_append_right _ _)

theorem nodup_join_iff :
    (join side red a near far).toList.Nodup ↔
      a ∉ near.toList ∧ a ∉ far.toList ∧ near.toList.Nodup ∧ far.toList.Nodup ∧
        ∀ x ∈ near.toList, x ∉ far.toList := by
  rw [perm_toList_join.nodup_iff, List.nodup_cons, List.mem_append, not_or, List.nodup_append',
    and_assoc]
  rfl

theorem balanced_red_iff :
    (join side true a near far).Balanced n ↔ near.Balanced n ∧ far.Balanced n := by
  cases side with
  | left => exact Iff.rfl
  | right => exact and_comm

theorem balanced_black_iff :
    (join side false a near far).Balanced n ↔
      ∃ m, n = m + 1 ∧ near.Balanced m ∧ far.Balanced m := by
  cases side with
  | left => exact Iff.rfl
  | right =>
      apply exists_congr
      intro m
      exact and_congr_right fun _ => and_comm

theorem balanced_black_succ_iff :
    (join side false a near far).Balanced (n + 1) ↔ near.Balanced n ∧ far.Balanced n := by
  rw [balanced_black_iff]
  constructor
  · rintro ⟨m, heq, hboth⟩
    cases heq
    exact hboth
  · intro hboth
    exact ⟨n, rfl, hboth⟩

theorem noRedRed_join_iff :
    (join side red a near far).NoRedRed ↔
      (red = true → near.isRed = false ∧ far.isRed = false) ∧ near.NoRedRed ∧ far.NoRedRed := by
  cases side with
  | left => exact Iff.rfl
  | right =>
      apply and_congr
      · exact imp_congr_right fun _ => and_comm
      · exact and_comm

theorem NoRedRed.blacken (ht : t.NoRedRed) : t.blacken.NoRedRed := by
  cases t with
  | nil => exact trivial
  | node red left a right => exact ⟨fun hred => absurd hred Bool.false_ne_true, ht.2⟩

@[simp]
theorem isRed_blacken : t.blacken.isRed = false := by
  cases t <;> rfl

@[simp]
theorem toList_blacken : t.blacken.toList = t.toList := by
  cases t <;> rfl

theorem blacken_of_black (ht : t.isRed = false) : t.blacken = t := by
  cases t with
  | nil => rfl
  | node red left a right =>
      cases ht
      rfl

theorem Balanced.blacken (hred : t.isRed = true) (ht : t.Balanced n) :
    t.blacken.Balanced (n + 1) := by
  cases t with
  | nil => cases hred
  | node red left a right =>
      cases hred
      exact ⟨n, rfl, ht⟩

/-- A tree with a black node on each path is not empty. -/
theorem Balanced.ne_nil (ht : t.Balanced (n + 1)) : t ≠ nil := by
  rintro rfl
  cases ht

/-! ## Rotations -/

/-- A rotation leaves the order. -/
theorem toList_rotate {red₁ red₂ red₃ red₄ : Bool} :
    (join side red₁ a near (join side red₂ b mid far)).toList =
      (join side red₃ b (join side red₄ a near mid) far).toList := by
  cases side <;> simp [join, toList]

theorem toList_join_congr {near' far' : Tree α} (hnear : near.toList = near'.toList)
    (hfar : far.toList = far'.toList) :
    (join side red a near far).toList = (join side red' a near' far').toList := by
  cases side <;> simp [join, toList, hnear, hfar]

end Tree

open RedBlack.Tree

/-! ## Frames -/

/-- A node without one of its subtrees: the side that is missing, and its sibling. -/
structure Frame (α : Type*) where
  side : Side
  red : Bool
  node : α
  sibling : Tree α

def Frame.attach (frame : Frame α) (t : Tree α) : Tree α :=
  join frame.side frame.red frame.node t frame.sibling

/-- A tree with a tree in its hole. -/
def plug : List (Frame α) → Tree α → Tree α
  | [], t => t
  | frame :: frames, t => plug frames (frame.attach t)

variable {frame : Frame α} {frames inner outer : List (Frame α)} {t t' : Tree α}

theorem plug_append (inner outer : List (Frame α)) (t : Tree α) :
    plug (inner ++ outer) t = plug outer (plug inner t) := by
  induction inner generalizing t with
  | nil => rfl
  | cons frame inner ih => exact ih (frame.attach t)

/-- The elements before the hole. -/
def before : List (Frame α) → List α
  | [] => []
  | frame :: frames =>
      match frame.side with
      | .left => before frames
      | .right => before frames ++ (frame.sibling.toList ++ [frame.node])

/-- The elements behind the hole. -/
def behind : List (Frame α) → List α
  | [] => []
  | frame :: frames =>
      match frame.side with
      | .left => frame.node :: (frame.sibling.toList ++ behind frames)
      | .right => behind frames

theorem toList_plug (frames : List (Frame α)) (t : Tree α) :
    (plug frames t).toList = before frames ++ (t.toList ++ behind frames) := by
  induction frames generalizing t with
  | nil => simp [plug, before, behind]
  | cons frame frames ih =>
      obtain ⟨side, red, a, sibling⟩ := frame
      rw [plug, ih]
      cases side <;> simp [Frame.attach, join, Tree.toList, before, behind]

theorem before_append (inner outer : List (Frame α)) :
    before (inner ++ outer) = before outer ++ before inner := by
  induction inner with
  | nil => simp [before]
  | cons frame inner ih =>
      obtain ⟨side, red, a, sibling⟩ := frame
      cases side <;> simp [before, ih]

/-- In front of a hole at the left end is nothing. -/
theorem before_eq_nil (hleft : ∀ frame ∈ frames, frame.side = .left) : before frames = [] := by
  induction frames with
  | nil => rfl
  | cons frame frames ih =>
      obtain ⟨hframe, hrest⟩ := List.forall_mem_cons.mp hleft
      rw [before, hframe]
      exact ih hrest

theorem behind_append (inner outer : List (Frame α)) :
    behind (inner ++ outer) = behind inner ++ behind outer := by
  induction inner with
  | nil => simp [behind]
  | cons frame inner ih =>
      obtain ⟨side, red, a, sibling⟩ := frame
      cases side <;> simp [behind, ih]

/-- The elements around the hole. -/
def nodes (frames : List (Frame α)) : List α :=
  before frames ++ behind frames

theorem mem_nodes_cons :
    x ∈ nodes (frame :: frames) ↔
      x = frame.node ∨ x ∈ frame.sibling.toList ∨ x ∈ nodes frames := by
  obtain ⟨side, red, a, sibling⟩ := frame
  cases side with
  | left =>
      simp only [nodes, before, behind, List.mem_append, List.mem_cons]
      tauto
  | right =>
      simp only [nodes, before, behind, List.mem_append, List.mem_cons, List.not_mem_nil, or_false]
      tauto

theorem not_mem_nodes_nil : x ∉ nodes ([] : List (Frame α)) :=
  List.not_mem_nil

theorem perm_toList_plug (frames : List (Frame α)) (t : Tree α) :
    (plug frames t).toList.Perm (t.toList ++ nodes frames) := by
  rw [toList_plug, nodes, ← List.append_assoc, ← List.append_assoc]
  exact List.Perm.append_right _ List.perm_append_comm

theorem nodup_plug_iff :
    (plug frames t).toList.Nodup ↔
      t.toList.Nodup ∧ (nodes frames).Nodup ∧ ∀ x ∈ t.toList, x ∉ nodes frames := by
  rw [(perm_toList_plug frames t).nodup_iff, List.nodup_append']
  rfl

/-- A node is not in what is around it. -/
theorem nodup_nodes_cons (hnodup : (nodes (frame :: frames)).Nodup) :
    frame.node ∉ frame.sibling.toList ∧ frame.node ∉ nodes frames := by
  have hplug : (plug (frame :: frames) nil).toList.Nodup :=
    (perm_toList_plug (frame :: frames) nil).nodup_iff.mpr hnodup
  rw [plug, nodup_plug_iff, Frame.attach, nodup_join_iff] at hplug
  exact ⟨hplug.1.2.1, hplug.2.2 frame.node (mem_toList_join.mpr (Or.inl rfl))⟩

theorem toList_plug_congr (frames : List (Frame α)) (ht : t.toList = t'.toList) :
    (plug frames t).toList = (plug frames t').toList := by
  rw [toList_plug, toList_plug, ht]

theorem mem_toList_plug :
    x ∈ (plug frames t).toList ↔ x ∈ t.toList ∨ x ∈ nodes frames := by
  rw [(perm_toList_plug frames t).mem_iff, List.mem_append]

theorem node_mem_nodes (hframe : frame ∈ frames) : frame.node ∈ nodes frames := by
  induction frames with
  | nil => cases hframe
  | cons frame' frames ih =>
      rw [mem_nodes_cons]
      rcases List.mem_cons.mp hframe with rfl | hin
      · exact Or.inl rfl
      · exact Or.inr (Or.inr (ih hin))

theorem length_le_nodes (frames : List (Frame α)) : frames.length ≤ (nodes frames).length := by
  induction frames with
  | nil => exact Nat.zero_le _
  | cons frame frames ih =>
      obtain ⟨side, red, a, sibling⟩ := frame
      rw [nodes, List.length_append] at ih ⊢
      cases side with
      | left =>
          simp only [before, behind, List.length_cons, List.length_append]
          omega
      | right =>
          simp only [before, behind, List.length_cons, List.length_append, List.length_nil]
          omega

theorem length_le_plug (frames : List (Frame α)) (t : Tree α) :
    frames.length ≤ (plug frames t).toList.length := by
  have hperm := (perm_toList_plug frames t).length_eq
  have hle := length_le_nodes frames
  rw [List.length_append] at hperm
  omega

/-- Every element of a tree is at the top of a subtree. -/
theorem exists_plug (t : Tree α) (hx : x ∈ t.toList) :
    ∃ frames red left right, t = plug frames (.node red left x right) := by
  induction t with
  | nil => cases hx
  | node red left a right ihleft ihright =>
      rw [Tree.toList, List.mem_append, List.mem_cons] at hx
      rcases hx with hleft | rfl | hright
      · obtain ⟨frames, red', left', right', heq⟩ := ihleft hleft
        refine ⟨frames ++ [⟨.left, red, a, right⟩], red', left', right', ?_⟩
        rw [plug_append, ← heq]
        rfl
      · exact ⟨[], red, left, right, rfl⟩
      · obtain ⟨frames, red', left', right', heq⟩ := ihright hright
        refine ⟨frames ++ [⟨.right, red, a, left⟩], red', left', right', ?_⟩
        rw [plug_append, ← heq]
        rfl

/-! ## The law around a hole -/

/-- The colour above the hole.  Nothing above it counts as red, since the root is black. -/
def redAbove : List (Frame α) → Bool
  | [] => true
  | frame :: _ => frame.red

/-- Around a hole for a tree with `n` black nodes on each path the law holds. -/
def Fits : List (Frame α) → ℕ → Prop
  | [], _ => True
  | frame :: frames, n =>
      frame.sibling.NoRedRed ∧ frame.sibling.Balanced n ∧
        (frame.red = true → frame.sibling.isRed = false ∧ redAbove frames = false) ∧
        Fits frames (if frame.red then n else n + 1)

/-- What goes into the hole, but for the colours there. -/
structure Fitting (frames : List (Frame α)) (n : ℕ) (t : Tree α) : Prop where
  fits : Fits frames n
  noRedRed : t.NoRedRed
  balanced : t.Balanced n

/-- What goes into the hole. -/
structure Fills (frames : List (Frame α)) (n : ℕ) (t : Tree α) : Prop
    extends Fitting frames n t where
  red : t.isRed = true → redAbove frames = false

theorem Fitting.fills_of_black (hfitting : Fitting frames n t) (habove : redAbove frames = false) :
    Fills frames n t :=
  ⟨hfitting, fun _ => habove⟩

theorem attach_balanced_iff :
    (frame.attach t).Balanced (if frame.red then n else n + 1) ↔
      t.Balanced n ∧ frame.sibling.Balanced n := by
  obtain ⟨side, red, a, sibling⟩ := frame
  cases red with
  | true => exact balanced_red_iff
  | false => exact balanced_black_succ_iff

theorem Fills.lawful (hfills : Fills frames n t) : (plug frames t).Lawful := by
  induction frames generalizing t n with
  | nil =>
      refine ⟨?_, hfills.noRedRed, n, hfills.balanced⟩
      rw [Bool.eq_false_iff]
      intro hred
      cases hfills.red hred
  | cons frame frames ih =>
      obtain ⟨hnoRedRed, hbalanced, hred, hrest⟩ := hfills.fits
      apply ih (n := if frame.red then n else n + 1)
      refine ⟨⟨hrest, ?_, attach_balanced_iff.mpr ⟨hfills.balanced, hbalanced⟩⟩, ?_⟩
      · rw [Frame.attach, noRedRed_join_iff]
        refine ⟨?_, hfills.noRedRed, hnoRedRed⟩
        intro hframe
        refine ⟨?_, (hred hframe).1⟩
        rw [Bool.eq_false_iff]
        intro ht
        have habove : frame.red = false := hfills.red ht
        rw [hframe] at habove
        cases habove
      · rw [Frame.attach, isRed_join]
        exact fun hframe => (hred hframe).2

theorem Tree.Lawful.fills (hlawful : (plug frames t).Lawful) : ∃ n, Fills frames n t := by
  induction frames generalizing t with
  | nil =>
      obtain ⟨n, hbalanced⟩ := hlawful.balanced
      refine ⟨n, ⟨trivial, hlawful.noRedRed, hbalanced⟩, ?_⟩
      intro hred
      have hblack : t.isRed = false := hlawful.black
      rw [hred] at hblack
      cases hblack
  | cons frame frames ih =>
      obtain ⟨n, hfills⟩ := ih hlawful
      have hnoRedRed := hfills.noRedRed
      rw [Frame.attach, noRedRed_join_iff] at hnoRedRed
      obtain ⟨hcolours, htree, hsibling⟩ := hnoRedRed
      have habove := hfills.red
      rw [Frame.attach, isRed_join] at habove
      have hbalanced := hfills.balanced
      have hfill : ∀ m, n = (if frame.red then m else m + 1) → Fills (frame :: frames) m t := by
        rintro m rfl
        have hboth := attach_balanced_iff.mp hbalanced
        refine ⟨⟨⟨hsibling, hboth.2, ?_, hfills.fits⟩, htree, hboth.1⟩, ?_⟩
        · exact fun hframe => ⟨(hcolours hframe).2, habove hframe⟩
        · intro hred
          change frame.red = false
          rw [Bool.eq_false_iff]
          intro hframe
          have hblack := (hcolours hframe).1
          rw [hred] at hblack
          cases hblack
      cases hframe : frame.red with
      | true => exact ⟨n, hfill n (by rw [hframe]; rfl)⟩
      | false =>
          rw [Frame.attach, hframe, balanced_black_iff] at hbalanced
          obtain ⟨m, heq, _⟩ := hbalanced
          exact ⟨m, hfill m (by rw [hframe]; exact heq)⟩

/-! ## A red tree below a red node -/

section Grown

variable {parent grand : Frame α} {near far : Tree α}

/-- Above a red node is a black one, and their siblings fit. -/
theorem fits_red_black (hfits : Fits (parent :: grand :: frames) n) (hparent : parent.red = true) :
    (parent.sibling.NoRedRed ∧ parent.sibling.Balanced n ∧ parent.sibling.isRed = false) ∧
      grand.red = false ∧ grand.sibling.NoRedRed ∧ grand.sibling.Balanced n ∧
        Fits frames (n + 1) := by
  obtain ⟨hnoRedRed, hbalanced, hred, hrest⟩ := hfits
  have hgrand : grand.red = false := (hred hparent).2
  rw [if_pos hparent] at hrest
  obtain ⟨hnoRedRed', hbalanced', -, hrest'⟩ := hrest
  rw [hgrand] at hrest'
  exact ⟨⟨hnoRedRed, hbalanced, (hred hparent).1⟩, hgrand, hnoRedRed', hbalanced', hrest'⟩

/-- A red node is put in the place of an empty tree. -/
theorem Tree.Lawful.leaf (hlawful : (plug frames nil).Lawful) (x : α) :
    Fitting frames 0 (.node true nil x nil) := by
  obtain ⟨n, hfills⟩ := hlawful.fills
  have hzero : n = 0 := hfills.balanced
  subst hzero
  exact ⟨hfills.fits, ⟨fun _ => ⟨rfl, rfl⟩, trivial, trivial⟩, rfl, rfl⟩

/-- A red uncle: the parent and the uncle get black, and the defect goes two nodes up. -/
theorem Fitting.recolour (hfitting : Fitting (parent :: grand :: frames) n t)
    (hparent : parent.red = true) (huncle : grand.sibling.isRed = true) :
    Fitting frames (n + 1) (join grand.side true grand.node
      (join parent.side false parent.node t parent.sibling) grand.sibling.blacken) := by
  obtain ⟨⟨hsibling, hbalanced, -⟩, -, huncleNoRedRed, huncleBalanced, hrest⟩ :=
    fits_red_black hfitting.fits hparent
  refine ⟨hrest, ?_, ?_⟩
  · rw [noRedRed_join_iff, noRedRed_join_iff]
    refine ⟨fun _ => ⟨isRed_join, isRed_blacken⟩, ⟨?_, hfitting.noRedRed, hsibling⟩,
      huncleNoRedRed.blacken⟩
    exact fun hred => absurd hred Bool.false_ne_true
  · rw [balanced_red_iff, balanced_black_succ_iff]
    exact ⟨⟨hfitting.balanced, hbalanced⟩, huncleBalanced.blacken huncle⟩

/-- A black uncle on the other side: one rotation repairs the defect. -/
theorem Fitting.rotateOuter (hfitting : Fitting (parent :: grand :: frames) n t)
    (hparent : parent.red = true) (huncle : grand.sibling.isRed = false) :
    Fills frames (n + 1) (join parent.side false parent.node t
      (join parent.side true grand.node parent.sibling grand.sibling)) := by
  obtain ⟨⟨hsibling, hbalanced, hblack⟩, -, huncleNoRedRed, huncleBalanced, hrest⟩ :=
    fits_red_black hfitting.fits hparent
  refine ⟨⟨hrest, ?_, ?_⟩, ?_⟩
  · rw [noRedRed_join_iff, noRedRed_join_iff]
    refine ⟨?_, hfitting.noRedRed, fun _ => ⟨hblack, huncle⟩, hsibling, huncleNoRedRed⟩
    exact fun hred => absurd hred Bool.false_ne_true
  · rw [balanced_black_succ_iff, balanced_red_iff]
    exact ⟨hfitting.balanced, hbalanced, huncleBalanced⟩
  · rw [isRed_join]
    exact fun hred => absurd hred Bool.false_ne_true

/-- A red tree on the inner side: a rotation below brings the defect to the outer side. -/
theorem Fitting.rotateInner (hfitting : Fitting (parent :: grand :: frames) n
      (join side true a near far)) (hparent : parent.red = true) :
    Fitting (⟨side, true, a, far⟩ :: grand :: frames) n
      (join side true parent.node parent.sibling near) := by
  obtain ⟨⟨hsibling, hbalanced, hblack⟩, hgrand, -, -, -⟩ :=
    fits_red_black hfitting.fits hparent
  obtain ⟨-, -, -, hrest⟩ := hfitting.fits
  rw [if_pos hparent] at hrest
  have hnoRedRed := noRedRed_join_iff.mp hfitting.noRedRed
  have hkids := hnoRedRed.1 rfl
  have hheights := balanced_red_iff.mp hfitting.balanced
  refine ⟨⟨hnoRedRed.2.2, hheights.2, fun _ => ⟨hkids.2, hgrand⟩, hrest⟩, ?_, ?_⟩
  · rw [noRedRed_join_iff]
    exact ⟨fun _ => ⟨hblack, hkids.1⟩, hsibling, hnoRedRed.2.1⟩
  · rw [balanced_red_iff]
    exact ⟨hbalanced, hheights.1⟩

end Grown

/-! ## A tree that lacks a black node -/

/-- The hole asks for one black node more on each path than the tree has; the root of the
tree may be red where it should not. -/
structure Short (frames : List (Frame α)) (n : ℕ) (t : Tree α) : Prop where
  fits : Fits frames (n + 1)
  noRedRed : t.blacken.NoRedRed
  balanced : t.Balanced n

section Short

variable {near far : Tree α}

theorem Short.fills_of_red (hshort : Short frames n t) (hred : t.isRed = true) :
    Fills frames (n + 1) t.blacken := by
  refine ⟨⟨hshort.fits, hshort.noRedRed, hshort.balanced.blacken hred⟩, ?_⟩
  rw [isRed_blacken]
  exact fun hfalse => absurd hfalse Bool.false_ne_true

/-- At the root nothing is lacking. -/
theorem Short.lawful_of_root (hshort : Short [] n t) : t.blacken.Lawful := by
  cases hred : t.isRed with
  | true => exact (hshort.fills_of_red hred).lawful
  | false =>
      rw [blacken_of_black hred]
      have hnoRedRed := hshort.noRedRed
      rw [blacken_of_black hred] at hnoRedRed
      exact ⟨hred, hnoRedRed, n, hshort.balanced⟩

theorem Tree.Lawful.short (hlawful : t.Lawful) : ∃ n, Short [] n t := by
  obtain ⟨n, hbalanced⟩ := hlawful.balanced
  exact ⟨n, trivial, hlawful.noRedRed.blacken, hbalanced⟩

theorem Short.noRedRed_of_black (hshort : Short frames n t) (hblack : t.isRed = false) :
    t.NoRedRed := by
  have hnoRedRed := hshort.noRedRed
  rwa [blacken_of_black hblack] at hnoRedRed

/-- A red sibling is rotated above the parent, and the new sibling is black. -/
theorem Short.redSibling
    (hshort : Short (⟨side, red, a, join side true b near far⟩ :: frames) n t) :
    Short (⟨side, true, a, near⟩ :: ⟨side, false, b, far⟩ :: frames) n t ∧ near.isRed = false ∧
      red = false := by
  obtain ⟨hnoRedRed, hbalanced, hcolours, hrest⟩ := hshort.fits
  rw [noRedRed_join_iff] at hnoRedRed
  rw [balanced_red_iff] at hbalanced
  have hkids := hnoRedRed.1 rfl
  have hblack : red = false := by
    rw [Bool.eq_false_iff]
    intro hred
    have hsibling := (hcolours hred).1
    rw [isRed_join] at hsibling
    cases hsibling
  subst hblack
  refine ⟨⟨⟨hnoRedRed.2.1, hbalanced.1, fun _ => ⟨hkids.1, rfl⟩, ?_⟩, hshort.noRedRed,
    hshort.balanced⟩, hkids.1, rfl⟩
  exact ⟨hnoRedRed.2.2, hbalanced.2, fun hred => absurd hred Bool.false_ne_true, hrest⟩

/-- A black sibling with black children gets red, and the parent lacks a black node. -/
theorem Short.recolour
    (hshort : Short (⟨side, red, a, join side false b near far⟩ :: frames) n t)
    (hblack : t.isRed = false) (hnear : near.isRed = false) (hfar : far.isRed = false) :
    Short frames (if red then n else n + 1)
      (join side red a t (join side true b near far)) := by
  obtain ⟨hnoRedRed, hbalanced, -, hrest⟩ := hshort.fits
  rw [noRedRed_join_iff] at hnoRedRed
  rw [balanced_black_succ_iff] at hbalanced
  have hsibling : (join side true b near far).Balanced n := balanced_red_iff.mpr hbalanced
  refine ⟨?_, ?_, ?_⟩
  · cases red with
    | true => exact hrest
    | false => exact hrest
  · rw [blacken_join, noRedRed_join_iff, noRedRed_join_iff]
    refine ⟨fun hred => absurd hred Bool.false_ne_true, hshort.noRedRed_of_black hblack, ?_⟩
    exact ⟨fun _ => ⟨hnear, hfar⟩, hnoRedRed.2⟩
  · cases red with
    | true => exact balanced_red_iff.mpr ⟨hshort.balanced, hsibling⟩
    | false => exact balanced_black_succ_iff.mpr ⟨hshort.balanced, hsibling⟩

/-- A red inner child of a black sibling is rotated above it. -/
theorem Short.rotateInner {c : α} {mid : Tree α}
    (hshort : Short (⟨side, red, a, join side false b (join side true c near mid) far⟩ :: frames)
      n t) (hfar : far.isRed = false) :
    Short (⟨side, red, a, join side false c near (join side true b mid far)⟩ :: frames) n t := by
  obtain ⟨hnoRedRed, hbalanced, -, hrest⟩ := hshort.fits
  rw [noRedRed_join_iff, noRedRed_join_iff] at hnoRedRed
  rw [balanced_black_succ_iff, balanced_red_iff] at hbalanced
  obtain ⟨-, ⟨hkids, hnear, hmid⟩, hfarNoRedRed⟩ := hnoRedRed
  refine ⟨⟨?_, ?_, ?_, hrest⟩, hshort.noRedRed, hshort.balanced⟩
  · rw [noRedRed_join_iff, noRedRed_join_iff]
    refine ⟨fun hred => absurd hred Bool.false_ne_true, hnear, ?_, hmid, hfarNoRedRed⟩
    exact fun _ => ⟨(hkids rfl).2, hfar⟩
  · rw [balanced_black_succ_iff, balanced_red_iff]
    exact ⟨hbalanced.1.1, hbalanced.1.2, hbalanced.2⟩
  · intro hred
    have hcolours := hshort.fits.2.2.1 hred
    exact ⟨isRed_join, hcolours.2⟩

/-- A red outer child of a black sibling: a rotation at the parent repairs the defect. -/
theorem Short.rotateOuter
    (hshort : Short (⟨side, red, a, join side false b near far⟩ :: frames) n t)
    (hblack : t.isRed = false) (hfar : far.isRed = true) :
    Fills frames (if red then n + 1 else n + 2)
      (join side red b (join side false a t near) far.blacken) := by
  obtain ⟨hnoRedRed, hbalanced, hcolours, hrest⟩ := hshort.fits
  rw [noRedRed_join_iff] at hnoRedRed
  rw [balanced_black_succ_iff] at hbalanced
  have hparent : (join side false a t near).Balanced (n + 1) :=
    balanced_black_succ_iff.mpr ⟨hshort.balanced, hbalanced.1⟩
  have houter : far.blacken.Balanced (n + 1) := hbalanced.2.blacken hfar
  refine ⟨⟨hrest, ?_, ?_⟩, ?_⟩
  · rw [noRedRed_join_iff, noRedRed_join_iff]
    refine ⟨fun _ => ⟨isRed_join, isRed_blacken⟩, ⟨?_, hshort.noRedRed_of_black hblack,
      hnoRedRed.2.1⟩, hnoRedRed.2.2.blacken⟩
    exact fun hred => absurd hred Bool.false_ne_true
  · cases red with
    | true => exact balanced_red_iff.mpr ⟨hparent, houter⟩
    | false => exact balanced_black_succ_iff.mpr ⟨hparent, houter⟩
  · rw [isRed_join]
    exact fun hred => (hcolours hred).2

/-- A node with one subtree is taken out. -/
theorem Fills.splice (hfills : Fills frames n (join side red a nil t)) :
    (red = true → Fills frames n t) ∧ (red = false → Short frames 0 t) := by
  have hnoRedRed := noRedRed_join_iff.mp hfills.noRedRed
  have hbalanced := hfills.balanced
  constructor
  · rintro rfl
    refine ⟨⟨hfills.fits, hnoRedRed.2.2, (balanced_red_iff.mp hbalanced).2⟩, ?_⟩
    intro hred
    rw [(hnoRedRed.1 rfl).2] at hred
    cases hred
  · rintro rfl
    obtain ⟨m, rfl, hzero, htree⟩ := balanced_black_iff.mp hbalanced
    have hzero : m = 0 := hzero
    subst hzero
    exact ⟨hfills.fits, hnoRedRed.2.2.blacken, htree⟩

end Short

/-! ## Another node around the hole -/

theorem redAbove_replace {sibling : Tree α} :
    redAbove (inner ++ ⟨side, red, a, sibling⟩ :: outer) =
      redAbove (inner ++ ⟨side, red, b, sibling⟩ :: outer) := by
  cases inner <;> rfl

/-- The law does not depend on the nodes. -/
theorem fits_replace {sibling : Tree α}
    (hfits : Fits (inner ++ ⟨side, red, a, sibling⟩ :: outer) n) :
    Fits (inner ++ ⟨side, red, b, sibling⟩ :: outer) n := by
  induction inner generalizing n with
  | nil => exact hfits
  | cons frame inner ih =>
      obtain ⟨hnoRedRed, hbalanced, hred, hrest⟩ := hfits
      refine ⟨hnoRedRed, hbalanced, ?_, ih hrest⟩
      intro hframe
      obtain ⟨hsibling, habove⟩ := hred hframe
      exact ⟨hsibling, redAbove_replace.symm.trans habove⟩

theorem Fills.replace {sibling : Tree α}
    (hfills : Fills (inner ++ ⟨side, red, a, sibling⟩ :: outer) n t) :
    Fills (inner ++ ⟨side, red, b, sibling⟩ :: outer) n t :=
  ⟨⟨fits_replace hfills.fits, hfills.noRedRed, hfills.balanced⟩,
    fun hred => redAbove_replace.symm.trans (hfills.red hred)⟩

theorem Short.replace {sibling : Tree α}
    (hshort : Short (inner ++ ⟨side, red, a, sibling⟩ :: outer) n t) :
    Short (inner ++ ⟨side, red, b, sibling⟩ :: outer) n t :=
  ⟨fits_replace hshort.fits, hshort.noRedRed, hshort.balanced⟩

/-! ## Height -/

namespace Tree

/-- The nodes on the longest path. -/
def height : Tree α → ℕ
  | nil => 0
  | node _ left _ right => max left.height right.height + 1

theorem height_join {near far : Tree α} :
    (join side red a near far).height = max near.height far.height + 1 := by
  cases side with
  | left => rfl
  | right => exact congrArg (· + 1) (Nat.max_comm _ _)

/-- So many black nodes on a path need many nodes. -/
theorem Balanced.two_pow_le (ht : t.Balanced n) : 2 ^ n ≤ t.toList.length + 1 := by
  induction t generalizing n with
  | nil =>
      cases ht
      exact Nat.le_refl 1
  | node red left a right ihLeft ihRight =>
      rw [toList, List.length_append, List.length_cons]
      cases red with
      | true =>
          have hleft := ihLeft ht.1
          omega
      | false =>
          obtain ⟨m, rfl, hbalancedLeft, hbalancedRight⟩ := ht
          have hleft := ihLeft hbalancedLeft
          have hright := ihRight hbalancedRight
          rw [Nat.pow_succ]
          omega

/-- A path has a red node above each black one at most, and one more where it ends. -/
theorem Balanced.height_le (ht : t.Balanced n) (hred : t.NoRedRed) :
    t.height ≤ 2 * n + if t.isRed then 1 else 0 := by
  induction t generalizing n with
  | nil => exact Nat.zero_le _
  | node red left a right ihLeft ihRight =>
      obtain ⟨hchildren, hredLeft, hredRight⟩ := hred
      rw [height]
      cases red with
      | true =>
          obtain ⟨hblackLeft, hblackRight⟩ := hchildren rfl
          have hleft := ihLeft ht.1 hredLeft
          have hright := ihRight ht.2 hredRight
          rw [hblackLeft] at hleft
          rw [hblackRight] at hright
          simp only [isRed, if_true, Bool.false_eq_true, if_false] at hleft hright ⊢
          omega
      | false =>
          obtain ⟨m, rfl, hbalancedLeft, hbalancedRight⟩ := ht
          have hleft := ihLeft hbalancedLeft hredLeft
          have hright := ihRight hbalancedRight hredRight
          have hone (red : Bool) : (if red then 1 else 0) ≤ 1 := by
            cases red <;> decide
          have honeLeft := hone left.isRed
          have honeRight := hone right.isRed
          simp only [isRed, Bool.false_eq_true, if_false]
          omega

theorem Lawful.height_le (ht : t.Lawful) : t.height ≤ 2 * Nat.log2 (t.toList.length + 1) := by
  obtain ⟨n, hn⟩ := ht.balanced
  have hheight := hn.height_le ht.noRedRed
  rw [ht.black] at hheight
  have hlog : n ≤ Nat.log2 (t.toList.length + 1) :=
    (Nat.le_log2 (Nat.succ_ne_zero _)).mpr hn.two_pow_le
  simp only [Bool.false_eq_true, if_false] at hheight
  omega

end Tree

/-- A hole is at most so deep as the tree is high. -/
theorem length_add_height_le (frames : List (Frame α)) (t : Tree α) :
    frames.length + t.height ≤ (plug frames t).height := by
  induction frames generalizing t with
  | nil => exact Nat.le_of_eq (Nat.zero_add _)
  | cons frame frames ih =>
      have hrest := ih (frame.attach t)
      have hattach : (frame.attach t).height = max t.height frame.sibling.height + 1 := height_join
      rw [List.length_cons, plug]
      omega

end Night.RedBlack
