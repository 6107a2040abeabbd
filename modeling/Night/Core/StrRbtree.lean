import Mathlib.Data.List.Lex
import Mathlib.Data.Prod.Lex
import Mathlib.Data.Tree.Basic
import Mathlib.Logic.Function.Basic
import Night.Core.Bytes

/-!
# `night_str_rbtree_insert_value`

Nodes with a key and a string, in a binary tree that is ordered by the key, the length of the
string and its bytes.  A new node goes down to the place behind all nodes that are not above it.
-/

namespace Night.StrRbtree

open Bytes

/-! ## The source -/

/-- `night_str_node_t`; a pointer is an address. -/
structure StrNode where
  key : BitVec 64
  left : ℕ
  right : ℕ
  parent : ℕ
  color : Byte
  data : Byte
  str : List Byte
  deriving DecidableEq, Repr

/-- The sign of `memcmp` for `n` bytes, which both blocks have. -/
def memcmp : List Byte → List Byte → ℕ → ℤ
  | a :: as, b :: bs, n + 1 => if a = b then memcmp as bs n else (a.toNat : ℤ) - b.toNat
  | _, _, _ => 0

/-- Whether `n` goes to the left of `t`. -/
def goesLeft (n t : StrNode) : Bool :=
  if n.key ≠ t.key then n.key.toNat < t.key.toNat
  else if n.str.length ≠ t.str.length then n.str.length < t.str.length
  else memcmp n.str t.str n.str.length < 0

/-- `*p`. -/
def child (nodes : ℕ → StrNode) (left : Bool) (temp : ℕ) : ℕ :=
  if left then (nodes temp).left else (nodes temp).right

/-- `*p = node`. -/
def setChild (left : Bool) (temp node : ℕ) (nodes : ℕ → StrNode) : ℕ → StrNode :=
  Function.update nodes temp
    (if left then { nodes temp with left := node } else { nodes temp with right := node })

/-- The end of the function; `night_rbt_red` sets the color to 1. -/
def link (left : Bool) (temp node sentinel : ℕ) (nodes : ℕ → StrNode) : ℕ → StrNode :=
  let nodes := setChild left temp node nodes
  Function.update nodes node
    { nodes node with parent := temp, left := sentinel, right := sentinel, color := 1 }

/-- `for ( ;; )` takes one of `fuel` for each node it looks at. -/
def nightStrRbtreeInsertValue (node sentinel : ℕ) (nodes : ℕ → StrNode) :
    ℕ → ℕ → Option (ℕ → StrNode)
  | 0, _ => none
  | fuel + 1, temp =>
    let p := goesLeft (nodes node) (nodes temp)
    if child nodes p temp = sentinel then some (link p temp node sentinel nodes)
    else nightStrRbtreeInsertValue node sentinel nodes fuel (child nodes p temp)

/-! ## What it is for -/

/-- The order of the tree: by the key, then by the length, then by the bytes. -/
def rank (n : StrNode) : ℕ ×ₗ ℕ ×ₗ List ℕ :=
  toLex (n.key.toNat, toLex (n.str.length, n.str.map BitVec.toNat))

/-- The nodes of a tree from left to right. -/
def inOrder : BinaryTree ℕ → List ℕ
  | .nil => []
  | .node a left right => inOrder left ++ a :: inOrder right

/-- The links from `p` down are those of the tree. -/
def Holds (nodes : ℕ → StrNode) (sentinel : ℕ) : ℕ → BinaryTree ℕ → Prop
  | p, .nil => p = sentinel
  | p, .node a left right =>
    p = a ∧ a ≠ sentinel ∧ Holds nodes sentinel (nodes a).left left ∧
      Holds nodes sentinel (nodes a).right right

def Ordered (nodes : ℕ → StrNode) (l : List ℕ) : Prop :=
  l.Pairwise fun x y => rank (nodes x) ≤ rank (nodes y)

/-- `after` is `before` with the node in a free place of the tree. -/
structure Inserted (before after : ℕ → StrNode) (root node sentinel : ℕ) (t : BinaryTree ℕ) :
    Prop where
  /-- The node stands behind the nodes that are not above it, and before the others. -/
  tree : ∃ t' l r, Holds after sentinel root t' ∧ Ordered after (inOrder t') ∧
    inOrder t = l ++ r ∧ inOrder t' = l ++ node :: r ∧
    (∀ x ∈ l, rank (before x) ≤ rank (before node)) ∧
    ∀ y ∈ r, rank (before node) < rank (before y)
  /-- Of the node the links and the color are set, of its parent the link to it. -/
  links : ∃ p ∈ inOrder t, ∃ left, child before left p = sentinel ∧
    child after left p = node ∧
    after node = { before node with parent := p, left := sentinel, right := sentinel, color := 1 } ∧
    after p =
      (if left then { before p with left := node } else { before p with right := node }) ∧
    ∀ q, q ≠ node → q ≠ p → after q = before q

/-! ## The comparison -/

theorem memcmp_neg_iff {as bs : List Byte} (hlength : as.length = bs.length) :
    memcmp as bs as.length < 0 ↔ as.map BitVec.toNat < bs.map BitVec.toNat := by
  induction as generalizing bs with
  | nil =>
    obtain rfl := List.eq_nil_of_length_eq_zero hlength.symm
    simp [memcmp]
  | cons a as ih =>
    obtain ⟨b, bs, rfl⟩ := List.exists_cons_of_ne_nil
      (List.ne_nil_of_length_eq_add_one hlength.symm)
    have hrest : as.length = bs.length := Nat.succ.inj hlength
    rw [List.length_cons, memcmp, List.map_cons, List.map_cons, List.cons_lt_cons_iff]
    by_cases heq : a = b
    · subst heq
      rw [if_pos rfl, ih hrest]
      simp
    · have hne : a.toNat ≠ b.toNat := fun hsame => heq (BitVec.eq_of_toNat_eq hsame)
      rw [if_neg heq]
      omega

/-- The three stages compare the ranks. -/
theorem goesLeft_iff (n t : StrNode) : goesLeft n t = true ↔ rank n < rank t := by
  rw [goesLeft, rank, rank, Prod.Lex.toLex_lt_toLex, Prod.Lex.toLex_lt_toLex]
  by_cases hkey : n.key = t.key
  · rw [if_neg (not_not.mpr hkey), hkey]
    by_cases hlength : n.str.length = t.str.length
    · rw [if_neg (not_not.mpr hlength), decide_eq_true_iff, memcmp_neg_iff hlength]
      simp [hlength]
    · rw [if_pos hlength]
      simp [hlength]
  · have hne : n.key.toNat ≠ t.key.toNat := fun hsame => hkey (BitVec.eq_of_toNat_eq hsame)
    rw [if_pos hkey]
    simp [hne]

/-! ## The new links -/

variable {nodes nodes' before : ℕ → StrNode} {node sentinel p temp : ℕ} {t : BinaryTree ℕ}
  {left : Bool}

theorem link_node (hne : node ≠ p) : link left p node sentinel nodes node =
    { nodes node with parent := p, left := sentinel, right := sentinel, color := 1 } := by
  rw [link]
  simp only
  rw [Function.update_self, setChild, Function.update_of_ne hne]

theorem link_parent (hne : p ≠ node) : link left p node sentinel nodes p =
    if left then { nodes p with left := node } else { nodes p with right := node } := by
  rw [link]
  simp only
  rw [Function.update_of_ne hne, setChild, Function.update_self]

theorem link_of_ne {q : ℕ} (hnode : q ≠ node) (hp : q ≠ p) :
    link left p node sentinel nodes q = nodes q := by
  rw [link]
  simp only
  rw [Function.update_of_ne hnode, setChild, Function.update_of_ne hp]

theorem child_link (hne : p ≠ node) : child (link left p node sentinel nodes) left p = node := by
  rw [child, link_parent hne]
  cases left <;> rfl

theorem child_link_not (hne : p ≠ node) :
    child (link left p node sentinel nodes) (!left) p = child nodes (!left) p := by
  rw [child, child, link_parent hne]
  cases left <;> rfl

/-- The key and the string of a node are not written. -/
theorem rank_link (hne : node ≠ p) (q : ℕ) :
    rank (link left p node sentinel nodes q) = rank (nodes q) := by
  by_cases hnode : q = node
  · rw [hnode, link_node hne]
    rfl
  · by_cases hp : q = p
    · rw [hp, link_parent hne.symm]
      cases left <;> rfl
    · rw [link_of_ne hnode hp]

/-! ## The way down -/

theorem Holds.congr (hholds : Holds nodes sentinel p t)
    (hsame : ∀ a ∈ inOrder t,
      (nodes' a).left = (nodes a).left ∧ (nodes' a).right = (nodes a).right) :
    Holds nodes' sentinel p t := by
  induction t generalizing p with
  | nil => exact hholds
  | node a l r ihLeft ihRight =>
    obtain ⟨hp, hne, hleft, hright⟩ := hholds
    obtain ⟨hl, hr⟩ := hsame a (by simp [inOrder])
    refine ⟨hp, hne, ?_, ?_⟩
    · rw [hl]
      exact ihLeft hleft fun x hx => hsame x (by simp [inOrder, hx])
    · rw [hr]
      exact ihRight hright fun x hx => hsame x (by simp [inOrder, hx])

/-- The tree with the node at the end of its way down. -/
def put (before : ℕ → StrNode) (node : ℕ) : BinaryTree ℕ → BinaryTree ℕ
  | .nil => .node node .nil .nil
  | .node a left right =>
    if goesLeft (before node) (before a) then .node a (put before node left) right
    else .node a left (put before node right)

theorem Holds.eq_sentinel_iff (hholds : Holds nodes sentinel p t) : p = sentinel ↔ t = .nil := by
  cases t with
  | nil => exact iff_of_true hholds rfl
  | node a l r => exact iff_of_false (hholds.1 ▸ hholds.2.1) nofun

/-- The subtree on a side. -/
def near (left : Bool) (l r : BinaryTree ℕ) : BinaryTree ℕ := if left then l else r

theorem holds_node_iff {a : ℕ} {l r : BinaryTree ℕ} : Holds nodes sentinel p (.node a l r) ↔
    p = a ∧ a ≠ sentinel ∧ ∀ left, Holds nodes sentinel (child nodes left a) (near left l r) := by
  rw [Holds]
  constructor
  · rintro ⟨hp, hne, hleft, hright⟩
    refine ⟨hp, hne, ?_⟩
    rintro (_ | _)
    · exact hright
    · exact hleft
  · rintro ⟨hp, hne, hall⟩
    exact ⟨hp, hne, hall true, hall false⟩

/-- On the side where the node goes it is put in the subtree, the other side stays. -/
theorem near_put {a : ℕ} {l r : BinaryTree ℕ} :
    ∃ l' r', put nodes node (.node a l r) = .node a l' r' ∧
      near (goesLeft (nodes node) (nodes a)) l' r' =
        put nodes node (near (goesLeft (nodes node) (nodes a)) l r) ∧
      near (!goesLeft (nodes node) (nodes a)) l' r' =
        near (!goesLeft (nodes node) (nodes a)) l r := by
  rw [put]
  cases goesLeft (nodes node) (nodes a) with
  | true => exact ⟨_, _, if_pos rfl, rfl, rfl⟩
  | false => exact ⟨_, _, if_neg (by decide), rfl, rfl⟩

/-- What the addresses of a node's subtrees have to do with each other. -/
structure Sides (node a : ℕ) (l r : BinaryTree ℕ) (left : Bool) : Prop where
  nodup : (inOrder (near left l r)).Nodup
  mem : ∀ x ∈ inOrder (near left l r), x ∈ inOrder (.node a l r)
  self : a ∉ inOrder (near left l r)
  new : node ∉ inOrder (near left l r)
  apart : ∀ x ∈ inOrder (near left l r), x ∉ inOrder (near (!left) l r)
  length : (inOrder (near left l r)).length < (inOrder (.node a l r)).length

theorem sides {a : ℕ} {l r : BinaryTree ℕ} (hnodup : (inOrder (.node a l r)).Nodup)
    (hnode : node ∉ inOrder (.node a l r)) (left : Bool) : Sides node a l r left := by
  obtain ⟨hl, har, hacross⟩ := List.nodup_append.mp hnodup
  obtain ⟨ha, hr⟩ := List.nodup_cons.mp har
  have hmem : ∀ x ∈ inOrder (near left l r), x ∈ inOrder (.node a l r) := by
    intro x hx
    cases left with
    | true => exact List.mem_append_left _ hx
    | false => exact List.mem_append_right _ (List.mem_cons_of_mem _ hx)
  refine ⟨?_, hmem, ?_, fun hin => hnode (hmem node hin), ?_, ?_⟩
  · cases left with
    | true => exact hl
    | false => exact hr
  · cases left with
    | true => exact fun hin => hacross a hin a List.mem_cons_self rfl
    | false => exact ha
  · intro x hx hother
    cases left with
    | true => exact hacross x hx x (List.mem_cons_of_mem _ hother) rfl
    | false => exact hacross x hother x (List.mem_cons_of_mem _ hx) rfl
  · rw [inOrder, List.length_append, List.length_cons]
    cases left with
    | true => exact Nat.lt_add_of_pos_right (Nat.succ_pos _)
    | false => exact Nat.lt_of_lt_of_le (Nat.lt_succ_self _) (Nat.le_add_left _ _)

theorem child_congr {a : ℕ} (hsame : nodes' a = nodes a) (left : Bool) :
    child nodes' left a = child nodes left a := by
  rw [child, child, hsame]

/-- The loop goes down to a free place and links the node there. -/
theorem insertValue_holds (hholds : Holds nodes sentinel temp t) (ht : t ≠ .nil)
    (hnodup : (inOrder t).Nodup) (hnode : node ∉ inOrder t) (hne : node ≠ sentinel) {fuel : ℕ}
    (hfuel : (inOrder t).length ≤ fuel) :
    ∃ p ∈ inOrder t, ∃ left, child nodes left p = sentinel ∧
      nightStrRbtreeInsertValue node sentinel nodes fuel temp =
        some (link left p node sentinel nodes) ∧
      Holds (link left p node sentinel nodes) sentinel temp (put nodes node t) := by
  induction fuel generalizing t temp with
  | zero =>
    cases t with
    | nil => exact absurd rfl ht
    | node a l r => simp [inOrder] at hfuel
  | succ fuel ih =>
    cases t with
    | nil => exact absurd rfl ht
    | node a l r =>
      obtain ⟨rfl, hane, hchild⟩ := holds_node_iff.mp hholds
      obtain ⟨l', r', hput, hnear, hfar⟩ := @near_put nodes node temp l r
      have hself : temp ∈ inOrder (.node temp l r) := by simp [inOrder]
      have hna : node ≠ temp := fun heq => hnode (heq ▸ hself)
      rw [nightStrRbtreeInsertValue, hput]
      generalize goesLeft (nodes node) (nodes temp) = left at hnear hfar ⊢
      have hsides := sides hnodup hnode left
      have hother := sides hnodup hnode (!left)
      by_cases hfree : child nodes left temp = sentinel
      · have hnil := (hchild left).eq_sentinel_iff.mp hfree
        rw [if_pos hfree]
        refine ⟨temp, hself, left, hfree, rfl, holds_node_iff.mpr ⟨rfl, hane, ?_⟩⟩
        intro side
        by_cases hsame : side = left
        · subst hsame
          rw [hnear, hnil, put, child_link hna.symm, holds_node_iff]
          refine ⟨rfl, hne, ?_⟩
          intro side'
          rw [child, link_node hna]
          cases side' <;> rfl
        · obtain rfl : side = !left := Bool.eq_not.mpr hsame
          rw [hfar, child_link_not hna.symm]
          apply (hchild _).congr
          intro a ha
          have hanode : a ≠ node := fun heq => hother.new (heq ▸ ha)
          have hatemp : a ≠ temp := fun heq => hother.self (heq ▸ ha)
          rw [link_of_ne hanode hatemp]
          exact ⟨rfl, rfl⟩
      · have hne' : near left l r ≠ .nil := fun hnil =>
          hfree ((hchild left).eq_sentinel_iff.mpr hnil)
        rw [if_neg hfree]
        have hlength := hsides.length
        obtain ⟨p, hp, side, hside, hloop, hholds'⟩ :=
          ih (hchild left) hne' hsides.nodup hsides.new (by omega)
        refine ⟨p, hsides.mem p hp, side, hside, hloop, holds_node_iff.mpr ⟨rfl, hane, ?_⟩⟩
        have hpa : temp ≠ p := fun heq => hsides.self (heq ▸ hp)
        intro side'
        rw [child_congr (link_of_ne hna.symm hpa)]
        by_cases hsame : side' = left
        · subst hsame
          rw [hnear]
          exact hholds'
        · obtain rfl : side' = !left := Bool.eq_not.mpr hsame
          rw [hfar]
          apply (hchild _).congr
          intro a ha
          have hanode : a ≠ node := fun heq => hother.new (heq ▸ ha)
          have hap : a ≠ p := by
            rintro rfl
            exact hsides.apart a hp ha
          rw [link_of_ne hanode hap]
          exact ⟨rfl, rfl⟩

/-! ## The order -/

/-- The node is put behind all nodes that are not above it. -/
theorem inOrder_put (hordered : Ordered nodes (inOrder t)) :
    ∃ l r, inOrder t = l ++ r ∧ inOrder (put nodes node t) = l ++ node :: r ∧
      (∀ x ∈ l, rank (nodes x) ≤ rank (nodes node)) ∧
      ∀ y ∈ r, rank (nodes node) < rank (nodes y) := by
  induction t with
  | nil => exact ⟨[], [], rfl, rfl, by simp, by simp⟩
  | node a lower upper ihLower ihUpper =>
    obtain ⟨hlower, haupper, hacross⟩ := List.pairwise_append.mp hordered
    obtain ⟨ha, hupper⟩ := List.pairwise_cons.mp haupper
    rw [put]
    by_cases hless : rank (nodes node) < rank (nodes a)
    · obtain ⟨l, r, hold, hnew, hl, hr⟩ := ihLower hlower
      rw [if_pos ((goesLeft_iff _ _).mpr hless)]
      refine ⟨l, r ++ a :: inOrder upper, ?_, ?_, hl, ?_⟩
      · rw [inOrder, hold, List.append_assoc]
      · rw [inOrder, hnew, List.append_assoc, List.cons_append]
      · intro y hy
        obtain hy | hy := List.mem_append.mp hy
        · exact hr y hy
        · obtain rfl | hy := List.mem_cons.mp hy
          · exact hless
          · exact hless.trans_le (ha y hy)
    · obtain ⟨l, r, hold, hnew, hl, hr⟩ := ihUpper hupper
      rw [if_neg (fun hgoes => hless ((goesLeft_iff _ _).mp hgoes))]
      refine ⟨inOrder lower ++ a :: l, r, ?_, ?_, ?_, hr⟩
      · rw [inOrder, hold, List.append_assoc, List.cons_append]
      · rw [inOrder, hnew, List.append_assoc, List.cons_append]
      · intro x hx
        obtain hx | hx := List.mem_append.mp hx
        · exact (hacross x hx a List.mem_cons_self).trans (not_lt.mp hless)
        · obtain rfl | hx := List.mem_cons.mp hx
          · exact not_lt.mp hless
          · exact hl x hx

theorem ordered_insert {l r : List ℕ} (hordered : Ordered nodes (l ++ r))
    (hl : ∀ x ∈ l, rank (nodes x) ≤ rank (nodes node))
    (hr : ∀ y ∈ r, rank (nodes node) < rank (nodes y)) : Ordered nodes (l ++ node :: r) := by
  obtain ⟨hlower, hupper, hacross⟩ := List.pairwise_append.mp hordered
  refine List.pairwise_append.mpr ⟨hlower, List.pairwise_cons.mpr ⟨?_, hupper⟩, ?_⟩
  · exact fun y hy => (hr y hy).le
  · intro x hx y hy
    obtain rfl | hy := List.mem_cons.mp hy
    · exact hl x hx
    · exact hacross x hx y hy

/-! ## The function -/

/-- In every ordered tree the node gets its place, and nothing else is changed. -/
theorem nightStrRbtreeInsertValue_inserted (nodes : ℕ → StrNode) (node sentinel root : ℕ)
    (t : BinaryTree ℕ) (hholds : Holds nodes sentinel root t) (ht : t ≠ .nil)
    (hnodup : (inOrder t).Nodup) (hordered : Ordered nodes (inOrder t))
    (hnode : node ∉ inOrder t) (hne : node ≠ sentinel) (fuel : ℕ)
    (hfuel : (inOrder t).length ≤ fuel) :
    ∃ after, nightStrRbtreeInsertValue node sentinel nodes fuel root = some after ∧
      Inserted nodes after root node sentinel t := by
  obtain ⟨p, hp, left, hfree, hloop, hholds'⟩ :=
    insertValue_holds hholds ht hnodup hnode hne hfuel
  obtain ⟨l, r, hold, hnew, hl, hr⟩ := @inOrder_put nodes node t hordered
  have hnp : node ≠ p := fun heq => hnode (heq ▸ hp)
  refine ⟨_, hloop, ⟨put nodes node t, l, r, hholds', ?_, hold, hnew, hl, hr⟩, ?_⟩
  · rw [hold] at hordered
    rw [hnew]
    apply (ordered_insert hordered hl hr).imp
    intro x y hle
    rw [rank_link hnp, rank_link hnp]
    exact hle
  · exact ⟨p, hp, left, hfree, child_link hnp.symm, link_node hnp, link_parent hnp.symm,
      fun q hnode hp => link_of_ne hnode hp⟩

/-- A black node with a string. -/
def strNode (key : BitVec 64) (left right parent : ℕ) (str : List Byte) : StrNode :=
  { key, left, right, parent, color := 0, data := 0, str }

/-- A string `ab`, a shorter one to its left, and to its right `ad` and a node with a larger key;
the new string is `ac`. -/
def fourNodes : ℕ → StrNode
  | 1 => strNode 5 2 3 0 [97, 98]
  | 2 => strNode 5 0 0 1 [122]
  | 3 => strNode 5 0 4 1 [97, 100]
  | 4 => strNode 7 0 0 3 [97]
  | _ => strNode 5 0 0 0 [97, 99]

theorem ordered_fourNodes : Ordered fourNodes [2, 1, 3, 4] := by
  have hbytes : [97, 98] ≤ [97, 100] := by decide
  simp [Ordered, rank, fourNodes, strNode, Prod.Lex.toLex_le_toLex, hbytes]

/-- The new node goes between `ab` and `ad`. -/
theorem nightStrRbtreeInsertValue_between :
    ∃ after, nightStrRbtreeInsertValue 5 0 fourNodes 4 1 = some after ∧
      Inserted fourNodes after 1 5 0
        (.node 1 (.node 2 .nil .nil) (.node 3 .nil (.node 4 .nil .nil))) :=
  nightStrRbtreeInsertValue_inserted fourNodes 5 0 1
    (.node 1 (.node 2 .nil .nil) (.node 3 .nil (.node 4 .nil .nil)))
    ⟨rfl, by decide, ⟨rfl, by decide, rfl, rfl⟩, rfl, by decide, rfl, rfl, by decide, rfl, rfl⟩
    nofun (by decide) ordered_fourNodes (by decide) (by decide) 4 (by decide)

end Night.StrRbtree
