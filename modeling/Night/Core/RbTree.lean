import Mathlib.Data.BitVec
import Mathlib.Logic.Function.Basic
import Night.Lib.RedBlack

/-!
# `night_rbtree.c`

Red-black trees of nodes that are linked in place.  A node is its address; the sentinel is
one too, and `NULL` is 0.  The branches of the source that mirror each other are one
definition for the two sides.  The loops have a fuel.
-/

namespace Night.RbTree

open Night.RedBlack (Side)

abbrev Address := ℕ

def null : Address := 0

/-- The nodes, and `night_rbtree_t`. -/
structure Rbtree (Key : Type) where
  key : Address → Key
  child : Side → Address → Address
  parent : Address → Address
  red : Address → Bool
  root : Address
  sentinel : Address

variable {Key : Type}

namespace Rbtree

def setKey (p : Address) (key : Key) (s : Rbtree Key) : Rbtree Key :=
  { s with key := Function.update s.key p key }

def setChild (side : Side) (p x : Address) (s : Rbtree Key) : Rbtree Key :=
  { s with child := fun side' q => if side' = side ∧ q = p then x else s.child side' q }

def setParent (p x : Address) (s : Rbtree Key) : Rbtree Key :=
  { s with parent := fun q => if q = p then x else s.parent q }

/-- `night_rbt_red` and `night_rbt_black`. -/
def setRed (p : Address) (red : Bool) (s : Rbtree Key) : Rbtree Key :=
  { s with red := fun q => if q = p then red else s.red q }

def setRoot (p : Address) (s : Rbtree Key) : Rbtree Key :=
  { s with root := p }

end Rbtree

open Rbtree

/-! ## The empty tree -/

def nightRbtreeSentinelInit [Zero Key] (node : Address) (s : Rbtree Key) : Rbtree Key :=
  setParent node null (setChild .right node null (setChild .left node null
    (setKey node 0 (setRed node false s))))

def nightRbtreeInit [Zero Key] (sentinel : Address) (s : Rbtree Key) : Rbtree Key :=
  { nightRbtreeSentinelInit sentinel s with root := sentinel, sentinel := sentinel }

/-! ## Rotations -/

/-- `if (node != sentinel) node->parent = parent;` -/
def reparent (node parent : Address) (s : Rbtree Key) : Rbtree Key :=
  if node ≠ s.sentinel then setParent node parent s else s

/-- The pointer of the parent of `node` to it points to `temp`; a side is tried first. -/
def replaceChild (side : Side) (node temp : Address) (s : Rbtree Key) : Rbtree Key :=
  if node = s.child side (s.parent node) then setChild side (s.parent node) temp s
  else setChild side.other (s.parent node) temp s

/-- The same where `node` may be the root. -/
def replaceNode (side : Side) (node temp : Address) (s : Rbtree Key) : Rbtree Key :=
  if node = s.root then setRoot temp s else replaceChild side node temp s

/-- The rotation that brings a node to a side of its child on the other side. -/
def rotate (side : Side) (node : Address) (s : Rbtree Key) : Rbtree Key :=
  let temp := s.child side.other node
  let s := setChild side.other node (s.child side temp) s
  let s := reparent (s.child side temp) node s
  let s := setParent temp (s.parent node) s
  let s := replaceNode side node temp s
  let s := setChild side temp node s
  setParent node temp s

def nightRbtreeLeftRotate (node : Address) (s : Rbtree Key) : Rbtree Key :=
  rotate .left node s

def nightRbtreeRightRotate (node : Address) (s : Rbtree Key) : Rbtree Key :=
  rotate .right node s

/-! ## Insertion -/

section Insert

-- whether a key goes to the left of another one
variable (less : Key → Key → Bool)

/-- An insert function: the loop from `temp` down. -/
def nightRbtreeInsertValue : ℕ → Address → Address → Rbtree Key → Option (Rbtree Key)
  | 0, _, _, _ => none
  | fuel + 1, temp, node, s =>
      let side := if less (s.key node) (s.key temp) then Side.left else .right
      if s.child side temp = s.sentinel then
        let s := setChild side temp node s
        let s := setParent node temp s
        let s := setChild .right node s.sentinel (setChild .left node s.sentinel s)
        some (setRed node true s)
      else nightRbtreeInsertValue fuel (s.child side temp) node s

/-- The rotation at the grandparent. -/
def rotateGrand (side : Side) (node : Address) (s : Rbtree Key) : Rbtree Key :=
  let s := setRed (s.parent node) false s
  let s := setRed (s.parent (s.parent node)) true s
  rotate side.other (s.parent (s.parent node)) s

/-- The body of the loop in `night_rbtree_insert` where the parent of `node` is the child of
its grandparent on a side: the next `node`, and the tree. -/
def insertFixup (side : Side) (node : Address) (s : Rbtree Key) : Address × Rbtree Key :=
  let temp := s.child side.other (s.parent (s.parent node))
  if s.red temp then
    let s := setRed temp false (setRed (s.parent node) false s)
    let s := setRed (s.parent (s.parent node)) true s
    (s.parent (s.parent node), s)
  else if node = s.child side.other (s.parent node) then
    let node := s.parent node
    (node, rotateGrand side node (rotate side node s))
  else (node, rotateGrand side node s)

/-- The loop. -/
def insertFixups : ℕ → Address → Rbtree Key → Option (Rbtree Key)
  | 0, _, _ => none
  | fuel + 1, node, s =>
      if node ≠ s.root ∧ s.red (s.parent node) then
        let side :=
          if s.parent node = s.child .left (s.parent (s.parent node)) then Side.left else .right
        let fixed := insertFixup side node s
        insertFixups fuel fixed.1 fixed.2
      else some s

def nightRbtreeInsert (fuel : ℕ) (node : Address) (s : Rbtree Key) : Option (Rbtree Key) :=
  if s.root = s.sentinel then
    let s := setParent node null s
    let s := setChild .right node s.sentinel (setChild .left node s.sentinel s)
    some (setRoot node (setRed node false s))
  else do
    let s ← nightRbtreeInsertValue less fuel s.root node s
    let s ← insertFixups fuel node s
    some (setRed s.root false s)

end Insert

/-- `(node->key - temp->key) < 0` -/
def timerLess (x y : BitVec 64) : Bool := (x - y).slt 0

def nightRbtreeInsertTimerValue :
    ℕ → Address → Address → Rbtree (BitVec 64) → Option (Rbtree (BitVec 64)) :=
  nightRbtreeInsertValue timerLess

/-- `tree->insert`: the function for timers, or another one of its form. -/
inductive InsertPt where
  | timerValue
  | value (less : BitVec 64 → BitVec 64 → Bool)

def InsertPt.less : InsertPt → BitVec 64 → BitVec 64 → Bool
  | .timerValue => timerLess
  | .value less => less

/-! ## Deletion -/

def nightRbtreeMin : ℕ → Address → Rbtree Key → Option Address
  | 0, _, _ => none
  | fuel + 1, node, s =>
      if s.child .left node ≠ s.sentinel then nightRbtreeMin fuel (s.child .left node) s
      else some node

/-- `temp` and `subst`: what is moved up, and what is taken out of its place. -/
def chooseSubst (fuel : ℕ) (node : Address) (s : Rbtree Key) : Option (Address × Address) :=
  if s.child .left node = s.sentinel then some (s.child .right node, node)
  else if s.child .right node = s.sentinel then some (s.child .left node, node)
  else do
    let subst ← nightRbtreeMin fuel (s.child .right node) s
    some (s.child .right subst, subst)

/-- The links of a node that was taken out. -/
def clearNode [Zero Key] (node : Address) (s : Rbtree Key) : Rbtree Key :=
  setKey node 0 (setParent node null (setChild .right node null (setChild .left node null s)))

/-- `subst` gets the place of `node`. -/
def substitute (node subst : Address) (s : Rbtree Key) : Rbtree Key :=
  let s := setChild .left subst (s.child .left node) s
  let s := setChild .right subst (s.child .right node) s
  let s := setParent subst (s.parent node) s
  let s := setRed subst (s.red node) s
  let s := replaceNode .left node subst s
  let s := reparent (s.child .left subst) subst s
  reparent (s.child .right subst) subst s

/-- `subst` is taken out of its place, where `temp` moves up, and `node` out of the tree. -/
def unlink (node temp subst : Address) (s : Rbtree Key) : Rbtree Key :=
  let s := replaceChild .left subst temp s
  if subst = node then setParent temp (s.parent subst) s
  else
    let s := setParent temp (if s.parent subst = node then subst else s.parent subst) s
    substitute node subst s

/-- A red sibling `w` of `temp` on the other side is rotated above the parent; the sibling
behind that. -/
def lowerSibling (side : Side) (temp w : Address) (s : Rbtree Key) : Address × Rbtree Key :=
  if s.red w then
    let s := setRed (s.parent temp) true (setRed w false s)
    let s := rotate side (s.parent temp) s
    (s.child side.other (s.parent temp), s)
  else (w, s)

/-- The same for a red child of `w` on the side of `temp`, where the other one is black. -/
def raiseNephew (side : Side) (temp w : Address) (s : Rbtree Key) : Address × Rbtree Key :=
  if !s.red (s.child side.other w) then
    let s := setRed w true (setRed (s.child side w) false s)
    let s := rotate side.other w s
    (s.child side.other (s.parent temp), s)
  else (w, s)

/-- The last rotation of the fixup. -/
def rotateParent (side : Side) (temp w : Address) (s : Rbtree Key) : Rbtree Key :=
  let s := setRed w (s.red (s.parent temp)) s
  let s := setRed (s.parent temp) false s
  let s := setRed (s.child side.other w) false s
  rotate side (s.parent temp) s

/-- The body of the loop in `night_rbtree_delete` from where the sibling `w` is black. -/
def repairBlack (side : Side) (temp w : Address) (s : Rbtree Key) : Address × Rbtree Key :=
  if !s.red (s.child .left w) ∧ !s.red (s.child .right w) then (s.parent temp, setRed w true s)
  else
    let raised := raiseNephew side temp w s
    let s := rotateParent side temp raised.1 raised.2
    (s.root, s)

/-- The body where `temp` is the child of its parent on a side: the next `temp`, and the
tree. -/
def deleteFixup (side : Side) (temp : Address) (s : Rbtree Key) : Address × Rbtree Key :=
  let lowered := lowerSibling side temp (s.child side.other (s.parent temp)) s
  repairBlack side temp lowered.1 lowered.2

/-- The loop, and `night_rbt_black(temp)`. -/
def deleteFixups : ℕ → Address → Rbtree Key → Option (Rbtree Key)
  | 0, _, _ => none
  | fuel + 1, temp, s =>
      if temp ≠ s.root ∧ !s.red temp then
        let side := if temp = s.child .left (s.parent temp) then Side.left else .right
        let fixed := deleteFixup side temp s
        deleteFixups fuel fixed.1 fixed.2
      else some (setRed temp false s)

def nightRbtreeDelete [Zero Key] (fuel : ℕ) (node : Address) (s : Rbtree Key) :
    Option (Rbtree Key) := do
  let (temp, subst) ← chooseSubst fuel node s
  if subst = s.root then some (clearNode node (setRed temp false (setRoot temp s)))
  else
    let red := s.red subst
    let s := clearNode node (unlink node temp subst s)
    if red then some s else deleteFixups fuel temp s

/-! ## Runs -/

/-- A node that is not in the tree is inserted with a key, or one that is there is deleted. -/
inductive Op where
  | insert (node : Address) (key : BitVec 64)
  | delete (node : Address)
  deriving DecidableEq, Repr

def step (insert : InsertPt) (fuel : ℕ) (s : Rbtree (BitVec 64)) :
    Op → Option (Rbtree (BitVec 64))
  | .insert node key => nightRbtreeInsert insert.less fuel node (setKey node key s)
  | .delete node => nightRbtreeDelete fuel node s

def run (insert : InsertPt) (fuel : ℕ) : List Op → Rbtree (BitVec 64) → Option (Rbtree (BitVec 64))
  | [], s => some s
  | op :: ops, s => do
      let s ← step insert fuel s op
      run insert fuel ops s

end Night.RbTree
