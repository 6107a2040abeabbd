import Mathlib.Data.Nat.Log
import Night.Core.QueueMiddle
import Night.Http.Locations

/-!
# The height of the location tree

The tree of a queue has its middle at the root.  Nothing is lost when the branch behind the
middle is left out, because the branch before it is never the shorter one.
-/

namespace Night.LocationHeight

open Night.Bytes Night.Locations Night.Queue Night.QueueMiddle Night.Rings

/-- The height of the tree of one nesting level. -/
def height : LocationTree → ℕ
  | .null => 0
  | .node left right _ _ _ _ => 1 + max (height left) (height right)

/-- The tree has a node for each element of the queue, in its order, and so have the trees
below; those are low, too. -/
inductive Holds : ℕ → List LocationQueue → LocationTree → Prop where
  | null (pre : ℕ) : Holds pre [] .null
  | node {pre : ℕ} {front tail : List LocationQueue} {lq : LocationQueue}
      {left right tree : LocationTree} (halves : Halves front tail)
      (left_holds : Holds pre front left) (right_holds : Holds pre tail right)
      (tree_holds : Holds (pre + (lq.name.length - pre)) lq.list tree)
      (tree_low : height tree ≤ Nat.log 2 lq.list.length + 1) :
      Holds pre (front ++ lq :: tail)
        (.node left right tree lq.exact lq.inclusive (lq.name.drop pre))

variable {queue : List LocationQueue} {tree : LocationTree} {pre : ℕ}

theorem Holds.eq_null (hholds : Holds pre queue tree) (hnil : queue = []) : tree = .null := by
  cases hholds with
  | null => rfl
  | node => simp at hnil

theorem Holds.height_le (hholds : Holds pre queue tree) :
    height tree ≤ Nat.log 2 queue.length + 1 := by
  induction hholds with
  | null pre => exact Nat.zero_le _
  | @node pre front tail lq left right tree halves left_holds right_holds _ _ ihLeft ihRight _ =>
    have hle := halves.le
    rw [height, List.length_append, List.length_cons]
    by_cases hfront : front = []
    · rw [left_holds.eq_null hfront, right_holds.eq_null (halves.nil_of_nil hfront)]
      exact Nat.le_add_left 1 _
    · have hpos := List.length_pos_of_ne_nil hfront
      have hdouble : Nat.log 2 (front.length * 2) = Nat.log 2 front.length + 1 :=
        Nat.log_mul_base Nat.one_lt_two hpos.ne'
      have hbehind : Nat.log 2 tail.length ≤ Nat.log 2 front.length := Nat.log_mono_right hle
      have hge := halves.ge
      have hall : Nat.log 2 (front.length * 2) ≤ Nat.log 2 (front.length + (tail.length + 1)) :=
        Nat.log_mono_right (by omega)
      omega

/-! ## The build -/

theorem sizeOf_append {α : Type*} [SizeOf α] (front tail : List α) :
    sizeOf (front ++ tail) + 1 = sizeOf front + sizeOf tail := by
  induction front with
  | nil => simp [Nat.add_comm]
  | cons a front ih =>
    rw [List.cons_append, List.cons.sizeOf_spec, List.cons.sizeOf_spec]
    omega

theorem sizeOf_list_lt (lq : LocationQueue) : sizeOf lq.list < sizeOf lq := by
  cases lq
  simp only [LocationQueue.mk.sizeOf_spec]
  omega

/-- The recursion ends for every queue, however deep its elements are nested. -/
theorem createLocationsTree_holds (hne : queue ≠ []) (pre : ℕ) :
    ∃ tree bound, (∀ fuel, bound ≤ fuel →
        nightHttpCreateLocationsTree fuel queue pre = some tree) ∧ Holds pre queue tree := by
  induction hsize : sizeOf queue using Nat.strong_induction_on generalizing queue pre with
  | _ size ih =>
    have hin := nightQueueMiddle_lt hne
    have hhalves := nightQueueMiddle_halves hne
    have hdrop := List.drop_eq_getElem_cons hin
    have hcut := List.take_append_drop (nightQueueMiddle queue) queue
    rw [hdrop] at hcut
    generalize hfront : queue.take (nightQueueMiddle queue) = front at hcut hhalves
    generalize queue.drop (nightQueueMiddle queue + 1) = tail at hcut hhalves hdrop
    generalize queue[nightQueueMiddle queue] = lq at hcut hdrop
    have hpart (part : List LocationQueue) (pre' : ℕ) (hless : sizeOf part < size) :
        ∃ tree bound, (∀ fuel, bound ≤ fuel → (if part.isEmpty then some .null
          else nightHttpCreateLocationsTree fuel part pre') = some tree) ∧
          Holds pre' part tree := by
      by_cases hnil : part = []
      · subst hnil
        exact ⟨.null, 0, fun fuel hfuel => rfl, .null pre'⟩
      · obtain ⟨tree, bound, hbuild, hholds⟩ := ih _ hless hnil pre' rfl
        refine ⟨tree, bound, ?_, hholds⟩
        intro fuel hfuel
        rw [if_neg (by simpa using hnil)]
        exact hbuild fuel hfuel
    have hsizes := sizeOf_append front (lq :: tail)
    have hlist := sizeOf_list_lt lq
    rw [hcut, hsize, List.cons.sizeOf_spec] at hsizes
    obtain ⟨left, boundL, hleft, hleftHolds⟩ := hpart front pre (by omega)
    obtain ⟨right, boundR, hright, hrightHolds⟩ := hpart tail pre (by omega)
    obtain ⟨tree, boundT, htree, htreeHolds⟩ :=
      hpart lq.list (pre + (lq.name.length - pre)) (by omega)
    refine ⟨.node left right tree lq.exact lq.inclusive (lq.name.drop pre),
      max boundL (max boundR boundT) + 1, ?_, ?_⟩
    · intro fuel hfuel
      obtain ⟨fuel, rfl⟩ := Nat.exists_eq_add_of_le' (Nat.le_of_add_left_le hfuel)
      have hright' : (if front.isEmpty ∨ tail.isEmpty then some .null
          else nightHttpCreateLocationsTree fuel tail pre) = some right := by
        rw [← hright fuel (by omega)]
        congr 1
        simp only [List.isEmpty_iff, eq_iff_iff, or_iff_right_iff_imp]
        exact hhalves.nil_of_nil
      rw [nightHttpCreateLocationsTree, hdrop]
      simp only [hfront, hleft fuel (by omega), hright', htree fuel (by omega),
        Option.bind_eq_bind, Option.bind_some]
    · rw [← hcut]
      exact .node hhalves hleftHolds hrightHolds htreeHolds htreeHolds.height_le

/-- Every queue on a ring of cells is cut at its middle into halves, and its tree holds it and is
low. -/
theorem nightQueueMiddle_tree {Cell : Type} [DecidableEq Cell] {links : Links Cell} {h : Cell}
    {cells : List Cell} (hring : Ring links h cells) (hne : cells ≠ []) {fuel : ℕ}
    (hfuel : cells.length ≤ 2 * fuel) (element : Cell → LocationQueue) (pre : ℕ) :
    (∃ middle, nightQueueMiddleLinks fuel h links = some middle ∧ Cut links h cells middle ∧
      Halves (cells.take (nightQueueMiddle cells)) (cells.drop (nightQueueMiddle cells + 1))) ∧
    ∃ tree bound, (∀ fuel, bound ≤ fuel →
        nightHttpCreateLocationsTree fuel (cells.map element) pre = some tree) ∧
      Holds pre (cells.map element) tree ∧ height tree ≤ Nat.log 2 cells.length + 1 := by
  constructor
  · obtain ⟨middle, hmiddle, hcut⟩ := nightQueueMiddleLinks_cut hring hne hfuel
    exact ⟨middle, hmiddle, hcut, nightQueueMiddle_halves hne⟩
  · have hmap : cells.map element ≠ [] := fun hnil => hne (List.map_eq_nil_iff.mp hnil)
    obtain ⟨tree, bound, hbuild, hholds⟩ := createLocationsTree_holds hmap pre
    have hlow := hholds.height_le
    rw [List.length_map] at hlow
    exact ⟨tree, bound, hbuild, hholds, hlow⟩

/-- A sentinel and two elements. -/
def twoLinks : Links ℕ := insertTail 0 2 (insertTail 0 1 (init 0 ⟨id, id⟩))

theorem nightQueueMiddle_tree_two :
    (∃ middle, nightQueueMiddleLinks 1 0 twoLinks = some middle ∧ Cut twoLinks 0 [1, 2] middle ∧
      Halves ([1, 2].take (nightQueueMiddle [1, 2])) ([1, 2].drop (nightQueueMiddle [1, 2] + 1))) ∧
    ∃ tree bound, (∀ fuel, bound ≤ fuel → nightHttpCreateLocationsTree fuel
        ([1, 2].map fun _ => LocationQueue.ofLoc ⟨[SP], true⟩) 0 = some tree) ∧
      Holds 0 ([1, 2].map fun _ => LocationQueue.ofLoc ⟨[SP], true⟩) tree ∧
      height tree ≤ Nat.log 2 [1, 2].length + 1 := by
  have hone : Ring (insertTail 0 1 (init 0 ⟨id, id⟩)) 0 [1] :=
    ring_insertTail (ring_init 0 _) (by decide)
  have hring : Ring twoLinks 0 [1, 2] := ring_insertTail hone (by decide)
  exact nightQueueMiddle_tree hring (by decide) (by decide)
    (fun _ => LocationQueue.ofLoc ⟨[SP], true⟩) 0

end Night.LocationHeight
