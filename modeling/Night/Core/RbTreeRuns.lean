import Mathlib.Algebra.Order.Ring.Int
import Night.Core.RbTreeUnlink

/-!
# Runs of insertions and deletions

After any run the nodes that were inserted and not deleted are in a red-black tree that is
sorted.
-/

namespace Night.RbTree

open Night.RedBlack (toList_plug before_eq_nil)
open Night.RedBlack.Tree (toList)
open Rbtree

/-- The nodes that are in the tree, with their keys. -/
abbrev Live := List (Address × BitVec 64)

variable {insert : InsertPt} {s s' : Rbtree (BitVec 64)} {live : Live} {t : RedBlack.Tree Address}
  {sentinel : Address}

/-- Timers need keys whose differences fit, another function an order. -/
def InsertPt.Orders : InsertPt → List (BitVec 64) → Prop
  | .timerValue, keys => ∀ x ∈ keys, ∀ y ∈ keys,
      -2 ^ 63 ≤ x.toInt - y.toInt ∧ x.toInt - y.toInt < 2 ^ 63
  | .value less, keys => Compares less keys

/-- An operation may be called. -/
def Allowed (insert : InsertPt) (sentinel : Address) (live : Live) : Op → Prop
  | .insert node key => node ≠ sentinel ∧ node ∉ live.map Prod.fst ∧
      insert.Orders (key :: live.map Prod.snd)
  | .delete node => node ∈ live.map Prod.fst

def liveAfter (live : Live) : Op → Live
  | .insert node key => (node, key) :: live
  | .delete node => live.filter fun entry => entry.1 ≠ node

def AllAllowed (insert : InsertPt) (sentinel : Address) : Live → List Op → Prop
  | _, [] => True
  | live, op :: ops =>
      Allowed insert sentinel live op ∧ AllAllowed insert sentinel (liveAfter live op) ops

/-- The tree of the nodes that are in it, and `night_rbtree_min`. -/
structure Valid (insert : InsertPt) (s : Rbtree (BitVec 64)) (live : Live)
    (t : RedBlack.Tree Address) : Prop where
  represents : Represents insert.less s t
  members : t.toList.Perm (live.map Prod.fst)
  keys : ∀ entry ∈ live, s.key entry.1 = entry.2
  min : ∀ fuel, t.toList.length ≤ fuel → t ≠ .nil → nightRbtreeMin fuel s.root s = t.toList.head?

/-! ## Orders -/

/-- Where the difference fits, keys of timers are compared as integers. -/
theorem timerLess_eq {x y : BitVec 64}
    (hfits : -2 ^ 63 ≤ x.toInt - y.toInt ∧ x.toInt - y.toInt < 2 ^ 63) :
    timerLess x y = decide (x.toInt < y.toInt) := by
  have hsub : (x - y).toInt = x.toInt - y.toInt := by
    rw [BitVec.toInt_sub]
    apply Int.bmod_eq_of_le
    · exact hfits.1
    · exact hfits.2
  have hzero : (0 : BitVec 64).toInt = 0 := rfl
  rw [timerLess, BitVec.slt, hsub, hzero]
  apply decide_eq_decide.mpr
  exact sub_neg

theorem InsertPt.Orders.compares {keys : List (BitVec 64)} (horders : insert.Orders keys) :
    Compares insert.less keys := by
  cases insert with
  | value less => exact horders
  | timerValue =>
      have hless : ∀ x ∈ keys, ∀ y ∈ keys, timerLess x y = decide (x.toInt < y.toInt) :=
        fun x hx y hy => timerLess_eq (horders x hx y hy)
      constructor
      · intro x hx y hy hxy
        change timerLess x y = true at hxy
        change timerLess y x = false
        rw [hless x hx y hy, decide_eq_true_iff] at hxy
        rw [hless y hy x hx, decide_eq_false_iff_not]
        omega
      · intro x hx y hy z hz hyx hzy
        change timerLess y x = false at hyx
        change timerLess z y = false at hzy
        change timerLess z x = false
        rw [hless y hy x hx, decide_eq_false_iff_not] at hyx
        rw [hless z hz y hy, decide_eq_false_iff_not] at hzy
        rw [hless z hz x hx, decide_eq_false_iff_not]
        omega

/-! ## Steps -/

theorem represents_init (insert : InsertPt) (sentinel : Address) (s : Rbtree (BitVec 64)) :
    Represents insert.less (nightRbtreeInit sentinel s) .nil where
  at_ := ⟨rfl, trivial, List.nodup_nil, if_pos rfl⟩
  lawful := ⟨rfl, trivial, 0, rfl⟩
  sorted := List.Pairwise.nil

/-- A node that is in no tree gets a key. -/
theorem Represents.setKey {less : BitVec 64 → BitVec 64 → Bool} (h : Represents less s t)
    {node : Address} (hnode : node ∉ t.toList) (key : BitVec 64) :
    Represents less (Rbtree.setKey node key s) t where
  at_ := h.at_.congr rfl rfl rfl fun x _ => ⟨fun _ => rfl, rfl, rfl⟩
  lawful := h.lawful
  sorted := by
    apply h.sorted.congr
    intro x hx
    apply Function.update_of_ne
    rintro rfl
    exact hnode hx

/-- The first node of the order. -/
theorem nightRbtreeMin_head {less : BitVec 64 → BitVec 64 → Bool} (h : Represents less s t)
    {fuel : ℕ} (hfuel : t.toList.length ≤ fuel) (ht : t ≠ .nil) :
    nightRbtreeMin fuel s.root s = t.toList.head? := by
  have hroot : s.root = rootOf s.sentinel t := h.at_.around
  obtain ⟨inner, red, y, right, hmin, heq, hsides⟩ := nightRbtreeMin_spec h.at_.rep ht hfuel
  rw [hroot, hmin, heq, toList_plug, before_eq_nil hsides]
  rfl

/-- What is kept besides the tree. -/
structure Inv (insert : InsertPt) (sentinel : Address) (s : Rbtree (BitVec 64)) (live : Live)
    (t : RedBlack.Tree Address) : Prop where
  represents : Represents insert.less s t
  members : t.toList.Perm (live.map Prod.fst)
  keys : ∀ entry ∈ live, s.key entry.1 = entry.2
  sentinel : s.sentinel = sentinel

theorem Inv.valid (h : Inv insert sentinel s live t) : Valid insert s live t :=
  ⟨h.represents, h.members, h.keys, fun _ hfuel ht => nightRbtreeMin_head h.represents hfuel ht⟩

theorem step_insert (h : Inv insert sentinel s live t) {node : Address} {key : BitVec 64}
    (hallowed : Allowed insert sentinel live (.insert node key)) {fuel : ℕ}
    (hfuel : live.length < fuel) :
    ∃ s' t', step insert fuel s (.insert node key) = some s' ∧
      Inv insert sentinel s' ((node, key) :: live) t' := by
  obtain ⟨hne, hnode, horders⟩ := hallowed
  have hout : node ∉ t.toList := fun hin => hnode (h.members.mem_iff.mp hin)
  have hset := h.represents.setKey hout key
  have hkey : ∀ x ≠ node, (setKey node key s).key x = s.key x :=
    fun x hx => Function.update_of_ne hx _ _
  have hself : (setKey node key s).key node = key := Function.update_self _ _ _
  have hcompares : Compares insert.less
      ((setKey node key s).key node :: t.toList.map (setKey node key s).key) := by
    apply horders.compares.mono
    intro k hk
    rw [hself] at hk
    rcases List.mem_cons.mp hk with rfl | hk
    · exact List.mem_cons_self
    · obtain ⟨x, hx, rfl⟩ := List.mem_map.mp hk
      obtain ⟨entry, hentry, rfl⟩ := List.mem_map.mp (h.members.mem_iff.mp hx)
      have hxne : entry.1 ≠ node := by
        rintro heq
        exact hout (heq ▸ hx)
      rw [hkey _ hxne, h.keys entry hentry]
      exact List.mem_cons_of_mem _ (List.mem_map_of_mem hentry)
  have hlength : t.toList.length < fuel := by
    rw [h.members.length_eq, List.length_map]
    exact hfuel
  obtain ⟨s', t', hinsert, hrepresents, hperm, hkeys⟩ :=
    nightRbtreeInsert_spec hset hout (h.sentinel.symm ▸ hne) hcompares hlength
  refine ⟨s', t', hinsert, hrepresents, ?_, ?_, hkeys.sentinel.trans h.sentinel⟩
  · exact hperm.trans (List.Perm.cons node h.members)
  · intro entry hentry
    rw [hkeys.key]
    rcases List.mem_cons.mp hentry with rfl | hentry
    · exact hself
    · have hmem : entry.1 ∈ live.map Prod.fst := List.mem_map_of_mem hentry
      rw [hkey entry.1 fun heq => hnode (heq ▸ hmem), h.keys entry hentry]

theorem step_delete (h : Inv insert sentinel s live t) {node : Address}
    (hallowed : Allowed insert sentinel live (.delete node)) {fuel : ℕ}
    (hfuel : live.length + 1 < fuel) :
    ∃ s' t', step insert fuel s (.delete node) = some s' ∧
      Inv insert sentinel s' (liveAfter live (.delete node)) t' := by
  have hin : node ∈ t.toList := h.members.mem_iff.mpr hallowed
  have hlength : t.toList.length + 1 < fuel := by
    rw [h.members.length_eq, List.length_map]
    exact hfuel
  obtain ⟨s', t', hdelete, hrepresents, hperm, hsentinel, hkey⟩ :=
    nightRbtreeDelete_spec h.represents hin hlength
  have hnodup : (live.map Prod.fst).Nodup := h.members.nodup_iff.mp h.represents.at_.nodup
  refine ⟨s', t', hdelete, hrepresents, ?_, ?_, hsentinel.trans h.sentinel⟩
  · have hfilter : (liveAfter live (.delete node)).map Prod.fst =
        (live.map Prod.fst).erase node := by
      rw [hnodup.erase_eq_filter, List.filter_map]
      congr 1
      apply List.filter_congr
      intro entry _
      simp only [Function.comp_apply, ne_eq, bne, decide_not, beq_eq_decide]
    rw [hfilter]
    have hrest := (hperm.symm.trans h.members).erase node
    rwa [List.erase_cons_head] at hrest
  · intro entry hentry
    obtain ⟨hlive, hne⟩ := List.mem_filter.mp hentry
    rw [hkey entry.1 (of_decide_eq_true hne), h.keys entry hlive]

/-! ## Runs -/

theorem Inv.init (insert : InsertPt) (sentinel : Address) (s : Rbtree (BitVec 64)) :
    Inv insert sentinel (nightRbtreeInit sentinel s) [] .nil where
  represents := represents_init insert sentinel s
  members := List.Perm.refl _
  keys := fun _ hentry => absurd hentry List.not_mem_nil
  sentinel := rfl

/-- The nodes that are in the tree after a run. -/
def liveAfterAll (live : Live) (ops : List Op) : Live :=
  ops.foldl liveAfter live

theorem length_liveAfter_le (live : Live) (op : Op) :
    (liveAfter live op).length ≤ live.length + 1 := by
  cases op with
  | insert => exact le_of_eq List.length_cons
  | delete node =>
      have hfilter : (liveAfter live (.delete node)).length ≤ live.length :=
        List.length_filter_le _ live
      exact hfilter.trans (Nat.le_succ _)

theorem step_inv (h : Inv insert sentinel s live t) {op : Op}
    (hallowed : Allowed insert sentinel live op) {fuel : ℕ} (hfuel : live.length + 1 < fuel) :
    ∃ s' t', step insert fuel s op = some s' ∧ Inv insert sentinel s' (liveAfter live op) t' := by
  cases op with
  | insert node key => exact step_insert h hallowed (by omega)
  | delete node => exact step_delete h hallowed hfuel

theorem run_inv {fuel : ℕ} {ops : List Op} (h : Inv insert sentinel s live t)
    (hallowed : AllAllowed insert sentinel live ops) (hfuel : live.length + ops.length < fuel) :
    ∃ s' t', run insert fuel ops s = some s' ∧
      Inv insert sentinel s' (liveAfterAll live ops) t' := by
  induction ops generalizing s live t with
  | nil => exact ⟨s, t, rfl, h⟩
  | cons op ops ih =>
      rw [List.length_cons] at hfuel
      have hnext : live.length + 1 < fuel := by omega
      obtain ⟨s', t', hstep, h'⟩ := step_inv h hallowed.1 hnext
      have hlength := length_liveAfter_le live op
      obtain ⟨s'', t'', hrun, h''⟩ := ih h' hallowed.2 (by omega)
      refine ⟨s'', t'', ?_, h''⟩
      rw [run, hstep]
      exact hrun

/-- After any run from the empty tree. -/
theorem run_nightRbtreeInit_valid (insert : InsertPt) (sentinel : Address)
    (memory : Rbtree (BitVec 64)) {ops : List Op} (hallowed : AllAllowed insert sentinel [] ops)
    {fuel : ℕ} (hfuel : ops.length + 1 < fuel) :
    ∃ s t, run insert fuel ops (nightRbtreeInit sentinel memory) = some s ∧
      Valid insert s (liveAfterAll [] ops) t := by
  have hinit := Inv.init insert sentinel memory
  have hlength : ([] : Live).length + ops.length < fuel := by
    rw [List.length_nil]
    omega
  obtain ⟨s, t, hrun, h⟩ := run_inv hinit hallowed hlength
  exact ⟨s, t, hrun, h.valid⟩

/-- Two timers of one key, and one that is deleted. -/
theorem run_nightRbtreeInit_valid_timers :
    ∃ s t, run .timerValue 7 [.insert 1 5, .insert 2 3, .insert 3 5, .delete 1]
        (nightRbtreeInit 9 ⟨fun _ => 0, fun _ _ => 0, fun _ => 0, fun _ => true, 0, 0⟩) = some s ∧
      Valid .timerValue s [(3, 5), (2, 3)] t := by
  have hsmall : ∀ x ∈ [(5 : BitVec 64), 3], 0 ≤ x.toInt ∧ x.toInt ≤ 5 := by
    simp only [List.forall_mem_cons, List.not_mem_nil, IsEmpty.forall_iff, implies_true, and_true]
    exact ⟨⟨by decide, by decide⟩, by decide, by decide⟩
  have horders {keys : List (BitVec 64)} (hkeys : keys ⊆ [5, 3]) :
      InsertPt.Orders .timerValue keys := by
    intro x hx y hy
    have hx' := hsmall x (hkeys hx)
    have hy' := hsmall y (hkeys hy)
    omega
  have hdelete : (1 : Address) ∈ [3, 2, 1] := by decide
  have hallowed : AllAllowed .timerValue 9 []
      [.insert 1 5, .insert 2 3, .insert 3 5, .delete 1] :=
    ⟨⟨by decide, by decide, horders (by decide)⟩, ⟨by decide, by decide, horders (by decide)⟩,
      ⟨by decide, by decide, horders (by decide)⟩, hdelete, trivial⟩
  exact run_nightRbtreeInit_valid .timerValue 9 _ hallowed (by decide)

end Night.RbTree
