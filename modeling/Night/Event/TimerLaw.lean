import Mathlib.Algebra.Order.Group.Int
import Night.Core.RbTreeRuns
import Night.Event.Timer

/-!
# Runs of timers

The events in the tree are those with a deadline that was asked for and not deleted, and a
key in the tree is near the deadline that was asked for last.
-/

namespace Night.EventTimer

open Night.RbTree
open Night.RbTree.Rbtree
open Night.RedBlack.Tree (toList)

variable {s s' : Timers} {r : Requested} {t : RedBlack.Tree Address} {clock : List (BitVec 64)}
  {ev : Address}

/-! ## Differences -/

theorem Fits.toInt_sub (hfits : Fits clock) {x y : BitVec 64} (hx : x ∈ clock) (hy : y ∈ clock) :
    (x - y).toInt = x.toInt - y.toInt := by
  have hbelow := hfits x hx y hy
  have habove := hfits y hy x hx
  rw [BitVec.toInt_sub]
  apply Int.bmod_eq_of_le
  · omega
  · omega

theorem Fits.orders (hfits : Fits clock) {keys : List (BitVec 64)} (hkeys : keys ⊆ clock) :
    InsertPt.Orders .timerValue keys := by
  intro x hx y hy
  have hbelow := hfits x (hkeys hx) y (hkeys hy)
  have habove := hfits y (hkeys hy) x (hkeys hx)
  omega

theorem nightAbs_toInt {diff : BitVec 64} (hdiff : -2 ^ 63 < diff.toInt) :
    (nightAbs diff).toInt = diff.toInt.natAbs := by
  have hlt : diff.toInt < 2 ^ 63 := BitVec.toInt_lt
  have hzero : (0#64).toInt = 0 := rfl
  rw [nightAbs]
  split
  · rename_i hneg
    rw [BitVec.slt_iff_toInt_lt, hzero] at hneg
    have hbmod : (-diff.toInt).bmod (2 ^ 64) = -diff.toInt := by
      apply Int.bmod_eq_of_le
      · omega
      · omega
    rw [BitVec.toInt_neg, hbmod]
    omega
  · rename_i hneg
    rw [BitVec.slt_iff_toInt_lt, hzero] at hneg
    omega

/-- The shortcut is taken where the keys are near as integers. -/
theorem Fits.lazy_iff (hfits : Fits clock) {x y : BitVec 64} (hx : x ∈ clock) (hy : y ∈ clock) :
    (nightAbs (x - y)).slt nightTimerLazyDelay = true ↔ (x.toInt - y.toInt).natAbs < 600 := by
  have habove := hfits y hy x hx
  have hsub := hfits.toInt_sub hx hy
  have hdelay : nightTimerLazyDelay.toInt = 600 := rfl
  rw [BitVec.slt_iff_toInt_lt, nightAbs_toInt (by omega), hsub, hdelay]
  omega

/-! ## Nodes that are in no tree -/

theorem represents_clear {less : BitVec 64 → BitVec 64 → Bool} {rbtree : Rbtree (BitVec 64)}
    (h : Represents less rbtree t) (hev : ev ∉ t.toList) :
    Represents less (setParent ev null (setChild .right ev null (setChild .left ev null
      (setKey ev 0 rbtree)))) t := by
  have hset := h.setKey hev 0
  have hsame : ∀ x ∈ t.toList, Same (setKey ev 0 rbtree) (setParent ev null
      (setChild .right ev null (setChild .left ev null (setKey ev 0 rbtree)))) x := by
    intro x hx
    have hne : x ≠ ev := by
      rintro rfl
      exact hev hx
    exact ((Same.setChild hne).trans (Same.setChild hne)).trans (Same.setParent hne)
  refine ⟨?_, h.lawful, hset.sorted.congr ?_⟩
  · refine hset.at_.congr ?_ ?_ ?_ hsame
    · rfl
    · rfl
    · rfl
  · exact fun x hx => rfl

/-! ## Steps -/

/-- What holds of the timers after some requests. -/
structure Inv (clock : List (BitVec 64)) (s : Timers) (r : Requested) (t : RedBlack.Tree Address) :
    Prop where
  represents : Represents timerLess s.rbtree t
  sentinel : s.rbtree.sentinel = s.sentinel
  timerSet : ∀ ev, s.timerSet ev = true ↔ ev ∈ t.toList
  requested : ∀ ev, ev ∈ t.toList ↔ (r.deadline ev).isSome = true
  now : s.currentMsec = r.now
  near : ∀ ev deadline, r.deadline ev = some deadline →
    ((s.rbtree.key ev).toInt - deadline.toInt).natAbs < 600
  keys : ∀ ev ∈ t.toList, s.rbtree.key ev ∈ clock

theorem nightEventDelTimer_inv (h : Inv clock s r t) (hev : ev ∈ t.toList) {fuel : ℕ}
    (hfuel : t.toList.length + 1 < fuel) :
    ∃ s' t', nightEventDelTimer fuel ev s = some s' ∧ Inv clock s' (r.step (.delTimer ev)) t' ∧
      t.toList.Perm (ev :: t'.toList) ∧ s'.sentinel = s.sentinel := by
  obtain ⟨rbtree, t', hdelete, hrepresents, hperm, hsentinel, hkey⟩ :=
    nightRbtreeDelete_spec h.represents hev hfuel
  have hnodup := hperm.nodup_iff.mp h.represents.at_.nodup
  have hnot : ev ∉ t'.toList := (List.nodup_cons.mp hnodup).1
  have hmem : ∀ x, x ∈ t'.toList ↔ x ∈ t.toList ∧ x ≠ ev := by
    intro x
    rw [hperm.mem_iff, List.mem_cons]
    constructor
    · intro hx
      exact ⟨Or.inr hx, fun heq => hnot (heq ▸ hx)⟩
    · rintro ⟨heq | hx, hne⟩
      · exact absurd heq hne
      · exact hx
  have hkey' : ∀ x ≠ ev, (setKey ev 0 rbtree).key x = s.rbtree.key x := by
    intro x hx
    rw [← hkey x hx]
    exact Function.update_of_ne hx _ _
  refine ⟨{ s with
    rbtree := setParent ev null (setChild .right ev null (setChild .left ev null
      (setKey ev 0 rbtree)))
    timerSet := Function.update s.timerSet ev false }, t', ?_,
    ⟨represents_clear hrepresents hnot, hsentinel.trans h.sentinel, ?_, ?_, h.now, ?_, ?_⟩,
    hperm, rfl⟩
  · rw [nightEventDelTimer, hdelete]
    rfl
  · intro x
    change Function.update s.timerSet ev false x = true ↔ _
    by_cases hx : x = ev
    · rw [hx, Function.update_self]
      exact iff_of_false Bool.false_ne_true hnot
    · rw [Function.update_of_ne hx, h.timerSet, hmem]
      exact (and_iff_left hx).symm
  · intro x
    change _ ↔ (Function.update r.deadline ev none x).isSome = true
    by_cases hx : x = ev
    · rw [hx, Function.update_self]
      exact iff_of_false hnot Bool.false_ne_true
    · rw [Function.update_of_ne hx, ← h.requested, hmem]
      exact and_iff_left hx
  · intro x deadline hdeadline
    change Function.update r.deadline ev none x = _ at hdeadline
    have hx : x ≠ ev := by
      rintro rfl
      rw [Function.update_self] at hdeadline
      cases hdeadline
    rw [Function.update_of_ne hx] at hdeadline
    change (((setKey ev 0 rbtree).key x).toInt - _).natAbs < 600
    rw [hkey' x hx]
    exact h.near x deadline hdeadline
  · intro x hx
    have hx' := (hmem x).mp hx
    change (setKey ev 0 rbtree).key x ∈ clock
    rw [hkey' x hx'.2]
    exact h.keys x hx'.1

/-- An event whose timer is not set gets one. -/
theorem insert_inv (hfits : Fits clock) (h : Inv clock s r t) {timer key : BitVec 64}
    (hev : ev ∉ t.toList) (hne : ev ≠ s.sentinel) (hdeadline : key = r.now + timer)
    (htime : key ∈ clock) {fuel : ℕ} (hfuel : t.toList.length < fuel) :
    ∃ rbtree t', nightRbtreeInsert InsertPt.timerValue.less fuel ev
        (setKey ev key s.rbtree) = some rbtree ∧
      Inv clock { s with rbtree := rbtree, timerSet := Function.update s.timerSet ev true }
        (r.step (.addTimer ev timer)) t' ∧
      t'.toList.Perm (ev :: t.toList) := by
  subst hdeadline
  have hset := h.represents.setKey hev (r.now + timer)
  have hself : (setKey ev (r.now + timer) s.rbtree).key ev = r.now + timer :=
    Function.update_self _ _ _
  have hother : ∀ x ≠ ev, (setKey ev (r.now + timer) s.rbtree).key x = s.rbtree.key x :=
    fun x hx => Function.update_of_ne hx _ _
  have hkeys : ∀ x ∈ ev :: t.toList, (setKey ev (r.now + timer) s.rbtree).key x ∈ clock := by
    intro x hx
    rcases List.mem_cons.mp hx with rfl | hx
    · rwa [hself]
    · rw [hother x fun heq => hev (heq ▸ hx)]
      exact h.keys x hx
  have hcompares : Compares timerLess ((setKey ev (r.now + timer) s.rbtree).key ev ::
      t.toList.map (setKey ev (r.now + timer) s.rbtree).key) := by
    have hsub : (ev :: t.toList).map (setKey ev (r.now + timer) s.rbtree).key ⊆ clock := by
      intro k hk
      obtain ⟨x, hx, rfl⟩ := List.mem_map.mp hk
      exact hkeys x hx
    exact (hfits.orders hsub).compares
  obtain ⟨rbtree, t', hinsert, hrepresents, hperm, hsame⟩ :=
    nightRbtreeInsert_spec hset hev (h.sentinel ▸ hne) hcompares hfuel
  have hkey : rbtree.key = (setKey ev (r.now + timer) s.rbtree).key := hsame.key
  refine ⟨rbtree, t', hinsert, ⟨hrepresents, hsame.sentinel.trans h.sentinel, ?_, ?_, h.now, ?_,
    ?_⟩, hperm⟩
  · intro x
    change Function.update s.timerSet ev true x = true ↔ _
    rw [hperm.mem_iff, List.mem_cons, Function.update_apply]
    split
    · rename_i hx
      exact iff_of_true rfl (Or.inl hx)
    · rename_i hx
      rw [h.timerSet]
      exact (or_iff_right hx).symm
  · intro x
    change _ ↔ (Function.update r.deadline ev (some (r.now + timer)) x).isSome = true
    rw [hperm.mem_iff, List.mem_cons, Function.update_apply]
    split
    · rename_i hx
      exact iff_of_true (Or.inl hx) rfl
    · rename_i hx
      rw [← h.requested]
      exact or_iff_right hx
  · intro x deadline hdeadline
    change Function.update r.deadline ev (some (r.now + timer)) x = _ at hdeadline
    change ((rbtree.key x).toInt - _).natAbs < 600
    rw [hkey]
    by_cases hx : x = ev
    · rw [hx, Function.update_self, Option.some.injEq] at hdeadline
      rw [hx, hself, hdeadline, Int.sub_self]
      decide
    · rw [Function.update_of_ne hx] at hdeadline
      rw [hother x hx]
      exact h.near x deadline hdeadline
  · intro x hx
    change rbtree.key x ∈ clock
    rw [hkey]
    exact hkeys x (hperm.mem_iff.mp hx)

/-- The timer stays where its key is near the deadline. -/
theorem inv_lazy (hfits : Fits clock) (h : Inv clock s r t) {timer : BitVec 64}
    (hset : s.timerSet ev = true) (htime : r.now + timer ∈ clock)
    (hlazy : (nightAbs (s.currentMsec + timer - s.rbtree.key ev)).slt nightTimerLazyDelay = true) :
    Inv clock s (r.step (.addTimer ev timer)) t := by
  have hev : ev ∈ t.toList := (h.timerSet ev).mp hset
  refine ⟨h.represents, h.sentinel, h.timerSet, ?_, h.now, ?_, h.keys⟩
  · intro x
    change _ ↔ (Function.update r.deadline ev (some (r.now + timer)) x).isSome = true
    rw [Function.update_apply]
    split
    · rename_i hx
      exact iff_of_true (hx ▸ hev) rfl
    · exact h.requested x
  · intro x deadline hdeadline
    change Function.update r.deadline ev (some (r.now + timer)) x = _ at hdeadline
    by_cases hx : x = ev
    · rw [hx, Function.update_self, Option.some.injEq] at hdeadline
      rw [h.now, hfits.lazy_iff htime (h.keys ev hev), hdeadline] at hlazy
      rw [hx]
      omega
    · rw [Function.update_of_ne hx] at hdeadline
      exact h.near x deadline hdeadline

theorem Requested.step_delTimer_addTimer (r : Requested) (ev : Address) (timer : BitVec 64) :
    (r.step (.delTimer ev)).step (.addTimer ev timer) = r.step (.addTimer ev timer) := by
  simp only [Requested.step, Function.update_idem]

theorem nightEventAddTimer_inv (hfits : Fits clock) (h : Inv clock s r t) {timer : BitVec 64}
    (hne : ev ≠ s.sentinel) (htime : r.now + timer ∈ clock) {fuel : ℕ}
    (hfuel : t.toList.length + 1 < fuel) :
    ∃ s' t', nightEventAddTimer fuel ev timer s = some s' ∧
      Inv clock s' (r.step (.addTimer ev timer)) t' ∧
      t'.toList.length ≤ t.toList.length + 1 ∧ s'.sentinel = s.sentinel := by
  have hkey : s.currentMsec + timer = r.now + timer := by rw [h.now]
  rw [nightEventAddTimer]
  by_cases hset : s.timerSet ev = true
  · by_cases hlazy : (nightAbs (s.currentMsec + timer - s.rbtree.key ev)).slt
        nightTimerLazyDelay = true
    · refine ⟨s, t, if_pos ⟨hset, hlazy⟩, inv_lazy hfits h hset htime hlazy, ?_, rfl⟩
      exact Nat.le_succ _
    · obtain ⟨s₁, t₁, hdelete, h₁, hperm, hsentinel⟩ :=
        nightEventDelTimer_inv h ((h.timerSet ev).mp hset) hfuel
      have hnodup := hperm.nodup_iff.mp h.represents.at_.nodup
      have hlength : t.toList.length = t₁.toList.length + 1 := hperm.length_eq
      have hfuel₁ : t₁.toList.length < fuel := by omega
      obtain ⟨rbtree, t₂, hinsert, h₂, hperm₂⟩ :=
        insert_inv hfits h₁ (List.nodup_cons.mp hnodup).1 (hsentinel ▸ hne) hkey
          (hkey ▸ htime) hfuel₁
      rw [Requested.step_delTimer_addTimer] at h₂
      have hlength₂ : t₂.toList.length = t₁.toList.length + 1 := hperm₂.length_eq
      refine ⟨_, t₂, ?_, h₂, ?_, hsentinel⟩
      · rw [if_neg fun hboth => hlazy hboth.2, if_pos hset, hdelete]
        simp only [Option.bind_eq_bind, Option.bind_some, hinsert]
      · omega
  · have hev : ev ∉ t.toList := fun hin => hset ((h.timerSet ev).mpr hin)
    have hfuel' : t.toList.length < fuel := by omega
    obtain ⟨rbtree, t', hinsert, h', hperm⟩ :=
      insert_inv hfits h hev hne hkey (hkey ▸ htime) hfuel'
    refine ⟨_, t', ?_, h', le_of_eq hperm.length_eq, rfl⟩
    rw [if_neg fun hboth => hset hboth.1, if_neg hset]
    simp only [Option.bind_eq_bind, Option.bind_some, hinsert]

/-! ## The next timer -/

/-- The waiting time is infinite without timers, or ends with the first of them. -/
theorem nightEventFindTimer_spec (hfits : Fits clock) (h : Inv clock s r t)
    (hnow : r.now ∈ clock) {fuel : ℕ} (hfuel : t.toList.length ≤ fuel) :
    ∃ timer, nightEventFindTimer fuel s = some timer ∧
      (timer = nightTimerInfinite ↔ t.toList = []) ∧
      (t.toList ≠ [] → ∃ ev ∈ t.toList,
        (∀ x ∈ t.toList, (s.rbtree.key ev).toInt ≤ (s.rbtree.key x).toInt) ∧
        timer.toInt = max 0 ((s.rbtree.key ev).toInt - r.now.toInt)) := by
  have hroot : s.rbtree.root = rootOf s.rbtree.sentinel t := h.represents.at_.around
  cases hlist : t.toList with
  | nil =>
      have ht : t = .nil := by
        cases t with
        | nil => rfl
        | node red left a right => exact absurd hlist (by simp [toList])
      subst ht
      refine ⟨nightTimerInfinite, if_pos (hroot.trans h.sentinel), iff_of_true rfl rfl, ?_⟩
      exact fun hne => absurd rfl hne
  | cons ev rest =>
      have ht : t ≠ .nil := by
        rintro rfl
        cases hlist
      have hmin := nightRbtreeMin_head h.represents hfuel ht
      rw [hlist, List.head?_cons] at hmin
      have hev : ev ∈ t.toList := by
        rw [hlist]
        exact List.mem_cons_self
      have hkey := h.keys ev hev
      have hsub := hfits.toInt_sub hkey hnow
      have hzero : (0#64).toInt = 0 := rfl
      have hbranch : s.rbtree.root ≠ s.sentinel := by
        rw [hroot, ← h.sentinel]
        exact h.represents.at_.rootOf_ne_sentinel ht
      have hfound : nightEventFindTimer fuel s =
          some (if (0#64).slt (s.rbtree.key ev - r.now) then s.rbtree.key ev - r.now else 0) := by
        rw [nightEventFindTimer, if_neg hbranch, hmin, ← h.now]
        rfl
      have htoInt : (if (0#64).slt (s.rbtree.key ev - r.now) then s.rbtree.key ev - r.now
          else 0).toInt = max 0 ((s.rbtree.key ev).toInt - r.now.toInt) := by
        split
        · rename_i hpos
          rw [BitVec.slt_iff_toInt_lt, hzero, hsub] at hpos
          rw [hsub, max_eq_right hpos.le]
        · rename_i hpos
          rw [BitVec.slt_iff_toInt_lt, hzero, hsub] at hpos
          rw [max_eq_left (not_lt.mp hpos)]
          rfl
      refine ⟨_, hfound, iff_of_false ?_ (List.cons_ne_nil _ _), fun _ => ⟨ev, ?_, ?_, htoInt⟩⟩
      · intro heq
        have hneg : nightTimerInfinite.toInt = -1 := rfl
        rw [heq, hneg] at htoInt
        omega
      · exact List.mem_cons_self
      · intro x hx
        rcases List.mem_cons.mp hx with rfl | hx
        · exact le_refl _
        · have hx' : x ∈ t.toList := by
            rw [hlist]
            exact List.mem_cons_of_mem _ hx
          have hsorted := h.represents.sorted
          rw [hlist] at hsorted
          have hless := List.rel_of_pairwise_cons hsorted hx
          have hxkey := h.keys x hx'
          have hbelow := hfits _ hxkey _ hkey
          have habove := hfits _ hkey _ hxkey
          rw [timerLess_eq (by omega), decide_eq_false_iff_not, not_lt] at hless
          exact hless

/-! ## Runs -/

/-- A tree of timers, with what was asked for. -/
structure Valid (s : Timers) (r : Requested) (tree : RedBlack.Tree Address) : Prop where
  represents : Represents timerLess s.rbtree tree
  once : tree.toList.Nodup
  timerSet : ∀ ev, s.timerSet ev = true ↔ ev ∈ tree.toList
  requested : ∀ ev, ev ∈ tree.toList ↔ (r.deadline ev).isSome = true
  near : ∀ ev deadline, r.deadline ev = some deadline →
    |(s.rbtree.key ev).toInt - deadline.toInt| < 600
  findTimer : ∀ fuel, tree.toList.length ≤ fuel → ∃ timer, nightEventFindTimer fuel s = some timer ∧
    (timer = nightTimerInfinite ↔ tree.toList = []) ∧
    (tree.toList ≠ [] → ∃ ev ∈ tree.toList,
      (∀ x ∈ tree.toList, (s.rbtree.key ev).toInt ≤ (s.rbtree.key x).toInt) ∧
      timer.toInt = max 0 ((s.rbtree.key ev).toInt - r.now.toInt))

theorem Inv.valid (h : Inv clock s r t) (hfits : Fits clock) (hnow : r.now ∈ clock) :
    Valid s r t where
  represents := h.represents
  once := h.represents.at_.nodup
  timerSet := h.timerSet
  requested := h.requested
  near := by
    intro ev deadline hdeadline
    have hnear := h.near ev deadline hdeadline
    rw [Int.abs_eq_natAbs]
    omega
  findTimer := fun _ hfuel => nightEventFindTimer_spec hfits h hnow hfuel

theorem mem_times (now : BitVec 64) (ops : List Op) : now ∈ times now ops := by
  induction ops with
  | nil => exact List.mem_singleton_self now
  | cons op ops ih =>
      cases op with
      | addTimer ev timer => exact List.mem_cons_of_mem _ ih
      | delTimer ev => exact ih
      | timeUpdate now' => exact List.mem_cons_self

theorem Inv.init (clock : List (BitVec 64)) (sentinel : Address) (memory : Rbtree (BitVec 64))
    (now : BitVec 64) :
    Inv clock (nightEventTimerInit sentinel memory now) ⟨now, fun _ => none⟩ .nil where
  represents := represents_init .timerValue sentinel memory
  sentinel := rfl
  timerSet := fun _ => iff_of_false Bool.false_ne_true List.not_mem_nil
  requested := fun _ => iff_of_false List.not_mem_nil Bool.false_ne_true
  now := rfl
  near := fun _ _ hdeadline => nomatch hdeadline
  keys := fun _ hev => absurd hev List.not_mem_nil

theorem step_inv (hfits : Fits clock) (h : Inv clock s r t) {op : Op} {ops : List Op}
    (hclock : times r.now (op :: ops) ⊆ clock) (hapart : op.Apart s.sentinel) {fuel : ℕ}
    (hfuel : t.toList.length + 1 < fuel) :
    ∃ s' t', step fuel s op = some s' ∧ Inv clock s' (r.step op) t' ∧
      t'.toList.length ≤ t.toList.length + 1 ∧ s'.sentinel = s.sentinel ∧
      times (r.step op).now ops ⊆ clock := by
  cases op with
  | addTimer ev timer =>
      obtain ⟨htime, hrest⟩ := List.cons_subset.mp hclock
      obtain ⟨s', t', hadd, h', hlength, hsentinel⟩ :=
        nightEventAddTimer_inv hfits h hapart htime hfuel
      exact ⟨s', t', hadd, h', hlength, hsentinel, hrest⟩
  | delTimer ev =>
      by_cases hset : s.timerSet ev = true
      · obtain ⟨s', t', hdelete, h', hperm, hsentinel⟩ :=
          nightEventDelTimer_inv h ((h.timerSet ev).mp hset) hfuel
        have hlength : t.toList.length = t'.toList.length + 1 := hperm.length_eq
        exact ⟨s', t', (if_pos hset).trans hdelete, h', by omega, hsentinel, hclock⟩
      · have hnone : r.deadline ev = none := by
          have hnot := fun hsome => hset ((h.timerSet ev).mpr ((h.requested ev).mpr hsome))
          exact Option.not_isSome_iff_eq_none.mp hnot
        have hsame : r.step (.delTimer ev) = r := by
          have hupdate : Function.update r.deadline ev none = r.deadline := by
            rw [← hnone, Function.update_eq_self]
          rw [Requested.step, hupdate]
        refine ⟨s, t, if_neg hset, ?_, Nat.le_succ _, rfl, hclock⟩
        rw [hsame]
        exact h
  | timeUpdate now =>
      exact ⟨_, t, rfl, ⟨h.represents, h.sentinel, h.timerSet, h.requested, rfl, h.near, h.keys⟩,
        Nat.le_succ _, rfl, (List.cons_subset.mp hclock).2⟩

theorem run_inv (hfits : Fits clock) {ops : List Op} (h : Inv clock s r t)
    (hclock : times r.now ops ⊆ clock) (hapart : ∀ op ∈ ops, op.Apart s.sentinel) {fuel : ℕ}
    (hfuel : t.toList.length + ops.length < fuel) :
    ∃ s' t', run fuel ops s = some s' ∧ Inv clock s' (ops.foldl Requested.step r) t' ∧
      (ops.foldl Requested.step r).now ∈ clock := by
  induction ops generalizing s r t with
  | nil => exact ⟨s, t, rfl, h, hclock (mem_times r.now [])⟩
  | cons op ops ih =>
      rw [List.length_cons] at hfuel
      have hroom : t.toList.length + 1 < fuel := by omega
      obtain ⟨hop, hops⟩ := List.forall_mem_cons.mp hapart
      obtain ⟨s₁, t₁, hstep, h₁, hlength, hsentinel, hclock₁⟩ := step_inv hfits h hclock hop hroom
      rw [← hsentinel] at hops
      obtain ⟨s₂, t₂, hrun, h₂, hnow⟩ := ih h₁ hclock₁ hops (by omega)
      refine ⟨s₂, t₂, ?_, h₂, hnow⟩
      rw [run, hstep]
      exact hrun

/-- The timers after any run. -/
theorem run_nightEventTimerInit_valid (sentinel : Address) (memory : Rbtree (BitVec 64))
    (now : BitVec 64) {ops : List Op} (hfits : Fits (times now ops))
    (hapart : ∀ op ∈ ops, op.Apart sentinel) {fuel : ℕ} (hfuel : ops.length < fuel) :
    ∃ s tree, run fuel ops (nightEventTimerInit sentinel memory now) = some s ∧
      Valid s (ops.foldl Requested.step ⟨now, fun _ => none⟩) tree := by
  have hinit := Inv.init (times now ops) sentinel memory now
  have hlength : (RedBlack.Tree.nil : RedBlack.Tree Address).toList.length + ops.length < fuel := by
    rw [toList, List.length_nil]
    omega
  obtain ⟨s, tree, hrun, h, hnow⟩ :=
    run_inv hfits hinit (List.Subset.refl _) hapart hlength
  exact ⟨s, tree, hrun, h.valid hfits hnow⟩

/-- A timer that is asked for again twice, the second time too far from its key. -/
theorem run_nightEventTimerInit_valid_lazy :
    ∃ s tree, run 6 [.addTimer 1 1000, .timeUpdate 500, .addTimer 1 1000, .timeUpdate 900,
        .addTimer 1 1000]
        (nightEventTimerInit 9 ⟨fun _ => 0, fun _ _ => 0, fun _ => 0, fun _ => true, 0, 0⟩ 0) =
          some s ∧
      Valid s ⟨900, fun ev => if ev = 1 then some 1900 else none⟩ tree := by
  have hfits : Fits (times 0 [.addTimer 1 1000, .timeUpdate 500, .addTimer 1 1000,
      .timeUpdate 900, .addTimer 1 1000]) := by
    have hsmall : ∀ x ∈ [(1000 : BitVec 64), 0, 1500, 500, 1900, 900],
        0 ≤ x.toInt ∧ x.toInt ≤ 1900 := by
      simp only [List.forall_mem_cons, List.not_mem_nil, IsEmpty.forall_iff, implies_true,
        and_true]
      decide
    intro x hx y hy
    have hx' := hsmall x hx
    have hy' := hsmall y hy
    omega
  have hapart : ∀ op ∈ [Op.addTimer 1 1000, .timeUpdate 500, .addTimer 1 1000,
      .timeUpdate 900, .addTimer 1 1000], op.Apart 9 := by
    simp [Op.Apart]
  have hfuel : [Op.addTimer 1 1000, .timeUpdate 500, .addTimer 1 1000, .timeUpdate 900,
      .addTimer 1 1000].length < 6 := by decide
  obtain ⟨s, tree, hrun, hvalid⟩ := run_nightEventTimerInit_valid 9
    ⟨fun _ => 0, fun _ _ => 0, fun _ => 0, fun _ => true, 0, 0⟩ 0 hfits hapart hfuel
  refine ⟨s, tree, hrun, ?_⟩
  have hrequested : [Op.addTimer 1 1000, .timeUpdate 500, .addTimer 1 1000, .timeUpdate 900,
      .addTimer 1 1000].foldl Requested.step ⟨0, fun _ => none⟩ =
      ⟨900, fun ev => if ev = 1 then some 1900 else none⟩ := by
    simp only [List.foldl_cons, List.foldl_nil, Requested.step, Function.update_idem]
    congr 1
    funext ev
    rw [Function.update_apply]
    rfl
  rw [hrequested] at hvalid
  exact hvalid

end Night.EventTimer
