import Mathlib.Data.List.Sort
import Mathlib.Data.Int.Notation

/-!
# `night_queue_t`

A queue is the list of its elements without the sentinel.  Sorting walks back from each
element to where it belongs; the middle is found with two pointers, one of them twice as
fast.
-/

namespace Night.Queue

variable {α : Type*}

/-! ## Sorting -/

/-- The inner loop of `night_queue_sort`: `sorted` are the elements before `q`, the last
one first. -/
def insertBack (cmp : α → α → ℤ) (q : α) : List α → List α
  | [] => [q]
  | prev :: sorted =>
      if cmp prev q ≤ 0 then q :: prev :: sorted else prev :: insertBack cmp q sorted

def nightQueueSort (cmp : α → α → ℤ) (queue : List α) : List α :=
  (queue.foldl (fun sorted q => insertBack cmp q sorted) []).reverse

variable {cmp : α → α → ℤ} {before : α → α → Prop} {queue sorted : List α}

theorem insertBack_perm (q : α) (sorted : List α) :
    (insertBack cmp q sorted).Perm (q :: sorted) := by
  induction sorted with
  | nil => rfl
  | cons prev sorted ih =>
      rw [insertBack]
      by_cases hle : cmp prev q ≤ 0
      · rw [if_pos hle]
      · rw [if_neg hle]
        exact (ih.cons prev).trans (List.Perm.swap q prev sorted)

/-- The comparison decides an order on the elements that satisfy `p`. -/
structure Decides (cmp : α → α → ℤ) (before : α → α → Prop) (p : α → Prop) : Prop where
  nonpos : ∀ {a b}, p a → p b → cmp a b ≤ 0 → before a b
  pos : ∀ {a b}, p a → p b → ¬ cmp a b ≤ 0 → before b a
  trans : ∀ {a b c}, before a b → before b c → before a c

variable {p : α → Prop}

theorem pairwise_insertBack (hdecides : Decides cmp before p) {q : α} (hq : p q)
    (hp : ∀ a ∈ sorted, p a) (hsorted : sorted.Pairwise fun a b => before b a) :
    (insertBack cmp q sorted).Pairwise fun a b => before b a := by
  induction sorted with
  | nil => exact List.pairwise_singleton _ _
  | cons prev sorted ih =>
      obtain ⟨hprev, hrest⟩ := List.pairwise_cons.mp hsorted
      have hpPrev : p prev := hp prev List.mem_cons_self
      rw [insertBack]
      by_cases hle : cmp prev q ≤ 0
      · rw [if_pos hle]
        have hbefore : before prev q := hdecides.nonpos hpPrev hq hle
        refine List.pairwise_cons.mpr ⟨?_, hsorted⟩
        intro a ha
        rcases List.mem_cons.mp ha with rfl | ha
        · exact hbefore
        · exact hdecides.trans (hprev a ha) hbefore
      · rw [if_neg hle]
        refine List.pairwise_cons.mpr ⟨?_, ih (fun a ha => hp a (by simp [ha])) hrest⟩
        intro a ha
        rcases List.mem_cons.mp ((insertBack_perm q sorted).mem_iff.mp ha) with rfl | ha
        · exact hdecides.pos hpPrev hq hle
        · exact hprev a ha

/-- What the outer loop keeps, from any sorted part on. -/
theorem foldl_insertBack (hdecides : Decides cmp before p) (hqueue : ∀ a ∈ queue, p a)
    (hp : ∀ a ∈ sorted, p a) (hsorted : sorted.Pairwise fun a b => before b a) :
    (queue.foldl (fun sorted q => insertBack cmp q sorted) sorted).Perm (queue ++ sorted) ∧
      (queue.foldl (fun sorted q => insertBack cmp q sorted) sorted).Pairwise
        fun a b => before b a := by
  induction queue generalizing sorted with
  | nil => exact ⟨List.Perm.refl _, hsorted⟩
  | cons q queue ih =>
      have hq : p q := hqueue q List.mem_cons_self
      have hperm : (insertBack cmp q sorted).Perm (q :: sorted) := insertBack_perm q sorted
      have hinserted : ∀ a ∈ insertBack cmp q sorted, p a := by
        intro a ha
        rcases List.mem_cons.mp (hperm.mem_iff.mp ha) with rfl | ha
        · exact hq
        · exact hp a ha
      obtain ⟨hall, hpairs⟩ := ih (fun a ha => hqueue a (by simp [ha])) hinserted
        (pairwise_insertBack hdecides hq hp hsorted)
      exact ⟨hall.trans ((hperm.append_left queue).trans List.perm_middle), hpairs⟩

/-- The sorted queue has the same elements. -/
theorem nightQueueSort_perm (hdecides : Decides cmp before p) (hqueue : ∀ a ∈ queue, p a) :
    (nightQueueSort cmp queue).Perm queue := by
  have hall := (foldl_insertBack hdecides hqueue (List.forall_mem_nil p) List.Pairwise.nil).1
  rw [List.append_nil] at hall
  exact (List.reverse_perm _).trans hall

theorem pairwise_nightQueueSort (hdecides : Decides cmp before p) (hqueue : ∀ a ∈ queue, p a) :
    (nightQueueSort cmp queue).Pairwise before := by
  apply List.pairwise_reverse.mpr
  exact (foldl_insertBack hdecides hqueue (by simp) List.Pairwise.nil).2

/-! ## The middle -/

/-- The loop of `night_queue_middle`: the elements from `next` on, and the index of
`middle`. -/
def middleLoop : ℕ → List α → ℕ
  | middle, _ :: _ :: next :: next' :: queue => middleLoop (middle + 1) (next :: next' :: queue)
  | middle, _ => middle + 1

/-- The index of the middle of a queue. -/
def nightQueueMiddle : List α → ℕ
  | [_] => 0
  | queue => middleLoop 0 queue

theorem middleLoop_eq (middle : ℕ) (hlength : 2 ≤ queue.length) :
    middleLoop middle queue = middle + queue.length / 2 := by
  induction middle, queue using middleLoop.induct with
  | case1 middle a b next next' queue ih =>
      rw [middleLoop, ih (by simp)]
      simp only [List.length_cons]
      omega
  | case2 queue middle hshort =>
      rcases queue with _ | ⟨a, _ | ⟨b, _ | ⟨c, _ | ⟨d, queue⟩⟩⟩⟩
      · simp at hlength
      · simp at hlength
      · simp [middleLoop]
      · simp [middleLoop]
      · exact absurd rfl (hshort a b c d queue)

theorem nightQueueMiddle_lt (hne : queue ≠ []) : nightQueueMiddle queue < queue.length := by
  rcases queue with _ | ⟨a, _ | ⟨b, queue⟩⟩
  · exact absurd rfl hne
  · exact Nat.zero_lt_one
  · rw [nightQueueMiddle, middleLoop_eq 0 (by simp)]
    · simp only [List.length_cons]
      omega
    · simp

/-- Only the first of one element has nothing before it. -/
theorem nightQueueMiddle_eq_zero (hne : queue ≠ []) :
    nightQueueMiddle queue = 0 ↔ queue.length = 1 := by
  rcases queue with _ | ⟨a, _ | ⟨b, queue⟩⟩
  · exact absurd rfl hne
  · simp [nightQueueMiddle]
  · rw [nightQueueMiddle, middleLoop_eq 0 (by simp)]
    · simp only [List.length_cons]
      omega
    · simp

end Night.Queue
