import Mathlib.Data.List.Basic
import Night.Core.Queue
import Night.Lib.Rings

/-!
# `night_queue_sort` on the links

The elements are cells with two pointers; an element is taken out of the ring and put back
behind the place that is found.  The links follow the lists of `nightQueueSort`.
-/

namespace Night.QueueSort

open Night.Queue Night.Rings

variable {Cell : Type*} [DecidableEq Cell]

/-! ## The loops -/

/-- The loop back from `prev`: the cell that `q` is put behind. -/
def backLoop (cmp : Cell → Cell → ℤ) (queue q : Cell) (links : Links Cell) :
    ℕ → Cell → Option Cell
  | 0, _ => none
  | fuel + 1, prev =>
    if cmp prev q ≤ 0 then some prev
    else if links.prev prev ≠ queue then backLoop cmp queue q links fuel (links.prev prev)
    else some (links.prev prev)

/-- The loop over the elements from `q` on. -/
def sortLoop (cmp : Cell → Cell → ℤ) (queue : Cell) : ℕ → Cell → Links Cell → Option (Links Cell)
  | 0, _, _ => none
  | fuel + 1, q, links =>
    if q ≠ queue then do
      let prev ← backLoop cmp queue q (remove q links) fuel (links.prev q)
      sortLoop cmp queue fuel (links.next q) (insertHead prev q (remove q links))
    else some links

/-- `night_queue_sort`; there is no result when the fuel does not suffice. -/
def nightQueueSortLinks (cmp : Cell → Cell → ℤ) (fuel : ℕ) (queue : Cell) (links : Links Cell) :
    Option (Links Cell) :=
  if links.next queue = links.prev queue then some links
  else sortLoop cmp queue fuel (links.next (links.next queue)) links

variable {cmp : Cell → Cell → ℤ} {queue q prev : Cell} {links : Links Cell}
  {sorted rest : List Cell}

/-! ## The links follow the lists -/

/-- The loop back goes along the sorted elements and finds where `insertBack` puts the new one. -/
theorem backLoop_eq (hring : Ring links queue ((prev :: sorted).reverse ++ rest)) {fuel : ℕ}
    (hfuel : sorted.length < fuel) :
    ∃ front behind, prev :: sorted = behind ++ front ∧
      insertBack cmp q (prev :: sorted) = behind ++ q :: front ∧
      backLoop cmp queue q links fuel prev = some (front.headD queue) := by
  induction sorted generalizing prev rest fuel with
  | nil =>
    obtain ⟨fuel, rfl⟩ : ∃ rest, fuel = rest + 1 := ⟨fuel - 1, by simp at hfuel; omega⟩
    rw [insertBack, backLoop]
    by_cases hle : cmp prev q ≤ 0
    · exact ⟨[prev], [], rfl, by rw [if_pos hle]; rfl, by rw [if_pos hle]; rfl⟩
    · have hprev : links.prev prev = queue := @Ring.prev_cell _ links queue prev [] rest hring
      refine ⟨[], [prev], rfl, by rw [if_neg hle]; rfl, ?_⟩
      rw [if_neg hle, hprev, if_neg (not_not.mpr rfl)]
      rfl
  | cons before sorted ih =>
    obtain ⟨fuel, rfl⟩ : ∃ rest, fuel = rest + 1 := ⟨fuel - 1, by omega⟩
    rw [insertBack, backLoop]
    by_cases hle : cmp prev q ≤ 0
    · exact ⟨prev :: before :: sorted, [], rfl, by rw [if_pos hle]; rfl, by rw [if_pos hle]; rfl⟩
    · have hring' : Ring links queue ((before :: sorted).reverse ++ prev :: rest) := by
        simpa using hring
      have hprev : links.prev prev = before := by
        rw [hring'.prev_cell, List.reverse_cons, List.getLastD_concat]
      have hqueue : before ≠ queue := by
        rintro rfl
        exact absurd hring.nodup (by simp)
      obtain ⟨front, behind, hsplit, hinsert, hloop⟩ := ih hring' (by simpa using hfuel)
      refine ⟨front, prev :: behind, by rw [hsplit]; rfl, ?_, ?_⟩
      · rw [if_neg hle, hinsert]
        rfl
      · rw [if_neg hle, hprev, if_pos hqueue]
        exact hloop

/-- One turn of the loop over the elements. -/
theorem sortLoop_cons (hring : Ring links queue ((prev :: sorted).reverse ++ q :: rest))
    {fuel : ℕ} (hfuel : sorted.length < fuel) :
    ∃ links', sortLoop cmp queue (fuel + 1) q links =
        sortLoop cmp queue fuel (rest.headD queue) links' ∧
      Ring links' queue ((insertBack cmp q (prev :: sorted)).reverse ++ rest) := by
  have hne : q ≠ queue := by
    rintro rfl
    exact absurd hring.nodup (by simp)
  have hprev : links.prev q = prev := by
    rw [hring.prev_cell, List.reverse_cons, List.getLastD_concat]
  have hremoved : Ring (remove q links) queue ((prev :: sorted).reverse ++ rest) :=
    ring_remove hring
  obtain ⟨front, behind, hsplit, hinsert, hloop⟩ := backLoop_eq hremoved hfuel
  refine ⟨insertHead (front.headD queue) q (remove q links), ?_, ?_⟩
  · rw [sortLoop, if_pos hne, hprev, hring.next_cell, hloop]
    rfl
  · have hplace : front.headD queue = front.reverse.getLastD queue := by
      cases front <;> simp
    have hsides : (prev :: sorted).reverse ++ rest = front.reverse ++ (behind.reverse ++ rest) := by
      rw [hsplit, List.reverse_append, List.append_assoc]
    have hresult : (insertBack cmp q (prev :: sorted)).reverse ++ rest =
        front.reverse ++ q :: (behind.reverse ++ rest) := by
      rw [hinsert]
      simp
    rw [hplace, hresult]
    apply ring_insertHead_cell
    · rw [← hsides]
      exact hremoved
    · have hnodup := hring.nodup
      rw [← hsides]
      simp only [List.nodup_cons, List.nodup_append, List.mem_append, List.mem_cons] at hnodup ⊢
      grind

theorem sortLoop_eq (hring : Ring links queue ((prev :: sorted).reverse ++ rest)) {fuel : ℕ}
    (hfuel : sorted.length + 2 * rest.length < fuel) :
    ∃ links', sortLoop cmp queue fuel (rest.headD queue) links = some links' ∧
      Ring links' queue
        (rest.foldl (fun sorted q => insertBack cmp q sorted) (prev :: sorted)).reverse := by
  induction rest generalizing prev sorted links fuel with
  | nil =>
    obtain ⟨fuel, rfl⟩ : ∃ rest, fuel = rest + 1 := ⟨fuel - 1, by omega⟩
    refine ⟨links, ?_, by simpa using hring⟩
    rw [sortLoop, List.headD_nil, if_neg (not_not.mpr rfl)]
  | cons q rest ih =>
    rw [List.length_cons] at hfuel
    obtain ⟨fuel, rfl⟩ : ∃ rest, fuel = rest + 1 := ⟨fuel - 1, by omega⟩
    obtain ⟨links', hstep, hring'⟩ :=
      @sortLoop_cons _ _ cmp _ _ _ _ _ _ hring fuel (by omega)
    have hlength : (insertBack cmp q (prev :: sorted)).length = sorted.length + 2 :=
      (insertBack_perm q (prev :: sorted)).length_eq
    rw [List.headD_cons, hstep, List.foldl_cons]
    obtain ⟨prev', sorted', hinsert⟩ := List.exists_cons_of_length_eq_add_one hlength
    rw [hinsert] at hring' hlength ⊢
    apply ih hring'
    rw [List.length_cons] at hlength
    omega

/-- The sort of the links is the sort of the list. -/
theorem nightQueueSortLinks_eq {cells : List Cell} (hring : Ring links queue cells) {fuel : ℕ}
    (hfuel : 2 * cells.length ≤ fuel) :
    ∃ links', nightQueueSortLinks cmp fuel queue links = some links' ∧
      Ring links' queue (nightQueueSort cmp cells) := by
  rw [nightQueueSortLinks]
  rcases cells with _ | ⟨first, _ | ⟨second, rest⟩⟩
  · refine ⟨links, if_pos ?_, hring⟩
    rw [hring.next_head, hring.prev_head]
    rfl
  · refine ⟨links, if_pos ?_, hring⟩
    rw [hring.next_head, hring.prev_head]
    rfl
  · have hnext : links.next (links.next queue) = second := by
      rw [hring.next_head]
      exact @Ring.next_cell _ links queue first [] (second :: rest) hring
    have hne : links.next queue ≠ links.prev queue := by
      have hnodup := hring.nodup
      rw [hring.next_head, hring.prev_head]
      intro heq
      have hlast : (first :: second :: rest).getLastD queue ∈ second :: rest := by
        rw [List.getLastD_cons, List.getLastD_cons]
        exact List.getLastD_mem_cons
      rw [← heq] at hlast
      exact absurd hnodup (by simp_all)
    rw [if_neg hne, hnext]
    exact @sortLoop_eq _ _ cmp queue first links [] (second :: rest) hring fuel
      (by simp only [List.length_cons, List.length_nil] at hfuel ⊢; omega)

/-! ## Stability -/

section Stable

variable {p : Cell → Bool} (hequal : ∀ a b, p a → p b → cmp a b ≤ 0)

include hequal
omit [DecidableEq Cell]

theorem filter_insertBack (q : Cell) (sorted : List Cell) :
    (insertBack cmp q sorted).filter p = (q :: sorted).filter p := by
  induction sorted with
  | nil => rfl
  | cons prev sorted ih =>
    rw [insertBack]
    by_cases hle : cmp prev q ≤ 0
    · rw [if_pos hle]
    · -- `q` goes past `prev`, so not both of them are kept
      have hnot : ¬ (p prev ∧ p q) := fun hboth => hle (hequal prev q hboth.1 hboth.2)
      rw [if_neg hle, List.filter_cons, ih]
      simp only [List.filter_cons]
      by_cases hprev : p prev
      · have hq : ¬ p q := fun hq => hnot ⟨hprev, hq⟩
        rw [if_neg hq, if_neg hq, if_pos hprev]
      · rw [if_neg hprev, if_neg hprev]

theorem filter_foldl_insertBack (queue sorted : List Cell) :
    (queue.foldl (fun sorted q => insertBack cmp q sorted) sorted).filter p =
      (queue.reverse ++ sorted).filter p := by
  induction queue generalizing sorted with
  | nil => rfl
  | cons q queue ih =>
    rw [List.foldl_cons, ih, List.filter_append, filter_insertBack hequal, ← List.filter_append]
    simp

theorem filter_nightQueueSort (queue : List Cell) :
    (nightQueueSort cmp queue).filter p = queue.filter p := by
  rw [nightQueueSort, List.filter_reverse, filter_foldl_insertBack hequal, ← List.filter_reverse]
  simp

end Stable

/-! ## The contract -/

/-- The queue is sorted in place, and elements that are equal stay in their order. -/
theorem nightQueueSortLinks_stable {before : Cell → Cell → Prop}
    (htotal : ∀ a b, before a b ∨ before b a)
    (htrans : ∀ a b c, before a b → before b c → before a c)
    (hcmp : ∀ a b, cmp a b ≤ 0 ↔ before a b) {cells : List Cell} (hring : Ring links queue cells)
    {fuel : ℕ} (hfuel : 2 * cells.length ≤ fuel) :
    ∃ links' sorted, nightQueueSortLinks cmp fuel queue links = some links' ∧
      Ring links' queue sorted ∧ sorted.Perm cells ∧ sorted.Pairwise before ∧
      ∀ a, sorted.filter (fun b => cmp a b ≤ 0 ∧ cmp b a ≤ 0) =
        cells.filter fun b => cmp a b ≤ 0 ∧ cmp b a ≤ 0 := by
  obtain ⟨links', hlinks, hring'⟩ := @nightQueueSortLinks_eq _ _ cmp _ _ _ hring _ hfuel
  have hdecides : Decides cmp before fun _ => True := {
    nonpos := fun _ _ hle => (hcmp _ _).mp hle
    pos := fun _ _ hgt => (htotal _ _).resolve_left fun hbefore => hgt ((hcmp _ _).mpr hbefore)
    trans := fun hab hbc => htrans _ _ _ hab hbc }
  refine ⟨links', nightQueueSort cmp cells, hlinks, hring',
    nightQueueSort_perm hdecides (fun _ _ => trivial),
    pairwise_nightQueueSort hdecides (fun _ _ => trivial), ?_⟩
  intro a
  apply filter_nightQueueSort
  intro b c hb hc
  have hba : before b a := (hcmp b a).mp (of_decide_eq_true hb).2
  have hac : before a c := (hcmp a c).mp (of_decide_eq_true hc).1
  exact (hcmp b c).mpr (htrans b a c hba hac)

/-- The queue of the cells 3, 1 and 2 behind the sentinel 0, by the parity of the cells. -/
theorem nightQueueSortLinks_stable_parity :
    ∃ links' sorted, nightQueueSortLinks (fun a b : ℕ => (a % 2 : ℕ) - (b % 2 : ℕ)) 6 0
        (insertTail 0 2 (insertTail 0 1 (insertTail 0 3 (init 0 ⟨id, id⟩)))) = some links' ∧
      Ring links' 0 sorted ∧ sorted.Perm [3, 1, 2] ∧
      sorted.Pairwise (fun a b => a % 2 ≤ b % 2) ∧
      sorted.filter (fun b => decide ((1 % 2 : ℕ) - (b % 2 : ℕ) ≤ (0 : ℤ) ∧
        (b % 2 : ℕ) - (1 % 2 : ℕ) ≤ (0 : ℤ))) = [3, 1] := by
  have hring : Ring (insertTail 0 2 (insertTail 0 1 (insertTail 0 3 (init 0 ⟨id, id⟩)))) 0
      [3, 1, 2] :=
    ring_insertTail (ring_insertTail (ring_insertTail (ring_init 0 _) (by decide)) (by decide))
      (by decide)
  obtain ⟨links', sorted, hlinks, hring', hperm, hsorted, hstable⟩ :=
    @nightQueueSortLinks_stable ℕ _ (fun a b => (a % 2 : ℕ) - (b % 2 : ℕ)) 0 _
      (fun a b => a % 2 ≤ b % 2) (fun a b => le_total (a % 2) (b % 2))
      (fun a b c hab hbc => le_trans hab hbc) (fun a b => by omega) [3, 1, 2] hring 6 (by decide)
  exact ⟨links', sorted, hlinks, hring', hperm, hsorted, (hstable 1).trans (by decide)⟩

end Night.QueueSort
