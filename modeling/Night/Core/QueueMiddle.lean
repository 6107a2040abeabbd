import Mathlib.Data.List.GetD
import Night.Core.Queue
import Night.Lib.Rings

/-!
# `night_queue_middle` on the links

Two pointers go along the ring, one of them twice as fast.  The queue is then cut at the
element that is found.
-/

namespace Night.QueueMiddle

open Night.Queue Night.Rings

variable {Cell : Type*} [DecidableEq Cell]

/-! ## The source -/

/-- `for ( ; ; )`; there is no result when the fuel does not suffice. -/
def middleLoop (queue : Cell) (links : Links Cell) : ℕ → Cell → Cell → Option Cell
  | 0, _, _ => none
  | fuel + 1, middle, next =>
    let middle := links.next middle
    let next := links.next next
    if next = links.prev queue then some middle
    else
      let next := links.next next
      if next = links.prev queue then some middle
      else middleLoop queue links fuel middle next

def nightQueueMiddleLinks (fuel : ℕ) (queue : Cell) (links : Links Cell) : Option Cell :=
  let middle := links.next queue
  if middle = links.prev queue then some middle
  else middleLoop queue links fuel middle (links.next queue)

/-! ## Cells by their places -/

variable {links : Links Cell} {queue : Cell} {cells : List Cell}

omit [DecidableEq Cell] in
theorem next_getElem (hring : Ring links queue cells) {i : ℕ} (hi : i + 1 < cells.length) :
    links.next cells[i] = cells[i + 1] := by
  have hcut : cells.take i ++ cells[i] :: cells.drop (i + 1) = cells := by
    rw [← List.drop_eq_getElem_cons, List.take_append_drop]
  rw [← hcut] at hring
  rw [hring.next_cell, List.drop_eq_getElem_cons hi]
  rfl

omit [DecidableEq Cell] in
theorem next_queue (hring : Ring links queue cells) (hne : 0 < cells.length) :
    links.next queue = cells[0] := by
  rw [hring.next_head]
  cases cells with
  | nil => exact absurd hne (Nat.lt_irrefl 0)
  | cons first rest => rfl

omit [DecidableEq Cell] in
/-- Only the last cell is the one before the sentinel. -/
theorem eq_prev_iff (hring : Ring links queue cells) {i : ℕ} (hi : i < cells.length) :
    cells[i] = links.prev queue ↔ i + 1 = cells.length := by
  have hne : cells ≠ [] := List.ne_nil_of_length_pos (Nat.zero_lt_of_lt hi)
  have hlast : links.prev queue = cells[cells.length - 1] := by
    rw [hring.prev_head, List.getLastD_eq_getLast?, List.getLast?_eq_getLast_of_ne_nil hne,
      Option.getD_some, List.getLast_eq_getElem]
  rw [hlast, (List.nodup_cons.mp hring.nodup).2.getElem_inj_iff]
  omega

/-! ## The middle -/

/-- The pointers are at the places `k` and `2 * k`. -/
theorem middleLoop_eq (hring : Ring links queue cells) {k fuel : ℕ}
    (hk : 2 * k + 1 < cells.length) (hfuel : cells.length ≤ 2 * k + 2 * fuel) :
    middleLoop queue links fuel (cells[k]) (cells[2 * k]) = cells[cells.length / 2]? := by
  induction fuel generalizing k with
  | zero => omega
  | succ fuel ih =>
    rw [middleLoop]
    simp only
    rw [next_getElem hring (show k + 1 < cells.length by omega),
      next_getElem hring (show 2 * k + 1 < cells.length by omega)]
    by_cases hodd : 2 * k + 1 + 1 = cells.length
    · rw [if_pos ((eq_prev_iff hring (by omega)).mpr hodd), List.getElem?_eq_getElem (by omega)]
      simp only [Option.some.injEq]
      congr 1
      omega
    · rw [if_neg fun heq => hodd ((eq_prev_iff hring (by omega)).mp heq),
        next_getElem hring (show 2 * k + 1 + 1 < cells.length by omega)]
      by_cases heven : 2 * k + 2 + 1 = cells.length
      · rw [if_pos ((eq_prev_iff hring (by omega)).mpr heven), List.getElem?_eq_getElem (by omega)]
        simp only [Option.some.injEq]
        congr 1
        omega
      · rw [if_neg fun heq => heven ((eq_prev_iff hring (by omega)).mp heq)]
        exact ih (k := k + 1) (by omega) (by omega)

/-- The middle of `n` elements has `n / 2` of them before it. -/
theorem nightQueueMiddle_eq {α : Type*} {queue : List α} (hne : queue ≠ []) :
    nightQueueMiddle queue = queue.length / 2 := by
  rcases queue with _ | ⟨a, _ | ⟨b, queue⟩⟩
  · exact absurd rfl hne
  · rw [nightQueueMiddle, List.length_singleton]
  · rw [nightQueueMiddle, Queue.middleLoop_eq 0 (by simp), Nat.zero_add]
    simp

theorem nightQueueMiddleLinks_eq (hring : Ring links queue cells) (hne : cells ≠ []) {fuel : ℕ}
    (hfuel : cells.length ≤ 2 * fuel) :
    nightQueueMiddleLinks fuel queue links = cells[cells.length / 2]? := by
  have hpos := List.length_pos_of_ne_nil hne
  rw [nightQueueMiddleLinks, next_queue hring hpos]
  by_cases hone : 0 + 1 = cells.length
  · rw [if_pos ((eq_prev_iff hring hpos).mpr hone), List.getElem?_eq_getElem (by omega)]
    simp only [Option.some.injEq]
    congr 1
    omega
  · rw [if_neg fun heq => hone ((eq_prev_iff hring hpos).mp heq)]
    exact middleLoop_eq (k := 0) hring (by omega) (by omega)

/-- The parts before and behind the middle. -/
structure Halves {α : Type*} (left right : List α) : Prop where
  le : right.length ≤ left.length
  ge : left.length ≤ right.length + 1

/-- When nothing is before the middle, nothing is behind it. -/
theorem Halves.nil_of_nil {α : Type*} {left right : List α} (hhalves : Halves left right)
    (hleft : left = []) : right = [] := by
  have hle := hhalves.le
  rw [hleft, List.length_nil] at hle
  exact List.length_eq_zero_iff.mp (Nat.le_zero.mp hle)

theorem nightQueueMiddle_halves {α : Type*} {queue : List α} (hne : queue ≠ []) :
    Halves (queue.take (nightQueueMiddle queue)) (queue.drop (nightQueueMiddle queue + 1)) := by
  have hpos := List.length_pos_of_ne_nil hne
  have hmiddle := nightQueueMiddle_eq hne
  constructor
  · rw [List.length_take, List.length_drop]
    omega
  · rw [List.length_take, List.length_drop]
    omega

/-- The middle is found where it is in the list, and `night_queue_split` and
`night_queue_remove` leave what is before it and what is behind it. -/
structure Cut (links : Links Cell) (queue : Cell) (cells : List Cell) (middle : Cell) : Prop where
  place : cells[nightQueueMiddle cells]? = some middle
  left : ∀ tail ∉ queue :: cells,
    Ring (split queue middle tail links) queue (cells.take (nightQueueMiddle cells))
  right : ∀ tail ∉ queue :: cells,
    Ring (remove middle (split queue middle tail links)) tail
      (cells.drop (nightQueueMiddle cells + 1))

theorem nightQueueMiddleLinks_cut (hring : Ring links queue cells) (hne : cells ≠ []) {fuel : ℕ}
    (hfuel : cells.length ≤ 2 * fuel) :
    ∃ middle, nightQueueMiddleLinks fuel queue links = some middle ∧
      Cut links queue cells middle := by
  have hin := nightQueueMiddle_lt hne
  have hcut : cells = cells.take (nightQueueMiddle cells) ++
      cells[nightQueueMiddle cells] :: cells.drop (nightQueueMiddle cells + 1) := by
    rw [← List.drop_eq_getElem_cons, List.take_append_drop]
  refine ⟨cells[nightQueueMiddle cells], ?_, List.getElem?_eq_getElem hin, ?_, ?_⟩
  · rw [nightQueueMiddleLinks_eq hring hne hfuel, ← nightQueueMiddle_eq hne,
      List.getElem?_eq_getElem hin]
  · intro tail htail
    rw [hcut] at hring htail
    exact (ring_split hring htail).1
  · intro tail htail
    rw [hcut] at hring htail
    exact @ring_remove Cell _ tail _ [] _ _ (ring_split hring htail).2

end Night.QueueMiddle
