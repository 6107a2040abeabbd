import Mathlib.Data.List.Basic
import Mathlib.Logic.Function.Basic

/-!
# Chains of cells in a heap

Singly linked lists as a C program has them: a map gives the next cell of each
address, and a chain is the list of addresses from a head to `NULL`.  The lemmas
say what writes to single cells do to chains and how to walk one.
-/

namespace Night.Chains

variable {Address : Type*} {next next' : Address → Option Address}
variable {head tail : Option Address} {addresses left right : List Address}

/-- Following `next` from `head` passes through `addresses` and arrives at `tail`. -/
def Segment (next : Address → Option Address) :
    Option Address → List Address → Option Address → Prop
  | head, [], tail => head = tail
  | head, address :: rest, tail => head = some address ∧ Segment next (next address) rest tail

/-- A segment that ends with `NULL`. -/
abbrev Chain (next : Address → Option Address) (head : Option Address)
    (addresses : List Address) : Prop :=
  Segment next head addresses none

/-- A segment depends on its own cells only. -/
theorem Segment.congr (hsegment : Segment next head addresses tail)
    (hagree : ∀ address ∈ addresses, next' address = next address) :
    Segment next' head addresses tail := by
  induction addresses generalizing head with
  | nil => exact hsegment
  | cons address rest ih =>
      refine ⟨hsegment.1, ?_⟩
      rw [hagree address (by simp)]
      apply ih hsegment.2
      intro other hother
      exact hagree other (by simp [hother])

theorem Chain.head_eq (hchain : Chain next head addresses) : head = addresses.head? := by
  cases addresses with
  | nil => exact hchain
  | cons address rest => exact hchain.1

/-- A chain passes through every segment from its head. -/
theorem Segment.exists_append (hsegment : Segment next head left tail)
    (hchain : Chain next head addresses) :
    ∃ right, addresses = left ++ right ∧ Chain next tail right := by
  induction left generalizing head addresses with
  | nil =>
      have htail : head = tail := hsegment
      exact ⟨addresses, rfl, htail ▸ hchain⟩
  | cons address left ih =>
      obtain ⟨rfl, hleft⟩ := hsegment
      cases addresses with
      | nil => cases hchain
      | cons first rest =>
          obtain ⟨heq, hrest⟩ := hchain
          obtain rfl := Option.some.inj heq
          obtain ⟨right, hright, htail⟩ := ih hleft hrest
          exact ⟨right, by rw [hright, List.cons_append], htail⟩

theorem Chain.unique (hleft : Chain next head left) (hright : Chain next head right) :
    left = right := by
  obtain ⟨rest, hrest, htail⟩ := Segment.exists_append hleft hright
  cases rest with
  | nil => rw [hrest, List.append_nil]
  | cons address rest => cases htail.1

theorem segment_append :
    Segment next head (left ++ right) tail ↔
      ∃ middle, Segment next head left middle ∧ Segment next middle right tail := by
  induction left generalizing head with
  | nil => simp [Segment]
  | cons address left ih => simp [Segment, ih, and_assoc]

/-- A write to a cell that is not on a segment does not touch it. -/
theorem Segment.update [DecidableEq Address] (hsegment : Segment next head addresses tail)
    {address : Address} (hnotin : address ∉ addresses) (value : Option Address) :
    Segment (Function.update next address value) head addresses tail := by
  apply hsegment.congr
  intro other hother
  apply Function.update_of_ne
  intro heq
  exact hnotin (heq ▸ hother)

/-- A write to the last cell of a segment moves its tail. -/
theorem Segment.update_last [DecidableEq Address] {last : Address}
    (hsegment : Segment next head (left ++ [last]) tail) (hnotin : last ∉ left)
    (value : Option Address) :
    Segment (Function.update next last value) head (left ++ [last]) value := by
  obtain ⟨middle, hleft, hlast⟩ := segment_append.mp hsegment
  refine segment_append.mpr ⟨middle, hleft.update hnotin value, hlast.1, ?_⟩
  exact Function.update_self last value next

/-- The cells of a chain, followed for at most `fuel` steps. -/
def walk (next : Address → Option Address) : ℕ → Option Address → Option (List Address)
  | _, none => some []
  | 0, some _ => none
  | fuel + 1, some address => (walk next fuel (next address)).map (address :: ·)

theorem walk_eq_some {fuel : ℕ} (hchain : Chain next head addresses)
    (hfuel : addresses.length ≤ fuel) : walk next fuel head = some addresses := by
  induction addresses generalizing head fuel with
  | nil =>
      have hhead : head = none := hchain
      cases fuel <;> rw [hhead, walk]
  | cons address rest ih =>
      obtain ⟨rfl, hrest⟩ := hchain
      cases fuel with
      | zero => simp at hfuel
      | succ fuel =>
          rw [walk, ih hrest (by simpa using hfuel), Option.map_some]

end Night.Chains
