import Mathlib.Data.List.Basic

/-!
# Windows on a file

A reader holds a window on a file: the symbols from some place on, a position in them,
and how much of the file was read.  When the window is used up, the symbols from a mark
on move to its front and more of the file is read behind them, as much as the file
system gives.  Where the symbols still to come and those since the mark are concerned,
nothing changes.
-/

namespace Night.Refill

variable {Symbol : Type*}

structure Window (Symbol : Type*) where
  held : List Symbol
  pos : ℕ
  offset : ℕ
  deriving DecidableEq, Repr

namespace Window

/-- The symbols still to come. -/
def unread (file : List Symbol) (w : Window Symbol) : List Symbol :=
  w.held.drop w.pos ++ file.drop w.offset

/-- The symbols from the mark to the position. -/
def since (mark : ℕ) (w : Window Symbol) : List Symbol :=
  (w.held.drop mark).take (w.pos - mark)

/-- The window before anything is read. -/
def empty : Window Symbol where
  held := []
  pos := 0
  offset := 0

/-- What one read at `offset` gives of the `size` symbols that were asked for: at least
one. -/
def readAmount (amount : ℕ → ℕ) (offset size : ℕ) : ℕ := min size (max 1 (amount offset))

/-- A window that is used up is filled again from the mark on. -/
def refill (capacity : ℕ) (amount : ℕ → ℕ) (file : List Symbol) (mark : ℕ)
    (w : Window Symbol) : Window Symbol :=
  let len := w.pos - mark
  let size := min (file.length - w.offset) (capacity - len)
  let n := readAmount amount w.offset size
  { held := w.since mark ++ (file.drop w.offset).take n
    pos := len
    offset := w.offset + n }

/-- The position is in the window, which fits the buffer and the file. -/
structure Sound (capacity : ℕ) (file : List Symbol) (w : Window Symbol) : Prop where
  pos_le : w.pos ≤ w.held.length
  held_le : w.held.length ≤ capacity
  offset_le : w.offset ≤ file.length

theorem sound_empty (capacity : ℕ) (file : List Symbol) :
    (empty : Window Symbol).Sound capacity file :=
  ⟨Nat.le_refl _, Nat.zero_le _, Nat.zero_le _⟩

@[simp]
theorem unread_empty (file : List Symbol) : (empty : Window Symbol).unread file = file := rfl

variable {capacity mark : ℕ} {amount : ℕ → ℕ} {file rest : List Symbol} {w : Window Symbol}
variable {symbol : Symbol}

theorem since_self (w : Window Symbol) : w.since w.pos = [] := by
  rw [since, Nat.sub_self, List.take_zero]

theorem length_since (hsound : w.Sound capacity file) (hmark : mark ≤ w.pos) :
    (w.since mark).length = w.pos - mark := by
  have hpos := hsound.pos_le
  rw [since, List.length_take, List.length_drop]
  omega

/-! ## A window that is not used up -/

/-- The next symbol is the one at the position. -/
theorem getElem?_of_unread (hpos : w.pos < w.held.length)
    (hunread : w.unread file = symbol :: rest) : w.held[w.pos]? = some symbol := by
  have hdrop := List.drop_eq_getElem_cons hpos
  rw [unread, hdrop, List.cons_append] at hunread
  rw [List.getElem?_eq_getElem hpos, (List.cons.inj hunread).1]

/-- The window behind its next symbol. -/
def advance (w : Window Symbol) : Window Symbol := { w with pos := w.pos + 1 }

theorem unread_advance (hpos : w.pos < w.held.length)
    (hunread : w.unread file = symbol :: rest) : w.advance.unread file = rest := by
  have hdrop := List.drop_eq_getElem_cons hpos
  rw [unread, hdrop, List.cons_append] at hunread
  rw [unread, advance]
  exact (List.cons.inj hunread).2

theorem sound_advance (hsound : w.Sound capacity file) (hpos : w.pos < w.held.length) :
    w.advance.Sound capacity file :=
  ⟨hpos, hsound.held_le, hsound.offset_le⟩

theorem since_advance (hpos : w.pos < w.held.length) (hmark : mark ≤ w.pos)
    (hsymbol : w.held[w.pos]? = some symbol) :
    w.advance.since mark = w.since mark ++ [symbol] := by
  have hlength : w.pos + 1 - mark = w.pos - mark + 1 := by omega
  have hindex : w.pos - mark < (w.held.drop mark).length := by
    rw [List.length_drop]
    omega
  have hplace : mark + (w.pos - mark) = w.pos := by omega
  rw [since, since, advance, hlength, List.take_add_one, List.getElem?_drop, hplace, hsymbol]
  rfl

theorem since_advance_self (hpos : w.pos < w.held.length)
    (hsymbol : w.held[w.pos]? = some symbol) : w.advance.since w.pos = [symbol] := by
  rw [since_advance hpos (Nat.le_refl _) hsymbol, since_self, List.nil_append]

/-! ## A window that is used up -/

theorem readAmount_le (amount : ℕ → ℕ) (offset size : ℕ) : readAmount amount offset size ≤ size :=
  Nat.min_le_left _ _

theorem readAmount_pos (amount : ℕ → ℕ) (offset : ℕ) {size : ℕ} (hsize : 0 < size) :
    0 < readAmount amount offset size := by
  rw [readAmount]
  omega

theorem unread_refill (hsound : w.Sound capacity file) (hused : w.held.length ≤ w.pos)
    (hmark : mark ≤ w.pos) :
    (w.refill capacity amount file mark).unread file = w.unread file := by
  have hsince := length_since hsound hmark
  have hdrop (more : List Symbol) :
      (w.since mark ++ more).drop (w.pos - mark) = more := by
    rw [← hsince]
    exact List.drop_left
  simp only [unread, refill, hdrop]
  rw [← List.drop_drop, List.take_append_drop, List.drop_eq_nil_of_le hused, List.nil_append]

theorem since_refill (hsound : w.Sound capacity file) (hmark : mark ≤ w.pos) :
    (w.refill capacity amount file mark).since 0 = w.since mark := by
  have hsince := length_since hsound hmark
  simp only [since, refill, List.drop_zero, Nat.sub_zero]
  exact List.take_left' hsince

theorem length_refill (amount : ℕ → ℕ) (hsound : w.Sound capacity file) (hmark : mark ≤ w.pos) :
    (w.refill capacity amount file mark).held.length = w.pos - mark +
      readAmount amount w.offset
        (min (file.length - w.offset) (capacity - (w.pos - mark))) := by
  have hsince := length_since hsound hmark
  have hread := readAmount_le amount w.offset
    (min (file.length - w.offset) (capacity - (w.pos - mark)))
  simp only [refill, List.length_append, List.length_take, List.length_drop, hsince]
  omega

theorem sound_refill (hsound : w.Sound capacity file) (hmark : mark ≤ w.pos) :
    (w.refill capacity amount file mark).Sound capacity file := by
  have hlength := length_refill amount hsound hmark
  have hread := readAmount_le amount w.offset
    (min (file.length - w.offset) (capacity - (w.pos - mark)))
  have hpos := hsound.pos_le
  have hheld := hsound.held_le
  have hoffset := hsound.offset_le
  refine ⟨?_, ?_, ?_⟩
  · rw [hlength]
    exact Nat.le_add_right _ _
  · rw [hlength]
    omega
  · simp only [refill]
    omega

/-- There is room for more, so at least one symbol is behind the position. -/
theorem pos_lt_refill (hsound : w.Sound capacity file) (hmark : mark ≤ w.pos)
    (hroom : w.pos - mark < capacity) (hmore : w.offset < file.length) :
    (w.refill capacity amount file mark).pos <
      (w.refill capacity amount file mark).held.length := by
  have hread := readAmount_pos amount w.offset
    (show 0 < min (file.length - w.offset) (capacity - (w.pos - mark)) by omega)
  rw [length_refill amount hsound hmark]
  simp only [refill]
  omega

end Window

end Night.Refill
