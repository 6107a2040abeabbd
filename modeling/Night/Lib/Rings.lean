import Mathlib.Data.List.Chain
import Mathlib.Data.List.Nodup
import Mathlib.Logic.Function.Basic

/-!
# Rings of cells in a heap

Doubly linked lists that close in a sentinel, as a C program keeps them: each cell has
a pointer to the cell before it and one to the cell behind it.  An insertion or a
removal is a sequence of single writes; the lemmas give the list of cells after it.
-/

namespace Night.Rings

variable {Cell : Type*}

/-- The two pointers of every cell. -/
structure Links (Cell : Type*) where
  prev : Cell → Cell
  next : Cell → Cell

/-- `b` is the cell behind `a`. -/
def Linked (links : Links Cell) (a b : Cell) : Prop := links.next a = b ∧ links.prev b = a

/-- Going round from the sentinel `h` one meets `cells`. -/
structure Ring (links : Links Cell) (h : Cell) (cells : List Cell) : Prop where
  nodup : (h :: cells).Nodup
  linked : (h :: (cells ++ [h])).IsChain (Linked links)

section Operations

variable [DecidableEq Cell]

def setPrev (x value : Cell) (links : Links Cell) : Links Cell :=
  { links with prev := Function.update links.prev x value }

def setNext (x value : Cell) (links : Links Cell) : Links Cell :=
  { links with next := Function.update links.next x value }

def init (h : Cell) (links : Links Cell) : Links Cell :=
  setNext h h (setPrev h h links)

def insertHead (h x : Cell) (links : Links Cell) : Links Cell :=
  let links := setNext x (links.next h) links
  let links := setPrev (links.next x) x links
  let links := setPrev x h links
  setNext h x links

def insertTail (h x : Cell) (links : Links Cell) : Links Cell :=
  let links := setPrev x (links.prev h) links
  let links := setNext (links.prev x) x links
  let links := setNext x h links
  setPrev h x links

def remove (x : Cell) (links : Links Cell) : Links Cell :=
  let links := setPrev (links.next x) (links.prev x) links
  setNext (links.prev x) (links.next x) links

/-- The cells from `q` on go to the sentinel `n`. -/
def split (h q n : Cell) (links : Links Cell) : Links Cell :=
  let links := setPrev n (links.prev h) links
  let links := setNext (links.prev n) n links
  let links := setNext n q links
  let links := setPrev h (links.prev q) links
  let links := setNext (links.prev h) h links
  setPrev q n links

/-- The cells of the sentinel `n` go behind those of `h`. -/
def add (h n : Cell) (links : Links Cell) : Links Cell :=
  let links := setNext (links.prev h) (links.next n) links
  let links := setPrev (links.next n) (links.prev h) links
  let links := setPrev h (links.prev n) links
  setNext (links.prev h) h links

@[simp]
theorem setPrev_next (x value : Cell) (links : Links Cell) :
    (setPrev x value links).next = links.next := rfl

@[simp]
theorem setNext_prev (x value : Cell) (links : Links Cell) :
    (setNext x value links).prev = links.prev := rfl

theorem setPrev_prev (x value y : Cell) (links : Links Cell) :
    (setPrev x value links).prev y = if y = x then value else links.prev y :=
  Function.update_apply links.prev x value y

theorem setNext_next (x value y : Cell) (links : Links Cell) :
    (setNext x value links).next y = if y = x then value else links.next y :=
  Function.update_apply links.next x value y

end Operations

variable {links links' : Links Cell} {h x : Cell} {cells left right : List Cell}

/-- A chain of links needs the `next` of all cells but the last and the `prev` of all
but the first. -/
theorem isChain_congr (hchain : cells.IsChain (Linked links))
    (hnext : ∀ a ∈ cells.dropLast, links'.next a = links.next a)
    (hprev : ∀ b ∈ cells.tail, links'.prev b = links.prev b) :
    cells.IsChain (Linked links') := by
  induction cells with
  | nil => exact List.isChain_nil
  | cons a rest ih =>
      cases rest with
      | nil => exact List.isChain_singleton a
      | cons b rest =>
          obtain ⟨hlinked, hrest⟩ := List.isChain_cons_cons.mp hchain
          rw [List.isChain_cons_cons]
          constructor
          · constructor
            · rw [hnext a (by simp), hlinked.1]
            · rw [hprev b (by simp), hlinked.2]
          · apply ih hrest
            · intro c hc
              exact hnext c (by simp [hc])
            · intro c hc
              exact hprev c (by simp_all)

/-- Writes to cells that are not on a ring do not touch it. -/
theorem Ring.congr (hring : Ring links h cells)
    (hnext : ∀ a ∈ h :: cells, links'.next a = links.next a)
    (hprev : ∀ b ∈ h :: cells, links'.prev b = links.prev b) : Ring links' h cells := by
  refine ⟨hring.nodup, isChain_congr hring.linked ?_ ?_⟩
  · intro a ha
    apply hnext
    rwa [← List.cons_append, List.dropLast_concat] at ha
  · intro b hb
    apply hprev
    rw [List.tail_cons, List.mem_append, List.mem_singleton] at hb
    rw [List.mem_cons]
    exact hb.symm

theorem Ring.next_head (hring : Ring links h cells) : links.next h = cells.headD h := by
  cases cells with
  | nil => exact ((List.isChain_pair).mp hring.linked).1
  | cons first rest => exact (List.isChain_cons_cons.mp hring.linked).1.1

theorem Ring.prev_head (hring : Ring links h cells) :
    links.prev h = cells.getLastD h := by
  rcases List.eq_nil_or_concat cells with rfl | ⟨front, last, rfl⟩
  · exact ((List.isChain_pair).mp hring.linked).2
  · have hlinked := hring.linked
    rw [List.concat_eq_append, List.append_assoc, List.singleton_append,
      List.isChain_cons_append_cons_cons] at hlinked
    rw [List.concat_eq_append, hlinked.2.1.2, List.getLastD_concat]

/-- One can go round from any cell. -/
theorem Ring.rotate (hring : Ring links h (left ++ x :: right)) :
    Ring links x (right ++ h :: left) := by
  constructor
  · have hperm : ((x :: right) ++ (h :: left)).Perm ((h :: left) ++ (x :: right)) :=
      List.perm_append_comm
    exact hperm.nodup_iff.mpr hring.nodup
  · have hlinked : ((h :: left) ++ x :: (right ++ [h])).IsChain (Linked links) := by
      simpa using hring.linked
    have hrotated : ((x :: right) ++ h :: (left ++ [x])).IsChain (Linked links) := by
      rw [List.isChain_split] at hlinked ⊢
      exact ⟨hlinked.2, hlinked.1⟩
    simpa using hrotated

theorem Ring.prev_cell (hring : Ring links h (left ++ x :: right)) :
    links.prev x = left.getLastD h := by
  rw [hring.rotate.prev_head]
  rcases List.eq_nil_or_concat left with rfl | ⟨front, last, rfl⟩
  · rw [List.getLastD_concat, List.getLastD_nil]
  · rw [List.concat_eq_append, ← List.cons_append, ← List.append_assoc, List.getLastD_concat,
      List.getLastD_concat]

theorem Ring.next_cell (hring : Ring links h (left ++ x :: right)) :
    links.next x = right.headD h := by
  rw [hring.rotate.next_head]
  cases right <;> rfl

/-- The links of a ring do not leave it. -/
theorem Ring.prev_mem (hring : Ring links h cells) {c : Cell} (hc : c ∈ h :: cells) :
    links.prev c ∈ h :: cells := by
  obtain rfl | hin := List.mem_cons.mp hc
  · rw [hring.prev_head]
    exact List.getLastD_mem_cons
  · obtain ⟨left, right, rfl⟩ := List.append_of_mem hin
    rw [hring.prev_cell, ← List.cons_append]
    exact List.mem_append_left _ List.getLastD_mem_cons

theorem Ring.next_mem (hring : Ring links h cells) {c : Cell} (hc : c ∈ h :: cells) :
    links.next c ∈ h :: cells := by
  obtain rfl | hin := List.mem_cons.mp hc
  · rw [hring.next_head]
    cases cells <;> simp
  · obtain ⟨left, right, rfl⟩ := List.append_of_mem hin
    rw [hring.next_cell]
    cases right <;> simp

/-- The last cell of a ring, which may be the sentinel. -/
theorem exists_concat (h : Cell) (cells : List Cell) :
    ∃ front last, h :: cells = front ++ [last] := by
  rcases List.eq_nil_or_concat (h :: cells) with hnil | ⟨front, last, heq⟩
  · cases hnil
  · exact ⟨front, last, by rw [heq, List.concat_eq_append]⟩

theorem ne_last {front : List Cell} {last : Cell} (hnodup : (front ++ [last]).Nodup) :
    ∀ a ∈ front, a ≠ last :=
  fun a ha => (List.nodup_append.mp hnodup).2.2 a ha last (List.mem_singleton.mpr rfl)

theorem Ring.closed {front : List Cell} {last : Cell} (hring : Ring links h cells)
    (hlast : h :: cells = front ++ [last]) :
    (front ++ [last]).IsChain (Linked links) ∧ Linked links last h := by
  have hlinked := hring.linked
  rw [← List.cons_append, hlast, List.append_assoc, List.singleton_append,
    List.isChain_append_cons_cons] at hlinked
  exact ⟨hlinked.1, hlinked.2.1⟩

/-- A chain that is closed is a ring. -/
theorem Ring.of_closed {front : List Cell} {last : Cell} (hnodup : (h :: cells).Nodup)
    (hlast : h :: cells = front ++ [last]) (hchain : (front ++ [last]).IsChain (Linked links))
    (hclose : Linked links last h) : Ring links h cells := by
  refine ⟨hnodup, ?_⟩
  rw [← List.cons_append, hlast, List.append_assoc, List.singleton_append,
    List.isChain_append_cons_cons]
  exact ⟨hchain, hclose, List.isChain_singleton h⟩

section Laws

variable [DecidableEq Cell]

theorem ring_init (h : Cell) (links : Links Cell) : Ring (init h links) h [] := by
  refine ⟨List.nodup_singleton h, List.isChain_pair.mpr ⟨?_, ?_⟩⟩
  · simp [init, setNext]
  · simp [init, setPrev]

theorem ring_insertHead (hring : Ring links h cells) (hx : x ∉ h :: cells) :
    Ring (insertHead h x links) h (x :: cells) := by
  have hnodup := hring.nodup
  have hlinked := hring.linked
  obtain ⟨hxh, hxcells⟩ : x ≠ h ∧ x ∉ cells := by simpa using hx
  refine ⟨by grind, ?_⟩
  -- `first` is the cell behind the sentinel, which may be the sentinel again
  obtain ⟨first, rest, hfirst⟩ : ∃ first rest, cells ++ [h] = first :: rest :=
    List.exists_cons_of_ne_nil (by simp)
  have hrotated : (first :: rest).Nodup := by
    rw [← hfirst]
    exact (List.nodup_append_comm.mp (by simpa using hnodup))
  have hmem : ∀ c, c ∈ first :: rest ↔ c = h ∨ c ∈ cells := by
    intro c
    rw [← hfirst, List.mem_append, List.mem_singleton, or_comm]
  have hfirstNe : first ≠ x := by
    rintro rfl
    rcases (hmem first).mp List.mem_cons_self with heq | hin
    · exact hxh heq
    · exact hxcells hin
  rw [hfirst] at hlinked
  obtain ⟨hhead, htail⟩ := List.isChain_cons_cons.mp hlinked
  rw [List.cons_append, hfirst, List.isChain_cons_cons, List.isChain_cons_cons]
  refine ⟨⟨?_, ?_⟩, ⟨?_, ?_⟩, isChain_congr htail ?_ ?_⟩
  · simp [insertHead, setNext_next]
  · simp [insertHead, setPrev_prev]
  · simp [insertHead, setNext_next, hxh, hhead.1]
  · simp [insertHead, setPrev_prev, setNext_next, hfirstNe, hhead.1]
  · intro a ha
    rw [← hfirst, List.dropLast_concat] at ha
    have hah : a ≠ h := by
      rintro rfl
      exact (List.nodup_cons.mp hnodup).1 ha
    have hax : a ≠ x := by
      rintro rfl
      exact hxcells ha
    simp [insertHead, setNext_next, hah, hax]
  · intro b hb
    have hbfirst : b ≠ first := by
      rintro rfl
      exact (List.nodup_cons.mp hrotated).1 hb
    have hbx : b ≠ x := by
      rintro rfl
      rcases (hmem b).mp (List.mem_cons_of_mem _ hb) with heq | hin
      · exact hxh heq
      · exact hxcells hin
    simp [insertHead, setPrev_prev, setNext_next, hbx, hhead.1, hbfirst]

/-- The same behind a cell of the ring. -/
theorem ring_insertHead_cell (hring : Ring links h (left ++ right))
    (hx : x ∉ h :: (left ++ right)) :
    Ring (insertHead (left.getLastD h) x links) h (left ++ x :: right) := by
  rcases List.eq_nil_or_concat left with rfl | ⟨front, last, rfl⟩
  · exact ring_insertHead hring hx
  · rw [List.concat_eq_append] at hring hx ⊢
    rw [List.append_assoc, List.singleton_append] at hring hx ⊢
    rw [List.getLastD_concat]
    exact (ring_insertHead hring.rotate (by simp_all)).rotate

theorem ring_insertTail (hring : Ring links h cells) (hx : x ∉ h :: cells) :
    Ring (insertTail h x links) h (cells ++ [x]) := by
  have hnodup := hring.nodup
  have hlinked := hring.linked
  obtain ⟨hxh, hxcells⟩ : x ≠ h ∧ x ∉ cells := by simpa using hx
  refine ⟨by grind, ?_⟩
  -- `last` is the cell before the sentinel, which may be the sentinel again
  obtain ⟨front, last, hlast⟩ := exists_concat h cells
  have hmem : ∀ c, c ∈ front ++ [last] ↔ c = h ∨ c ∈ cells := by
    intro c
    rw [← hlast, List.mem_cons]
  have hlastNe : last ≠ x := by
    rintro rfl
    rcases (hmem last).mp (by simp) with heq | hin
    · exact hxh heq
    · exact hxcells hin
  rw [hlast] at hnodup
  rw [← List.cons_append, hlast, List.append_assoc, List.singleton_append,
    List.isChain_append_cons_cons] at hlinked
  obtain ⟨hfront, hclose, -⟩ := hlinked
  rw [← List.cons_append, ← List.cons_append, hlast, List.append_assoc, List.append_assoc,
    List.singleton_append, List.singleton_append, List.isChain_append_cons_cons,
    List.isChain_cons_cons]
  refine ⟨isChain_congr hfront ?_ ?_, ⟨?_, ?_⟩, ⟨?_, ?_⟩, List.isChain_singleton h⟩
  · intro a ha
    rw [List.dropLast_concat] at ha
    have halast : a ≠ last := by
      rintro rfl
      simp [List.nodup_append] at hnodup
      exact hnodup.2 a ha rfl
    have hax : a ≠ x := by
      rintro rfl
      rcases (hmem a).mp (by simp [ha]) with heq | hin
      · exact hxh heq
      · exact hxcells hin
    simp [insertTail, setNext_next, setPrev_prev, hclose.2, hax, halast]
  · intro b hb
    rw [← hlast, List.tail_cons] at hb
    have hbh : b ≠ h := by
      rintro rfl
      rw [← hlast] at hnodup
      exact (List.nodup_cons.mp hnodup).1 hb
    have hbx : b ≠ x := by
      rintro rfl
      exact hxcells hb
    simp [insertTail, setPrev_prev, hbh, hbx]
  · simp [insertTail, setNext_next, setPrev_prev, hclose.2, hlastNe]
  · simp [insertTail, setPrev_prev, hxh, hclose.2]
  · simp [insertTail, setNext_next]
  · simp [insertTail, setPrev_prev]

theorem ring_remove (hring : Ring links h (left ++ x :: right)) :
    Ring (remove x links) h (left ++ right) := by
  have hnodup := hring.nodup
  have hlinked := hring.linked
  refine ⟨by grind, ?_⟩
  -- the neighbours of `x`, one or both of which may be the sentinel
  obtain ⟨front, before, hbefore⟩ := exists_concat h left
  obtain ⟨behind, rest, hbehind⟩ : ∃ behind rest, right ++ [h] = behind :: rest :=
    List.exists_cons_of_ne_nil (by simp)
  have hall : h :: (left ++ x :: right ++ [h]) = front ++ before :: x :: behind :: rest := by
    rw [List.append_assoc, List.cons_append, hbehind, ← List.cons_append, hbefore,
      List.append_assoc, List.singleton_append]
  have hresult : h :: (left ++ right ++ [h]) = front ++ before :: behind :: rest := by
    rw [List.append_assoc, hbehind, ← List.cons_append, hbefore, List.append_assoc,
      List.singleton_append]
  rw [hall, List.isChain_append_cons_cons, List.isChain_cons_cons] at hlinked
  obtain ⟨hfront, hx, hxbehind, hrest⟩ := hlinked
  rw [hresult, List.isChain_append_cons_cons]
  have hbeforeNodup : (front ++ [before]).Nodup := by
    rw [← hbefore]
    grind
  have hbehindNodup : (behind :: rest).Nodup := by
    rw [← hbehind]
    grind
  have hbehindNe : x ≠ behind := by
    rintro rfl
    have hin : x ∈ right ++ [h] := by simp [hbehind]
    grind
  refine ⟨isChain_congr hfront ?_ ?_, ⟨?_, ?_⟩, isChain_congr hrest ?_ ?_⟩
  · intro a ha
    rw [List.dropLast_concat] at ha
    have hne : a ≠ before := by
      rintro rfl
      simp [List.nodup_append] at hbeforeNodup
      exact hbeforeNodup.2 a ha rfl
    simp [remove, setNext_next, setPrev_prev, hxbehind.1, hbehindNe, hx.2, hne]
  · intro b hb
    have hne : b ≠ behind := by
      rintro rfl
      rw [← hbefore, List.tail_cons] at hb
      have hin : b ∈ right ++ [h] := by simp [hbehind]
      grind
    simp [remove, setPrev_prev, hxbehind.1, hne]
  · simp [remove, setNext_next, setPrev_prev, hxbehind.1, hbehindNe, hx.2]
  · simp [remove, setPrev_prev, hxbehind.1, hx.2]
  · intro a ha
    have hne : a ≠ before := by
      rintro rfl
      rw [← hbehind, List.dropLast_concat] at ha
      have hin : a ∈ h :: left := by simp [hbefore]
      grind
    simp [remove, setNext_next, setPrev_prev, hxbehind.1, hbehindNe, hx.2, hne]
  · intro b hb
    have hne : b ≠ behind := by
      rintro rfl
      exact (List.nodup_cons.mp hbehindNodup).1 hb
    simp [remove, setPrev_prev, hxbehind.1, hne]

/-- The ring of `h` keeps the cells before `q`. -/
theorem ring_split {q n : Cell} (hring : Ring links h (left ++ q :: right))
    (hn : n ∉ h :: (left ++ q :: right)) :
    Ring (split h q n links) h left ∧ Ring (split h q n links) n (q :: right) := by
  have hnodup := hring.nodup
  obtain ⟨front, before, hbefore⟩ := exists_concat h left
  obtain ⟨behind, last, hlast⟩ := exists_concat q right
  have hcells : h :: (left ++ q :: right) = (front ++ [before]) ++ (behind ++ [last]) := by
    rw [← hbefore, ← hlast, List.cons_append]
  have hlinked : (front ++ before :: q :: (right ++ [h])).IsChain (Linked links) := by
    have hlinked := hring.linked
    rw [← List.cons_append, hcells, ← hlast] at hlinked
    simpa using hlinked
  rw [List.isChain_append_cons_cons, ← List.cons_append, hlast, List.append_assoc,
    List.singleton_append, List.isChain_append_cons_cons] at hlinked
  obtain ⟨hleft, hcut, hright, hclose, -⟩ := hlinked
  have hsides := hnodup
  rw [hcells] at hn hsides
  obtain ⟨hfront, hbehind, hapart⟩ := List.nodup_append.mp hsides
  have hleftNot : ∀ a ∈ front, a ≠ before := ne_last hfront
  have hrightNot : ∀ a ∈ behind, a ≠ last := ne_last hbehind
  have hleftIn : ∀ a ∈ h :: left, a ≠ n ∧ ∀ b ∈ q :: right, a ≠ b := by
    intro a ha
    rw [hbefore] at ha
    refine ⟨fun heq => hn (heq ▸ List.mem_append_left _ ha), fun b hb => hapart a ha b ?_⟩
    rwa [← hlast]
  have hrightIn : ∀ b ∈ q :: right, b ≠ n := by
    intro b hb heq
    rw [hlast] at hb
    exact hn (heq ▸ List.mem_append_right _ hb)
  have hbeforeIn : before ∈ h :: left := by simp [hbefore]
  have hlastIn : last ∈ q :: right := by simp [hlast]
  have hqn : q ≠ n := hrightIn q List.mem_cons_self
  have hhn : h ≠ n := (hleftIn h List.mem_cons_self).1
  have hqh : q ≠ h := ((hleftIn h List.mem_cons_self).2 q List.mem_cons_self).symm
  have hprev : ∀ y, (split h q n links).prev y =
      if y = q then n else if y = h then before else if y = n then last else links.prev y := by
    intro y
    simp [split, setPrev_prev, hqn, hcut.2, hclose.2]
  have hnext : ∀ y, (split h q n links).next y =
      if y = before then h else if y = n then q else if y = last then n else links.next y := by
    intro y
    simp [split, setPrev_prev, setNext_next, hqn, hcut.2, hclose.2]
  constructor
  · apply Ring.of_closed (hbefore ▸ hfront) hbefore
    · apply isChain_congr hleft
      · intro a ha
        rw [List.dropLast_concat] at ha
        obtain ⟨han, haright⟩ := hleftIn a (by simp [hbefore, ha])
        rw [hnext, if_neg (hleftNot a ha), if_neg han, if_neg (haright last hlastIn)]
      · intro b hb
        rw [← hbefore, List.tail_cons] at hb
        obtain ⟨hbn, hbright⟩ := hleftIn b (List.mem_cons_of_mem _ hb)
        have hbh : b ≠ h := by
          rintro rfl
          exact (List.nodup_cons.mp (hbefore ▸ hfront)).1 hb
        rw [hprev, if_neg (hbright q List.mem_cons_self), if_neg hbh, if_neg hbn]
    · constructor
      · rw [hnext, if_pos rfl]
      · rw [hprev, if_neg hqh.symm, if_pos rfl]
  · have hnodup' : (n :: q :: right).Nodup :=
      List.nodup_cons.mpr ⟨fun hin => hrightIn n hin rfl, hlast ▸ hbehind⟩
    apply Ring.of_closed hnodup' (show n :: q :: right = n :: behind ++ [last] by rw [hlast]; rfl)
    · have hnq : (n :: q :: right).IsChain (Linked (split h q n links)) := by
        rw [List.isChain_cons_cons]
        refine ⟨⟨?_, ?_⟩, ?_⟩
        · rw [hnext, if_neg (hleftIn before hbeforeIn).1.symm, if_pos rfl]
        · rw [hprev, if_pos rfl]
        · rw [← hlast] at hright
          apply isChain_congr hright
          · intro a ha
            rw [hlast, List.dropLast_concat] at ha
            have hain : a ∈ q :: right := by simp [hlast, ha]
            rw [hnext, if_neg ((hleftIn before hbeforeIn).2 a hain).symm,
              if_neg (hrightIn a hain), if_neg (hrightNot a ha)]
          · intro b hb
            rw [List.tail_cons] at hb
            have hbin : b ∈ q :: right := List.mem_cons_of_mem _ hb
            have hbq : b ≠ q := by
              rintro rfl
              exact (List.nodup_cons.mp (hlast ▸ hbehind)).1 hb
            rw [hprev, if_neg hbq, if_neg ((hleftIn h List.mem_cons_self).2 b hbin).symm,
              if_neg (hrightIn b hbin)]
      rwa [hlast] at hnq
    · constructor
      · rw [hnext, if_neg ((hleftIn before hbeforeIn).2 last hlastIn).symm,
          if_neg (hrightIn last hlastIn), if_pos rfl]
      · rw [hprev, if_neg hqn.symm, if_neg hhn.symm, if_pos rfl]

/-- The cells of two rings one after the other.  The second sentinel is left where it was. -/
theorem ring_add {n : Cell} {cells' : List Cell} (hring : Ring links h cells)
    (hother : Ring links n cells') (hapart : ∀ a ∈ h :: cells, ∀ b ∈ n :: cells', a ≠ b) :
    Ring (add h n links) h (cells ++ cells') := by
  obtain ⟨front, last, hlast⟩ := exists_concat h cells
  obtain ⟨hchain, hclose⟩ := hring.closed hlast
  have hnodup := hring.nodup
  have hlastIn : last ∈ h :: cells := by simp [hlast]
  have hnlast : n ≠ last := (hapart last hlastIn n List.mem_cons_self).symm
  cases cells' with
  | nil =>
    -- nothing is added: the last cell is linked to `n` and back to `h`
    have hnext : links.next n = n := hother.next_head
    have hprev : links.prev n = n := hother.prev_head
    rw [List.append_nil]
    apply hring.congr
    · intro a ha
      have han := hapart a ha n List.mem_cons_self
      by_cases halast : a = last
      · simp [add, setNext_next, setPrev_prev, hclose.2, hnext, halast, hclose.1]
      · simp [add, setNext_next, setPrev_prev, hclose.2, hnext, halast]
    · intro b hb
      have hbn := hapart b hb n List.mem_cons_self
      by_cases hbh : b = h
      · simp [add, setNext_next, setPrev_prev, hclose.2, hnext, hnlast, hbh]
      · simp [add, setNext_next, setPrev_prev, hclose.2, hnext, hnlast, hbh, hbn]
  | cons first rest =>
    obtain ⟨behind, last', hlast'⟩ := exists_concat first rest
    have hfirst : links.next n = first := hother.next_head
    have hprevN : links.prev n = last' := by
      rw [hother.prev_head, hlast', List.getLastD_concat]
    have hchain' : (behind ++ [last']).IsChain (Linked links) := by
      have hlinked := hother.linked
      rw [List.cons_append, List.isChain_cons_cons, ← List.cons_append, hlast'] at hlinked
      exact (List.isChain_append.mp hlinked.2).1
    have hlastIn' : last' ∈ first :: rest := by simp [hlast']
    have hsides : ∀ a ∈ h :: cells, ∀ b ∈ first :: rest, a ≠ b :=
      fun a ha b hb => hapart a ha b (List.mem_cons_of_mem _ hb)
    have hnodup' : (first :: rest).Nodup := (List.nodup_cons.mp hother.nodup).2
    have hfirstH : first ≠ h := (hsides h List.mem_cons_self first List.mem_cons_self).symm
    have hnfirst : n ≠ first := by
      rintro rfl
      exact (List.nodup_cons.mp hother.nodup).1 List.mem_cons_self
    have hprev : ∀ y, (add h n links).prev y =
        if y = h then last' else if y = first then last else links.prev y := by
      intro y
      simp [add, setNext_next, setPrev_prev, hclose.2, hfirst, hprevN, hnlast, hnfirst]
    have hnext : ∀ y, (add h n links).next y =
        if y = last' then h else if y = last then first else links.next y := by
      intro y
      simp [add, setPrev_prev, setNext_next, hclose.2, hfirst, hprevN, hnlast, hnfirst]
    have hall : h :: (cells ++ first :: rest) = (front ++ last :: behind) ++ [last'] := by
      rw [← List.cons_append, hlast, hlast']
      simp
    have hnodupAll : (h :: (cells ++ first :: rest)).Nodup := by
      rw [← List.cons_append]
      exact List.nodup_append.mpr ⟨hnodup, hnodup', hsides⟩
    apply Ring.of_closed hnodupAll hall
    · have hwhole : (front ++ last :: first :: rest).IsChain (Linked (add h n links)) := by
        rw [List.isChain_append_cons_cons]
        refine ⟨isChain_congr hchain ?_ ?_, ⟨?_, ?_⟩, ?_⟩
        · intro a ha
          rw [List.dropLast_concat] at ha
          have hain : a ∈ h :: cells := by simp [hlast, ha]
          rw [hnext, if_neg (hsides a hain last' hlastIn'),
            if_neg (ne_last (hlast ▸ hnodup) a ha)]
        · intro b hb
          rw [← hlast, List.tail_cons] at hb
          have hbh : b ≠ h := by
            rintro rfl
            exact (List.nodup_cons.mp hnodup).1 hb
          rw [hprev, if_neg hbh,
            if_neg (hsides b (List.mem_cons_of_mem _ hb) first List.mem_cons_self)]
        · rw [hnext, if_neg (hsides last hlastIn last' hlastIn'), if_pos rfl]
        · rw [hprev, if_neg hfirstH, if_pos rfl]
        · rw [hlast']
          apply isChain_congr hchain'
          · intro a ha
            rw [List.dropLast_concat] at ha
            have hain : a ∈ first :: rest := by simp [hlast', ha]
            rw [hnext, if_neg (ne_last (hlast' ▸ hnodup') a ha),
              if_neg (hsides last hlastIn a hain).symm]
          · intro b hb
            rw [← hlast', List.tail_cons] at hb
            have hbfirst : b ≠ first := by
              rintro rfl
              exact (List.nodup_cons.mp hnodup').1 hb
            rw [hprev, if_neg (hsides h List.mem_cons_self b (List.mem_cons_of_mem _ hb)).symm,
              if_neg hbfirst]
      rw [hlast'] at hwhole
      simpa using hwhole
    · constructor
      · rw [hnext, if_pos rfl]
      · rw [hprev, if_pos rfl]

/-! ### Other rings -/

variable {k n : Cell} {cells' others : List Cell}

theorem Ring.init_other (hother : Ring links k others) (hx : x ∉ k :: others) :
    Ring (init x links) k others := by
  have hne : ∀ a ∈ k :: others, a ≠ x := fun a ha heq => hx (heq ▸ ha)
  apply hother.congr
  · intro a ha
    simp [init, setNext_next, hne a ha]
  · intro a ha
    simp [init, setPrev_prev, hne a ha]

theorem Ring.insertTail_other (hother : Ring links k others) (hring : Ring links h cells)
    (hapart : ∀ a ∈ k :: others, a ∉ h :: cells) (hx : x ∉ k :: others) :
    Ring (insertTail h x links) k others := by
  have hnex : ∀ a ∈ k :: others, a ≠ x := fun a ha heq => hx (heq ▸ ha)
  have hne : ∀ a ∈ k :: others, ∀ b ∈ h :: cells, a ≠ b :=
    fun a ha b hb heq => hapart a ha (heq ▸ hb)
  have hprev : links.prev h ∈ h :: cells := hring.prev_mem List.mem_cons_self
  apply hother.congr
  · intro a ha
    simp [insertTail, setNext_next, setPrev_prev, hnex a ha, hne a ha _ hprev]
  · intro a ha
    simp [insertTail, setPrev_prev, hnex a ha, hne a ha h List.mem_cons_self]

theorem Ring.remove_other (hother : Ring links k others) (hring : Ring links h cells)
    (hapart : ∀ a ∈ k :: others, a ∉ h :: cells) (hx : x ∈ cells) :
    Ring (remove x links) k others := by
  have hne : ∀ a ∈ k :: others, ∀ b ∈ h :: cells, a ≠ b :=
    fun a ha b hb heq => hapart a ha (heq ▸ hb)
  have hprev : links.prev x ∈ h :: cells := hring.prev_mem (List.mem_cons_of_mem _ hx)
  have hnext : links.next x ∈ h :: cells := hring.next_mem (List.mem_cons_of_mem _ hx)
  have hself : links.next x ≠ x := by
    obtain ⟨left, right, rfl⟩ := List.append_of_mem hx
    intro heq
    have hin : x ∈ right ++ h :: left := by
      have hmem := hring.next_cell
      rw [heq] at hmem
      cases right with
      | nil => simp [hmem]
      | cons b right => simp [show x = b from hmem]
    exact (List.nodup_cons.mp hring.rotate.nodup).1 hin
  apply hother.congr
  · intro a ha
    simp [remove, setNext_next, setPrev_prev, hne a ha _ hprev, hself.symm]
  · intro a ha
    simp [remove, setPrev_prev, hne a ha _ hnext]

theorem Ring.add_other (hother : Ring links k others) (hring : Ring links h cells)
    (hring' : Ring links n cells') (hapart : ∀ a ∈ k :: others, a ∉ h :: cells)
    (hapart' : ∀ a ∈ k :: others, a ∉ n :: cells') : Ring (add h n links) k others := by
  have hne : ∀ a ∈ k :: others, ∀ b ∈ h :: cells, a ≠ b :=
    fun a ha b hb heq => hapart a ha (heq ▸ hb)
  have hne' : ∀ a ∈ k :: others, ∀ b ∈ n :: cells', a ≠ b :=
    fun a ha b hb heq => hapart' a ha (heq ▸ hb)
  have hprev : links.prev h ∈ h :: cells := hring.prev_mem List.mem_cons_self
  have hprev' : links.prev n ∈ n :: cells' := hring'.prev_mem List.mem_cons_self
  have hnext' : links.next n ∈ n :: cells' := hring'.next_mem List.mem_cons_self
  have hfirst : (setNext (links.prev h) (links.next n) links).next n = links.next n := by
    rw [setNext_next, ite_self]
  have hlast : ∀ a ∈ k :: others, a ≠ if n = links.next n then links.prev h else links.prev n := by
    intro a ha
    split
    · exact hne a ha _ hprev
    · exact hne' a ha _ hprev'
  apply hother.congr
  · intro a ha
    simp [add, hfirst, setNext_next, setPrev_prev, hne a ha _ hprev, hlast a ha]
  · intro a ha
    simp [add, hfirst, setPrev_prev, hne a ha h List.mem_cons_self, hne' a ha _ hnext']

end Laws

end Night.Rings
