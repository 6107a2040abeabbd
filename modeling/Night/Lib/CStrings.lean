import Mathlib.Algebra.BigOperators.Group.List.Basic
import Mathlib.Algebra.GroupWithZero.Nat
import Mathlib.Data.List.Nodup
import Mathlib.Data.List.Perm.Subperm
import Mathlib.Data.List.Range
import Night.Lib.Memory

/-!
# Strings in memory

A string of C is a text without a NUL at an address, and the NUL that ends it.  Strings that
do not overlap need together no more room than the memory has.
-/

namespace Night.CStrings

open Memory

/-- A text and the address of its first byte. -/
structure CString where
  start : ℕ
  text : List (BitVec 8)
  nonzero : ∀ ch ∈ text, ch ≠ 0

namespace CString

/-- The bytes it takes, with its NUL. -/
def size (s : CString) : ℕ := s.text.length + 1

/-- The address after its NUL. -/
def stop (s : CString) : ℕ := s.start + s.size

def bytes (s : CString) : List (BitVec 8) := s.text ++ [0]

/-- The memory holds the string. -/
def In (s : CString) (memory : ℕ → BitVec 8) : Prop := load memory s.start s.size = s.bytes

/-- The same text at another address. -/
def moveTo (s : CString) (start : ℕ) : CString := { s with start := start }

/-- They share no byte. -/
def Apart (s t : CString) : Prop := s.stop ≤ t.start ∨ t.stop ≤ s.start

end CString

/-- The room that strings need one after another. -/
def total (strings : List CString) : ℕ := (strings.map CString.size).sum

/-- `strlen(p)`, reading at most `fuel` bytes. -/
def strlen (memory : ℕ → BitVec 8) : ℕ → ℕ → Option ℕ
  | 0, _ => none
  | fuel + 1, p => if memory p = 0 then some 0 else (strlen memory fuel (p + 1)).map (· + 1)

/-! ## Bytes one by one -/

variable {memory memory' : ℕ → BitVec 8} {s t : CString} {start : ℕ}

theorem load_succ (memory : ℕ → BitVec 8) (start count : ℕ) :
    load memory start (count + 1) = memory start :: load memory (start + 1) count := by
  rw [load, load, List.range_succ_eq_map, List.map_cons, List.map_map, Nat.add_zero]
  congr 1
  apply List.map_congr_left
  intro i hi
  exact congrArg memory (by rw [Nat.succ_eq_add_one]; omega)

/-- A store of one byte and of those that follow it. -/
theorem store_cons (ch : BitVec 8) (bytes : List (BitVec 8)) :
    store (store memory start [ch]) (start + 1) bytes = store memory start (ch :: bytes) := by
  funext address
  rcases lt_trichotomy address start with hbefore | rfl | hafter
  · rw [store_outside (Or.inl (by omega)), store_outside (Or.inl hbefore),
      store_outside (Or.inl hbefore)]
  · rw [store_outside (Or.inl (by omega)), store, store, if_pos ⟨le_rfl, by simp⟩,
      if_pos ⟨le_rfl, by simp⟩, Nat.sub_self, List.getD_cons_zero, List.getD_cons_zero]
  · by_cases hin : address < start + 1 + bytes.length
    · rw [store, if_pos ⟨hafter, hin⟩, store, if_pos ⟨by omega, by rw [List.length_cons]; omega⟩,
        show address - start = address - (start + 1) + 1 by omega, List.getD_cons_succ]
    · rw [store_outside (Or.inr (by omega)),
        store_outside (Or.inr (by rw [List.length_singleton]; omega)),
        store_outside (Or.inr (by rw [List.length_cons]; omega))]

/-! ## One string -/

namespace CString

theorem length_bytes (s : CString) : s.bytes.length = s.size := by
  rw [bytes, List.length_append, List.length_singleton, size]

theorem start_lt_stop (s : CString) : s.start < s.stop := by
  rw [stop, size]
  omega

theorem Apart.symm (h : s.Apart t) : t.Apart s := Or.symm h

theorem In.congr (hin : s.In memory)
    (hsame : ∀ address, s.start ≤ address → address < s.stop → memory' address = memory address) :
    s.In memory' := by
  rw [In, ← show load memory s.start s.size = s.bytes from hin]
  apply load_congr
  intro i hi
  exact hsame _ (Nat.le_add_right _ _) (by rw [stop]; omega)

/-- Its copy is in the memory once its bytes are stored there. -/
theorem in_store (memory : ℕ → BitVec 8) (s : CString) (start : ℕ) :
    (s.moveTo start).In (store memory start s.bytes) := by
  have hload := load_store memory start s.bytes
  rwa [length_bytes] at hload

end CString

theorem strlen_load {text : List (BitVec 8)} {p fuel : ℕ} (hfuel : text.length < fuel)
    (hnonzero : ∀ ch ∈ text, ch ≠ 0) (hload : load memory p (text.length + 1) = text ++ [0]) :
    strlen memory fuel p = some text.length := by
  obtain ⟨fuel, rfl⟩ := Nat.exists_eq_succ_of_ne_zero (Nat.ne_of_gt (Nat.zero_lt_of_lt hfuel))
  induction text generalizing p fuel with
  | nil =>
    rw [List.length_nil, load_succ] at hload
    rw [strlen, if_pos (List.cons.inj hload).1]
    rfl
  | cons ch text ih =>
    rw [List.length_cons, load_succ] at hload
    obtain ⟨hch, hrest⟩ := List.cons.inj hload
    have hne : memory p ≠ 0 := by
      rw [hch]
      exact hnonzero ch List.mem_cons_self
    have htext : ∀ ch ∈ text, ch ≠ 0 := fun ch hmem => hnonzero ch (List.mem_cons_of_mem _ hmem)
    have hmore : text.length < fuel := Nat.lt_of_succ_lt_succ hfuel
    obtain ⟨fuel, rfl⟩ := Nat.exists_eq_succ_of_ne_zero (Nat.ne_of_gt (Nat.zero_lt_of_lt hmore))
    rw [strlen, if_neg hne, ih htext hrest fuel hmore]
    rfl

theorem CString.In.strlen {fuel : ℕ} (hin : s.In memory) (hfuel : s.text.length < fuel) :
    strlen memory fuel s.start = some s.text.length :=
  strlen_load hfuel s.nonzero hin

/-! ## Strings that do not overlap -/

@[simp]
theorem total_nil : total [] = 0 := rfl

@[simp]
theorem total_cons (s : CString) (strings : List CString) :
    total (s :: strings) = s.size + total strings := by
  rw [total, List.map_cons, List.sum_cons, total]

theorem total_append (strings strings' : List CString) :
    total (strings ++ strings') = total strings + total strings' := by
  rw [total, List.map_append, List.sum_append, total, total]

theorem total_le_of_sublist {strings strings' : List CString} (hsub : strings.Sublist strings') :
    total strings ≤ total strings' := by
  induction hsub with
  | slnil => exact le_rfl
  | cons s hsub ih =>
    rw [total_cons]
    exact ih.trans (Nat.le_add_left _ _)
  | cons_cons s hsub ih =>
    rw [total_cons, total_cons]
    exact Nat.add_le_add_left ih _

/-- The addresses of the bytes of all the strings. -/
def addresses (strings : List CString) : List ℕ :=
  strings.flatMap fun s => List.range' s.start s.size

theorem mem_addresses {strings : List CString} {address : ℕ} :
    address ∈ addresses strings ↔ ∃ s ∈ strings, s.start ≤ address ∧ address < s.stop := by
  simp only [addresses, List.mem_flatMap, List.mem_range'_1, CString.stop]

theorem length_addresses (strings : List CString) :
    (addresses strings).length = total strings := by
  rw [addresses, List.length_flatMap, total]
  simp only [List.length_range']

theorem nodup_addresses {strings : List CString} (hapart : strings.Pairwise CString.Apart) :
    (addresses strings).Nodup := by
  apply List.nodup_flatMap.mpr
  refine ⟨fun s hs => List.nodup_range', ?_⟩
  apply hapart.imp
  intro s t hst address hs ht
  rw [List.mem_range'_1] at hs ht
  rw [CString.Apart, CString.stop, CString.stop] at hst
  omega

/-- Strings below a bound that do not overlap fit below it together. -/
theorem total_le {strings : List CString} {bound : ℕ} (hapart : strings.Pairwise CString.Apart)
    (hbelow : ∀ s ∈ strings, s.stop ≤ bound) : total strings ≤ bound := by
  have hsub : addresses strings ⊆ List.range bound := by
    intro address haddress
    obtain ⟨s, hs, -, hlt⟩ := mem_addresses.mp haddress
    exact List.mem_range.mpr (hlt.trans_le (hbelow s hs))
  calc total strings
      _ = (addresses strings).length := (length_addresses strings).symm
      _ ≤ (List.range bound).length := (List.subperm_of_subset (nodup_addresses hapart) hsub).length_le
      _ = bound := List.length_range

end Night.CStrings
