import Mathlib.Algebra.Group.Nat.Defs
import Mathlib.Data.List.GetD

/-!
# A block of memory

Bytes at offsets from the start of an allocated block, as a C program writes and reads
them, with integers in little-endian order.  An access outside the block has no result.
The last part has the bytes at all addresses instead.
-/

namespace Night.Memory

/-! ## Integers -/

/-- The `count` bytes of an integer, the lowest first. -/
def encode : ℕ → ℕ → List (BitVec 8)
  | 0, _ => []
  | count + 1, n => BitVec.ofNat 8 n :: encode count (n / 256)

def decode : List (BitVec 8) → ℕ
  | [] => 0
  | byte :: bytes => byte.toNat + 256 * decode bytes

@[simp]
theorem encode_length (count n : ℕ) : (encode count n).length = count := by
  induction count generalizing n with
  | zero => rfl
  | succ count ih => rw [encode, List.length_cons, ih]

theorem decode_encode (count n : ℕ) : decode (encode count n) = n % 256 ^ count := by
  induction count generalizing n with
  | zero => rw [encode, decode, Nat.pow_zero, Nat.mod_one]
  | succ count ih =>
      calc decode (encode (count + 1) n)
          _ = n % 256 + 256 * (n / 256 % 256 ^ count) := by
            rw [encode, decode, ih, BitVec.toNat_ofNat]
          _ = n % (256 * 256 ^ count) := Nat.mod_mul.symm
          _ = n % 256 ^ (count + 1) := by rw [Nat.pow_succ, Nat.mul_comm]

theorem encode_decode (bytes : List (BitVec 8)) : encode bytes.length (decode bytes) = bytes := by
  induction bytes with
  | nil => rfl
  | cons byte bytes ih =>
    have hlt := byte.isLt
    have hlow : BitVec.ofNat 8 (byte.toNat + 256 * decode bytes) = byte := by
      apply BitVec.eq_of_toNat_eq
      rw [BitVec.toNat_ofNat]
      omega
    have hrest : (byte.toNat + 256 * decode bytes) / 256 = decode bytes := by omega
    rw [List.length_cons, encode, decode, hlow, hrest, ih]

/-! ## Accesses -/

variable {block block' : List (BitVec 8)} {offset : ℕ} {bytes : List (BitVec 8)}

def write (block : List (BitVec 8)) (offset : ℕ) (bytes : List (BitVec 8)) :
    Option (List (BitVec 8)) :=
  if offset + bytes.length ≤ block.length then
    some (block.take offset ++ bytes ++ block.drop (offset + bytes.length))
  else none

def read (block : List (BitVec 8)) (offset count : ℕ) : Option (List (BitVec 8)) :=
  if offset + count ≤ block.length then some ((block.drop offset).take count) else none

theorem write_isSome (hfits : offset + bytes.length ≤ block.length) :
    ∃ block', write block offset bytes = some block' := by
  rw [write, if_pos hfits]
  exact ⟨_, rfl⟩

theorem write_eq_some (hwrite : write block offset bytes = some block') :
    offset + bytes.length ≤ block.length ∧
      block' = block.take offset ++ bytes ++ block.drop (offset + bytes.length) := by
  rw [write] at hwrite
  by_cases hfits : offset + bytes.length ≤ block.length
  · rw [if_pos hfits] at hwrite
    exact ⟨hfits, (Option.some.inj hwrite).symm⟩
  · rw [if_neg hfits] at hwrite
    cases hwrite

/-- Bytes that are written behind those that are there. -/
theorem write_append (front room : List (BitVec 8)) (hroom : bytes.length ≤ room.length) :
    write (front ++ room) front.length bytes = some (front ++ bytes ++ room.drop bytes.length) := by
  have hfits : front.length + bytes.length ≤ (front ++ room).length := by
    rw [List.length_append]
    exact Nat.add_le_add_left hroom _
  have hleft : (front ++ room).take front.length = front := List.take_left' rfl
  have hright : (front ++ room).drop (front.length + bytes.length) = room.drop bytes.length := by
    rw [← List.drop_drop, List.drop_left' rfl]
  rw [write, if_pos hfits, hleft, hright]

theorem write_length (hwrite : write block offset bytes = some block') :
    block'.length = block.length := by
  obtain ⟨hfits, rfl⟩ := write_eq_some hwrite
  simp only [List.length_append, List.length_take, List.length_drop]
  omega

theorem read_eq_some {count : ℕ} (hread : read block offset count = some bytes) :
    offset + count ≤ block.length := by
  rw [read] at hread
  split at hread
  · assumption
  · cases hread

/-- What was written is read. -/
theorem read_write (hwrite : write block offset bytes = some block') :
    read block' offset bytes.length = some bytes := by
  have hlength := write_length hwrite
  obtain ⟨hfits, rfl⟩ := write_eq_some hwrite
  have htake : (block.take offset).length = offset := by
    rw [List.length_take]
    omega
  rw [read, hlength, if_pos hfits, List.append_assoc, List.drop_left' htake, List.take_left]

/-- A write changes nothing outside its range. -/
theorem read_write_of_disjoint (hwrite : write block offset bytes = some block')
    {start count : ℕ} (hdisjoint : start + count ≤ offset ∨ offset + bytes.length ≤ start) :
    read block' start count = read block start count := by
  have hlength := write_length hwrite
  obtain ⟨hfits, rfl⟩ := write_eq_some hwrite
  rw [read, read, hlength]
  congr 2
  apply List.ext_getElem?
  intro i
  rw [List.getElem?_take, List.getElem?_take]
  by_cases hi : i < count
  · rw [if_pos hi, if_pos hi, List.getElem?_drop, List.getElem?_drop, List.append_assoc]
    rcases hdisjoint with hbefore | hafter
    · rw [List.getElem?_append_left (by rw [List.length_take]; omega),
        List.getElem?_take, if_pos (by omega)]
    · rw [List.getElem?_append_right (by rw [List.length_take]; omega),
        List.getElem?_append_right (by rw [List.length_take]; omega), List.getElem?_drop,
        List.length_take]
      congr 1
      omega
  · rw [if_neg hi, if_neg hi]

/-! ## All addresses -/

/-- The bytes from an address on are replaced. -/
def store (memory : ℕ → BitVec 8) (start : ℕ) (bytes : List (BitVec 8)) : ℕ → BitVec 8 :=
  fun address =>
    if start ≤ address ∧ address < start + bytes.length then bytes.getD (address - start) 0
    else memory address

def load (memory : ℕ → BitVec 8) (start count : ℕ) : List (BitVec 8) :=
  (List.range count).map fun i => memory (start + i)

variable {memory memory' : ℕ → BitVec 8} {start start' count : ℕ}

@[simp]
theorem length_load : (load memory start count).length = count := by
  rw [load, List.length_map, List.length_range]

theorem store_outside {address : ℕ} (hout : address < start ∨ start + bytes.length ≤ address) :
    store memory start bytes address = memory address := by
  rw [store, if_neg (by omega)]

theorem load_congr (hsame : ∀ i < count, memory' (start' + i) = memory (start + i)) :
    load memory' start' count = load memory start count := by
  rw [load, load]
  apply List.map_congr_left
  intro i hi
  exact hsame i (List.mem_range.mp hi)

/-- A part of what is read. -/
theorem load_part {offset size : ℕ} (hfits : offset + size ≤ count) :
    ((load memory start count).drop offset).take size = load memory (start + offset) size := by
  apply List.ext_getElem
  · rw [List.length_take, List.length_drop, length_load, length_load]
    omega
  · intro i hleft hi
    simp only [List.getElem_take, List.getElem_drop, load, List.getElem_map, List.getElem_range,
      Nat.add_assoc]

theorem load_store (memory : ℕ → BitVec 8) (start : ℕ) (bytes : List (BitVec 8)) :
    load (store memory start bytes) start bytes.length = bytes := by
  apply List.ext_getElem
  · rw [length_load]
  · intro i hleft hi
    simp only [load, List.getElem_map, List.getElem_range]
    rw [store, if_pos (by omega), Nat.add_sub_cancel_left, List.getD_eq_getElem _ _ hi]

/-- A store into what was stored before. -/
theorem store_store {offset : ℕ} {part bytes' : List (BitVec 8)}
    (hwrite : write bytes offset part = some bytes') :
    store (store memory start bytes) (start + offset) part = store memory start bytes' := by
  obtain ⟨hfits, rfl⟩ := write_eq_some hwrite
  funext address
  simp only [store, List.length_append, List.length_take, List.length_drop]
  by_cases hin : start ≤ address ∧ address < start + bytes.length
  · obtain ⟨i, rfl⟩ := Nat.exists_eq_add_of_le hin.1
    rw [Nat.add_sub_cancel_left]
    by_cases hpart : offset ≤ i ∧ i < offset + part.length
    · rw [if_pos (by omega), if_pos (by omega)]
      simp only [List.getD_eq_getElem?_getD, List.append_assoc]
      rw [List.getElem?_append_right (by rw [List.length_take]; omega),
        List.getElem?_append_left (by rw [List.length_take]; omega), List.length_take]
      congr 2
      omega
    · rw [if_neg (by omega), if_pos (by omega), if_pos (by omega)]
      simp only [List.getD_eq_getElem?_getD, List.append_assoc]
      by_cases hbefore : i < offset
      · rw [List.getElem?_append_left (by rw [List.length_take]; omega), List.getElem?_take,
          if_pos hbefore]
      · rw [List.getElem?_append_right (by rw [List.length_take]; omega),
          List.getElem?_append_right (by rw [List.length_take]; omega), List.getElem?_drop,
          List.length_take]
        congr 2
        omega
  · rw [if_neg (by omega), if_neg hin, if_neg (by omega)]

/-- What is stored elsewhere is not read. -/
theorem load_store_of_disjoint
    (hdisjoint : start' + count ≤ start ∨ start + bytes.length ≤ start') :
    load (store memory start bytes) start' count = load memory start' count := by
  apply load_congr
  intro i hi
  exact store_outside (by omega)

end Night.Memory
