import Mathlib.Data.List.Basic

/-!
# Regions of a memory

The cells of a memory from an address on, as a list.
-/

namespace Night.Regions

variable {α : Type*} (memory : ℕ → α)

/-- The `count` cells from `start` on. -/
def region (start count : ℕ) : List α := (List.range' start count).map memory

@[simp]
theorem length_region (start count : ℕ) : (region memory start count).length = count := by
  rw [region, List.length_map, List.length_range']

/-- Regions that touch are one region. -/
theorem region_append (start count count' : ℕ) :
    region memory start count ++ region memory (start + count) count' =
      region memory start (count + count') := by
  rw [region, region, ← List.map_append, List.range'_append_1]
  rfl

theorem drop_region (start count sent : ℕ) :
    (region memory start count).drop sent = region memory (start + sent) (count - sent) := by
  rw [region, ← List.map_drop, List.drop_range', Nat.mul_one]
  rfl

theorem take_region (start count limit : ℕ) :
    (region memory start count).take limit = region memory start (min limit count) := by
  rcases Nat.le_total limit count with hle | hle
  · have hsplit := region_append memory start limit (count - limit)
    rw [Nat.add_sub_cancel' hle] at hsplit
    rw [← hsplit, Nat.min_eq_left hle]
    exact List.take_left' (length_region memory start limit)
  · rw [Nat.min_eq_right hle]
    apply List.take_of_length_le
    rwa [length_region]

end Night.Regions
