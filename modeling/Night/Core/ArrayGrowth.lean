import Night.Core.ArrayPush

/-!
# Arrays that grow

What the array holds survives its move to new storage: more bytes are read than the old
storage has, but the elements are among them.
-/

namespace Night.ArrayPush

open Night.Blocks Night.Bytes Night.Regions Night.PoolLarge
open Night.Memory (length_load load load_congr load_store load_store_of_disjoint store)
open Night.Pmalloc (nightAlign nightDefaultPoolLimit nightDefaultPoolSize poolLargeSize)

/-! ## Contents -/

/-- The elements of an array in the memory. -/
def contents (memory : ℕ → Byte) (a : NightArray) : List (List Byte) :=
  (List.range a.nelts).map fun i => load memory (a.element i).addr a.size

/-- An array in storage of the pool that is its own. -/
structure Stored (pool : Pool) (a : NightArray) : Prop where
  sound : Sound pool [⟨a.elts, nightAlign (a.size * a.nalloc)⟩]
  bound : a.nelts ≤ a.nalloc
  positive : 0 < a.nalloc
  small : a.size * a.nalloc < 2 ^ 63

variable {system : Allocator} {pool : Pool} {a array : NightArray}

theorem le_exN {n : ℕ} (hpos : 0 < n) : n + 1 ≤ exN n := by
  rw [exN]
  split <;> omega

theorem larger_eq (hsmall : a.size * exN a.nelts < 2 ^ 63) : a.larger = a.size * exN a.nelts :=
  Nat.mod_eq_of_lt (by omega)

theorem Stored.memory (hstored : Stored pool a) (memory : ℕ → Byte) :
    Stored { pool with memory := memory } a :=
  ⟨hstored.sound.memory memory, hstored.bound, hstored.positive, hstored.small⟩

theorem Stored.has (hstored : Stored pool a) {i k : ℕ} (hi : i < a.nelts) (hk : k < a.size) :
    Region.Has ⟨a.elts, nightAlign (a.size * a.nalloc)⟩ ((a.element i).addr + k) := by
  apply element_has hi hk
  have hbound : a.size * a.nelts ≤ a.size * a.nalloc := Nat.mul_le_mul_left _ hstored.bound
  exact le_min hbound (hbound.trans (Pmalloc.le_nightAlign hstored.small.le))

theorem stored_start {returned : List Region} {pool' : Pool} {n size : ℕ}
    (hsound : Sound pool returned) (hpos : 0 < n) (hsmall : size * n < 2 ^ 63)
    (hinit : nightArrayInit system pool n size = some (some a, pool')) :
    Stored pool' a ∧ a.nelts = 0 ∧ a.size = size := by
  have hproduct : mulSize n size = size * n := by
    rw [mulSize_eq (by rw [Nat.mul_comm]; omega), Nat.mul_comm]
  rw [nightArrayInit, hproduct] at hinit
  cases hcall : nightPmalloc system pool (size * n) with
  | none =>
    rw [hcall] at hinit
    cases hinit
  | some result =>
    obtain ⟨_ | elts, served⟩ := result
    · rw [hcall] at hinit
      cases hinit
    · rw [hcall] at hinit
      cases hinit
      have hserved := nightPmalloc_served hsound hcall
      exact ⟨⟨hserved.sound.forget (List.singleton_sublist.mpr List.mem_cons_self),
        Nat.zero_le _, hpos, hsmall⟩, rfl, rfl⟩

/-- The elements are where they were, or among the bytes that were copied. -/
theorem push_stored (hstored : Stored pool a) (hsmall : a.size * exN a.nelts < 2 ^ 63)
    {pushed : Pushed} (hpush : nightArrayPush system pool a = some pushed) :
    pushed.elt = none ∨
      (pushed.elt = some (pushed.array.element a.nelts).addr ∧ Stored pushed.pool pushed.array ∧
        pushed.array.nelts = a.nelts + 1 ∧ pushed.array.size = a.size ∧
        ∀ i < a.nelts, load pushed.pool.memory (pushed.array.element i).addr a.size =
          load pool.memory (a.element i).addr a.size) := by
  rw [nightArrayPush] at hpush
  by_cases hfull : a.nelts = a.nalloc
  · rw [if_pos hfull] at hpush
    cases hcall : nightPmalloc system pool a.larger with
    | none =>
      rw [hcall] at hpush
      cases hpush
    | some result =>
      obtain ⟨_ | new, pool'⟩ := result
      · rw [hcall] at hpush
        cases hpush
        exact Or.inl rfl
      · rw [hcall] at hpush
        cases hpush
        have hserved := nightPmalloc_served hstored.sound hcall
        have hmore := le_exN (hfull ▸ hstored.positive)
        rw [larger_eq hsmall] at hserved
        refine Or.inr ⟨rfl, ⟨?_, hmore, (Nat.succ_pos _).trans_le hmore, hsmall⟩, rfl, rfl, ?_⟩
        · exact (hserved.sound.memory _).forget (List.singleton_sublist.mpr List.mem_cons_self)
        · intro i hi
          apply load_congr
          intro k hk
          have hnext : a.size * (i + 1) ≤ a.size * exN a.nelts :=
            Nat.mul_le_mul_left _ (by omega)
          rw [Nat.mul_succ] at hnext
          have hcopied : a.size * i + k < a.larger := by
            rw [larger_eq hsmall]
            omega
          calc memcpy pool'.memory ⟨new, a.larger⟩ a.elts (new + a.size * i + k)
              = memcpy pool'.memory ⟨new, a.larger⟩ a.elts (new + (a.size * i + k)) := by
                rw [Nat.add_assoc]
            _ = pool'.memory (a.elts + (a.size * i + k)) := memcpy_has hcopied a.elts
            _ = pool'.memory ((a.element i).addr + k) := by rw [← Nat.add_assoc]; rfl
            _ = pool.memory ((a.element i).addr + k) :=
                hserved.memory _ (List.mem_singleton.mpr rfl) _ (hstored.has hi hk)
  · rw [if_neg hfull] at hpush
    cases hpush
    have hbound := hstored.bound
    exact Or.inr ⟨rfl, ⟨hstored.sound, show a.nelts + 1 ≤ a.nalloc by omega, hstored.positive,
      hstored.small⟩, rfl, rfl, fun i hi => rfl⟩

/-- A push with a write of the new element puts it behind the others. -/
theorem contents_push (hstored : Stored pool a) (hsmall : a.size * exN a.nelts < 2 ^ 63)
    {p copied : ℕ} {array : NightArray} {pool' : Pool}
    (hpush : nightArrayPush system pool a = some ⟨some p, array, pool', copied⟩)
    {block : List Byte} (hblock : block.length = a.size) :
    Stored { pool' with memory := store pool'.memory p block } array ∧
      array.nelts = a.nelts + 1 ∧ array.size = a.size ∧
      contents (store pool'.memory p block) array = contents pool.memory a ++ [block] := by
  obtain hnone | ⟨helt, hstored', hnelts, hsize, hkept⟩ := push_stored hstored hsmall hpush
  · cases hnone
  obtain rfl : p = (array.element a.nelts).addr := Option.some.inj helt
  refine ⟨hstored'.memory _, hnelts, hsize, ?_⟩
  change array.nelts = a.nelts + 1 at hnelts
  change array.size = a.size at hsize
  rw [contents, contents, hnelts, List.range_succ, List.map_append, List.map_singleton]
  congr 1
  · apply List.map_congr_left
    intro i hi
    have hi := List.mem_range.mp hi
    have hdisjoint := element_disjoint array (Nat.ne_of_lt hi)
    rw [hsize] at hdisjoint ⊢
    rw [load_store_of_disjoint (by rw [hblock]; exact hdisjoint)]
    exact hkept i hi
  · rw [hsize, ← hblock, load_store]

/-! ## Success -/

/-- A system that serves every request never makes a call fail. -/
theorem nightPmallocDepth_small_some (hsystem : ∀ owned size, (system.alloc owned size).isSome)
    {size depth : ℕ} (hsmall : nightAlign size < pool.limit) :
    ∃ p pool', nightPmallocDepth system (depth + 1) pool size = some (some p, pool') := by
  have hcall : ∃ p pool', nightPmallocSmall system pool (nightAlign size) = some (p, pool') := by
    rw [nightPmallocSmall]
    cases htake : pool.chain.take id (nightAlign size) with
    | some taken => exact ⟨_, _, rfl⟩
    | none =>
      obtain ⟨m, halloc⟩ := Option.isSome_iff_exists.mp (hsystem pool.heap nightDefaultPoolSize)
      have hblock : (nightPmallocBlock system pool (nightAlign size)).isSome := by
        rw [nightPmallocBlock, halloc]
        rfl
      obtain ⟨⟨p, pool'⟩, hblock⟩ := Option.isSome_iff_exists.mp hblock
      exact ⟨p, pool', hblock⟩
  obtain ⟨p, pool', hcall⟩ := hcall
  rw [nightPmallocDepth, if_pos hsmall, hcall]
  exact ⟨_, _, rfl⟩

theorem nightPmalloc_some (hsystem : ∀ owned size, (system.alloc owned size).isSome)
    (hlimit : pool.limit = nightDefaultPoolLimit) (size : ℕ) :
    ∃ p pool', nightPmalloc system pool size = some (some p, pool') := by
  by_cases hsmall : nightAlign size < pool.limit
  · exact nightPmallocDepth_small_some hsystem hsmall
  · have hrecord : nightAlign poolLargeSize < pool.limit := by
      rw [hlimit]
      decide
    obtain ⟨l, middle, hcall⟩ := @nightPmallocDepth_small_some _ _ hsystem _ 0 hrecord
    obtain ⟨p, halloc⟩ := Option.isSome_iff_exists.mp (hsystem middle.heap (nightAlign size))
    rw [nightPmalloc, nightPmallocDepth, if_neg hsmall]
    simp only [nightPmallocLarge, hcall, halloc]
    exact ⟨_, _, rfl⟩

theorem push_some (hsystem : ∀ owned size, (system.alloc owned size).isSome)
    (hstored : Stored pool a) :
    ∃ p array pool' copied, nightArrayPush system pool a = some ⟨some p, array, pool', copied⟩ := by
  rw [nightArrayPush]
  by_cases hfull : a.nelts = a.nalloc
  · obtain ⟨new, pool', hcall⟩ := nightPmalloc_some hsystem hstored.sound.limit a.larger
    rw [if_pos hfull, hcall]
    exact ⟨_, _, _, _, rfl⟩
  · rw [if_neg hfull]
    exact ⟨_, _, _, _, rfl⟩

end Night.ArrayPush
