import Night.Core.Blocks

/-!
# `night_pmalloc`

The pool of the older tree.  Sizes are rounded up to `NIGHT_ALIGN` before anything
else; requests below `limit` come from the blocks and the others from the system, with
a record in the pool itself.
-/

namespace Night.Pmalloc

open Night.Blocks
open Night.Bytes
open Night.Regions

/-! ## The pool -/

/-- `sizeof(night_pool_t)`, `sizeof(night_pool_data_t)` and `sizeof(night_pool_large_t)`. -/
def poolSize : ℕ := 64
def poolDataSize : ℕ := 32
def poolLargeSize : ℕ := 16

def nightAlignment : ℕ := 8
def nightDefaultPoolSize : ℕ := 4 * 4 * 1024
def nightDefaultPoolLimit : ℕ := 4 * 1024

/-- `night_align(size, NIGHT_ALIGN)` on a `size_t`. -/
def nightAlign (size : ℕ) : ℕ :=
  (size + (nightAlignment - 1)) % 2 ^ 64 / nightAlignment * nightAlignment

/-- The `night_pool_large_t` at `addr`, and what its `malloc` points to. -/
structure Large where
  addr : ℕ
  malloc : Region
  deriving DecidableEq, Repr

def Large.record (large : Large) : Region := ⟨large.addr, poolLargeSize⟩

/-- `night_pool_t`, with the bytes of the memory. -/
structure Pool where
  chain : Chain
  limit : ℕ
  large : List Large
  memory : ℕ → Byte

/-- What the pool has from the system. -/
def Pool.owned (pool : Pool) : List Region :=
  pool.chain.wholes ++ pool.large.map Large.malloc

variable (system : Allocator)

def nightCreatePool (memory : ℕ → Byte) (size : ℕ) : Option Pool := do
  let p ← system.alloc [] size
  some
    { chain := ⟨[⟨p, poolSize, p + poolSize, p + size, 0⟩], p⟩
      limit := nightDefaultPoolLimit
      large := []
      memory := memory }

/-- The new block with its first `size` bytes taken. -/
def takenBlock (m size : ℕ) : Block :=
  ⟨m, poolDataSize, m + poolDataSize + size, m + nightDefaultPoolSize, 0⟩

def nightPmallocBlock (pool : Pool) (size : ℕ) : Option (ℕ × Pool) := do
  let m ← system.alloc pool.owned nightDefaultPoolSize
  let r := m + poolDataSize
  some (r, { pool with chain := pool.chain.link (2 ^ 8) (takenBlock m size) })

def nightPmallocSmall (pool : Pool) (size : ℕ) : Option (ℕ × Pool) :=
  match pool.chain.take id size with
  | some (m, chain) => some (m, { pool with chain := chain })
  | none => nightPmallocBlock system pool size

/-- `night_pmalloc_large`; `pmalloc` is the call for the record. -/
def nightPmallocLarge (pmalloc : Pool → ℕ → Option (ℕ × Pool)) (pool : Pool) (size : ℕ) :
    Option (ℕ × Pool) := do
  let (l, pool) ← pmalloc pool poolLargeSize
  let p ← system.alloc pool.owned size
  some (p, { pool with large := ⟨l, ⟨p, size⟩⟩ :: pool.large })

/-- `night_pmalloc` with at most `depth` calls of itself inside each other. -/
def nightPmallocDepth : ℕ → Pool → ℕ → Option (ℕ × Pool)
  | 0, _, _ => none
  | depth + 1, pool, size => do
      let size := nightAlign size
      let (p, pool) ← (if size < pool.limit then nightPmallocSmall system pool size
        else nightPmallocLarge system (nightPmallocDepth depth) pool size)
      some (p, { pool with memory := nightMemzero pool.memory ⟨p, size⟩ })

/-- `night_pmalloc`; the record of a large region is small itself. -/
def nightPmalloc (pool : Pool) (size : ℕ) : Option (ℕ × Pool) :=
  nightPmallocDepth system 2 pool size

/-- Calls one after the other, with the regions they return. -/
def nightPmallocs : Pool → List Region → List ℕ → Option (Pool × List Region)
  | pool, regions, [] => some (pool, regions)
  | pool, regions, size :: sizes => do
      let (p, pool) ← nightPmalloc system pool size
      nightPmallocs pool (⟨p, size⟩ :: regions) sizes

/-! ## What a call keeps -/

variable {system}

/-- What the blocks, the large regions, the records and the regions that were returned
are to each other; a region is returned with its rounded size. -/
structure Sound (pool : Pool) (returned : List Region) : Prop where
  chain : pool.chain.Sound (pool.large.map Large.malloc)
    (returned ++ pool.large.map Large.record)
  limit : pool.limit = nightDefaultPoolLimit
  last : ∀ p ∈ pool.chain.blocks, p.last % nightAlignment = 0
  aligned : ∀ r ∈ returned, r.addr % nightAlignment = 0

variable {pool pool' : Pool} {returned : List Region} {size p : ℕ}

theorem nightAlign_mod (size : ℕ) : nightAlign size % nightAlignment = 0 :=
  Nat.mul_mod_left _ _

theorem le_nightAlign (hsize : size ≤ 2 ^ 63) : size ≤ nightAlign size := by
  rw [nightAlign, nightAlignment]
  omega

theorem takenBlock_valid {m : ℕ} (hsmall : size < nightDefaultPoolLimit) :
    (takenBlock m size).chunk.Valid where
  header_pos := show 0 < poolDataSize by decide
  low := Nat.le_add_right _ _
  high := by
    simp only [takenBlock, Block.chunk, Region.stop, poolDataSize, nightDefaultPoolSize,
      nightDefaultPoolLimit] at *
    omega

theorem takenBlock_whole (m size : ℕ) :
    (takenBlock m size).chunk.whole = ⟨m, nightDefaultPoolSize⟩ := by
  simp [takenBlock, Block.chunk]

theorem nightPmallocBlock_sound (hsystem : ∀ owned size, (system.alloc owned size).isSome)
    (hsound : Sound pool returned) (haligned : size % nightAlignment = 0)
    (hsmall : size < nightDefaultPoolLimit) :
    ∃ p chain', nightPmallocBlock system pool size = some (p, { pool with chain := chain' }) ∧
      Sound { pool with chain := chain' } (⟨p, size⟩ :: returned) := by
  obtain ⟨m, halloc⟩ := Option.isSome_iff_exists.mp (hsystem pool.owned nightDefaultPoolSize)
  have hm := system.aligned halloc
  refine ⟨m + poolDataSize, pool.chain.link (2 ^ 8) (takenBlock m size), ?_, ?_,
    hsound.limit, ?_, ?_⟩
  · rw [nightPmallocBlock, halloc]
    rfl
  · apply hsound.chain.link (takenBlock_valid hsmall)
    · rw [takenBlock_whole]
      exact system.fresh halloc
    · exact ⟨Nat.le_refl _, Nat.le_refl _⟩
  · apply Chain.forall_link (fun _ _ hlast => hlast) hsound.last
    show (m + poolDataSize + size) % nightAlignment = 0
    rw [nightAlignment, poolDataSize] at *
    omega
  · intro r hr
    rcases List.mem_cons.mp hr with rfl | hr
    · show (m + poolDataSize) % nightAlignment = 0
      rw [nightAlignment, poolDataSize] at *
      omega
    · exact hsound.aligned r hr

/-- The blocks serve a small request, or a new one does. -/
theorem nightPmallocSmall_sound (hsystem : ∀ owned size, (system.alloc owned size).isSome)
    (hsound : Sound pool returned) (haligned : size % nightAlignment = 0)
    (hsmall : size < nightDefaultPoolLimit) :
    ∃ p chain', nightPmallocSmall system pool size = some (p, { pool with chain := chain' }) ∧
      Sound { pool with chain := chain' } (⟨p, size⟩ :: returned) := by
  cases htake : pool.chain.take id size with
  | some taken =>
      obtain ⟨m, chain'⟩ := taken
      have hround : ∀ p ∈ pool.chain.blocks, p.last ≤ id p.last ∧ id p.last ≤ p.stop := by
        intro p hp
        have hvalid := hsound.chain.arena.valid p.chunk (List.mem_map_of_mem hp)
        rw [← Block.chunk_stop hvalid]
        exact ⟨Nat.le_refl _, hvalid.high⟩
      obtain ⟨before, b, after, hblocks, hm, -, -⟩ := Chain.exists_of_take htake
      refine ⟨m, chain', ?_, ?_, hsound.limit, ?_, ?_⟩
      · rw [nightPmallocSmall, htake]
      · exact hsound.chain.take hround htake
      · have hstep : ∀ p : Block, p.last % nightAlignment = 0 →
            (id p.last + size) % nightAlignment = 0 := by
          intro p hlast
          rw [id, nightAlignment] at *
          omega
        exact Chain.forall_take (P := fun p => p.last % nightAlignment = 0) hstep hsound.last
          htake
      · intro r hr
        rcases List.mem_cons.mp hr with rfl | hr
        · exact hm ▸ hsound.last b (by simp [hblocks])
        · exact hsound.aligned r hr
  | none =>
      obtain ⟨p, chain', hblock, hsound'⟩ :=
        nightPmallocBlock_sound hsystem hsound haligned hsmall
      exact ⟨p, chain', by rw [nightPmallocSmall, htake, hblock], hsound'⟩

/-- Writing to memory does not matter to the pool. -/
theorem Sound.memory (hsound : Sound pool returned) (memory : ℕ → Byte) :
    Sound { pool with memory := memory } returned :=
  ⟨hsound.chain, hsound.limit, hsound.last, hsound.aligned⟩

/-- A call returns a region, and zeroes it. -/
def Serves (pmalloc : Pool → ℕ → Option (ℕ × Pool)) (pool : Pool) (returned : List Region)
    (size : ℕ) : Prop :=
  ∃ p pool', pmalloc pool size = some (p, pool') ∧
    Sound pool' (⟨p, nightAlign size⟩ :: returned) ∧
    ∀ x, Region.Has ⟨p, nightAlign size⟩ x → pool'.memory x = 0

theorem serves_small (hsystem : ∀ owned size, (system.alloc owned size).isSome)
    (hsound : Sound pool returned) (depth : ℕ)
    (hsmall : nightAlign size < nightDefaultPoolLimit) :
    Serves (nightPmallocDepth system (depth + 1)) pool returned size := by
  obtain ⟨p, chain', hcall, hsound'⟩ :=
    nightPmallocSmall_sound hsystem hsound (nightAlign_mod size) hsmall
  refine ⟨p, _, ?_, hsound'.memory (nightMemzero pool.memory ⟨p, nightAlign size⟩),
    fun x => nightMemzero_has⟩
  rw [nightPmallocDepth, if_pos (hsound.limit ▸ hsmall), hcall]
  rfl

/-- A large region and its record are handed out together. -/
theorem nightPmallocLarge_sound (hsystem : ∀ owned size, (system.alloc owned size).isSome)
    (size : ℕ) {pmalloc : Pool → ℕ → Option (ℕ × Pool)}
    (hrecord : Serves pmalloc pool returned poolLargeSize) :
    ∃ p pool', nightPmallocLarge system pmalloc pool size = some (p, pool') ∧
      Sound pool' (⟨p, size⟩ :: returned) := by
  obtain ⟨l, pool₁, hcall, hsound, -⟩ := hrecord
  obtain ⟨p, halloc⟩ := Option.isSome_iff_exists.mp (hsystem pool₁.owned size)
  have hp := system.aligned halloc
  refine ⟨p, { pool₁ with large := ⟨l, ⟨p, size⟩⟩ :: pool₁.large }, ?_, ?_, hsound.limit,
    hsound.last, ?_⟩
  · rw [nightPmallocLarge, hcall]
    simp only [Option.bind_eq_bind, Option.bind_some, halloc]
  · refine ⟨?_, hsound.chain.current⟩
    apply (hsound.chain.arena.addLarge (system.fresh halloc)).perm
    apply List.Perm.cons
    exact List.perm_middle.symm
  · intro r hr
    rcases List.mem_cons.mp hr with rfl | hr
    · show p % nightAlignment = 0
      rw [nightAlignment]
      omega
    · exact hsound.aligned r (List.mem_cons_of_mem _ hr)

theorem nightPmalloc_serves (hsystem : ∀ owned size, (system.alloc owned size).isSome)
    (hsound : Sound pool returned) (size : ℕ) :
    Serves (nightPmalloc system) pool returned size := by
  by_cases hsmall : nightAlign size < nightDefaultPoolLimit
  · exact serves_small hsystem hsound 1 hsmall
  · have hrecord := serves_small hsystem hsound 0
      (show nightAlign poolLargeSize < nightDefaultPoolLimit by decide)
    obtain ⟨p, pool', hcall, hsound'⟩ :=
      nightPmallocLarge_sound hsystem (nightAlign size) hrecord
    refine ⟨p, _, ?_, hsound'.memory (nightMemzero pool'.memory ⟨p, nightAlign size⟩),
      fun x => nightMemzero_has⟩
    rw [nightPmalloc, nightPmallocDepth, if_neg (hsound.limit ▸ hsmall), hcall]
    rfl

/-! ## Runs -/

theorem nightCreatePool_sound (hsystem : ∀ owned size, (system.alloc owned size).isSome)
    (memory : ℕ → Byte) (hsize : poolSize ≤ size) :
    ∃ pool, nightCreatePool system memory size = some pool ∧ Sound pool [] := by
  obtain ⟨p, halloc⟩ := Option.isSome_iff_exists.mp (hsystem [] size)
  have hp := system.aligned halloc
  refine ⟨_, by rw [nightCreatePool, halloc]; rfl, ⟨⟨?_, ?_, ?_, ?_⟩, ?_⟩, rfl, ?_, ?_⟩
  · intro c hc
    rw [List.map_singleton, List.mem_singleton] at hc
    subst hc
    refine ⟨show 0 < poolSize by decide, Nat.le_refl _, ?_⟩
    show p + poolSize ≤ p + (p + size - p)
    omega
  · simp [Arena.owned]
  · exact List.Pairwise.nil
  · intro r hr
    cases hr
  · exact List.mem_singleton.mpr rfl
  · intro q hq
    rw [List.mem_singleton.mp hq]
    show (p + poolSize) % nightAlignment = 0
    rw [poolSize, nightAlignment]
    omega
  · intro r hr
    cases hr

/-- The region that a call takes for a request. -/
def rounded (r : Region) : Region := ⟨r.addr, nightAlign r.size⟩

theorem inside_rounded {r : Region} (hsize : r.size ≤ 2 ^ 63) : r.Inside (rounded r) :=
  ⟨Nat.le_refl _, Nat.add_le_add_left (le_nightAlign hsize) _⟩

theorem nightPmallocs_sound (hsystem : ∀ owned size, (system.alloc owned size).isSome)
    {regions : List Region} (hsound : Sound pool (regions.map rounded)) (sizes : List ℕ) :
    ∃ pool' regions', nightPmallocs system pool regions sizes = some (pool', regions') ∧
      Sound pool' (regions'.map rounded) ∧
      regions'.map Region.size = sizes.reverse ++ regions.map Region.size := by
  induction sizes generalizing pool regions with
  | nil => exact ⟨pool, regions, rfl, hsound, rfl⟩
  | cons size sizes ih =>
      obtain ⟨p, pool₁, hcall, hsound₁, -⟩ := nightPmalloc_serves hsystem hsound size
      have hrest : Sound pool₁ (List.map rounded (⟨p, size⟩ :: regions)) := hsound₁
      obtain ⟨pool', regions', hrun, hsound', hmap⟩ := ih hrest
      refine ⟨pool', regions', ?_, hsound', ?_⟩
      · rw [nightPmallocs, hcall]
        exact hrun
      · rw [hmap, List.reverse_cons, List.append_assoc, List.map_cons, List.singleton_append]

/-- What a pool owes its callers for the regions it has returned. -/
structure Lawful (pool : Pool) (regions : List Region) : Prop where
  disjoint : regions.Pairwise Region.Disjoint
  aligned : ∀ r ∈ regions, r.addr % nightAlignment = 0
  inside : ∀ r ∈ regions, (∃ p ∈ pool.chain.blocks, p.chunk.Holds r ∧ r.Inside p.chunk.whole) ∨
    ∃ l ∈ pool.large, r.Inside l.malloc
  headers : ∀ r ∈ regions, (∀ p ∈ pool.chain.blocks, r.Disjoint p.chunk.own) ∧
    ∀ l ∈ pool.large, r.Disjoint l.record
  current : ∃ p ∈ pool.chain.blocks, p.addr = pool.chain.current

theorem Sound.lawful {regions : List Region} (hsound : Sound pool (regions.map rounded))
    (hsizes : ∀ r ∈ regions, r.size ≤ 2 ^ 63) : Lawful pool regions where
  disjoint := by
    have hpairs := (List.pairwise_append.mp hsound.chain.arena.handed).1
    apply (List.pairwise_map.mp hpairs).imp_of_mem
    intro r s hr hs hdisjoint
    exact hdisjoint.mono (inside_rounded (hsizes r hr)) (inside_rounded (hsizes s hs))
  aligned r hr := hsound.aligned (rounded r) (List.mem_map_of_mem hr)
  inside r hr := by
    have hinside := inside_rounded (hsizes r hr)
    have hmem : rounded r ∈ regions.map rounded ++ pool.large.map Large.record :=
      List.mem_append_left _ (List.mem_map_of_mem hr)
    rcases hsound.chain.arena.inside _ hmem with ⟨c, hc, hholds⟩ | hlarge
    · obtain ⟨p, hp, rfl⟩ := List.mem_map.mp hc
      refine .inl ⟨p, hp, ⟨hholds.1, hinside.2.trans hholds.2⟩, hinside.trans ?_⟩
      exact hholds.inside (hsound.chain.arena.valid _ hc)
    · obtain ⟨l, hl, heq⟩ := List.mem_map.mp hlarge
      exact .inr ⟨l, hl, heq ▸ hinside⟩
  headers r hr := by
    have hinside := inside_rounded (hsizes r hr)
    have hmem := List.mem_map_of_mem (f := rounded) hr
    constructor
    · intro p hp
      have hdisjoint := hsound.chain.arena.disjoint_own (List.mem_append_left _ hmem)
        (List.mem_map_of_mem hp)
      exact hdisjoint.mono hinside (Region.Inside.refl _)
    · intro l hl
      have hdisjoint := (List.pairwise_append.mp hsound.chain.arena.handed).2.2 _ hmem l.record
        (List.mem_map_of_mem hl)
      exact hdisjoint.mono hinside (Region.Inside.refl _)
  current := List.mem_map.mp hsound.chain.current

/-- Every run of calls on a new pool: what was returned is lawful, and the bytes of the
next region are zero whatever the callers have written in between. -/
theorem nightPmallocs_lawful (hsystem : ∀ owned size, (system.alloc owned size).isSome)
    (memory : ℕ → Byte) {poolBytes : ℕ} (hpool : poolSize ≤ poolBytes) {sizes : List ℕ}
    (hsizes : ∀ size ∈ sizes, size ≤ 2 ^ 63) :
    ∃ created pool regions, nightCreatePool system memory poolBytes = some created ∧
      nightPmallocs system created [] sizes = some (pool, regions) ∧
      regions.map Region.size = sizes.reverse ∧ Lawful pool regions ∧
      ∀ size ≤ 2 ^ 63, ∀ memory, ∃ p pool',
        nightPmalloc system { pool with memory := memory } size = some (p, pool') ∧
        ∀ x, Region.Has ⟨p, size⟩ x → pool'.memory x = 0 := by
  obtain ⟨created, hcreate, hcreated⟩ := nightCreatePool_sound hsystem memory hpool
  have hnone : Sound created (List.map rounded []) := hcreated
  obtain ⟨pool, regions, hrun, hsound, hmap⟩ := nightPmallocs_sound hsystem hnone sizes
  rw [List.map_nil, List.append_nil] at hmap
  refine ⟨created, pool, regions, hcreate, hrun, hmap, hsound.lawful ?_, ?_⟩
  · intro r hr
    apply hsizes
    rw [← List.mem_reverse, ← hmap]
    exact List.mem_map_of_mem hr
  · intro size hsize memory
    obtain ⟨p, pool', hcall, -, hzero⟩ :=
      nightPmalloc_serves hsystem (hsound.memory memory) size
    refine ⟨p, pool', hcall, fun x hx => hzero x ?_⟩
    have hinside : Region.Inside ⟨p, size⟩ (rounded ⟨p, size⟩) := inside_rounded hsize
    exact hinside.has hx

/-- A pool of one page and four requests: one that fits, two for the rest of the block and
a large one. -/
theorem nightPmallocs_lawful_page :
    ∃ created pool regions,
      nightCreatePool (.above fun _ => true) (fun _ => 0xFF) 4096 = some created ∧
      nightPmallocs (.above fun _ => true) created [] [100, 3000, 2000, 5000] =
        some (pool, regions) ∧ Lawful pool regions := by
  have hsystem : ∀ owned size,
      ((Allocator.above fun _ => true).alloc owned size).isSome := fun _ _ => rfl
  have hsizes : ∀ size ∈ [100, 3000, 2000, 5000], size ≤ 2 ^ 63 := by decide
  obtain ⟨created, pool, regions, hcreate, hrun, -, hlawful, -⟩ :=
    nightPmallocs_lawful hsystem (fun _ => 0xFF) (show poolSize ≤ 4096 by decide) hsizes
  exact ⟨created, pool, regions, hcreate, hrun, hlawful⟩

end Night.Pmalloc
