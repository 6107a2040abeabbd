import Night.Core.Pool

/-!
# Large allocations and the end of a pool

`night_pmalloc` with the requests that the system refuses, `night_plfree` and
`night_destroy_pool`.  The process keeps a list of what it has from the system: to read outside
of it, or to free what is not in it, has no result.
-/

namespace Night.PoolLarge

open Night.Blocks Night.Bytes Night.Regions
open Night.Pmalloc (nightAlign nightDefaultPoolLimit nightDefaultPoolSize poolDataSize
  poolLargeSize poolSize takenBlock)

/-! ## The pool -/

/-- The `night_pool_large_t` at `addr`; without a region `malloc` is `NULL`. -/
structure Large where
  addr : ℕ
  malloc : Option Region
  deriving DecidableEq, Repr

def Large.record (large : Large) : Region := ⟨large.addr, poolLargeSize⟩

/-- `night_pool_t`, with the bytes of the memory and what the process has from the system. -/
structure Pool where
  chain : Chain
  limit : ℕ
  large : List Large
  memory : ℕ → Byte
  heap : List Region

def Pool.live (pool : Pool) : List Region := pool.large.filterMap Large.malloc

/-- What the pool keeps of the heap. -/
def Pool.owned (pool : Pool) : List Region := pool.chain.wholes ++ pool.live

inductive Rc where
  | ok
  | declined
  deriving DecidableEq, Repr

section Calls

variable (system : Allocator)

def nightCreatePool (memory : ℕ → Byte) (size : ℕ) : Option Pool := do
  let p ← system.alloc [] size
  some
    { chain := ⟨[⟨p, poolSize, p + poolSize, p + size, 0⟩], p⟩
      limit := nightDefaultPoolLimit
      large := []
      memory := memory
      heap := [⟨p, size⟩] }

/-- `night_pmalloc_block`; a refused block is dereferenced. -/
def nightPmallocBlock (pool : Pool) (size : ℕ) : Option (ℕ × Pool) := do
  let m ← system.alloc pool.heap nightDefaultPoolSize
  let r := m + poolDataSize
  some (r, { pool with
    chain := pool.chain.link (2 ^ 8) (takenBlock m size)
    heap := ⟨m, nightDefaultPoolSize⟩ :: pool.heap })

def nightPmallocSmall (pool : Pool) (size : ℕ) : Option (ℕ × Pool) :=
  match pool.chain.take id size with
  | some (m, chain) => some (m, { pool with chain := chain })
  | none => nightPmallocBlock system pool size

/-- `night_pmalloc_large`; `pmalloc` is the call for the record, which is dereferenced. -/
def nightPmallocLarge (pmalloc : Pool → ℕ → Option (Option ℕ × Pool)) (pool : Pool) (size : ℕ) :
    Option (Option ℕ × Pool) :=
  match pmalloc pool poolLargeSize with
  | none | some (none, _) => none
  | some (some l, pool) =>
    match system.alloc pool.heap size with
    | none => some (none, { pool with large := ⟨l, none⟩ :: pool.large })
    | some p => some (some p, { pool with
        large := ⟨l, some ⟨p, size⟩⟩ :: pool.large
        heap := ⟨p, size⟩ :: pool.heap })

/-- `night_pmalloc` with at most `depth` calls of itself inside each other. -/
def nightPmallocDepth : ℕ → Pool → ℕ → Option (Option ℕ × Pool)
  | 0, _, _ => none
  | depth + 1, pool, size =>
    match (if nightAlign size < pool.limit then
        (nightPmallocSmall system pool (nightAlign size)).map fun result => (some result.1, result.2)
      else nightPmallocLarge system (nightPmallocDepth depth) pool (nightAlign size)) with
    | none => none
    | some (none, pool) => some (none, pool)
    | some (some p, pool) =>
      some (some p, { pool with memory := nightMemzero pool.memory ⟨p, nightAlign size⟩ })

/-- `night_pmalloc`; the record of a large region is small itself. -/
def nightPmalloc (pool : Pool) (size : ℕ) : Option (Option ℕ × Pool) :=
  nightPmallocDepth system 2 pool size

end Calls

/-! ## Giving back -/

/-- `free`; a pointer that is not from the system, or was given back, has no result. -/
def free (heap : List Region) : Option ℕ → Option (List Region)
  | none => some heap
  | some p => (heap.find? fun r => r.addr = p).map heap.erase

/-- The loop of `night_plfree`: the first record with the pointer is cleared. -/
def clearLarge (p : Option ℕ) : List Large → Option (List Large)
  | [] => none
  | l :: rest =>
    if p = l.malloc.map Region.addr then some ({ l with malloc := none } :: rest)
    else (clearLarge p rest).map fun rest => l :: rest

def nightPlfree (pool : Pool) (p : Option ℕ) : Option (Rc × Pool) :=
  match clearLarge p pool.large with
  | none => some (.declined, pool)
  | some large =>
    (free pool.heap p).map fun heap => (.ok, { pool with large := large, heap := heap })

/-- The process may read and write the bytes of a region. -/
def Readable (heap : List Region) (r : Region) : Prop :=
  ∃ owner ∈ heap, owner.addr ≤ r.addr ∧ r.stop ≤ owner.stop

instance (heap : List Region) (r : Region) : Decidable (Readable heap r) :=
  inferInstanceAs (Decidable (∃ owner ∈ heap, _ ∧ _))

/-- The first loop of `night_destroy_pool`; a record is read once more after its region is
freed. -/
def destroyLarge : List Region → List Large → Option (List Region)
  | heap, [] => some heap
  | heap, l :: rest =>
    if Readable heap l.record then
      match free heap (l.malloc.map Region.addr) with
      | none => none
      | some heap => if Readable heap l.record then destroyLarge heap rest else none
    else none

/-- The second loop: `next` of a block is read before the block is freed. -/
def destroyBlocks : List Region → List Block → Option (List Region)
  | heap, [] => some heap
  | heap, data :: rest =>
    if Readable heap data.chunk.own then
      match free heap (some data.addr) with
      | none => none
      | some heap => destroyBlocks heap rest
    else none

/-- `night_destroy_pool`: what the process still has from the system. -/
def nightDestroyPool (pool : Pool) : Option (List Region) :=
  match pool.chain.blocks with
  | [] => none
  | first :: rest =>
    if Readable pool.heap first.chunk.own then
      match destroyLarge pool.heap pool.large with
      | none => none
      | some heap =>
        if Readable heap first.chunk.own then
          match destroyBlocks heap rest with
          | none => none
          | some heap => free heap (some first.addr)
        else none
    else none

end Night.PoolLarge
