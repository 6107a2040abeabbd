import Night.Core.Blocks

/-!
# `night_palloc` and the arrays in a pool

The pool of the current tree.  Requests up to `max` come from the blocks, where `last`
is rounded up first for those that are aligned; the others come from the system, and
their records are kept in the pool and used again.  An array that ends at `last` of the
first block grows there.
-/

namespace Night.Palloc

open Night.Blocks
open Night.Bytes
open Night.Regions

/-! ## The pool -/

/-- `sizeof(night_pool_t)`, `sizeof(night_pool_data_t)` and `sizeof(night_pool_large_t)`. -/
def poolSize : ℕ := 64
def poolDataSize : ℕ := 32
def poolLargeSize : ℕ := 16

def nightPoolAlignment : ℕ := 16
def nightAlignment : ℕ := 8

/-- `night_align_ptr(p, NIGHT_ALIGNMENT)`. -/
def nightAlignPtr (p : ℕ) : ℕ := (p + (nightAlignment - 1)) / nightAlignment * nightAlignment

/-- The `night_pool_large_t` at `addr`; a null `alloc` is `none`. -/
structure Large where
  addr : ℕ
  alloc : Option Region
  deriving DecidableEq, Repr

def Large.record (large : Large) : Region := ⟨large.addr, poolLargeSize⟩

/-- `night_pool_cleanup_t`. -/
structure Cleanup where
  handler : Option ℕ
  data : ℕ
  deriving DecidableEq, Repr

/-- `night_pool_t`, with the bytes of the memory. -/
structure Pool where
  chain : Chain
  max : ℕ
  large : List Large
  cleanup : List Cleanup
  memory : ℕ → Byte

namespace Pool

def largeRegions (pool : Pool) : List Region := pool.large.filterMap Large.alloc

/-- What the pool has from the system. -/
def owned (pool : Pool) : List Region := pool.chain.wholes ++ pool.largeRegions

/-- `pool->d.end - (char *) pool`. -/
def psize (pool : Pool) : ℕ :=
  match pool.chain.blocks with
  | [] => 0
  | d :: _ => d.stop - d.addr

end Pool

variable (system : Allocator)

/-- `night_create_pool`; `pagesize` is `night_pagesize`. -/
def nightCreatePool (pagesize : ℕ) (memory : ℕ → Byte) (size : ℕ) : Option Pool := do
  let p ← system.alloc [] size
  let rest := size - poolSize
  some
    { chain := ⟨[⟨p, poolSize, p + poolSize, p + size, 0⟩], p⟩
      max := if rest < pagesize then rest else pagesize
      large := []
      cleanup := []
      memory := memory }

/-- The new block at `addr` with its first `size` bytes taken. -/
def takenBlock (addr psize size : ℕ) : Block :=
  ⟨addr, poolDataSize, nightAlignPtr (addr + poolDataSize) + size, addr + psize, 0⟩

/-- `night_palloc_block`; `held` is what the caller has from the system and the pool
does not own yet. -/
def nightPallocBlock (held : List Region) (pool : Pool) (size : ℕ) : Option ℕ × Pool :=
  match system.alloc (held ++ pool.owned) pool.psize with
  | none => (none, pool)
  | some m =>
      (some (nightAlignPtr (m + poolDataSize)),
        { pool with chain := pool.chain.link (2 ^ 32) (takenBlock m pool.psize size) })

def nightPallocSmall (held : List Region) (pool : Pool) (size : ℕ) (align : Bool) :
    Option ℕ × Pool :=
  match pool.chain.take (if align then nightAlignPtr else id) size with
  | some (m, chain) => (some m, { pool with chain := chain })
  | none => nightPallocBlock system held pool size

/-- The loop of `night_palloc_large` that looks for a record to use again; `n` counts the
records it has passed. -/
def reuseLarge (p : Region) : ℕ → List Large → Option (List Large)
  | _, [] => none
  | n, large :: rest =>
      if large.alloc = none then some ({ large with alloc := some p } :: rest)
      else if n > 3 then none
      else (reuseLarge p (n + 1) rest).map fun rest => large :: rest

def nightPallocLarge (pool : Pool) (size : ℕ) : Option ℕ × Pool :=
  match system.alloc pool.owned size with
  | none => (none, pool)
  | some p =>
      match reuseLarge ⟨p, size⟩ 0 pool.large with
      | some large => (some p, { pool with large := large })
      | none =>
          match nightPallocSmall system [⟨p, size⟩] pool poolLargeSize true with
          | (none, pool) => (none, pool)
          | (some addr, pool) =>
              (some p, { pool with large := ⟨addr, some ⟨p, size⟩⟩ :: pool.large })

def nightPalloc (pool : Pool) (size : ℕ) : Option ℕ × Pool :=
  if size ≤ pool.max then nightPallocSmall system [] pool size true
  else nightPallocLarge system pool size

def nightPnalloc (pool : Pool) (size : ℕ) : Option ℕ × Pool :=
  if size ≤ pool.max then nightPallocSmall system [] pool size false
  else nightPallocLarge system pool size

def nightPcalloc (pool : Pool) (size : ℕ) : Option ℕ × Pool :=
  match nightPalloc system pool size with
  | (none, pool) => (none, pool)
  | (some p, pool) => (some p, { pool with memory := nightMemzero pool.memory ⟨p, size⟩ })

/-! ## The end of a pool -/

/-- What `night_destroy_pool` does: it runs a cleanup, or it frees an address. -/
inductive Event where
  | cleanup (handler data : ℕ)
  | free (addr : ℕ)
  deriving DecidableEq, Repr

def nightDestroyPool (pool : Pool) : List Event :=
  pool.cleanup.filterMap (fun c => c.handler.map fun handler => .cleanup handler c.data) ++
    pool.large.filterMap (fun l => l.alloc.map fun p => .free p.addr) ++
    pool.chain.blocks.map fun p => .free p.addr

/-! ## Arrays -/

/-- `night_array_t` in the pool of its caller. -/
structure NightArray where
  elts : ℕ
  nelts : ℕ
  size : ℕ
  nalloc : ℕ
  deriving DecidableEq, Repr

def NightArray.storage (a : NightArray) : Region := ⟨a.elts, a.size * a.nalloc⟩

/-- `night_array_init`; without an array it is `NIGHT_ERROR`. -/
def nightArrayInit (pool : Pool) (n size : ℕ) : Option NightArray × Pool :=
  match nightPalloc system pool (mulSize n size) with
  | (none, pool) => (none, pool)
  | (some elts, pool) => (some ⟨elts, 0, size, n⟩, pool)

/-- The test of `night_array_push`: the array is the last region of the first block, and
there is room for one more element. -/
def lastOfFirst (pool : Pool) (a : NightArray) : Bool :=
  match pool.chain.blocks with
  | [] => false
  | d :: _ => decide (a.elts + mulSize a.size a.nalloc = d.last ∧ d.last + a.size ≤ d.stop)

/-- `p->d.last += size`. -/
def advanceFirst (pool : Pool) (size : ℕ) : Pool :=
  match pool.chain.blocks with
  | [] => pool
  | d :: rest =>
      { pool with chain := ⟨{ d with last := d.last + size } :: rest, pool.chain.current⟩ }

/-- The branch of `night_array_push` for an array that is full. -/
def growArray (pool : Pool) (a : NightArray) : Option NightArray × Pool :=
  let size := mulSize a.size a.nalloc
  if lastOfFirst pool a then (some { a with nalloc := a.nalloc + 1 }, advanceFirst pool a.size)
  else
    match nightPalloc system pool (mulSize 2 size) with
    | (none, pool) => (none, pool)
    | (some new, pool) =>
        (some { a with elts := new, nalloc := a.nalloc * 2 },
          { pool with memory := memcpy pool.memory ⟨new, size⟩ a.elts })

/-- `night_array_push`: the new element, the array and the pool. -/
def nightArrayPush (pool : Pool) (a : NightArray) : Option ℕ × NightArray × Pool :=
  match (if a.nelts = a.nalloc then growArray system pool a else (some a, pool)) with
  | (none, pool) => (none, a, pool)
  | (some a, pool) => (some (a.elts + a.size * a.nelts), { a with nelts := a.nelts + 1 }, pool)

/-! ## Runs -/

/-- A pool with its arrays, and the other regions that were handed out. -/
structure State where
  pool : Pool
  arrays : List NightArray
  handed : List Region

/-- What the owner of a pool does: it calls the functions, or it writes to its regions. -/
inductive Op where
  | palloc (size : ℕ)
  | pnalloc (size : ℕ)
  | pcalloc (size : ℕ)
  | arrayInit (n size : ℕ)
  | arrayPush (index : ℕ)
  | write (memory : ℕ → Byte)

/-- The state after a call that may have returned a region of `size` bytes. -/
def State.hand (s : State) (size : ℕ) : Option ℕ × Pool → State
  | (none, pool) => { s with pool := pool }
  | (some p, pool) => { s with pool := pool, handed := ⟨p, size⟩ :: s.handed }

/-- One call: the pointer that it returns, and the state after it.  The storage that an
array leaves stays handed out. -/
def step (s : State) : Op → Option ℕ × State
  | .palloc size =>
      let called := nightPalloc system s.pool size
      (called.1, s.hand size called)
  | .pnalloc size =>
      let called := nightPnalloc system s.pool size
      (called.1, s.hand size called)
  | .pcalloc size =>
      let called := nightPcalloc system s.pool size
      (called.1, s.hand size called)
  | .arrayInit n size =>
      match nightArrayInit system s.pool n size with
      | (none, pool) => (none, { s with pool := pool })
      | (some a, pool) => (some a.elts, { s with pool := pool, arrays := s.arrays ++ [a] })
  | .arrayPush index =>
      match s.arrays[index]? with
      | none => (none, s)
      | some a =>
          let pushed := nightArrayPush system s.pool a
          let left := if pushed.2.1.elts = a.elts then [] else [a.storage]
          (pushed.1, ⟨pushed.2.2, s.arrays.set index pushed.2.1, left ++ s.handed⟩)
  | .write memory => (none, { s with pool := { s.pool with memory := memory } })

end Night.Palloc
