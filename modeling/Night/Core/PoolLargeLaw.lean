import Night.Core.PoolLarge

/-!
# What the calls on a pool keep

The heap of the process is the blocks and the live large regions of the pool.  The records of
the large regions lie in the blocks, so that they can be read until the blocks are freed.
-/

namespace Night.PoolLarge

open Night.Blocks Night.Bytes Night.Regions
open Night.Pmalloc (nightAlign nightDefaultPoolLimit nightDefaultPoolSize poolDataSize
  poolLargeSize poolSize takenBlock takenBlock_valid takenBlock_whole)

variable {system : Allocator} {pool pool' : Pool} {returned : List Region} {size p : ℕ}

/-! ## Soundness -/

/-- A region that lies in a block, behind its header. -/
def Pool.Held (pool : Pool) (r : Region) : Prop :=
  ∃ c ∈ pool.chain.blocks.map Block.chunk, c.Holds r

structure Sound (pool : Pool) (returned : List Region) : Prop where
  chain : pool.chain.Sound pool.live (returned ++ pool.large.map Large.record)
  limit : pool.limit = nightDefaultPoolLimit
  heap : pool.heap.Perm pool.owned
  positive : ∀ r ∈ pool.heap, 0 < r.size
  records : ∀ l ∈ pool.large, pool.Held l.record

/-- A request is served from the blocks; nothing but the blocks changes. -/
structure Taken (pool pool' : Pool) (returned : List Region) (p size : ℕ) : Prop where
  sound : Sound pool' (⟨p, size⟩ :: returned)
  held : pool'.Held ⟨p, size⟩
  large : pool'.large = pool.large
  memory : pool'.memory = pool.memory

theorem Sound.memory (hsound : Sound pool returned) (memory : ℕ → Byte) :
    Sound { pool with memory := memory } returned :=
  ⟨hsound.chain, hsound.limit, hsound.heap, hsound.positive, hsound.records⟩

/-- A region need not be remembered. -/
theorem Sound.forget (hsound : Sound pool returned) {returned' : List Region}
    (hsub : returned'.Sublist returned) : Sound pool returned' :=
  ⟨⟨hsound.chain.arena.forget (hsub.append_right _), hsound.chain.current⟩, hsound.limit,
    hsound.heap, hsound.positive, hsound.records⟩

/-- The system answers with memory that is apart from the pool. -/
theorem Sound.fresh (hsound : Sound pool returned) {m : ℕ}
    (halloc : system.alloc pool.heap size = some m) :
    ∀ owner ∈ pool.chain.wholes ++ pool.live, owner.Disjoint ⟨m, size⟩ :=
  fun owner howner => system.fresh halloc owner (hsound.heap.mem_iff.mpr howner)

/-! ## `night_pmalloc` -/

theorem nightPmallocBlock_taken (hsound : Sound pool returned)
    (hsmall : size < nightDefaultPoolLimit)
    (hcall : nightPmallocBlock system pool size = some (p, pool')) :
    Taken pool pool' returned p size := by
  obtain ⟨m, halloc, hresult⟩ := Option.bind_eq_some_iff.mp hcall
  cases hresult
  have hvalid := takenBlock_valid (m := m) hsmall
  have hholds : (takenBlock m size).chunk.Holds ⟨m + poolDataSize, size⟩ :=
    ⟨Nat.le_refl _, Nat.le_refl _⟩
  have hchunks : (pool.chain.link (2 ^ 8) (takenBlock m size)).blocks.map Block.chunk =
      pool.chain.blocks.map Block.chunk ++ [(takenBlock m size).chunk] :=
    Chain.map_link fun _ _ => rfl
  refine ⟨⟨?_, hsound.limit, ?_, ?_, ?_⟩, ?_, rfl, rfl⟩
  · apply hsound.chain.link hvalid _ hholds
    rw [takenBlock_whole]
    exact hsound.fresh halloc
  · show (_ :: pool.heap).Perm ((pool.chain.link (2 ^ 8) (takenBlock m size)).wholes ++ pool.live)
    rw [Chain.wholes_link, takenBlock_whole, List.append_assoc, List.singleton_append]
    exact (hsound.heap.cons _).trans List.perm_middle.symm
  · intro r hr
    rcases List.mem_cons.mp hr with rfl | hr
    · exact show 0 < nightDefaultPoolSize by decide
    · exact hsound.positive r hr
  · intro l hl
    obtain ⟨c, hc, hrecord⟩ := hsound.records l hl
    refine ⟨c, ?_, hrecord⟩
    rw [hchunks]
    exact List.mem_append_left _ hc
  · refine ⟨(takenBlock m size).chunk, ?_, hholds⟩
    rw [hchunks]
    simp

theorem nightPmallocSmall_taken (hsound : Sound pool returned)
    (hsmall : size < nightDefaultPoolLimit)
    (hcall : nightPmallocSmall system pool size = some (p, pool')) :
    Taken pool pool' returned p size := by
  rw [nightPmallocSmall] at hcall
  cases htake : pool.chain.take id size with
  | none =>
    rw [htake] at hcall
    exact nightPmallocBlock_taken hsound hsmall hcall
  | some taken =>
    obtain ⟨m, chain'⟩ := taken
    rw [htake] at hcall
    cases hcall
    have hround : ∀ b ∈ pool.chain.blocks, b.last ≤ id b.last ∧ id b.last ≤ b.stop := by
      intro b hb
      have hvalid := hsound.chain.arena.valid b.chunk (List.mem_map_of_mem hb)
      rw [← Block.chunk_stop hvalid]
      exact ⟨Nat.le_refl _, hvalid.high⟩
    obtain ⟨before, b, after, hblocks, rfl, -, rfl⟩ := Chain.exists_of_take htake
    have hchain := hsound.chain.take hround htake
    have hvalid := hsound.chain.arena.valid b.chunk (List.mem_map_of_mem (by simp [hblocks]))
    refine ⟨⟨hchain, hsound.limit, ?_, hsound.positive, ?_⟩, ?_, rfl, rfl⟩
    · have hwholes := Chain.wholes_take htake
      rw [Pool.owned, hwholes]
      exact hsound.heap
    · -- the cursor of the block moves forward
      intro l hl
      obtain ⟨c, hc, hrecord⟩ := hsound.records l hl
      rw [hblocks, List.map_append, List.map_cons, List.mem_append, List.mem_cons] at hc
      rcases hc with hc | rfl | hc
      · exact ⟨c, by simp [hc], hrecord⟩
      · exact ⟨Block.chunk { b with last := id b.last + size }, by simp, hrecord.1,
          hrecord.2.trans (Nat.le_add_right _ _)⟩
      · exact ⟨c, by simp [hc], hrecord⟩
    · exact ⟨Block.chunk { b with last := id b.last + size }, by simp, hvalid.low,
        Nat.le_refl _⟩

/-- What a call keeps: the regions returned before, and their bytes. -/
structure Served (pool pool' : Pool) (returned : List Region) (result : Option ℕ) (size : ℕ) :
    Prop where
  sound : Sound pool' (result.toList.map (fun p => ⟨p, size⟩) ++ returned)
  memory : ∀ r ∈ returned, ∀ x, r.Has x → pool'.memory x = pool.memory x

/-- The region that is returned is zeroed, which the others do not notice. -/
theorem Sound.zeroed (hsound : Sound pool (⟨p, size⟩ :: returned)) {r : Region}
    (hr : r ∈ returned) {x : ℕ} (hx : r.Has x) :
    nightMemzero pool.memory ⟨p, size⟩ x = pool.memory x := by
  have hpairs := List.pairwise_cons.mp hsound.chain.arena.handed
  have hdisjoint := hpairs.1 r (List.mem_append_left _ hr)
  exact nightMemzero_other fun hhas => hdisjoint x hhas hx

theorem nightPmallocDepth_small (hsound : Sound pool returned) {depth : ℕ}
    (hsmall : nightAlign size < nightDefaultPoolLimit) {result : Option ℕ}
    (hcall : nightPmallocDepth system (depth + 1) pool size = some (result, pool')) :
    ∃ p middle, result = some p ∧ Taken pool middle returned p (nightAlign size) ∧
      pool' = { middle with memory := nightMemzero middle.memory ⟨p, nightAlign size⟩ } := by
  rw [nightPmallocDepth, if_pos (hsound.limit ▸ hsmall)] at hcall
  cases hserved : nightPmallocSmall system pool (nightAlign size) with
  | none =>
    rw [hserved] at hcall
    cases hcall
  | some served =>
    obtain ⟨p, middle⟩ := served
    rw [hserved] at hcall
    cases hcall
    exact ⟨p, middle, rfl, nightPmallocSmall_taken hsound hsmall hserved, rfl⟩

/-- A large region and its record, or a record alone when the system refuses. -/
theorem nightPmallocLarge_served (hsound : Sound pool returned)
    (hsize : 0 < size) {result : Option ℕ}
    (hcall : nightPmallocLarge system (nightPmallocDepth system 1) pool size =
      some (result, pool')) :
    Served pool pool' returned result size := by
  rw [nightPmallocLarge] at hcall
  cases hrecord : nightPmallocDepth system 1 pool poolLargeSize with
  | none =>
    rw [hrecord] at hcall
    cases hcall
  | some served =>
    obtain ⟨l, middle⟩ := served
    obtain ⟨l, taken, rfl, htaken, rfl⟩ := nightPmallocDepth_small hsound (by decide) hrecord
    rw [hrecord] at hcall
    have hmemory : ∀ r ∈ returned, ∀ x, r.Has x →
        nightMemzero taken.memory ⟨l, nightAlign poolLargeSize⟩ x = pool.memory x := by
      intro r hr x hx
      rw [htaken.sound.zeroed hr hx, htaken.memory]
    have hheld : ∀ l' ∈ (⟨l, none⟩ : Large) :: taken.large, taken.Held l'.record := by
      intro l' hl'
      rcases List.mem_cons.mp hl' with rfl | hl'
      · exact htaken.held
      · exact htaken.sound.records l' hl'
    have hchain := htaken.sound.chain
    have hperm : (⟨l, poolLargeSize⟩ :: returned ++ taken.large.map Large.record).Perm
        (returned ++ (⟨l, none⟩ :: taken.large : List Large).map Large.record) :=
      List.perm_middle.symm
    cases halloc : system.alloc taken.heap size with
    | none =>
      simp only [halloc] at hcall
      cases hcall
      exact ⟨⟨⟨hchain.arena.perm hperm, hchain.current⟩, htaken.sound.limit, htaken.sound.heap,
        htaken.sound.positive, hheld⟩, hmemory⟩
    | some p =>
      simp only [halloc] at hcall
      cases hcall
      refine ⟨⟨⟨?_, hchain.current⟩, htaken.sound.limit, ?_, ?_, ?_⟩, hmemory⟩
      · exact (hchain.arena.addLarge (htaken.sound.fresh halloc)).perm (hperm.cons _)
      · exact (htaken.sound.heap.cons _).trans List.perm_middle.symm
      · intro r hr
        rcases List.mem_cons.mp hr with rfl | hr
        · exact hsize
        · exact htaken.sound.positive r hr
      · intro l' hl'
        rcases List.mem_cons.mp hl' with rfl | hl'
        · exact htaken.held
        · exact hheld l' (List.mem_cons_of_mem _ hl')

theorem nightPmalloc_served (hsound : Sound pool returned) {result : Option ℕ}
    (hcall : nightPmalloc system pool size = some (result, pool')) :
    Served pool pool' returned result (nightAlign size) := by
  by_cases hsmall : nightAlign size < nightDefaultPoolLimit
  · obtain ⟨p, middle, rfl, htaken, rfl⟩ := nightPmallocDepth_small hsound hsmall hcall
    refine ⟨htaken.sound.memory _, ?_⟩
    intro r hr x hx
    exact (htaken.sound.zeroed hr hx).trans (congrFun htaken.memory x)
  · rw [nightPmalloc, nightPmallocDepth, if_neg (hsound.limit ▸ hsmall)] at hcall
    cases hlarge : nightPmallocLarge system (nightPmallocDepth system 1) pool
        (nightAlign size) with
    | none =>
      rw [hlarge] at hcall
      cases hcall
    | some served =>
      obtain ⟨result', middle⟩ := served
      have hpositive : 0 < nightAlign size := by
        rw [nightDefaultPoolLimit] at hsmall
        omega
      have hserved := nightPmallocLarge_served hsound hpositive hlarge
      rw [hlarge] at hcall
      cases result' with
      | none =>
        cases hcall
        exact hserved
      | some p =>
        cases hcall
        refine ⟨hserved.sound.memory _, ?_⟩
        intro r hr x hx
        exact (hserved.sound.zeroed hr hx).trans (hserved.memory r hr x hx)

/-- The region of a request that is served is sound on its own. -/
theorem nightPmalloc_sound (hsound : Sound pool returned) {p : ℕ}
    (hcall : nightPmalloc system pool size = some (some p, pool')) :
    Sound pool' [⟨p, nightAlign size⟩] :=
  (nightPmalloc_served hsound hcall).sound.forget
    (List.singleton_sublist.mpr List.mem_cons_self)

/-! ## Pools without refusals -/

/-- The pool as one that no request was refused to, and from which nothing was given back. -/
structure Plain (plain : Pmalloc.Pool) (pool : Pool) : Prop where
  chain : pool.chain = plain.chain
  limit : pool.limit = plain.limit
  large : pool.large = plain.large.map fun l => ⟨l.addr, some l.malloc⟩
  memory : pool.memory = plain.memory
  heap : pool.heap.Perm plain.owned

/-- Both calls are served with one region, or neither is. -/
def Agree (served : Option (ℕ × Pmalloc.Pool)) : Option (Option ℕ × Pool) → Prop
  | some (some p, pool) => ∃ plain, served = some (p, plain) ∧ Plain plain pool
  | some (none, _) | none => served = none

section Plain

variable {plain : Pmalloc.Pool}

/-- The answer of the system does not depend on the order of what it gave before. -/
def Unordered (system : Allocator) : Prop :=
  ∀ {owned owned' : List Region} {size : ℕ}, owned.Perm owned' →
    system.alloc owned size = system.alloc owned' size

theorem nightPmallocBlock_agree (hsystem : Unordered system) (hplain : Plain plain pool) :
    Agree (Pmalloc.nightPmallocBlock system plain size)
      ((nightPmallocBlock system pool size).map fun result => (some result.1, result.2)) := by
  rw [Pmalloc.nightPmallocBlock, nightPmallocBlock, hsystem hplain.heap]
  cases system.alloc plain.owned nightDefaultPoolSize with
  | none => rfl
  | some m =>
    refine ⟨_, rfl, ⟨?_, hplain.limit, hplain.large, hplain.memory, ?_⟩⟩
    · rw [hplain.chain]
    · show (_ :: pool.heap).Perm ((plain.chain.link (2 ^ 8) (takenBlock m size)).wholes ++ _)
      rw [Chain.wholes_link, takenBlock_whole, List.append_assoc, List.singleton_append]
      exact (hplain.heap.cons _).trans List.perm_middle.symm

theorem nightPmallocSmall_agree (hsystem : Unordered system) (hplain : Plain plain pool) :
    Agree (Pmalloc.nightPmallocSmall system plain size)
      ((nightPmallocSmall system pool size).map fun result => (some result.1, result.2)) := by
  rw [Pmalloc.nightPmallocSmall, nightPmallocSmall, hplain.chain]
  cases htake : plain.chain.take id size with
  | none => exact nightPmallocBlock_agree hsystem hplain
  | some taken =>
    refine ⟨_, rfl, ⟨rfl, hplain.limit, hplain.large, hplain.memory, ?_⟩⟩
    show pool.heap.Perm (taken.2.wholes ++ _)
    rw [Chain.wholes_take htake]
    exact hplain.heap

theorem nightPmallocLarge_agree (hsystem : Unordered system)
    {record : Pmalloc.Pool → ℕ → Option (ℕ × Pmalloc.Pool)}
    {record' : Pool → ℕ → Option (Option ℕ × Pool)}
    (hrecord : Agree (record plain poolLargeSize) (record' pool poolLargeSize)) :
    Agree (Pmalloc.nightPmallocLarge system record plain size)
      (nightPmallocLarge system record' pool size) := by
  rw [Pmalloc.nightPmallocLarge, nightPmallocLarge]
  cases hresult : record' pool poolLargeSize with
  | none =>
    rw [hresult] at hrecord
    rw [show record plain poolLargeSize = none from hrecord]
    rfl
  | some result =>
    obtain ⟨l, pool'⟩ := result
    rw [hresult] at hrecord
    cases l with
    | none =>
      rw [show record plain poolLargeSize = none from hrecord]
      rfl
    | some l =>
      obtain ⟨plain', hserved, hplain'⟩ := hrecord
      rw [hserved]
      show Agree ((system.alloc plain'.owned size).bind _) _
      simp only [hsystem hplain'.heap]
      cases system.alloc plain'.owned size with
      | none => rfl
      | some p =>
        refine ⟨_, rfl, ⟨hplain'.chain, hplain'.limit, ?_, hplain'.memory, ?_⟩⟩
        · rw [hplain'.large, List.map_cons]
        · show (_ :: pool'.heap).Perm (_ ++ (_ :: _))
          exact (hplain'.heap.cons _).trans List.perm_middle.symm

theorem nightPmallocDepth_agree (hsystem : Unordered system) (hplain : Plain plain pool)
    (depth : ℕ) :
    Agree (Pmalloc.nightPmallocDepth system depth plain size)
      (nightPmallocDepth system depth pool size) := by
  induction depth generalizing plain pool size with
  | zero => rfl
  | succ depth ih =>
    have hbody : Agree
        (if nightAlign size < plain.limit then
          Pmalloc.nightPmallocSmall system plain (nightAlign size)
        else Pmalloc.nightPmallocLarge system (Pmalloc.nightPmallocDepth system depth) plain
          (nightAlign size))
        (if nightAlign size < pool.limit then
          (nightPmallocSmall system pool (nightAlign size)).map fun result =>
            (some result.1, result.2)
        else nightPmallocLarge system (nightPmallocDepth system depth) pool (nightAlign size)) := by
      rw [hplain.limit]
      split
      · exact nightPmallocSmall_agree hsystem hplain
      · exact nightPmallocLarge_agree hsystem (ih hplain)
    rw [Pmalloc.nightPmallocDepth, nightPmallocDepth]
    generalize (if nightAlign size < pool.limit then _ else _) = result at hbody ⊢
    rcases result with _ | ⟨_ | p, pool'⟩
    · simp only [show _ = none from hbody]
      rfl
    · simp only [show _ = none from hbody]
      rfl
    · obtain ⟨plain', hserved, hplain'⟩ := hbody
      simp only [hserved]
      refine ⟨_, rfl, ⟨hplain'.chain, hplain'.limit, hplain'.large, ?_, hplain'.heap⟩⟩
      show nightMemzero pool'.memory _ = nightMemzero plain'.memory _
      rw [hplain'.memory]

/-- Up to the first refusal the two pools go on alike. -/
theorem nightPmalloc_agree (hsystem : Unordered system) (hplain : Plain plain pool) (size : ℕ) :
    Agree (Pmalloc.nightPmalloc system plain size) (nightPmalloc system pool size) :=
  nightPmallocDepth_agree hsystem hplain 2

/-- And `night_create_pool` makes such a pool. -/
theorem nightCreatePool_agree (memory : ℕ → Byte) (size : ℕ) :
    (∃ plain pool, Pmalloc.nightCreatePool system memory size = some plain ∧
        nightCreatePool system memory size = some pool ∧ Plain plain pool) ∨
      (Pmalloc.nightCreatePool system memory size = none ∧
        nightCreatePool system memory size = none) := by
  rw [Pmalloc.nightCreatePool, nightCreatePool]
  cases system.alloc [] size with
  | none => exact Or.inr ⟨rfl, rfl⟩
  | some p =>
    have hwhole : p + size - p = size := by omega
    refine Or.inl ⟨_, _, rfl, rfl, ⟨rfl, rfl, rfl, rfl, ?_⟩⟩
    simp [Pmalloc.Pool.owned, Chain.wholes, Block.chunk, hwhole]

end Plain

/-! ## `free` -/

/-- Everything from the system starts at an address of its own. -/
def Apart (heap : List Region) : Prop := heap.Pairwise fun r s => r.addr ≠ s.addr

theorem Apart.perm {heap heap' : List Region} (hapart : Apart heap) (hperm : heap.Perm heap') :
    Apart heap' :=
  List.Pairwise.perm hapart hperm fun hne => hne.symm

theorem free_eq {heap rest : List Region} {r : Region} (hapart : Apart heap)
    (hperm : heap.Perm (r :: rest)) :
    free heap (some r.addr) = some (heap.erase r) ∧ (heap.erase r).Perm rest := by
  have hmem : r ∈ heap := hperm.mem_iff.mpr List.mem_cons_self
  have hne := (List.pairwise_cons.mp (hapart.perm hperm)).1
  obtain ⟨s, hfind⟩ : ∃ s, heap.find? (fun s => s.addr = r.addr) = some s := by
    rw [← Option.isSome_iff_exists, List.find?_isSome]
    exact ⟨r, hmem, by simp⟩
  have hsame : s = r := by
    have haddr : s.addr = r.addr := by simpa using List.find?_some hfind
    rcases List.mem_cons.mp (hperm.mem_iff.mp (List.mem_of_find?_eq_some hfind)) with heq | hs
    · exact heq
    · exact absurd haddr.symm (hne s hs)
  refine ⟨by rw [free, hfind, hsame]; rfl, ?_⟩
  calc (heap.erase r)
    _ |>.Perm ((r :: rest).erase r) := hperm.erase r
    _ = rest := List.erase_cons_head r rest

theorem Sound.apart (hsound : Sound pool returned) : Apart pool.heap := by
  have howned : pool.owned.Pairwise Region.Disjoint := hsound.chain.arena.owned
  have hpairs := howned.perm hsound.heap.symm fun hdisjoint => hdisjoint.symm
  apply hpairs.imp_of_mem
  intro r s hr hs hdisjoint
  exact hdisjoint.addr_ne (hsound.positive r hr) (hsound.positive s hs)

/-! ## `night_plfree` -/

theorem filterMap_malloc_cons (addr : ℕ) (r : Region) (rest : List Large) :
    (⟨addr, some r⟩ :: rest : List Large).filterMap Large.malloc =
      r :: rest.filterMap Large.malloc := rfl

theorem clearLarge_none {p : Option ℕ} {large : List Large} (hclear : clearLarge p large = none) :
    ∀ l ∈ large, p ≠ l.malloc.map Region.addr := by
  induction large with
  | nil => simp
  | cons l rest ih =>
    rw [clearLarge] at hclear
    split at hclear
    · cases hclear
    · rename_i hne
      intro l' hl'
      rcases List.mem_cons.mp hl' with rfl | hl'
      · exact hne
      · exact ih (Option.map_eq_none_iff.mp hclear) l' hl'

theorem clearLarge_some {p : Option ℕ} {large large' : List Large}
    (hclear : clearLarge p large = some large') :
    ∃ before l after, large = before ++ l :: after ∧ p = l.malloc.map Region.addr ∧
      large' = before ++ { l with malloc := none } :: after := by
  induction large generalizing large' with
  | nil => cases hclear
  | cons l rest ih =>
    rw [clearLarge] at hclear
    split at hclear
    · rename_i heq
      cases hclear
      exact ⟨[], l, rest, rfl, heq, rfl⟩
    · obtain ⟨rest', hrest, rfl⟩ := Option.map_eq_some_iff.mp hclear
      obtain ⟨before, l', after, rfl, hp, rfl⟩ := ih hrest
      exact ⟨l :: before, l', after, rfl, hp, rfl⟩

/-- A live large region of the pool is released, for any other pointer nothing changes. -/
structure PlfreeLaw (pool : Pool) (p : Option ℕ) (rc : Rc) (pool' : Pool) : Prop where
  chain : pool'.chain = pool.chain
  memory : pool'.memory = pool.memory
  records : pool'.large.map Large.addr = pool.large.map Large.addr
  released : (∃ r ∈ pool.live, p = some r.addr ∧ rc = .ok ∧ pool.live.Perm (r :: pool'.live) ∧
      pool.heap.Perm (r :: pool'.heap)) ∨
    (∀ r ∈ pool.live, p ≠ some r.addr) ∧ pool' = pool

theorem nightPlfree_lawful (hsound : Sound pool returned) (p : Option ℕ) :
    ∃ rc pool', nightPlfree pool p = some (rc, pool') ∧ PlfreeLaw pool p rc pool' ∧
      Sound pool' [] := by
  have hnone := hsound.forget (List.nil_sublist returned)
  rw [nightPlfree]
  cases hclear : clearLarge p pool.large with
  | none =>
    refine ⟨.declined, pool, rfl, ⟨rfl, rfl, rfl, Or.inr ⟨?_, rfl⟩⟩, hnone⟩
    intro r hr hp
    obtain ⟨l, hl, hmalloc⟩ := List.mem_filterMap.mp hr
    exact clearLarge_none hclear l hl (by rw [hp, hmalloc]; rfl)
  | some large =>
    obtain ⟨before, l, after, hlarge, hp, rfl⟩ := clearLarge_some hclear
    obtain ⟨addr, malloc⟩ := l
    cases malloc with
    | none =>
      -- the pointer is `NULL`, and the record was cleared before
      have hsame : before ++ { (⟨addr, none⟩ : Large) with malloc := none } :: after = pool.large :=
        hlarge.symm
      subst hp
      refine ⟨.ok, pool, ?_, ⟨rfl, rfl, rfl, Or.inr ⟨nofun, rfl⟩⟩, hnone⟩
      rw [hsame]
      rfl
    | some r =>
      have hlive : pool.live =
          before.filterMap Large.malloc ++ r :: after.filterMap Large.malloc := by
        rw [Pool.live, hlarge, List.filterMap_append, filterMap_malloc_cons]
      have hmem : r ∈ pool.live := by simp [hlive]
      have howned : pool.owned.Perm (r :: (pool.chain.wholes ++
          (before.filterMap Large.malloc ++ after.filterMap Large.malloc))) := by
        rw [Pool.owned, hlive, ← List.append_assoc, ← List.append_assoc]
        exact List.perm_middle
      obtain ⟨hfree, hrest⟩ := free_eq hsound.apart (hsound.heap.trans howned)
      have hlive' : (before ++ (⟨addr, none⟩ : Large) :: after).filterMap Large.malloc =
          before.filterMap Large.malloc ++ after.filterMap Large.malloc := by
        rw [List.filterMap_append, List.filterMap_cons_none rfl]
      have hrecords : (before ++ (⟨addr, none⟩ : Large) :: after).map Large.record =
          pool.large.map Large.record := by
        simp [hlarge, Large.record]
      subst hp
      refine ⟨.ok, { pool with
          large := before ++ ⟨addr, none⟩ :: after, heap := pool.heap.erase r }, ?_, ?_, ?_⟩
      · rw [Option.map_some, hfree]
        rfl
      · refine ⟨rfl, rfl, by simp [hlarge], Or.inl ⟨r, hmem, rfl, rfl, ?_, ?_⟩⟩
        · rw [hlive, Pool.live, hlive']
          exact List.perm_middle
        · exact List.perm_cons_erase (hsound.heap.mem_iff.mpr (List.mem_append_right _ hmem))
      · refine ⟨⟨?_, hsound.chain.current⟩, hsound.limit, ?_, ?_, ?_⟩
        · rw [Pool.live, hlive', hrecords]
          apply hnone.chain.arena.dropLarge
          · rw [hlive]
            exact (List.sublist_cons_self r _).append_left _
          · intro s hs
            obtain ⟨l, hl, rfl⟩ := List.mem_map.mp hs
            exact hsound.records l hl
        · rw [Pool.owned, Pool.live, hlive']
          exact hrest
        · exact fun s hs => hsound.positive s (List.mem_of_mem_erase hs)
        · intro l hl
          have hrecord := List.mem_map_of_mem (f := Large.record) hl
          rw [hrecords] at hrecord
          obtain ⟨l', hl', heq⟩ := List.mem_map.mp hrecord
          exact heq ▸ hsound.records l' hl'

/-! ## `night_destroy_pool` -/

theorem readable_of_perm {heap kept rest : List Region} (hperm : heap.Perm (kept ++ rest))
    {r owner : Region} (howner : owner ∈ rest) (hinside : r.Inside owner) : Readable heap r :=
  ⟨owner, hperm.mem_iff.mpr (List.mem_append_right _ howner), hinside⟩

/-- The first loop frees the large regions; the records stay in the blocks. -/
theorem destroyLarge_eq {heap wholes : List Region} {large : List Large}
    (hapart : Apart heap) (hheap : heap.Perm (large.filterMap Large.malloc ++ wholes))
    (hrecords : ∀ l ∈ large, ∃ owner ∈ wholes, l.record.Inside owner) :
    ∃ heap', destroyLarge heap large = some heap' ∧ heap'.Perm wholes := by
  induction large generalizing heap with
  | nil => exact ⟨heap, rfl, hheap⟩
  | cons l rest ih =>
    obtain ⟨owner, howner, hinside⟩ := hrecords l List.mem_cons_self
    have hrest : ∀ l ∈ rest, ∃ owner ∈ wholes, l.record.Inside owner :=
      fun l hl => hrecords l (List.mem_cons_of_mem _ hl)
    obtain ⟨addr, malloc⟩ := l
    rw [destroyLarge, if_pos (readable_of_perm hheap howner hinside)]
    cases malloc with
    | none =>
      rw [List.filterMap_cons_none rfl] at hheap
      have hfree : free heap (Option.map Region.addr (none : Option Region)) = some heap := rfl
      simp only [hfree]
      rw [if_pos (readable_of_perm hheap howner hinside)]
      exact ih hapart hheap hrest
    | some r =>
      rw [filterMap_malloc_cons, List.cons_append] at hheap
      obtain ⟨hfree, hheap'⟩ := free_eq hapart hheap
      simp only [Option.map_some, hfree]
      rw [if_pos (readable_of_perm hheap' howner hinside)]
      exact ih (List.Pairwise.sublist List.erase_sublist hapart) hheap' hrest

theorem destroyBlocks_eq {heap kept : List Region} {blocks : List Block} (hapart : Apart heap)
    (hheap : heap.Perm ((blocks.map Block.chunk).map Chunk.whole ++ kept))
    (hvalid : ∀ p ∈ blocks, p.chunk.Valid) :
    ∃ heap', destroyBlocks heap blocks = some heap' ∧ heap'.Perm kept := by
  induction blocks generalizing heap with
  | nil => exact ⟨heap, rfl, hheap⟩
  | cons data rest ih =>
    have hreadable : Readable heap data.chunk.own :=
      ⟨data.chunk.whole, hheap.mem_iff.mpr (by simp),
        Chunk.own_inside (hvalid data List.mem_cons_self)⟩
    obtain ⟨hfree, hheap'⟩ := free_eq hapart hheap
    rw [destroyBlocks, if_pos hreadable]
    have hfree' : free heap (some data.addr) = some (heap.erase data.chunk.whole) := hfree
    simp only [hfree']
    exact ih (List.Pairwise.sublist List.erase_sublist hapart) hheap'
      fun p hp => hvalid p (List.mem_cons_of_mem _ hp)

/-- Everything that the process has from the system is given back, once. -/
theorem nightDestroyPool_eq (hsound : Sound pool returned) : nightDestroyPool pool = some [] := by
  have hvalid : ∀ p ∈ pool.chain.blocks, p.chunk.Valid :=
    fun p hp => hsound.chain.arena.valid p.chunk (List.mem_map_of_mem hp)
  have hwholes : pool.chain.wholes = (pool.chain.blocks.map Block.chunk).map Chunk.whole := rfl
  have hrecords : ∀ l ∈ pool.large, ∃ owner ∈ pool.chain.wholes, l.record.Inside owner := by
    intro l hl
    obtain ⟨c, hc, hholds⟩ := hsound.records l hl
    exact ⟨c.whole, List.mem_map_of_mem hc, hholds.inside (hsound.chain.arena.valid c hc)⟩
  obtain ⟨heap₁, hlarge, hheap₁⟩ := destroyLarge_eq hsound.apart
    (hsound.heap.trans List.perm_append_comm) hrecords
  have hapart₁ : Apart heap₁ := by
    have hpairs := (List.pairwise_append.mp hsound.chain.arena.owned).1
    apply Apart.perm _ hheap₁.symm
    apply hpairs.imp_of_mem
    intro r s hr hs hdisjoint
    have hpositive : ∀ r ∈ pool.chain.wholes, 0 < r.size :=
      fun r hr => hsound.positive r (hsound.heap.mem_iff.mpr (List.mem_append_left _ hr))
    exact hdisjoint.addr_ne (hpositive r hr) (hpositive s hs)
  cases hblocks : pool.chain.blocks with
  | nil =>
    have hcurrent := hsound.chain.current
    rw [hblocks] at hcurrent
    cases hcurrent
  | cons first rest =>
    rw [hblocks] at hvalid
    have hfirst := hvalid first List.mem_cons_self
    have hheap₁' : heap₁.Perm ((rest.map Block.chunk).map Chunk.whole ++ [first.chunk.whole]) := by
      rw [hwholes, hblocks] at hheap₁
      exact hheap₁.trans (List.perm_append_singleton _ _).symm
    obtain ⟨heap₂, hrest, hheap₂⟩ := destroyBlocks_eq hapart₁ hheap₁'
      fun p hp => hvalid p (List.mem_cons_of_mem _ hp)
    have hreadable : Readable pool.heap first.chunk.own := by
      refine ⟨first.chunk.whole, hsound.heap.mem_iff.mpr ?_, Chunk.own_inside hfirst⟩
      simp [Pool.owned, hwholes, hblocks]
    have hreadable₁ : Readable heap₁ first.chunk.own :=
      ⟨first.chunk.whole, hheap₁'.mem_iff.mpr (by simp), Chunk.own_inside hfirst⟩
    have hlast : free heap₂ (some first.addr) = some [] := by
      rw [List.perm_singleton.mp hheap₂]
      simp [free, Block.chunk]
    rw [nightDestroyPool, hblocks]
    simp only [if_pos hreadable, hlarge, if_pos hreadable₁, hrest, hlast]

/-! ## Runs -/

theorem nightCreatePool_sound {memory : ℕ → Byte} (hsize : poolSize ≤ size)
    (hcreate : nightCreatePool system memory size = some pool) : Sound pool [] := by
  obtain ⟨p, -, hresult⟩ := Option.bind_eq_some_iff.mp hcreate
  cases hresult
  have hwhole : p + size - p = size := by omega
  refine ⟨⟨⟨?_, ?_, ?_, ?_⟩, ?_⟩, rfl, ?_, ?_, ?_⟩
  · intro c hc
    rw [List.map_singleton, List.mem_singleton] at hc
    subst hc
    refine ⟨show 0 < poolSize by decide, Nat.le_refl _, ?_⟩
    show p + poolSize ≤ p + (p + size - p)
    omega
  · simp [Arena.owned, Pool.live]
  · exact List.Pairwise.nil
  · intro r hr
    cases hr
  · exact List.mem_singleton.mpr rfl
  · simp [Pool.owned, Pool.live, Chain.wholes, Block.chunk, hwhole]
  · intro r hr
    rw [List.mem_singleton.mp hr]
    exact Nat.lt_of_lt_of_le (by decide) hsize
  · intro l hl
    cases hl

inductive Call where
  | pmalloc (size : ℕ)
  | plfree (p : Option ℕ)

/-- One call; there is no pool any more when `NULL` is dereferenced. -/
def step (system : Allocator) (pool : Pool) : Call → Option Pool
  | .pmalloc size => (nightPmalloc system pool size).map Prod.snd
  | .plfree p => (nightPlfree pool p).map Prod.snd

/-- The system may answer every call in another way. -/
def run : Pool → List (Allocator × Call) → Option Pool
  | pool, [] => some pool
  | pool, (system, call) :: calls =>
    match step system pool call with
    | none => none
    | some pool => run pool calls

theorem step_sound (hsound : Sound pool []) {call : Call}
    (hstep : step system pool call = some pool') : Sound pool' [] := by
  cases call with
  | pmalloc size =>
    obtain ⟨⟨result, served⟩, hcall, rfl⟩ := Option.map_eq_some_iff.mp hstep
    exact (nightPmalloc_served hsound hcall).sound.forget (List.nil_sublist _)
  | plfree p =>
    obtain ⟨rc, freed, hcall, -, hfreed⟩ := nightPlfree_lawful hsound p
    rw [step, hcall] at hstep
    cases hstep
    exact hfreed

theorem run_sound {calls : List (Allocator × Call)} (hsound : Sound pool [])
    (hrun : run pool calls = some pool') : Sound pool' [] := by
  induction calls generalizing pool with
  | nil =>
    cases hrun
    exact hsound
  | cons call calls ih =>
    rw [run] at hrun
    cases hstep : step call.1 pool call.2 with
    | none =>
      rw [hstep] at hrun
      cases hrun
    | some middle =>
      rw [hstep] at hrun
      exact ih (step_sound hsound hstep) hrun

/-- After every run the end of the pool gives back what the process has from the system, each
region once and without a look at freed memory, and `night_plfree` releases live large regions
only. -/
theorem nightDestroyPool_run {memory : ℕ → Byte} (hsize : poolSize ≤ size)
    (hcreate : nightCreatePool system memory size = some pool) {calls : List (Allocator × Call)}
    (hrun : run pool calls = some pool') :
    nightDestroyPool pool' = some [] ∧
      ∀ p, ∃ rc pool'', nightPlfree pool' p = some (rc, pool'') ∧ PlfreeLaw pool' p rc pool'' := by
  have hsound := run_sound (nightCreatePool_sound hsize hcreate) hrun
  refine ⟨nightDestroyPool_eq hsound, ?_⟩
  intro p
  obtain ⟨rc, pool'', hcall, hlaw, -⟩ := nightPlfree_lawful hsound p
  exact ⟨rc, pool'', hcall, hlaw⟩

/-- A pool of one page at the address 16. -/
def pagePool : Pool where
  chain := ⟨[⟨16, poolSize, 16 + poolSize, 16 + 4096, 0⟩], 16⟩
  limit := nightDefaultPoolLimit
  large := []
  memory := fun _ => 0xFF
  heap := [⟨16, 4096⟩]

/-- Two large regions, one of which is released, and a second block. -/
def pageCalls : List (Allocator × Call) :=
  [(.above fun _ => true, .pmalloc 5000), (.above fun _ => true, .pmalloc 6000),
    (.above fun _ => true, .plfree (some 4128)), (.above fun _ => true, .pmalloc 4008)]

theorem nightDestroyPool_run_page :
    ∃ pool, run pagePool pageCalls = some pool ∧ pool.heap.map Region.size = [16384, 6000, 4096] ∧
      nightDestroyPool pool = some [] := by
  have hheap : (run pagePool pageCalls).map (fun pool => pool.heap.map Region.size) =
      some [16384, 6000, 4096] := by decide
  obtain ⟨pool, hrun, hsizes⟩ := Option.map_eq_some_iff.mp hheap
  have hcreate : nightCreatePool (.above fun _ => true) (fun _ => 0xFF) 4096 = some pagePool := rfl
  exact ⟨pool, hrun, hsizes, (nightDestroyPool_run (by decide) hcreate hrun).1⟩

/-! ## Requests that the system refuses -/

/-- No block has room, and the system refuses a new one. -/
def BlockRefused (system : Allocator) (pool : Pool) (size : ℕ) : Prop :=
  pool.chain.take id size = none ∧ system.alloc pool.heap nightDefaultPoolSize = none

/-- The system refuses a block, the block for the record of a large region, or the region. -/
def Refused (system : Allocator) (pool : Pool) (size : ℕ) : Prop :=
  if nightAlign size < pool.limit then BlockRefused system pool (nightAlign size)
  else BlockRefused system pool (nightAlign poolLargeSize) ∨
    ∃ l pool', nightPmallocDepth system 1 pool poolLargeSize = some (some l, pool') ∧
      system.alloc pool'.heap (nightAlign size) = none

/-- `NULL` is returned, and the pool is as it was. -/
def Undone (system : Allocator) (pool : Pool) (size : ℕ) : Prop :=
  ∃ pool', nightPmalloc system pool size = some (none, pool') ∧ pool'.chain = pool.chain ∧
    pool'.large = pool.large ∧ pool'.heap = pool.heap

theorem nightPmallocSmall_large (hcall : nightPmallocSmall system pool size = some (p, pool')) :
    pool'.large = pool.large := by
  rw [nightPmallocSmall] at hcall
  cases htake : pool.chain.take id size with
  | none =>
    rw [htake] at hcall
    obtain ⟨m, -, hresult⟩ := Option.bind_eq_some_iff.mp hcall
    cases hresult
    rfl
  | some taken =>
    rw [htake] at hcall
    cases hcall
    rfl

/-- The call for a record adds no record of its own. -/
theorem nightPmallocDepth_one_large {result : Option ℕ}
    (hcall : nightPmallocDepth system 1 pool size = some (result, pool')) :
    pool'.large = pool.large := by
  rw [nightPmallocDepth] at hcall
  by_cases hsmall : nightAlign size < pool.limit
  · rw [if_pos hsmall] at hcall
    cases hserved : nightPmallocSmall system pool (nightAlign size) with
    | none =>
      rw [hserved] at hcall
      cases hcall
    | some served =>
      have hsame : served.2.large = pool.large := nightPmallocSmall_large hserved
      rw [hserved] at hcall
      cases hcall
      exact hsame
  · rw [if_neg hsmall] at hcall
    cases hcall

theorem nightPmallocSmall_refused (hrefused : BlockRefused system pool size) :
    nightPmallocSmall system pool size = none := by
  rw [nightPmallocSmall, hrefused.1]
  show nightPmallocBlock system pool size = none
  rw [nightPmallocBlock, hrefused.2]
  rfl

theorem nightPmallocDepth_one_refused
    (hrefused : BlockRefused system pool (nightAlign size)) :
    nightPmallocDepth system 1 pool size = none := by
  rw [nightPmallocDepth]
  by_cases hsmall : nightAlign size < pool.limit
  · rw [if_pos hsmall, nightPmallocSmall_refused hrefused]
    rfl
  · rw [if_neg hsmall]
    rfl

/-- A refused block is dereferenced, and a refused region leaves its record in the pool. -/
theorem not_undone_of_refused {system : Allocator} {pool : Pool} {size : ℕ}
    (hrefused : Refused system pool size) : ¬ Undone system pool size := by
  rintro ⟨pool', hcall, -, hlarge, -⟩
  rw [Refused] at hrefused
  rw [nightPmalloc, nightPmallocDepth] at hcall
  by_cases hsmall : nightAlign size < pool.limit
  · rw [if_pos hsmall] at hrefused
    rw [if_pos hsmall, nightPmallocSmall_refused hrefused] at hcall
    cases hcall
  · rw [if_neg hsmall] at hrefused hcall
    rcases hrefused with hrecord | ⟨l, middle, hrecord, halloc⟩
    · rw [nightPmallocLarge, nightPmallocDepth_one_refused hrecord] at hcall
      cases hcall
    · simp only [nightPmallocLarge, hrecord, halloc] at hcall
      cases hcall
      have hlonger := congrArg List.length hlarge
      rw [List.length_cons, nightPmallocDepth_one_large hrecord] at hlonger
      omega

/-- `night_pmalloc(pool, 5000)`: the record of the refused region stays in the list. -/
theorem not_undone_of_refused_page : ¬ Undone (.above fun _ => false) pagePool 5000 := by
  apply not_undone_of_refused
  rw [Refused, if_neg (by decide)]
  exact Or.inr ⟨80, _, rfl, rfl⟩

/-- `night_pmalloc(pool, 4040)`: no block has room, and the new one is refused. -/
theorem not_undone_block : ¬ ∀ (system : Allocator) (pool : Pool) (size : ℕ),
    Refused system pool size → Undone system pool size := by
  intro hall
  obtain ⟨pool', hcall, -⟩ := hall (.above fun _ => false) pagePool 4040 (by
    rw [Refused, if_pos (by decide)]
    exact ⟨by decide, rfl⟩)
  have hnull : (nightPmalloc (.above fun _ => false) pagePool 4040).isSome = false := by decide
  rw [hcall] at hnull
  cases hnull

end Night.PoolLarge
