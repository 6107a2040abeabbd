import Night.Core.Palloc

/-!
# What `night_palloc` keeps

A call that is refused leaves the pool as it is; any other call hands out a region that
is apart from all others, wherever it comes from.
-/

namespace Night.Palloc

open Night.Blocks
open Night.Bytes
open Night.Regions

variable {system : Allocator} {pool pool' : Pool} {held handed : List Region}
variable {size p : ℕ} {align : Bool}

/-- What the blocks, the large regions, the records and the regions that were handed out
are to each other, while `held` comes from the system and has no record yet. -/
structure Sound (pool : Pool) (held handed : List Region) : Prop where
  chain : pool.chain.Sound (held ++ pool.largeRegions) (handed ++ pool.large.map Large.record)
  sizes : ∀ r ∈ held ++ pool.owned, 0 < r.size ∧ r.size < 2 ^ 63
  stops : ∀ d ∈ pool.chain.blocks, d.stop % nightAlignment = 0
  max : poolSize + pool.max ≤ pool.psize
  least : poolSize + poolLargeSize ≤ pool.psize
  multiple : pool.psize % nightPoolAlignment = 0

theorem nightAlignPtr_mod (p : ℕ) : nightAlignPtr p % nightAlignment = 0 :=
  Nat.mul_mod_left _ _

theorem le_nightAlignPtr (p : ℕ) : p ≤ nightAlignPtr p := by
  rw [nightAlignPtr, nightAlignment]
  omega

theorem nightAlignPtr_le {stop : ℕ} (hp : p ≤ stop) (hstop : stop % nightAlignment = 0) :
    nightAlignPtr p ≤ stop := by
  rw [nightAlignPtr, nightAlignment] at *
  omega

theorem psize_eq (pool : Pool) : pool.psize = (pool.chain.wholes.map Region.size).headD 0 := by
  rw [Pool.psize, Chain.wholes]
  cases pool.chain.blocks <;> rfl

/-- The size of a block is that of the first one. -/
theorem psize_of_wholes {more : List Region} (hpos : 0 < pool.psize)
    (hwholes : pool'.chain.wholes = pool.chain.wholes ++ more) : pool'.psize = pool.psize := by
  rw [psize_eq] at hpos
  rw [psize_eq, psize_eq, hwholes, List.map_append]
  cases hsizes : pool.chain.wholes.map Region.size with
  | nil => simp [hsizes] at hpos
  | cons size sizes => rfl

theorem takenBlock_whole (m psize size : ℕ) :
    (takenBlock m psize size).chunk.whole = ⟨m, psize⟩ := by
  simp [takenBlock, Block.chunk]

/-- A new block is aligned, so that its first region follows the header. -/
theorem nightAlignPtr_block {m : ℕ} (hm : m % 16 = 0) :
    nightAlignPtr (m + poolDataSize) = m + poolDataSize := by
  rw [nightAlignPtr, poolDataSize, nightAlignment]
  omega

theorem takenBlock_valid {m psize : ℕ} (hm : m % 16 = 0) (hsize : poolDataSize + size ≤ psize) :
    (takenBlock m psize size).chunk.Valid where
  header_pos := show 0 < poolDataSize by decide
  low := by
    show m + poolDataSize ≤ nightAlignPtr (m + poolDataSize) + size
    rw [nightAlignPtr_block hm]
    omega
  high := by
    show nightAlignPtr (m + poolDataSize) + size ≤ m + (m + psize - m)
    rw [nightAlignPtr_block hm]
    omega

theorem Sound.psize_pos (hsound : Sound pool held handed) : 0 < pool.psize := by
  have hleast := hsound.least
  rw [poolSize] at hleast
  omega

/-- A chain with more blocks of the same size. -/
theorem Sound.update (hsound : Sound pool held handed) {chain : Chain} {more : List Region}
    {handed' : List Region} (hwholes : chain.wholes = pool.chain.wholes ++ more)
    (hchain : chain.Sound (held ++ pool.largeRegions)
      (handed' ++ pool.large.map Large.record))
    (hmore : ∀ r ∈ more, 0 < r.size ∧ r.size < 2 ^ 63)
    (hstops : ∀ d ∈ chain.blocks, d.stop % nightAlignment = 0) :
    Sound { pool with chain := chain } held handed' := by
  have hpsize : Pool.psize { pool with chain := chain } = pool.psize :=
    psize_of_wholes hsound.psize_pos hwholes
  refine ⟨hchain, ?_, hstops, ?_, ?_, ?_⟩
  · intro r hr
    have hold := hsound.sizes r
    simp only [Pool.owned, hwholes, List.mem_append] at hr hold
    rcases hr with hr | (hr | hr) | hr
    · exact hold (.inl hr)
    · exact hold (.inr (.inl hr))
    · exact hmore r hr
    · exact hold (.inr (.inr hr))
  · rw [hpsize]
    exact hsound.max
  · rw [hpsize]
    exact hsound.least
  · rw [hpsize]
    exact hsound.multiple

theorem Sound.rechain (hsound : Sound pool held handed) {chain : Chain}
    {handed' : List Region} (hwholes : chain.wholes = pool.chain.wholes)
    (hchain : chain.Sound (held ++ pool.largeRegions)
      (handed' ++ pool.large.map Large.record))
    (hstops : ∀ d ∈ chain.blocks, d.stop % nightAlignment = 0) :
    Sound { pool with chain := chain } held handed' :=
  hsound.update (hwholes.trans (List.append_nil _).symm) hchain (by simp) hstops

/-- A call that returned `p`, where `handed` was handed out before. -/
structure Served (pool pool' : Pool) (held handed : List Region) (size p : ℕ) : Prop where
  sound : Sound pool' held (⟨p, size⟩ :: handed)
  memory : pool'.memory = pool.memory
  cleanup : pool'.cleanup = pool.cleanup

theorem nightPallocBlock_served (hlimited : system.Limited) (hsound : Sound pool held handed)
    (hsize : poolDataSize + size ≤ pool.psize) :
    nightPallocBlock system held pool size = (none, pool) ∨
      ∃ p pool', nightPallocBlock system held pool size = (some p, pool') ∧
        Served pool pool' held handed size p ∧ p % nightAlignment = 0 ∧
        pool'.large = pool.large := by
  rw [nightPallocBlock]
  cases halloc : system.alloc (held ++ pool.owned) pool.psize with
  | none => exact .inl rfl
  | some m =>
      have hm := system.aligned halloc
      have hwholes : (pool.chain.link (2 ^ 32) (takenBlock m pool.psize size)).wholes =
          pool.chain.wholes ++ [⟨m, pool.psize⟩] := by
        rw [Chain.wholes_link, takenBlock_whole]
      refine .inr ⟨_, _, rfl, ⟨?_, rfl, rfl⟩, nightAlignPtr_mod _, rfl⟩
      apply hsound.update hwholes
      · apply hsound.chain.link (takenBlock_valid hm hsize)
        · intro owner howner
          rw [takenBlock_whole]
          apply system.fresh halloc
          simp only [Pool.owned, List.mem_append] at howner ⊢
          tauto
        · exact ⟨by rw [nightAlignPtr_block hm]; exact Nat.le_refl _, Nat.le_refl _⟩
      · intro r hr
        rw [List.mem_singleton.mp hr]
        exact ⟨hsound.psize_pos, hlimited halloc⟩
      · apply Chain.forall_link (fun _ _ hstop => hstop) hsound.stops
        have hmultiple := hsound.multiple
        show (m + pool.psize) % nightAlignment = 0
        rw [nightAlignment, nightPoolAlignment] at *
        omega

/-- The blocks serve a request that fits one of them, or a new one does. -/
theorem nightPallocSmall_served (hlimited : system.Limited) (hsound : Sound pool held handed)
    (hsize : poolDataSize + size ≤ pool.psize) (align : Bool) :
    nightPallocSmall system held pool size align = (none, pool) ∨
      ∃ p pool', nightPallocSmall system held pool size align = (some p, pool') ∧
        Served pool pool' held handed size p ∧ (align → p % nightAlignment = 0) ∧
        pool'.large = pool.large := by
  rw [nightPallocSmall]
  cases htake : pool.chain.take (if align then nightAlignPtr else id) size with
  | none =>
      refine (nightPallocBlock_served hlimited hsound hsize).imp_right ?_
      intro ⟨p, pool', hcall, hserved, hmod, hlarge⟩
      exact ⟨p, pool', hcall, hserved, fun _ => hmod, hlarge⟩
  | some taken =>
      obtain ⟨m, chain'⟩ := taken
      have hround : ∀ d ∈ pool.chain.blocks,
          d.last ≤ (if align then nightAlignPtr else id) d.last ∧
            (if align then nightAlignPtr else id) d.last ≤ d.stop := by
        intro d hd
        have hvalid := hsound.chain.arena.valid d.chunk (List.mem_map_of_mem hd)
        have hstop : d.last ≤ d.stop := Block.chunk_stop hvalid ▸ hvalid.high
        cases align with
        | true => exact ⟨le_nightAlignPtr _, nightAlignPtr_le hstop (hsound.stops d hd)⟩
        | false => exact ⟨Nat.le_refl _, hstop⟩
      obtain ⟨before, d, after, -, hm, -, -⟩ := Chain.exists_of_take htake
      refine .inr ⟨m, _, rfl, ⟨?_, rfl, rfl⟩, ?_, rfl⟩
      · apply hsound.rechain
        · rw [Chain.wholes_take htake]
        · exact hsound.chain.take hround htake
        · exact Chain.forall_take (fun _ hstop => hstop) hsound.stops htake
      · intro halign
        rw [hm, if_pos halign]
        exact nightAlignPtr_mod _

/-! ## Large regions -/

/-- A region that has just come from the system. -/
theorem Sound.hold (hsound : Sound pool [] handed) {r : Region}
    (hfresh : ∀ owner ∈ pool.owned, owner.Disjoint r) (hr : 0 < r.size ∧ r.size < 2 ^ 63) :
    Sound pool [r] (r :: handed) where
  chain := ⟨hsound.chain.arena.addLarge hfresh, hsound.chain.current⟩
  sizes s hs := by
    rcases List.mem_cons.mp hs with rfl | hs
    · exact hr
    · exact hsound.sizes s hs
  stops := hsound.stops
  max := hsound.max
  least := hsound.least
  multiple := hsound.multiple

/-- The region gets a record, a new one or one that is used again. -/
theorem Sound.settle {r : Region} (hsound : Sound pool [r] handed) {large : List Large}
    {handed' : List Region}
    (hlarge : (r :: pool.largeRegions).Perm (large.filterMap Large.alloc))
    (hhanded : (handed ++ pool.large.map Large.record).Perm
      (handed' ++ large.map Large.record)) :
    Sound { pool with large := large } [] handed' where
  chain := ⟨(hsound.chain.arena.perm hhanded).permLarge hlarge, hsound.chain.current⟩
  sizes s hs := by
    apply hsound.sizes
    simp only [List.nil_append, Pool.owned, List.mem_append, List.mem_singleton] at hs ⊢
    rcases hs with hs | hs
    · exact .inr (.inl hs)
    · rcases List.mem_cons.mp (hlarge.mem_iff.mpr hs) with hs | hs
      · exact .inl hs
      · exact .inr (.inr hs)
  stops := hsound.stops
  max := hsound.max
  least := hsound.least
  multiple := hsound.multiple

/-- A record that is used again stays where it is. -/
theorem reuseLarge_spec {r : Region} {n : ℕ} {large large' : List Large}
    (hreuse : reuseLarge r n large = some large') :
    (r :: large.filterMap Large.alloc).Perm (large'.filterMap Large.alloc) ∧
      large'.map Large.record = large.map Large.record := by
  induction large generalizing n large' with
  | nil => cases hreuse
  | cons l rest ih =>
      rw [reuseLarge] at hreuse
      split at hreuse
      · rename_i hfree
        rw [← Option.some.inj hreuse]
        exact ⟨by simp [hfree], rfl⟩
      split at hreuse
      · cases hreuse
      · obtain ⟨rest', hrest, rfl⟩ := Option.map_eq_some_iff.mp hreuse
        obtain ⟨hperm, hrecords⟩ := ih hrest
        refine ⟨?_, by rw [List.map_cons, hrecords, List.map_cons]⟩
        cases halloc : l.alloc with
        | none => simpa [halloc] using hperm
        | some s =>
            simp only [List.filterMap_cons, halloc]
            exact (List.Perm.swap s r _).trans (hperm.cons s)

theorem nightPallocLarge_served (hlimited : system.Limited) (hsound : Sound pool [] handed)
    (hpos : 0 < size) :
    nightPallocLarge system pool size = (none, pool) ∨
      ∃ p pool', nightPallocLarge system pool size = (some p, pool') ∧
        Served pool pool' [] handed size p ∧ p % nightAlignment = 0 := by
  rw [nightPallocLarge]
  cases halloc : system.alloc pool.owned size with
  | none => exact .inl rfl
  | some p =>
      have hp := system.aligned halloc
      have hmod : p % nightAlignment = 0 := by
        rw [nightAlignment]
        omega
      have hheld := hsound.hold (system.fresh halloc) ⟨hpos, hlimited halloc⟩
      cases hreuse : reuseLarge ⟨p, size⟩ 0 pool.large with
      | some large =>
          obtain ⟨hperm, hrecords⟩ := reuseLarge_spec hreuse
          refine .inr ⟨p, { pool with large := large }, by simp only [hreuse], ⟨?_, rfl, rfl⟩,
            hmod⟩
          apply hheld.settle hperm
          rw [hrecords]
      | none =>
          simp only [hreuse]
          have hfits : poolDataSize + poolLargeSize ≤ pool.psize := by
            have hleast := hheld.least
            rw [poolSize, poolLargeSize] at hleast
            rw [poolDataSize, poolLargeSize]
            omega
          rcases nightPallocSmall_served hlimited hheld hfits true with
            hnone | ⟨addr, pool', hcall, hserved, -, -⟩
          · exact .inl (by rw [hnone])
          · refine .inr ⟨p, { pool' with large := ⟨addr, some ⟨p, size⟩⟩ :: pool'.large },
              by rw [hcall], ⟨?_, hserved.memory, hserved.cleanup⟩, hmod⟩
            apply hserved.sound.settle (List.Perm.refl _)
            exact List.perm_middle.symm

/-! ## The calls -/

theorem small_fits (hsound : Sound pool held handed) (hsize : size ≤ pool.max) :
    poolDataSize + size ≤ pool.psize := by
  have hmax := hsound.max
  rw [poolSize] at hmax
  rw [poolDataSize]
  omega

theorem nightPalloc_served (hlimited : system.Limited) (hsound : Sound pool [] handed)
    (size : ℕ) :
    nightPalloc system pool size = (none, pool) ∨
      ∃ p pool', nightPalloc system pool size = (some p, pool') ∧
        Served pool pool' [] handed size p ∧ p % nightAlignment = 0 := by
  by_cases hsmall : size ≤ pool.max
  · rw [nightPalloc, if_pos hsmall]
    refine (nightPallocSmall_served hlimited hsound (small_fits hsound hsmall) true).imp_right ?_
    rintro ⟨p, pool', hcall, hserved, hmod, -⟩
    exact ⟨p, pool', hcall, hserved, hmod rfl⟩
  · rw [nightPalloc, if_neg hsmall]
    exact nightPallocLarge_served hlimited hsound (Nat.pos_of_ne_zero (by omega))

theorem nightPnalloc_served (hlimited : system.Limited) (hsound : Sound pool [] handed)
    (size : ℕ) :
    nightPnalloc system pool size = (none, pool) ∨
      ∃ p pool', nightPnalloc system pool size = (some p, pool') ∧
        Served pool pool' [] handed size p := by
  by_cases hsmall : size ≤ pool.max
  · rw [nightPnalloc, if_pos hsmall]
    refine (nightPallocSmall_served hlimited hsound (small_fits hsound hsmall) false).imp_right ?_
    rintro ⟨p, pool', hcall, hserved, -⟩
    exact ⟨p, pool', hcall, hserved⟩
  · rw [nightPnalloc, if_neg hsmall]
    have hpos : 0 < size := Nat.pos_of_ne_zero (by omega)
    refine (nightPallocLarge_served hlimited hsound hpos).imp_right ?_
    rintro ⟨p, pool', hcall, hserved, -⟩
    exact ⟨p, pool', hcall, hserved⟩

theorem nightCreatePool_sound (hlimited : system.Limited) {pagesize : ℕ} {memory : ℕ → Byte}
    (hsize : poolSize < size) (hmultiple : size % nightPoolAlignment = 0)
    (hcreate : nightCreatePool system pagesize memory size = some pool) : Sound pool [] [] := by
  obtain ⟨p, halloc, heq⟩ := Option.bind_eq_some_iff.mp hcreate
  obtain rfl := Option.some.inj heq
  have hp := system.aligned halloc
  have hpsize : p + size - p = size := Nat.add_sub_cancel_left p size
  refine ⟨⟨⟨?_, ?_, ?_, ?_⟩, ?_⟩, ?_, ?_, ?_, ?_, ?_⟩
  · intro c hc
    rw [List.map_singleton, List.mem_singleton] at hc
    subst hc
    refine ⟨show 0 < poolSize by decide, Nat.le_refl _, ?_⟩
    show p + poolSize ≤ p + (p + size - p)
    omega
  · simp [Arena.owned, Pool.largeRegions]
  · exact List.Pairwise.nil
  · intro r hr
    cases hr
  · exact List.mem_singleton.mpr rfl
  · intro r hr
    have heq : r = ⟨p, p + size - p⟩ := by
      simpa [Pool.owned, Pool.largeRegions, Chain.wholes, Block.chunk] using hr
    rw [heq, hpsize]
    exact ⟨(Nat.zero_le _).trans_lt hsize, hlimited halloc⟩
  · intro d hd
    rw [List.mem_singleton.mp hd]
    show (p + size) % nightAlignment = 0
    rw [nightPoolAlignment] at hmultiple
    rw [nightAlignment]
    omega
  · show poolSize + (if size - poolSize < pagesize then size - poolSize else pagesize) ≤
      p + size - p
    split <;> omega
  · show poolSize + poolLargeSize ≤ p + size - p
    rw [poolSize, nightPoolAlignment, poolLargeSize] at *
    omega
  · show (p + size - p) % nightPoolAlignment = 0
    rw [hpsize]
    exact hmultiple

end Night.Palloc
