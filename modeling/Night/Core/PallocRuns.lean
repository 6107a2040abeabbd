import Night.Core.PallocLaw

/-!
# Pools with arrays

Every array of a pool is a region like the others, whose size changes when it grows in
the first block and whose place changes when it does not.  Whatever is called in
whatever order, regions stay apart and arrays keep their elements.
-/

namespace Night.Palloc

open Night.Blocks
open Night.Bytes
open Night.Regions

variable {system : Allocator} {pool pool' : Pool} {held handed : List Region}
variable {size p : ℕ}

/-! ## Regions that were handed out -/

theorem Sound.size_lt (hsound : Sound pool held handed) {r : Region} (hr : r ∈ handed) :
    r.size < 2 ^ 63 := by
  obtain ⟨owner, howner, hinside⟩ :=
    hsound.chain.arena.exists_owner (List.mem_append_left _ hr)
  have howned : owner ∈ held ++ pool.owned := by
    simp only [Arena.owned, Pool.owned, Chain.wholes, List.mem_append] at howner ⊢
    tauto
  exact hinside.size_le.trans_lt (hsound.sizes owner howned).2

theorem Sound.memory (hsound : Sound pool held handed) (memory : ℕ → Byte) :
    Sound { pool with memory := memory } held handed :=
  ⟨hsound.chain, hsound.sizes, hsound.stops, hsound.max, hsound.least, hsound.multiple⟩

theorem Sound.rearrange (hsound : Sound pool held handed) {handed' : List Region}
    (hperm : handed.Perm handed') : Sound pool held handed' :=
  ⟨⟨hsound.chain.arena.perm (hperm.append_right _), hsound.chain.current⟩, hsound.sizes,
    hsound.stops, hsound.max, hsound.least, hsound.multiple⟩

theorem Sound.forget (hsound : Sound pool held handed) {handed' : List Region}
    (hsub : handed'.Sublist handed) : Sound pool held handed' :=
  ⟨⟨hsound.chain.arena.forget (hsub.append_right _), hsound.chain.current⟩, hsound.sizes,
    hsound.stops, hsound.max, hsound.least, hsound.multiple⟩

theorem Sound.disjoint_head (hsound : Sound pool held (⟨p, size⟩ :: handed)) {r : Region}
    (hr : r ∈ handed) : r.Disjoint ⟨p, size⟩ :=
  ((List.pairwise_cons.mp hsound.chain.arena.handed).1 r (List.mem_append_left _ hr)).symm

/-! ## Growing an array -/

variable {left right : List NightArray} {a a' : NightArray}

/-- The array may have grown to `a'`: it has its elements still, and nothing else has
changed. -/
structure Grown (pool pool' : Pool) (handed : List Region) (left right : List NightArray)
    (a a' : NightArray) : Prop where
  size : a'.size = a.size
  nelts : a'.nelts = a.nelts
  nalloc : a.nalloc ≤ a'.nalloc
  sound : Sound pool' [] ((if a'.elts = a.elts then [] else [a.storage]) ++ handed ++
    (left ++ a' :: right).map NightArray.storage)
  elements : ∀ k < a.size * a.nalloc, pool'.memory (a'.elts + k) = pool.memory (a.elts + k)
  others : ∀ r ∈ handed ++ (left ++ a :: right).map NightArray.storage, ∀ x, r.Has x →
    pool'.memory x = pool.memory x

/-- The array is the last region of the first block and takes the next bytes. -/
theorem grown_advance
    (hsound : Sound pool [] (handed ++ (left ++ a :: right).map NightArray.storage))
    (hnalloc : 1 ≤ a.nalloc) (hlast : lastOfFirst pool a = true) :
    Grown pool (advanceFirst pool a.size) handed left right a
      { a with nalloc := a.nalloc + 1 } := by
  have hmem : a.storage ∈ handed ++ (left ++ a :: right).map NightArray.storage := by simp
  have hsize : a.size * a.nalloc < 2 ^ 63 := hsound.size_lt hmem
  cases hblocks : pool.chain.blocks with
  | nil => simp [lastOfFirst, hblocks] at hlast
  | cons d rest =>
      simp only [lastOfFirst, hblocks, decide_eq_true_eq] at hlast
      obtain ⟨hend, hroom⟩ := hlast
      rw [mulSize_eq (by omega)] at hend
      have hd : d ∈ pool.chain.blocks := by simp [hblocks]
      have hstop := Block.chunk_stop (hsound.chain.arena.valid d.chunk (List.mem_map_of_mem hd))
      have hadvance : advanceFirst pool a.size = { pool with
          chain := ⟨{ d with last := d.last + a.size } :: rest, pool.chain.current⟩ } := by
        rw [advanceFirst, hblocks]
      have hpos : 0 < a.storage.size ∨ a.size = 0 := by
        rcases Nat.eq_zero_or_pos a.size with hzero | hpos
        · exact .inr hzero
        · exact .inl (Nat.mul_pos hpos hnalloc)
      refine ⟨rfl, rfl, Nat.le_succ _, ?_, ?_, ?_⟩
      · rw [hadvance, if_pos rfl, List.nil_append]
        apply hsound.rechain
        · rw [Chain.wholes, Chain.wholes, hblocks]
          simp [Block.chunk]
        · have harena := hsound.chain.arena
          have hlist : handed ++ (left ++ a :: right).map NightArray.storage ++
              pool.large.map Large.record =
              (handed ++ left.map NightArray.storage) ++ a.storage ::
                (right.map NightArray.storage ++ pool.large.map Large.record) := by
            simp
          have hlist' : handed ++ (left ++ { a with nalloc := a.nalloc + 1 } :: right).map
              NightArray.storage ++ pool.large.map Large.record =
              (handed ++ left.map NightArray.storage) ++
                ⟨a.storage.addr, a.storage.size + a.size⟩ ::
                (right.map NightArray.storage ++ pool.large.map Large.record) := by
            simp [NightArray.storage, Nat.mul_succ]
          rw [hlist, hblocks, List.map_cons, ← List.nil_append (d.chunk :: _)] at harena
          constructor
          · rw [hlist']
            exact harena.grow hend (hstop ▸ hroom) hpos
          · have hcurrent := hsound.chain.current
            rw [hblocks] at hcurrent
            exact hcurrent
        · intro e he
          have hstops := hsound.stops
          rw [hblocks] at hstops
          rcases List.mem_cons.mp he with rfl | he
          · exact hstops d List.mem_cons_self
          · exact hstops e (List.mem_cons_of_mem _ he)
      · intro k _
        rw [hadvance]
      · intro r _ x _
        rw [hadvance]

/-- The array moves to a region of twice its size. -/
theorem grown_move {new : ℕ}
    (hserved : Served pool pool' [] (handed ++ (left ++ a :: right).map NightArray.storage)
      (2 * (a.size * a.nalloc)) new) :
    Grown pool { pool' with memory := memcpy pool'.memory ⟨new, a.size * a.nalloc⟩ a.elts }
      handed left right a { a with elts := new, nalloc := a.nalloc * 2 } := by
  have hnew : Region.Inside ⟨new, a.size * a.nalloc⟩ ⟨new, 2 * (a.size * a.nalloc)⟩ :=
    ⟨Nat.le_refl _, Nat.add_le_add_left (Nat.le_mul_of_pos_left _ Nat.two_pos) _⟩
  have hstorage : (NightArray.mk new a.nelts a.size (a.nalloc * 2)).storage =
      ⟨new, 2 * (a.size * a.nalloc)⟩ := by
    rw [NightArray.storage, Nat.mul_left_comm 2, Nat.mul_comm 2]
  have hperm : (Region.mk new (2 * (a.size * a.nalloc)) ::
      (handed ++ (left ++ a :: right).map NightArray.storage)).Perm
      ([a.storage] ++ handed ++ (left ++ NightArray.mk new a.nelts a.size (a.nalloc * 2) ::
        right).map NightArray.storage) := by
    apply List.perm_iff_count.mpr
    intro r
    simp only [List.map_append, List.map_cons, hstorage, List.count_append, List.count_cons,
      List.count_nil]
    omega
  refine ⟨rfl, rfl, Nat.le_mul_of_pos_right _ Nat.two_pos, ?_, ?_, ?_⟩
  · apply Sound.memory
    have hmoved := hserved.sound.rearrange hperm
    show Sound pool' [] ((if new = a.elts then [] else [a.storage]) ++ handed ++ _)
    split
    · exact hmoved.forget (List.sublist_cons_self _ _)
    · exact hmoved
  · intro k hk
    rw [← hserved.memory]
    exact memcpy_has hk a.elts
  · intro r hr x hx
    rw [← hserved.memory]
    apply memcpy_other
    intro hhas
    exact hserved.sound.disjoint_head hr x hx (hnew.has hhas)

theorem grown_refl
    (hsound : Sound pool [] (handed ++ (left ++ a :: right).map NightArray.storage)) :
    Grown pool pool handed left right a a where
  size := rfl
  nelts := rfl
  nalloc := Nat.le_refl _
  sound := by
    rw [if_pos rfl]
    exact hsound
  elements _ _ := rfl
  others _ _ _ _ := rfl

theorem growArray_grown (hlimited : system.Limited)
    (hsound : Sound pool [] (handed ++ (left ++ a :: right).map NightArray.storage))
    (hnalloc : 1 ≤ a.nalloc) :
    growArray system pool a = (none, pool) ∨
      ∃ a' pool', growArray system pool a = (some a', pool') ∧
        Grown pool pool' handed left right a a' ∧ a.nalloc < a'.nalloc := by
  have hmem : a.storage ∈ handed ++ (left ++ a :: right).map NightArray.storage := by simp
  have hsize : a.size * a.nalloc < 2 ^ 63 := hsound.size_lt hmem
  have hmul : mulSize a.size a.nalloc = a.size * a.nalloc := mulSize_eq (by omega)
  have htwice : mulSize 2 (a.size * a.nalloc) = 2 * (a.size * a.nalloc) :=
    mulSize_eq (by omega)
  rw [growArray, hmul, htwice]
  by_cases hlast : lastOfFirst pool a = true
  · rw [if_pos hlast]
    exact .inr ⟨_, _, rfl, grown_advance hsound hnalloc hlast, Nat.lt_succ_self _⟩
  · rw [if_neg hlast]
    rcases nightPalloc_served hlimited hsound (2 * (a.size * a.nalloc)) with
      hnone | ⟨new, pool', hcall, hserved, -⟩
    · exact .inl (by rw [hnone])
    · refine .inr ⟨_, _, by rw [hcall], grown_move hserved, ?_⟩
      show a.nalloc < a.nalloc * 2
      omega

/-- A push that is not refused finds room, or makes it. -/
theorem nightArrayPush_grown (hlimited : system.Limited)
    (hsound : Sound pool [] (handed ++ (left ++ a :: right).map NightArray.storage))
    (hnelts : a.nelts ≤ a.nalloc) (hnalloc : 1 ≤ a.nalloc) :
    nightArrayPush system pool a = (none, a, pool) ∨
      ∃ a' pool', nightArrayPush system pool a =
          (some (a'.elts + a'.size * a'.nelts), { a' with nelts := a'.nelts + 1 }, pool') ∧
        Grown pool pool' handed left right a a' ∧ a'.nelts < a'.nalloc := by
  rw [nightArrayPush]
  by_cases hfull : a.nelts = a.nalloc
  · rw [if_pos hfull]
    rcases growArray_grown hlimited hsound hnalloc with
      hnone | ⟨a', pool', hcall, hgrown, hlt⟩
    · exact .inl (by rw [hnone])
    · refine .inr ⟨a', pool', by rw [hcall], hgrown, ?_⟩
      rw [hgrown.nelts, hfull]
      exact hlt
  · rw [if_neg hfull]
    exact .inr ⟨a, pool, rfl, grown_refl hsound, by omega⟩

/-! ## Steps -/

/-- A pool with its arrays. -/
structure StateSound (s : State) : Prop where
  pool : Sound s.pool [] (s.handed ++ s.arrays.map NightArray.storage)
  arrays : ∀ a ∈ s.arrays, a.nelts ≤ a.nalloc ∧ 1 ≤ a.nalloc

/-- The arrays are still there, and the bytes of their elements. -/
def KeepsArrays (s s' : State) : Prop :=
  ∀ (index : ℕ) (a : NightArray), s.arrays[index]? = some a →
    ∃ a', s'.arrays[index]? = some a' ∧ a'.size = a.size ∧ a.nelts ≤ a'.nelts ∧
      ∀ k < a.size * a.nelts, s'.pool.memory (a'.elts + k) = s.pool.memory (a.elts + k)

/-- What a single call owes its caller. -/
structure StepLaw (s : State) (op : Op) (result : Option ℕ) (s' : State) : Prop where
  aligned : ∀ size p, op = .palloc size ∨ op = .pcalloc size → result = some p →
    p % nightAlignment = 0
  pushed : ∀ index p, op = .arrayPush index → result = some p → ∃ a,
    s'.arrays[index]? = some a ∧ 0 < a.nelts ∧ p = a.elts + a.size * (a.nelts - 1)
  kept : (∀ memory, op ≠ .write memory) → KeepsArrays s s'

/-- What `night_array_init` needs: an element at least, and a product that does not wrap. -/
def Op.Valid : Op → Prop
  | .arrayInit n size => 1 ≤ n ∧ n * size < 2 ^ 64
  | _ => True

variable {s : State} {op : Op}

/-- A byte of an element is a byte of the storage. -/
theorem storage_has {k : ℕ} (hk : k < a.size * a.nelts) (hnelts : a.nelts ≤ a.nalloc) :
    a.storage.Has (a.elts + k) := by
  have hle := Nat.mul_le_mul_left a.size hnelts
  refine ⟨Nat.le_add_right _ _, ?_⟩
  show a.elts + k < a.elts + a.size * a.nalloc
  omega

/-- A call that leaves the arrays where they are keeps them, if it leaves the bytes of the
storage as they are. -/
theorem keeps_of_memory (hs : StateSound s) {s' : State} {more : List NightArray}
    (harrays : s'.arrays = s.arrays ++ more)
    (hmemory : ∀ r ∈ s.arrays.map NightArray.storage, ∀ x, r.Has x →
      s'.pool.memory x = s.pool.memory x) : KeepsArrays s s' := by
  intro index a ha
  have hmem : a ∈ s.arrays := List.mem_of_getElem? ha
  refine ⟨a, ?_, rfl, Nat.le_refl _, ?_⟩
  · rw [harrays, List.getElem?_append_left (List.getElem?_eq_some_iff.mp ha).1, ha]
  · intro k hk
    exact hmemory a.storage (List.mem_map_of_mem hmem) _
      (storage_has hk (hs.arrays a hmem).1)

/-- The state after a call that was served. -/
theorem StateSound.hand (hs : StateSound s) (hserved : Served s.pool pool' []
    (s.handed ++ s.arrays.map NightArray.storage) size p) :
    StateSound { s with pool := pool', handed := ⟨p, size⟩ :: s.handed } :=
  ⟨hserved.sound, hs.arrays⟩

/-- A call that gets nothing leaves the state as it was. -/
theorem law_refused (hs : StateSound s) (op : Op) : StateSound s ∧ StepLaw s op none s :=
  ⟨hs, nofun, nofun, fun _ =>
    keeps_of_memory hs (List.append_nil _).symm fun _ _ _ _ => rfl⟩

theorem step_palloc (hlimited : system.Limited) (hs : StateSound s) (size : ℕ) :
    StateSound (step system s (.palloc size)).2 ∧
      StepLaw s (.palloc size) (step system s (.palloc size)).1
        (step system s (.palloc size)).2 := by
  rw [step]
  rcases nightPalloc_served hlimited hs.pool size with
    hnone | ⟨p, pool', hcall, hserved, hmod⟩
  · rw [hnone]
    exact law_refused hs _
  · rw [hcall]
    refine ⟨hs.hand hserved, ?_, by simp, fun _ => ?_⟩
    · intro size p' _ hresult
      rw [← Option.some.inj hresult]
      exact hmod
    · exact keeps_of_memory hs (List.append_nil _).symm fun _ _ x _ =>
        congrFun hserved.memory x

theorem step_pnalloc (hlimited : system.Limited) (hs : StateSound s) (size : ℕ) :
    StateSound (step system s (.pnalloc size)).2 ∧
      StepLaw s (.pnalloc size) (step system s (.pnalloc size)).1
        (step system s (.pnalloc size)).2 := by
  rw [step]
  rcases nightPnalloc_served hlimited hs.pool size with hnone | ⟨p, pool', hcall, hserved⟩
  · rw [hnone]
    exact law_refused hs _
  · rw [hcall]
    refine ⟨hs.hand hserved, by simp, by simp, fun _ => ?_⟩
    exact keeps_of_memory hs (List.append_nil _).symm fun _ _ x _ => congrFun hserved.memory x

theorem step_pcalloc (hlimited : system.Limited) (hs : StateSound s) (size : ℕ) :
    StateSound (step system s (.pcalloc size)).2 ∧
      StepLaw s (.pcalloc size) (step system s (.pcalloc size)).1
        (step system s (.pcalloc size)).2 := by
  rw [step, nightPcalloc]
  rcases nightPalloc_served hlimited hs.pool size with
    hnone | ⟨p, pool', hcall, hserved, hmod⟩
  · rw [hnone]
    exact law_refused hs _
  · rw [hcall]
    have hzeroed := hs.hand hserved
    refine ⟨⟨hzeroed.pool.memory _, hs.arrays⟩, ?_, by simp, fun _ => ?_⟩
    · intro size p' _ hresult
      rw [← Option.some.inj hresult]
      exact hmod
    · have hmemory : ∀ r ∈ s.arrays.map NightArray.storage, ∀ x, r.Has x →
          nightMemzero pool'.memory ⟨p, size⟩ x = s.pool.memory x := by
        intro r hr x hx
        rw [← hserved.memory]
        apply nightMemzero_other
        exact hserved.sound.disjoint_head (List.mem_append_right _ hr) x hx
      exact keeps_of_memory hs (List.append_nil _).symm hmemory

theorem step_arrayInit (hlimited : system.Limited) (hs : StateSound s) {n size : ℕ}
    (hn : 1 ≤ n) (hmul : n * size < 2 ^ 64) :
    StateSound (step system s (.arrayInit n size)).2 ∧
      StepLaw s (.arrayInit n size) (step system s (.arrayInit n size)).1
        (step system s (.arrayInit n size)).2 := by
  rw [step, nightArrayInit, mulSize_eq hmul]
  rcases nightPalloc_served hlimited hs.pool (n * size) with
    hnone | ⟨p, pool', hcall, hserved, -⟩
  · rw [hnone]
    exact law_refused hs _
  · rw [hcall]
    have hstorage : (NightArray.mk p 0 size n).storage = ⟨p, n * size⟩ := by
      rw [NightArray.storage, Nat.mul_comm]
    refine ⟨⟨?_, ?_⟩, by simp, by simp, fun _ => ?_⟩
    · apply hserved.sound.rearrange
      rw [List.map_append, List.map_singleton, hstorage, ← List.append_assoc]
      exact (List.perm_append_singleton _ _).symm
    · intro a ha
      rcases List.mem_append.mp ha with ha | ha
      · exact hs.arrays a ha
      · rw [List.mem_singleton.mp ha]
        exact ⟨Nat.zero_le _, hn⟩
    · exact keeps_of_memory hs rfl fun _ _ x _ => congrFun hserved.memory x

theorem exists_split {α : Type*} {l : List α} {index : ℕ} {a : α} (ha : l[index]? = some a) :
    ∃ left right, l = left ++ a :: right ∧ left.length = index := by
  obtain ⟨hlt, hget⟩ := List.getElem?_eq_some_iff.mp ha
  refine ⟨l.take index, l.drop (index + 1), ?_, List.length_take_of_le (Nat.le_of_lt hlt)⟩
  rw [← hget, List.getElem_cons_drop, List.take_append_drop]

/-- The element goes behind the others, once there is room. -/
theorem push_law (hs : StateSound s) (hsplit : s.arrays = left ++ a :: right)
    (hgrown : Grown s.pool pool' s.handed left right a a') (hroom : a'.nelts < a'.nalloc) :
    StateSound ⟨pool', left ++ { a' with nelts := a'.nelts + 1 } :: right,
        (if a'.elts = a.elts then [] else [a.storage]) ++ s.handed⟩ ∧
      StepLaw s (.arrayPush left.length) (some (a'.elts + a'.size * a'.nelts))
        ⟨pool', left ++ { a' with nelts := a'.nelts + 1 } :: right,
          (if a'.elts = a.elts then [] else [a.storage]) ++ s.handed⟩ := by
  have hget : (left ++ { a' with nelts := a'.nelts + 1 } :: right)[left.length]? =
      some { a' with nelts := a'.nelts + 1 } := by simp
  refine ⟨⟨?_, ?_⟩, by simp, ?_, fun _ => ?_⟩
  · have hsound := hgrown.sound
    simp only [List.map_append, List.map_cons] at hsound ⊢
    exact hsound
  · intro b hb
    have harrays := hs.arrays
    rw [hsplit] at harrays
    simp only [List.mem_append, List.mem_cons] at hb harrays
    rcases hb with hb | rfl | hb
    · exact harrays b (.inl hb)
    · exact ⟨hroom, Nat.lt_of_le_of_lt (Nat.zero_le _) hroom⟩
    · exact harrays b (.inr (.inr hb))
  · intro index p hop hresult
    obtain rfl := Op.arrayPush.inj hop
    rw [← Option.some.inj hresult]
    exact ⟨_, hget, Nat.succ_pos _, rfl⟩
  · intro index b hb
    rw [hsplit] at hb
    by_cases hindex : index = left.length
    · subst hindex
      have hba : b = a := by simpa using hb.symm
      subst hba
      refine ⟨_, hget, hgrown.size, ?_, ?_⟩
      · show b.nelts ≤ a'.nelts + 1
        rw [hgrown.nelts]
        exact Nat.le_succ _
      · intro k hk
        apply hgrown.elements
        have hnelts := (hs.arrays b (by simp [hsplit])).1
        exact hk.trans_le (Nat.mul_le_mul_left _ hnelts)
    · have hmem : b ∈ left ++ a :: right := List.mem_of_getElem? hb
      refine ⟨b, ?_, rfl, Nat.le_refl _, ?_⟩
      · show (left ++ { a' with nelts := a'.nelts + 1 } :: right)[index]? = some b
        rw [← hb, List.getElem?_append, List.getElem?_append]
        split
        · rfl
        · cases hdiff : index - left.length with
          | zero => omega
          | succ rest => rfl
      · intro k hk
        have hnelts := (hs.arrays b (hsplit ▸ hmem)).1
        exact hgrown.others b.storage
          (List.mem_append_right _ (List.mem_map_of_mem hmem)) _ (storage_has hk hnelts)

theorem step_arrayPush (hlimited : system.Limited) (hs : StateSound s) (index : ℕ) :
    StateSound (step system s (.arrayPush index)).2 ∧
      StepLaw s (.arrayPush index) (step system s (.arrayPush index)).1
        (step system s (.arrayPush index)).2 := by
  rw [step]
  cases ha : s.arrays[index]? with
  | none =>
      exact law_refused hs _
  | some a =>
      obtain ⟨left, right, hsplit, rfl⟩ := exists_split ha
      have hset : ∀ b, s.arrays.set left.length b = left ++ b :: right := by
        intro b
        rw [hsplit]
        simp
      have hmem : a ∈ s.arrays := by simp [hsplit]
      obtain ⟨hnelts, hnalloc⟩ := hs.arrays a hmem
      have hsound := hs.pool
      rw [hsplit] at hsound
      simp only [hset]
      rcases nightArrayPush_grown hlimited hsound hnelts hnalloc with
        hnone | ⟨a', pool', hcall, hgrown, hroom⟩
      · have hsame : (⟨s.pool, left ++ a :: right, s.handed⟩ : State) = s := by
          rw [← hsplit]
        simp only [hnone, if_true, List.nil_append, hsame]
        exact law_refused hs _
      · simp only [hcall]
        exact push_law hs hsplit hgrown hroom

theorem step_write (hs : StateSound s) (memory : ℕ → Byte) :
    StateSound (step system s (.write memory)).2 ∧
      StepLaw s (.write memory) (step system s (.write memory)).1
        (step system s (.write memory)).2 :=
  ⟨⟨hs.pool.memory memory, hs.arrays⟩, by simp, by simp, fun hop => absurd rfl (hop memory)⟩

theorem step_lawful (hlimited : system.Limited) (hs : StateSound s) (hop : op.Valid) :
    StateSound (step system s op).2 ∧
      StepLaw s op (step system s op).1 (step system s op).2 := by
  cases op with
  | palloc size => exact step_palloc hlimited hs size
  | pnalloc size => exact step_pnalloc hlimited hs size
  | pcalloc size => exact step_pcalloc hlimited hs size
  | arrayInit n size => exact step_arrayInit hlimited hs hop.1 hop.2
  | arrayPush index => exact step_arrayPush hlimited hs index
  | write memory => exact step_write hs memory

/-! ## Runs -/

/-- Calls one after the other, each with the answers that the system gives to it. -/
def run : State → List (Allocator × Op) → State
  | s, [] => s
  | s, (system, op) :: calls => run (step system s op).2 calls

theorem run_sound {calls : List (Allocator × Op)} (hs : StateSound s)
    (hcalls : ∀ call ∈ calls, call.1.Limited ∧ call.2.Valid) : StateSound (run s calls) := by
  induction calls generalizing s with
  | nil => exact hs
  | cons call calls ih =>
      obtain ⟨hlimited, hvalid⟩ := hcalls call List.mem_cons_self
      apply ih (step_lawful hlimited hs hvalid).1
      intro other hother
      exact hcalls other (List.mem_cons_of_mem _ hother)

/-- What was handed out to the owner of the pool. -/
def State.regions (s : State) : List Region := s.handed ++ s.arrays.map NightArray.storage

/-- What a pool owes its owner. -/
structure Lawful (s : State) : Prop where
  disjoint : s.regions.Pairwise Region.Disjoint
  inside : ∀ r ∈ s.regions,
    (∃ d ∈ s.pool.chain.blocks, d.chunk.Holds r ∧ r.Inside d.chunk.whole) ∨
      ∃ l ∈ s.pool.large, l.alloc = some r
  headers : ∀ r ∈ s.regions, (∀ d ∈ s.pool.chain.blocks, r.Disjoint d.chunk.own) ∧
    ∀ l ∈ s.pool.large, r.Disjoint l.record
  current : ∃ d ∈ s.pool.chain.blocks, d.addr = s.pool.chain.current
  elements : ∀ a ∈ s.arrays, ∀ i < a.nelts,
    Region.Inside ⟨a.elts + a.size * i, a.size⟩ a.storage

theorem StateSound.lawful (hs : StateSound s) : Lawful s where
  disjoint := (List.pairwise_append.mp hs.pool.chain.arena.handed).1
  inside r hr := by
    rcases hs.pool.chain.arena.inside r (List.mem_append_left _ hr) with ⟨c, hc, hholds⟩ | hlarge
    · obtain ⟨d, hd, rfl⟩ := List.mem_map.mp hc
      exact .inl ⟨d, hd, hholds, hholds.inside (hs.pool.chain.arena.valid _ hc)⟩
    · exact .inr (List.mem_filterMap.mp hlarge)
  headers r hr := by
    constructor
    · intro d hd
      exact hs.pool.chain.arena.disjoint_own (List.mem_append_left _ hr) (List.mem_map_of_mem hd)
    · intro l hl
      exact (List.pairwise_append.mp hs.pool.chain.arena.handed).2.2 r hr l.record
        (List.mem_map_of_mem hl)
  current := List.mem_map.mp hs.pool.chain.current
  elements a ha i hi := by
    have hnelts := (hs.arrays a ha).1
    have hle : a.size * (i + 1) ≤ a.size * a.nalloc := Nat.mul_le_mul_left _ (by omega)
    refine ⟨Nat.le_add_right _ _, ?_⟩
    show a.elts + a.size * i + a.size ≤ a.elts + a.size * a.nalloc
    rw [Nat.mul_succ] at hle
    omega

/-! ## The end of a pool -/

def Event.ran : Event → Option (ℕ × ℕ)
  | .cleanup handler data => some (handler, data)
  | .free _ => none

def Event.freed : Event → Option ℕ
  | .cleanup _ _ => none
  | .free addr => some addr

/-- The cleanups run once each, in the order of the list, and what the pool has from the
system is freed once each. -/
structure DestroyLaw (pool : Pool) : Prop where
  ran : (nightDestroyPool pool).filterMap Event.ran =
    pool.cleanup.filterMap fun c => c.handler.map fun handler => (handler, c.data)
  once : ((nightDestroyPool pool).filterMap Event.freed).Nodup
  freed : ∀ addr, addr ∈ (nightDestroyPool pool).filterMap Event.freed ↔
    ∃ r ∈ pool.owned, r.addr = addr

theorem ran_eq (pool : Pool) :
    (nightDestroyPool pool).filterMap Event.ran =
      pool.cleanup.filterMap fun c => c.handler.map fun handler => (handler, c.data) := by
  have hcleanup : ∀ c : Cleanup,
      ((c.handler.map fun handler => Event.cleanup handler c.data).bind Event.ran) =
        c.handler.map fun handler => (handler, c.data) := by
    intro c
    cases c.handler <;> rfl
  have hlarge : ∀ l : Large,
      ((l.alloc.map fun p => Event.free p.addr).bind Event.ran) = none := by
    intro l
    cases l.alloc <;> rfl
  simp only [nightDestroyPool, List.filterMap_append, List.filterMap_filterMap,
    List.filterMap_map, hcleanup, hlarge]
  simp [Event.ran, Function.comp_def]

theorem freed_eq (pool : Pool) :
    (nightDestroyPool pool).filterMap Event.freed =
      (pool.largeRegions ++ pool.chain.wholes).map Region.addr := by
  have hcleanup : ∀ c : Cleanup,
      ((c.handler.map fun handler => Event.cleanup handler c.data).bind Event.freed) = none := by
    intro c
    cases c.handler <;> rfl
  have hlarge : ∀ l : Large, ((l.alloc.map fun p => Event.free p.addr).bind Event.freed) =
      l.alloc.map Region.addr := by
    intro l
    cases l.alloc <;> rfl
  simp only [nightDestroyPool, List.filterMap_append, List.filterMap_filterMap,
    List.filterMap_map, hcleanup, hlarge, Pool.largeRegions, Chain.wholes, List.map_append,
    List.map_filterMap, List.map_map]
  simp [Event.freed, Function.comp_def, Block.chunk]

/-- Whatever cleanups are registered by then. -/
theorem Sound.destroyLaw (hsound : Sound pool [] handed) (cleanup : List Cleanup) :
    DestroyLaw { pool with cleanup := cleanup } where
  ran := ran_eq _
  once := by
    have hpairs : (pool.largeRegions ++ pool.chain.wholes).Pairwise Region.Disjoint :=
      hsound.chain.arena.owned.perm List.perm_append_comm fun hdisjoint => hdisjoint.symm
    rw [freed_eq]
    apply List.pairwise_map.mpr
    apply hpairs.imp_of_mem
    intro r s hr hs hdisjoint
    have hsize : ∀ r ∈ pool.largeRegions ++ pool.chain.wholes, 0 < r.size := by
      intro r hr
      apply (hsound.sizes r _).1
      simp only [List.nil_append, Pool.owned, List.mem_append] at hr ⊢
      exact hr.symm
    exact hdisjoint.addr_ne (hsize r hr) (hsize s hs)
  freed addr := by
    rw [freed_eq, List.mem_map]
    simp only [Pool.owned, List.mem_append, Or.comm]

/-- Every run on a new pool: what was handed out is lawful, so is the next call, and the
end of the pool frees everything once. -/
theorem pool_lawful (hlimited : system.Limited) {pagesize : ℕ} {memory : ℕ → Byte}
    (hsize : poolSize < size) (hmultiple : size % nightPoolAlignment = 0)
    (hcreate : nightCreatePool system pagesize memory size = some pool)
    {calls : List (Allocator × Op)} (hcalls : ∀ call ∈ calls, call.1.Limited ∧ call.2.Valid) :
    Lawful (run ⟨pool, [], []⟩ calls) ∧
      (∀ (system : Allocator) (op : Op), system.Limited → op.Valid →
        StepLaw (run ⟨pool, [], []⟩ calls) op (step system (run ⟨pool, [], []⟩ calls) op).1
          (step system (run ⟨pool, [], []⟩ calls) op).2) ∧
      ∀ cleanup, DestroyLaw { (run ⟨pool, [], []⟩ calls).pool with cleanup := cleanup } := by
  have hcreated : StateSound ⟨pool, [], []⟩ :=
    ⟨nightCreatePool_sound hlimited hsize hmultiple hcreate, by simp⟩
  have hsound := run_sound hcreated hcalls
  refine ⟨hsound.lawful, ?_, hsound.pool.destroyLaw⟩
  intro system op hlimited hop
  exact (step_lawful hlimited hsound hop).2

/-- The allocator that refuses half of the address space. -/
def halfSystem : Allocator := .above fun size => size < 2 ^ 63

theorem halfSystem_limited : halfSystem.Limited := by
  intro owned size addr halloc
  by_contra hsize
  have hrefused : halfSystem.alloc owned size = none := if_neg (by simpa using hsize)
  rw [hrefused] at halloc
  cases halloc

/-- An array that grows in the first block, then moves, between other requests. -/
def growingCalls : List (Allocator × Op) :=
  [(halfSystem, .pnalloc 3), (halfSystem, .arrayInit 1 8), (halfSystem, .arrayPush 0),
    (halfSystem, .arrayPush 0), (halfSystem, .palloc 5000), (halfSystem, .arrayPush 0)]

theorem pool_lawful_growingCalls :
    ∃ pool, nightCreatePool halfSystem 4096 (fun _ => 0) 1024 = some pool ∧
      Lawful (run ⟨pool, [], []⟩ growingCalls) := by
  obtain ⟨pool, hcreate⟩ : ∃ pool,
      nightCreatePool halfSystem 4096 (fun _ => 0) 1024 = some pool := ⟨_, rfl⟩
  have hcalls : ∀ call ∈ growingCalls, call.1.Limited ∧ call.2.Valid := by
    simp [growingCalls, halfSystem_limited, Op.Valid]
  exact ⟨pool, hcreate,
    (pool_lawful halfSystem_limited (by decide) (by decide) hcreate hcalls).1⟩

end Night.Palloc
