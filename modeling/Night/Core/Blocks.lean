import Night.Core.Bytes
import Night.Lib.Arena

/-!
# The blocks of a pool

Both allocators of the source keep their blocks in a chain.  A request is served by
the first block with room from `current` on; when there is none a new block goes to
the end of the chain, and the blocks that were passed count a failure.
-/

namespace Night.Blocks

open Night.Bytes
open Night.Regions

/-- The `night_pool_data_t` of the block at `addr`, which starts with a structure of
`header` bytes. -/
structure Block where
  addr : ℕ
  header : ℕ
  last : ℕ
  stop : ℕ
  failed : ℕ
  deriving DecidableEq, Repr

/-- The blocks in the order of `next`, and `pool->current`. -/
structure Chain where
  blocks : List Block
  current : ℕ
  deriving DecidableEq, Repr

/-- A product of two values of type `size_t`. -/
def mulSize (m n : ℕ) : ℕ := m * n % 2 ^ 64

theorem mulSize_eq {m n : ℕ} (hlt : m * n < 2 ^ 64) : mulSize m n = m * n := Nat.mod_eq_of_lt hlt

/-- `(size_t) (stop - m)`. -/
def room (stop m : ℕ) : ℕ := (((stop : ℤ) - m) % 2 ^ 64).toNat

/-- The loop over the blocks that looks for `size` bytes; `round` is what it does to
`last` first. -/
def takeFrom (round : ℕ → ℕ) (size : ℕ) : List Block → Option (ℕ × List Block)
  | [] => none
  | p :: rest =>
      let m := round p.last
      if size ≤ room p.stop m then some (m, { p with last := m + size } :: rest)
      else (takeFrom round size rest).map fun taken => (taken.1, p :: taken.2)

/-- The loop that counts the failures of all blocks but the last; `modulus` is the range
of `failed`. -/
def countFailures (modulus : ℕ) : ℕ → List Block → ℕ × List Block
  | current, p :: next :: rest =>
      let current := if p.failed > 4 then next.addr else current
      let counted := countFailures modulus current (next :: rest)
      (counted.1, { p with failed := (p.failed + 1) % modulus } :: counted.2)
  | current, blocks => (current, blocks)

namespace Chain

def beforeCurrent (chain : Chain) : List Block :=
  chain.blocks.takeWhile fun p => p.addr ≠ chain.current

def fromCurrent (chain : Chain) : List Block :=
  chain.blocks.dropWhile fun p => p.addr ≠ chain.current

/-- The search from `current` on. -/
def take (round : ℕ → ℕ) (size : ℕ) (chain : Chain) : Option (ℕ × Chain) :=
  (takeFrom round size chain.fromCurrent).map fun taken =>
    (taken.1, { chain with blocks := chain.beforeCurrent ++ taken.2 })

/-- A new block is linked behind the last one. -/
def link (modulus : ℕ) (new : Block) (chain : Chain) : Chain :=
  let counted := countFailures modulus chain.current chain.fromCurrent
  ⟨chain.beforeCurrent ++ counted.2 ++ [new], counted.1⟩

end Chain

def nightMemzero (memory : ℕ → Byte) (r : Region) : ℕ → Byte :=
  fun x => if r.Has x then 0 else memory x

/-- `memcpy(r.addr, source, r.size)`. -/
def memcpy (memory : ℕ → Byte) (r : Region) (source : ℕ) : ℕ → Byte :=
  fun x => if r.Has x then memory (source + (x - r.addr)) else memory x

theorem nightMemzero_has {memory : ℕ → Byte} {r : Region} {x : ℕ} (hx : r.Has x) :
    nightMemzero memory r x = 0 := if_pos hx

theorem nightMemzero_other {memory : ℕ → Byte} {r : Region} {x : ℕ} (hx : ¬ r.Has x) :
    nightMemzero memory r x = memory x := if_neg hx

theorem memcpy_has {memory : ℕ → Byte} {r : Region} {k : ℕ} (hk : k < r.size) (source : ℕ) :
    memcpy memory r source (r.addr + k) = memory (source + k) := by
  rw [memcpy, if_pos ⟨Nat.le_add_right _ _, Nat.add_lt_add_left hk _⟩, Nat.add_sub_cancel_left]

theorem memcpy_other {memory : ℕ → Byte} {r : Region} {x : ℕ} (hx : ¬ r.Has x) (source : ℕ) :
    memcpy memory r source x = memory x := if_neg hx

/-! ## What the loops change -/

variable {round : ℕ → ℕ} {size modulus m : ℕ} {blocks blocks' : List Block}
variable {chain chain' : Chain} {new : Block} {P : Block → Prop}

theorem le_of_le_room {stop : ℕ} (hm : m ≤ stop) (hroom : size ≤ room stop m) :
    m + size ≤ stop := by
  rw [room] at hroom
  omega

theorem exists_of_takeFrom (htake : takeFrom round size blocks = some (m, blocks')) :
    ∃ before p after, blocks = before ++ p :: after ∧ m = round p.last ∧
      size ≤ room p.stop m ∧ blocks' = before ++ { p with last := m + size } :: after := by
  induction blocks generalizing blocks' with
  | nil => cases htake
  | cons p rest ih =>
      rw [takeFrom] at htake
      split at htake
      · rename_i hroom
        cases htake
        exact ⟨[], p, rest, rfl, rfl, hroom, rfl⟩
      · obtain ⟨⟨m', rest'⟩, hrest, heq⟩ := Option.map_eq_some_iff.mp htake
        obtain ⟨hm', hblocks'⟩ := Prod.mk.inj heq
        dsimp only at hm' hblocks'
        subst hm' hblocks'
        obtain ⟨before, q, after, rfl, hm, hroom, rfl⟩ := ih hrest
        exact ⟨p :: before, q, after, rfl, hm, hroom, rfl⟩

theorem Chain.blocks_eq (chain : Chain) :
    chain.beforeCurrent ++ chain.fromCurrent = chain.blocks :=
  List.takeWhile_append_dropWhile

/-- A request that is served moves `last` of one block. -/
theorem Chain.exists_of_take (htake : chain.take round size = some (m, chain')) :
    ∃ before p after, chain.blocks = before ++ p :: after ∧ m = round p.last ∧
      size ≤ room p.stop m ∧
      chain' = ⟨before ++ { p with last := m + size } :: after, chain.current⟩ := by
  obtain ⟨⟨m', tail⟩, htail, heq⟩ := Option.map_eq_some_iff.mp htake
  cases heq
  obtain ⟨before, p, after, hblocks, hm, hroom, rfl⟩ := exists_of_takeFrom htail
  refine ⟨chain.beforeCurrent ++ before, p, after, ?_, hm, hroom, ?_⟩
  · rw [← chain.blocks_eq, hblocks, List.append_assoc]
  · rw [List.append_assoc]

theorem forall_countFailures (hcount : ∀ p failed, P p → P { p with failed := failed })
    (current : ℕ) (hblocks : ∀ p ∈ blocks, P p) :
    ∀ p ∈ (countFailures modulus current blocks).2, P p := by
  fun_induction countFailures modulus current blocks with
  | case1 current p next rest current' counted ih =>
      intro q hq
      rcases List.mem_cons.mp hq with rfl | hq
      · exact hcount p _ (hblocks p List.mem_cons_self)
      · exact ih (fun q hq => hblocks q (List.mem_cons_of_mem p hq)) q hq
  | case2 => exact hblocks

theorem map_countFailures {β : Type*} {f : Block → β}
    (hcount : ∀ p failed, f { p with failed := failed } = f p) (current : ℕ)
    (blocks : List Block) :
    (countFailures modulus current blocks).2.map f = blocks.map f := by
  fun_induction countFailures modulus current blocks with
  | case1 current p next rest current' counted ih =>
      rw [List.map_cons, hcount]
      exact congrArg (f p :: ·) ih
  | case2 => rfl

/-- `current` moves along the chain. -/
theorem countFailures_current (modulus current : ℕ) (blocks : List Block) :
    (countFailures modulus current blocks).1 = current ∨
      (countFailures modulus current blocks).1 ∈ blocks.map Block.addr := by
  fun_induction countFailures modulus current blocks with
  | case1 current p next rest current' counted ih =>
      rcases ih with hsame | hmem
      · by_cases hfailed : p.failed > 4
        · have hnext : counted.1 = next.addr := hsame.trans (if_pos hfailed)
          exact .inr (by simp [hnext])
        · exact .inl (hsame.trans (if_neg hfailed))
      · exact .inr (List.mem_cons_of_mem _ hmem)
  | case2 => exact .inl rfl

theorem Chain.map_link {β : Type*} {f : Block → β}
    (hcount : ∀ p failed, f { p with failed := failed } = f p) :
    (chain.link modulus new).blocks.map f = chain.blocks.map f ++ [f new] := by
  rw [← chain.blocks_eq, link]
  simp only [List.map_append, map_countFailures hcount, List.map_cons, List.map_nil]

theorem Chain.map_take {β : Type*} {f : Block → β}
    (hlast : ∀ p last, f { p with last := last } = f p)
    (htake : chain.take round size = some (m, chain')) :
    chain'.blocks.map f = chain.blocks.map f := by
  obtain ⟨before, p, after, heq, -, -, rfl⟩ := chain.exists_of_take htake
  rw [heq]
  simp only [List.map_append, List.map_cons, hlast]

theorem Chain.forall_take (hlast : ∀ p, P p → P { p with last := round p.last + size })
    (hblocks : ∀ p ∈ chain.blocks, P p) (htake : chain.take round size = some (m, chain')) :
    ∀ p ∈ chain'.blocks, P p := by
  obtain ⟨before, p, after, heq, rfl, -, rfl⟩ := chain.exists_of_take htake
  intro q hq
  rw [heq] at hblocks
  simp only [List.mem_append, List.mem_cons] at hq hblocks
  rcases hq with hq | rfl | hq
  · exact hblocks q (.inl hq)
  · exact hlast p (hblocks p (.inr (.inl rfl)))
  · exact hblocks q (.inr (.inr hq))

theorem Chain.forall_link (hcount : ∀ p failed, P p → P { p with failed := failed })
    (hblocks : ∀ p ∈ chain.blocks, P p) (hnew : P new) :
    ∀ p ∈ (chain.link modulus new).blocks, P p := by
  intro p hp
  simp only [link, List.mem_append, List.mem_singleton] at hp
  rw [← chain.blocks_eq] at hblocks
  rcases hp with (hp | hp) | rfl
  · exact hblocks p (List.mem_append_left _ hp)
  · apply forall_countFailures hcount _ _ p hp
    intro q hq
    exact hblocks q (List.mem_append_right _ hq)
  · exact hnew

/-! ## The chain as an arena -/

/-- The bytes from the address of a block up to `end`. -/
def Block.chunk (p : Block) : Chunk := ⟨⟨p.addr, p.stop - p.addr⟩, p.header, p.last⟩

/-- What the chain has from the system. -/
def Chain.wholes (chain : Chain) : List Region := (chain.blocks.map Block.chunk).map Chunk.whole

theorem Chain.wholes_take (htake : chain.take round size = some (m, chain')) :
    chain'.wholes = chain.wholes := by
  rw [wholes, wholes, List.map_map, List.map_map]
  exact Chain.map_take (fun _ _ => rfl) htake

theorem Chain.wholes_link :
    (chain.link modulus new).wholes = chain.wholes ++ [new.chunk.whole] := by
  rw [wholes, wholes, List.map_map, List.map_map]
  exact Chain.map_link fun _ _ => rfl

theorem Block.chunk_stop {p : Block} (hvalid : p.chunk.Valid) : p.chunk.whole.stop = p.stop := by
  have hlow : p.addr + p.header ≤ p.last := hvalid.low
  have hhigh : p.last ≤ p.addr + (p.stop - p.addr) := hvalid.high
  have hpos : 0 < p.header := hvalid.header_pos
  show p.addr + (p.stop - p.addr) = p.stop
  omega

/-- A chain whose blocks, together with large regions, are a sound arena. -/
structure Chain.Sound (chain : Chain) (large handed : List Region) : Prop where
  arena : Arena.Sound ⟨chain.blocks.map Block.chunk, large, handed⟩
  current : chain.current ∈ chain.blocks.map Block.addr

variable {large handed : List Region}

/-- A request that a block has room for. -/
theorem Chain.Sound.take (hsound : chain.Sound large handed)
    (hround : ∀ p ∈ chain.blocks, p.last ≤ round p.last ∧ round p.last ≤ p.stop)
    (htake : chain.take round size = some (m, chain')) :
    chain'.Sound large (⟨m, size⟩ :: handed) := by
  obtain ⟨before, p, after, heq, rfl, hroom, rfl⟩ := chain.exists_of_take htake
  have hp : p ∈ chain.blocks := by simp [heq]
  obtain ⟨hlow, hhigh⟩ := hround p hp
  have hstop := Block.chunk_stop (hsound.arena.valid p.chunk (List.mem_map_of_mem hp))
  have harena := hsound.arena
  have hcurrent := hsound.current
  rw [heq, List.map_append, List.map_cons] at harena hcurrent
  constructor
  · rw [List.map_append, List.map_cons]
    apply harena.take hlow
    rw [hstop]
    exact le_of_le_room hhigh hroom
  · rw [List.map_append, List.map_cons]
    exact hcurrent

/-- A new block that comes from elsewhere serves the request. -/
theorem Chain.Sound.link (hsound : chain.Sound large handed) (hvalid : new.chunk.Valid)
    (hfresh : ∀ owner ∈ chain.wholes ++ large, owner.Disjoint new.chunk.whole) {r : Region}
    (hholds : new.chunk.Holds r) :
    (chain.link modulus new).Sound large (r :: handed) := by
  constructor
  · rw [chain.map_link fun p failed => rfl]
    exact hsound.arena.addTaken hvalid hfresh hholds
  · rw [chain.map_link fun p failed => rfl]
    apply List.mem_append_left
    rcases countFailures_current modulus chain.current chain.fromCurrent with
      hsame | hmem
    · show (countFailures modulus chain.current chain.fromCurrent).1 ∈ _
      rw [hsame]
      exact hsound.current
    · rw [← chain.blocks_eq, List.map_append]
      exact List.mem_append_right _ hmem

end Night.Blocks
