import Mathlib.Data.Int.Notation
import Night.Core.Bytes

/-!
# `night_output_chain`

The buffers handed to a context are copied into work buffers, which go to the output
filter and come back to the context when the filter is done with them.  Lists stand for
the chains; the locals that `night_output_chain_get_buf` leaves uninitialised and the
answers of the filter are input.
-/

namespace Night.OutputChain

open Night.Bytes

/-! ## Model -/

/-- A `night_buf_t`: `bytes` are those from `pos` to `last`, or from `file_pos` to
`file_last` when the buffer is `in_file`, and `capacity` is `end - start`. -/
structure Buf where
  bytes : List Byte
  capacity : ℕ
  inFile : Bool
  flush : Bool
  lastBuf : Bool
  lastInChain : Bool
  recycled : Bool
  tag : ℕ
  deriving DecidableEq, Repr

/-- The macro `night_buf_size`. -/
def nightBufSize (b : Buf) : ℕ := b.bytes.length

/-- What a call of `night_output_chain_get_buf` finds in its locals `size` and `recycled`,
and whether the pool has memory. -/
structure Memory where
  size : BitVec 64
  recycled : Bool
  served : Bool
  deriving DecidableEq, Repr

inductive Code where
  | ok
  | again
  | error
  | done
  deriving DecidableEq, Repr

/-- An answer of the output filter: its code, and how many bytes it has taken from each of
the buffers that it holds. -/
structure Answer where
  code : Code
  taken : ℕ → ℕ

/-- The memory at each call of `night_output_chain_get_buf` and the answer to each call of
the filter. -/
structure Environment where
  memory : ℕ → Memory
  filter : ℕ → Answer

/-- `night_output_chain_ctx_t`.  `gets` and `filters` count the calls that were made, `given`
lists the buffers that were handed in and `passed` those that the filter was given. -/
structure State where
  buf : Option Buf
  input : List Buf
  free : List Buf
  busy : List Buf
  tag : ℕ
  gets : ℕ
  filters : ℕ
  given : List Buf
  passed : List Buf

/-- A context from zeroed memory. -/
def start (tag : ℕ) : State where
  buf := none
  input := []
  free := []
  busy := []
  tag := tag
  gets := 0
  filters := 0
  given := []
  passed := []

/-- The size that is asked of the pool, and the flag `recycled`. -/
def bufSize (src : Buf) (memory : Memory) : ℕ × Bool :=
  if src.lastInChain ∧ (nightBufSize src : ℤ) < memory.size.toInt then
    (nightBufSize src, false)
  else (memory.size.toNat, memory.recycled)

/-- `night_output_chain_get_buf` for `src` at the head of `ctx->in`.  No pool has `2 ^ 63`
bytes. -/
def nightOutputChainGetBuf (env : Environment) (src : Buf) (s : State) :
    Except State State :=
  let memory := env.memory s.gets
  let size := bufSize src memory
  let s := { s with gets := s.gets + 1 }
  if !memory.served ∨ 2 ^ 63 ≤ size.1 then .error s
  else .ok { s with buf := some ⟨[], size.1, false, false, false, false, size.2, s.tag⟩ }

/-- `night_output_chain_copy_buf` into a work buffer that is still empty: only a file is
copied. -/
def nightOutputChainCopyBuf (src dst : Buf) : Buf × Buf :=
  let size := min (nightBufSize src) dst.capacity
  if !src.inFile then (src, dst)
  else
    let dst := { dst with bytes := src.bytes.take size, inFile := false }
    let src := { src with bytes := src.bytes.drop size }
    if src.bytes = [] then
      (src, { dst with
        flush := src.flush
        lastBuf := src.lastBuf
        lastInChain := src.lastInChain })
    else (src, dst)

/-- How the loop over `ctx->in` ends: normally, with `return NIGHT_ERROR`, or with a null
pointer for a work buffer. -/
inductive LoopEnd where
  | done (s : State) (out : List Buf)
  | failed (s : State)
  | crashed

/-- The work buffer of a turn: with something on the free list none is looked for.
`night_output_chain_align_file_buf` declines every buffer. -/
def workBuf (env : Environment) (src : Buf) (s : State) : Except State State :=
  if s.buf.isSome then .ok s
  else if !s.free.isEmpty then .ok s
  else nightOutputChainGetBuf env src s

/-- The loop over `ctx->in`, for at most `fuel` turns. -/
def copyLoop (env : Environment) : ℕ → State → List Buf → Option LoopEnd
  | 0, s, out => if s.input.isEmpty then some (.done s out) else none
  | fuel + 1, s, out =>
      match s.input with
      | [] => some (.done s out)
      | src :: rest =>
          match workBuf env src s with
          | .error s => some (.failed s)
          | .ok s =>
              match s.buf with
              | none => some .crashed
              | some dst =>
                  let copied := nightOutputChainCopyBuf src dst
                  let input := if nightBufSize copied.1 = 0 then rest else copied.1 :: rest
                  copyLoop env fuel { s with input := input, buf := none }
                    (out ++ [copied.2])

/-- The second loop of `night_chain_update_chains`: the buffers in front of `busy` that the
filter is done with go to the free list, those with another tag to the pool. -/
def sweepBusy (tag : ℕ) : List Buf → List Buf → List Buf × List Buf
  | free, [] => (free, [])
  | free, b :: busy =>
      if b.tag ≠ tag then sweepBusy tag free busy
      else if nightBufSize b ≠ 0 then (free, b :: busy)
      else sweepBusy tag ({ b with bytes := [] } :: free) busy

def nightChainUpdateChains (out : List Buf) (s : State) : State :=
  let swept := sweepBusy s.tag s.free (s.busy ++ out)
  { s with free := swept.1, busy := swept.2 }

/-- The buffers after the filter has taken bytes from them. -/
def consume (taken : ℕ → ℕ) (bufs : List Buf) : List Buf :=
  bufs.mapIdx fun i b => { b with bytes := b.bytes.drop (taken i) }

/-- How a call ends. -/
inductive CallEnd where
  | returned (code : Code) (s : State)
  | crashed

/-- The outer loop, for at most `fuel` turns; `last` is what the filter has returned last. -/
def chainLoop (env : Environment) : ℕ → State → Option Code → Option CallEnd
  | 0, _, _ => none
  | fuel + 1, s, last => do
      match ← copyLoop env fuel s [] with
      | .failed s => some (.returned .error s)
      | .crashed => some .crashed
      | .done s out =>
          match out, last with
          | [], some last => some (.returned (if s.input.isEmpty then last else .again) s)
          | out, _ =>
              let answer := env.filter s.filters
              let held := consume answer.taken (s.busy ++ out)
              let filtered := { s with
                filters := s.filters + 1
                passed := s.passed ++ out
                busy := held.take s.busy.length }
              if answer.code = .error ∨ answer.code = .done then
                some (.returned answer.code filtered)
              else
                chainLoop env fuel (nightChainUpdateChains (held.drop s.busy.length) filtered)
                  (some answer.code)

/-- `night_output_chain`; `night_output_chain_add_copy` appends the buffers to `ctx->in`. -/
def nightOutputChain (env : Environment) (fuel : ℕ) (input : List Buf) (s : State) :
    Option CallEnd :=
  chainLoop env fuel { s with input := s.input ++ input, given := s.given ++ input } none

/-! ## The law -/

/-- The buffers `group` carry the bytes of `b`, and the one with its last byte carries its
marks. -/
inductive Carried : Buf → List Buf → Prop where
  | last {b out : Buf} (hbytes : out.bytes = b.bytes) (hflush : out.flush = b.flush)
      (hlast : out.lastBuf = b.lastBuf) : Carried b [out]
  | more {b out : Buf} {rest : List Byte} {group : List Buf} (hbytes : b.bytes = out.bytes ++ rest)
      (hrest : rest ≠ []) (hflush : out.flush = false) (hlast : out.lastBuf = false)
      (hgroup : Carried { b with bytes := rest } group) : Carried b (out :: group)

/-- What is passed on carries what was given, buffer by buffer. -/
inductive Carries : List Buf → List Buf → Prop where
  | nil : Carries [] []
  | cons {b : Buf} {given group passed : List Buf} (hgroup : Carried b group)
      (hrest : Carries given passed) : Carries (b :: given) (group ++ passed)

/-- Every call returns, and what the filter was given carries what was handed in. -/
def Lawful (env : Environment) : State → List (List Buf) → Prop
  | _, [] => True
  | s, input :: calls =>
      ∃ fuel code s', nightOutputChain env fuel input s = some (.returned code s') ∧
        Carries s'.given s'.passed ∧ Lawful env s' calls

/-- Files, and empty buffers in memory that mark nothing. -/
def Passable (b : Buf) : Prop :=
  b.inFile = true ∨ (b.bytes = [] ∧ b.flush = false ∧ b.lastBuf = false)

/-- The local `size` happens to hold a size that the pool can serve. -/
structure Memory.Good (memory : Memory) : Prop where
  served : memory.served = true
  pos : 0 < memory.size.toNat
  small : memory.size.toNat < 2 ^ 63

/-- Every buffer that is handed in is passable, and while there is input nothing is on the
free list of the context. -/
def AllMeet (env : Environment) : State → List (List Buf) → Prop
  | _, [] => True
  | s, input :: calls =>
      (∀ b ∈ input, Passable b) ∧ (input ≠ [] → s.free = []) ∧
        ∀ fuel code s', nightOutputChain env fuel input s = some (.returned code s') →
          AllMeet env s' calls

/-! ## Carrying -/

theorem Carries.append {given given' passed passed' : List Buf} (hleft : Carries given passed)
    (hright : Carries given' passed') : Carries (given ++ given') (passed ++ passed') := by
  induction hleft with
  | nil => exact hright
  | cons hgroup _ ih =>
      rw [List.cons_append, List.append_assoc]
      exact .cons hgroup ih

theorem Carries.last {b out : Buf} {given passed : List Buf} (hbytes : out.bytes = b.bytes)
    (hflush : out.flush = b.flush) (hlast : out.lastBuf = b.lastBuf)
    (hrest : Carries given passed) : Carries (b :: given) (out :: passed) :=
  .cons (.last hbytes hflush hlast) hrest

/-- A first piece in front of what carries the rest of a buffer. -/
theorem Carries.more {b out : Buf} {rest : List Byte} {given passed : List Buf}
    (hbytes : b.bytes = out.bytes ++ rest) (hne : rest ≠ []) (hflush : out.flush = false)
    (hlast : out.lastBuf = false) (hrest : Carries ({ b with bytes := rest } :: given) passed) :
    Carries (b :: given) (out :: passed) := by
  cases hrest with
  | cons hgroup hrest =>
      rw [← List.cons_append]
      exact .cons (.more hbytes hne hflush hlast hgroup) hrest

/-- The bytes of the buffers. -/
def bytesOf (bufs : List Buf) : List Byte := bufs.flatMap Buf.bytes

theorem Carried.bytesOf_eq {b : Buf} {group : List Buf} (hgroup : Carried b group) :
    bytesOf group = b.bytes := by
  induction hgroup with
  | last hbytes _ _ => simp [bytesOf, hbytes]
  | more hbytes _ _ _ _ ih =>
      rw [bytesOf, List.flatMap_cons, hbytes]
      exact congrArg _ ih

/-- The byte stream passed on is the concatenation of what was given. -/
theorem Carries.bytesOf_eq {given passed : List Buf} (hcarries : Carries given passed) :
    bytesOf passed = bytesOf given := by
  induction hcarries with
  | nil => rfl
  | cons hgroup _ ih =>
      rw [bytesOf, List.flatMap_append]
      exact congrArg₂ _ hgroup.bytesOf_eq ih

/-! ## One call -/

section Call

variable {env : Environment} {s : State} {src : Buf} {rest out : List Buf} {fuel : ℕ}

/-- With a good size a work buffer has room, or it has the size of an empty buffer. -/
theorem getBuf_spec (src : Buf) (s : State) (hgood : (env.memory s.gets).Good) :
    ∃ dst : Buf, nightOutputChainGetBuf env src s =
        .ok { s with gets := s.gets + 1, buf := some dst } ∧ dst.bytes = [] ∧
      dst.flush = false ∧ dst.lastBuf = false ∧ (src.bytes ≠ [] → 0 < dst.capacity) := by
  have hsize : (bufSize src (env.memory s.gets)).1 < 2 ^ 63 ∧
      (src.bytes ≠ [] → 0 < (bufSize src (env.memory s.gets)).1) := by
    rw [bufSize]
    split
    · rename_i hfits
      constructor
      · have hint : (env.memory s.gets).size.toInt = (env.memory s.gets).size.toNat :=
          BitVec.toInt_eq_toNat_of_lt (by have := hgood.small; omega)
        have hsmall := hgood.small
        have hlt := hfits.2
        rw [hint] at hlt
        dsimp only
        omega
      · exact List.length_pos_iff.mpr
    · exact ⟨hgood.small, fun _ => hgood.pos⟩
  let size := bufSize src (env.memory s.gets)
  refine ⟨⟨[], size.1, false, false, false, false, size.2, s.tag⟩, ?_, rfl, rfl, rfl, hsize.2⟩
  rw [nightOutputChainGetBuf]
  simp only [hgood.served]
  rw [if_neg]
  simp only [Bool.not_true, Bool.false_eq_true, false_or]
  exact Nat.not_le.mpr hsize.1

/-- How many turns the buffers take at most. -/
def turnsFor (input : List Buf) : ℕ := (input.map fun b => b.bytes.length + 1).sum

/-- A turn on a passable buffer: it is done with, or a piece of it is. -/
theorem copyBuf_cases {dst : Buf} (hsrc : Passable src) (hbytes : dst.bytes = [])
    (hflush : dst.flush = false) (hlast : dst.lastBuf = false)
    (hroom : src.bytes ≠ [] → 0 < dst.capacity) :
    (nightBufSize (nightOutputChainCopyBuf src dst).1 = 0 ∧
      (nightOutputChainCopyBuf src dst).2.bytes = src.bytes ∧
      (nightOutputChainCopyBuf src dst).2.flush = src.flush ∧
      (nightOutputChainCopyBuf src dst).2.lastBuf = src.lastBuf) ∨
    ∃ rest, (nightOutputChainCopyBuf src dst).1 = { src with bytes := rest } ∧ rest ≠ [] ∧
      rest.length < src.bytes.length ∧
      src.bytes = (nightOutputChainCopyBuf src dst).2.bytes ++ rest ∧
      (nightOutputChainCopyBuf src dst).2.flush = false ∧
      (nightOutputChainCopyBuf src dst).2.lastBuf = false := by
  rw [nightOutputChainCopyBuf]
  by_cases hfile : src.inFile = true
  · simp only [hfile, Bool.not_true, Bool.false_eq_true, if_false]
    generalize hsize : min (nightBufSize src) dst.capacity = size
    by_cases hall : src.bytes.drop size = []
    · left
      rw [if_pos hall]
      refine ⟨List.length_eq_zero_iff.mpr hall, ?_, rfl, rfl⟩
      rw [List.drop_eq_nil_iff] at hall
      exact List.take_of_length_le hall
    · right
      rw [if_neg hall]
      refine ⟨src.bytes.drop size, rfl, hall, ?_, (List.take_append_drop _ _).symm, hflush,
        hlast⟩
      have hne : src.bytes ≠ [] := fun hnil => hall (by rw [hnil, List.drop_nil])
      have hpos := List.length_pos_iff.mpr hne
      have hcapacity := hroom hne
      rw [nightBufSize] at hsize
      rw [List.length_drop]
      omega
  · left
    obtain ⟨hnone, hsrcFlush, hsrcLast⟩ := hsrc.resolve_left hfile
    rw [Bool.not_eq_true] at hfile
    simp only [hfile, Bool.not_false, if_true]
    exact ⟨by rw [nightBufSize, hnone, List.length_nil], hbytes.trans hnone.symm,
      hflush.trans hsrcFlush.symm, hlast.trans hsrcLast.symm⟩

/-- The loop over `ctx->in` uses up passable buffers and carries them to `out`. -/
theorem copyLoop_spec (s : State) (out : List Buf) (fuel : ℕ)
    (hmemory : ∀ k, (env.memory k).Good) (hbuf : s.buf = none)
    (hfree : s.input ≠ [] → s.free = []) (hinput : ∀ b ∈ s.input, Passable b)
    (hfuel : turnsFor s.input ≤ fuel) :
    ∃ gets out', copyLoop env fuel s out =
        some (.done { s with input := [], gets := gets } (out ++ out')) ∧
      Carries s.input out' := by
  induction fuel generalizing s out with
  | zero =>
      cases hs : s.input with
      | nil =>
          refine ⟨s.gets, [], ?_, .nil⟩
          rw [copyLoop, hs, List.append_nil]
          exact congrArg (fun input => some (LoopEnd.done { s with input := input } out)) hs
      | cons src rest =>
          rw [hs, turnsFor, List.map_cons, List.sum_cons] at hfuel
          omega
  | succ fuel ih =>
      cases hs : s.input with
      | nil =>
          refine ⟨s.gets, [], ?_, .nil⟩
          rw [copyLoop, hs, List.append_nil]
          exact congrArg (fun input => some (LoopEnd.done { s with input := input } out)) hs
      | cons src rest =>
          rw [hs] at hfree hinput hfuel
          have hfree := hfree (List.cons_ne_nil _ _)
          obtain ⟨hsrc, hrest⟩ := List.forall_mem_cons.mp hinput
          obtain ⟨dst, hget, hbytes, hflush, hlast, hroom⟩ := getBuf_spec src s (hmemory s.gets)
          have hwork : workBuf env src s =
              .ok { s with gets := s.gets + 1, buf := some dst } := by
            rw [workBuf, if_neg (by rw [hbuf]; decide), if_neg (by rw [hfree]; decide)]
            exact hget
          rw [turnsFor, List.map_cons, List.sum_cons] at hfuel
          have hturn : ∀ input, (if nightBufSize (nightOutputChainCopyBuf src dst).1 = 0 then rest
              else (nightOutputChainCopyBuf src dst).1 :: rest) = input →
              copyLoop env (fuel + 1) s out = copyLoop env fuel
                { s with gets := s.gets + 1, input := input, buf := none }
                (out ++ [(nightOutputChainCopyBuf src dst).2]) := by
            intro input heq
            rw [copyLoop, hs]
            simp only [hwork, heq]
          rcases copyBuf_cases hsrc hbytes hflush hlast hroom with
            ⟨hdone, hsame, hmarks⟩ | ⟨left, hleft, hne, hshorter, hpiece, hnoMarks⟩
          · -- the buffer is done with, and the turn goes on with the next one
            obtain ⟨gets, out', hloop, hcarries⟩ := ih
              { s with gets := s.gets + 1, input := rest, buf := none }
              (out ++ [(nightOutputChainCopyBuf src dst).2]) rfl (fun _ => hfree) hrest
              (by show turnsFor rest ≤ fuel; rw [turnsFor]; omega)
            refine ⟨gets, (nightOutputChainCopyBuf src dst).2 :: out', ?_,
              hcarries.last hsame hmarks.1 hmarks.2⟩
            rw [hturn rest (if_pos hdone), hloop, List.append_assoc, List.singleton_append]
            simp only [hbuf]
          · -- the buffer stays with the bytes that are left
            have hsize : ¬ nightBufSize (nightOutputChainCopyBuf src dst).1 = 0 := by
              rw [hleft, nightBufSize, List.length_eq_zero_iff]
              exact hne
            have hsrcFile : src.inFile = true := by
              by_contra hfile
              have hnone := (hsrc.resolve_left hfile).1
              rw [hnone, List.length_nil] at hshorter
              omega
            obtain ⟨gets, out', hloop, hcarries⟩ := ih
              { s with
                gets := s.gets + 1
                input := { src with bytes := left } :: rest
                buf := none }
              (out ++ [(nightOutputChainCopyBuf src dst).2]) rfl (fun _ => hfree)
              (List.forall_mem_cons.mpr ⟨.inl hsrcFile, hrest⟩)
              (by
                show turnsFor ({ src with bytes := left } :: rest) ≤ fuel
                rw [turnsFor, List.map_cons, List.sum_cons]
                show left.length + 1 + _ ≤ fuel
                omega)
            refine ⟨gets, (nightOutputChainCopyBuf src dst).2 :: out', ?_,
              hcarries.more hpiece hne hnoMarks.1 hnoMarks.2⟩
            rw [hturn _ ((if_neg hsize).trans (by rw [hleft])), hloop, List.append_assoc,
              List.singleton_append]
            simp only [hbuf]

/-- The outer loop behind the filter: there is no input left, and it returns what the filter
has returned. -/
theorem chainLoop_last (hinput : s.input = []) (last : Code) :
    chainLoop env (fuel + 1) s (some last) = some (.returned last s) := by
  have hloop : copyLoop env fuel s [] = some (.done s []) := by
    cases fuel with
    | zero => rw [copyLoop, hinput]; rfl
    | succ fuel => rw [copyLoop, hinput]
  rw [chainLoop, hloop]
  show some (CallEnd.returned (if s.input.isEmpty then last else .again) s) = _
  rw [hinput]
  rfl

/-- A call gives the filter what carries its input, once, and returns. -/
theorem nightOutputChain_spec {input : List Buf} (hmemory : ∀ k, (env.memory k).Good)
    (hbuf : s.buf = none) (hnone : s.input = []) (hcarries : Carries s.given s.passed)
    (hinput : ∀ b ∈ input, Passable b) (hfree : input ≠ [] → s.free = []) :
    ∃ fuel code s', nightOutputChain env fuel input s = some (.returned code s') ∧
      s'.buf = none ∧ s'.input = [] ∧ Carries s'.given s'.passed := by
  let s₁ : State := { s with input := s.input ++ input, given := s.given ++ input }
  have hinput₁ : s₁.input = input := by
    show s.input ++ input = input
    rw [hnone, List.nil_append]
  obtain ⟨gets, out, hloop, hout⟩ := copyLoop_spec s₁ [] (turnsFor input + 1)
    hmemory hbuf (by rw [hinput₁]; exact hfree) (by rw [hinput₁]; exact hinput)
    (by rw [hinput₁]; exact Nat.le_succ _)
  rw [List.nil_append] at hloop
  rw [hinput₁] at hout
  let answer := env.filter s.filters
  let s₂ : State := { s₁ with
    input := []
    gets := gets
    filters := s.filters + 1
    passed := s.passed ++ out
    busy := (consume answer.taken (s.busy ++ out)).take s.busy.length }
  have hcarries₂ : Carries s₂.given s₂.passed := hcarries.append hout
  have hturn : nightOutputChain env (turnsFor input + 2) input s =
      if answer.code = .error ∨ answer.code = .done then some (.returned answer.code s₂)
      else chainLoop env (turnsFor input + 1) (nightChainUpdateChains
        ((consume answer.taken (s.busy ++ out)).drop s.busy.length) s₂) (some answer.code) := by
    rw [nightOutputChain, chainLoop, hloop]
    -- `last` is still `NIGHT_NONE`, so the filter is called whatever `out` is
    cases out <;> rfl
  refine ⟨turnsFor input + 2, answer.code, ?_⟩
  rw [hturn]
  split
  · exact ⟨s₂, rfl, hbuf, rfl, hcarries₂⟩
  · exact ⟨_, chainLoop_last rfl answer.code, hbuf, rfl, hcarries₂⟩

/-! ## What goes wrong -/

/-- A buffer in memory with bytes is never used up. -/
theorem copyLoop_memory (hserved : ∀ k, (env.memory k).Good) (hbuf : s.buf = none)
    (hfree : s.free = []) (hinput : s.input = src :: rest) (hmemory : src.inFile = false)
    (hbytes : src.bytes ≠ []) : copyLoop env fuel s out = none := by
  induction fuel generalizing s out with
  | zero =>
      rw [copyLoop, hinput]
      rfl
  | succ fuel ih =>
      obtain ⟨dst, hget, -⟩ := getBuf_spec src s (hserved s.gets)
      have hwork : workBuf env src s = .ok { s with gets := s.gets + 1, buf := some dst } := by
        rw [workBuf, if_neg (by rw [hbuf]; decide), if_neg (by rw [hfree]; decide)]
        exact hget
      have hcopied : nightOutputChainCopyBuf src dst = (src, dst) := by
        rw [nightOutputChainCopyBuf, hmemory]
        rfl
      have hsize : ¬ nightBufSize src = 0 := fun hzero =>
        hbytes (List.length_eq_zero_iff.mp hzero)
      rw [copyLoop, hinput]
      simp only [hwork, hcopied, if_neg hsize]
      exact ih rfl hfree rfl

/-- With something on the free list there is no work buffer for the input. -/
theorem copyLoop_free (hbuf : s.buf = none) (hfree : s.free ≠ [])
    (hinput : s.input = src :: rest) : copyLoop env (fuel + 1) s out = some .crashed := by
  have hsome : (!s.free.isEmpty) = true := by
    rw [Bool.not_eq_true', List.isEmpty_eq_false_iff]
    exact hfree
  have hwork : workBuf env src s = .ok s := by
    rw [workBuf, if_neg (by rw [hbuf]; decide), if_pos hsome]
  rw [copyLoop, hinput]
  simp only [hwork, hbuf]

end Call

/-! ## All calls -/

theorem lawful_of_carries {env : Environment} {s : State} {calls : List (List Buf)}
    (hmemory : ∀ k, (env.memory k).Good) (hbuf : s.buf = none) (hnone : s.input = [])
    (hcarries : Carries s.given s.passed) (hcalls : AllMeet env s calls) :
    Lawful env s calls := by
  induction calls generalizing s with
  | nil => trivial
  | cons input calls ih =>
      obtain ⟨hinput, hfree, hrest⟩ := hcalls
      obtain ⟨fuel, code, s', hcall, hbuf', hnone', hcarries'⟩ :=
        nightOutputChain_spec hmemory hbuf hnone hcarries hinput hfree
      exact ⟨fuel, code, s', hcall, hcarries',
        ih hbuf' hnone' hcarries' (hrest fuel code s' hcall)⟩

/-- Calls with files and a free list that is empty when there is input all return, and give
the filter what was handed in. -/
theorem nightOutputChain_lawful (env : Environment) (tag : ℕ) (calls : List (List Buf))
    (hmemory : ∀ k, (env.memory k).Good) (hcalls : AllMeet env (start tag) calls) :
    Lawful env (start tag) calls :=
  lawful_of_carries hmemory rfl rfl .nil hcalls

/-- Locals with `size`, and a filter that answers `NIGHT_AGAIN` and takes nothing. -/
def slowFilter (size : BitVec 64) : Environment where
  memory := fun _ => ⟨size, false, true⟩
  filter := fun _ => ⟨.again, fun _ => 0⟩

theorem slowFilter_good (k : ℕ) : ((slowFilter 2).memory k).Good := by
  show Memory.Good ⟨2, false, true⟩
  exact ⟨rfl, by decide, by decide⟩

/-- A file of three bytes, then a call without input. -/
theorem lawful_smallFile :
    Lawful (slowFilter 2) (start 7)
      [[⟨[1, 2, 3], 0, true, false, true, true, false, 0⟩], []] := by
  apply nightOutputChain_lawful _ _ _ slowFilter_good
  refine ⟨?_, fun _ => rfl, ?_⟩
  · intro b hb
    rw [List.mem_singleton.mp hb]
    exact .inl rfl
  · intro fuel code s' _
    exact ⟨nofun, fun hne => absurd rfl hne, fun _ _ _ _ => trivial⟩

/-- A call with one byte in memory does not return. -/
theorem not_lawful_memoryByte :
    ¬ ∀ (env : Environment) (tag : ℕ) (calls : List (List Buf)),
      Lawful env (start tag) calls := by
  intro hall
  obtain ⟨fuel, code, s', hcall, -⟩ := hall (slowFilter 2) 7
    [[⟨[1], 1, false, false, true, true, false, 0⟩]]
  have hnever : nightOutputChain (slowFilter 2) fuel
      [⟨[1], 1, false, false, true, true, false, 0⟩] (start 7) = none := by
    rw [nightOutputChain]
    cases fuel with
    | zero => rfl
    | succ fuel =>
        rw [chainLoop, copyLoop_memory slowFilter_good rfl rfl rfl rfl (List.cons_ne_nil _ _)]
        rfl
  rw [hnever] at hcall
  cases hcall

end Night.OutputChain
