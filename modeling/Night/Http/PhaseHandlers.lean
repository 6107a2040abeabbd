import Mathlib.Algebra.GroupWithZero.Nat
import Mathlib.Data.Int.Notation
import Mathlib.Data.List.Basic

/-!
# `night_http_init_phase_handlers`

The handlers that the modules registered for the phases are laid out in one array,
each entry with the checker of its phase and with the index `next` that some
checkers jump to.  The number `n` behind these indices and the write pointer `ph`
are advanced separately; they part ways when no access handler is registered.
-/

namespace Night.PhaseHandlers

/-- `night_http_phases`, without the log phase, which is not laid out. -/
inductive Phase where
  | postRead
  | serverRewrite
  | findConfig
  | rewrite
  | postRewrite
  | preaccess
  | access
  | postAccess
  | precontent
  | content
  deriving DecidableEq, Repr

/-- The phases in the order of their numbers. -/
def phaseOrder : List Phase :=
  [.postRead, .serverRewrite, .findConfig, .rewrite, .postRewrite, .preaccess, .access,
    .postAccess, .precontent, .content]

/-- The checker functions. -/
inductive Checker where
  | corePostRewritePhase
  | coreRewritePhase
  | coreFindConfigPhase
  | coreAccessPhase
  | corePostAccessPhase
  | coreContentPhase
  | coreGenericPhase
  deriving DecidableEq, Repr

/-- `night_http_phase_handler_t`.  Entries come zeroed from the pool: a checker that
is not set is `NULL`, and so is a handler. -/
structure PhaseHandler (Handler : Type*) where
  checker : Option Checker
  handler : Option Handler
  next : ℕ
  deriving DecidableEq, Repr

/-- `sizeof(night_http_phase_handler_t)` and `sizeof(void *)`. -/
def sizeofPhaseHandler : ℕ := 24
def sizeofPointer : ℕ := 8

/-- `night_http_phase_engine_t` with the entries that were written and the size of
the zeroed memory they were written to. -/
structure PhaseEngine (Handler : Type*) where
  handlers : List (PhaseHandler Handler)
  serverRewriteIndex : ℤ
  locationRewriteIndex : ℤ
  allocated : ℕ

section Init

variable {Handler : Type*}

/-- The variables of the loop over the phases; `handlers` are the entries in front
of the write pointer `ph`. -/
structure Loop (Handler : Type*) where
  handlers : List (PhaseHandler Handler)
  serverRewriteIndex : ℤ
  locationRewriteIndex : ℤ
  findConfigIndex : ℕ
  n : ℕ

/-- The entries of the handlers of a phase, last registered first. -/
def entries (checker : Checker) (next : ℕ) (registered : List Handler) :
    List (PhaseHandler Handler) :=
  registered.reverse.map fun handler => ⟨some checker, some handler, next⟩

@[simp]
theorem entries_nil (checker : Checker) (next : ℕ) :
    entries checker next ([] : List Handler) = [] := rfl

@[simp]
theorem length_entries (checker : Checker) (next : ℕ) (registered : List Handler) :
    (entries checker next registered).length = registered.length := by
  simp [entries]

/-- Entries with handlers tell their `next` apart. -/
theorem entries_eq_iff (checker : Checker) (next next' : ℕ) (registered : List Handler) :
    entries checker next registered = entries checker next' registered ↔
      registered = [] ∨ next = next' := by
  constructor
  · intro heq
    cases hreversed : registered.reverse with
    | nil => exact Or.inl (List.reverse_eq_nil_iff.mp hreversed)
    | cons last others =>
        rw [entries, entries, hreversed, List.map_cons, List.map_cons, List.cons.injEq,
          PhaseHandler.mk.injEq] at heq
        exact Or.inr heq.1.2.2
  · rintro (hnil | hnext)
    · rw [hnil, entries_nil, entries_nil]
    · rw [hnext]

/-- The code below the `switch`: the handlers of the phase are written with `next`
set to the new `n`. -/
def writeHandlers (checker : Checker) (registered : List Handler) (s : Loop Handler) :
    Loop Handler :=
  let n := s.n + registered.length
  { s with n := n, handlers := s.handlers ++ entries checker n registered }

/-- One turn of the loop over the phases. -/
def fillPhase (phases : Phase → List Handler) (useRewrite useAccess : Bool)
    (s : Loop Handler) : Phase → Loop Handler
  | .serverRewrite =>
      let s := if s.serverRewriteIndex = -1 then { s with serverRewriteIndex := s.n } else s
      writeHandlers .coreRewritePhase (phases .serverRewrite) s
  | .findConfig =>
      { s with
        findConfigIndex := s.n
        handlers := s.handlers ++ [⟨some .coreFindConfigPhase, none, 0⟩]
        n := s.n + 1 }
  | .rewrite =>
      let s := if s.locationRewriteIndex = -1 then { s with locationRewriteIndex := s.n } else s
      writeHandlers .coreRewritePhase (phases .rewrite) s
  | .postRewrite =>
      if useRewrite then
        { s with
          handlers := s.handlers ++
            [⟨some .corePostRewritePhase, none, s.findConfigIndex⟩]
          n := s.n + 1 }
      else s
  | .access =>
      writeHandlers .coreAccessPhase (phases .access) { s with n := s.n + 1 }
  | .postAccess =>
      if useAccess then
        { s with handlers := s.handlers ++ [⟨some .corePostAccessPhase, none, s.n⟩] }
      else s
  | .content => writeHandlers .coreContentPhase (phases .content) s
  | phase => writeHandlers .coreGenericPhase (phases phase) s

/-- `night_http_init_phase_handlers` once the memory is allocated; a failed
allocation returns `NIGHT_ERROR` before anything is written. -/
def nightHttpInitPhaseHandlers (phases : Phase → List Handler) : PhaseEngine Handler :=
  let useRewrite := (phases .rewrite).length ≠ 0
  let useAccess := (phases .access).length ≠ 0
  let n := 1 + (decide useRewrite).toNat + (decide useAccess).toNat +
    (phaseOrder.map fun phase => (phases phase).length).sum
  let s := phaseOrder.foldl (fillPhase phases useRewrite useAccess)
    { handlers := [], serverRewriteIndex := -1, locationRewriteIndex := -1,
      findConfigIndex := 0, n := 0 }
  { handlers := s.handlers
    serverRewriteIndex := s.serverRewriteIndex
    locationRewriteIndex := s.locationRewriteIndex
    allocated := n * sizeofPhaseHandler + sizeofPointer }

end Init

/-! ## The layout by phases -/

section Layout

variable {Handler : Type*}

/-- The number of entries of a phase. -/
def slots (phases : Phase → List Handler) : Phase → ℕ
  | .findConfig => 1
  | .postRewrite => if phases .rewrite = [] then 0 else 1
  | .postAccess => if phases .access = [] then 0 else 1
  | phase => (phases phase).length

/-- The index at which a phase starts. -/
def start (phases : Phase → List Handler) (phase : Phase) : ℕ :=
  ((phaseOrder.takeWhile (· ≠ phase)).map (slots phases)).sum

/-- The index of the first entry behind a phase. -/
def behind (phases : Phase → List Handler) (phase : Phase) : ℕ :=
  start phases phase + slots phases phase

/-- The entries a phase should have. -/
def block (phases : Phase → List Handler) : Phase → List (PhaseHandler Handler)
  | .postRead =>
      entries .coreGenericPhase (behind phases .postRead) (phases .postRead)
  | .serverRewrite =>
      entries .coreRewritePhase (behind phases .serverRewrite) (phases .serverRewrite)
  | .findConfig => [⟨some .coreFindConfigPhase, none, 0⟩]
  | .rewrite => entries .coreRewritePhase (behind phases .rewrite) (phases .rewrite)
  | .postRewrite =>
      if phases .rewrite = [] then []
      else [⟨some .corePostRewritePhase, none, start phases .findConfig⟩]
  | .preaccess =>
      entries .coreGenericPhase (behind phases .preaccess) (phases .preaccess)
  | .access => entries .coreAccessPhase (behind phases .postAccess) (phases .access)
  | .postAccess =>
      if phases .access = [] then []
      else [⟨some .corePostAccessPhase, none, behind phases .postAccess⟩]
  | .precontent =>
      entries .coreGenericPhase (behind phases .precontent) (phases .precontent)
  | .content => entries .coreContentPhase (behind phases .content) (phases .content)

/-- The array is what the phases call for: its entries, the two indices, and room
for the empty checker that ends it. -/
structure FollowsPhases (phases : Phase → List Handler) (engine : PhaseEngine Handler) :
    Prop where
  handlers : engine.handlers = phaseOrder.flatMap (block phases)
  serverRewriteIndex : engine.serverRewriteIndex = start phases .serverRewrite
  locationRewriteIndex : engine.locationRewriteIndex = start phases .rewrite
  fits : engine.handlers.length * sizeofPhaseHandler + sizeofPointer ≤ engine.allocated

/-- How far the number `n` has run ahead of the write pointer behind the access
phases. -/
def drift (phases : Phase → List Handler) : ℕ :=
  if phases .access = [] then 1 else 0

/-- The entries that the code writes for a phase. -/
def writtenBlock (phases : Phase → List Handler) : Phase → List (PhaseHandler Handler)
  | .precontent =>
      entries .coreGenericPhase (behind phases .precontent + drift phases)
        (phases .precontent)
  | .content =>
      entries .coreContentPhase (behind phases .content + drift phases) (phases .content)
  | phase => block phases phase

theorem length_block (phases : Phase → List Handler) (phase : Phase) :
    (block phases phase).length = slots phases phase := by
  cases phase with
  | postRewrite =>
      simp only [block, slots]
      split_ifs <;> rfl
  | postAccess =>
      simp only [block, slots]
      split_ifs <;> rfl
  | _ => simp [block, slots]

theorem length_writtenBlock (phases : Phase → List Handler) (phase : Phase) :
    (writtenBlock phases phase).length = slots phases phase := by
  cases phase with
  | precontent => simp [writtenBlock, slots]
  | content => simp [writtenBlock, slots]
  | _ => simp only [writtenBlock, length_block]

/-- Lists that are made of blocks of equal lengths are equal block by block. -/
theorem flatMap_eq_iff {α β : Type*} {left right : α → List β} {keys : List α}
    (hlength : ∀ key, (left key).length = (right key).length) :
    keys.flatMap left = keys.flatMap right ↔ ∀ key ∈ keys, left key = right key := by
  induction keys with
  | nil => simp
  | cons key keys ih =>
      rw [List.flatMap_cons, List.flatMap_cons, List.forall_mem_cons, ← ih]
      constructor
      · intro heq
        exact List.append_inj heq (hlength key)
      · rintro ⟨hkey, hkeys⟩
        rw [hkey, hkeys]

theorem handlers_eq (phases : Phase → List Handler) :
    (nightHttpInitPhaseHandlers phases).handlers =
      phaseOrder.flatMap (writtenBlock phases) := by
  by_cases hrewrite : phases .rewrite = []
  all_goals by_cases haccess : phases .access = []
  all_goals
    simp [nightHttpInitPhaseHandlers, phaseOrder, fillPhase, writeHandlers, writtenBlock,
      block, hrewrite, haccess, behind, start, slots, drift, Nat.add_assoc, Nat.add_comm,
      Nat.add_left_comm]

theorem serverRewriteIndex_eq (phases : Phase → List Handler) :
    (nightHttpInitPhaseHandlers phases).serverRewriteIndex =
      start phases .serverRewrite := by
  by_cases hrewrite : phases .rewrite = []
  all_goals by_cases haccess : phases .access = []
  all_goals
    simp [nightHttpInitPhaseHandlers, phaseOrder, fillPhase, writeHandlers, hrewrite,
      haccess, start, slots]

theorem locationRewriteIndex_eq (phases : Phase → List Handler) :
    (nightHttpInitPhaseHandlers phases).locationRewriteIndex = start phases .rewrite := by
  by_cases hrewrite : phases .rewrite = []
  all_goals by_cases haccess : phases .access = []
  all_goals
    simp [nightHttpInitPhaseHandlers, phaseOrder, fillPhase, writeHandlers, hrewrite,
      haccess, start, slots, Int.add_assoc]

theorem fits_allocated (phases : Phase → List Handler) :
    (nightHttpInitPhaseHandlers phases).handlers.length * sizeofPhaseHandler +
      sizeofPointer ≤ (nightHttpInitPhaseHandlers phases).allocated := by
  have hlength : (nightHttpInitPhaseHandlers phases).handlers.length =
      (phaseOrder.map (slots phases)).sum := by
    rw [handlers_eq, List.length_flatMap]
    congr 1
    apply List.map_congr_left
    intro phase _
    exact length_writtenBlock phases phase
  have hslots : (phaseOrder.map (slots phases)).sum ≤
      1 + (decide ((phases .rewrite).length ≠ 0)).toNat +
        (decide ((phases .access).length ≠ 0)).toNat +
        (phaseOrder.map fun phase => (phases phase).length).sum := by
    by_cases hrewrite : phases .rewrite = []
    all_goals by_cases haccess : phases .access = []
    all_goals
      simp [phaseOrder, slots, hrewrite, haccess]
      omega
  rw [hlength]
  exact Nat.add_le_add_right (Nat.mul_le_mul_right _ hslots) _

/-- The array follows the phases exactly when an access handler is registered or
nothing is registered for the two phases behind the access phases: without access
handlers `n` is still advanced for the post-access entry that is not written. -/
theorem followsPhases_iff (phases : Phase → List Handler) :
    FollowsPhases phases (nightHttpInitPhaseHandlers phases) ↔
      phases .access ≠ [] ∨ (phases .precontent = [] ∧ phases .content = []) := by
  have hhandlers : (nightHttpInitPhaseHandlers phases).handlers =
      phaseOrder.flatMap (block phases) ↔
      ∀ phase ∈ phaseOrder, writtenBlock phases phase = block phases phase := by
    rw [handlers_eq]
    apply flatMap_eq_iff
    intro phase
    rw [length_writtenBlock, length_block]
  have hblocks : (∀ phase ∈ phaseOrder, writtenBlock phases phase = block phases phase) ↔
      writtenBlock phases .precontent = block phases .precontent ∧
        writtenBlock phases .content = block phases .content := by
    constructor
    · intro hall
      exact ⟨hall .precontent (by decide), hall .content (by decide)⟩
    · rintro ⟨hprecontent, hcontent⟩ phase -
      cases phase with
      | precontent => exact hprecontent
      | content => exact hcontent
      | _ => rfl
  have hdrift : (writtenBlock phases .precontent = block phases .precontent ∧
        writtenBlock phases .content = block phases .content) ↔
      phases .access ≠ [] ∨ (phases .precontent = [] ∧ phases .content = []) := by
    simp only [writtenBlock, block, entries_eq_iff, drift]
    by_cases haccess : phases .access = []
    · simp [haccess]
    · simp [haccess]
  rw [← hdrift, ← hblocks, ← hhandlers]
  constructor
  · intro hfollows
    exact hfollows.handlers
  · intro hlayout
    exact ⟨hlayout, serverRewriteIndex_eq phases, locationRewriteIndex_eq phases,
      fits_allocated phases⟩

/-- One content handler and no access handler: the `next` of its entry points behind
the empty checker. -/
theorem not_followsPhases_content :
    ¬ FollowsPhases (fun phase => if phase = .content then [()] else [])
      (nightHttpInitPhaseHandlers fun phase => if phase = .content then [()] else []) := by
  intro hfollows
  exact absurd hfollows.handlers (by decide)

/-! ## Indices -/

/-- An entry of a list made of blocks stands in one of them. -/
theorem getElem?_flatMap {α β : Type*} {block : α → List β} {keys : List α} {index : ℕ}
    {entry : β} (hget : (keys.flatMap block)[index]? = some entry) :
    ∃ before key after offset, keys = before ++ key :: after ∧
      index = (before.flatMap block).length + offset ∧
      (block key)[offset]? = some entry := by
  induction keys generalizing index with
  | nil => simp at hget
  | cons key keys ih =>
      by_cases hinside : index < (block key).length
      · rw [List.flatMap_cons, List.getElem?_append_left hinside] at hget
        exact ⟨[], key, keys, index, rfl, by simp, hget⟩
      · rw [List.flatMap_cons, List.getElem?_append_right (by omega)] at hget
        obtain ⟨before, other, after, offset, hkeys, hindex, hblock⟩ := ih hget
        refine ⟨key :: before, other, after, offset, by rw [hkeys]; rfl, ?_, hblock⟩
        rw [List.flatMap_cons, List.length_append]
        omega

/-- The entries of a phase begin at its start. -/
theorem length_before (phases : Phase → List Handler) {before after : List Phase}
    {phase : Phase} (hsplit : phaseOrder = before ++ phase :: after) :
    (before.flatMap (writtenBlock phases)).length = start phases phase := by
  have hnotin : phase ∉ before := by
    have hnodup : phaseOrder.Nodup := by decide
    rw [hsplit] at hnodup
    intro hmem
    exact (List.nodup_append.mp hnodup).2.2 phase hmem phase (by simp) rfl
  have htake : phaseOrder.takeWhile (· ≠ phase) = before := by
    rw [hsplit, List.takeWhile_append_of_pos]
    · simp
    · intro other hother
      simp only [ne_eq, decide_not, Bool.not_eq_true', decide_eq_false_iff_not]
      intro heq
      exact hnotin (heq ▸ hother)
  rw [start, htake, List.length_flatMap]
  congr 1
  apply List.map_congr_left
  intro other _
  exact length_writtenBlock phases other

theorem entries_getElem? {checker checker' : Checker} {next next' offset : ℕ}
    {registered : List Handler} {handler : Option Handler}
    (hget : (entries checker next registered)[offset]? =
      some ⟨some checker', handler, next'⟩) :
    checker' = checker ∧ next' = next ∧ offset < registered.length := by
  have hinside : offset < (entries checker next registered).length := by
    by_contra houtside
    rw [List.getElem?_eq_none (by omega)] at hget
    cases hget
  rw [entries, List.getElem?_map] at hget
  cases hhandler : registered.reverse[offset]? with
  | none =>
      rw [hhandler] at hget
      cases hget
  | some found =>
      rw [hhandler, Option.map_some, Option.some.injEq, PhaseHandler.mk.injEq] at hget
      rw [length_entries] at hinside
      exact ⟨(Option.some.inj hget.1).symm, hget.2.2.symm, hinside⟩

/-- The access and the generic entries jump ahead. -/
theorem lt_next_of_getElem? (phases : Phase → List Handler) {index next : ℕ}
    {checker : Checker} {handler : Option Handler}
    (hget : (nightHttpInitPhaseHandlers phases).handlers[index]? =
      some ⟨some checker, handler, next⟩)
    (hchecker : checker = .coreAccessPhase ∨ checker = .coreGenericPhase) :
    index < next := by
  rw [handlers_eq] at hget
  obtain ⟨before, phase, after, offset, hsplit, hindex, hblock⟩ := getElem?_flatMap hget
  rw [length_before phases hsplit] at hindex
  have hbehind : ∀ phase, start phases phase + slots phases phase = behind phases phase :=
    fun _ => rfl
  cases phase with
  | postRead =>
      obtain ⟨-, hnext, hoffset⟩ := entries_getElem? hblock
      have := hbehind .postRead
      simp only [slots] at this
      omega
  | preaccess =>
      obtain ⟨-, hnext, hoffset⟩ := entries_getElem? hblock
      have := hbehind .preaccess
      simp only [slots] at this
      omega
  | precontent =>
      obtain ⟨-, hnext, hoffset⟩ := entries_getElem? hblock
      have := hbehind .precontent
      simp only [slots] at this
      omega
  | access =>
      obtain ⟨-, hnext, hoffset⟩ := entries_getElem? hblock
      have hstart : start phases .postAccess =
          start phases .access + (phases .access).length := by
        simp [start, phaseOrder, slots, Nat.add_assoc]
      have := hbehind .postAccess
      omega
  | serverRewrite =>
      obtain ⟨rfl, -, -⟩ := entries_getElem? hblock
      simp at hchecker
  | rewrite =>
      obtain ⟨rfl, -, -⟩ := entries_getElem? hblock
      simp at hchecker
  | content =>
      obtain ⟨rfl, -, -⟩ := entries_getElem? hblock
      simp at hchecker
  | findConfig =>
      obtain ⟨rfl, -, -⟩ : checker = .coreFindConfigPhase ∧ handler = none ∧ next = 0 := by
        cases offset <;> simp_all [writtenBlock, block]
      simp at hchecker
  | postRewrite =>
      have hwritten : checker = .corePostRewritePhase := by
        simp only [writtenBlock, block] at hblock
        split_ifs at hblock
        · simp at hblock
        · cases offset <;> simp_all
      rw [hwritten] at hchecker
      simp at hchecker
  | postAccess =>
      have hwritten : checker = .corePostAccessPhase := by
        simp only [writtenBlock, block] at hblock
        split_ifs at hblock
        · simp at hblock
        · cases offset <;> simp_all
      rw [hwritten] at hchecker
      simp at hchecker

end Layout

end Night.PhaseHandlers
