import Night.Core.PoolLargeLaw
import Night.Lib.Memory

/-!
# `night_array_push`

An array that is full gets new storage from the pool.  As many bytes are copied as the new
storage has, and they are read from the old one.
-/

namespace Night.ArrayPush

open Night.Blocks Night.Bytes Night.Regions Night.PoolLarge
open Night.Memory (length_load load load_congr load_store load_store_of_disjoint store store_outside)
open Night.Pmalloc (nightAlign poolSize)

/-! ## Arrays -/

/-- `night_array_t` without its pool. -/
structure NightArray where
  elts : ℕ
  nelts : ℕ
  size : ℕ
  nalloc : ℕ
  deriving DecidableEq, Repr

def NightArray.element (a : NightArray) (i : ℕ) : Region := ⟨a.elts + a.size * i, a.size⟩

/-- The new `nalloc` of a full array. -/
def exN (n : ℕ) : ℕ := if n < 100 then 2 * n else n + 100

/-- The size of the storage that a full array asks for. -/
def NightArray.larger (a : NightArray) : ℕ := mulSize a.size (exN a.nelts)

/-- What a push ends in; `copied` is the number of bytes that `memcpy` has read. -/
structure Pushed where
  elt : Option ℕ
  array : NightArray
  pool : Pool
  copied : ℕ

variable (system : Allocator)

/-- `night_array_init`; without an array it is `NIGHT_ERROR`. -/
def nightArrayInit (pool : Pool) (n size : ℕ) : Option (Option NightArray × Pool) :=
  match nightPmalloc system pool (mulSize n size) with
  | none => none
  | some (none, pool) => some (none, pool)
  | some (some elts, pool) => some (some ⟨elts, 0, size, n⟩, pool)

/-- The end of `night_array_push`. -/
def takeElement (pool : Pool) (a : NightArray) (copied : ℕ) : Pushed :=
  ⟨some (a.elts + a.size * a.nelts), { a with nelts := a.nelts + 1 }, pool, copied⟩

def nightArrayPush (pool : Pool) (a : NightArray) : Option Pushed :=
  if a.nelts = a.nalloc then
    match nightPmalloc system pool a.larger with
    | none => none
    | some (none, pool) => some ⟨none, a, pool, 0⟩
    | some (some new, pool) =>
      some (takeElement { pool with memory := memcpy pool.memory ⟨new, a.larger⟩ a.elts }
        { a with elts := new, nalloc := exN a.nelts } a.larger)
  else some (takeElement pool a 0)

/-! ## Runs -/

/-- The bytes that the pool serves for a request: `night_align` wraps around for the last
sizes. -/
def served (size : ℕ) : ℕ := min size (nightAlign size)

/-- An array with the size of its storage, the pointers that were returned, the values last
written through them and the number of bytes that the last push has copied. -/
structure State where
  pool : Pool
  array : NightArray
  requested : ℕ
  pointers : List ℕ
  written : ℕ → Option (List Byte)
  copied : ℕ

/-- A new array. -/
def State.start (pool : Pool) (array : NightArray) : State :=
  ⟨pool, array, mulSize array.nalloc array.size, [], fun _ => none, 0⟩

def State.storage (s : State) : Region := ⟨s.array.elts, served s.requested⟩

inductive Call where
  | push
  | write (i : ℕ) (bytes : List Byte)

/-- A push, or a write of an element through its pointer. -/
def step (s : State) : Call → Option State
  | .push =>
    match nightArrayPush system s.pool s.array with
    | none => none
    | some ⟨none, _, pool, _⟩ => some { s with pool := pool, copied := 0 }
    | some ⟨some p, array, pool, copied⟩ =>
      some { s with
        pool := pool
        array := array
        requested := if s.array.nelts = s.array.nalloc then copied else s.requested
        pointers := s.pointers ++ [p]
        copied := copied }
  | .write i bytes =>
    match s.pointers[i]? with
    | none => some { s with copied := 0 }
    | some p =>
      if bytes.length = s.array.size then
        some { s with
          pool := { s.pool with memory := store s.pool.memory p bytes }
          written := Function.update s.written i (some bytes)
          copied := 0 }
      else some { s with copied := 0 }

/-- The next element is taken. -/
def State.taken (s : State) : State :=
  { s with
    array := { s.array with nelts := s.array.nelts + 1 }
    pointers := s.pointers ++ [s.array.elts + s.array.size * s.array.nelts]
    copied := 0 }

/-- The next element is taken in new storage. -/
def State.moved (s : State) (pool : Pool) (new : ℕ) : State :=
  { s with
    pool := { pool with memory := memcpy pool.memory ⟨new, s.array.larger⟩ s.array.elts }
    array := ⟨new, s.array.nelts + 1, s.array.size, exN s.array.nelts⟩
    requested := s.array.larger
    pointers := s.pointers ++ [new + s.array.size * s.array.nelts]
    copied := s.array.larger }

/-- What the array promises of a step from `s` to `s'`. -/
structure Right (s s' : State) : Prop where
  copied : s'.copied ≤ s.array.nelts * s.array.size
  bound : s'.array.nelts ≤ s'.array.nalloc
  inside : ∀ p, s'.pointers = s.pointers ++ [p] →
    Region.Inside ⟨p, s'.array.size⟩ s'.storage
  reads : ∀ i value, s'.written i = some value →
    load s'.pool.memory (s'.array.element i).addr s'.array.size = value

/-- A push needs no new storage, or gets none; elements without bytes can always be copied. -/
def Fits (s : State) : Call → Prop
  | .push =>
    if s.array.nelts = s.array.nalloc then
      (∀ new pool, nightPmalloc system s.pool s.array.larger ≠ some (some new, pool)) ∨
        s.array.size = 0 ∧ 0 < s.array.nalloc
    else s.array.size * (s.array.nelts + 1) ≤ served s.requested
  | .write _ _ => True

/-- A condition on every step of a run; the system may answer every call in another way. -/
def Along (P : Allocator → State → Call → Prop) : State → List (Allocator × Call) → Prop
  | _, [] => True
  | s, (system, call) :: calls =>
    P system s call ∧ ∀ s', step system s call = some s' → Along P s' calls

/-- Whatever the step ends in is right. -/
def RightStep (s : State) (call : Call) : Prop := ∀ s', step system s call = some s' → Right s s'

/-! ## The invariant -/

structure Kept (s : State) : Prop where
  sound : Sound s.pool [⟨s.array.elts, nightAlign s.requested⟩]
  bound : s.array.nelts ≤ s.array.nalloc
  inside : s.array.size * s.array.nelts ≤ served s.requested
  length : s.pointers.length = s.array.nelts
  pointers : 0 < s.array.size → ∀ i < s.array.nelts,
    s.pointers[i]? = some (s.array.element i).addr
  written : ∀ i value, s.written i = some value → i < s.array.nelts ∧
    value.length = s.array.size ∧ load s.pool.memory (s.array.element i).addr s.array.size = value

variable {system} {s s' : State} {call : Call}

/-- A byte of an element lies in the region that the pool has returned. -/
theorem element_has {a : NightArray} {requested i k : ℕ} (hi : i < a.nelts) (hk : k < a.size)
    (hinside : a.size * a.nelts ≤ served requested) :
    Region.Has ⟨a.elts, nightAlign requested⟩ ((a.element i).addr + k) := by
  have hnext : a.size * (i + 1) ≤ a.size * a.nelts := Nat.mul_le_mul_left _ hi
  have hserved : served requested ≤ nightAlign requested := min_le_right ..
  rw [Nat.mul_succ] at hnext
  refine ⟨?_, ?_⟩
  · show a.elts ≤ a.elts + a.size * i + k
    omega
  · show a.elts + a.size * i + k < a.elts + nightAlign requested
    omega

theorem load_element (hkept : Kept s) {memory : ℕ → Byte}
    (hsame : ∀ x, Region.Has ⟨s.array.elts, nightAlign s.requested⟩ x →
      memory x = s.pool.memory x) {i : ℕ} (hi : i < s.array.nelts) :
    load memory (s.array.element i).addr s.array.size =
      load s.pool.memory (s.array.element i).addr s.array.size :=
  load_congr fun _ hk => hsame _ (element_has hi hk hkept.inside)

/-- Elements with different numbers do not overlap. -/
theorem element_disjoint (a : NightArray) {i j : ℕ} (hne : i ≠ j) :
    (a.element i).addr + a.size ≤ (a.element j).addr ∨
      (a.element j).addr + a.size ≤ (a.element i).addr := by
  rw [NightArray.element, NightArray.element]
  rcases Nat.lt_or_gt_of_ne hne with hlt | hgt
  · have hnext : a.size * (i + 1) ≤ a.size * j := Nat.mul_le_mul_left _ hlt
    rw [Nat.mul_succ] at hnext
    left
    show a.elts + a.size * i + a.size ≤ a.elts + a.size * j
    omega
  · have hnext : a.size * (j + 1) ≤ a.size * i := Nat.mul_le_mul_left _ hgt
    rw [Nat.mul_succ] at hnext
    right
    show a.elts + a.size * j + a.size ≤ a.elts + a.size * i
    omega

/-- A step that returns no pointer is right when the invariant is kept. -/
theorem right_of_kept (hkept' : Kept s') (hcopied : s'.copied = 0)
    (hpointers : s'.pointers = s.pointers) : Right s s' where
  copied := by
    rw [hcopied]
    exact Nat.zero_le _
  bound := hkept'.bound
  inside p hp := by
    rw [hpointers] at hp
    simp at hp
  reads i value hwritten := (hkept'.written i value hwritten).2.2

theorem kept_written (hkept : Kept s) {i p : ℕ} {bytes : List Byte}
    (hpointer : s.pointers[i]? = some p) (hlength : bytes.length = s.array.size) :
    Kept { s with
      pool := { s.pool with memory := store s.pool.memory p bytes }
      written := Function.update s.written i (some bytes)
      copied := 0 } := by
  have hi : i < s.array.nelts := by
    rw [← hkept.length]
    exact (List.getElem?_eq_some_iff.mp hpointer).1
  refine ⟨hkept.sound.memory _, hkept.bound, hkept.inside, hkept.length, hkept.pointers, ?_⟩
  intro j value hwritten
  change Function.update s.written i (some bytes) j = some value at hwritten
  change j < s.array.nelts ∧ value.length = s.array.size ∧
    load (store s.pool.memory p bytes) (s.array.element j).addr s.array.size = value
  by_cases hsize : 0 < s.array.size
  · have hp := (hkept.pointers hsize i hi).symm.trans hpointer
    obtain rfl : (s.array.element i).addr = p := Option.some.inj hp
    by_cases hj : j = i
    · subst hj
      rw [Function.update_self] at hwritten
      cases hwritten
      refine ⟨hi, hlength, ?_⟩
      rw [← hlength]
      exact load_store ..
    · rw [Function.update_of_ne hj] at hwritten
      obtain ⟨hlt, hvalue, hload⟩ := hkept.written j value hwritten
      refine ⟨hlt, hvalue, Eq.trans ?_ hload⟩
      apply load_store_of_disjoint
      rw [hlength]
      exact element_disjoint s.array hj
  · -- there is only one value without bytes
    have hzero : s.array.size = 0 := by omega
    have hvalue : j < s.array.nelts ∧ value.length = s.array.size := by
      by_cases hj : j = i
      · subst hj
        rw [Function.update_self] at hwritten
        cases hwritten
        exact ⟨hi, hlength⟩
      · rw [Function.update_of_ne hj] at hwritten
        obtain ⟨hlt, hvalue, -⟩ := hkept.written j value hwritten
        exact ⟨hlt, hvalue⟩
    refine ⟨hvalue.1, hvalue.2, ?_⟩
    rw [hzero] at hvalue
    rw [List.eq_nil_of_length_eq_zero hvalue.2]
    apply List.eq_nil_of_length_eq_zero
    rw [length_load]
    exact hzero

/-- The pool has no new storage. -/
theorem kept_refused (hkept : Kept s) {size : ℕ} {pool : Pool}
    (hcall : nightPmalloc system s.pool size = some (none, pool)) :
    Kept { s with pool := pool, copied := 0 } := by
  have hserved := nightPmalloc_served hkept.sound hcall
  refine ⟨hserved.sound, hkept.bound, hkept.inside, hkept.length, hkept.pointers, ?_⟩
  intro i value hwritten
  obtain ⟨hi, hvalue, hload⟩ := hkept.written i value hwritten
  refine ⟨hi, hvalue, Eq.trans ?_ hload⟩
  apply load_element hkept _ hi
  intro x hx
  exact hserved.memory _ (List.mem_singleton.mpr rfl) x hx

/-- There is room for one more element. -/
theorem kept_taken (hkept : Kept s) (hroom : s.array.nelts ≠ s.array.nalloc)
    (hfits : s.array.size * (s.array.nelts + 1) ≤ served s.requested) : Kept s.taken := by
  refine ⟨hkept.sound, ?_, hfits, ?_, ?_, ?_⟩
  · have hbound := hkept.bound
    show s.array.nelts + 1 ≤ s.array.nalloc
    omega
  · show (s.pointers ++ [_]).length = _
    rw [List.length_append, hkept.length]
    rfl
  · intro hsize i hi
    have hi' : i < s.array.nelts + 1 := hi
    show (s.pointers ++ [_])[i]? = some (s.array.element i).addr
    by_cases hlast : i = s.array.nelts
    · rw [hlast, ← hkept.length, List.getElem?_concat_length, hkept.length]
      rfl
    · have hlt : i < s.pointers.length := by
        rw [hkept.length]
        omega
      rw [List.getElem?_append_left hlt]
      exact hkept.pointers hsize i (by omega)
  · intro i value hwritten
    obtain ⟨hi, hvalue, hload⟩ := hkept.written i value hwritten
    exact ⟨Nat.lt_succ_of_lt hi, hvalue, hload⟩

/-! ## Steps -/

theorem step_write (hkept : Kept s) (i : ℕ) (bytes : List Byte)
    (hstep : step system s (.write i bytes) = some s') : Right s s' ∧ Kept s' := by
  have hidle : Kept { s with copied := 0 } :=
    ⟨hkept.sound, hkept.bound, hkept.inside, hkept.length, hkept.pointers, hkept.written⟩
  simp only [step] at hstep
  cases hpointer : s.pointers[i]? with
  | none =>
    rw [hpointer] at hstep
    cases hstep
    exact ⟨right_of_kept hidle rfl rfl, hidle⟩
  | some p =>
    by_cases hlength : bytes.length = s.array.size
    · simp only [hpointer, if_pos hlength] at hstep
      cases hstep
      have hkept' := kept_written hkept hpointer hlength
      exact ⟨right_of_kept hkept' rfl rfl, hkept'⟩
    · simp only [hpointer, if_neg hlength] at hstep
      cases hstep
      exact ⟨right_of_kept hidle rfl rfl, hidle⟩

/-- A push takes the next element, gets no storage, or moves. -/
theorem step_push (system : Allocator) (s : State) : step system s .push =
    if s.array.nelts = s.array.nalloc then
      match nightPmalloc system s.pool s.array.larger with
      | none => none
      | some (none, pool) => some { s with pool := pool, copied := 0 }
      | some (some new, pool) => some (s.moved pool new)
    else some s.taken := by
  simp only [step, nightArrayPush]
  by_cases hfull : s.array.nelts = s.array.nalloc
  · simp only [if_pos hfull]
    obtain _ | ⟨_ | new, pool⟩ := nightPmalloc system s.pool s.array.larger
    · rfl
    · rfl
    · rfl
  · simp only [if_neg hfull]
    rfl

theorem step_taken (hkept : Kept s) (hroom : s.array.nelts ≠ s.array.nalloc)
    (hfits : s.array.size * (s.array.nelts + 1) ≤ served s.requested) :
    Right s s.taken ∧ Kept s.taken := by
  have hkept' := kept_taken hkept hroom hfits
  refine ⟨⟨Nat.zero_le _, hkept'.bound, ?_, ?_⟩, hkept'⟩
  · intro p hp
    obtain rfl := List.singleton_inj.mp (List.append_cancel_left hp)
    refine ⟨Nat.le_add_right _ _, ?_⟩
    rw [Nat.mul_succ] at hfits
    show s.array.elts + s.array.size * s.array.nelts + s.array.size ≤
      s.array.elts + served s.requested
    omega
  · exact fun i value hwritten => (hkept'.written i value hwritten).2.2

/-- Nothing is copied for elements without bytes. -/
theorem step_moved (hkept : Kept s) (hfull : s.array.nelts = s.array.nalloc)
    (hzero : s.array.size = 0) (hpos : 0 < s.array.nalloc) {new : ℕ} {pool : Pool}
    (hcall : nightPmalloc system s.pool s.array.larger = some (some new, pool)) :
    Right s (s.moved pool new) ∧ Kept (s.moved pool new) := by
  have hlarger : s.array.larger = 0 := by
    rw [NightArray.larger, hzero, mulSize, Nat.zero_mul, Nat.zero_mod]
  have hbound : s.array.nelts + 1 ≤ exN s.array.nelts := by
    rw [exN]
    split <;> omega
  have hreads : ∀ i value, s.written i = some value → ∀ memory start,
      load memory start s.array.size = value := by
    intro i value hwritten memory start
    have hvalue := (hkept.written i value hwritten).2.1
    rw [hzero] at hvalue ⊢
    rw [List.eq_nil_of_length_eq_zero hvalue]
    rfl
  have hserved := nightPmalloc_served hkept.sound hcall
  refine ⟨⟨?_, hbound, ?_, fun i value hwritten => hreads i value hwritten _ _⟩,
    ⟨?_, hbound, ?_, ?_, ?_, ?_⟩⟩
  · show s.array.larger ≤ _
    rw [hlarger]
    exact Nat.zero_le _
  · intro p hp
    obtain rfl := List.singleton_inj.mp (List.append_cancel_left hp)
    refine ⟨Nat.le_add_right _ _, ?_⟩
    show new + s.array.size * s.array.nelts + s.array.size ≤ new + _
    rw [hzero]
    omega
  · exact (hserved.sound.memory _).forget (by simp [State.moved])
  · show s.array.size * (s.array.nelts + 1) ≤ _
    rw [hzero, Nat.zero_mul]
    exact Nat.zero_le _
  · show (s.pointers ++ [_]).length = _
    rw [List.length_append, hkept.length]
    rfl
  · intro hsize
    exact absurd hsize (by simp [State.moved, hzero])
  · intro i value hwritten
    obtain ⟨hi, hvalue, -⟩ := hkept.written i value hwritten
    exact ⟨Nat.lt_succ_of_lt hi, hvalue, hreads i value hwritten _ _⟩

theorem step_fits (hkept : Kept s) (hfits : Fits system s call)
    (hstep : step system s call = some s') : Right s s' ∧ Kept s' := by
  cases call with
  | write i bytes => exact step_write hkept i bytes hstep
  | push =>
    rw [Fits] at hfits
    rw [step_push] at hstep
    by_cases hfull : s.array.nelts = s.array.nalloc
    · rw [if_pos hfull] at hfits hstep
      cases hcall : nightPmalloc system s.pool s.array.larger with
      | none =>
        rw [hcall] at hstep
        cases hstep
      | some result =>
        obtain ⟨_ | new, pool⟩ := result
        · rw [hcall] at hstep
          cases hstep
          have hkept' := kept_refused hkept hcall
          exact ⟨right_of_kept hkept' rfl rfl, hkept'⟩
        · rw [hcall] at hstep
          cases hstep
          obtain ⟨hzero, hpos⟩ := hfits.resolve_left fun hnone => hnone new pool hcall
          exact step_moved hkept hfull hzero hpos hcall
    · rw [if_neg hfull] at hfits hstep
      cases hstep
      exact step_taken hkept hfull hfits

/-- A push that moves elements with bytes reads too much, or has too little storage. -/
theorem fits_of_right (hright : RightStep system s call) : Fits system s call := by
  cases call with
  | write i bytes => trivial
  | push =>
    rw [Fits]
    by_cases hfull : s.array.nelts = s.array.nalloc
    · rw [if_pos hfull]
      by_contra hnot
      push Not at hnot
      obtain ⟨⟨new, pool, hcall⟩, hsize⟩ := hnot
      have hmoved : Right s (s.moved pool new) := by
        apply hright
        rw [step_push, if_pos hfull, hcall]
      have hcopied : s.array.larger ≤ s.array.nelts * s.array.size := hmoved.copied
      have hbound : s.array.nelts + 1 ≤ exN s.array.nelts := hmoved.bound
      have hinside : new + s.array.size * s.array.nelts + s.array.size ≤
          new + served s.array.larger := (hmoved.inside _ rfl).2
      have hserved : served s.array.larger ≤ s.array.larger := min_le_left ..
      rw [Nat.mul_comm] at hcopied
      have hzero : s.array.size = 0 := by omega
      have hempty : s.array.nelts = 0 := by
        have hnalloc := hsize hzero
        omega
      rw [hempty] at hbound
      exact absurd hbound (by decide)
    · rw [if_neg hfull]
      have htaken : Right s s.taken := by
        apply hright
        rw [step_push, if_neg hfull]
      have hinside : s.array.elts + s.array.size * s.array.nelts + s.array.size ≤
          s.array.elts + served s.requested := (htaken.inside _ rfl).2
      rw [Nat.mul_succ]
      omega

/-! ## Every run -/

theorem along_iff (hkept : Kept s) (calls : List (Allocator × Call)) :
    Along RightStep s calls ↔ Along Fits s calls := by
  induction calls generalizing s with
  | nil => exact Iff.rfl
  | cons call calls ih =>
    constructor
    · rintro ⟨hright, hrest⟩
      have hfits := fits_of_right hright
      refine ⟨hfits, ?_⟩
      intro s' hstep
      exact (ih (step_fits hkept hfits hstep).2).mp (hrest s' hstep)
    · rintro ⟨hfits, hrest⟩
      refine ⟨fun s' hstep => (step_fits hkept hfits hstep).1, ?_⟩
      intro s' hstep
      exact (ih (step_fits hkept hfits hstep).2).mpr (hrest s' hstep)

theorem kept_start {pool pool' : Pool} {returned : List Region} {n size : ℕ} {array : NightArray}
    (hsound : Sound pool returned)
    (hinit : nightArrayInit system pool n size = some (some array, pool')) :
    Kept (State.start pool' array) := by
  rw [nightArrayInit] at hinit
  cases hcall : nightPmalloc system pool (mulSize n size) with
  | none =>
    rw [hcall] at hinit
    cases hinit
  | some result =>
    obtain ⟨_ | elts, served⟩ := result
    · rw [hcall] at hinit
      cases hinit
    · rw [hcall] at hinit
      cases hinit
      exact ⟨nightPmalloc_sound hsound hcall, Nat.zero_le _, Nat.zero_le _, rfl, nofun, nofun⟩

/-- In a run on a new array of any pool all steps are right if and only if no push has to move
elements that have bytes, and none goes past the storage that was asked for. -/
theorem along_right_iff_fits {memory : ℕ → Byte} {poolBytes : ℕ} (hbytes : poolSize ≤ poolBytes)
    {created pool pool' : Pool} (hcreate : nightCreatePool system memory poolBytes = some created)
    {poolCalls : List (Allocator × PoolLarge.Call)}
    (hrun : PoolLarge.run created poolCalls = some pool) {n size : ℕ} {array : NightArray}
    (hinit : nightArrayInit system pool n size = some (some array, pool'))
    (calls : List (Allocator × Call)) :
    Along RightStep (State.start pool' array) calls ↔ Along Fits (State.start pool' array) calls :=
  along_iff (kept_start (run_sound (nightCreatePool_sound hbytes hcreate) hrun) hinit) calls

/-- Room for four elements of eight bytes, of which one is taken and written. -/
theorem along_right_iff_fits_room :
    ∃ pool, nightArrayInit (.above fun _ => true) pagePool 4 8 = some (some ⟨80, 0, 8, 4⟩, pool) ∧
      Along RightStep (State.start pool ⟨80, 0, 8, 4⟩)
        [(.above fun _ => true, .push), (.above fun _ => true, .write 0 (List.replicate 8 1))] := by
  have hinit : ∃ pool, nightArrayInit (.above fun _ => true) pagePool 4 8 =
      some (some ⟨80, 0, 8, 4⟩, pool) := ⟨_, rfl⟩
  obtain ⟨pool, hinit⟩ := hinit
  have hcreate : nightCreatePool (.above fun _ => true) (fun _ => 0xFF) 4096 = some pagePool := rfl
  have hrun : PoolLarge.run pagePool [] = some pagePool := rfl
  refine ⟨pool, hinit, (along_right_iff_fits (by decide) hcreate hrun hinit _).mpr ?_⟩
  refine ⟨?_, fun s' hstep => ⟨trivial, fun s'' hwrite => trivial⟩⟩
  rw [Fits]
  exact (if_neg (show ¬ 0 = 4 by decide)).mpr (show 8 * (0 + 1) ≤ served (mulSize 4 8) by decide)

/-- One element of eight bytes: the second push reads sixteen. -/
theorem not_right_second : ¬ ∀ (system : Allocator) (pool pool' : Pool) (n size : ℕ)
    (array : NightArray) (calls : List (Allocator × Call)), Sound pool [] →
    nightArrayInit system pool n size = some (some array, pool') →
    Along RightStep (State.start pool' array) calls := by
  intro hall
  have hserved : ((nightArrayInit (.above fun _ => true) pagePool 1 8).bind fun result =>
      nightPmalloc (.above fun _ => true) result.2 16).bind Prod.fst = some 88 := by decide
  have hinit : ∃ pool, nightArrayInit (.above fun _ => true) pagePool 1 8 =
      some (some ⟨80, 0, 8, 1⟩, pool) := ⟨_, rfl⟩
  obtain ⟨pool, hinit⟩ := hinit
  rw [hinit] at hserved
  obtain ⟨⟨new, pool'⟩, hcall, rfl⟩ := Option.bind_eq_some_iff.mp hserved
  have hcreate : nightCreatePool (.above fun _ => true) (fun _ => 0xFF) 4096 = some pagePool := rfl
  obtain ⟨-, hrest⟩ := hall _ _ _ _ _ _
    [(.above fun _ => true, .push), (.above fun _ => true, .push)]
    (nightCreatePool_sound (by decide) hcreate) hinit
  obtain ⟨hright, -⟩ := hrest (State.start pool ⟨80, 0, 8, 1⟩).taken (by
    rw [step_push]
    exact if_neg (show ¬ 0 = 1 by decide))
  have hcall' : nightPmalloc (.above fun _ => true) (State.start pool ⟨80, 0, 8, 1⟩).taken.pool
      (State.start pool ⟨80, 0, 8, 1⟩).taken.array.larger = some (some 88, pool') := hcall
  have hmoved := hright ((State.start pool ⟨80, 0, 8, 1⟩).taken.moved pool' 88) (by
    rw [step_push]
    refine (if_pos (show 1 = 1 from rfl)).trans ?_
    rw [hcall'])
  exact absurd (show 16 ≤ 1 * 8 from hmoved.copied) (by decide)

end Night.ArrayPush
