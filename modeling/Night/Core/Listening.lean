import Night.Core.ArrayGrowth

/-!
# `night_clone_listening`

Every configured listener gets an entry for each worker.  The clones are pushed to the array
that the loop of `night_event_init_conf` walks over, which may move it.
-/

namespace Night.Listening

open Night.ArrayPush Night.Bytes Night.PoolLarge Night.Regions
open Night.Memory (decode decode_encode encode encode_length length_load load store store_store write)

/-! ## Entries -/

/-- `sizeof(night_listening_t)`, and where its field `worker` is. -/
def listeningSize : ℕ := 88
def workerOffset : ℕ := 48

/-- The bytes of an `int`. -/
def intSize : ℕ := 4

/-- The field `worker` of an entry. -/
def workerOf (entry : List Byte) : ℕ := decode ((entry.drop workerOffset).take intSize)

/-- The entry with another worker. -/
def setWorker (n : ℕ) (entry : List Byte) : List Byte :=
  entry.take workerOffset ++ encode intSize n ++ entry.drop (workerOffset + intSize)

/-! ## The loops -/

inductive Rc where
  | ok
  | error
  deriving DecidableEq, Repr

def loadWorker (memory : ℕ → Byte) (ls : ℕ) : ℕ :=
  decode (load memory (ls + workerOffset) intSize)

section Calls

variable (system : Allocator)

/-- The loop of `night_clone_listening` from the worker `n` on, with `left` workers to go. -/
def cloneLoop (oldLs : List Byte) : ℕ → ℕ → NightArray → Pool → Option (Rc × NightArray × Pool)
  | 0, _, listening, pool => some (.ok, listening, pool)
  | left + 1, n, listening, pool =>
    match nightArrayPush system pool listening with
    | none => none
    | some ⟨none, listening, pool, _⟩ => some (.error, listening, pool)
    | some ⟨some ls, listening, pool, _⟩ =>
      let memory := store (store pool.memory ls oldLs) (ls + workerOffset) (encode intSize n)
      cloneLoop oldLs left (n + 1) listening { pool with memory := memory }

def nightCloneListening (workerProcesses ls : ℕ) (listening : NightArray) (pool : Pool) :
    Option (Rc × NightArray × Pool) :=
  if loadWorker pool.memory ls ≠ 0 then some (.ok, listening, pool)
  else cloneLoop system (load pool.memory ls listeningSize) (workerProcesses - 1) 1 listening pool

/-- The loop of `night_event_init_conf` from the entry `i` on. -/
def initLoop (workerProcesses : ℕ) : ℕ → ℕ → ℕ → NightArray → Pool →
    Option (Rc × NightArray × Pool)
  | 0, _, _, _, _ => none
  | fuel + 1, i, ls, listening, pool =>
    if i < listening.nelts then
      if loadWorker pool.memory (ls + listeningSize * i) ≠ 0 then
        initLoop workerProcesses fuel (i + 1) ls listening pool
      else
        match nightCloneListening system workerProcesses (ls + listeningSize * i) listening pool with
        | none => none
        | some (.error, listening, pool) => some (.error, listening, pool)
        | some (.ok, listening, pool) =>
          initLoop workerProcesses fuel (i + 1) listening.elts listening pool
    else some (.ok, listening, pool)

def nightEventInitConf (connectionN workerProcesses fuel : ℕ) (listening : NightArray)
    (pool : Pool) : Option (Rc × NightArray × Pool) :=
  if connectionN < listening.nelts + 1 then some (.error, listening, pool)
  else initLoop system workerProcesses fuel 0 listening.elts listening pool

end Calls

/-! ## Entries of workers -/

variable {entry : List Byte} {n : ℕ}

theorem write_setWorker (n : ℕ) (hentry : entry.length = listeningSize) :
    write entry workerOffset (encode intSize n) = some (setWorker n entry) := by
  have hfits : workerOffset + (encode intSize n).length ≤ entry.length := by
    rw [encode_length, hentry]
    decide
  rw [write, if_pos hfits, encode_length]
  rfl

theorem length_setWorker (n : ℕ) (hentry : entry.length = listeningSize) :
    (setWorker n entry).length = listeningSize := by
  rw [Memory.write_length (write_setWorker n hentry), hentry]

theorem workerOf_setWorker (hentry : entry.length = listeningSize) (hn : n < 2 ^ 31) :
    workerOf (setWorker n entry) = n := by
  have hread := Memory.read_write (write_setWorker n hentry)
  rw [Memory.read, if_pos (by rw [encode_length, length_setWorker n hentry]; decide),
    encode_length] at hread
  rw [workerOf, Option.some.inj hread, decode_encode]
  exact Nat.mod_eq_of_lt (by rw [intSize]; omega)

/-- The clone for the worker that an entry has is the entry. -/
theorem setWorker_workerOf (hentry : entry.length = listeningSize) :
    setWorker (workerOf entry) entry = entry := by
  have hlength : ((entry.drop workerOffset).take intSize).length = intSize := by
    rw [List.length_take, List.length_drop, hentry]
    rfl
  have hencode := Memory.encode_decode ((entry.drop workerOffset).take intSize)
  rw [hlength] at hencode
  rw [setWorker, workerOf, hencode, List.append_assoc, ← List.drop_drop, List.take_append_drop,
    List.take_append_drop]

theorem workerOf_load (memory : ℕ → Byte) (ls : ℕ) :
    workerOf (load memory ls listeningSize) = loadWorker memory ls := by
  rw [workerOf, Memory.load_part (by decide)]
  rfl

/-! ## The array of listeners -/

/-- The array holds the entries. -/
structure Listens (pool : Pool) (listening : NightArray) (entries : List (List Byte)) : Prop where
  stored : Stored pool listening
  size : listening.size = listeningSize
  contents : contents pool.memory listening = entries

variable {system : Allocator} {pool pool' : Pool} {listening listening' : NightArray}
  {entries left right done rest : List (List Byte)}

theorem Listens.nelts (hlistens : Listens pool listening entries) :
    listening.nelts = entries.length := by
  rw [← hlistens.contents, ArrayPush.contents, List.length_map, List.length_range]

/-- The entry that a pointer to it reads. -/
theorem Listens.load (hlistens : Listens pool listening (left ++ entry :: right)) :
    load pool.memory (listening.elts + listeningSize * left.length) listeningSize = entry := by
  have hget : (ArrayPush.contents pool.memory listening)[left.length]? = some entry := by
    rw [hlistens.contents]
    simp
  have hlt : left.length < listening.nelts := by
    rw [hlistens.nelts]
    simp
  rw [ArrayPush.contents, List.getElem?_map, List.getElem?_range hlt, hlistens.size] at hget
  have haddr : (listening.element left.length).addr =
      listening.elts + listeningSize * left.length := by
    rw [← hlistens.size]
    rfl
  rw [← haddr]
  exact Option.some.inj hget

theorem Listens.loadWorker (hlistens : Listens pool listening (left ++ entry :: right)) :
    loadWorker pool.memory (listening.elts + listeningSize * left.length) = workerOf entry := by
  rw [← workerOf_load, hlistens.load]

theorem Listens.length (hlistens : Listens pool listening (left ++ entry :: right)) :
    entry.length = listeningSize := by
  rw [← hlistens.load, length_load]

/-- The size of the storage of so many entries. -/
theorem Listens.small (hlistens : Listens pool listening entries)
    (hint : entries.length < 2 ^ 31) : listening.size * exN listening.nelts < 2 ^ 63 := by
  rw [hlistens.nelts, hlistens.size, listeningSize, exN]
  split <;> omega

/-! ## Cloning -/

/-- The entries for the workers from `n` on. -/
def clones (n left : ℕ) (entry : List Byte) : List (List Byte) :=
  (List.range' n left).map fun k => setWorker k entry

/-- One turn: the clone is pushed and gets its worker. -/
theorem cloneLoop_push (hlistens : Listens pool listening entries)
    (hint : entries.length < 2 ^ 31) (hentry : entry.length = listeningSize) {ls copied n : ℕ}
    (hpush : nightArrayPush system pool listening = some ⟨some ls, listening', pool', copied⟩) :
    Listens { pool' with
        memory := store (store pool'.memory ls entry) (ls + workerOffset) (encode intSize n) }
      listening' (entries ++ [setWorker n entry]) := by
  have hclone := length_setWorker n hentry
  rw [store_store (write_setWorker n hentry)]
  obtain ⟨hstored, -, hsize, hcontents⟩ := contents_push hlistens.stored (hlistens.small hint) hpush
    (hclone.trans hlistens.size.symm)
  exact ⟨hstored, hsize.trans hlistens.size, by rw [hcontents, hlistens.contents]⟩

theorem cloneLoop_clones (hlistens : Listens pool listening entries) {left n : ℕ}
    (hint : entries.length + left ≤ 2 ^ 31) (hentry : entry.length = listeningSize)
    (hloop : cloneLoop system entry left n listening pool = some (.ok, listening', pool')) :
    Listens pool' listening' (entries ++ clones n left entry) := by
  induction left generalizing n listening pool entries with
  | zero =>
    cases hloop
    simpa [clones] using hlistens
  | succ left ih =>
    rw [cloneLoop] at hloop
    cases hpush : nightArrayPush system pool listening with
    | none =>
      rw [hpush] at hloop
      cases hloop
    | some pushed =>
      obtain ⟨_ | ls, listening₁, pool₁, copied⟩ := pushed
      · rw [hpush] at hloop
        cases hloop
      · rw [hpush] at hloop
        have hlistens₁ := @cloneLoop_push _ _ _ _ _ _ _ hlistens (by omega) hentry _ _ n hpush
        have hrest := ih hlistens₁ (by simp; omega) hloop
        rwa [List.append_assoc] at hrest

theorem cloneLoop_some (hsystem : ∀ owned size, (system.alloc owned size).isSome)
    (hlistens : Listens pool listening entries) {left : ℕ} (n : ℕ)
    (hint : entries.length + left ≤ 2 ^ 31) (hentry : entry.length = listeningSize) :
    ∃ listening' pool', cloneLoop system entry left n listening pool =
      some (.ok, listening', pool') := by
  induction left generalizing n listening pool entries with
  | zero => exact ⟨_, _, rfl⟩
  | succ left ih =>
    obtain ⟨ls, listening₁, pool₁, copied, hpush⟩ := push_some hsystem hlistens.stored
    have hlistens₁ := @cloneLoop_push _ _ _ _ _ _ _ hlistens (by omega) hentry _ _ n hpush
    rw [cloneLoop, hpush]
    exact ih hlistens₁ (n + 1) (by simp; omega)

/-! ## The loop over the array -/

/-- Entries with a worker are passed. -/
theorem initLoop_rest {workerProcesses fuel : ℕ}
    (hlistens : Listens pool listening (left ++ right))
    (hworkers : ∀ entry ∈ right, workerOf entry ≠ 0) (hfuel : right.length < fuel) :
    initLoop system workerProcesses fuel left.length listening.elts listening pool =
      some (.ok, listening, pool) := by
  obtain ⟨fuel, rfl⟩ : ∃ rest, fuel = rest + 1 := ⟨fuel - 1, by omega⟩
  induction right generalizing left fuel with
  | nil =>
    have hend : ¬ left.length < listening.nelts := by
      rw [hlistens.nelts]
      simp
    rw [initLoop, if_neg hend]
  | cons entry right ih =>
    rw [List.length_cons] at hfuel
    obtain ⟨fuel, rfl⟩ : ∃ rest, fuel = rest + 1 := ⟨fuel - 1, by omega⟩
    have hlt : left.length < listening.nelts := by
      rw [hlistens.nelts]
      simp
    have hworker : workerOf entry ≠ 0 := hworkers entry List.mem_cons_self
    have hnext : Listens pool listening ((left ++ [entry]) ++ right) := by simpa using hlistens
    rw [initLoop, if_pos hlt, hlistens.loadWorker, if_pos hworker]
    have hrest := ih hnext (fun entry hentry => hworkers entry (List.mem_cons_of_mem _ hentry))
      fuel (by omega)
    simpa using hrest

/-- What is added for the listeners. -/
def clonesOf (workerProcesses : ℕ) (configured : List (List Byte)) : List (List Byte) :=
  configured.flatMap (clones 1 (workerProcesses - 1))

theorem length_clonesOf (workerProcesses : ℕ) (configured : List (List Byte)) :
    (clonesOf workerProcesses configured).length =
      configured.length * (workerProcesses - 1) := by
  induction configured with
  | nil => simp [clonesOf]
  | cons entry configured ih =>
    have hcons : clonesOf workerProcesses (entry :: configured) =
        clones 1 (workerProcesses - 1) entry ++ clonesOf workerProcesses configured := rfl
    rw [hcons, List.length_append, ih, clones, List.length_map, List.length_range',
      List.length_cons, Nat.succ_mul, Nat.add_comm]

theorem clonesOf_concat (workerProcesses : ℕ) (configured : List (List Byte))
    (entry : List Byte) : clonesOf workerProcesses (configured ++ [entry]) =
      clonesOf workerProcesses configured ++ clones 1 (workerProcesses - 1) entry := by
  rw [clonesOf, List.flatMap_append]
  simp [clonesOf]

/-- A clone has a worker. -/
theorem workerOf_clonesOf {workerProcesses : ℕ} {configured : List (List Byte)}
    (hint : workerProcesses ≤ 2 ^ 31) (hlength : ∀ entry ∈ configured, entry.length = listeningSize) :
    ∀ clone ∈ clonesOf workerProcesses configured, workerOf clone ≠ 0 := by
  intro clone hclone
  obtain ⟨entry, hentry, hclone⟩ := List.mem_flatMap.mp hclone
  obtain ⟨n, hn, rfl⟩ := List.mem_map.mp hclone
  have hrange := List.mem_range'_1.mp hn
  rw [workerOf_setWorker (hlength entry hentry) (by omega)]
  omega

/-- The loop at a configured listener: its clones go to the end. -/
theorem nightCloneListening_eq {workerProcesses : ℕ}
    (hlistens : Listens pool listening (left ++ entry :: right)) (hworker : workerOf entry = 0) :
    nightCloneListening system workerProcesses (listening.elts + listeningSize * left.length)
        listening pool =
      cloneLoop system entry (workerProcesses - 1) 1 listening pool := by
  rw [nightCloneListening, hlistens.loadWorker, if_neg (not_not.mpr hworker), hlistens.load]

/-- The entries when the listeners in `done` have their clones. -/
def progress (workerProcesses : ℕ) (done rest : List (List Byte)) : List (List Byte) :=
  done ++ rest ++ clonesOf workerProcesses done

theorem Listens.lengths (hlistens : Listens pool listening entries) :
    ∀ entry ∈ entries, entry.length = listeningSize := by
  intro entry hentry
  obtain ⟨left, right, rfl⟩ := List.append_of_mem hentry
  exact hlistens.length

/-- The number of entries there will be. -/
theorem length_progress {workerProcesses total : ℕ} (hpos : 1 ≤ workerProcesses)
    (htotal : done.length + rest.length = total) :
    (progress workerProcesses done rest).length + rest.length * (workerProcesses - 1) =
      total * workerProcesses := by
  have hsplit : total * workerProcesses = total * (workerProcesses - 1) + total := by
    rw [← Nat.mul_succ, Nat.succ_eq_add_one, Nat.sub_add_cancel hpos]
  rw [hsplit, progress, List.length_append, List.length_append, length_clonesOf, ← htotal,
    Nat.add_mul]
  omega

/-- The loop from the first listener without clones on: what it has done when it succeeds, and
that it succeeds when the system serves every request. -/
theorem initLoop_clones {workerProcesses total fuel : ℕ} (hpos : 1 ≤ workerProcesses)
    (hint : total * workerProcesses < 2 ^ 31) (htotal : done.length + rest.length = total)
    (hworkers : ∀ entry ∈ rest, workerOf entry = 0)
    (hfuel : total * workerProcesses < fuel + done.length)
    (hlistens : Listens pool listening (progress workerProcesses done rest)) :
    (∀ listening' pool', initLoop system workerProcesses fuel done.length listening.elts listening
        pool = some (.ok, listening', pool') →
      Listens pool' listening' (progress workerProcesses (done ++ rest) [])) ∧
    ((∀ owned size, (system.alloc owned size).isSome) →
      ∃ listening' pool', initLoop system workerProcesses fuel done.length listening.elts listening
        pool = some (.ok, listening', pool')) := by
  have hcount := length_progress hpos htotal
  have hle := Nat.le_mul_of_pos_right total hpos
  induction rest generalizing done fuel listening pool with
  | nil =>
    rw [progress, List.append_nil] at hlistens hcount
    have hclones : ∀ clone ∈ clonesOf workerProcesses done, workerOf clone ≠ 0 := by
      intro clone hclone
      have hsome : 0 < total := by
        rcases done with _ | ⟨entry, done⟩
        · cases hclone
        · rw [← htotal]
          exact Nat.succ_pos _
      have hmany := Nat.le_mul_of_pos_left workerProcesses hsome
      apply workerOf_clonesOf (by omega) _ clone hclone
      exact fun entry hentry => hlistens.lengths entry (List.mem_append_left _ hentry)
    have hend : initLoop system workerProcesses fuel done.length listening.elts listening pool =
        some (.ok, listening, pool) := by
      apply initLoop_rest hlistens hclones
      rw [List.length_append, List.length_nil, Nat.zero_mul] at hcount
      omega
    refine ⟨?_, fun _ => ⟨_, _, hend⟩⟩
    intro listening' pool' hloop
    rw [hend] at hloop
    cases hloop
    simpa [progress] using hlistens
  | cons entry rest ih =>
    have hat : Listens pool listening (done ++ entry :: (rest ++ clonesOf workerProcesses done)) := by
      simpa [progress] using hlistens
    have hnext : progress workerProcesses done (entry :: rest) ++
        clones 1 (workerProcesses - 1) entry = progress workerProcesses (done ++ [entry]) rest := by
      rw [progress, progress, clonesOf_concat]
      simp
    have hroom : (progress workerProcesses done (entry :: rest)).length +
        (workerProcesses - 1) ≤ 2 ^ 31 := by
      rw [List.length_cons, Nat.succ_mul] at hcount
      omega
    have hworker : workerOf entry = 0 := hworkers entry List.mem_cons_self
    have hlt : done.length < listening.nelts := by
      rw [hat.nelts]
      simp
    rw [List.length_cons] at htotal
    obtain ⟨fuel, rfl⟩ : ∃ rest, fuel = rest + 1 := ⟨fuel - 1, by omega⟩
    have hlength : (done ++ [entry]).length = done.length + 1 := by simp
    have htotal' : (done ++ [entry]).length + rest.length = total := by omega
    have hrest {listening₁ : NightArray} {pool₁ : Pool}
        (hloop : cloneLoop system entry (workerProcesses - 1) 1 listening pool =
          some (.ok, listening₁, pool₁)) :=
      @ih pool₁ listening₁ (done ++ [entry]) fuel htotal'
        (fun entry hentry => hworkers entry (List.mem_cons_of_mem _ hentry)) (by omega)
        (hnext ▸ cloneLoop_clones hlistens hroom hat.length hloop) (length_progress hpos htotal')
    rw [hlength, List.append_assoc, List.singleton_append] at hrest
    rw [initLoop, if_pos hlt, hat.loadWorker, if_neg (not_not.mpr hworker),
      nightCloneListening_eq hat hworker]
    constructor
    · intro listening' pool' hloop
      cases hclone : cloneLoop system entry (workerProcesses - 1) 1 listening pool with
      | none =>
        rw [hclone] at hloop
        cases hloop
      | some result =>
        obtain ⟨_ | _, listening₁, pool₁⟩ := result
        · rw [hclone] at hloop
          exact (hrest hclone).1 listening' pool' hloop
        · rw [hclone] at hloop
          cases hloop
    · intro hsystem
      obtain ⟨listening₁, pool₁, hclone⟩ := cloneLoop_some hsystem hlistens 1 hroom hat.length
      rw [hclone]
      exact (hrest hclone).2 hsystem

/-! ## All workers -/

/-- The entries for all workers are the configured ones and their clones. -/
theorem perm_progress {workerProcesses : ℕ} (hpos : 1 ≤ workerProcesses)
    (hlengths : ∀ entry ∈ entries, entry.length = listeningSize)
    (hworkers : ∀ entry ∈ entries, workerOf entry = 0) :
    (progress workerProcesses entries []).Perm (entries.flatMap fun entry =>
      (List.range workerProcesses).map fun n => setWorker n entry) := by
  have hsplit : ∀ entry ∈ entries, (List.range workerProcesses).map (fun n => setWorker n entry) =
      entry :: clones 1 (workerProcesses - 1) entry := by
    intro entry hentry
    have hfirst : setWorker 0 entry = entry := by
      rw [← hworkers entry hentry]
      exact setWorker_workerOf (hlengths entry hentry)
    obtain ⟨left, rfl⟩ : ∃ left, workerProcesses = left + 1 := ⟨workerProcesses - 1, by omega⟩
    rw [List.range_eq_range', List.range'_succ, List.map_cons, hfirst, clones]
    rfl
  rw [progress, List.append_nil, clonesOf, List.flatMap_congr hsplit]
  have hperm := List.map_append_flatMap_perm entries id (clones 1 (workerProcesses - 1))
  rwa [List.map_id] at hperm

/-- Each configured listener ends with one entry for each worker, and there is no other entry.
There are so many entries as an `int` counts; the loop ends, with an error only where there are
too few connections or the system refuses memory. -/
theorem nightEventInitConf_perm {workerProcesses connectionN fuel : ℕ}
    (hlistens : Listens pool listening entries) (hworkers : ∀ entry ∈ entries, workerOf entry = 0)
    (hpos : 1 ≤ workerProcesses) (hint : entries.length * workerProcesses < 2 ^ 31)
    (hfuel : entries.length * workerProcesses < fuel) :
    (connectionN < entries.length + 1 →
      nightEventInitConf system connectionN workerProcesses fuel listening pool =
        some (.error, listening, pool)) ∧
    (∀ listening' pool', nightEventInitConf system connectionN workerProcesses fuel listening
        pool = some (.ok, listening', pool') →
      (contents pool'.memory listening').Perm (entries.flatMap fun entry =>
        (List.range workerProcesses).map fun n => setWorker n entry) ∧
      ∀ entry ∈ entries, ∀ n < workerProcesses, workerOf (setWorker n entry) = n) ∧
    ((∀ owned size, (system.alloc owned size).isSome) → entries.length + 1 ≤ connectionN →
      ∃ listening' pool', nightEventInitConf system connectionN workerProcesses fuel listening
        pool = some (.ok, listening', pool')) := by
  have hnone : Listens pool listening (progress workerProcesses [] entries) := by
    simpa [progress, clonesOf] using hlistens
  obtain ⟨hdone, hreturns⟩ := @initLoop_clones system _ _ [] _ _ _ fuel hpos hint (by simp)
    hworkers (by simpa using hfuel) hnone
  rw [nightEventInitConf, hlistens.nelts]
  refine ⟨fun hfew => if_pos hfew, ?_, ?_⟩
  · intro listening' pool' hcall
    by_cases hfew : connectionN < entries.length + 1
    · rw [if_pos hfew] at hcall
      cases hcall
    · rw [if_neg hfew] at hcall
      have hall : Listens pool' listening' (progress workerProcesses entries []) :=
        hdone listening' pool' hcall
      refine ⟨?_, ?_⟩
      · rw [hall.contents]
        exact perm_progress hpos hlistens.lengths hworkers
      · intro entry hentry n hn
        have hmany := Nat.le_mul_of_pos_left workerProcesses (List.length_pos_of_mem hentry)
        exact workerOf_setWorker (hlistens.lengths entry hentry) (by omega)
  · intro hsystem henough
    rw [if_neg (by omega)]
    exact hreturns hsystem

/-- One listener, three workers. -/
theorem nightEventInitConf_perm_three :
    ∃ listening pool listening' pool',
      contents pool.memory listening = [List.replicate listeningSize 0] ∧
      nightEventInitConf (.above fun _ => true) 512 3 4 listening pool =
        some (.ok, listening', pool') ∧
      (contents pool'.memory listening').Perm
        ([List.replicate listeningSize 0].flatMap fun entry =>
          (List.range 3).map fun n => setWorker n entry) := by
  have hsystem : ∀ owned size, ((Allocator.above fun _ => true).alloc owned size).isSome :=
    fun _ _ => rfl
  have hcreate : nightCreatePool (.above fun _ => true) (fun _ => 0xFF) 4096 = some pagePool := rfl
  have hinit : ∃ pool, nightArrayInit (.above fun _ => true) pagePool 4 listeningSize =
      some (some ⟨80, 0, listeningSize, 4⟩, pool) := ⟨_, rfl⟩
  obtain ⟨pool, hinit⟩ := hinit
  obtain ⟨hstored, -, -⟩ :=
    stored_start (nightCreatePool_sound (by decide) hcreate) (by decide) (by decide) hinit
  obtain ⟨ls, listening, pool₁, copied, hpush⟩ := push_some hsystem hstored
  obtain ⟨hstored₁, -, hsize, hcontents⟩ := contents_push hstored
    (show listeningSize * exN 0 < 2 ^ 63 by decide) hpush
    (show (List.replicate listeningSize (0 : Byte)).length = listeningSize from List.length_replicate)
  have hlistens : Listens { pool₁ with
      memory := store pool₁.memory ls (List.replicate listeningSize 0) } listening
      [List.replicate listeningSize 0] := ⟨hstored₁, hsize, hcontents⟩
  obtain ⟨-, hdone, hreturns⟩ := @nightEventInitConf_perm (.above fun _ => true) _ _ _ 3 512 4
    hlistens (by decide) (by decide) (by decide) (by decide)
  obtain ⟨listening', pool', hcall⟩ := hreturns hsystem (by decide)
  exact ⟨listening, _, listening', pool', hcontents, hcall, (hdone listening' pool' hcall).1⟩

end Night.Listening
