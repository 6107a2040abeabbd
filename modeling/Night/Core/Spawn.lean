import Night.Core.MasterCycleLaw

/-!
# `night_spawn_process` and the life of the master

`night_start_worker_processes` forks the workers before the cycle begins; between `fork` and
the entry in the table `SIGCHLD` may already be handled, since only `SIGINT`, `SIGQUIT` and
`SIGTERM` are blocked.  A system call that fails leaves no child, and the next worker is
tried.
-/

namespace Night.Spawn

open Night.MasterCycle
open Night.Runs

def nightMaxProcesses : ℕ := 64

/-! ## The system -/

/-- Where the master is: in front of the worker with a number; behind a `fork` whose pid is
not in the table yet; in `night_master_process_cycle`. -/
inductive Place where
  | choosing (worker : ℕ)
  | forked (worker slot pid : ℕ)
  | cycling
  deriving DecidableEq, Repr

structure System where
  master : Master
  place : Place
  deriving DecidableEq, Repr

/-- The master before it has workers. -/
def initial : System where
  master := ⟨[], 0, false, false, false, .suspended false, [], []⟩
  place := .choosing 0

/-- The loop for a slot: the first free one, or the one behind the last. -/
def freeSlot (m : Master) : ℕ :=
  (m.processes.take m.lastProcess).findIdx fun p => p.pid = none

/-- The end of `night_spawn_process` in the master. -/
def record (m : Master) (slot pid : ℕ) : Master :=
  { m with
    processes := m.processes.take slot ++ spawned pid :: m.processes.drop (slot + 1)
    lastProcess := if slot = m.lastProcess then m.lastProcess + 1 else m.lastProcess }

/-- A worker cannot be started, or is forked and then entered in the table; all workers were
started; and what happens in the cycle. -/
inductive Act where
  | fail
  | fork (pid : ℕ)
  | record
  | cycle
  | master (act : MasterCycle.Act)
  deriving DecidableEq, Repr

/-- Signals, and workers that exit, while others are started. -/
def meanwhile (m : Master) : MasterCycle.Act → Option Master
  | .chld => some (handleChld m)
  | .workerExit pid =>
      if pid ∈ m.running then
        some { m with running := m.running.erase pid, zombies := m.zombies ++ [pid] }
      else none
  | _ => none

/-- A step, where `workers` are to be started. -/
def step (workers : ℕ) (s : System) : Act → Option System
  | .fail =>
      match s.place with
      | .choosing worker =>
          if worker < workers then some { s with place := .choosing (worker + 1) } else none
      | _ => none
  | .fork pid =>
      match s.place with
      | .choosing worker =>
          if worker < workers ∧ freeSlot s.master < nightMaxProcesses ∧
              pid ∉ s.master.running ∧ pid ∉ s.master.zombies then
            some ⟨{ s.master with running := s.master.running ++ [pid] },
              .forked worker (freeSlot s.master) pid⟩
          else none
      | _ => none
  | .record =>
      match s.place with
      | .forked worker slot pid => some ⟨record s.master slot pid, .choosing (worker + 1)⟩
      | _ => none
  | .cycle =>
      match s.place with
      | .choosing worker =>
          if worker < workers then none
          else some ⟨{ s.master with pc := .suspended false }, .cycling⟩
      | _ => none
  | .master act =>
      match s.place with
      | .cycling => (MasterCycle.step s.master act).map fun m => ⟨m, .cycling⟩
      | place => (meanwhile s.master act).map fun m => ⟨m, place⟩

/-! ## Entries that count as alive -/

variable {m m' : Master} {k pid : ℕ}

/-- The entry of a child, in use and not marked as exited. -/
def Live (m : Master) (k pid : ℕ) : Prop :=
  k < m.lastProcess ∧ ∃ p, m.processes[k]? = some p ∧ p.pid = some pid ∧ p.exited = false

theorem live_congr (hprocesses : m'.processes = m.processes)
    (hlast : m'.lastProcess = m.lastProcess) : Live m' k pid ↔ Live m k pid := by
  rw [Live, Live, hprocesses, hlast]

/-- The loop of `night_reap_children` removes entries that do not count as alive. -/
theorem live_reapOne {i : ℕ} {live : Bool} (hlast : i < m.lastProcess) :
    Live (reapOne m i live) k pid ↔ Live m k pid := by
  obtain ⟨_, heq⟩ | ⟨p, last, hp, hexited, hlast', heq⟩ | ⟨_, _, _, _, heq⟩ |
    ⟨_, _, _, _, _, heq⟩ := reapOne_cases hlast live
  · rw [heq]
    exact live_congr rfl rfl
  · rw [heq, Live, Live]
    by_cases hk : i = k
    · subst hk
      constructor
      · rintro ⟨_, q, hq, hpid, _⟩
        obtain ⟨hlength, _⟩ := List.getElem?_eq_some_iff.mp hp
        rw [List.getElem?_set_self hlength] at hq
        cases hq
        cases hpid
      · rintro ⟨_, q, hq, _, halive⟩
        rw [hp] at hq
        cases hq
        rw [hexited] at halive
        cases halive
    · rw [List.getElem?_set_ne hk]
      have hbound : k < last ↔ k < m.lastProcess := by
        omega
      rw [hbound]
  · rw [heq]
    exact live_congr rfl rfl
  · rw [heq]
    exact live_congr rfl rfl

/-- The loop of `night_signal_worker_processes` marks entries as exiting only. -/
theorem live_signalOne (m : Master) (signo : Signo) (i : ℕ) (answered : Bool) :
    Live (signalOne m signo i answered) k pid ↔ Live m k pid := by
  obtain heq | ⟨p, hp, heq⟩ := signalOne_cases m signo i answered
  · rw [heq]
    exact live_congr rfl rfl
  · rw [heq, Live, Live]
    by_cases hk : i = k
    · subst hk
      obtain ⟨hlength, _⟩ := List.getElem?_eq_some_iff.mp hp
      rw [List.getElem?_set_self hlength, hp]
      simp
    · rw [List.getElem?_set_ne hk]

theorem live_advance {answered : Bool} (hstep : advance m answered = some m') :
    Live m' k pid ↔ Live m k pid := by
  unfold advance at hstep
  split at hstep
  case h_5 i live _ =>
    cases hstep
    by_cases hlast : i < m.lastProcess
    · rw [if_pos hlast]
      exact live_reapOne hlast
    · rw [if_neg hlast]
      exact live_congr rfl rfl
  case h_9 signo i _ =>
    cases hstep
    by_cases hlast : i < m.lastProcess
    · rw [if_pos hlast]
      exact live_signalOne m signo i answered
    · rw [if_neg hlast]
      exact live_congr rfl rfl
  all_goals cases hstep
  all_goals exact live_congr rfl rfl

/-- What `night_process_get_status` does to the entry with a number. -/
theorem getElem?_markExited (pid n : ℕ) (processes : List Process) (k : ℕ) :
    (markExited pid n processes)[k]? = processes[k]? ∨
      ∃ p, processes[k]? = some p ∧ p.pid = some pid ∧
        (markExited pid n processes)[k]? = some { p with exited := true } := by
  induction processes generalizing n k with
  | nil => cases n <;> exact .inl rfl
  | cons p processes ih =>
      cases n with
      | zero => exact .inl rfl
      | succ n =>
          rw [markExited]
          split
          · rename_i hpid
            cases k with
            | zero => exact .inr ⟨p, rfl, hpid, rfl⟩
            | succ k => exact .inl rfl
          · cases k with
            | zero => exact .inl rfl
            | succ k => exact ih n k

/-- An entry that counts as alive did so before, and stays alive unless its child was waited
for. -/
theorem live_handleChld (m : Master) (k pid : ℕ) :
    (Live (handleChld m) k pid → Live m k pid) ∧
      (pid ∉ m.zombies → Live m k pid → Live (handleChld m) k pid) := by
  have hfold (zombies : List ℕ) (processes : List Process) :
      let marked := zombies.foldl (fun table z => markExited z m.lastProcess table) processes
      ((∃ p, marked[k]? = some p ∧ p.pid = some pid ∧ p.exited = false) →
          ∃ p, processes[k]? = some p ∧ p.pid = some pid ∧ p.exited = false) ∧
        (pid ∉ zombies → (∃ p, processes[k]? = some p ∧ p.pid = some pid ∧ p.exited = false) →
          ∃ p, marked[k]? = some p ∧ p.pid = some pid ∧ p.exited = false) := by
    induction zombies generalizing processes with
    | nil => exact ⟨id, fun _ => id⟩
    | cons z zombies ih =>
        obtain ⟨hback, hkeep⟩ := ih (markExited z m.lastProcess processes)
        obtain hsame | ⟨p, hp, hpid, hmarked⟩ :=
          getElem?_markExited z m.lastProcess processes k
        · rw [hsame] at hback hkeep
          exact ⟨hback, fun hmem => hkeep fun h => hmem (List.mem_cons_of_mem _ h)⟩
        · constructor
          · intro hlive
            obtain ⟨q, hq, _, halive⟩ := hback hlive
            rw [hmarked] at hq
            cases hq
            cases halive
          · rintro hmem ⟨q, hq, hqpid, _⟩
            rw [hp] at hq
            cases hq
            rw [hpid] at hqpid
            cases hqpid
            exact absurd List.mem_cons_self hmem
  obtain ⟨hback, hkeep⟩ := hfold m.zombies m.processes
  exact ⟨fun hlive => ⟨hlive.1, hback hlive.2⟩,
    fun hmem hlive => ⟨hlive.1, hkeep hmem hlive.2⟩⟩

/-! ## Children -/

/-- What a step of the master, a signal or an exit does to the children and their entries. -/
structure Accounts (m m' : Master) : Prop where
  running : ∀ pid ∈ m'.running, pid ∈ m.running
  zombies : ∀ pid ∈ m'.zombies, pid ∈ m.running ∨ pid ∈ m.zombies
  nodup : (m.running ++ m.zombies).Nodup → (m'.running ++ m'.zombies).Nodup
  back : ∀ {k pid}, Live m' k pid → Live m k pid
  keeps : ∀ {k pid}, Live m k pid → (pid ∈ m.zombies → pid ∈ m'.zombies) → Live m' k pid
  length : m'.processes.length = m.processes.length
  last : m'.lastProcess ≤ m.lastProcess

/-- A table that no child leaves. -/
theorem accounts_of_live (hrunning : m'.running = m.running) (hzombies : m'.zombies = m.zombies)
    (hlive : ∀ k pid, Live m' k pid ↔ Live m k pid)
    (hlength : m'.processes.length = m.processes.length)
    (hlast : m'.lastProcess ≤ m.lastProcess) : Accounts m m' where
  running := by simp [hrunning]
  zombies := by
    rw [hzombies]
    exact fun _ => .inr
  nodup := by
    rw [hrunning, hzombies]
    exact id
  back := (hlive _ _).mp
  keeps hbefore _ := (hlive _ _).mpr hbefore
  length := hlength
  last := hlast

theorem advance_frame {answered : Bool} (hstep : advance m answered = some m') :
    m'.running = m.running ∧ m'.zombies = m.zombies ∧
      m'.processes.length = m.processes.length ∧ m'.lastProcess ≤ m.lastProcess := by
  unfold advance at hstep
  split at hstep
  case h_5 i live _ =>
    cases hstep
    by_cases hlast : i < m.lastProcess
    · rw [if_pos hlast]
      obtain ⟨_, heq⟩ | ⟨p, last, _, _, hlast', heq⟩ | ⟨_, _, _, _, heq⟩ |
        ⟨_, _, _, _, _, heq⟩ := reapOne_cases hlast live
      · simp [heq]
      · rw [heq]
        refine ⟨rfl, rfl, List.length_set, ?_⟩
        show last ≤ m.lastProcess
        omega
      · simp [heq]
      · simp [heq]
    · simp [if_neg hlast]
  case h_9 signo i _ =>
    cases hstep
    by_cases hlast : i < m.lastProcess
    · rw [if_pos hlast]
      obtain heq | ⟨_, _, heq⟩ := signalOne_cases m signo i answered <;> simp [heq]
    · simp [if_neg hlast]
  all_goals cases hstep
  all_goals exact ⟨rfl, rfl, rfl, Nat.le_refl _⟩

theorem length_handleChld (m : Master) :
    (handleChld m).processes.length = m.processes.length := by
  have hpids := congrArg List.length (handleChld_pids m)
  simpa [Master.pids] using hpids

/-- `SIGCHLD` waits for every child that has exited. -/
theorem accounts_chld (m : Master) (pc : Pc) : Accounts m { handleChld m with pc := pc } where
  running _ hpid := hpid
  zombies _ hpid := by cases hpid
  nodup hnodup := by
    have hrunning : m.running.Nodup := (List.nodup_append.mp hnodup).1
    show (m.running ++ []).Nodup
    rwa [List.append_nil]
  back hlive := (live_handleChld m _ _).1 hlive
  keeps hlive hzombie := (live_handleChld m _ _).2 (fun hmem => by cases hzombie hmem) hlive
  length := length_handleChld m
  last := Nat.le_refl _

theorem accounts_workerExit {z : ℕ} (hz : z ∈ m.running) :
    Accounts m { m with running := m.running.erase z, zombies := m.zombies ++ [z] } where
  running _ hpid := List.mem_of_mem_erase hpid
  zombies pid hpid := by
    obtain hpid | hpid := List.mem_append.mp hpid
    · exact .inr hpid
    · rw [List.mem_singleton.mp hpid]
      exact .inl hz
  nodup hnodup := by
    have hperm : (m.running.erase z ++ (m.zombies ++ [z])).Perm (m.running ++ m.zombies) := by
      calc m.running.erase z ++ (m.zombies ++ [z])
        _ = m.running.erase z ++ m.zombies ++ [z] := (List.append_assoc ..).symm
        _ |>.Perm ([z] ++ (m.running.erase z ++ m.zombies)) := List.perm_append_comm
        _ |>.Perm (m.running ++ m.zombies) :=
            (List.perm_cons_erase hz).symm.append_right m.zombies
    exact hperm.nodup_iff.mpr hnodup
  back hlive := hlive
  keeps hlive _ := hlive
  length := rfl
  last := Nat.le_refl _

theorem accounts_step {act : MasterCycle.Act} (hstep : MasterCycle.step m act = some m') :
    Accounts m m' := by
  cases act with
  | advance answered =>
      obtain ⟨hrunning, hzombies, hlength, hlast⟩ := advance_frame hstep
      exact accounts_of_live hrunning hzombies (fun _ _ => live_advance hstep) hlength hlast
  | chld =>
      rw [MasterCycle.step] at hstep
      split at hstep
      · cases hstep
      · cases hstep
        exact accounts_chld m _
  | term | quit | int =>
      rw [MasterCycle.step] at hstep
      split at hstep
      · cases hstep
        exact accounts_of_live rfl rfl (fun _ _ => live_congr rfl rfl) rfl (Nat.le_refl _)
      · cases hstep
  | workerExit pid =>
      rw [MasterCycle.step] at hstep
      split at hstep
      · rename_i hmem
        cases hstep
        exact accounts_workerExit hmem
      · cases hstep

theorem accounts_meanwhile {act : MasterCycle.Act} (hstep : meanwhile m act = some m') :
    Accounts m m' := by
  cases act with
  | chld =>
      cases hstep
      exact accounts_chld m m.pc
  | workerExit pid =>
      rw [meanwhile] at hstep
      split at hstep
      · rename_i hmem
        cases hstep
        exact accounts_workerExit hmem
      · cases hstep
  | advance | term | quit | int => cases hstep

/-! ## What the cycle knows -/

/-- An entry in use belongs to the master. -/
def Attached (m : Master) : Prop := ∀ p ∈ m.processes, p.pid ≠ none → p.detached = false

theorem attached_handleChld (hattached : Attached m) : Attached (handleChld m) := by
  have hfold (zombies : List ℕ) (processes : List Process)
      (hprocesses : ∀ p ∈ processes, p.pid ≠ none → p.detached = false) :
      ∀ p ∈ zombies.foldl (fun table z => markExited z m.lastProcess table) processes,
        p.pid ≠ none → p.detached = false := by
    induction zombies generalizing processes with
    | nil => exact hprocesses
    | cons z zombies ih =>
        refine ih _ fun p hp hpid => ?_
        obtain ⟨q, hq, rfl | rfl⟩ := mem_markExited hp
        · exact hprocesses p hq hpid
        · exact hprocesses q hq hpid
  exact hfold m.zombies m.processes hattached

theorem attached_advance {answered : Bool} (hattached : Attached m)
    (hstep : advance m answered = some m') : Attached m' := by
  have hset {p : Process} {i : ℕ} (hp : p.pid ≠ none → p.detached = false) :
      ∀ q ∈ m.processes.set i p, q.pid ≠ none → q.detached = false := by
    intro q hq
    obtain hq | rfl := List.mem_or_eq_of_mem_set hq
    · exact hattached q hq
    · exact hp
  unfold advance at hstep
  split at hstep
  case h_5 i live _ =>
    cases hstep
    by_cases hlast : i < m.lastProcess
    · rw [if_pos hlast]
      obtain ⟨_, heq⟩ | ⟨p, last, _, _, _, heq⟩ | ⟨_, _, _, _, heq⟩ | ⟨_, _, _, _, _, heq⟩ :=
        reapOne_cases hlast live
      · rw [heq]
        exact hattached
      · rw [heq]
        exact hset fun hpid => absurd rfl hpid
      · rw [heq]
        exact hattached
      · rw [heq]
        exact hattached
    · rw [if_neg hlast]
      exact hattached
  case h_9 signo i _ =>
    cases hstep
    by_cases hlast : i < m.lastProcess
    · rw [if_pos hlast]
      obtain heq | ⟨p, hp, heq⟩ := signalOne_cases m signo i answered
      · rw [heq]
        exact hattached
      · rw [heq]
        exact hset (hattached p (List.mem_of_getElem? hp))
    · rw [if_neg hlast]
      exact hattached
  all_goals cases hstep
  all_goals exact hattached

/-- Where the cycle takes no worker for alive there is none behind the loop over the entries,
and where it exits there is none at all. -/
def Behind (m : Master) : Prop :=
  match m.pc with
  | .reaping i live => live = false → ∀ k < i, ∀ pid, ¬ Live m k pid
  | .testExit live => live = false → ∀ k pid, ¬ Live m k pid
  | .exited => ∀ k pid, ¬ Live m k pid
  | _ => True

theorem behind_congr (hpc : m'.pc = m.pc) (hlive : ∀ k pid, Live m' k pid → Live m k pid)
    (hbehind : Behind m) : Behind m' := by
  unfold Behind at hbehind ⊢
  rw [hpc]
  split at hbehind
  · exact fun hfalse k hk pid h => hbehind hfalse k hk pid (hlive k pid h)
  · exact fun hfalse k pid h => hbehind hfalse k pid (hlive k pid h)
  · exact fun k pid h => hbehind k pid (hlive k pid h)
  · trivial

theorem behind_reapOne {i : ℕ} {live : Bool} (hattached : Attached m) (hlast : i < m.lastProcess)
    (hbehind : live = false → ∀ k < i, ∀ pid, ¬ Live m k pid) : Behind (reapOne m i live) := by
  -- the entry `i` joins those behind the loop
  have hnext (hfalse : live = false) (hi : ∀ p, m.processes[i]? = some p → p.pid ≠ none →
      p.exited = true) : ∀ k < i + 1, ∀ pid, ¬ Live (reapOne m i live) k pid := by
    intro k hk pid hlive
    have hbefore : Live m k pid := (live_reapOne hlast).mp hlive
    obtain hk | rfl := Nat.lt_succ_iff_lt_or_eq.mp hk
    · exact hbehind hfalse k hk pid hbefore
    · obtain ⟨_, p, hp, hpid, halive⟩ := hbefore
      have hexited := hi p hp (by rw [hpid]; simp)
      rw [halive] at hexited
      cases hexited
  obtain ⟨hnone, heq⟩ | ⟨p, last, hp, hexited, _, heq⟩ | ⟨p, _, _, _, heq⟩ |
    ⟨p, hp, hpid, _, hdetached, _⟩ := reapOne_cases hlast live
  · have hpc : (reapOne m i live).pc = .reaping (i + 1) live := by rw [heq]
    unfold Behind
    rw [hpc]
    exact fun hfalse => hnext hfalse fun p hp hpid => absurd (hnone p hp) hpid
  · have hpc : (reapOne m i live).pc = .reaping (i + 1) live := by rw [heq]
    unfold Behind
    rw [hpc]
    refine fun hfalse => hnext hfalse fun q hq _ => ?_
    rw [hp] at hq
    cases hq
    exact hexited
  · rw [heq]
    exact fun hfalse => by cases hfalse
  · have hfalse := hattached p (List.mem_of_getElem? hp) hpid
    rw [hdetached] at hfalse
    cases hfalse

theorem behind_advance {answered : Bool} (hattached : Attached m) (hbehind : Behind m)
    (hstep : advance m answered = some m') : Behind m' := by
  have hlive (k pid : ℕ) : Live m' k pid → Live m k pid := (live_advance hstep).mp
  unfold Behind at hbehind
  unfold advance at hstep
  split at hstep
  case h_3 hpc =>
    cases hstep
    by_cases hreap : m.reap = true
    · rw [if_pos hreap]
      trivial
    · rw [if_neg hreap]
      exact fun hfalse => by cases hfalse
  case h_4 hpc =>
    cases hstep
    exact fun _ k hk => by cases hk
  case h_5 i live hpc =>
    rw [hpc] at hbehind
    cases hstep
    by_cases hlast : i < m.lastProcess
    · rw [if_pos hlast]
      exact behind_reapOne hattached hlast hbehind
    · rw [if_neg hlast]
      intro hfalse k pid hk
      exact hbehind hfalse k (Nat.lt_of_lt_of_le hk.1 (Nat.le_of_not_lt hlast)) pid hk
  case h_6 live hpc =>
    rw [hpc] at hbehind
    cases hstep
    unfold Behind
    split
    · rename_i i live' heq
      split at heq <;> cases heq
    · rename_i live' heq
      split at heq <;> cases heq
    · rename_i heq
      have hfalse : live = false := by
        cases live with
        | false => rfl
        | true => simp at heq
      exact hbehind hfalse
    · trivial
  case h_7 hpc =>
    cases hstep
    unfold Behind
    split <;> first | trivial | (rename_i heq; split at heq <;> cases heq)
  case h_8 hpc =>
    cases hstep
    unfold Behind
    split <;> first | trivial | (rename_i heq; split at heq <;> cases heq)
  case h_9 signo i hpc =>
    cases hstep
    by_cases hlast : i < m.lastProcess
    · rw [if_pos hlast]
      obtain heq | ⟨_, _, heq⟩ := signalOne_cases m signo i answered <;> rw [heq] <;> trivial
    · rw [if_neg hlast]
      trivial
  all_goals cases hstep
  all_goals trivial

/-! ## Every child has an entry -/

/-- What holds in the whole life of the master. -/
structure Kept (s : System) : Prop where
  length : s.master.lastProcess ≤ s.master.processes.length
  bound : s.master.lastProcess ≤ nightMaxProcesses
  attached : Attached s.master
  children : (s.master.running ++ s.master.zombies).Nodup
  recorded : ∀ pid ∈ s.master.running ++ s.master.zombies,
    (∃ k, Live s.master k pid) ∨ ∃ worker slot, s.place = .forked worker slot pid
  free : ∀ worker slot pid, s.place = .forked worker slot pid →
    slot < nightMaxProcesses ∧ slot ≤ s.master.lastProcess ∧ ∀ pid, ¬ Live s.master slot pid
  behind : s.place = .cycling → Behind s.master

theorem kept_initial : Kept initial where
  length := Nat.le_refl _
  bound := Nat.zero_le _
  attached p hp := by cases hp
  children := List.nodup_nil
  recorded pid hpid := by cases hpid
  free worker slot pid hplace := by cases hplace
  behind hplace := by cases hplace

/-- A child that is still there after a step keeps its entry. -/
theorem Accounts.recorded {s : System} (haccounts : Accounts s.master m') (hkept : Kept s) :
    ∀ pid ∈ m'.running ++ m'.zombies,
      (∃ k, Live m' k pid) ∨ ∃ worker slot, s.place = .forked worker slot pid := by
  intro pid hpid
  have hbefore : pid ∈ s.master.running ++ s.master.zombies := by
    obtain hpid | hpid := List.mem_append.mp hpid
    · exact List.mem_append_left _ (haccounts.running pid hpid)
    · exact List.mem_append.mpr (haccounts.zombies pid hpid)
  obtain ⟨k, hlive⟩ | hforked := hkept.recorded pid hbefore
  · refine .inl ⟨k, haccounts.keeps hlive fun hzombie => ?_⟩
    obtain hpid | hpid := List.mem_append.mp hpid
    · have hdisjoint := (List.nodup_append.mp hkept.children).2.2
      exact absurd rfl (hdisjoint pid (haccounts.running pid hpid) pid hzombie)
    · exact hpid
  · exact .inr hforked

/-- The slot that the loop chooses is in use by no child. -/
theorem freeSlot_spec (m : Master) :
    freeSlot m ≤ m.lastProcess ∧ ∀ pid, ¬ Live m (freeSlot m) pid := by
  have hle : freeSlot m ≤ (m.processes.take m.lastProcess).length := List.findIdx_le_length
  rw [List.length_take] at hle
  refine ⟨by omega, ?_⟩
  rintro pid ⟨hlast, p, hp, hpid, _⟩
  have hlength : freeSlot m < (m.processes.take m.lastProcess).length := by
    obtain ⟨hlength, _⟩ := List.getElem?_eq_some_iff.mp hp
    rw [List.length_take]
    omega
  have hfound := List.findIdx_getElem (w := hlength)
  have hsame : (m.processes.take m.lastProcess)[freeSlot m] = p := by
    rw [List.getElem_take]
    exact (List.getElem?_eq_some_iff.mp hp).2
  have hnone : p.pid = none := by
    have : decide ((m.processes.take m.lastProcess)[freeSlot m].pid = none) = true := hfound
    rw [hsame] at this
    exact of_decide_eq_true this
  rw [hpid] at hnone
  cases hnone

/-- The entry of the new worker, and those of the others. -/
theorem live_record {slot new : ℕ} (hslot : slot ≤ m.lastProcess)
    (hlength : m.lastProcess ≤ m.processes.length) :
    Live (record m slot new) k pid ↔
      (k = slot ∧ pid = new) ∨ (k ≠ slot ∧ Live m k pid) := by
  have hlast : (record m slot new).lastProcess =
      if slot = m.lastProcess then m.lastProcess + 1 else m.lastProcess := rfl
  have htake : (m.processes.take slot).length = slot := by
    rw [List.length_take]
    omega
  have hentry : (record m slot new).processes[k]? =
      if k < slot then m.processes[k]?
      else if k = slot then some (spawned new) else m.processes[k]? := by
    show (m.processes.take slot ++ spawned new :: m.processes.drop (slot + 1))[k]? = _
    rw [List.getElem?_append, htake]
    by_cases hbefore : k < slot
    · rw [if_pos hbefore, if_pos hbefore, List.getElem?_take, if_pos hbefore]
    · rw [if_neg hbefore, if_neg hbefore]
      by_cases hsame : k = slot
      · rw [if_pos hsame, hsame, Nat.sub_self, List.getElem?_cons_zero]
      · obtain ⟨j, rfl⟩ : ∃ j, k = slot + 1 + j := ⟨k - (slot + 1), by omega⟩
        rw [if_neg hsame, show slot + 1 + j - slot = j + 1 by omega, List.getElem?_cons_succ,
          List.getElem?_drop]
  by_cases hsame : k = slot
  · subst hsame
    rw [Live, hentry, if_neg (Nat.lt_irrefl k), if_pos rfl, hlast]
    constructor
    · rintro ⟨_, p, hp, hpid, _⟩
      cases hp
      exact .inl ⟨rfl, (Option.some.inj hpid).symm⟩
    · rintro (⟨_, rfl⟩ | ⟨hne, _⟩)
      · exact ⟨by split <;> omega, spawned pid, rfl, rfl, rfl⟩
      · exact absurd rfl hne
  · have hsameEntry : (record m slot new).processes[k]? = m.processes[k]? := by
      rw [hentry, if_neg hsame, ite_self]
    have hbound : k < (record m slot new).lastProcess ↔ k < m.lastProcess := by
      rw [hlast]
      split <;> omega
    rw [Live, Live, hsameEntry, hbound]
    simp [hsame]

theorem kept_record {s : System} {worker slot new : ℕ} (hkept : Kept s)
    (hplace : s.place = .forked worker slot new) :
    Kept ⟨record s.master slot new, .choosing (worker + 1)⟩ := by
  obtain ⟨hbound, hslot, hfree⟩ := hkept.free worker slot new hplace
  have hlength := hkept.length
  have hmax := hkept.bound
  have hcount : (record s.master slot new).processes.length =
      max s.master.processes.length (slot + 1) := by
    show (_ ++ _ :: _ : List Process).length = _
    simp only [List.length_append, List.length_take, List.length_cons, List.length_drop]
    omega
  constructor
  · show (if slot = s.master.lastProcess then _ else _) ≤ _
    rw [hcount]
    split <;> omega
  · show (if slot = s.master.lastProcess then _ else _) ≤ _
    split <;> omega
  · intro p hp hpid
    obtain hp | hp := List.mem_append.mp hp
    · exact hkept.attached p (List.mem_of_mem_take hp) hpid
    · obtain rfl | hp := List.mem_cons.mp hp
      · rfl
      · exact hkept.attached p (List.mem_of_mem_drop hp) hpid
  · exact hkept.children
  · intro pid hpid
    left
    obtain ⟨k, hlive⟩ | ⟨worker', slot', hforked⟩ := hkept.recorded pid hpid
    · refine ⟨k, (live_record hslot hlength).mpr (.inr ⟨?_, hlive⟩)⟩
      rintro rfl
      exact hfree pid hlive
    · rw [hplace] at hforked
      cases hforked
      exact ⟨slot, (live_record hslot hlength).mpr (.inl ⟨rfl, rfl⟩)⟩
  · intro worker' slot' pid hforked
    cases hforked
  · intro hcycling
    cases hcycling

theorem kept_fork {s : System} {worker new : ℕ} (hkept : Kept s)
    (hplace : s.place = .choosing worker) (hslot : freeSlot s.master < nightMaxProcesses)
    (hrunning : new ∉ s.master.running) (hzombies : new ∉ s.master.zombies) :
    Kept ⟨{ s.master with running := s.master.running ++ [new] },
      .forked worker (freeSlot s.master) new⟩ where
  length := hkept.length
  bound := hkept.bound
  attached := hkept.attached
  children := by
    have hperm : ((s.master.running ++ [new]) ++ s.master.zombies).Perm
        (new :: (s.master.running ++ s.master.zombies)) := by
      rw [List.append_assoc]
      exact List.perm_middle
    refine hperm.nodup_iff.mpr (List.nodup_cons.mpr ⟨?_, hkept.children⟩)
    simp [hrunning, hzombies]
  recorded := by
    intro pid hpid
    by_cases hnew : pid = new
    · exact .inr ⟨worker, freeSlot s.master, by rw [hnew]⟩
    · have hbefore : pid ∈ s.master.running ++ s.master.zombies := by
        simpa [hnew] using hpid
      obtain hlive | ⟨worker', slot', hforked⟩ := hkept.recorded pid hbefore
      · exact .inl hlive
      · rw [hplace] at hforked
        cases hforked
  free := by
    intro worker' slot' pid hforked
    cases hforked
    obtain ⟨hle, hfree⟩ := freeSlot_spec s.master
    exact ⟨hslot, hle, hfree⟩
  behind hcycling := by cases hcycling

/-- Signals and exits while workers are started keep what is known. -/
theorem kept_meanwhile {s : System} {act : MasterCycle.Act} (hkept : Kept s)
    (hplace : s.place ≠ .cycling) (hstep : meanwhile s.master act = some m') :
    Kept ⟨m', s.place⟩ := by
  have haccounts := accounts_meanwhile hstep
  have hlast : m'.lastProcess = s.master.lastProcess ∧ (Attached s.master → Attached m') := by
    cases act with
    | chld =>
        cases hstep
        exact ⟨rfl, attached_handleChld⟩
    | workerExit pid =>
        rw [meanwhile] at hstep
        split at hstep
        · cases hstep
          exact ⟨rfl, id⟩
        · cases hstep
    | advance | term | quit | int => cases hstep
  constructor
  · show m'.lastProcess ≤ m'.processes.length
    rw [hlast.1, haccounts.length]
    exact hkept.length
  · show m'.lastProcess ≤ nightMaxProcesses
    rw [hlast.1]
    exact hkept.bound
  · exact hlast.2 hkept.attached
  · exact haccounts.nodup hkept.children
  · exact haccounts.recorded hkept
  · intro worker slot pid hforked
    obtain ⟨hslot, hle, hfree⟩ := hkept.free worker slot pid hforked
    refine ⟨hslot, ?_, fun q hlive => hfree q (haccounts.back hlive)⟩
    show slot ≤ m'.lastProcess
    rwa [hlast.1]
  · exact fun hcycling => absurd hcycling hplace

theorem attached_step {act : MasterCycle.Act} (hattached : Attached m)
    (hstep : MasterCycle.step m act = some m') : Attached m' := by
  cases act with
  | advance answered => exact attached_advance hattached hstep
  | chld =>
      rw [MasterCycle.step] at hstep
      split at hstep
      · cases hstep
      · cases hstep
        exact attached_handleChld hattached
  | term | quit | int | workerExit =>
      rw [MasterCycle.step] at hstep
      split at hstep
      · cases hstep
        exact hattached
      · cases hstep

theorem behind_step {act : MasterCycle.Act} (hattached : Attached m) (hbehind : Behind m)
    (hstep : MasterCycle.step m act = some m') : Behind m' := by
  have hback (k pid : ℕ) : Live m' k pid → Live m k pid := (accounts_step hstep).back
  cases act with
  | advance answered => exact behind_advance hattached hbehind hstep
  | workerExit pid =>
      rw [MasterCycle.step] at hstep
      split at hstep
      · cases hstep
        exact behind_congr rfl hback hbehind
      · cases hstep
  | chld =>
      rw [MasterCycle.step] at hstep
      split at hstep
      · cases hstep
      · cases hstep
        by_cases hpc : m.pc.isSuspended = true
        · obtain ⟨caught, hpc⟩ := isSuspended_iff.mp hpc
          unfold Behind
          simp only [hpc, Pc.caught]
        · exact behind_congr (caught_of_not_suspended hpc) hback hbehind
  | term | quit =>
      rw [MasterCycle.step] at hstep
      split at hstep
      · rename_i hpc
        obtain ⟨caught, hpc⟩ := isSuspended_iff.mp hpc
        cases hstep
        unfold Behind
        simp only [hpc, Pc.caught]
      · cases hstep
  | int =>
      rw [MasterCycle.step] at hstep
      split at hstep
      · cases hstep
        trivial
      · cases hstep

theorem kept_cycling {s : System} {act : MasterCycle.Act} (hkept : Kept s)
    (hplace : s.place = .cycling) (hstep : MasterCycle.step s.master act = some m') :
    Kept ⟨m', .cycling⟩ := by
  have haccounts := accounts_step hstep
  have hrecorded := haccounts.recorded hkept
  rw [hplace] at hrecorded
  constructor
  · show m'.lastProcess ≤ m'.processes.length
    rw [haccounts.length]
    exact Nat.le_trans haccounts.last hkept.length
  · exact Nat.le_trans haccounts.last hkept.bound
  · exact attached_step hkept.attached hstep
  · exact haccounts.nodup hkept.children
  · exact hrecorded
  · intro worker slot pid hforked
    cases hforked
  · exact fun _ => behind_step hkept.attached (hkept.behind hplace) hstep

variable {workers : ℕ} {s s' : System}

theorem kept_step {act : Act} (hkept : Kept s) (hstep : step workers s act = some s') :
    Kept s' := by
  cases act with
  | fail =>
      rw [step] at hstep
      split at hstep
      · rename_i worker hplace
        split at hstep
        · cases hstep
          refine ⟨hkept.length, hkept.bound, hkept.attached, hkept.children, ?_, nofun, nofun⟩
          intro pid hpid
          obtain hlive | ⟨worker', slot', hforked⟩ := hkept.recorded pid hpid
          · exact .inl hlive
          · rw [hplace] at hforked
            cases hforked
        · cases hstep
      · cases hstep
  | fork new =>
      rw [step] at hstep
      split at hstep
      · rename_i worker hplace
        split at hstep
        · rename_i hcan
          obtain ⟨_, hslot, hrunning, hzombies⟩ := hcan
          cases hstep
          exact kept_fork hkept hplace hslot hrunning hzombies
        · cases hstep
      · cases hstep
  | record =>
      rw [step] at hstep
      split at hstep
      · rename_i worker slot new hplace
        cases hstep
        exact kept_record hkept hplace
      · cases hstep
  | cycle =>
      rw [step] at hstep
      split at hstep
      · rename_i worker hplace
        split at hstep
        · cases hstep
        · cases hstep
          refine ⟨hkept.length, hkept.bound, hkept.attached, hkept.children, ?_, nofun, ?_⟩
          · intro pid hpid
            obtain hlive | ⟨worker', slot', hforked⟩ := hkept.recorded pid hpid
            · exact .inl hlive
            · rw [hplace] at hforked
              cases hforked
          · exact fun _ => trivial
      · cases hstep
  | master act =>
      rw [step] at hstep
      split at hstep
      · rename_i hplace
        obtain ⟨m', hm', rfl⟩ := Option.map_eq_some_iff.mp hstep
        exact kept_cycling hkept hplace hm'
      · rename_i hplace
        obtain ⟨m', hm', rfl⟩ := Option.map_eq_some_iff.mp hstep
        exact kept_meanwhile hkept hplace hm'

/-- All runs. -/
abbrev Reachable (workers : ℕ) (s : System) : Prop :=
  Reached (step workers) (fun _ _ => True) initial s

theorem Reachable.kept (hreachable : Reachable workers s) : Kept s :=
  hreachable.invariant kept_initial fun _ _ _ hkept _ hstep => kept_step hkept hstep

/-- However signals, exits and new workers come together, a child that runs or was not waited
for has an entry of its own that counts as alive, or is about to get one in a slot that no
child uses; and the table is not overrun. -/
theorem child_recorded (hreachable : Reachable workers s) :
    s.master.lastProcess ≤ nightMaxProcesses ∧
      (∀ pid ∈ s.master.running ++ s.master.zombies,
        (∃ k, Live s.master k pid) ∨ ∃ worker slot, s.place = .forked worker slot pid) ∧
      ∀ worker slot pid, s.place = .forked worker slot pid →
        slot < nightMaxProcesses ∧ ∀ other, ¬ Live s.master slot other :=
  ⟨hreachable.kept.bound, hreachable.kept.recorded, fun worker slot pid hforked =>
    ⟨(hreachable.kept.free worker slot pid hforked).1,
      (hreachable.kept.free worker slot pid hforked).2.2⟩⟩

/-- The master exits only when no worker runs and every one was waited for. -/
theorem exits_alone (hreachable : Reachable workers s) (hplace : s.place = .cycling)
    (hpc : s.master.pc = .exited) : s.master.running = [] ∧ s.master.zombies = [] := by
  have hkept := hreachable.kept
  have hbehind := hkept.behind hplace
  unfold Behind at hbehind
  rw [hpc] at hbehind
  have hnil : s.master.running ++ s.master.zombies = [] := by
    rw [List.eq_nil_iff_forall_not_mem]
    intro pid hpid
    obtain ⟨k, hlive⟩ | ⟨worker, slot, hforked⟩ := hkept.recorded pid hpid
    · exact hbehind k pid hlive
    · rw [hplace] at hforked
      cases hforked
  exact List.append_eq_nil_iff.mp hnil

/-- One worker, which exits when the master is told to terminate. -/
def oneWorker : List Act :=
  [.fork 7, .record, .cycle, .master .term] ++ List.replicate 6 (.master (.advance true)) ++
    [.master (.workerExit 7), .master .chld] ++ List.replicate 6 (.master (.advance true))

def oneWorkerEnd : System where
  master := ⟨[⟨none, true, true, true⟩], 0, false, true, false, .exited, [], []⟩
  place := .cycling

theorem reachable_oneWorker : Reachable 1 oneWorkerEnd :=
  Reached.start.run (fun _ _ _ => trivial) (show run (step 1) oneWorker initial = _ by decide)

theorem exits_alone_oneWorker :
    oneWorkerEnd.master.running = [] ∧ oneWorkerEnd.master.zombies = [] :=
  exits_alone reachable_oneWorker rfl rfl

/-- The worker has its entry. -/
def recordedOne : System where
  master := ⟨[spawned 7], 1, false, false, false, .suspended false, [7], []⟩
  place := .choosing 1

theorem child_recorded_oneWorker : ∃ k, Live recordedOne.master k 7 := by
  have hreachable : Reachable 1 recordedOne :=
    Reached.start.run (fun _ _ _ => trivial)
      (show run (step 1) [.fork 7, .record] initial = _ by decide)
  obtain hlive | ⟨worker, slot, hforked⟩ := (child_recorded hreachable).2.1 7 (by decide)
  · exact hlive
  · cases hforked

/-! ## When the master can exit -/

/-- The system gives out no pid that the table still names. -/
def Unused (s : System) (act : Act) : Prop :=
  ∀ pid, act = .fork pid → some pid ∉ s.master.pids

/-- Entries in use have different pids and stand in front of `night_last_process`. -/
structure Distinct (m : Master) : Prop where
  pairwise : m.pids.Pairwise fun left right => left = right → left = none
  beyond : ∀ pid ∈ m.pids.drop m.lastProcess, pid = none

/-- The table with its own pids for children. -/
theorem Distinct.sound (hdistinct : Distinct m) (hattached : Attached m) :
    Sound { m with running := m.pids.filterMap id } where
  distinct := hdistinct.pairwise
  beyond := hdistinct.beyond
  known p hp pid hpid _ := by
    left
    rw [List.mem_filterMap]
    refine ⟨some pid, ?_, rfl⟩
    rw [← hpid]
    exact List.mem_map_of_mem hp
  attached := hattached

theorem Distinct.congr (hdistinct : Distinct m) (hpids : m'.pids = m.pids)
    (hlast : m'.lastProcess = m.lastProcess) : Distinct m' := by
  constructor
  · rw [hpids]
    exact hdistinct.pairwise
  · rw [hpids, hlast]
    exact hdistinct.beyond

theorem distinct_advance {answered : Bool} (hdistinct : Distinct m) (hattached : Attached m)
    (hstep : advance m answered = some m') : Distinct m' := by
  unfold advance at hstep
  split at hstep
  case h_5 i live _ =>
    cases hstep
    by_cases hlast : i < m.lastProcess
    · rw [if_pos hlast]
      obtain ⟨_, heq⟩ | ⟨p, last, hp, _, hlast', heq⟩ | ⟨_, _, _, _, heq⟩ |
        ⟨_, _, _, _, _, heq⟩ := reapOne_cases hlast live
      · rw [heq]
        exact hdistinct.congr rfl rfl
      · rw [heq]
        have hsound := @Sound.remove _ (hdistinct.sound hattached) p i last .testReap hp hlast
          hlast'
        exact ⟨hsound.distinct, hsound.beyond⟩
      · rw [heq]
        exact hdistinct.congr rfl rfl
      · rw [heq]
        exact hdistinct.congr rfl rfl
    · rw [if_neg hlast]
      exact hdistinct.congr rfl rfl
  case h_9 signo i _ =>
    cases hstep
    by_cases hlast : i < m.lastProcess
    · rw [if_pos hlast]
      obtain heq | ⟨p, hp, heq⟩ := signalOne_cases m signo i answered
      · rw [heq]
        exact hdistinct.congr rfl rfl
      · rw [heq]
        exact hdistinct.congr (set_exiting_pids hp) rfl
    · rw [if_neg hlast]
      exact hdistinct.congr rfl rfl
  all_goals cases hstep
  all_goals exact hdistinct.congr rfl rfl

theorem distinct_cycle {act : MasterCycle.Act} (hdistinct : Distinct m) (hattached : Attached m)
    (hstep : MasterCycle.step m act = some m') : Distinct m' := by
  cases act with
  | advance answered => exact distinct_advance hdistinct hattached hstep
  | chld =>
      rw [MasterCycle.step] at hstep
      split at hstep
      · cases hstep
      · cases hstep
        exact hdistinct.congr (handleChld_pids m) rfl
  | term | quit | int | workerExit =>
      rw [MasterCycle.step] at hstep
      split at hstep
      · cases hstep
        exact hdistinct.congr rfl rfl
      · cases hstep

/-- Pids in the table, and that of the worker that is about to get its entry. -/
structure DistinctPids (s : System) : Prop where
  table : Distinct s.master
  new : ∀ worker slot pid, s.place = .forked worker slot pid → some pid ∉ s.master.pids

theorem distinct_record {slot new : ℕ} (hdistinct : Distinct m) (hslot : slot ≤ m.lastProcess)
    (hlength : m.lastProcess ≤ m.pids.length) (hnew : some new ∉ m.pids) :
    Distinct (record m slot new) := by
  have hpids : (record m slot new).pids =
      m.pids.take slot ++ some new :: m.pids.drop (slot + 1) := by
    show (m.processes.take slot ++ spawned new :: m.processes.drop (slot + 1)).map (·.pid) = _
    rw [List.map_append, List.map_cons, List.map_take, List.map_drop]
    rfl
  constructor
  · rw [hpids]
    have hrest : (m.pids.take slot ++ m.pids.drop (slot + 1)).Pairwise
        fun left right => left = right → left = none := by
      refine hdistinct.pairwise.sublist ?_
      conv_rhs => rw [← List.take_append_drop slot m.pids]
      refine List.Sublist.append_left ?_ _
      rw [← List.drop_drop, List.drop_one]
      exact List.tail_sublist _
    obtain ⟨htake, hdrop, hacross⟩ := List.pairwise_append.mp hrest
    refine List.pairwise_append.mpr ⟨htake, List.pairwise_cons.mpr ⟨?_, hdrop⟩, ?_⟩
    · intro pid hpid heq
      rw [← heq] at hpid
      exact absurd (List.mem_of_mem_drop hpid) hnew
    · intro left hleft right hright heq
      obtain rfl | hright := List.mem_cons.mp hright
      · rw [heq] at hleft
        exact absurd (List.mem_of_mem_take hleft) hnew
      · exact hacross left hleft right hright heq
  · -- behind the last entry the list is as before
    have htake : (m.pids.take slot).length = slot := by
      rw [List.length_take]
      omega
    obtain ⟨j, hlast, hgrown⟩ : ∃ j, (record m slot new).lastProcess = slot + (j + 1) ∧
        m.lastProcess ≤ slot + 1 + j := by
      by_cases hsame : slot = m.lastProcess
      · refine ⟨0, ?_, by omega⟩
        show (if slot = m.lastProcess then m.lastProcess + 1 else m.lastProcess) = _
        rw [if_pos hsame, hsame]
      · refine ⟨m.lastProcess - slot - 1, ?_, by omega⟩
        show (if slot = m.lastProcess then m.lastProcess + 1 else m.lastProcess) = _
        rw [if_neg hsame]
        omega
    intro pid hpid
    rw [hpids, hlast, List.drop_append, htake, Nat.add_sub_cancel_left, List.drop_succ_cons,
      List.drop_drop, List.drop_of_length_le (by omega), List.nil_append] at hpid
    exact hdistinct.beyond pid ((List.drop_subset_drop_left m.pids hgrown) hpid)

/-- No step gives two entries in use one pid. -/
theorem distinctPids_step {act : Act} (hkept : Kept s) (hdistinct : DistinctPids s)
    (hunused : Unused s act) (hstep : step workers s act = some s') : DistinctPids s' := by
  cases act with
  | fail =>
      rw [step] at hstep
      split at hstep
      · split at hstep
        · cases hstep
          exact ⟨hdistinct.table, fun _ _ _ hforked => by cases hforked⟩
        · cases hstep
      · cases hstep
  | fork new =>
      rw [step] at hstep
      split at hstep
      · split at hstep
        · cases hstep
          refine ⟨hdistinct.table.congr rfl rfl, ?_⟩
          intro worker slot pid hforked
          cases hforked
          exact hunused new rfl
        · cases hstep
      · cases hstep
  | record =>
      rw [step] at hstep
      split at hstep
      · rename_i worker slot new hplace
        cases hstep
        have hslot := (hkept.free worker slot new hplace).2.1
        have hlength : s.master.lastProcess ≤ s.master.pids.length := by
          simpa [Master.pids] using hkept.length
        exact ⟨distinct_record hdistinct.table hslot hlength
          (hdistinct.new worker slot new hplace), fun _ _ _ hforked => by cases hforked⟩
      · cases hstep
  | cycle =>
      rw [step] at hstep
      split at hstep
      · split at hstep
        · cases hstep
        · cases hstep
          exact ⟨hdistinct.table.congr rfl rfl, fun _ _ _ hforked => by cases hforked⟩
      · cases hstep
  | master act =>
      rw [step] at hstep
      split at hstep
      · obtain ⟨m', hm', rfl⟩ := Option.map_eq_some_iff.mp hstep
        exact ⟨distinct_cycle hdistinct.table hkept.attached hm',
          fun _ _ _ hforked => by cases hforked⟩
      · obtain ⟨m', hm', rfl⟩ := Option.map_eq_some_iff.mp hstep
        cases act with
        | chld =>
            cases hm'
            refine ⟨hdistinct.table.congr (handleChld_pids _) rfl, ?_⟩
            intro worker slot pid hforked
            show some pid ∉ (handleChld s.master).pids
            rw [handleChld_pids]
            exact hdistinct.new worker slot pid hforked
        | workerExit pid =>
            rw [meanwhile] at hm'
            split at hm'
            · cases hm'
              exact ⟨hdistinct.table.congr rfl rfl, hdistinct.new⟩
            · cases hm'
        | advance | term | quit | int => cases hm'

theorem kept_distinct (hreached : Reached (step workers) Unused initial s) :
    Kept s ∧ DistinctPids s := by
  induction hreached with
  | start => exact ⟨kept_initial, ⟨List.Pairwise.nil, nofun⟩, nofun⟩
  | step _ hunused hstep ih =>
      obtain ⟨hkept, hdistinct⟩ := ih
      exact ⟨kept_step hkept hstep, distinctPids_step hkept hdistinct hunused hstep⟩

/-- Steps of the master in its cycle, with signals and exits. -/
abbrev Cycles (m m' : Master) : Prop := Reached MasterCycle.step (fun _ _ => True) m m'

theorem Cycles.next {m'' : Master} {act : MasterCycle.Act} (hcycles : Cycles m m')
    (hstep : MasterCycle.step m' act = some m'') : Cycles m m'' :=
  Reached.step hcycles trivial hstep

theorem Cycles.system (hcycles : Cycles m m') :
    Reached (step workers) (fun _ _ => True) ⟨m, .cycling⟩ ⟨m', .cycling⟩ := by
  induction hcycles with
  | start => exact .start
  | @step m' m'' act _ _ hstep ih =>
      have hact : step workers ⟨m', .cycling⟩ (.master act) = some ⟨m'', .cycling⟩ := by
        simp only [step, hstep, Option.map_some]
      exact .step ih trivial hact

/-- An entry that counts as alive in the cycle, and whose child is gone. -/
structure Lost (k pid : ℕ) (s : System) : Prop where
  cycling : s.place = .cycling
  live : Live s.master k pid
  running : pid ∉ s.master.running
  zombies : pid ∉ s.master.zombies

/-- Such an entry counts as alive for ever. -/
theorem Lost.stays (hlost : Lost k pid s)
    (hreached : Reached (step workers) (fun _ _ => True) s s') : Lost k pid s' := by
  refine hreached.invariant hlost ?_
  rintro ⟨m, place⟩ act s' hlost _ hstep
  cases hlost.cycling
  cases act with
  | fail | fork | record | cycle => cases hstep
  | master act =>
      obtain ⟨m', hm', rfl⟩ := Option.map_eq_some_iff.mp hstep
      have haccounts := accounts_step hm'
      exact ⟨rfl, haccounts.keeps hlost.live fun hmem => absurd hmem hlost.zombies,
        fun hmem => hlost.running (haccounts.running pid hmem),
        fun hmem => (haccounts.zombies pid hmem).elim hlost.running hlost.zombies⟩

theorem cycles_allExit (m : Master) :
    Cycles m { m with running := [], zombies := m.zombies ++ m.running } := by
  obtain ⟨processes, lastProcess, reap, terminate, quit, pc, running, zombies⟩ := m
  induction running generalizing zombies with
  | nil =>
      rw [List.append_nil]
      exact .start
  | cons pid running ih =>
      have hexit : MasterCycle.step
          ⟨processes, lastProcess, reap, terminate, quit, pc, pid :: running, zombies⟩
          (.workerExit pid) =
          some ⟨processes, lastProcess, reap, terminate, quit, pc, running,
            zombies ++ [pid]⟩ := by
        simp [MasterCycle.step]
      have hrest := ih (zombies ++ [pid])
      rw [List.append_assoc] at hrest
      have hfirst : Cycles
          ⟨processes, lastProcess, reap, terminate, quit, pc, pid :: running, zombies⟩ _ :=
        Cycles.next .start hexit
      exact hfirst.trans hrest

/-- With no entry that counts as alive the loop of `night_reap_children` finds none. -/
theorem alone_reaping {m : Master} {i : ℕ} (hpc : m.pc = .reaping i false)
    (hattached : Attached m) (hnone : ∀ k pid, ¬ Live m k pid) :
    ∃ m', Alone m m' ∧ m'.pc = .testExit false ∧ m'.terminate = m.terminate ∧
      m'.quit = m.quit := by
  generalize hcount : m.lastProcess - i = count
  induction count generalizing m i with
  | zero =>
      have hstep : advance m true = some { m with pc := .testExit false } := by
        simp only [advance, hpc]
        rw [if_neg (by omega)]
      exact ⟨_, Alone.next .start hstep, rfl, rfl, rfl⟩
  | succ count ih =>
      have hlast : i < m.lastProcess := by omega
      have hstep : advance m true = some (reapOne m i false) := by
        simp only [advance, hpc]
        rw [if_pos hlast]
      have hfirst : Alone m (reapOne m i false) := Alone.next .start hstep
      have hnext : (reapOne m i false).pc = .reaping (i + 1) false ∧
          (reapOne m i false).terminate = m.terminate ∧ (reapOne m i false).quit = m.quit ∧
          (reapOne m i false).lastProcess - (i + 1) = count := by
        obtain ⟨_, heq⟩ | ⟨p, last, _, _, hlast', heq⟩ | ⟨p, hp, hpid, halive, _⟩ |
          ⟨p, hp, hpid, halive, _, _⟩ := reapOne_cases hlast false
        · rw [heq]
          exact ⟨rfl, rfl, rfl, by simp only; omega⟩
        · rw [heq]
          exact ⟨rfl, rfl, rfl, by simp only; omega⟩
        all_goals
          obtain ⟨pid, hpid⟩ := Option.ne_none_iff_exists'.mp hpid
          exact absurd ⟨hlast, p, hp, hpid, halive⟩ (hnone i pid)
      obtain ⟨hpc', hterminate, hquit, hcount'⟩ := hnext
      obtain ⟨m', halone, hend, hsame, hsame'⟩ := ih hpc' (attached_advance hattached hstep)
        (fun k pid hlive => hnone k pid ((live_reapOne hlast).mp hlive)) hcount'
      exact ⟨m', hfirst.trans halone, hend, hsame.trans hterminate, hsame'.trans hquit⟩

/-- With no entry that counts as alive the master ends when it is told to. -/
theorem alone_exited {m : Master} (hpc : m.pc = .suspended true) (hreap : m.reap = true)
    (hending : m.Ending) (hattached : Attached m) (hnone : ∀ k pid, ¬ Live m k pid) :
    ∃ m', Alone m m' ∧ m'.pc = .exited := by
  have htest : advance m true = some { m with pc := .testReap } := by
    simp only [advance, hpc]
  have hclear : advance { m with pc := .testReap } true = some { m with pc := .clearReap } := by
    simp only [advance, hreap, if_true]
  have hloop : advance { m with pc := .clearReap } true =
      some { m with reap := false, pc := .reaping 0 false } := rfl
  have hbegin : Alone m { m with reap := false, pc := .reaping 0 false } :=
    ((Alone.next .start htest).next hclear).next hloop
  obtain ⟨middle, hreaping, hend, hterminate, hquit⟩ :=
    @alone_reaping { m with reap := false, pc := .reaping 0 false } 0 rfl hattached hnone
  have hexit : advance middle true = some { middle with pc := .exited } := by
    have hasked : middle.terminate = true ∨ middle.quit = true := by
      rw [hterminate, hquit]
      exact hending
    simp [advance, hend, hasked]
  exact ⟨_, Alone.next (hbegin.trans hreaping) hexit, rfl⟩

/-- With all children gone `SIGCHLD` leaves no entry that counts as alive. -/
theorem not_live_handleChld (hsound : Sound m) (hrunning : m.running = []) (k pid : ℕ) :
    ¬ Live (handleChld m) k pid := by
  rintro ⟨_, p, hp, hpid, halive⟩
  obtain hmem | hmem := hsound.handleChld.known p (List.mem_of_getElem? hp) pid hpid halive
  · have hmem : pid ∈ m.running := hmem
    rw [hrunning] at hmem
    cases hmem
  · cases hmem

/-- When the last children are waited for the master ends, if it was told to. -/
theorem alone_waited (hsound : Sound m) (hrunning : m.running = []) (hending : m.Ending) :
    ∃ m', Alone { handleChld m with pc := .suspended true } m' ∧ m'.pc = .exited := by
  have hattached : Attached { handleChld m with pc := .suspended true } :=
    hsound.handleChld.attached
  have hnone := not_live_handleChld hsound hrunning
  have hasked : Master.Ending { handleChld m with pc := .suspended true } := hending
  exact alone_exited rfl rfl hasked hattached hnone

/-- When every worker that counts as alive is a child, they exit and the master after them. -/
theorem cycles_end {m : Master} {caught : Bool} (hpc : m.pc = .suspended caught)
    (hdistinct : Distinct m) (hattached : Attached m)
    (hknown : ∀ k pid, Live m k pid → pid ∈ m.running ∨ pid ∈ m.zombies) :
    ∃ m', Cycles m m' ∧ m'.pc = .exited := by
  have hgone := cycles_allExit m
  have hsound : Sound { m with running := [], zombies := m.zombies ++ m.running } := by
    refine ⟨hdistinct.pairwise, hdistinct.beyond, ?_, hattached⟩
    intro p hp pid hpid halive
    obtain ⟨k, hk⟩ := List.mem_iff_getElem?.mp hp
    have hlast : k < m.lastProcess := by
      by_contra hbeyond
      have hmem : p.pid ∈ m.pids.drop m.lastProcess := by
        refine List.mem_iff_getElem?.mpr ⟨k - m.lastProcess, ?_⟩
        rw [List.getElem?_drop, Nat.add_sub_cancel' (Nat.le_of_not_lt hbeyond), Master.pids,
          List.getElem?_map, hk]
        rfl
      rw [hdistinct.beyond p.pid hmem] at hpid
      cases hpid
    refine .inr (List.mem_append.mpr ?_)
    exact (hknown k pid ⟨hlast, p, hk, hpid, halive⟩).symm
  have hterm : MasterCycle.step { m with running := [], zombies := m.zombies ++ m.running } .term =
      some { m with
        running := [], zombies := m.zombies ++ m.running, terminate := true
        pc := .suspended true } := by
    simp [MasterCycle.step, hpc, Pc.isSuspended, Pc.caught, handleTerm]
  have htold : Sound { m with
      running := [], zombies := m.zombies ++ m.running, terminate := true
      pc := .suspended true } := hsound.congr rfl rfl rfl rfl
  obtain ⟨m', halone, hend⟩ := alone_waited htold rfl (.inl rfl)
  have hasked := (hgone.next hterm).next (show MasterCycle.step _ .chld = some _ from rfl)
  exact ⟨m', hasked.trans (halone.weaken fun _ _ _ => trivial), hend⟩

/-- In `sigsuspend` the master can still come to its end exactly when no worker was waited for
before it had its entry. -/
theorem exits_iff {caught : Bool} (hreached : Reached (step workers) Unused initial s)
    (hplace : s.place = .cycling) (hpc : s.master.pc = .suspended caught) :
    (∃ s', Reached (step workers) (fun _ _ => True) s s' ∧ s'.place = .cycling ∧
        s'.master.pc = .exited) ↔
      ∀ k pid, Live s.master k pid → pid ∈ s.master.running ∨ pid ∈ s.master.zombies := by
  have hreachable : Reachable workers s := hreached.weaken fun _ _ _ => trivial
  constructor
  · rintro ⟨s', hrun, hplace', hexited⟩ k pid hlive
    by_contra hlost
    obtain ⟨hrunning, hzombies⟩ := not_or.mp hlost
    have hstays := (Lost.mk hplace hlive hrunning hzombies).stays hrun
    have hbehind := (Reachable.kept (hreachable.trans hrun)).behind hplace'
    unfold Behind at hbehind
    rw [hexited] at hbehind
    exact hbehind k pid hstays.live
  · intro hknown
    obtain ⟨master, place⟩ := s
    cases hplace
    have hdistinct : DistinctPids ⟨master, .cycling⟩ := (kept_distinct hreached).2
    obtain ⟨m', hcycles, hend⟩ :=
      cycles_end hpc hdistinct.table hreachable.kept.attached hknown
    exact ⟨⟨m', .cycling⟩, hcycles.system, rfl, hend⟩

/-- The only worker exits and is waited for before it is in the table. -/
theorem exits_iff_hasty : ¬ ∃ s', Reached (step 1) (fun _ _ => True)
    ⟨⟨[spawned 7], 1, true, false, false, .suspended false, [], []⟩, .cycling⟩ s' ∧
      s'.place = .cycling ∧ s'.master.pc = .exited := by
  have hreached : Reached (step 1) Unused initial
      ⟨⟨[spawned 7], 1, true, false, false, .suspended false, [], []⟩, .cycling⟩ := by
    have hfork : Reached (step 1) Unused initial
        ⟨⟨[], 0, false, false, false, .suspended false, [7], []⟩, .forked 0 0 7⟩ :=
      .step .start (show Unused initial (.fork 7) from nofun) (by decide)
    have hrest : run (step 1) [.master (.workerExit 7), .master .chld, .record, .cycle]
        ⟨⟨[], 0, false, false, false, .suspended false, [7], []⟩, .forked 0 0 7⟩ =
        some ⟨⟨[spawned 7], 1, true, false, false, .suspended false, [], []⟩, .cycling⟩ := by
      decide
    exact hfork.run (by simp [Unused]) hrest
  intro hexits
  have hknown := (exits_iff hreached rfl rfl).mp hexits 0 7 ⟨by decide, spawned 7, rfl, rfl, rfl⟩
  simp at hknown

end Night.Spawn
