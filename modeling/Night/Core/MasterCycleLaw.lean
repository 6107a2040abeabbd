import Night.Core.MasterCycle

/-!
# When the master exits

Two invariants of the cycle, for workers that `night_reap_children` removed and for workers
that were waited for.  Each says for every place of the cycle what is known there once the
master is to end and no worker is left.
-/

namespace Night.MasterCycle

open Night.Runs

variable {m m' : Master} {act : Act}

/-! ## The loops -/

/-- What the loop of `night_reap_children` does with a slot: nothing, or the worker is
removed, or it counts as alive, or it was let go before. -/
theorem reapOne_cases {m : Master} {i : ℕ} (hlast : i < m.lastProcess) (live : Bool) :
    ((∀ p, m.processes[i]? = some p → p.pid = none) ∧
        reapOne m i live = { m with pc := .reaping (i + 1) live }) ∨
      (∃ p last, m.processes[i]? = some p ∧ p.exited = true ∧
        (last = m.lastProcess ∨ (i + 1 = m.lastProcess ∧ last = i)) ∧
        reapOne m i live = { m with
          processes := m.processes.set i { p with pid := none, detached := true }
          lastProcess := last
          pc := .reaping (i + 1) live }) ∨
      (∃ p, m.processes[i]? = some p ∧ p.pid ≠ none ∧ p.exited = false ∧
        reapOne m i live = { m with pc := .reaping (i + 1) true }) ∨
      ∃ p, m.processes[i]? = some p ∧ p.pid ≠ none ∧ p.exited = false ∧ p.detached = true ∧
        reapOne m i live = { m with pc := .reaping (i + 1) live } := by
  unfold reapOne
  split
  · rename_i hnone
    exact Or.inl ⟨fun p hp => by simp [hnone] at hp, rfl⟩
  · rename_i p hp
    split
    · rename_i hpid
      refine Or.inl ⟨fun q hq => ?_, rfl⟩
      rw [hp] at hq
      cases hq
      exact hpid
    · rename_i hpid
      split
      · rename_i hexited
        refine Or.inr (Or.inl ⟨p, _, hp, hexited, ?_, rfl⟩)
        split <;> omega
      · rename_i hexited
        have hexited : p.exited = false := by simpa using hexited
        split
        · exact Or.inr (Or.inr (Or.inl ⟨p, hp, hpid, hexited, rfl⟩))
        · rename_i hlive
          have hdetached : p.detached = true := by
            simp only [Bool.or_eq_true, not_or, Bool.not_eq_true', Bool.not_eq_false] at hlive
            exact hlive.2
          exact Or.inr (Or.inr (Or.inr ⟨p, hp, hpid, hexited, hdetached, rfl⟩))

/-- The loop of `night_signal_worker_processes` marks a slot or leaves it. -/
theorem signalOne_cases (m : Master) (signo : Signo) (i : ℕ) (answered : Bool) :
    signalOne m signo i answered = { m with pc := .signalling signo (i + 1) } ∨
      ∃ p, m.processes[i]? = some p ∧
        signalOne m signo i answered = { m with
          processes := m.processes.set i { p with exiting := true }
          pc := .signalling signo (i + 1) } := by
  unfold signalOne
  split
  · exact Or.inl rfl
  · rename_i p hp
    split
    · exact Or.inl rfl
    · split
      · exact Or.inl rfl
      · split
        · exact Or.inr ⟨p, hp, rfl⟩
        · exact Or.inl rfl

/-! ## Pids -/

/-- The pids of the table. -/
def Master.pids (m : Master) : List (Option ℕ) := m.processes.map (·.pid)

theorem allReaped_iff : m.AllReaped ↔ ∀ pid ∈ m.pids, pid = none := by
  simp [Master.AllReaped, Master.pids]

theorem markExited_pids (pid n : ℕ) (processes : List Process) :
    (markExited pid n processes).map (·.pid) = processes.map (·.pid) := by
  induction processes generalizing n with
  | nil => cases n <;> rfl
  | cons p processes ih =>
      cases n with
      | zero => rfl
      | succ n =>
          rw [markExited]
          split
          · rfl
          · rw [List.map_cons, ih, List.map_cons]

theorem handleChld_pids (m : Master) : (handleChld m).pids = m.pids := by
  have hfold (zombies : List ℕ) (processes : List Process) :
      (zombies.foldl (fun table pid => markExited pid m.lastProcess table) processes).map (·.pid) =
        processes.map (·.pid) := by
    induction zombies generalizing processes with
    | nil => rfl
    | cons pid zombies ih => exact (ih _).trans (markExited_pids ..)
  exact hfold m.zombies m.processes

theorem set_exiting_pids {p : Process} {i : ℕ} (hp : m.processes[i]? = some p) :
    (m.processes.set i { p with exiting := true }).map (·.pid) = m.pids := by
  obtain ⟨hlt, rfl⟩ := List.getElem?_eq_some_iff.mp hp
  have hlength : i < (m.processes.map (·.pid)).length := by simpa using hlt
  rw [List.map_set, Master.pids]
  conv_rhs => rw [← List.set_getElem_self hlength]
  rw [List.getElem_map]

/-- A signal, and a worker that exits, leave the pids alone. -/
theorem allReaped_congr (hpids : m'.pids = m.pids) : m'.AllReaped ↔ m.AllReaped := by
  rw [allReaped_iff, allReaped_iff, hpids]

/-! ## Workers that were removed -/

/-- What is known once the master is to end and every worker is removed. -/
def KnowsReaped (m : Master) : Prop :=
  match m.pc with
  | .suspended true | .testReap => m.Ending → m.AllReaped → m.reap = true
  | .clearReap | .exited | .killed => True
  | .reaping i live => live = true → ∃ pid ∈ m.pids.take i, pid ≠ none
  | .testExit live => live = true → m.Ending → ¬ m.AllReaped
  | .suspended false | .testTerminate | .testQuit | .signalling _ _ =>
      m.Ending → ¬ m.AllReaped

theorem take_succ_pids {p : Process} {i : ℕ} (hp : m.processes[i]? = some p) :
    m.pids.take (i + 1) = m.pids.take i ++ [p.pid] := by
  have hpid : m.pids[i]? = some p.pid := by
    rw [Master.pids, List.getElem?_map, hp]
    rfl
  rw [List.take_add_one, hpid]
  rfl

/-- The slots in front of the one that is emptied are as before. -/
theorem take_set_pids (m : Master) (p : Process) (i : ℕ) :
    ((m.processes.set i { p with pid := none, detached := true }).map (·.pid)).take i =
      m.pids.take i := by
  rw [List.map_set, List.take_set_of_le (Nat.le_refl i)]
  rfl

theorem knowsReaped_reapOne {i : ℕ} {live : Bool} (hlast : i < m.lastProcess)
    (hknows : live = true → ∃ pid ∈ m.pids.take i, pid ≠ none) :
    KnowsReaped (reapOne m i live) := by
  have hsub (pids : List (Option ℕ)) : pids.take i ⊆ pids.take (i + 1) :=
    List.take_subset_take_left pids (Nat.le_succ i)
  obtain ⟨_, heq⟩ | ⟨p, last, hp, _, _, heq⟩ | ⟨p, hp, hpid, _, heq⟩ | ⟨p, hp, hpid, _, _, heq⟩ :=
    reapOne_cases hlast live
  · rw [heq]
    intro hlive
    obtain ⟨pid, hmem, hne⟩ := hknows hlive
    exact ⟨pid, hsub _ hmem, hne⟩
  · rw [heq]
    intro hlive
    obtain ⟨pid, hmem, hne⟩ := hknows hlive
    refine ⟨pid, hsub _ ?_, hne⟩
    rw [← take_set_pids m p i] at hmem
    exact hmem
  · rw [heq]
    intro _
    refine ⟨p.pid, ?_, hpid⟩
    change p.pid ∈ m.pids.take (i + 1)
    rw [take_succ_pids hp]
    exact List.mem_append_right _ List.mem_cons_self
  · rw [heq]
    intro hlive
    obtain ⟨pid, hmem, hne⟩ := hknows hlive
    exact ⟨pid, hsub _ hmem, hne⟩

theorem knowsReaped_advance {answered : Bool} (hknows : KnowsReaped m)
    (hstep : advance m answered = some m') : KnowsReaped m' := by
  unfold KnowsReaped at hknows
  unfold advance at hstep
  split at hstep
  · cases hstep
  · rename_i hpc
    rw [hpc] at hknows
    cases hstep
    exact hknows
  · rename_i hpc
    rw [hpc] at hknows
    cases hstep
    by_cases hreap : m.reap = true
    · simp [KnowsReaped, hreap]
    · simp only [KnowsReaped, hreap]
      intro _ hending hall
      exact hreap (hknows hending hall)
  · cases hstep
    intro hlive
    cases hlive
  · rename_i i live hpc
    rw [hpc] at hknows
    cases hstep
    by_cases hlast : i < m.lastProcess
    · rw [if_pos hlast]
      exact knowsReaped_reapOne hlast hknows
    · rw [if_neg hlast]
      intro hlive _ hall
      obtain ⟨pid, hmem, hne⟩ := hknows hlive
      exact hne (allReaped_iff.mp hall pid (List.mem_of_mem_take hmem))
  · rename_i live hpc
    rw [hpc] at hknows
    cases hstep
    split
    · trivial
    · rename_i hstays
      intro hending hall
      cases live with
      | false => exact hstays (by simpa [Master.Ending] using hending)
      | true => exact hknows rfl hending hall
  · rename_i hpc
    rw [hpc] at hknows
    cases hstep
    split
    · exact hknows
    · exact hknows
  · rename_i hpc
    rw [hpc] at hknows
    cases hstep
    split
    · exact hknows
    · exact hknows
  · rename_i signo i hpc
    rw [hpc] at hknows
    cases hstep
    by_cases hlast : i < m.lastProcess
    · rw [if_pos hlast]
      obtain heq | ⟨p, hp, heq⟩ := signalOne_cases m signo i answered
      · rw [heq]
        exact hknows
      · rw [heq]
        intro hending hall
        have hpids := allReaped_iff.mp hall
        rw [Master.pids, set_exiting_pids hp] at hpids
        exact hknows hending (allReaped_iff.mpr hpids)
    · rw [if_neg hlast]
      exact hknows
  · cases hstep
  · cases hstep

theorem knowsReaped_congr (hpc : m'.pc = m.pc) (hpids : m'.pids = m.pids)
    (hending : m'.Ending ↔ m.Ending) (hreap : m.reap = true → m'.reap = true)
    (hknows : KnowsReaped m) : KnowsReaped m' := by
  unfold KnowsReaped at hknows ⊢
  rw [hpc]
  split at hknows
  all_goals simp only [hpids, hending, allReaped_congr hpids]
  · exact fun hend hall => hreap (hknows hend hall)
  · exact fun hend hall => hreap (hknows hend hall)
  all_goals exact hknows

theorem isSuspended_iff {pc : Pc} : pc.isSuspended = true ↔ ∃ caught, pc = .suspended caught := by
  cases pc <;> simp [Pc.isSuspended]

theorem caught_of_not_suspended {pc : Pc} (hpc : ¬ pc.isSuspended = true) : pc.caught = pc := by
  cases pc <;> simp_all [Pc.isSuspended, Pc.caught]

/-- A signal that asks the master to end, in `sigsuspend`. -/
theorem knowsReaped_caught (hpc : m'.pc = .suspended true)
    (honTime : ¬ m'.AllReaped ∨ m'.reap = true) : KnowsReaped m' := by
  unfold KnowsReaped
  rw [hpc]
  exact fun _ hall => honTime.resolve_left (not_not_intro hall)

theorem knowsReaped_step (hknows : KnowsReaped m) (hallowed : OnTime m act)
    (hstep : step m act = some m') : KnowsReaped m' := by
  cases act with
  | advance answered => exact knowsReaped_advance hknows hstep
  | chld =>
      rw [step] at hstep
      split at hstep
      · cases hstep
      · cases hstep
        by_cases hpc : m.pc.isSuspended = true
        · obtain ⟨caught, hpc⟩ := isSuspended_iff.mp hpc
          apply knowsReaped_caught
          · rw [hpc]
            rfl
          · exact Or.inr rfl
        · exact knowsReaped_congr (caught_of_not_suspended hpc) (handleChld_pids m) Iff.rfl
            (fun _ => rfl) hknows
  | term | quit =>
      rw [step] at hstep
      split at hstep
      · rename_i hpc
        obtain ⟨caught, hpc⟩ := isSuspended_iff.mp hpc
        cases hstep
        apply knowsReaped_caught
        · rw [hpc]
          rfl
        · exact hallowed (by simp)
      · cases hstep
  | int =>
      rw [step] at hstep
      split at hstep
      · cases hstep
        trivial
      · cases hstep
  | workerExit pid =>
      rw [step] at hstep
      split at hstep
      · cases hstep
        exact hknows
      · cases hstep

/-! ## The table and the children -/

/-- A worker in the table has one slot, in front of `night_last_process`; it belongs to the
master, and it runs, or is to be waited for, or its slot says that it exited. -/
structure Sound (m : Master) : Prop where
  distinct : m.pids.Pairwise fun left right => left = right → left = none
  beyond : ∀ pid ∈ m.pids.drop m.lastProcess, pid = none
  known : ∀ p ∈ m.processes, ∀ pid, p.pid = some pid → p.exited = false →
    pid ∈ m.running ∨ pid ∈ m.zombies
  attached : ∀ p ∈ m.processes, p.pid ≠ none → p.detached = false

theorem pairwise_set_none {pids : List (Option ℕ)}
    (hdistinct : pids.Pairwise fun left right => left = right → left = none) (i : ℕ) :
    (pids.set i none).Pairwise fun left right => left = right → left = none := by
  induction pids generalizing i with
  | nil => exact List.Pairwise.nil
  | cons pid pids ih =>
      obtain ⟨hhead, htail⟩ := List.pairwise_cons.mp hdistinct
      cases i with
      | zero => exact List.pairwise_cons.mpr ⟨fun _ _ _ => rfl, htail⟩
      | succ i =>
          refine List.pairwise_cons.mpr ⟨fun other hmem heq => ?_, ih htail i⟩
          obtain hmem | rfl := List.mem_or_eq_of_mem_set hmem
          · exact hhead other hmem heq
          · exact heq

theorem sound_start {pids : List ℕ} (hpids : pids.Nodup) : Sound (start pids) where
  distinct := by
    have hmap : (start pids).pids = pids.map some := by
      simp [Master.pids, start, spawned]
    rw [hmap, List.pairwise_map]
    exact hpids.imp fun hne heq => absurd (Option.some.inj heq) hne
  beyond := by
    have hdrop : (start pids).pids.drop (start pids).lastProcess = [] := by
      simp [Master.pids, start]
    simp [hdrop]
  known := by
    intro p hp pid hpid _
    obtain ⟨pid', hmem, rfl⟩ := List.mem_map.mp hp
    cases hpid
    exact Or.inl hmem
  attached := by
    intro p hp _
    obtain ⟨pid, _, rfl⟩ := List.mem_map.mp hp
    rfl

/-- The table after a slot was emptied. -/
theorem Sound.remove (hsound : Sound m) {p : Process} {i last : ℕ} {pc : Pc}
    (hp : m.processes[i]? = some p) (hlt : i < m.lastProcess)
    (hlast : last = m.lastProcess ∨ (i + 1 = m.lastProcess ∧ last = i)) :
    Sound { m with
      processes := m.processes.set i { p with pid := none, detached := true }
      lastProcess := last
      pc := pc } where
  distinct := by
    rw [Master.pids, List.map_set]
    exact pairwise_set_none hsound.distinct i
  beyond := by
    rw [Master.pids, List.map_set]
    obtain rfl | ⟨hnext, rfl⟩ := hlast
    · rw [List.drop_set_of_lt hlt]
      exact hsound.beyond
    · obtain ⟨hlength, _⟩ := List.getElem?_eq_some_iff.mp hp
      have hlength : last < (m.processes.map (·.pid)).length := by simpa using hlength
      rw [List.drop_set, if_neg (Nat.lt_irrefl last), List.drop_eq_getElem_cons hlength,
        Nat.sub_self, List.set_cons_zero, hnext]
      intro pid hmem
      obtain rfl | hmem := List.mem_cons.mp hmem
      · rfl
      · exact hsound.beyond pid hmem
  known := by
    intro q hq pid hpid hexited
    obtain hq | rfl := List.mem_or_eq_of_mem_set hq
    · exact hsound.known q hq pid hpid hexited
    · cases hpid
  attached := by
    intro q hq hpid
    obtain hq | rfl := List.mem_or_eq_of_mem_set hq
    · exact hsound.attached q hq hpid
    · exact absurd rfl hpid

theorem Sound.mark (hsound : Sound m) {p : Process} {i : ℕ} {pc : Pc}
    (hp : m.processes[i]? = some p) :
    Sound { m with processes := m.processes.set i { p with exiting := true }, pc := pc } where
  distinct := by
    rw [Master.pids, set_exiting_pids hp]
    exact hsound.distinct
  beyond := by
    rw [Master.pids, set_exiting_pids hp]
    exact hsound.beyond
  known := by
    intro q hq pid hpid hexited
    obtain hq | rfl := List.mem_or_eq_of_mem_set hq
    · exact hsound.known q hq pid hpid hexited
    · exact hsound.known p (List.mem_of_getElem? hp) pid hpid hexited
  attached := by
    intro q hq hpid
    obtain hq | rfl := List.mem_or_eq_of_mem_set hq
    · exact hsound.attached q hq hpid
    · exact hsound.attached p (List.mem_of_getElem? hp) hpid

/-- A place of the cycle and a flag do not matter. -/
theorem Sound.congr (hsound : Sound m) (hprocesses : m'.processes = m.processes)
    (hlast : m'.lastProcess = m.lastProcess) (hrunning : m'.running = m.running)
    (hzombies : m'.zombies = m.zombies) : Sound m' := by
  obtain ⟨processes, lastProcess, reap, terminate, quit, pc, running, zombies⟩ := m'
  cases hprocesses
  cases hlast
  cases hrunning
  cases hzombies
  exact ⟨hsound.distinct, hsound.beyond, hsound.known, hsound.attached⟩

theorem Sound.workerExit (hsound : Sound m) (pid : ℕ) :
    Sound { m with running := m.running.erase pid, zombies := m.zombies ++ [pid] } where
  distinct := hsound.distinct
  beyond := hsound.beyond
  attached := hsound.attached
  known := by
    intro p hp pid' hpid hexited
    obtain hrunning | hzombie := hsound.known p hp pid' hpid hexited
    · by_cases hsame : pid' = pid
      · right
        rw [hsame]
        exact List.mem_append_right _ List.mem_cons_self
      · exact Or.inl ((List.mem_erase_of_ne hsame).mpr hrunning)
    · exact Or.inr (List.mem_append_left _ hzombie)

theorem mem_markExited {pid n : ℕ} {processes : List Process} {p : Process}
    (hp : p ∈ markExited pid n processes) :
    ∃ q ∈ processes, p = q ∨ p = { q with exited := true } := by
  induction processes generalizing n with
  | nil => cases n <;> cases hp
  | cons head processes ih =>
      cases n with
      | zero => exact ⟨p, hp, Or.inl rfl⟩
      | succ n =>
          rw [markExited] at hp
          split at hp
          · obtain rfl | hp := List.mem_cons.mp hp
            · exact ⟨head, List.mem_cons_self, Or.inr rfl⟩
            · exact ⟨p, List.mem_cons_of_mem _ hp, Or.inl rfl⟩
          · obtain rfl | hp := List.mem_cons.mp hp
            · exact ⟨p, List.mem_cons_self, Or.inl rfl⟩
            · obtain ⟨q, hq, hsame⟩ := ih hp
              exact ⟨q, List.mem_cons_of_mem _ hq, hsame⟩

/-- The slot of a child that was waited for says so: there is no other with its pid. -/
theorem exited_of_markExited {pid n : ℕ} {processes : List Process}
    (hdistinct : (processes.map (·.pid)).Pairwise fun left right => left = right → left = none)
    (hbeyond : ∀ pid ∈ (processes.map (·.pid)).drop n, pid = none) {p : Process}
    (hp : p ∈ markExited pid n processes) (hpid : p.pid = some pid) : p.exited = true := by
  induction processes generalizing n with
  | nil => cases n <;> cases hp
  | cons head processes ih =>
      obtain ⟨hhead, htail⟩ := List.pairwise_cons.mp hdistinct
      cases n with
      | zero =>
          have hnone := hbeyond p.pid (List.mem_map_of_mem hp)
          rw [hpid] at hnone
          cases hnone
      | succ n =>
          rw [markExited] at hp
          split at hp
          · rename_i hfound
            obtain rfl | hp := List.mem_cons.mp hp
            · rfl
            · have hnone : head.pid = none :=
                hhead p.pid (List.mem_map_of_mem hp) (hfound.trans hpid.symm)
              rw [hfound] at hnone
              cases hnone
          · rename_i hother
            obtain rfl | hp := List.mem_cons.mp hp
            · exact absurd hpid hother
            · exact ih htail hbeyond hp

theorem mem_foldl_markExited {zombies : List ℕ} {n : ℕ} {processes : List Process}
    (hdistinct : (processes.map (·.pid)).Pairwise fun left right => left = right → left = none)
    (hbeyond : ∀ pid ∈ (processes.map (·.pid)).drop n, pid = none) {p : Process}
    (hp : p ∈ zombies.foldl (fun table pid => markExited pid n table) processes) :
    (∃ q ∈ processes, p.pid = q.pid ∧ p.detached = q.detached ∧
        (q.exited = true → p.exited = true)) ∧
      ∀ pid ∈ zombies, p.pid = some pid → p.exited = true := by
  induction zombies generalizing processes with
  | nil => exact ⟨⟨p, hp, rfl, rfl, id⟩, by simp⟩
  | cons pid zombies ih =>
      have hpids := markExited_pids pid n processes
      obtain ⟨⟨q, hq, hpid, hdetached, hexited⟩, hall⟩ :=
        ih (by rw [hpids]; exact hdistinct) (by rw [hpids]; exact hbeyond) hp
      constructor
      · obtain ⟨r, hr, rfl | rfl⟩ := mem_markExited hq
        · exact ⟨q, hr, hpid, hdetached, hexited⟩
        · exact ⟨r, hr, hpid, hdetached, fun _ => hexited rfl⟩
      · intro other hmem hother
        obtain rfl | hmem := List.mem_cons.mp hmem
        · exact hexited (exited_of_markExited hdistinct hbeyond hq (hpid.symm.trans hother))
        · exact hall other hmem hother

theorem Sound.handleChld (hsound : Sound m) : Sound (handleChld m) where
  distinct := by
    rw [handleChld_pids]
    exact hsound.distinct
  beyond := by
    rw [handleChld_pids]
    exact hsound.beyond
  known := by
    intro p hp pid hpid hexited
    obtain ⟨⟨q, hq, hsame, _, hmarked⟩, hall⟩ :=
      mem_foldl_markExited hsound.distinct hsound.beyond hp
    left
    have hbefore : q.exited = false := by
      by_contra htrue
      rw [hmarked (by simpa using htrue)] at hexited
      cases hexited
    obtain hrunning | hzombie := hsound.known q hq pid (hsame.symm.trans hpid) hbefore
    · exact hrunning
    · rw [hall pid hzombie hpid] at hexited
      cases hexited
  attached := by
    intro p hp hpid
    obtain ⟨⟨q, hq, hsame, hdetached, _⟩, _⟩ :=
      mem_foldl_markExited hsound.distinct hsound.beyond hp
    rw [hdetached]
    rw [hsame] at hpid
    exact hsound.attached q hq hpid

/-! ## Workers that were waited for -/

/-- A slot that says that its worker exited has set `night_reap`, or is still to be looked at
by `night_reap_children`. -/
def Heard (m : Master) : Prop :=
  match m.pc with
  | .clearReap | .exited | .killed => True
  | .reaping i _ => ∀ p ∈ m.processes.take i, p.pid ≠ none → p.exited = true → m.reap = true
  | _ => ∀ p ∈ m.processes, p.pid ≠ none → p.exited = true → m.reap = true

/-- What is known once the master is to end and every worker was waited for. -/
def KnowsWaited (m : Master) : Prop :=
  match m.pc with
  | .suspended true | .testReap => m.Ending → m.AllWaited → m.reap = true
  | .clearReap | .exited | .killed => True
  | .reaping _ live | .testExit live => m.Ending → m.AllWaited → live = false
  | .suspended false | .testTerminate | .testQuit | .signalling _ _ =>
      m.Ending → ¬ m.AllWaited

structure Waits (m : Master) : Prop where
  sound : Sound m
  heard : Heard m
  knows : KnowsWaited m

theorem mem_take_succ {p : Process} {i : ℕ} (hp : p ∈ m.processes.take (i + 1)) :
    p ∈ m.processes.take i ∨ m.processes[i]? = some p := by
  rw [List.take_add_one] at hp
  obtain hp | hp := List.mem_append.mp hp
  · exact Or.inl hp
  · exact Or.inr (by simpa using hp)

theorem waits_reapOne {i : ℕ} {live : Bool} (hlast : i < m.lastProcess) (hsound : Sound m)
    (hheard : ∀ p ∈ m.processes.take i, p.pid ≠ none → p.exited = true → m.reap = true)
    (hknows : m.Ending → m.AllWaited → live = false) : Waits (reapOne m i live) := by
  have hsame : Sound { m with pc := .reaping (i + 1) live } := hsound.congr rfl rfl rfl rfl
  obtain ⟨hnone, heq⟩ | ⟨p, last, hp, hexited, hlast', heq⟩ | ⟨p, hp, hpid, hexited, heq⟩ |
    ⟨p, hp, hpid, _, hdetached, _⟩ := reapOne_cases hlast live
  · rw [heq]
    refine ⟨hsame, fun q hq hpid hexited => ?_, hknows⟩
    obtain hq | hq := mem_take_succ hq
    · exact hheard q hq hpid hexited
    · exact absurd (hnone q hq) hpid
  · rw [heq]
    refine ⟨hsound.remove hp hlast hlast', fun q hq hpid hexited => ?_, hknows⟩
    change q ∈ (m.processes.set i _).take (i + 1) at hq
    rw [List.take_add_one, List.take_set_of_le (Nat.le_refl i)] at hq
    obtain hq | hq := List.mem_append.mp hq
    · exact hheard q hq hpid hexited
    · obtain ⟨hlength, _⟩ := List.getElem?_eq_some_iff.mp hp
      rw [List.getElem?_set_self hlength] at hq
      cases List.mem_singleton.mp hq
      exact absurd rfl hpid
  · rw [heq]
    refine ⟨hsound.congr rfl rfl rfl rfl, fun q hq hpid' hexited' => ?_, fun _ hwaited => ?_⟩
    · obtain hq | hq := mem_take_succ hq
      · exact hheard q hq hpid' hexited'
      · rw [hp] at hq
        cases hq
        rw [hexited] at hexited'
        cases hexited'
    · -- a worker that counts as alive is not waited for
      obtain ⟨pid, hpid⟩ := Option.ne_none_iff_exists'.mp hpid
      obtain hmem | hmem := hsound.known p (List.mem_of_getElem? hp) pid hpid hexited
      · rw [hwaited.1] at hmem
        cases hmem
      · rw [hwaited.2] at hmem
        cases hmem
  · have hattached := hsound.attached p (List.mem_of_getElem? hp) hpid
    rw [hdetached] at hattached
    cases hattached

theorem waits_advance {answered : Bool} (hwaits : Waits m)
    (hstep : advance m answered = some m') : Waits m' := by
  obtain ⟨hsound, hheard, hknows⟩ := hwaits
  unfold Heard at hheard
  unfold KnowsWaited at hknows
  unfold advance at hstep
  split at hstep
  · cases hstep
  · rename_i hpc
    rw [hpc] at hheard hknows
    cases hstep
    exact ⟨hsound.congr rfl rfl rfl rfl, hheard, hknows⟩
  · rename_i hpc
    rw [hpc] at hheard hknows
    cases hstep
    by_cases hreap : m.reap = true
    · rw [if_pos hreap]
      exact ⟨hsound.congr rfl rfl rfl rfl, trivial, trivial⟩
    · rw [if_neg hreap]
      exact ⟨hsound.congr rfl rfl rfl rfl, hheard,
        fun hending hwaited => absurd (hknows hending hwaited) hreap⟩
  · cases hstep
    exact ⟨hsound.congr rfl rfl rfl rfl, by simp [Heard], fun _ _ => rfl⟩
  · rename_i i live hpc
    rw [hpc] at hheard hknows
    cases hstep
    by_cases hlast : i < m.lastProcess
    · rw [if_pos hlast]
      exact waits_reapOne hlast hsound hheard hknows
    · rw [if_neg hlast]
      refine ⟨hsound.congr rfl rfl rfl rfl, fun p hp hpid hexited => ?_, hknows⟩
      rw [← List.take_append_drop i m.processes] at hp
      obtain hp | hp := List.mem_append.mp hp
      · exact hheard p hp hpid hexited
      · have hmem : p.pid ∈ m.pids.drop m.lastProcess := by
          have hdrop : p.pid ∈ m.pids.drop i := by
            rw [Master.pids, ← List.map_drop]
            exact List.mem_map_of_mem hp
          exact List.drop_subset_drop_left _ (Nat.le_of_not_lt hlast) hdrop
        exact absurd (hsound.beyond _ hmem) hpid
  · rename_i live hpc
    rw [hpc] at hheard hknows
    cases hstep
    split
    · exact ⟨hsound.congr rfl rfl rfl rfl, trivial, trivial⟩
    · rename_i hstays
      refine ⟨hsound.congr rfl rfl rfl rfl, hheard, fun hending hwaited => ?_⟩
      rw [hknows hending hwaited] at hstays
      exact hstays (by simpa [Master.Ending] using hending)
  · rename_i hpc
    rw [hpc] at hheard hknows
    cases hstep
    split
    · exact ⟨hsound.congr rfl rfl rfl rfl, hheard, hknows⟩
    · exact ⟨hsound.congr rfl rfl rfl rfl, hheard, hknows⟩
  · rename_i hpc
    rw [hpc] at hheard hknows
    cases hstep
    split
    · exact ⟨hsound.congr rfl rfl rfl rfl, hheard, hknows⟩
    · exact ⟨hsound.congr rfl rfl rfl rfl, hheard, hknows⟩
  · rename_i signo i hpc
    rw [hpc] at hheard hknows
    cases hstep
    by_cases hlast : i < m.lastProcess
    · rw [if_pos hlast]
      obtain heq | ⟨p, hp, heq⟩ := signalOne_cases m signo i answered
      · rw [heq]
        exact ⟨hsound.congr rfl rfl rfl rfl, hheard, hknows⟩
      · rw [heq]
        refine ⟨hsound.mark hp, fun q hq hpid hexited => ?_, hknows⟩
        obtain hq | rfl := List.mem_or_eq_of_mem_set hq
        · exact hheard q hq hpid hexited
        · exact hheard p (List.mem_of_getElem? hp) hpid hexited
    · rw [if_neg hlast]
      exact ⟨hsound.congr rfl rfl rfl rfl, hheard, hknows⟩
  · cases hstep
  · cases hstep

theorem heard_of_reap (hreap : m.reap = true) : Heard m := by
  unfold Heard
  split
  · trivial
  · trivial
  · trivial
  · exact fun _ _ _ _ => hreap
  · exact fun _ _ _ _ => hreap

/-- Where `night_reap` is set it is only late for a worker that counted as alive. -/
theorem knowsWaited_of_reap (hreap : m.reap = true) (hpc : m.pc ≠ .suspended false)
    (hdeaf : m.pc.isDeaf = true → m.Ending → ¬ m.AllWaited) : KnowsWaited m := by
  unfold KnowsWaited
  split
  · exact fun _ _ => hreap
  · exact fun _ _ => hreap
  · trivial
  · trivial
  · trivial
  · rename_i live hplace
    rw [hplace] at hdeaf
    cases live with
    | false => exact fun _ _ => rfl
    | true => exact fun hending hwaited => absurd hwaited (hdeaf rfl hending)
  · rename_i live hplace
    rw [hplace] at hdeaf
    cases live with
    | false => exact fun _ _ => rfl
    | true => exact fun hending hwaited => absurd hwaited (hdeaf rfl hending)
  · rename_i hplace
    exact absurd hplace hpc
  all_goals
    rename_i hplace
    rw [hplace] at hdeaf
    exact hdeaf rfl

/-- While a child was not waited for nothing has to be known. -/
theorem knowsWaited_of_not_waited (hwaited : ¬ m.AllWaited) : KnowsWaited m := by
  unfold KnowsWaited
  split
  all_goals first | trivial | exact fun _ => hwaited | exact fun _ h => absurd h hwaited

theorem waits_chld (hwaits : Waits m) (hallowed : InTime m .chld) :
    Waits { handleChld m with pc := m.pc.caught } := by
  refine ⟨hwaits.sound.handleChld.congr rfl rfl rfl rfl, heard_of_reap rfl, ?_⟩
  have hpc : m.pc.caught ≠ .suspended false := by
    cases m.pc <;> simp [Pc.caught]
  have hsame : m.pc.caught.isDeaf = m.pc.isDeaf := by
    cases m.pc <;> rfl
  refine knowsWaited_of_reap rfl hpc fun hdeaf hending hwaited => ?_
  exact hallowed rfl (hsame.symm.trans hdeaf) hending hwaited.1

/-- A signal that asks the master to end: a worker in the table that was waited for has set
`night_reap`. -/
theorem waits_asked (hsound : Sound m) (hheard : Heard m)
    (hpc : m.pc = .suspended true) (honTime : ¬ m.AllReaped ∨ m.reap = true) : Waits m := by
  refine ⟨hsound, hheard, ?_⟩
  unfold Heard at hheard
  unfold KnowsWaited
  rw [hpc] at hheard ⊢
  intro _ hwaited
  by_contra hreap
  apply honTime.resolve_right hreap
  intro p hp
  by_contra hpid
  obtain ⟨pid, hpid'⟩ := Option.ne_none_iff_exists'.mp hpid
  cases hexited : p.exited with
  | true => exact hreap (hheard p hp hpid hexited)
  | false =>
      obtain hmem | hmem := hsound.known p hp pid hpid' hexited
      · rw [hwaited.1] at hmem
        cases hmem
      · rw [hwaited.2] at hmem
        cases hmem

theorem waits_step (hwaits : Waits m) (honTime : OnTime m act) (hinTime : InTime m act)
    (hstep : step m act = some m') : Waits m' := by
  cases act with
  | advance answered => exact waits_advance hwaits hstep
  | chld =>
      rw [step] at hstep
      split at hstep
      · cases hstep
      · cases hstep
        exact waits_chld hwaits hinTime
  | term | quit =>
      rw [step] at hstep
      split at hstep
      · rename_i hpc
        obtain ⟨caught, hpc⟩ := isSuspended_iff.mp hpc
        have hheard := hwaits.heard
        unfold Heard at hheard
        rw [hpc] at hheard
        cases hstep
        rw [hpc]
        exact waits_asked (hwaits.sound.congr rfl rfl rfl rfl) hheard rfl (honTime (by simp))
      · cases hstep
  | int =>
      rw [step] at hstep
      split at hstep
      · cases hstep
        exact ⟨hwaits.sound.congr rfl rfl rfl rfl, trivial, trivial⟩
      · cases hstep
  | workerExit pid =>
      rw [step] at hstep
      split at hstep
      · cases hstep
        refine ⟨hwaits.sound.workerExit pid, hwaits.heard, ?_⟩
        exact knowsWaited_of_not_waited (fun hwaited => by simpa using hwaited.2)
      · cases hstep

/-! ## Every run -/

/-- The master never sleeps in vain where each request to end comes on time: not when every
worker was removed, and not when every worker was waited for unless the last `SIGCHLD` came
between a test and `sigsuspend`. -/
theorem master_exits {pids : List ℕ} (hpids : pids.Nodup) :
    (∀ m, Reached step OnTime (start pids) m → ¬ m.SleepsReaped) ∧
      ∀ m, Reached step Punctual (start pids) m → ¬ m.SleepsWaited := by
  constructor
  · intro m hreached hsleeps
    have hstart : KnowsReaped (start pids) := fun hending => by
      simp [Master.Ending, start] at hending
    have hknows := hreached.invariant hstart fun _ _ _ => knowsReaped_step
    obtain ⟨hpc, hending, hall⟩ := hsleeps
    unfold KnowsReaped at hknows
    rw [hpc] at hknows
    exact hknows hending hall
  · intro m hreached hsleeps
    have hstart : Waits (start pids) := by
      refine ⟨sound_start hpids, fun p hp _ hexited => ?_,
        fun hending => by simp [Master.Ending, start] at hending⟩
      obtain ⟨pid, _, rfl⟩ := List.mem_map.mp hp
      cases hexited
    have hwaits := hreached.invariant hstart
      fun _ _ _ hwaits hallowed => waits_step hwaits hallowed.1 hallowed.2
    obtain ⟨hpc, hending, hall⟩ := hsleeps
    have hknows := hwaits.knows
    unfold KnowsWaited at hknows
    rw [hpc] at hknows
    exact hknows hending hall

/-! ### Requests that come late -/

/-- The master takes steps of its loop only. -/
def Alone (m m' : Master) : Prop := Reached step (fun _ act => act = .advance true) m m'

theorem Alone.next {m'' : Master} (halone : Alone m m') (hadvance : advance m' true = some m'') :
    Alone m m'' :=
  Reached.step halone rfl hadvance

/-- With no worker in the table the loop of `night_signal_worker_processes` changes nothing. -/
theorem alone_signalling (m' : Master) {signo : Signo} {i : ℕ} (hall : m'.AllReaped)
    (hpc : m'.pc = .signalling signo i) (halone : Alone m m') :
    Alone m { m' with pc := .suspended false } := by
  generalize hcount : m'.lastProcess - i = count
  induction count generalizing m' i with
  | zero =>
      apply halone.next
      simp only [advance, hpc]
      rw [if_neg (by omega)]
  | succ count ih =>
      have hlast : i < m'.lastProcess := by omega
      have hone : signalOne m' signo i true = { m' with pc := .signalling signo (i + 1) } := by
        unfold signalOne
        cases hp : m'.processes[i]? with
        | none => rfl
        | some p => simp [hall p (List.mem_of_getElem? hp)]
      have hstep : advance m' true = some { m' with pc := .signalling signo (i + 1) } := by
        simp only [advance, hpc]
        rw [if_pos hlast, hone]
      exact ih { m' with pc := .signalling signo (i + 1) } hall rfl (halone.next hstep)
        (by simp only; omega)

/-- A request to end that finds no worker in the table and `night_reap` not set is lost: the
master goes back to sleep. -/
theorem late_sleeps (hpc : m.pc = .suspended true) (hending : m.Ending) (hall : m.AllReaped)
    (hreap : m.reap = false) : ∃ m', Alone m m' ∧ m'.SleepsReaped := by
  refine ⟨{ m with pc := .suspended false }, ?_, rfl, hending, hall⟩
  have htested : Alone m { m with pc := .testTerminate } := by
    have hwoken : Alone m { m with pc := .testReap } :=
      Alone.next Reached.start (by simp [advance, hpc])
    have hlive : Alone m { m with pc := .testExit true } :=
      hwoken.next (by simp [advance, hreap])
    exact hlive.next (by simp [advance])
  by_cases hterminate : m.terminate = true
  · have hloop : Alone m { m with pc := .signalling .term 0 } :=
      htested.next (by simp [advance, hterminate])
    exact alone_signalling { m with pc := .signalling .term 0 } hall rfl hloop
  · have hquit : m.quit = true := hending.resolve_left hterminate
    have hother : Alone m { m with pc := .testQuit } :=
      htested.next (by simp [advance, hterminate])
    have hloop : Alone m { m with pc := .signalling .quit 0 } :=
      hother.next (by simp [advance, hquit])
    exact alone_signalling { m with pc := .signalling .quit 0 } hall rfl hloop

/-- One worker that exits on its own before `SIGTERM` comes. -/
theorem not_master_exits_lateTerm :
    ¬ ∀ (pids : List ℕ) (acts : List Act) (m : Master), pids.Nodup →
      run step acts (start pids) = some m → ¬ m.SleepsReaped := by
  intro hall
  have hrun : run step (Act.workerExit 7 :: Act.chld :: List.replicate 8 (Act.advance true) ++
      Act.term :: List.replicate 5 (Act.advance true)) (start [7]) =
        some ⟨[⟨none, true, false, true⟩], 0, false, true, false, .suspended false, [], []⟩ := by
    decide
  refine hall _ _ _ (by decide) hrun ⟨rfl, Or.inl rfl, ?_⟩
  simp [Master.AllReaped]

/-- One worker that exits while `SIGTERM` is passed on: every request was on time, and
`night_reap` is set behind its test. -/
theorem lateChld_sleepsWaited :
    ∃ m, run step (.term :: List.replicate 5 (.advance true) ++
      [.workerExit 7, .chld, .advance true]) (start [7]) = some m ∧ m.SleepsWaited :=
  ⟨⟨[⟨some 7, true, true, false⟩], 1, true, true, false, .suspended false, [], []⟩, by decide,
    rfl, Or.inl rfl, rfl, rfl⟩

/-- `SIGTERM` while the worker runs, and the master sleeps again. -/
def asleep : Master where
  processes := [⟨some 7, false, true, false⟩]
  lastProcess := 1
  reap := false
  terminate := true
  quit := false
  pc := .suspended false
  running := [7]
  zombies := []

theorem master_exits_oneWorker : ¬ asleep.SleepsReaped ∧ ¬ asleep.SleepsWaited := by
  have hpids : [7].Nodup := by decide
  have honTime : OnTime (start [7]) .term := by
    refine fun _ => Or.inl fun hall => ?_
    simp [Master.AllReaped, start, spawned] at hall
  have hfirst : step (start [7]) .term =
      some { start [7] with terminate := true, pc := .suspended true } := rfl
  have hrest : run step (List.replicate 6 (.advance true))
      { start [7] with terminate := true, pc := .suspended true } = some asleep := by decide
  constructor
  · apply (master_exits hpids).1
    refine (Reached.step Reached.start honTime hfirst).run (fun act hact m => ?_) hrest
    rw [List.eq_of_mem_replicate hact]
    exact fun h => by simp at h
  · apply (master_exits hpids).2
    have hallowed : Punctual (start [7]) .term :=
      ⟨honTime, fun h => by cases h⟩
    refine (Reached.step Reached.start hallowed hfirst).run (fun act hact m => ?_) hrest
    rw [List.eq_of_mem_replicate hact]
    exact ⟨fun h => by simp at h, fun h => by cases h⟩

end Night.MasterCycle
