import Night.Core.ReapChildren
import Night.Core.WorkerChannel

/-!
# `night_reap_children` in the master cycle

The cycle takes a step for every slot, with a table without channels; the function itself has
them, and the messages it writes.  A step is the body of the loop, and writes to the workers that
are told of the one that has gone.
-/

namespace Night.ReapCycle

open Night.MasterCycle (Pc)
open Night.Runs
open Night.WorkerChannel (mourns)

/-- A slot of the cycle's table for one with channels: no pid is `-1`, and a slot in use has a
channel. -/
structure Represents (p : MasterCycle.Process) (q : ReapChildren.Process) : Prop where
  pid : q.pid = match p.pid with
    | none => -1
    | some pid => (pid : ℤ)
  exited : q.exited = p.exited
  exiting : q.exiting = p.exiting
  detached : q.detached = p.detached
  channel : p.pid ≠ none → q.channel0 ≠ -1

structure Same (m : MasterCycle.Master) (t : ReapChildren.Master) : Prop where
  lastProcess : t.lastProcess = m.lastProcess
  inside : m.lastProcess ≤ m.processes.length
  slots : ∀ {i : ℕ} {p : MasterCycle.Process}, m.processes[i]? = some p →
    Represents p (t.processes i)

variable {m : MasterCycle.Master} {t : ReapChildren.Master} {i : ℕ} {live : Bool}
  {p : MasterCycle.Process} {q : ReapChildren.Process}

theorem Represents.pid_iff (hrep : Represents p q) : q.pid = -1 ↔ p.pid = none := by
  have hpid := hrep.pid
  cases hp : p.pid with
  | none =>
    rw [hp] at hpid
    exact iff_of_true hpid rfl
  | some pid =>
    rw [hp] at hpid
    refine iff_of_false (fun hminus => ?_) nofun
    have hpid : q.pid = (pid : ℤ) := hpid
    omega

theorem Represents.hasChannel (hrep : Represents p q) :
    q.hasChannel = !(p.exited || p.pid.isNone) := by
  rw [ReapChildren.Process.hasChannel, hrep.exited]
  by_cases hpid : p.pid = none
  · simp [hrep.pid_iff.mpr hpid, hpid]
  · have hnot : q.pid ≠ -1 := fun heq => hpid (hrep.pid_iff.mp heq)
    have hsome : p.pid.isNone = false := by
      rw [Option.isNone_eq_false_iff]
      exact Option.isSome_iff_ne_none.mpr hpid
    simp [hnot, hrep.channel hpid, hsome]

theorem Represents.gone_iff (hrep : Represents p q) :
    q.Gone ↔ p.pid ≠ none ∧ p.exited = true := by
  rw [ReapChildren.Process.Gone, ne_eq, hrep.pid_iff, hrep.exited]

/-- What is left of a slot whose worker has gone. -/
theorem Represents.reaped (hrep : Represents p q) (hgone : q.Gone) :
    Represents { p with pid := none, detached := true } q.reaped := by
  rw [ReapChildren.Process.reaped, if_pos hgone]
  by_cases hdetached : q.detached = true
  · rw [if_pos hdetached]
    exact ⟨rfl, hrep.exited, hrep.exiting, hdetached, fun h => absurd rfl h⟩
  · rw [if_neg hdetached]
    exact ⟨rfl, hrep.exited, hrep.exiting, rfl, fun h => absurd rfl h⟩

/-- The workers that are told. -/
theorem mourns_eq (hsame : Same m t) (hpc : m.pc = .reaping i live) (hi : i < m.lastProcess)
    (hp : m.processes[i]? = some p) {n : ℕ} (hn : n < m.lastProcess) :
    mourns m n = ((p.pid.isSome && p.exited && !p.detached) && (t.processes n).hasChannel) := by
  obtain ⟨q, hq⟩ : ∃ q, m.processes[n]? = some q :=
    ⟨_, List.getElem?_eq_getElem (Nat.lt_of_lt_of_le hn hsame.inside)⟩
  rw [(hsame.slots hq).hasChannel, mourns, hpc]
  simp [hi, hn, hp, hq]

/-- Nobody is told of a worker that has not gone, or was let go before. -/
theorem filter_mourns_eq_nil (hsame : Same m t) (hpc : m.pc = .reaping i live)
    (hi : i < m.lastProcess) (hp : m.processes[i]? = some p)
    (hnot : ¬ (p.pid.isSome && p.exited && !p.detached) = true) :
    (List.range m.lastProcess).filter (mourns m) = [] := by
  apply List.filter_eq_nil_iff.mpr
  intro n hn
  rw [mourns_eq hsame hpc hi hp (List.mem_range.mp hn), eq_false_of_ne_true hnot]
  simp

/-- A step of the cycle at a slot, which writes to the workers that are told, and the body of the
loop. -/
structure Agrees (m : MasterCycle.Master) (t : ReapChildren.Master) (i : ℕ) (live live' : Bool) :
    Prop where
  pc : (MasterCycle.reapOne m i live).pc = .reaping (i + 1) live'
  returned : (ReapChildren.reapOne t i live).2 = live'
  same : Same (MasterCycle.reapOne m i live) (ReapChildren.reapOne t i live).1
  written : (ReapChildren.reapOne t i live).1.written = t.written ++
    ((List.range m.lastProcess).filter (mourns m)).map fun n => (n, ReapChildren.closing t i)

theorem agrees_of_gone (hsame : Same m t) (hpc : m.pc = .reaping i live) (hi : i < m.lastProcess)
    (hp : m.processes[i]? = some p) (hgone : (t.processes i).Gone) : Agrees m t i live live := by
  obtain ⟨hlength, _⟩ := List.getElem?_eq_some_iff.mp hp
  have hrep := hsame.slots hp
  obtain ⟨hpid, hexited⟩ := hrep.gone_iff.mp hgone
  have hone : MasterCycle.reapOne m i live =
      { m with
        processes := m.processes.set i { p with pid := none, detached := true }
        lastProcess := if i = m.lastProcess - 1 then m.lastProcess - 1 else m.lastProcess
        pc := .reaping (i + 1) live } := by
    simp only [MasterCycle.reapOne, hp]
    rw [if_neg hpid, if_pos hexited]
  refine ⟨by rw [hone], by rw [ReapChildren.reapOne_of_gone hgone], ⟨?_, ?_, ?_⟩, ?_⟩
  · rw [ReapChildren.reapOne_lastProcess hgone, hone, hsame.lastProcess]
  · have hinside := hsame.inside
    rw [hone]
    show (if i = m.lastProcess - 1 then m.lastProcess - 1 else m.lastProcess) ≤ _
    rw [List.length_set]
    split <;> omega
  · intro k p' hp'
    rw [hone] at hp'
    rw [ReapChildren.reapOne_processes hgone]
    by_cases hk : k = i
    · subst hk
      rw [List.getElem?_set_self hlength] at hp'
      cases hp'
      rw [if_pos rfl]
      exact hrep.reaped hgone
    · rw [List.getElem?_set_ne (Ne.symm hk)] at hp'
      rw [if_neg hk]
      exact hsame.slots hp'
  · rw [ReapChildren.reapOne_written hgone, hrep.detached]
    congr 1
    by_cases hdetached : p.detached = false
    · rw [if_pos hdetached, ReapChildren.writeAll, hsame.lastProcess]
      congr 1
      apply List.filter_congr
      intro n hn
      rw [mourns_eq hsame hpc hi hp (List.mem_range.mp hn)]
      have hsome : p.pid.isSome = true := Option.isSome_iff_ne_none.mpr hpid
      simp [hsome, hexited, hdetached]
    · rw [if_neg hdetached, filter_mourns_eq_nil hsame hpc hi hp (by simp [hdetached]),
        List.map_nil]

/-- A worker that has not gone leaves the table as it is, on both sides. -/
theorem agrees_of_not_gone (hsame : Same m t) (hpc : m.pc = .reaping i live)
    (hi : i < m.lastProcess) (hp : m.processes[i]? = some p) (hgone : ¬ (t.processes i).Gone) :
    ∃ live', Agrees m t i live live' := by
  have hrep := hsame.slots hp
  have hnothing : ¬ (p.pid.isSome && p.exited && !p.detached) = true := by
    intro hall
    simp only [Bool.and_eq_true] at hall
    exact hgone (hrep.gone_iff.mpr ⟨Option.isSome_iff_ne_none.mp hall.1.1, hall.1.2⟩)
  obtain ⟨live', hone, hone'⟩ : ∃ live',
      MasterCycle.reapOne m i live = { m with pc := .reaping (i + 1) live' } ∧
        ReapChildren.reapOne t i live = (t, live') := by
    simp only [MasterCycle.reapOne, ReapChildren.reapOne, hp]
    by_cases hpid : p.pid = none
    · exact ⟨live, if_pos hpid, if_pos (hrep.pid_iff.mpr hpid)⟩
    · have hexited : ¬ p.exited = true := fun hexited => hgone (hrep.gone_iff.mpr ⟨hpid, hexited⟩)
      have hpid' : ¬ (t.processes i).pid = -1 := fun heq => hpid (hrep.pid_iff.mp heq)
      simp only [if_neg hpid, if_neg hpid', hrep.exited, if_neg hexited, hrep.exiting,
        hrep.detached]
      by_cases hcounts : (p.exiting || !p.detached) = true
      · exact ⟨true, if_pos hcounts, if_pos hcounts⟩
      · exact ⟨live, if_neg hcounts, if_neg hcounts⟩
  refine ⟨live', by rw [hone], by rw [hone'], ?_, ?_⟩
  · rw [hone, hone']
    exact ⟨hsame.lastProcess, hsame.inside, hsame.slots⟩
  · rw [hone', filter_mourns_eq_nil hsame hpc hi hp hnothing, List.map_nil, List.append_nil]

/-- The body of the loop is a step of the cycle, which writes to the workers that are told. -/
theorem reapOne_same (hsame : Same m t) (hpc : m.pc = .reaping i live) (hi : i < m.lastProcess) :
    ∃ live', Agrees m t i live live' := by
  obtain ⟨p, hp⟩ : ∃ p, m.processes[i]? = some p :=
    ⟨_, List.getElem?_eq_getElem (Nat.lt_of_lt_of_le hi hsame.inside)⟩
  by_cases hgone : (t.processes i).Gone
  · exact ⟨live, agrees_of_gone hsame hpc hi hp hgone⟩
  · exact agrees_of_not_gone hsame hpc hi hp hgone

/-- From a slot on, the steps of the cycle are those of `night_reap_children`, and come with what
it returns to the test of `live`. -/
theorem reapLoop_same (hsame : Same m t) (hpc : m.pc = .reaping i live) {fuel : ℕ}
    (hfuel : m.lastProcess < fuel + i) (hpositive : 0 < fuel) :
    ∃ live' m' t', ReapChildren.reapLoop fuel i t live = some (live', t') ∧
      Reached MasterCycle.step (fun _ act => act = .advance true) m m' ∧
      m'.pc = .testExit live' ∧ Same m' t' := by
  induction fuel generalizing i live m t with
  | zero => exact absurd hpositive (Nat.lt_irrefl 0)
  | succ fuel ih =>
    rw [ReapChildren.reapLoop, hsame.lastProcess]
    by_cases hi : i < m.lastProcess
    · obtain ⟨live', hagrees⟩ := reapOne_same hsame hpc hi
      have hstep : MasterCycle.step m (.advance true) = some (MasterCycle.reapOne m i live) := by
        simp only [MasterCycle.step, MasterCycle.advance, hpc, if_pos hi]
      have hlast : (MasterCycle.reapOne m i live).lastProcess ≤ m.lastProcess := by
        obtain ⟨_, heq⟩ | ⟨_, last, _, _, hlast, heq⟩ | ⟨_, _, _, _, heq⟩ | ⟨_, _, _, _, _, heq⟩ :=
          MasterCycle.reapOne_cases hi live
        · exact Nat.le_of_eq (by rw [heq])
        · have hnew : (MasterCycle.reapOne m i live).lastProcess = last := by rw [heq]
          omega
        · exact Nat.le_of_eq (by rw [heq])
        · exact Nat.le_of_eq (by rw [heq])
      have hone : Reached MasterCycle.step (fun _ act => act = .advance true) m
          (MasterCycle.reapOne m i live) := Reached.start.step rfl hstep
      obtain ⟨live'', m', t', hloop, hreached, hend, hsame''⟩ :=
        ih hagrees.same hagrees.pc (by omega) (by omega)
      rw [if_pos hi, hagrees.returned]
      exact ⟨live'', m', t', hloop, hone.trans hreached, hend, hsame''⟩
    · have hstep : MasterCycle.step m (.advance true) = some { m with pc := .testExit live } := by
        simp only [MasterCycle.step, MasterCycle.advance, hpc, if_neg hi]
      rw [if_neg hi]
      exact ⟨live, _, t, rfl, Reached.start.step rfl hstep, rfl,
        ⟨hsame.lastProcess, hsame.inside, hsame.slots⟩⟩

/-- `night_reap_children` in the cycle, from the test of `night_reap` to the test of `live`. -/
theorem nightReapChildren_same (hsame : Same m t) (hpc : m.pc = .clearReap) {fuel : ℕ}
    (hfuel : m.lastProcess < fuel) :
    ∃ live' m' t', ReapChildren.nightReapChildren fuel t = some (live', t') ∧
      Reached MasterCycle.step (fun _ act => act = .advance true) m m' ∧
      m'.pc = .testExit live' ∧ Same m' t' := by
  have hstep : MasterCycle.step m (.advance true) =
      some { m with reap := false, pc := .reaping 0 false } := by
    simp only [MasterCycle.step, MasterCycle.advance, hpc]
  have hone : Reached MasterCycle.step (fun _ act => act = .advance true) m
      { m with reap := false, pc := .reaping 0 false } := Reached.start.step rfl hstep
  have hsame' : Same { m with reap := false, pc := .reaping 0 false } t :=
    ⟨hsame.lastProcess, hsame.inside, hsame.slots⟩
  obtain ⟨live', m', t', hloop, hreached, hend, hsame''⟩ :=
    reapLoop_same hsame' rfl (by simpa using hfuel) (by omega)
  exact ⟨live', m', t', hloop, hone.trans hreached, hend, hsame''⟩

end Night.ReapCycle
