import Mathlib.Data.Int.Notation
import Mathlib.Data.List.Basic
import Mathlib.Logic.Function.Basic

/-!
# `night_reap_children`

The table with the channels of the workers.  A field of a message that was never assigned has no
value.
-/

namespace Night.ReapChildren

/-! ## The table -/

/-- The fields of a `night_process_t` that are read; no process and no descriptor is `-1`. -/
structure Process where
  pid : ℤ
  channel0 : ℤ
  channel1 : ℤ
  exited : Bool
  exiting : Bool
  detached : Bool
  deriving DecidableEq, Repr

/-- `NIGHT_CMD_CLOSE_CHANNEL`. -/
def nightCmdCloseChannel : ℕ := 2

/-- `night_channel_t`. -/
structure Channel where
  command : Option ℕ
  pid : Option ℤ
  slot : Option ℕ
  fd : Option ℤ
  deriving DecidableEq, Repr

/-- The local `ch` of the function, of which nothing is assigned. -/
def Channel.declared : Channel := ⟨none, none, none, none⟩

/-- The process table; the messages that were written to the channels of slots, and the
descriptors that were closed. -/
structure Master where
  processes : ℕ → Process
  lastProcess : ℕ
  written : List (ℕ × Channel)
  closed : List ℤ

/-! ## The loops -/

/-- The test of the inner loop, for a worker that is sent a message. -/
def Process.hasChannel (p : Process) : Bool :=
  !(p.exited || decide (p.pid = -1) || decide (p.channel0 = -1))

/-- The inner loop. -/
def writeAll (m : Master) (ch : Channel) : List (ℕ × Channel) :=
  ((List.range m.lastProcess).filter fun n => (m.processes n).hasChannel).map fun n => (n, ch)

/-- The branch for a worker that is not detached: its channel is closed, and the others are told. -/
def tellOthers (m : Master) (i : ℕ) : Master :=
  let p := m.processes i
  let m := { m with
    processes := Function.update m.processes i { p with channel0 := -1, channel1 := -1 }
    closed := m.closed ++ [p.channel0, p.channel1] }
  let ch := { Channel.declared with pid := some p.pid, slot := some i }
  let m := { m with written := m.written ++ writeAll m ch }
  { m with processes := Function.update m.processes i { m.processes i with detached := true } }

/-- The body of the loop at a slot, with `live`. -/
def reapOne (m : Master) (i : ℕ) (live : Bool) : Master × Bool :=
  let p := m.processes i
  if p.pid = -1 then (m, live)
  else if p.exited then
    let m := if p.detached then m else tellOthers m i
    ({ m with
      lastProcess := if i = m.lastProcess - 1 then m.lastProcess - 1 else m.lastProcess
      processes := Function.update m.processes i { m.processes i with pid := -1 } }, live)
  else if p.exiting || !p.detached then (m, true)
  else (m, live)

/-- The loop from the slot `i` on. -/
def reapLoop : ℕ → ℕ → Master → Bool → Option (Bool × Master)
  | 0, _, _, _ => none
  | fuel + 1, i, m, live =>
    if i < m.lastProcess then reapLoop fuel (i + 1) (reapOne m i live).1 (reapOne m i live).2
    else some (live, m)

/-- `night_reap_children`: `live`, and what it leaves. -/
def nightReapChildren (fuel : ℕ) (m : Master) : Option (Bool × Master) := reapLoop fuel 0 m false

/-! ## What the loop has done -/

/-- An exited worker that was not released before. -/
def Process.Gone (p : Process) : Prop := p.pid ≠ -1 ∧ p.exited = true

instance (p : Process) : Decidable p.Gone := inferInstanceAs (Decidable (_ ∧ _))

/-- A worker that is still running. -/
def Process.Running (p : Process) : Prop := p.pid ≠ -1 ∧ p.exited = false

/-- The test for `live` of a running worker. -/
def Process.Counted (p : Process) : Prop := p.Running ∧ (p.exiting = true ∨ p.detached = false)

/-- A slot behind the loop. -/
def Process.reaped (p : Process) : Process :=
  if p.Gone then
    if p.detached then { p with pid := -1 }
    else { p with pid := -1, channel0 := -1, channel1 := -1, detached := true }
  else p

/-- The message about the worker of a slot. -/
def closing (m : Master) (i : ℕ) : Channel :=
  { Channel.declared with pid := some (m.processes i).pid, slot := some i }

/-- The slots below `i` that others are told of. -/
def told (m : Master) (i : ℕ) : List ℕ :=
  (List.range i).filter fun k => (m.processes k).Gone ∧ (m.processes k).detached = false

/-- The loop from the table `start` has come to the slot `i`. -/
structure Reaped (start : Master) (i : ℕ) (m : Master) (live : Bool) : Prop where
  below : ∀ k < i, m.processes k = (start.processes k).reaped
  above : ∀ k, i ≤ k → m.processes k = start.processes k
  lastProcess : m.lastProcess =
    if i = start.lastProcess ∧ 0 < i ∧ (start.processes (i - 1)).Gone then i - 1
    else start.lastProcess
  written : m.written =
    start.written ++ (told start i).flatMap fun k => writeAll start (closing start k)
  live : live = true ↔ ∃ k < i, (start.processes k).Counted

variable {start m m' : Master} {i : ℕ} {live : Bool}

theorem hasChannel_reaped (p : Process) : p.reaped.hasChannel = p.hasChannel := by
  rw [Process.reaped]
  by_cases hgone : p.Gone
  · have hexited : p.exited = true := hgone.2
    rw [if_pos hgone]
    split <;> simp [Process.hasChannel, hexited]
  · rw [if_neg hgone]

theorem told_succ (start : Master) (i : ℕ) : told start (i + 1) = told start i ++
    if (start.processes i).Gone ∧ (start.processes i).detached = false then [i] else [] := by
  rw [told, List.range_succ, List.filter_append, told, List.filter_singleton]
  simp

/-- The workers with a channel are the same before and behind the loop. -/
theorem writeAll_congr (hlast : m.lastProcess = start.lastProcess)
    (hsame : ∀ k, (m.processes k).hasChannel = (start.processes k).hasChannel) (ch : Channel) :
    writeAll m ch = writeAll start ch := by
  simp only [writeAll, hlast, hsame]

theorem Reaped.hasChannel (hreaped : Reaped start i m live) (k : ℕ) :
    (m.processes k).hasChannel = (start.processes k).hasChannel := by
  by_cases hk : k < i
  · rw [hreaped.below k hk, hasChannel_reaped]
  · rw [hreaped.above k (by omega)]

theorem Reaped.last_eq (hreaped : Reaped start i m live) (hi : i < start.lastProcess) :
    m.lastProcess = start.lastProcess := by
  rw [hreaped.lastProcess, if_neg fun hend => by omega]

theorem tellOthers_processes (m : Master) (i k : ℕ) : (tellOthers m i).processes k =
    if k = i then { m.processes i with channel0 := -1, channel1 := -1, detached := true }
    else m.processes k := by
  by_cases hk : k = i
  · subst hk
    simp [tellOthers]
  · simp [tellOthers, hk]

theorem reapOne_of_gone (hgone : (m.processes i).Gone) (live : Bool) :
    reapOne m i live =
      let told := if (m.processes i).detached then m else tellOthers m i
      ({ told with
        lastProcess := if i = told.lastProcess - 1 then told.lastProcess - 1 else told.lastProcess
        processes := Function.update told.processes i { told.processes i with pid := -1 } },
        live) := by
  rw [reapOne]
  simp only [if_neg hgone.1, if_pos hgone.2]

/-- The slot of an exited worker after the body of the loop, and the others. -/
theorem reapOne_processes (hgone : (m.processes i).Gone) (live : Bool) (k : ℕ) :
    (reapOne m i live).1.processes k =
      if k = i then (m.processes i).reaped else m.processes k := by
  rw [reapOne_of_gone hgone]
  by_cases hk : k = i
  · subst hk
    rw [if_pos rfl, Process.reaped, if_pos hgone]
    by_cases hdetached : (m.processes k).detached
    · simp [hdetached]
    · simp [hdetached, tellOthers_processes]
  · rw [if_neg hk]
    by_cases hdetached : (m.processes i).detached
    · simp [hdetached, Function.update_of_ne hk]
    · simp [hdetached, tellOthers_processes, hk]

theorem reapOne_lastProcess (hgone : (m.processes i).Gone) (live : Bool) :
    (reapOne m i live).1.lastProcess =
      if i = m.lastProcess - 1 then m.lastProcess - 1 else m.lastProcess := by
  rw [reapOne_of_gone hgone]
  by_cases hdetached : (m.processes i).detached <;> simp [hdetached, tellOthers]

/-- The worker itself has exited, so it is not told. -/
theorem tellOthers_written (hgone : (m.processes i).Gone) :
    (tellOthers m i).written = m.written ++ writeAll m (closing m i) := by
  change m.written ++ writeAll _ (closing m i) = _
  congr 1
  apply writeAll_congr
  · rfl
  · intro k
    by_cases hk : k = i
    · subst hk
      simp [Process.hasChannel, hgone.2]
    · simp [Function.update_of_ne hk]

theorem reapOne_written (hgone : (m.processes i).Gone) (live : Bool) :
    (reapOne m i live).1.written = m.written ++
      if (m.processes i).detached = false then writeAll m (closing m i) else [] := by
  rw [reapOne_of_gone hgone]
  by_cases hdetached : (m.processes i).detached
  · simp [hdetached]
  · simp [hdetached, tellOthers_written hgone]

/-- The body of the loop at an exited worker. -/
theorem reapOne_gone (hreaped : Reaped start i m live) (hi : i < start.lastProcess)
    (hgone : (start.processes i).Gone) :
    Reaped start (i + 1) (reapOne m i live).1 (reapOne m i live).2 := by
  have hat := hreaped.above i (Nat.le_refl i)
  have hlast := hreaped.last_eq hi
  have hgone' : (m.processes i).Gone := hat ▸ hgone
  refine ⟨?_, ?_, ?_, ?_, ?_⟩
  · intro k hk
    rw [reapOne_processes hgone']
    by_cases hki : k = i
    · rw [if_pos hki, hat, hki]
    · rw [if_neg hki]
      exact hreaped.below k (by omega)
  · intro k hk
    rw [reapOne_processes hgone', if_neg (by omega)]
    exact hreaped.above k (by omega)
  · rw [reapOne_lastProcess hgone', hlast]
    by_cases hend : i = start.lastProcess - 1
    · rw [if_pos hend, if_pos ⟨by omega, by omega, by simpa using hgone⟩]
      omega
    · rw [if_neg hend, if_neg fun hboth => by omega]
  · rw [reapOne_written hgone', hreaped.written, told_succ, hat]
    by_cases hdetached : (start.processes i).detached = false
    · rw [if_pos hdetached, if_pos ⟨hgone, hdetached⟩, List.flatMap_append, List.append_assoc,
        List.flatMap_singleton, writeAll_congr hlast hreaped.hasChannel, closing, closing, hat]
    · rw [if_neg hdetached, if_neg fun hboth => hdetached hboth.2, List.append_nil,
        List.append_nil]
  · have hsame : (reapOne m i live).2 = live := by rw [reapOne_of_gone hgone']
    rw [hsame, hreaped.live]
    constructor
    · rintro ⟨k, hk, hcounted⟩
      exact ⟨k, by omega, hcounted⟩
    · rintro ⟨k, hk, hcounted⟩
      by_cases hki : k = i
      · rw [hki] at hcounted
        exact absurd hgone.2 (by simp [hcounted.1.2])
      · exact ⟨k, by omega, hcounted⟩

theorem reapOne_reaped (hreaped : Reaped start i m live) (hi : i < start.lastProcess) :
    Reaped start (i + 1) (reapOne m i live).1 (reapOne m i live).2 := by
  by_cases hgone : (start.processes i).Gone
  · exact reapOne_gone hreaped hi hgone
  -- the table stays as it is
  have hat := hreaped.above i (Nat.le_refl i)
  have hsame : (start.processes i).reaped = start.processes i := by
    rw [Process.reaped, if_neg hgone]
  have hone : (reapOne m i live).1 = m ∧
      ((reapOne m i live).2 = true ↔ live = true ∨ (start.processes i).Counted) := by
    rw [reapOne, hat, Process.Counted, Process.Running]
    by_cases hpid : (start.processes i).pid = -1
    · simp [hpid]
    · have hexited : (start.processes i).exited = false := by
        rw [← Bool.not_eq_true]
        exact fun hexited => hgone ⟨hpid, hexited⟩
      by_cases hcounts : (start.processes i).exiting || !(start.processes i).detached
      · simp_all
      · simp_all
  obtain ⟨htable, hlive⟩ := hone
  rw [htable]
  refine ⟨?_, ?_, ?_, ?_, ?_⟩
  · intro k hk
    by_cases hlast : k = i
    · rw [hlast, hat, hsame]
    · exact hreaped.below k (by omega)
  · intro k hk
    exact hreaped.above k (by omega)
  · rw [hreaped.last_eq hi, if_neg]
    rintro ⟨-, -, hend⟩
    exact hgone hend
  · rw [told_succ, if_neg fun hboth => hgone hboth.1, List.append_nil, hreaped.written]
  · rw [hlive, hreaped.live]
    constructor
    · rintro (⟨k, hk, hcounted⟩ | hcounted)
      · exact ⟨k, by omega, hcounted⟩
      · exact ⟨i, by omega, hcounted⟩
    · rintro ⟨k, hk, hcounted⟩
      by_cases hlast : k = i
      · exact Or.inr (hlast ▸ hcounted)
      · exact Or.inl ⟨k, by omega, hcounted⟩

/-- The whole loop. -/
theorem reapLoop_reaped (hreaped : Reaped start i m live) (hi : i ≤ start.lastProcess) {fuel : ℕ}
    (hfuel : start.lastProcess < fuel + i) :
    ∃ live' m', reapLoop fuel i m live = some (live', m') ∧
      Reaped start start.lastProcess m' live' := by
  induction fuel generalizing i m live with
  | zero => omega
  | succ fuel ih =>
    rw [reapLoop]
    by_cases hend : i = start.lastProcess
    · have hlast : ¬ i < m.lastProcess := by
        rw [hreaped.lastProcess]
        split <;> omega
      rw [if_neg hlast]
      exact ⟨live, m, rfl, hend ▸ hreaped⟩
    · have hlt : i < start.lastProcess := by omega
      rw [if_pos (by rw [hreaped.last_eq hlt]; exact hlt)]
      exact ih (reapOne_reaped hreaped hlt) hlt (by omega)

theorem nightReapChildren_reaped (m : Master) {fuel : ℕ} (hfuel : m.lastProcess < fuel) :
    ∃ live m', nightReapChildren fuel m = some (live, m') ∧
      Reaped m m.lastProcess m' live := by
  apply reapLoop_reaped _ (Nat.zero_le _) (by omega)
  exact ⟨nofun, fun k hk => rfl, by simp, by simp [told], by simp⟩

/-! ## The contract -/

/-- A message that closes the channel of the worker in slot `i`, with every field assigned. -/
structure Closes (start : Master) (i : ℕ) (ch : Channel) : Prop where
  command : ch.command = some nightCmdCloseChannel
  pid : ch.pid = some (start.processes i).pid
  slot : ch.slot = some i
  fd : ch.fd.isSome

/-- Every worker with a channel is told once of every worker that has exited; the slots of these
are released, the others stay below `night_last_process`, and `live` says whether one runs. -/
structure Right (start : Master) (live : Bool) (m : Master) : Prop where
  told : ∃ sent, m.written = start.written ++ sent ∧
    ∀ n < start.lastProcess, (start.processes n).hasChannel = true →
      ∀ i < start.lastProcess, (start.processes i).Gone →
        ∃ ch, Closes start i ch ∧
          (sent.filter fun message => message.1 = n ∧ message.2.slot = some i) = [(n, ch)]
  released : ∀ i < start.lastProcess, (start.processes i).Gone → (m.processes i).pid = -1
  used : ∀ i < start.lastProcess, (m.processes i).pid ≠ -1 → i < m.lastProcess
  live : live = true ↔ ∃ i < start.lastProcess, (start.processes i).Running

/-- There is no message to send. -/
def Quiet (m : Master) : Prop :=
  (∀ i < m.lastProcess, ¬ (m.processes i).Gone) ∨
    ∀ n < m.lastProcess, (m.processes n).hasChannel = false

/-- If a worker runs, one that is exiting or not detached does. -/
def Attached (m : Master) : Prop :=
  (∃ i < m.lastProcess, (m.processes i).Running) → ∃ i < m.lastProcess, (m.processes i).Counted

/-- The command of no message is assigned. -/
theorem command_eq_none {ch : Channel} {n : ℕ}
    (hsent : (n, ch) ∈ (told start i).flatMap fun k => writeAll start (closing start k)) :
    ch.command = none := by
  obtain ⟨k, -, hwrite⟩ := List.mem_flatMap.mp hsent
  obtain ⟨n', -, hmessage⟩ := List.mem_map.mp hwrite
  obtain ⟨rfl, rfl⟩ := Prod.mk.inj hmessage
  rfl

theorem Reaped.used (hreaped : Reaped start start.lastProcess m live) :
    ∀ i < start.lastProcess, (m.processes i).pid ≠ -1 → i < m.lastProcess := by
  intro i hi hused
  rw [hreaped.lastProcess]
  by_cases hshrinks : start.lastProcess = start.lastProcess ∧ 0 < start.lastProcess ∧
      (start.processes (start.lastProcess - 1)).Gone
  · rw [if_pos hshrinks]
    by_contra hlast
    obtain rfl : i = start.lastProcess - 1 := by omega
    rw [hreaped.below _ hi, Process.reaped, if_pos hshrinks.2.2] at hused
    split at hused <;> exact hused rfl
  · rw [if_neg hshrinks]
    exact hi

/-- The function is right when there is nobody to tell, and no running worker is detached. -/
theorem right_iff_quiet (m : Master) (fuel : ℕ) :
    ∃ live m', nightReapChildren (m.lastProcess + 1 + fuel) m = some (live, m') ∧
      (Right m live m' ↔ Quiet m ∧ Attached m) := by
  obtain ⟨live, m', hcall, hreaped⟩ :=
    nightReapChildren_reaped m (show m.lastProcess < m.lastProcess + 1 + fuel by omega)
  refine ⟨live, m', hcall, ?_, ?_⟩
  · intro hright
    constructor
    · by_contra hloud
      rw [Quiet] at hloud
      push Not at hloud
      obtain ⟨⟨i, hi, hgone⟩, n, hn, hchannel⟩ := hloud
      obtain ⟨sent, hwritten, htold⟩ := hright.told
      obtain ⟨ch, hcloses, hfilter⟩ := htold n hn (by simpa using hchannel) i hi hgone
      have hsent : (n, ch) ∈ sent := by
        apply List.mem_of_mem_filter
        rw [hfilter]
        exact List.mem_singleton_self _
      rw [hreaped.written] at hwritten
      rw [← List.append_cancel_left hwritten] at hsent
      have hnone := command_eq_none hsent
      rw [hcloses.command] at hnone
      cases hnone
    · intro hrunning
      exact hreaped.live.mp (hright.live.mpr hrunning)
  · rintro ⟨hquiet, hattached⟩
    refine ⟨⟨_, hreaped.written, ?_⟩, ?_, hreaped.used, ?_⟩
    · intro n hn hchannel i hi hgone
      rcases hquiet with hnone | hclosed
      · exact absurd hgone (hnone i hi)
      · rw [hclosed n hn] at hchannel
        cases hchannel
    · intro i hi hgone
      rw [hreaped.below i hi, Process.reaped, if_pos hgone]
      split <;> rfl
    · rw [hreaped.live]
      constructor
      · rintro ⟨i, hi, hcounted⟩
        exact ⟨i, hi, hcounted.1⟩
      · exact hattached

/-- Two workers with channels, of which the second has exited. -/
def twoWorkers : Master where
  processes := fun i => ⟨100 + i, 10 + 2 * i, 11 + 2 * i, i == 1, false, false⟩
  lastProcess := 2
  written := []
  closed := []

theorem not_right_two : ¬ ∀ (m : Master) (fuel : ℕ) (live : Bool) (m' : Master),
    nightReapChildren fuel m = some (live, m') → Right m live m' := by
  intro hall
  have hsent : (nightReapChildren 3 twoWorkers).map (fun result => result.2.written) =
      some [(0, ⟨none, some 101, some 1, none⟩)] := by decide
  obtain ⟨⟨live, m'⟩, hcall, hwritten⟩ := Option.map_eq_some_iff.mp hsent
  obtain ⟨sent, hsplit, htold⟩ := (hall twoWorkers 3 live m' hcall).told
  obtain ⟨ch, hcloses, hfilter⟩ := htold 0 (by decide) (by decide) 1 (by decide) (by decide)
  have hmem : (0, ch) ∈ sent := by
    apply List.mem_of_mem_filter
    rw [hfilter]
    exact List.mem_singleton_self _
  have hsame : sent = [(0, ⟨none, some 101, some 1, none⟩)] := hsplit.symm.trans hwritten
  rw [hsame, List.mem_singleton] at hmem
  have hcommand := hcloses.command
  rw [(Prod.mk.inj hmem).2] at hcommand
  cases hcommand

end Night.ReapChildren
