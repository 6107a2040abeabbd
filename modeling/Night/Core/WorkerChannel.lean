import Night.Core.Spawn

/-!
# Commands on the channels of the workers

`night_signal_worker_processes` writes a command to the channel of a worker, and calls `kill`
when that fails.  `night_reap_children` writes to the channels of the others when a worker has
gone, a message whose command and descriptor were never assigned.  `night_channel_handler` reads
both in the worker, and the loop of `night_worker_process_cycle` acts on them.  A worker starts
with the signals blocked that the master blocks and never unblocks them, so it does not notice
`kill`.
-/

namespace Night.WorkerChannel

open Night.MasterCycle
open Night.Runs
open Night.Spawn (Accounts Attached Live)

/-! ## A worker -/

/-- Where a worker is: at the test of `night_exiting`, in `night_process_events_and_timers`, at
the tests behind it, in `night_worker_process_exit`. -/
inductive Stage where
  | top
  | polling
  | tests
  | done
  deriving DecidableEq, Repr

/-- What a message of `night_reap_children` is to the worker that reads it, by the command that
happens to be in it: `NIGHT_CMD_TERMINATE`, `NIGHT_CMD_QUIT`, `NIGHT_CMD_OPEN_CHANNEL` without a
descriptor, or one of the others, which touch neither of the flags nor the channel. -/
inductive Stray where
  | terminate
  | quit
  | openChannel
  | other
  deriving DecidableEq, Repr

inductive Message where
  | command (signo : Signo)
  | stray (stray : Stray)
  deriving DecidableEq, Repr

/-- A worker with the messages in its channel and those it has read, and whether it still
reads. -/
structure Worker where
  pid : ℕ
  channel : List Message
  heard : List Message
  connected : Bool
  terminate : Bool
  quit : Bool
  exiting : Bool
  stage : Stage
  deriving DecidableEq, Repr

/-- A worker in front of its loop. -/
def started (pid : ℕ) : Worker := ⟨pid, [], [], true, false, false, false, .top⟩

inductive Work where
  | advance
  | read
  deriving DecidableEq, Repr

/-- The loop of `night_worker_process_cycle`. -/
def advance (w : Worker) : Option Worker :=
  match w.stage with
  | .top => some { w with stage := if w.exiting then .done else .polling }
  | .polling => some { w with stage := .tests }
  | .tests =>
      if w.terminate then some { w with stage := .done }
      else if w.quit then some { w with quit := false, exiting := true, stage := .top }
      else some { w with stage := .top }
  | .done => none

/-- The `switch` of `night_channel_handler`; when `night_read_channel` returns an error the
connection is closed. -/
def heed (w : Worker) : Message → Worker
  | .command .term => { w with terminate := true }
  | .command .quit => { w with quit := true }
  | .stray .terminate => { w with terminate := true }
  | .stray .quit => { w with quit := true }
  | .stray .openChannel => { w with connected := false }
  | .stray .other => w

/-- `night_channel_handler` for the next message. -/
def read (w : Worker) : Option Worker :=
  match w.stage, w.connected, w.channel with
  | .polling, true, message :: channel =>
      some (heed { w with channel := channel, heard := w.heard ++ [message] } message)
  | _, _, _ => none

def workerStep (w : Worker) : Work → Option Worker
  | .advance => advance w
  | .read => read w

/-! ## The system -/

/-- The master, and the worker of each slot of its table. -/
structure System where
  master : Master
  workers : List Worker
  deriving DecidableEq, Repr

def start (pids : List ℕ) : System := ⟨MasterCycle.start pids, pids.map started⟩

/-- Who takes a signal: the channel, or `kill`, or neither. -/
inductive Answer where
  | channel
  | kill
  | refused
  deriving DecidableEq, Repr

/-- The slot that `night_signal_worker_processes` writes to. -/
def recipient (m : Master) : Option (ℕ × Signo) :=
  match m.pc with
  | .signalling signo i =>
      if i < m.lastProcess then
        match m.processes[i]? with
        | none => none
        | some p =>
            if p.pid = none then none
            else if p.exiting && signo = .quit then none
            else some (i, signo)
      else none
  | _ => none

/-- The command is in the channel. -/
def tell (m : Master) (workers : List Worker) : List Worker :=
  match recipient m with
  | none => workers
  | some (i, signo) =>
      workers.modify i fun w => { w with channel := w.channel ++ [.command signo] }

/-- Whether `night_reap_children` writes to the channel of slot `n`; a slot in use has one. -/
def mourns (m : Master) (n : ℕ) : Bool :=
  match m.pc with
  | .reaping i _ =>
      i < m.lastProcess &&
        (match m.processes[i]? with
        | none => false
        | some p => p.pid.isSome && p.exited && !p.detached) &&
        n < m.lastProcess &&
        match m.processes[n]? with
        | none => false
        | some p => !(p.exited || p.pid.isNone)
  | _ => false

/-- The messages of `night_reap_children` are in the channels that take one; `strays` says for
each slot whether it does and what is in it. -/
def mourn (m : Master) (strays : List (Option Stray)) (workers : List Worker) : List Worker :=
  workers.mapIdx fun n w =>
    match strays[n]? with
    | some (some stray) =>
        if mourns m n then { w with channel := w.channel ++ [.stray stray] } else w
    | _ => w

/-- Steps of the master, signals, and steps of the worker in a slot, which ends as its loop has
it or in another way. -/
inductive Act where
  | advance (answer : Answer) (strays : List (Option Stray))
  | chld
  | term
  | quit
  | int
  | work (slot : ℕ) (work : Work)
  | exit (slot : ℕ)
  | crash (slot : ℕ)
  deriving DecidableEq, Repr

def step (s : System) : Act → Option System
  | .advance answer strays =>
      (MasterCycle.step s.master (.advance (answer ≠ .refused))).map fun m =>
        ⟨m, mourn s.master strays
          (if answer = .channel then tell s.master s.workers else s.workers)⟩
  | .chld => (MasterCycle.step s.master .chld).map fun m => ⟨m, s.workers⟩
  | .term => (MasterCycle.step s.master .term).map fun m => ⟨m, s.workers⟩
  | .quit => (MasterCycle.step s.master .quit).map fun m => ⟨m, s.workers⟩
  | .int => (MasterCycle.step s.master .int).map fun m => ⟨m, s.workers⟩
  | .work slot work =>
      match s.workers[slot]? with
      | none => none
      | some w =>
          if w.pid ∈ s.master.running then
            (workerStep w work).map fun w => ⟨s.master, s.workers.set slot w⟩
          else none
  | .exit slot =>
      match s.workers[slot]? with
      | none => none
      | some w =>
          if w.stage = .done then
            (MasterCycle.step s.master (.workerExit w.pid)).map fun m => ⟨m, s.workers⟩
          else none
  | .crash slot =>
      match s.workers[slot]? with
      | none => none
      | some w => (MasterCycle.step s.master (.workerExit w.pid)).map fun m => ⟨m, s.workers⟩

/-! ## What a worker does -/

/-- What a worker was sent so far. -/
def Worker.sent (w : Worker) : List Message := w.heard ++ w.channel

def Message.signo : Message → Option Signo
  | .command signo => some signo
  | .stray _ => none

/-- The commands among what it was sent. -/
def Worker.commands (w : Worker) : List Signo := w.sent.filterMap Message.signo

/-- The message ends the worker that reads it. -/
def Message.Ends (message : Message) : Prop :=
  message.signo.isSome ∨ message = .stray .terminate ∨ message = .stray .quit

/-- The flags of a worker come from the messages it has read. -/
structure Worker.Sane (w : Worker) : Prop where
  told : w.terminate = true ∨ w.quit = true ∨ w.exiting = true ∨ w.stage = .done →
    ∃ message ∈ w.heard, message.Ends
  notices : (∃ message ∈ w.heard, message.Ends) →
    w.terminate = true ∨ w.quit = true ∨ w.exiting = true
  connected : .stray .openChannel ∉ w.heard → w.connected = true

variable {w w' : Worker} {work : Work} {message : Message}

theorem sane_started (pid : ℕ) : (started pid).Sane := by
  constructor <;> simp [started]

/-- What heeding a message does: it sets a flag, or the message ends nothing. -/
theorem heed_cases (w : Worker) (message : Message) :
    message.Ends ∧ (heed w message = { w with terminate := true } ∨
        heed w message = { w with quit := true }) ∨
      ¬ message.Ends ∧ (heed w message = w ∨
        message = .stray .openChannel ∧ heed w message = { w with connected := false }) := by
  match message with
  | .command .term => exact .inl ⟨.inl rfl, .inl rfl⟩
  | .command .quit => exact .inl ⟨.inl rfl, .inr rfl⟩
  | .stray .terminate => exact .inl ⟨.inr (.inl rfl), .inl rfl⟩
  | .stray .quit => exact .inl ⟨.inr (.inr rfl), .inr rfl⟩
  | .stray .openChannel =>
      exact .inr ⟨by simp [Message.Ends, Message.signo], .inr ⟨rfl, rfl⟩⟩
  | .stray .other => exact .inr ⟨by simp [Message.Ends, Message.signo], .inl rfl⟩

theorem read_cases (hread : read w = some w') :
    w.stage = .polling ∧ ∃ message channel, w.channel = message :: channel ∧
      w' = heed { w with channel := channel, heard := w.heard ++ [message] } message := by
  rw [read] at hread
  split at hread
  · rename_i message channel hstage _ hchannel
    cases hread
    exact ⟨hstage, message, channel, hchannel, rfl⟩
  · cases hread

/-- A worker takes the first message of its channel, and changes nothing else that was sent. -/
theorem sent_workerStep (hstep : workerStep w work = some w') :
    w'.pid = w.pid ∧ w'.sent = w.sent := by
  cases work with
  | advance =>
      rw [workerStep, advance] at hstep
      split at hstep
      · cases hstep
        exact ⟨rfl, rfl⟩
      · cases hstep
        exact ⟨rfl, rfl⟩
      · split at hstep
        · cases hstep
          exact ⟨rfl, rfl⟩
        · split at hstep
          · cases hstep
            exact ⟨rfl, rfl⟩
          · cases hstep
            exact ⟨rfl, rfl⟩
      · cases hstep
  | read =>
      obtain ⟨_, message, channel, hchannel, rfl⟩ := read_cases hstep
      have hsent : (w.heard ++ [message]) ++ channel = w.heard ++ w.channel := by
        rw [hchannel, List.append_assoc, List.singleton_append]
      obtain ⟨_, heq | heq⟩ | ⟨_, heq | ⟨_, heq⟩⟩ := heed_cases
        { w with channel := channel, heard := w.heard ++ [message] } message
      all_goals
        rw [heq]
        exact ⟨rfl, hsent⟩

theorem sane_workerStep (hsane : w.Sane) (hstep : workerStep w work = some w') : w'.Sane := by
  obtain ⟨htold, hnotices, hconnected⟩ := hsane
  cases work with
  | advance =>
      rw [workerStep, advance] at hstep
      split at hstep
      · cases hstep
        refine ⟨fun h => ?_, hnotices, hconnected⟩
        rcases h with h | h | h | hdone
        · exact htold (.inl h)
        · exact htold (.inr (.inl h))
        · exact htold (.inr (.inr (.inl h)))
        · have hexiting : w.exiting = true := by
            by_contra hexiting
            simp [hexiting] at hdone
          exact htold (.inr (.inr (.inl hexiting)))
      · cases hstep
        refine ⟨fun h => ?_, hnotices, hconnected⟩
        rcases h with h | h | h | hdone
        · exact htold (.inl h)
        · exact htold (.inr (.inl h))
        · exact htold (.inr (.inr (.inl h)))
        · cases hdone
      · split at hstep
        · rename_i hterminate
          cases hstep
          exact ⟨fun _ => htold (.inl hterminate), hnotices, hconnected⟩
        · split at hstep
          · rename_i hquit
            cases hstep
            exact ⟨fun _ => htold (.inr (.inl hquit)), fun _ => .inr (.inr rfl), hconnected⟩
          · cases hstep
            refine ⟨fun h => ?_, hnotices, hconnected⟩
            rcases h with h | h | h | hdone
            · exact htold (.inl h)
            · exact htold (.inr (.inl h))
            · exact htold (.inr (.inr (.inl h)))
            · cases hdone
      · cases hstep
  | read =>
      obtain ⟨hstage, message, channel, -, rfl⟩ := read_cases hstep
      have hpolling : ¬ w.stage = .done := by rw [hstage]; decide
      have hold : (∃ message ∈ w.heard, message.Ends) →
          ∃ message' ∈ w.heard ++ [message], message'.Ends := by
        rintro ⟨before, hbefore, hends⟩
        exact ⟨before, List.mem_append_left _ hbefore, hends⟩
      obtain ⟨hends, heq⟩ | ⟨hnot, heq⟩ := heed_cases
        { w with channel := channel, heard := w.heard ++ [message] } message
      · have hnew : ∃ message' ∈ w.heard ++ [message], message'.Ends :=
          ⟨message, List.mem_append_right _ List.mem_cons_self, hends⟩
        have hopen : .stray .openChannel ∉ w.heard ++ [message] → w.connected = true :=
          fun hnot => hconnected fun hin => hnot (List.mem_append_left _ hin)
        rcases heq with heq | heq
        · rw [heq]
          exact ⟨fun _ => hnew, fun _ => .inl rfl, hopen⟩
        · rw [heq]
          exact ⟨fun _ => hnew, fun _ => .inr (.inl rfl), hopen⟩
      · have hsame : (∃ message' ∈ w.heard ++ [message], message'.Ends) →
            ∃ message' ∈ w.heard, message'.Ends := by
          rintro ⟨message', hin, hends⟩
          obtain hin | hin := List.mem_append.mp hin
          · exact ⟨message', hin, hends⟩
          · rw [List.mem_singleton.mp hin] at hends
            exact absurd hends hnot
        rcases heq with heq | ⟨hopen, heq⟩
        · rw [heq]
          refine ⟨fun h => hold (htold h), fun h => hnotices (hsame h), fun hnot => ?_⟩
          exact hconnected fun hin => hnot (List.mem_append_left _ hin)
        · rw [heq]
          refine ⟨fun h => hold (htold h), fun h => hnotices (hsame h), fun hnot => ?_⟩
          exact absurd (List.mem_append_right _ (hopen ▸ List.mem_cons_self)) hnot

/-- Steps of one worker. -/
abbrev Works (w w' : Worker) : Prop := Reached workerStep (fun _ _ => True) w w'

theorem Works.next {w'' : Worker} {work : Work} (hworks : Works w w')
    (hstep : workerStep w' work = some w'') : Works w w'' :=
  Reached.step hworks trivial hstep

theorem Works.kept (hworks : Works w w') (hsane : w.Sane) :
    w'.Sane ∧ w'.pid = w.pid ∧ w'.sent = w.sent := by
  induction hworks with
  | start => exact ⟨hsane, rfl, rfl⟩
  | step _ _ hstep ih =>
      obtain ⟨hsane', hpid, hsent⟩ := ih
      obtain ⟨hpid', hsent'⟩ := sent_workerStep hstep
      exact ⟨sane_workerStep hsane' hstep, hpid'.trans hpid, hsent'.trans hsent⟩

/-- A worker that is to exit gets to `night_worker_process_exit` or polls again. -/
theorem works_top (hstage : w.stage = .top) :
    ∃ w', Works w w' ∧ (w'.stage = .done ∨ w'.stage = .polling) ∧
      (w.exiting = true → w'.stage = .done) := by
  have hstep : workerStep w .advance =
      some { w with stage := if w.exiting then .done else .polling } := by
    simp only [workerStep, advance, hstage]
  refine ⟨_, Works.next .start hstep, ?_, ?_⟩
  · cases w.exiting
    · exact .inr rfl
    · exact .inl rfl
  · intro hexiting
    simp only [hexiting, if_true]

/-- Behind the tests, too; a command that was read is acted on. -/
theorem works_tests (hstage : w.stage = .tests) :
    ∃ w', Works w w' ∧ (w'.stage = .done ∨ w'.stage = .polling) ∧
      (w.terminate = true ∨ w.quit = true ∨ w.exiting = true → w'.stage = .done) := by
  by_cases hterminate : w.terminate = true
  · have hstep : workerStep w .advance = some { w with stage := .done } := by
      simp only [workerStep, advance, hstage, hterminate, if_true]
    exact ⟨_, Works.next .start hstep, .inl rfl, fun _ => rfl⟩
  · by_cases hquit : w.quit = true
    · have hstep : workerStep w .advance =
          some { w with quit := false, exiting := true, stage := .top } := by
        simp [workerStep, advance, hstage, hterminate, hquit]
      have hnext : Works w { w with quit := false, exiting := true, stage := .top } :=
        Works.next .start hstep
      obtain ⟨w', hworks, hend, hdone⟩ :=
        @works_top { w with quit := false, exiting := true, stage := .top } rfl
      exact ⟨w', hnext.trans hworks, hend, fun _ => hdone rfl⟩
    · have hstep : workerStep w .advance = some { w with stage := .top } := by
        simp [workerStep, advance, hstage, hterminate, hquit]
      have hnext : Works w { w with stage := .top } := Works.next .start hstep
      obtain ⟨w', hworks, hend, hdone⟩ := @works_top { w with stage := .top } rfl
      refine ⟨w', hnext.trans hworks, hend, ?_⟩
      rintro (h | h | hexiting)
      · exact absurd h hterminate
      · exact absurd h hquit
      · exact hdone hexiting

/-- A worker that polls reads its channel to the end, where no message closes it. -/
theorem works_reading (hsane : w.Sane) (hstage : w.stage = .polling)
    (hopen : .stray .openChannel ∉ w.sent) :
    ∃ w', Works w w' ∧ w'.stage = .polling ∧ w'.channel = [] := by
  generalize hchannel : w.channel = channel
  induction channel generalizing w with
  | nil => exact ⟨w, .start, hstage, hchannel⟩
  | cons message channel ih =>
      have hconnected : w.connected = true :=
        hsane.connected fun hin => hopen (List.mem_append_left _ hin)
      have hread : workerStep w .read =
          some (heed { w with channel := channel, heard := w.heard ++ [message] } message) := by
        simp only [workerStep, read, hstage, hconnected, hchannel]
      have hkept : ∀ v : Worker, (heed v message).stage = v.stage ∧
          (heed v message).channel = v.channel := by
        intro v
        obtain ⟨_, heq | heq⟩ | ⟨_, heq | ⟨_, heq⟩⟩ := heed_cases v message
        all_goals
          rw [heq]
          exact ⟨rfl, rfl⟩
      obtain ⟨-, hsent⟩ := sent_workerStep hread
      obtain ⟨w', hworks, hend⟩ := ih (sane_workerStep hsane hread) ((hkept _).1.trans hstage)
        (hsent ▸ hopen) (hkept _).2
      exact ⟨w', (Works.next .start hread).trans hworks, hend⟩

/-- A worker that was sent a command gets to `night_worker_process_exit`. -/
theorem works_done (hsane : w.Sane) (hcommands : w.commands ≠ [])
    (hopen : .stray .openChannel ∉ w.sent) : ∃ w', Works w w' ∧ w'.stage = .done := by
  -- it polls, or is there before
  have hpolling : ∃ w', Works w w' ∧ (w'.stage = .done ∨ w'.stage = .polling) := by
    cases hstage : w.stage with
    | top =>
        obtain ⟨w', hworks, hend, _⟩ := works_top hstage
        exact ⟨w', hworks, hend⟩
    | polling => exact ⟨w, .start, .inr hstage⟩
    | tests =>
        obtain ⟨w', hworks, hend, _⟩ := works_tests hstage
        exact ⟨w', hworks, hend⟩
    | done => exact ⟨w, .start, .inl hstage⟩
  obtain ⟨polling, hworks, hdone | hstage⟩ := hpolling
  · exact ⟨polling, hworks, hdone⟩
  · obtain ⟨hsane₁, _, hsent₁⟩ := hworks.kept hsane
    obtain ⟨reader, hreads, hstage', hchannel⟩ := works_reading hsane₁ hstage (hsent₁ ▸ hopen)
    have hworks : Works w reader := hworks.trans hreads
    obtain ⟨hsane', _, hsame⟩ := hworks.kept hsane
    have hheard : ∃ message ∈ reader.heard, message.Ends := by
      rw [Worker.sent, hchannel, List.append_nil] at hsame
      obtain ⟨signo, hsigno⟩ := List.exists_mem_of_ne_nil _ hcommands
      obtain ⟨message, hin, hmessage⟩ := List.mem_filterMap.mp hsigno
      exact ⟨message, hsame ▸ hin, .inl (Option.isSome_of_eq_some hmessage)⟩
    have hstep : workerStep reader .advance = some { reader with stage := .tests } := by
      simp only [workerStep, advance, hstage']
    obtain ⟨w', hrest, _, hdone⟩ := @works_tests { reader with stage := .tests } rfl
    exact ⟨w', (Works.next hworks hstep).trans hrest, hdone (hsane'.notices hheard)⟩

/-! ## What the master does -/

variable {m m' : Master}

/-- The commands that the master was told itself. -/
def told (m : Master) : Signo → Bool
  | .term => m.terminate
  | .quit => m.quit

/-- The slot that is written to is in use and gets its mark. -/
theorem recipient_some {i : ℕ} {signo : Signo} (hrecipient : recipient m = some (i, signo)) :
    m.pc = .signalling signo i ∧ ∃ p, m.processes[i]? = some p ∧
      (p.exiting = true → signo ≠ .quit) ∧
      MasterCycle.step m (.advance true) = some { m with
        processes := m.processes.set i { p with exiting := true }
        pc := .signalling signo (i + 1) } := by
  unfold recipient at hrecipient
  split at hrecipient
  · rename_i signo' i' hpc
    split at hrecipient
    · rename_i hlast
      split at hrecipient
      · cases hrecipient
      · rename_i p hp
        split at hrecipient
        · cases hrecipient
        · rename_i hpid
          split at hrecipient
          · cases hrecipient
          · rename_i hagain
            cases hrecipient
            refine ⟨hpc, p, hp, fun hexiting hquit => hagain (by simp [hexiting, hquit]), ?_⟩
            simp only [MasterCycle.step, MasterCycle.advance, hpc]
            rw [if_pos hlast]
            simp only [signalOne, hp]
            rw [if_neg hpid, if_neg hagain, if_true]
    · cases hrecipient
  · cases hrecipient

/-- A slot that is passed is free, or was asked to quit before. -/
theorem recipient_none {i : ℕ} {signo : Signo} (hpc : m.pc = .signalling signo i)
    (hlast : i < m.lastProcess) (hrecipient : recipient m = none) {p : Process}
    (hp : m.processes[i]? = some p) : p.pid = none ∨ p.exiting = true := by
  simp only [recipient, hpc] at hrecipient
  rw [if_pos hlast] at hrecipient
  simp only [hp] at hrecipient
  split at hrecipient
  · exact .inl ‹_›
  · split at hrecipient
    · rename_i hagain
      simp only [Bool.and_eq_true] at hagain
      exact .inr hagain.1
    · cases hrecipient

/-- The loop marks a slot that takes the signal. -/
theorem signalOne_recipient {i : ℕ} {signo : Signo} (hpc : m.pc = .signalling signo i)
    (hlast : i < m.lastProcess) (answered : Bool) :
    signalOne m signo i answered = { m with pc := .signalling signo (i + 1) } ∨
      ∃ p, m.processes[i]? = some p ∧ answered = true ∧ recipient m = some (i, signo) ∧
        signalOne m signo i answered = { m with
          processes := m.processes.set i { p with exiting := true }
          pc := .signalling signo (i + 1) } := by
  unfold signalOne
  split
  · exact .inl rfl
  · rename_i p hp
    split
    · exact .inl rfl
    · rename_i hpid
      split
      · exact .inl rfl
      · rename_i hagain
        split
        · rename_i hanswered
          refine .inr ⟨p, hp, hanswered, ?_, rfl⟩
          simp only [recipient, hpc]
          rw [if_pos hlast]
          simp only [hp]
          rw [if_neg hpid, if_neg hagain]
        · exact .inl rfl

/-- The slot `k` takes a signal in a step of the loop. -/
def Takes (m : Master) (act : MasterCycle.Act) (k : ℕ) : Prop :=
  act = .advance true ∧ ∃ signo, recipient m = some (k, signo)

/-- Marks stay, and only a slot that takes a signal gets one. -/
def Marks (m : Master) (act : MasterCycle.Act) (m' : Master) : Prop :=
  ∀ (k : ℕ) (p' : Process), m'.processes[k]? = some p' → ∃ p, m.processes[k]? = some p ∧
    (p.exiting = true → p'.exiting = true) ∧
    (p'.exiting = true → p.exiting = true ∨ Takes m act k)

/-- What the master was told stays, too. -/
structure Remembers (m : Master) (act : MasterCycle.Act) (m' : Master) : Prop where
  marks : Marks m act m'
  told : ∀ signo, told m signo = true → told m' signo = true
  signalling : (∀ signo i, m.pc = .signalling signo i → WorkerChannel.told m signo = true) →
    ∀ signo i, m'.pc = .signalling signo i → WorkerChannel.told m' signo = true

theorem marks_refl {act : MasterCycle.Act} (hprocesses : m'.processes = m.processes) :
    Marks m act m' := by
  intro k p' hp'
  rw [hprocesses] at hp'
  exact ⟨p', hp', id, .inl⟩

theorem marks_set {act : MasterCycle.Act} {p q : Process} {i : ℕ} (hp : m.processes[i]? = some p)
    (hprocesses : m'.processes = m.processes.set i q) (hstays : p.exiting = true → q.exiting = true)
    (hnew : q.exiting = true → p.exiting = true ∨ Takes m act i) : Marks m act m' := by
  intro k p' hp'
  rw [hprocesses] at hp'
  by_cases hk : i = k
  · subst hk
    obtain ⟨hlength, _⟩ := List.getElem?_eq_some_iff.mp hp
    rw [List.getElem?_set_self hlength] at hp'
    cases hp'
    exact ⟨p, hp, hstays, hnew⟩
  · rw [List.getElem?_set_ne hk] at hp'
    exact ⟨p', hp', id, .inl⟩

theorem marks_handleChld (act : MasterCycle.Act) (m : Master) : Marks m act (handleChld m) := by
  intro k p' hp'
  have hfold (zombies : List ℕ) (processes : List Process) {p' : Process}
      (hp' : (zombies.foldl (fun table z => markExited z m.lastProcess table) processes)[k]? =
        some p') : ∃ p, processes[k]? = some p ∧ p.exiting = p'.exiting := by
    induction zombies generalizing processes with
    | nil => exact ⟨p', hp', rfl⟩
    | cons z zombies ih =>
        obtain ⟨p, hp, hsame⟩ := ih _ hp'
        obtain hp₁ | ⟨q, hq, _, hmarked⟩ := Spawn.getElem?_markExited z m.lastProcess processes k
        · rw [hp₁] at hp
          exact ⟨p, hp, hsame⟩
        · rw [hmarked] at hp
          cases hp
          exact ⟨q, hq, hsame⟩
  obtain ⟨p, hp, hsame⟩ := hfold m.zombies m.processes hp'
  exact ⟨p, hp, fun h => hsame ▸ h, fun h => .inl (hsame ▸ h)⟩

theorem remembers_advance {answered : Bool} (hstep : MasterCycle.advance m answered = some m') :
    Remembers m (.advance answered) m' := by
  unfold MasterCycle.advance at hstep
  split at hstep
  case h_5 i live hpc =>
    cases hstep
    by_cases hlast : i < m.lastProcess
    · rw [if_pos hlast]
      obtain ⟨_, heq⟩ | ⟨p, last, hp, _, _, heq⟩ | ⟨_, _, _, _, heq⟩ | ⟨_, _, _, _, _, heq⟩ :=
        reapOne_cases hlast live
      · rw [heq]
        exact ⟨marks_refl rfl, fun _ => id, nofun⟩
      · rw [heq]
        exact ⟨marks_set hp rfl (fun h => h) .inl, fun _ => id, nofun⟩
      · rw [heq]
        exact ⟨marks_refl rfl, fun _ => id, nofun⟩
      · rw [heq]
        exact ⟨marks_refl rfl, fun _ => id, nofun⟩
    · rw [if_neg hlast]
      exact ⟨marks_refl rfl, fun _ => id, nofun⟩
  case h_9 signo i hpc =>
    cases hstep
    by_cases hlast : i < m.lastProcess
    · rw [if_pos hlast]
      obtain heq | ⟨p, hp, rfl, hrecipient, heq⟩ := signalOne_recipient hpc hlast answered
      · rw [heq]
        refine ⟨marks_refl rfl, fun _ => id, fun hbefore _ _ hpc' => ?_⟩
        cases hpc'
        exact hbefore signo i hpc
      · rw [heq]
        refine ⟨marks_set hp rfl (fun _ => rfl) fun _ => .inr ⟨rfl, signo, hrecipient⟩,
          fun _ => id, fun hbefore _ _ hpc' => ?_⟩
        cases hpc'
        exact hbefore signo i hpc
    · rw [if_neg hlast]
      exact ⟨marks_refl rfl, fun _ => id, nofun⟩
  case h_7 =>
    cases hstep
    refine ⟨marks_refl rfl, fun _ => id, fun _ signo i hpc' => ?_⟩
    by_cases hterminate : m.terminate = true
    · simp only [hterminate, if_true] at hpc'
      cases hpc'
      exact hterminate
    · simp [hterminate] at hpc'
  case h_8 =>
    cases hstep
    refine ⟨marks_refl rfl, fun _ => id, fun _ signo i hpc' => ?_⟩
    by_cases hquit : m.quit = true
    · simp only [hquit, if_true] at hpc'
      cases hpc'
      exact hquit
    · simp [hquit] at hpc'
  case h_3 =>
    cases hstep
    refine ⟨marks_refl rfl, fun _ => id, fun _ signo i hpc' => ?_⟩
    simp only at hpc'
    split at hpc' <;> cases hpc'
  case h_6 =>
    cases hstep
    refine ⟨marks_refl rfl, fun _ => id, fun _ signo i hpc' => ?_⟩
    simp only at hpc'
    split at hpc' <;> cases hpc'
  all_goals cases hstep
  all_goals exact ⟨marks_refl rfl, fun _ => id, nofun⟩

theorem remembers_step {act : MasterCycle.Act} (hstep : MasterCycle.step m act = some m') :
    Remembers m act m' := by
  cases act with
  | advance answered => exact remembers_advance hstep
  | chld =>
      rw [MasterCycle.step] at hstep
      split at hstep
      · cases hstep
      · cases hstep
        refine ⟨marks_handleChld _ m, fun signo => ?_, fun hbefore signo i hpc => ?_⟩
        · cases signo <;> exact id
        · have hpc' : m.pc = .signalling signo i := by
            cases hplace : m.pc <;> simp only [hplace, Pc.caught] at hpc <;> cases hpc
            rfl
          cases signo <;> exact hbefore _ i hpc'
  | term =>
      rw [MasterCycle.step] at hstep
      split at hstep
      · rename_i hpc
        obtain ⟨caught, hpc⟩ := isSuspended_iff.mp hpc
        cases hstep
        refine ⟨marks_refl rfl, fun signo => ?_, fun _ signo i hpc' => ?_⟩
        · cases signo
          · exact fun _ => rfl
          · exact id
        · simp only [hpc] at hpc'
          cases hpc'
      · cases hstep
  | quit =>
      rw [MasterCycle.step] at hstep
      split at hstep
      · rename_i hpc
        obtain ⟨caught, hpc⟩ := isSuspended_iff.mp hpc
        cases hstep
        refine ⟨marks_refl rfl, fun signo => ?_, fun _ signo i hpc' => ?_⟩
        · cases signo
          · exact id
          · exact fun _ => rfl
        · simp only [hpc] at hpc'
          cases hpc'
      · cases hstep
  | int =>
      rw [MasterCycle.step] at hstep
      split at hstep
      · cases hstep
        exact ⟨marks_refl rfl, fun _ => id, fun _ _ _ hpc => by cases hpc⟩
      · cases hstep
  | workerExit pid =>
      rw [MasterCycle.step] at hstep
      split at hstep
      · cases hstep
        exact ⟨marks_refl rfl, fun _ => id, id⟩
      · cases hstep

/-! ## What the system does -/

variable {s s' : System} {act : Act}

theorem getElem?_tell {workers : List Worker} {k : ℕ} (hw' : (tell m workers)[k]? = some w') :
    ∃ w, workers[k]? = some w ∧ ((w' = w ∧ ∀ signo, recipient m ≠ some (k, signo)) ∨
      ∃ signo, recipient m = some (k, signo) ∧
        w' = { w with channel := w.channel ++ [.command signo] }) := by
  unfold tell at hw'
  split at hw'
  · rename_i hnone
    exact ⟨w', hw', .inl ⟨rfl, by simp [hnone]⟩⟩
  · rename_i i signo hrecipient
    rw [List.getElem?_modify] at hw'
    obtain ⟨w, hw, heq⟩ := Option.map_eq_some_iff.mp hw'
    refine ⟨w, hw, ?_⟩
    by_cases hk : i = k
    · subst hk
      rw [if_pos rfl] at heq
      exact .inr ⟨signo, hrecipient, heq.symm⟩
    · rw [if_neg hk] at heq
      refine .inl ⟨heq.symm, fun signo' h => hk ?_⟩
      rw [hrecipient] at h
      cases h
      rfl

theorem getElem?_mourn {strays : List (Option Stray)} {workers : List Worker} {k : ℕ}
    (hw' : (mourn m strays workers)[k]? = some w') :
    ∃ w, workers[k]? = some w ∧ (w' = w ∨ ∃ stray, some stray ∈ strays ∧
      w' = { w with channel := w.channel ++ [.stray stray] }) := by
  rw [mourn, List.getElem?_mapIdx] at hw'
  obtain ⟨w, hw, heq⟩ := Option.map_eq_some_iff.mp hw'
  refine ⟨w, hw, ?_⟩
  split at heq
  · rename_i stray hstray
    split at heq
    · exact .inr ⟨stray, List.mem_of_getElem? hstray, heq.symm⟩
    · exact .inl heq.symm
  · exact .inl heq.symm

/-- What a step of the master writes to a slot: a command, if the slot takes the signal, and
perhaps a message of `night_reap_children`. -/
theorem getElem?_written {answer : Answer} {strays : List (Option Stray)}
    {workers : List Worker} {k : ℕ}
    (hw' : (mourn m strays (if answer = .channel then tell m workers else workers))[k]? =
      some w') :
    ∃ w messages, workers[k]? = some w ∧ w' = { w with channel := w.channel ++ messages } ∧
      ((messages.filterMap Message.signo = [] ∧
          (answer = .channel → ∀ signo, recipient m ≠ some (k, signo))) ∨
        ∃ signo, answer = .channel ∧ recipient m = some (k, signo) ∧
          messages.filterMap Message.signo = [signo]) ∧
      (.stray .openChannel ∈ messages → some .openChannel ∈ strays) := by
  obtain ⟨middle, hmiddle, hmourned⟩ := getElem?_mourn hw'
  obtain ⟨w, front, hw, hfront, hcommands, hstray⟩ :
      ∃ w front, workers[k]? = some w ∧ middle = { w with channel := w.channel ++ front } ∧
        ((front.filterMap Message.signo = [] ∧
            (answer = .channel → ∀ signo, recipient m ≠ some (k, signo))) ∨
          ∃ signo, answer = .channel ∧ recipient m = some (k, signo) ∧
            front.filterMap Message.signo = [signo]) ∧ .stray .openChannel ∉ front := by
    split at hmiddle
    · rename_i hanswer
      obtain ⟨w, hw, ⟨rfl, hother⟩ | ⟨signo, hrecipient, rfl⟩⟩ := getElem?_tell hmiddle
      · exact ⟨middle, [], hw, by simp, .inl ⟨rfl, fun _ => hother⟩, List.not_mem_nil⟩
      · exact ⟨w, [.command signo], hw, rfl, .inr ⟨signo, hanswer, hrecipient, rfl⟩, by simp⟩
    · rename_i hanswer
      exact ⟨middle, [], hmiddle, by simp, .inl ⟨rfl, fun h => absurd h hanswer⟩,
        List.not_mem_nil⟩
  obtain rfl | ⟨stray, hin, rfl⟩ := hmourned
  · exact ⟨w, front, hw, hfront, hcommands, fun h => absurd h hstray⟩
  · have hsame : (front ++ [Message.stray stray]).filterMap Message.signo =
        front.filterMap Message.signo := by
      rw [List.filterMap_append]
      exact List.append_nil _
    refine ⟨w, front ++ [.stray stray], hw, by rw [hfront, List.append_assoc], ?_, ?_⟩
    · rw [hsame]
      exact hcommands
    · intro hopen
      obtain hopen | hopen := List.mem_append.mp hopen
      · exact absurd hopen hstray
      · cases List.mem_singleton.mp hopen
        exact hin

/-- A step is one of the master, which may write to workers, or one of a worker that runs. -/
theorem step_cases (hstep : step s act = some s') :
    (∃ act', MasterCycle.step s.master act' = some s'.master ∧
      ((s'.workers = s.workers ∧ (∀ answer strays, act ≠ .advance answer strays) ∧
          ∀ answered, act' ≠ .advance answered) ∨
        ∃ answer strays, act = .advance answer strays ∧ act' = .advance (answer ≠ .refused) ∧
          s'.workers = mourn s.master strays
            (if answer = .channel then tell s.master s.workers else s.workers))) ∨
      ∃ slot work w w', s.workers[slot]? = some w ∧ workerStep w work = some w' ∧
        (∀ answer strays, act ≠ .advance answer strays) ∧
        s' = ⟨s.master, s.workers.set slot w'⟩ := by
  cases act with
  | advance answer strays =>
      obtain ⟨m, hm, rfl⟩ := Option.map_eq_some_iff.mp hstep
      exact .inl ⟨_, hm, .inr ⟨answer, strays, rfl, rfl, rfl⟩⟩
  | chld | term | quit | int =>
      obtain ⟨m, hm, rfl⟩ := Option.map_eq_some_iff.mp hstep
      exact .inl ⟨_, hm, .inl ⟨rfl, nofun, nofun⟩⟩
  | work slot work =>
      rw [step] at hstep
      split at hstep
      · cases hstep
      · rename_i w hw
        split at hstep
        · obtain ⟨w', hw', rfl⟩ := Option.map_eq_some_iff.mp hstep
          exact .inr ⟨slot, work, w, w', hw, hw', nofun, rfl⟩
        · cases hstep
  | exit slot =>
      rw [step] at hstep
      split at hstep
      · cases hstep
      · split at hstep
        · obtain ⟨m, hm, rfl⟩ := Option.map_eq_some_iff.mp hstep
          exact .inl ⟨_, hm, .inl ⟨rfl, nofun, nofun⟩⟩
        · cases hstep
  | crash slot =>
      rw [step] at hstep
      split at hstep
      · cases hstep
      · obtain ⟨m, hm, rfl⟩ := Option.map_eq_some_iff.mp hstep
        exact .inl ⟨_, hm, .inl ⟨rfl, nofun, nofun⟩⟩

/-- What is written to a worker changes nothing but its channel. -/
theorem sane_write (hsane : w.Sane) (messages : List Message) :
    Worker.Sane { w with channel := w.channel ++ messages } :=
  ⟨hsane.told, hsane.notices, hsane.connected⟩

/-- A worker in its slot before a step and behind it. -/
structure Follows (s : System) (act : Act) (k : ℕ) (w w' : Worker) : Prop where
  pid : w'.pid = w.pid
  sane : w.Sane → w'.Sane
  commands : (w'.commands = w.commands ∧ ∀ strays, act = .advance .channel strays →
      ∀ signo, recipient s.master ≠ some (k, signo)) ∨
    ∃ signo strays, act = .advance .channel strays ∧ recipient s.master = some (k, signo) ∧
      w'.commands = w.commands ++ [signo]
  opens : .stray .openChannel ∈ w'.sent → .stray .openChannel ∈ w.sent ∨
    ∃ answer strays, act = .advance answer strays ∧ some .openChannel ∈ strays

theorem follows_refl {k : ℕ} (hact : ∀ answer strays, act ≠ .advance answer strays)
    (w : Worker) : Follows s act k w w :=
  ⟨rfl, id, .inl ⟨rfl, fun strays h => absurd h (hact .channel strays)⟩, .inl⟩

theorem worker_step (hstep : step s act = some s') {k : ℕ} (hw' : s'.workers[k]? = some w') :
    ∃ w, s.workers[k]? = some w ∧ Follows s act k w w' := by
  obtain ⟨_, _, ⟨hsame, hact, _⟩ | ⟨answer, strays, rfl, _, hwritten⟩⟩ |
    ⟨slot, work, w, w₁, hw, hwork, hact, rfl⟩ := step_cases hstep
  · rw [hsame] at hw'
    exact ⟨w', hw', follows_refl hact w'⟩
  · rw [hwritten] at hw'
    obtain ⟨w, messages, hw, rfl, hcommands, hopen⟩ := getElem?_written hw'
    have hsent : Worker.sent { w with channel := w.channel ++ messages } =
        w.sent ++ messages := (List.append_assoc ..).symm
    have hgrown : Worker.commands { w with channel := w.channel ++ messages } =
        w.commands ++ messages.filterMap Message.signo := by
      rw [Worker.commands, hsent, List.filterMap_append, Worker.commands]
    refine ⟨w, hw, rfl, fun hsane => sane_write hsane messages, ?_, ?_⟩
    · rw [hgrown]
      obtain ⟨hnone, hother⟩ | ⟨signo, rfl, hrecipient, hone⟩ := hcommands
      · rw [hnone, List.append_nil]
        refine .inl ⟨rfl, fun strays' heq => ?_⟩
        cases heq
        exact hother rfl
      · exact .inr ⟨signo, strays, rfl, hrecipient, by rw [hone]⟩
    · rw [hsent]
      intro hin
      obtain hin | hin := List.mem_append.mp hin
      · exact .inl hin
      · exact .inr ⟨answer, strays, rfl, hopen hin⟩
  · by_cases hk : slot = k
    · subst hk
      obtain ⟨hlength, _⟩ := List.getElem?_eq_some_iff.mp hw
      rw [List.getElem?_set_self hlength] at hw'
      cases hw'
      obtain ⟨hpid, hsent⟩ := sent_workerStep hwork
      refine ⟨w, hw, hpid, fun hsane => sane_workerStep hsane hwork, .inl ⟨?_, fun strays h => ?_⟩,
        fun h => .inl (hsent ▸ h)⟩
      · rw [Worker.commands, hsent, Worker.commands]
      · exact absurd h (hact .channel strays)
    · rw [List.getElem?_set_ne hk] at hw'
      exact ⟨w', hw', follows_refl hact w'⟩

/-- No slot loses its worker. -/
theorem worker_stays (hstep : step s act = some s') {k : ℕ} (hw : s.workers[k]? = some w) :
    ∃ w', s'.workers[k]? = some w' ∧ w'.pid = w.pid := by
  have hlength : s'.workers.length = s.workers.length := by
    obtain ⟨_, _, ⟨hsame, _⟩ | ⟨answer, strays, _, _, hwritten⟩⟩ | ⟨_, _, _, _, _, _, _, rfl⟩ :=
      step_cases hstep
    · rw [hsame]
    · rw [hwritten, mourn, List.length_mapIdx]
      split
      · rw [tell]
        split
        · rfl
        · exact List.length_modify ..
      · rfl
    · exact List.length_set
  obtain ⟨hk, _⟩ := List.getElem?_eq_some_iff.mp hw
  obtain ⟨w', hw'⟩ : ∃ w', s'.workers[k]? = some w' :=
    ⟨_, List.getElem?_eq_getElem (hlength ▸ hk)⟩
  obtain ⟨w₁, hw₁, hfollows⟩ := worker_step hstep hw'
  rw [hw] at hw₁
  cases hw₁
  exact ⟨_, hw', hfollows.pid⟩

/-- The marks of a step, where a slot that takes a signal takes it by its channel or is
killed. -/
theorem remembers (hstep : step s act = some s') :
    ∃ act', Remembers s.master act' s'.master ∧ (act' = .advance true →
      ∃ answer strays, act = .advance answer strays ∧ answer ≠ .refused) := by
  obtain ⟨act', hmaster, ⟨_, _, hact⟩ | ⟨answer, strays, hact, rfl, _⟩⟩ |
    ⟨_, _, _, _, _, _, _, rfl⟩ := step_cases hstep
  · exact ⟨act', remembers_step hmaster, fun h => absurd h (hact true)⟩
  · refine ⟨_, remembers_step hmaster, fun h => ⟨answer, strays, hact, ?_⟩⟩
    exact of_decide_eq_true (MasterCycle.Act.advance.inj h)
  · exact ⟨.chld, ⟨marks_refl rfl, fun _ => id, id⟩, nofun⟩

/-! ## What is sent -/

/-- What holds in every run. -/
structure Kept (s : System) : Prop where
  sane : ∀ w ∈ s.workers, w.Sane
  signalling : ∀ signo i, s.master.pc = .signalling signo i → told s.master signo = true
  asked : ∀ w ∈ s.workers, ∀ signo ∈ w.commands, told s.master signo = true
  unmarked : ∀ {k : ℕ} {p : Process} {w : Worker}, s.master.processes[k]? = some p →
    s.workers[k]? = some w → p.exiting = false → w.commands = []
  shape : ∀ w ∈ s.workers, ∃ n, w.commands = List.replicate n .term ∨
    w.commands = .quit :: List.replicate n .term

theorem kept_start (pids : List ℕ) : Kept (start pids) where
  sane w hw := by
    obtain ⟨pid, _, rfl⟩ := List.mem_map.mp hw
    exact sane_started pid
  signalling _ _ hpc := by cases hpc
  asked w hw signo hsigno := by
    obtain ⟨pid, _, rfl⟩ := List.mem_map.mp hw
    cases hsigno
  unmarked _ hw _ := by
    obtain ⟨pid, _, rfl⟩ := List.mem_map.mp (List.mem_of_getElem? hw)
    rfl
  shape w hw := by
    obtain ⟨pid, _, rfl⟩ := List.mem_map.mp hw
    exact ⟨0, .inl rfl⟩

theorem kept_step (hkept : Kept s) (hstep : step s act = some s') : Kept s' := by
  obtain ⟨_, hremembers, _⟩ := remembers hstep
  constructor
  · intro w' hw'
    obtain ⟨k, hk⟩ := List.mem_iff_getElem?.mp hw'
    obtain ⟨w, hw, hfollows⟩ := worker_step hstep hk
    exact hfollows.sane (hkept.sane w (List.mem_of_getElem? hw))
  · exact hremembers.signalling hkept.signalling
  · intro w' hw' signo hsigno
    obtain ⟨k, hk⟩ := List.mem_iff_getElem?.mp hw'
    obtain ⟨w, hw, hfollows⟩ := worker_step hstep hk
    obtain ⟨hsame, _⟩ | ⟨new, _, _, hrecipient, hgrown⟩ := hfollows.commands
    · rw [hsame] at hsigno
      exact hremembers.told signo (hkept.asked w (List.mem_of_getElem? hw) signo hsigno)
    · rw [hgrown] at hsigno
      apply hremembers.told signo
      obtain hsigno | hsigno := List.mem_append.mp hsigno
      · exact hkept.asked w (List.mem_of_getElem? hw) signo hsigno
      · rw [List.mem_singleton.mp hsigno]
        exact hkept.signalling new k (recipient_some hrecipient).1
  · intro k p' w' hp' hw' hexiting
    obtain ⟨p, hp, hmarks, _⟩ := hremembers.marks _ _ hp'
    have hbefore : p.exiting = false := by
      by_contra hmarked
      rw [hmarks (by simpa using hmarked)] at hexiting
      cases hexiting
    obtain ⟨w, hw, hfollows⟩ := worker_step hstep hw'
    obtain ⟨hsame, _⟩ | ⟨new, _, hact, hrecipient, _⟩ := hfollows.commands
    · rw [hsame]
      exact hkept.unmarked hp hw hbefore
    · -- the slot that is written to is marked
      subst hact
      obtain ⟨_, q, hq, _, hmaster⟩ := recipient_some hrecipient
      obtain ⟨m, hm, rfl⟩ := Option.map_eq_some_iff.mp hstep
      have heq : m = _ := Option.some.inj (hm.symm.trans hmaster)
      subst heq
      obtain ⟨hlength, _⟩ := List.getElem?_eq_some_iff.mp hq
      rw [List.getElem?_set_self hlength] at hp'
      cases hp'
      cases hexiting
  · intro w' hw'
    obtain ⟨k, hk⟩ := List.mem_iff_getElem?.mp hw'
    obtain ⟨w, hw, hfollows⟩ := worker_step hstep hk
    obtain ⟨hsame, _⟩ | ⟨new, _, _, hrecipient, hgrown⟩ := hfollows.commands
    · rw [hsame]
      exact hkept.shape w (List.mem_of_getElem? hw)
    · obtain ⟨n, hshape⟩ := hkept.shape w (List.mem_of_getElem? hw)
      obtain ⟨_, p, hp, hagain, _⟩ := recipient_some hrecipient
      cases new with
      | term =>
          refine ⟨n + 1, ?_⟩
          rw [hgrown, List.replicate_succ']
          obtain hshape | hshape := hshape
          · exact .inl (by rw [hshape])
          · exact .inr (by rw [hshape]; rfl)
      | quit =>
          have hunmarked : p.exiting = false := by
            by_contra hmarked
            exact hagain (by simpa using hmarked) rfl
          rw [hkept.unmarked hp hw hunmarked] at hgrown
          exact ⟨0, .inr hgrown⟩

abbrev Reachable (pids : List ℕ) (s : System) : Prop :=
  Reached step (fun _ _ => True) (start pids) s

variable {pids : List ℕ}

theorem Reachable.kept (hreachable : Reachable pids s) : Kept s :=
  hreachable.invariant (kept_start pids) fun _ _ _ hkept _ hstep => kept_step hkept hstep

/-- In every run a worker comes to `night_worker_process_exit` only behind a message it has read
that ends it, a command or one of `night_reap_children`, and every command that it was sent is
one that the master was told.  It is told to quit at most once, before it is told to
terminate. -/
theorem commands_lawful (hreachable : Reachable pids s) :
    ∀ w ∈ s.workers, (w.stage = .done → ∃ message ∈ w.heard, message.Ends) ∧
      (∀ signo ∈ w.commands, told s.master signo = true) ∧
      ∃ n, w.commands = List.replicate n .term ∨ w.commands = .quit :: List.replicate n .term :=
  fun w hw => ⟨fun hdone => (hreachable.kept.sane w hw).told (.inr (.inr (.inr hdone))),
    hreachable.kept.asked w hw, hreachable.kept.shape w hw⟩

/-- Two workers, of which one has crashed and the other, told so with a message that was taken
for nothing and told to quit and then to terminate, has left. -/
def leaving : System where
  master := ⟨[⟨none, true, false, true⟩, ⟨some 8, false, true, false⟩], 2, false, true, true,
    .suspended false, [8], []⟩
  workers := [⟨7, [], [], true, false, false, false, .top⟩,
    ⟨8, [.command .term], [.stray .other, .command .quit], true, false, false, true, .done⟩]

theorem commands_lawful_leaving :
    (∃ message ∈ [Message.stray .other, .command .quit], message.Ends) ∧
      ∀ signo ∈ [Signo.quit, .term], told leaving.master signo = true := by
  have hrun : run step ([.crash 0, .chld] ++
      List.replicate 9 (.advance .channel [none, some .other]) ++ [.quit] ++
      List.replicate 8 (.advance .channel []) ++ [.term] ++
      List.replicate 7 (.advance .channel []) ++
      [.work 1 .advance, .work 1 .read, .work 1 .read] ++
      List.replicate 3 (.work 1 .advance)) (start [7, 8]) = some leaving := by
    decide
  have hreachable : Reachable [7, 8] leaving := Reached.start.run (fun _ _ _ => trivial) hrun
  have hsecond : Worker.mk 8 [.command .term] [.stray .other, .command .quit] true false false
      true .done ∈ leaving.workers := List.mem_cons_of_mem _ List.mem_cons_self
  obtain ⟨hdone, htold, _⟩ := commands_lawful hreachable _ hsecond
  exact ⟨hdone rfl, htold⟩

/-! ## Who is told -/

/-- A worker that was not waited for has the entry of its slot, and the master has no other
children. -/
structure Listed (s : System) : Prop where
  children : (s.master.running ++ s.master.zombies).Nodup
  live : ∀ {k : ℕ} {w : Worker}, s.workers[k]? = some w →
    w.pid ∈ s.master.running ++ s.master.zombies → Live s.master k w.pid
  known : ∀ pid ∈ s.master.running, ∃ w ∈ s.workers, w.pid = pid
  sound : Sound s.master

theorem listed_start (hpids : pids.Nodup) : Listed (start pids) where
  children := by
    show (pids ++ []).Nodup
    rwa [List.append_nil]
  live {k w} hw _ := by
    obtain ⟨pid, hpid, rfl⟩ := List.getElem?_map .. ▸ hw |> Option.map_eq_some_iff.mp
    obtain ⟨hlength, _⟩ := List.getElem?_eq_some_iff.mp hpid
    refine ⟨hlength, spawned pid, ?_, rfl, rfl⟩
    show (pids.map spawned)[k]? = _
    rw [List.getElem?_map, hpid]
    rfl
  known pid hpid := ⟨started pid, List.mem_map_of_mem hpid, rfl⟩
  sound := sound_start hpids

theorem sound_advance {answered : Bool} (hsound : Sound m)
    (hstep : MasterCycle.advance m answered = some m') : Sound m' := by
  unfold MasterCycle.advance at hstep
  split at hstep
  case h_5 i live _ =>
    cases hstep
    by_cases hlast : i < m.lastProcess
    · rw [if_pos hlast]
      obtain ⟨_, heq⟩ | ⟨p, last, hp, _, hlast', heq⟩ | ⟨_, _, _, _, heq⟩ |
        ⟨_, _, _, _, _, heq⟩ := reapOne_cases hlast live
      · rw [heq]
        exact hsound.congr rfl rfl rfl rfl
      · rw [heq]
        exact hsound.remove hp hlast hlast'
      · rw [heq]
        exact hsound.congr rfl rfl rfl rfl
      · rw [heq]
        exact hsound.congr rfl rfl rfl rfl
    · rw [if_neg hlast]
      exact hsound.congr rfl rfl rfl rfl
  case h_9 signo i _ =>
    cases hstep
    by_cases hlast : i < m.lastProcess
    · rw [if_pos hlast]
      obtain heq | ⟨p, hp, heq⟩ := signalOne_cases m signo i answered
      · rw [heq]
        exact hsound.congr rfl rfl rfl rfl
      · rw [heq]
        exact hsound.mark hp
    · rw [if_neg hlast]
      exact hsound.congr rfl rfl rfl rfl
  all_goals cases hstep
  all_goals exact hsound.congr rfl rfl rfl rfl

theorem sound_step {act : MasterCycle.Act} (hsound : Sound m)
    (hstep : MasterCycle.step m act = some m') : Sound m' := by
  cases act with
  | advance answered => exact sound_advance hsound hstep
  | chld =>
      rw [MasterCycle.step] at hstep
      split at hstep
      · cases hstep
      · cases hstep
        exact hsound.handleChld.congr rfl rfl rfl rfl
  | term | quit | int =>
      rw [MasterCycle.step] at hstep
      split at hstep
      · cases hstep
        exact hsound.congr rfl rfl rfl rfl
      · cases hstep
  | workerExit pid =>
      rw [MasterCycle.step] at hstep
      split at hstep
      · cases hstep
        exact hsound.workerExit pid
      · cases hstep

theorem listed_step (hlisted : Listed s) (hstep : step s act = some s') : Listed s' := by
  obtain ⟨act', hmaster, _⟩ | ⟨_, _, _, _, _, _, _, rfl⟩ := step_cases hstep
  · have haccounts := Spawn.accounts_step hmaster
    refine ⟨haccounts.nodup hlisted.children, fun {k w'} hw' hchild => ?_, fun pid hpid => ?_,
      sound_step hlisted.sound hmaster⟩
    · obtain ⟨w, hw, hfollows⟩ := worker_step hstep hw'
      rw [hfollows.pid] at hchild ⊢
      have hbefore : w.pid ∈ s.master.running ++ s.master.zombies := by
        obtain hchild | hchild := List.mem_append.mp hchild
        · exact List.mem_append_left _ (haccounts.running w.pid hchild)
        · exact List.mem_append.mpr (haccounts.zombies w.pid hchild)
      refine haccounts.keeps (hlisted.live hw hbefore) fun hzombie => ?_
      obtain hchild | hchild := List.mem_append.mp hchild
      · have hdisjoint := (List.nodup_append.mp hlisted.children).2.2
        exact absurd rfl (hdisjoint _ (haccounts.running w.pid hchild) _ hzombie)
      · exact hchild
    · obtain ⟨w, hw, hpid⟩ := hlisted.known pid (haccounts.running pid hpid)
      obtain ⟨k, hk⟩ := List.mem_iff_getElem?.mp hw
      obtain ⟨w', hw', hsame⟩ := worker_stays hstep hk
      exact ⟨w', List.mem_of_getElem? hw', hsame.trans hpid⟩
  · refine ⟨hlisted.children, fun {k w'} hw' hchild => ?_, fun pid hpid => ?_, hlisted.sound⟩
    · obtain ⟨w, hw, hfollows⟩ := worker_step hstep hw'
      rw [hfollows.pid] at hchild ⊢
      exact hlisted.live hw hchild
    · obtain ⟨w, hw, hpid⟩ := hlisted.known pid hpid
      obtain ⟨k, hk⟩ := List.mem_iff_getElem?.mp hw
      obtain ⟨w', hw', hsame⟩ := worker_stays hstep hk
      exact ⟨w', List.mem_of_getElem? hw', hsame.trans hpid⟩

/-- The channels take every command, and no message of `night_reap_children` happens to be one
with which `night_read_channel` returns an error. -/
def ByChannel (_ : System) (act : Act) : Prop :=
  ∀ answer strays, act = .advance answer strays →
    answer = .channel ∧ some .openChannel ∉ strays

/-- Up to where the loop is every worker that runs was sent a command, and where the master
sleeps all were. -/
def Reminded (s : System) : Prop :=
  match s.master.pc with
  | .signalling _ i => ∀ k < i, ∀ w : Worker, s.workers[k]? = some w → w.pid ∈ s.master.running →
      w.commands ≠ []
  | .testQuit => s.master.terminate = false
  | .suspended false => s.master.Ending →
      ∀ (k : ℕ) (w : Worker), s.workers[k]? = some w → w.pid ∈ s.master.running →
        w.commands ≠ []
  | _ => True

/-- What holds while the channels take every command and stay open. -/
structure Heeds (s : System) : Prop where
  listed : Listed s
  opens : ∀ w ∈ s.workers, .stray .openChannel ∉ w.sent
  marked : ∀ {k : ℕ} {p : Process} {w : Worker}, s.master.processes[k]? = some p →
    s.workers[k]? = some w → p.exiting = true → w.commands ≠ []
  reminded : Reminded s

theorem heeds_start (hpids : pids.Nodup) : Heeds (start pids) where
  listed := listed_start hpids
  opens w hw := by
    obtain ⟨pid, _, rfl⟩ := List.mem_map.mp hw
    exact List.not_mem_nil
  marked hp _ hexiting := by
    obtain ⟨pid, _, rfl⟩ := List.mem_map.mp (List.mem_of_getElem? hp)
    cases hexiting
  reminded := by
    intro hending
    obtain hterminate | hquit := hending
    · cases hterminate
    · cases hquit

theorem marked_step (hheeds : Heeds s) (hallowed : ByChannel s act)
    (hstep : step s act = some s') {k : ℕ} {p' : Process} {w' : Worker}
    (hp' : s'.master.processes[k]? = some p') (hw' : s'.workers[k]? = some w')
    (hexiting : p'.exiting = true) : w'.commands ≠ [] := by
  obtain ⟨w, hw, hfollows⟩ := worker_step hstep hw'
  obtain ⟨hsame, hother⟩ | ⟨_, _, _, _, hgrown⟩ := hfollows.commands
  · rw [hsame]
    obtain ⟨_, hremembers, hact⟩ := remembers hstep
    obtain ⟨p, hp, _, hnew⟩ := hremembers.marks _ _ hp'
    obtain hbefore | ⟨hact', signo, hrecipient⟩ := hnew hexiting
    · exact hheeds.marked hp hw hbefore
    · obtain ⟨answer, strays, rfl, _⟩ := hact hact'
      obtain ⟨rfl, _⟩ := hallowed _ _ rfl
      exact absurd hrecipient (hother strays rfl signo)
  · rw [hgrown]
    simp

/-- A place with the same workers, or fewer that run. -/
theorem reminded_congr (hreminded : Reminded s) (hpc : s'.master.pc = s.master.pc)
    (hterminate : s'.master.terminate = s.master.terminate)
    (hquit : s'.master.quit = s.master.quit)
    (hworkers : ∀ (k : ℕ) (w' : Worker), s'.workers[k]? = some w' →
      w'.pid ∈ s'.master.running → ∃ w, s.workers[k]? = some w ∧ w.pid ∈ s.master.running ∧
        (w.commands ≠ [] → w'.commands ≠ [])) : Reminded s' := by
  have hending : s'.master.Ending ↔ s.master.Ending := by
    rw [Master.Ending, Master.Ending, hterminate, hquit]
  unfold Reminded at hreminded ⊢
  rw [hpc]
  split at hreminded
  · intro k hk w' hw' hrunning
    obtain ⟨w, hw, hrunning, hgrows⟩ := hworkers k w' hw' hrunning
    exact hgrows (hreminded k hk w hw hrunning)
  · exact hterminate.trans hreminded
  · intro hasked k w' hw' hrunning
    obtain ⟨w, hw, hrunning, hgrows⟩ := hworkers k w' hw' hrunning
    exact hgrows (hreminded (hending.mp hasked) k w hw hrunning)
  · trivial

/-- What a worker was sent stays sent. -/
theorem grows_step (hstep : step s act = some s') {k : ℕ} (hw' : s'.workers[k]? = some w') :
    ∃ w, s.workers[k]? = some w ∧ w.pid = w'.pid ∧ (w.commands ≠ [] → w'.commands ≠ []) := by
  obtain ⟨w, hw, hfollows⟩ := worker_step hstep hw'
  obtain ⟨hsame, _⟩ | ⟨_, _, _, _, hgrown⟩ := hfollows.commands
  · exact ⟨w, hw, hfollows.pid.symm, fun h => hsame ▸ h⟩
  · refine ⟨w, hw, hfollows.pid.symm, fun _ => ?_⟩
    rw [hgrown]
    simp

/-- The loop at a slot leaves its worker with a command if it runs. -/
theorem heeds_signalling {signo : Signo} {i : ℕ} (hheeds : Heeds s)
    (hpc : s.master.pc = .signalling signo i) (hlast : i < s.master.lastProcess)
    {strays : List (Option Stray)} (hstep : step s (.advance .channel strays) = some s') {k : ℕ}
    (hk : k < i + 1)
    (hw' : s'.workers[k]? = some w') (hrunning : w'.pid ∈ s.master.running) :
    w'.commands ≠ [] := by
  obtain ⟨w, hw, hfollows⟩ := worker_step hstep hw'
  obtain ⟨hsame, hother⟩ | ⟨_, _, _, _, hgrown⟩ := hfollows.commands
  · rw [hsame]
    rw [hfollows.pid] at hrunning
    obtain hk | rfl := Nat.lt_succ_iff_lt_or_eq.mp hk
    · have hreminded := hheeds.reminded
      unfold Reminded at hreminded
      rw [hpc] at hreminded
      exact hreminded k hk w hw hrunning
    · -- the slot is in use, so it was passed because of its mark
      obtain ⟨_, p, hp, huse, _⟩ := hheeds.listed.live hw (List.mem_append_left _ hrunning)
      have hnone : recipient s.master = none := by
        cases hrecipient : recipient s.master with
        | none => rfl
        | some slot =>
            obtain ⟨j, signo'⟩ := slot
            have hpc' := (recipient_some hrecipient).1
            rw [hpc] at hpc'
            cases hpc'
            exact absurd hrecipient (hother strays rfl signo)
      obtain hfree | hexiting := recipient_none hpc hlast hnone hp
      · rw [huse] at hfree
        cases hfree
      · exact hheeds.marked hp hw hexiting
  · rw [hgrown]
    simp

theorem reminded_advance (hheeds : Heeds s) {strays : List (Option Stray)}
    (hstep : step s (.advance .channel strays) = some s') : Reminded s' := by
  have hreminded := hheeds.reminded
  unfold Reminded at hreminded
  obtain ⟨m, hm, rfl⟩ := Option.map_eq_some_iff.mp hstep
  have hadvance : MasterCycle.advance s.master true = some m := hm
  unfold MasterCycle.advance at hadvance
  split at hadvance
  case h_1 | h_10 | h_11 => cases hadvance
  case h_2 | h_4 =>
    cases hadvance
    trivial
  case h_3 =>
    cases hadvance
    cases hreap : s.master.reap <;> exact trivial
  case h_5 i live hpc =>
    cases hadvance
    by_cases hlast : i < s.master.lastProcess
    · rw [if_pos hlast]
      obtain ⟨_, heq⟩ | ⟨_, _, _, _, _, heq⟩ | ⟨_, _, _, _, heq⟩ | ⟨_, _, _, _, _, heq⟩ :=
        reapOne_cases hlast live <;> rw [heq] <;> exact trivial
    · rw [if_neg hlast]
      trivial
  case h_6 live hpc =>
    cases hadvance
    unfold Reminded
    split <;> rename_i heq <;> first | trivial | (simp only at heq; split at heq <;> cases heq)
  case h_7 hpc =>
    cases hadvance
    by_cases hterminate : s.master.terminate = true
    · simp only [hterminate, if_true, Reminded]
      intro k hk
      cases hk
    · simp [hterminate, Reminded]
  case h_8 hpc =>
    rw [hpc] at hreminded
    cases hadvance
    by_cases hquit : s.master.quit = true
    · simp only [hquit, if_true, Reminded]
      intro k hk
      cases hk
    · simp only [hquit, Reminded]
      rintro (hterminate | hquit')
      · rw [show s.master.terminate = false from hreminded] at hterminate
        cases hterminate
      · cases hquit'
  case h_9 signo i hpc =>
    rw [hpc] at hreminded
    by_cases hlast : i < s.master.lastProcess
    · have hsignalling {k : ℕ} {w' : Worker} :=
        @heeds_signalling w' _ _ signo i hheeds hpc hlast strays hstep k
      cases hadvance
      rw [if_pos hlast] at hsignalling ⊢
      obtain heq | ⟨p, hp, heq⟩ := signalOne_cases s.master signo i true
      · rw [heq] at hsignalling ⊢
        exact fun k hk w' hw' hrunning => hsignalling hk hw' hrunning
      · rw [heq] at hsignalling ⊢
        exact fun k hk w' hw' hrunning => hsignalling hk hw' hrunning
    · have hgrows {k : ℕ} {w' : Worker} := @grows_step w' _ _ _ hstep k
      cases hadvance
      rw [if_neg hlast] at hgrows ⊢
      intro _ k w' hw' hrunning
      obtain ⟨w, hw, hpid, hgrown⟩ := hgrows hw'
      rw [← hpid] at hrunning
      have hlive := hheeds.listed.live hw (List.mem_append_left _ hrunning)
      exact hgrown (hreminded k (Nat.lt_of_lt_of_le hlive.1 (Nat.le_of_not_lt hlast)) w hw hrunning)

theorem reminded_workerExit {pid : ℕ} (hreminded : Reminded s)
    (hstep : MasterCycle.step s.master (.workerExit pid) = some m) :
    Reminded ⟨m, s.workers⟩ := by
  rw [MasterCycle.step] at hstep
  split at hstep
  · cases hstep
    refine reminded_congr hreminded rfl rfl rfl fun k w' hw' hrunning => ?_
    exact ⟨w', hw', List.mem_of_mem_erase hrunning, id⟩
  · cases hstep

theorem heeds_step (hheeds : Heeds s) (hallowed : ByChannel s act)
    (hstep : step s act = some s') : Heeds s' := by
  refine ⟨listed_step hheeds.listed hstep, fun w' hw' hopen => ?_,
    fun hp' hw' => marked_step hheeds hallowed hstep hp' hw', ?_⟩
  · obtain ⟨k, hk⟩ := List.mem_iff_getElem?.mp hw'
    obtain ⟨w, hw, hfollows⟩ := worker_step hstep hk
    obtain hopen | ⟨_, strays, hact, hin⟩ := hfollows.opens hopen
    · exact hheeds.opens w (List.mem_of_getElem? hw) hopen
    · exact (hallowed _ strays hact).2 hin
  have hgrows {k : ℕ} {w' : Worker} := @grows_step w' _ _ _ hstep k
  cases act with
  | advance answer strays =>
      obtain ⟨rfl, _⟩ := hallowed answer strays rfl
      exact reminded_advance hheeds hstep
  | chld =>
      obtain ⟨m, hm, rfl⟩ := Option.map_eq_some_iff.mp hstep
      rw [MasterCycle.step] at hm
      split at hm
      · cases hm
      · cases hm
        by_cases hpc : s.master.pc.isSuspended = true
        · obtain ⟨caught, hpc⟩ := isSuspended_iff.mp hpc
          simp only [Reminded, hpc, Pc.caught]
        · refine reminded_congr hheeds.reminded (caught_of_not_suspended hpc) rfl rfl
            fun k w' hw' hrunning => ?_
          exact ⟨w', hw', hrunning, id⟩
  | term | quit =>
      obtain ⟨m, hm, rfl⟩ := Option.map_eq_some_iff.mp hstep
      rw [MasterCycle.step] at hm
      split at hm
      · rename_i hpc
        obtain ⟨caught, hpc⟩ := isSuspended_iff.mp hpc
        cases hm
        simp only [Reminded, hpc, Pc.caught]
      · cases hm
  | int =>
      obtain ⟨m, hm, rfl⟩ := Option.map_eq_some_iff.mp hstep
      rw [MasterCycle.step] at hm
      split at hm
      · cases hm
        trivial
      · cases hm
  | work slot work =>
      rw [step] at hstep
      split at hstep
      · cases hstep
      · split at hstep
        · obtain ⟨w₁, _, rfl⟩ := Option.map_eq_some_iff.mp hstep
          refine reminded_congr hheeds.reminded rfl rfl rfl fun k w' hw' hrunning => ?_
          obtain ⟨w, hw, hpid, hgrown⟩ := hgrows hw'
          exact ⟨w, hw, by rwa [hpid], hgrown⟩
        · cases hstep
  | exit slot =>
      rw [step] at hstep
      split at hstep
      · cases hstep
      · split at hstep
        · obtain ⟨m, hm, rfl⟩ := Option.map_eq_some_iff.mp hstep
          exact reminded_workerExit hheeds.reminded hm
        · cases hstep
  | crash slot =>
      rw [step] at hstep
      split at hstep
      · cases hstep
      · obtain ⟨m, hm, rfl⟩ := Option.map_eq_some_iff.mp hstep
        exact reminded_workerExit hheeds.reminded hm

theorem heeds_reached (hpids : pids.Nodup) (hreached : Reached step ByChannel (start pids) s) :
    Heeds s :=
  hreached.invariant (heeds_start hpids) fun _ _ _ hheeds hallowed hstep =>
    heeds_step hheeds hallowed hstep

/-! ## The master finishes -/

/-- Steps without a further signal but `SIGCHLD`, which a child raises, and without workers
that end in another way. -/
def Calm (s : System) : Act → Prop
  | .advance answer strays => answer = .channel ∧ some .openChannel ∉ strays
  | .chld => s.master.zombies ≠ []
  | .work _ _ => True
  | .exit _ => True
  | .term | .quit | .int | .crash _ => False

abbrev Calmly (s s' : System) : Prop := Reached step Calm s s'

/-- The steps of one worker in the system. -/
theorem Works.calmly (hworks : Works w w') {slot : ℕ} (hw : s.workers[slot]? = some w)
    (hrunning : w.pid ∈ s.master.running) :
    Calmly s ⟨s.master, s.workers.set slot w'⟩ := by
  obtain ⟨hlength, hget⟩ := List.getElem?_eq_some_iff.mp hw
  induction hworks with
  | start =>
      rw [← hget, List.set_getElem_self]
      exact .start
  | @step middle last work hbefore _ hwork ih =>
      have hmiddle : (s.workers.set slot middle)[slot]? = some middle :=
        List.getElem?_set_self hlength
      have hpid : middle.pid = w.pid := by
        clear ih hwork
        induction hbefore with
        | start => rfl
        | step _ _ hwork ih =>
            exact (sent_workerStep hwork).1.trans (ih (List.getElem?_set_self hlength))
      have hact : step ⟨s.master, s.workers.set slot middle⟩ (.work slot work) =
          some ⟨s.master, (s.workers.set slot middle).set slot last⟩ := by
        simp only [step, hmiddle]
        rw [if_pos (hpid ▸ hrunning), hwork, Option.map_some]
      rw [List.set_set] at hact
      exact .step ih (show Calm _ (.work slot work) from trivial) hact

/-- The loop of the master in the system. -/
theorem calmly_alone (halone : Alone m m') (workers : List Worker) :
    ∃ workers', Calmly ⟨m, workers⟩ ⟨m', workers'⟩ := by
  induction halone with
  | start => exact ⟨workers, .start⟩
  | @step middle last _ _ hact hstep ih =>
      obtain ⟨before, hbefore⟩ := ih
      subst hact
      have hnext : step ⟨middle, before⟩ (.advance .channel []) =
          some ⟨last, mourn middle [] (tell middle before)⟩ := by
        simp [step, hstep]
      exact ⟨_, .step hbefore (show Calm _ (.advance .channel []) from ⟨rfl, List.not_mem_nil⟩)
        hnext⟩

/-- Workers that run were sent a command, and nothing that closes their channels. -/
def Ready (s : System) : Prop :=
  ∀ pid ∈ s.master.running, ∃ (slot : ℕ) (w : Worker), s.workers[slot]? = some w ∧ w.pid = pid ∧
    w.Sane ∧ w.commands ≠ [] ∧ .stray .openChannel ∉ w.sent

/-- They exit, one after the other. -/
theorem Ready.calmly (hready : Ready s) : ∃ workers, Calmly s
    ⟨{ s.master with running := [], zombies := s.master.zombies ++ s.master.running },
      workers⟩ := by
  obtain ⟨⟨processes, lastProcess, reap, terminate, quit, pc, running, zombies⟩, workers⟩ := s
  induction running generalizing zombies workers with
  | nil =>
      refine ⟨workers, ?_⟩
      rw [List.append_nil]
      exact .start
  | cons pid running ih =>
      obtain ⟨slot, w, hw, hpid, hsane, hcommands, hopen⟩ := hready pid List.mem_cons_self
      obtain ⟨w', hworks, hdone⟩ := works_done hsane hcommands hopen
      obtain ⟨hsane', hpid', hsent⟩ := hworks.kept hsane
      have hcommands' : w'.commands = w.commands := by
        rw [Worker.commands, hsent, Worker.commands]
      have hwork := hworks.calmly hw (by rw [hpid]; exact List.mem_cons_self)
      obtain ⟨hlength, _⟩ := List.getElem?_eq_some_iff.mp hw
      have hexit : step ⟨⟨processes, lastProcess, reap, terminate, quit, pc, pid :: running,
          zombies⟩, workers.set slot w'⟩ (.exit slot) =
          some ⟨⟨processes, lastProcess, reap, terminate, quit, pc, running, zombies ++ [pid]⟩,
            workers.set slot w'⟩ := by
        simp only [step, List.getElem?_set_self hlength]
        rw [if_pos hdone, hpid', hpid]
        simp [MasterCycle.step]
      have hfirst : Calmly _ _ := .step hwork (show Calm _ (.exit slot) from trivial) hexit
      obtain ⟨last, hrest⟩ := ih (workers.set slot w') (zombies ++ [pid]) fun other hother => by
        obtain ⟨slot', v, hv, hvpid, hvsane, hvcommands, hvopen⟩ :=
          hready other (List.mem_cons_of_mem _ hother)
        by_cases hsame : slot = slot'
        · subst hsame
          have hv : workers[slot]? = some v := hv
          rw [show workers[slot]? = some w from hw] at hv
          cases hv
          exact ⟨slot, w', List.getElem?_set_self hlength, hpid'.trans hvpid, hsane',
            by rwa [hcommands'], by rwa [hsent]⟩
        · exact ⟨slot', v, (List.getElem?_set_ne hsame).trans hv, hvpid, hvsane, hvcommands,
            hvopen⟩
      refine ⟨last, hfirst.trans ?_⟩
      rwa [List.append_assoc] at hrest

/-- Where the channels take every command, no message of `night_reap_children` closes one, and the
master sleeps although it is to end, every worker that runs was sent a command; while one is left,
they read theirs and exit, and the master behind them, with no further signal but `SIGCHLD`. -/
theorem master_finishes (hpids : pids.Nodup)
    (hreached : Reached step ByChannel (start pids) s) (hpc : s.master.pc = .suspended false)
    (hending : s.master.Ending) (hleft : ¬ s.master.AllWaited) :
    (∀ w ∈ s.workers, w.pid ∈ s.master.running → w.commands ≠ []) ∧
      ∃ s', Calmly s s' ∧ s'.master.pc = .exited := by
  have hheeds := heeds_reached hpids hreached
  have hkept := Reachable.kept (hreached.weaken fun _ _ _ => trivial)
  have htold (k : ℕ) (w : Worker) (hw : s.workers[k]? = some w)
      (hrunning : w.pid ∈ s.master.running) : w.commands ≠ [] := by
    have hreminded := hheeds.reminded
    unfold Reminded at hreminded
    rw [hpc] at hreminded
    exact hreminded hending k w hw hrunning
  refine ⟨fun w hw hrunning => ?_, ?_⟩
  · obtain ⟨k, hk⟩ := List.mem_iff_getElem?.mp hw
    exact htold k w hk hrunning
  · have hready : Ready s := by
      intro pid hpid
      obtain ⟨w, hw, rfl⟩ := hheeds.listed.known pid hpid
      obtain ⟨slot, hslot⟩ := List.mem_iff_getElem?.mp hw
      exact ⟨slot, w, hslot, rfl, hkept.sane w hw, htold slot w hslot hpid, hheeds.opens w hw⟩
    obtain ⟨workers, hgone⟩ := hready.calmly
    have hsound : Sound { s.master with
        running := [], zombies := s.master.zombies ++ s.master.running } := by
      refine ⟨hheeds.listed.sound.distinct, hheeds.listed.sound.beyond, ?_,
        hheeds.listed.sound.attached⟩
      intro p hp pid hpid hexited
      exact .inr (List.mem_append.mpr (hheeds.listed.sound.known p hp pid hpid hexited).symm)
    have hchld : step ⟨{ s.master with
        running := [], zombies := s.master.zombies ++ s.master.running }, workers⟩ .chld =
        some ⟨{ handleChld { s.master with
          running := [], zombies := s.master.zombies ++ s.master.running } with
            pc := .suspended true }, workers⟩ := by
      simp [step, MasterCycle.step, hpc, Pc.isEnd, Pc.caught]
    have hchild : s.master.zombies ++ s.master.running ≠ [] := by
      intro hnil
      obtain ⟨hzombies, hrunning⟩ := List.append_eq_nil_iff.mp hnil
      exact hleft ⟨hrunning, hzombies⟩
    have hwoken : Calmly s _ := .step hgone (show Calm _ .chld from hchild) hchld
    obtain ⟨m', halone, hend⟩ := Spawn.alone_waited hsound rfl hending
    obtain ⟨workers', hrest⟩ := calmly_alone halone workers
    exact ⟨_, hwoken.trans hrest, hend⟩

/-- One worker that was told to terminate and has not yet looked. -/
def waiting : System where
  master := ⟨[⟨some 7, false, true, false⟩], 1, false, true, false, .suspended false, [7], []⟩
  workers := [⟨7, [.command .term], [], true, false, false, false, .top⟩]

theorem master_finishes_waiting : ∃ s', Calmly waiting s' ∧ s'.master.pc = .exited := by
  have hrun : run step (.term :: List.replicate 6 (.advance .channel [])) (start [7]) =
      some waiting := by
    decide
  have hreached : Reached step ByChannel (start [7]) waiting :=
    Reached.start.run (by simp [ByChannel]) hrun
  have hleft : ¬ waiting.master.AllWaited := by simp [Master.AllWaited, waiting]
  exact (master_finishes (by decide) hreached rfl (.inl rfl) hleft).2

end Night.WorkerChannel
