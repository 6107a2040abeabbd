import Mathlib.Data.List.Basic
import Night.Lib.Runs

/-!
# The master process cycle

The loop of `night_master_process_cycle` as a machine with a program counter, between whose
steps `SIGCHLD` is handled and workers exit.  `SIGTERM` and `SIGQUIT` are blocked outside
`sigsuspend`.  Titles and times are left out, and the channels with the messages on them; what
`night_write_channel` and `kill` answer is part of a step.
-/

namespace Night.MasterCycle

open Night.Runs

/-! ## The table of processes -/

/-- The fields of a `night_process_t` that the cycle reads; no pid is `-1`. -/
structure Process where
  pid : Option ℕ
  exited : Bool
  exiting : Bool
  detached : Bool
  deriving DecidableEq, Repr

/-- A slot that `night_spawn_process` fills. -/
def spawned (pid : ℕ) : Process where
  pid := some pid
  exited := false
  exiting := false
  detached := false

inductive Signo where
  | term
  | quit
  deriving DecidableEq, Repr

/-- Where the cycle is: in `sigsuspend`, where a signal was caught or not; at the tests of
`night_reap`, of `live`, of `night_terminate` and `night_quit`; in the loops of
`night_reap_children` and `night_signal_worker_processes`; at an end of the process. -/
inductive Pc where
  | suspended (caught : Bool)
  | testReap
  | clearReap
  | reaping (i : ℕ) (live : Bool)
  | testExit (live : Bool)
  | testTerminate
  | testQuit
  | signalling (signo : Signo) (i : ℕ)
  | exited
  | killed
  deriving DecidableEq, Repr

/-- The master, and its children: those that run and those it has not waited for. -/
structure Master where
  processes : List Process
  lastProcess : ℕ
  reap : Bool
  terminate : Bool
  quit : Bool
  pc : Pc
  running : List ℕ
  zombies : List ℕ
  deriving DecidableEq, Repr

/-- The cycle in front of its loop, with its workers. -/
def start (pids : List ℕ) : Master where
  processes := pids.map spawned
  lastProcess := pids.length
  reap := false
  terminate := false
  quit := false
  pc := .suspended false
  running := pids
  zombies := []

/-! ## The handler of signals -/

/-- The loop of `night_process_get_status` over the slots, for one pid. -/
def markExited (pid : ℕ) : ℕ → List Process → List Process
  | 0, processes => processes
  | _ + 1, [] => []
  | n + 1, p :: processes =>
      if p.pid = some pid then { p with exited := true } :: processes
      else p :: markExited pid n processes

/-- `night_process_get_status`: every child that can be waited for is. -/
def nightProcessGetStatus (m : Master) : Master :=
  { m with
    processes := m.zombies.foldl (fun table pid => markExited pid m.lastProcess table) m.processes
    zombies := [] }

/-- What `night_signal_handler` does in the master for the signals of the table `signals`. -/
def handleTerm (m : Master) : Master := { m with terminate := true }
def handleQuit (m : Master) : Master := { m with quit := true }
def handleChld (m : Master) : Master := nightProcessGetStatus { m with reap := true }

/-- `sigsuspend` returns behind a handler. -/
def Pc.caught : Pc → Pc
  | .suspended _ => .suspended true
  | pc => pc

/-! ## The loop -/

/-- The body of the loop of `night_reap_children`, without the channels that it closes and the
messages that it writes. -/
def reapOne (m : Master) (i : ℕ) (live : Bool) : Master :=
  match m.processes[i]? with
  | none => { m with pc := .reaping (i + 1) live }
  | some p =>
      if p.pid = none then { m with pc := .reaping (i + 1) live }
      else if p.exited then
        { m with
          processes := m.processes.set i { p with pid := none, detached := true }
          lastProcess := if i = m.lastProcess - 1 then m.lastProcess - 1 else m.lastProcess
          pc := .reaping (i + 1) live }
      else if p.exiting || !p.detached then { m with pc := .reaping (i + 1) true }
      else { m with pc := .reaping (i + 1) live }

/-- The body of the loop of `night_signal_worker_processes`; `answered` says whether the
channel or `kill` took the signal. -/
def signalOne (m : Master) (signo : Signo) (i : ℕ) (answered : Bool) : Master :=
  match m.processes[i]? with
  | none => { m with pc := .signalling signo (i + 1) }
  | some p =>
      if p.pid = none then { m with pc := .signalling signo (i + 1) }
      else if p.exiting && signo = .quit then { m with pc := .signalling signo (i + 1) }
      else if answered then
        { m with
          processes := m.processes.set i { p with exiting := true }
          pc := .signalling signo (i + 1) }
      else { m with pc := .signalling signo (i + 1) }

/-- The next step of the loop; `sigsuspend` waits for a signal. -/
def advance (m : Master) (answered : Bool) : Option Master :=
  match m.pc with
  | .suspended false => none
  | .suspended true => some { m with pc := .testReap }
  | .testReap => some { m with pc := if m.reap then .clearReap else .testExit true }
  | .clearReap => some { m with reap := false, pc := .reaping 0 false }
  | .reaping i live =>
      some (if i < m.lastProcess then reapOne m i live else { m with pc := .testExit live })
  | .testExit live =>
      some { m with
        pc := if !live && (m.terminate || m.quit) then .exited else .testTerminate }
  | .testTerminate =>
      some { m with pc := if m.terminate then .signalling .term 0 else .testQuit }
  | .testQuit => some { m with pc := if m.quit then .signalling .quit 0 else .suspended false }
  | .signalling signo i =>
      some (if i < m.lastProcess then signalOne m signo i answered
        else { m with pc := .suspended false })
  | .exited => none
  | .killed => none

/-! ## The system -/

/-- A step of the loop, a signal, or a worker that exits. -/
inductive Act where
  | advance (answered : Bool)
  | chld
  | term
  | quit
  | int
  | workerExit (pid : ℕ)
  deriving DecidableEq, Repr

def Pc.isSuspended : Pc → Bool
  | .suspended _ => true
  | _ => false

def Pc.isEnd : Pc → Bool
  | .exited | .killed => true
  | _ => false

/-- `SIGINT` is not in the table `signals` and ends the process, like the other two only in
`sigsuspend`. -/
def step (m : Master) : Act → Option Master
  | .advance answered => advance m answered
  | .chld => if m.pc.isEnd then none else some { handleChld m with pc := m.pc.caught }
  | .term => if m.pc.isSuspended then some { handleTerm m with pc := m.pc.caught } else none
  | .quit => if m.pc.isSuspended then some { handleQuit m with pc := m.pc.caught } else none
  | .int => if m.pc.isSuspended then some { m with pc := .killed } else none
  | .workerExit pid =>
      if pid ∈ m.running then
        some { m with running := m.running.erase pid, zombies := m.zombies ++ [pid] }
      else none

/-! ## Ends and sleeps -/

/-- `night_terminate || night_quit`. -/
def Master.Ending (m : Master) : Prop := m.terminate = true ∨ m.quit = true

/-- `night_reap_children` has removed every worker. -/
def Master.AllReaped (m : Master) : Prop := ∀ p ∈ m.processes, p.pid = none

/-- Every worker has exited and was waited for. -/
def Master.AllWaited (m : Master) : Prop := m.running = [] ∧ m.zombies = []

/-- The master sleeps although it should exit: every worker was removed. -/
def Master.SleepsReaped (m : Master) : Prop :=
  m.pc = .suspended false ∧ m.Ending ∧ m.AllReaped

/-- The master sleeps although no worker is left. -/
def Master.SleepsWaited (m : Master) : Prop :=
  m.pc = .suspended false ∧ m.Ending ∧ m.AllWaited

/-- `SIGTERM` and `SIGQUIT` come while a worker is in the table, or `night_reap` is set. -/
def OnTime (m : Master) (act : Act) : Prop :=
  act = .term ∨ act = .quit → ¬ m.AllReaped ∨ m.reap = true

/-- Between the time where a worker counts as alive and `sigsuspend`. -/
def Pc.isDeaf : Pc → Bool
  | .reaping _ true | .testExit true | .testTerminate | .testQuit | .signalling _ _ => true
  | _ => false

/-- The exit of the last worker is not handled there, once the master is to end. -/
def InTime (m : Master) (act : Act) : Prop :=
  act = .chld → m.pc.isDeaf = true → m.Ending → m.running ≠ []

def Punctual (m : Master) (act : Act) : Prop := OnTime m act ∧ InTime m act

end Night.MasterCycle
