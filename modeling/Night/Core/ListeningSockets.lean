import Night.Core.Listening

/-!
# The sockets of the listeners

`night_init_cycle` opens a socket for each entry of the array of listeners, in up to five
rounds, and closes what it has opened when that or the setting of options fails.  The calls of
the system are kept with their results; a socket is a descriptor that was not open.
-/

namespace Night.ListeningSockets

open Night.Bytes Night.Listening
open Night.Memory (decode load)

/-! ## The system -/

inductive SockOpt where
  | reuseport
  | reuseaddr
  | keepalive
  | deferAccept
  deriving DecidableEq, Repr

/-- A call of the system; an address is the one in memory. -/
inductive Call where
  | socket (family type : ℕ)
  | setsockopt (s : ℤ) (option : SockOpt) (value : ℕ)
  | nonblocking (s : ℤ)
  | bind (s : ℤ) (sockaddr socklen : ℕ)
  | listen (s backlog : ℤ)
  | close (s : ℤ)
  deriving DecidableEq, Repr

/-- The socket that a call is about. -/
def Call.socket? : Call → Option ℤ
  | socket _ _ => none
  | setsockopt s _ _ => some s
  | nonblocking s => some s
  | bind s _ _ => some s
  | listen s _ => some s
  | close s => some s

structure Done where
  call : Call
  rc : ℤ
  deriving DecidableEq, Repr

/-- The descriptors that are open after calls, the last one first, where `held` were before.  A
descriptor is gone after `close` whatever that returns. -/
def opened (held : List ℤ) : List Done → List ℤ
  | [] => held
  | ⟨.socket _ _, s⟩ :: calls => if s = -1 then opened held calls else s :: opened held calls
  | ⟨.close s, _⟩ :: calls => (opened held calls).erase s
  | _ :: calls => opened held calls

/-- The system answers as it likes, but a new socket is none that is open. -/
structure System where
  held : List ℤ
  nodup : held.Nodup
  answer : List Done → Call → ℤ
  fresh : ∀ calls family type, answer calls (.socket family type) = -1 ∨
    0 ≤ answer calls (.socket family type) ∧
      answer calls (.socket family type) ∉ opened held calls

/-! ## The source -/

/-- `night_listening_t`, with what these functions read. -/
structure Listening where
  sockaddr : ℕ
  socklen : ℕ
  worker : ℕ
  fd : ℤ
  type : ℕ
  backlog : ℤ
  deriving DecidableEq, Repr

def SOCK_DGRAM : ℕ := 2

section Calls

variable (system : System) (family : ℕ → ℕ)

def System.ask (calls : List Done) (call : Call) : List Done :=
  ⟨call, system.answer calls call⟩ :: calls

/-- Calls one after another up to the first that returns -1, and whether there was one. -/
def System.askAll : List Call → List Done → Bool × List Done
  | [], calls => (false, calls)
  | call :: rest, calls =>
    if system.answer calls call = -1 then (true, system.ask calls call)
    else askAll rest (system.ask calls call)

/-- What an entry wants of its socket. -/
def setup (ls : Listening) (s : ℤ) : List Call :=
  [.setsockopt s .reuseport 1] ++
    (if ls.type ≠ SOCK_DGRAM then [.setsockopt s .reuseaddr 1] else []) ++
    [.nonblocking s, .bind s ls.sockaddr ls.socklen, .listen s ls.backlog]

/-- Entries, whether one has failed, and the calls until then. -/
structure Opening (α : Type) where
  listening : α
  failed : Bool
  calls : List Done

/-- A turn of the inner loop of `night_open_listening_sockets`. -/
def openTurn (ls : Listening) (calls : List Done) : Opening Listening :=
  if ls.fd ≠ -1 then ⟨ls, false, calls⟩
  else
    let socket := Call.socket (family ls.sockaddr) ls.type
    let s := system.answer calls socket
    let calls := system.ask calls socket
    if s = -1 then ⟨ls, true, calls⟩
    else
      let (failed, calls) := system.askAll (setup ls s) calls
      if failed then ⟨ls, true, system.ask calls (.close s)⟩
      else ⟨{ ls with fd := s }, false, calls⟩

/-- The inner loop. -/
def openRound : List Listening → List Done → Opening (List Listening)
  | [], calls => ⟨[], false, calls⟩
  | ls :: rest, calls =>
    let turn := openTurn system family ls calls
    let round := openRound rest turn.calls
    ⟨turn.listening :: round.listening, turn.failed || round.failed, round.calls⟩

/-- The outer loop, with so many tries left; each of them begins with `failed = 0`. -/
def openTries : ℕ → Opening (List Listening) → Opening (List Listening)
  | 0, opening => opening
  | tries + 1, opening =>
    openTries tries (openRound system family opening.listening opening.calls)

def nightOpenListeningSockets (listening : List Listening) (calls : List Done) :
    Rc × List Listening × List Done :=
  let opening := openTries system family 5 ⟨listening, false, calls⟩
  (if opening.failed then .error else .ok, opening.listening, opening.calls)

/-- A turn of the loop of `night_configure_listening_sockets`, and whether it was an error. -/
def configureTurn (ls : Listening) (calls : List Done) : Bool × List Done :=
  -- without SO_KEEPALIVE it goes on, without TCP_DEFER_ACCEPT with the next entry
  let calls := system.ask calls (.setsockopt ls.fd .keepalive 1)
  let defer := Call.setsockopt ls.fd .deferAccept 5
  if system.answer calls defer = -1 then (false, system.ask calls defer)
  else
    let calls := system.ask calls defer
    let listen := Call.listen ls.fd ls.backlog
    (system.answer calls listen = -1, system.ask calls listen)

def nightConfigureListeningSockets : List Listening → List Done → Rc × List Done
  | [], calls => (.ok, calls)
  | ls :: rest, calls =>
    match configureTurn system ls calls with
    | (true, calls) => (.error, calls)
    | (false, calls) => nightConfigureListeningSockets rest calls

/-- The loop that closes what is open. -/
def closeAll : List Listening → List Done → List Done
  | [], calls => calls
  | ls :: rest, calls =>
    if ls.fd = -1 then closeAll rest calls
    else closeAll rest (system.ask calls (.close ls.fd))

/-- `night_init_cycle` from `night_open_listening_sockets` on. -/
def nightInitCycle (listening : List Listening) (calls : List Done) :
    Rc × List Listening × List Done :=
  match nightOpenListeningSockets system family listening calls with
  | (.error, listening, calls) => (.error, listening, closeAll system listening calls)
  | (.ok, listening, calls) =>
    match nightConfigureListeningSockets system listening calls with
    | (.error, calls) => (.error, listening, closeAll system listening calls)
    | (.ok, calls) => (.ok, listening, calls)

/-- `night_close_listening_sockets` on the sockets of the entries: none is left in the array. -/
def nightCloseListeningSockets (listening : List Listening) (calls : List Done) :
    List Listening × List Done :=
  ([], closeAll system listening calls)

end Calls

/-- An `int` in memory. -/
def int (bytes : List Byte) : ℤ := (BitVec.ofNat 32 (decode bytes)).toInt

/-- What an entry of the array says. -/
def ofBytes (entry : List Byte) : Listening where
  sockaddr := decode (entry.take 8)
  socklen := decode ((entry.drop 8).take intSize)
  worker := workerOf entry
  fd := int ((entry.drop 52).take intSize)
  type := decode ((entry.drop 56).take intSize)
  backlog := int ((entry.drop 60).take intSize)

/-- The entries that the loop of `night_event_process_init` takes in a worker. -/
def listenersOf (worker : ℕ) (listening : List Listening) : List Listening :=
  listening.filter fun ls => ls.worker = worker

/-! ## Calls about a socket -/

/-- No call is about a socket in the list. -/
def Quiet (sockets : List ℤ) (calls : List Done) : Prop :=
  ∀ done ∈ calls, ∀ s ∈ sockets, done.call.socket? ≠ some s

/-- The calls about a socket. -/
def about (s : ℤ) (calls : List Done) : List Done :=
  calls.filter fun done => done.call.socket? = some s

/-- The socket was got for the entry and set up without an error, and what was called about it
since then. -/
def Ready (family : ℕ → ℕ) (ls : Listening) (s : ℤ) (calls later : List Done) : Prop :=
  ∃ after turn before, calls = after ++ turn ++ ⟨.socket (family ls.sockaddr) ls.type, s⟩ :: before ∧
    turn.reverse.map Done.call = setup ls s ∧ (∀ done ∈ turn, done.rc ≠ -1) ∧
    about s after = later

/-- A call about a socket that leaves it open. -/
def Plain (s : ℤ) (call : Call) : Prop := call.socket? = some s ∧ call ≠ .close s

variable {system : System} {family : ℕ → ℕ} {held : List ℤ} {calls later new : List Done}
  {ls : Listening} {s : ℤ}

theorem opened_plain {call : Call} (hplain : Plain s call) (rc : ℤ) (calls : List Done) :
    opened held (⟨call, rc⟩ :: calls) = opened held calls := by
  obtain ⟨habout, hclose⟩ := hplain
  cases call with
  | socket family type => cases habout
  | close s' =>
    obtain rfl : s' = s := Option.some.inj habout
    exact absurd rfl hclose
  | setsockopt => rfl
  | nonblocking => rfl
  | bind => rfl
  | listen => rfl

theorem setup_plain (ls : Listening) (s : ℤ) : ∀ call ∈ setup ls s, Plain s call := by
  intro call hcall
  rw [setup] at hcall
  by_cases htype : ls.type ≠ SOCK_DGRAM
  · rw [if_pos htype] at hcall
    simp only [List.cons_append, List.nil_append, List.mem_cons, List.not_mem_nil,
      or_false] at hcall
    rcases hcall with rfl | rfl | rfl | rfl | rfl <;> exact ⟨rfl, by simp⟩
  · rw [if_neg htype] at hcall
    simp only [List.cons_append, List.nil_append, List.mem_cons, List.not_mem_nil,
      or_false] at hcall
    rcases hcall with rfl | rfl | rfl | rfl <;> exact ⟨rfl, by simp⟩

theorem about_append (s : ℤ) (new calls : List Done) :
    about s (new ++ calls) = about s new ++ about s calls := List.filter_append ..

theorem Quiet.about {sockets : List ℤ} (hquiet : Quiet sockets new) (hs : s ∈ sockets) :
    about s new = [] :=
  List.filter_eq_nil_iff.mpr fun done hdone => by simpa using hquiet done hdone s hs

theorem Ready.append (hready : Ready family ls s calls later) (new : List Done) :
    Ready family ls s (new ++ calls) (ListeningSockets.about s new ++ later) := by
  obtain ⟨after, turn, before, rfl, hturn, hrc, rfl⟩ := hready
  exact ⟨new ++ after, turn, before, by simp, hturn, hrc, about_append ..⟩

/-- Calls about one socket that leave it open: they are made until one fails. -/
theorem askAll_spec (system : System) {todo : List Call} (hplain : ∀ call ∈ todo, Plain s call)
    (calls : List Done) :
    ∃ new, (system.askAll todo calls).2 = new ++ calls ∧
      opened system.held (new ++ calls) = opened system.held calls ∧
      (∀ done ∈ new, done.call.socket? = some s) ∧
      ((system.askAll todo calls).1 = false →
        new.reverse.map Done.call = todo ∧ ∀ done ∈ new, done.rc ≠ -1) := by
  induction todo generalizing calls with
  | nil => exact ⟨[], rfl, rfl, by simp, by simp⟩
  | cons call todo ih =>
    obtain ⟨hcall, hrest⟩ := List.forall_mem_cons.mp hplain
    rw [System.askAll]
    by_cases hfails : system.answer calls call = -1
    · rw [if_pos hfails]
      exact ⟨[⟨call, system.answer calls call⟩], rfl, opened_plain hcall _ _, by simp [hcall.1],
        by simp⟩
    · rw [if_neg hfails]
      obtain ⟨new, hnew, hopened, habout, hdone⟩ := ih hrest (system.ask calls call)
      refine ⟨new ++ [⟨call, system.answer calls call⟩], ?_, ?_, ?_, ?_⟩
      · rw [hnew, List.append_assoc]
        rfl
      · rw [List.append_assoc, List.singleton_append]
        exact hopened.trans (opened_plain hcall _ _)
      · intro done hmem
        obtain hmem | hmem := List.mem_append.mp hmem
        · exact habout done hmem
        · rw [List.mem_singleton.mp hmem]
          exact hcall.1
      · intro hok
        obtain ⟨hmap, hrc⟩ := hdone hok
        refine ⟨by simp [hmap], fun done hmem => ?_⟩
        obtain hmem | hmem := List.mem_append.mp hmem
        · exact hrc done hmem
        · rw [List.mem_singleton.mp hmem]
          exact hfails

/-! ## A turn -/

/-- What a turn does: nothing at an entry that has a socket; it fails and leaves nothing open;
or it sets up a new socket. -/
inductive Turned (system : System) (family : ℕ → ℕ) (ls : Listening) (calls : List Done) :
    Opening Listening → Prop
  | kept (hfd : ls.fd ≠ -1) : Turned system family ls calls ⟨ls, false, calls⟩
  | failed (new : List Done) (hfd : ls.fd = -1)
      (hopened : opened system.held (new ++ calls) = opened system.held calls)
      (hquiet : Quiet (opened system.held calls) new) :
      Turned system family ls calls ⟨ls, true, new ++ calls⟩
  | ready (new : List Done) (s : ℤ) (hfd : ls.fd = -1) (hs : 0 ≤ s)
      (hfresh : s ∉ opened system.held calls)
      (hopened : opened system.held (new ++ calls) = s :: opened system.held calls)
      (hquiet : Quiet (opened system.held calls) new)
      (hready : Ready family ls s (new ++ calls) []) :
      Turned system family ls calls ⟨{ ls with fd := s }, false, new ++ calls⟩

/-- Calls about a new socket are about none that is open. -/
theorem quiet_of_about {sockets : List ℤ} (hs : s ∉ sockets)
    (habout : ∀ done ∈ new, done.call.socket? = some s) : Quiet sockets new := by
  intro done hdone s' hs' heq
  rw [habout done hdone, Option.some.injEq] at heq
  exact hs (heq ▸ hs')

theorem openTurn_turned (system : System) (family : ℕ → ℕ) (ls : Listening) (calls : List Done) :
    Turned system family ls calls (openTurn system family ls calls) := by
  rw [openTurn]
  by_cases hfd : ls.fd ≠ -1
  · rw [if_pos hfd]
    exact .kept hfd
  rw [if_neg hfd]
  push Not at hfd
  have hanswer := system.fresh calls (family ls.sockaddr) ls.type
  by_cases hsocket : system.answer calls (.socket (family ls.sockaddr) ls.type) = -1
  · simp only [if_pos hsocket]
    exact .failed [⟨.socket _ _, _⟩] hfd (if_pos hsocket) (by simp [Quiet, Call.socket?])
  simp only [if_neg hsocket]
  obtain ⟨hs, hfresh⟩ := hanswer.resolve_left hsocket
  have hgot : opened system.held (system.ask calls (.socket (family ls.sockaddr) ls.type)) =
      system.answer calls (.socket (family ls.sockaddr) ls.type) :: opened system.held calls :=
    if_neg hsocket
  rw [System.ask] at hgot ⊢
  generalize system.answer calls (.socket (family ls.sockaddr) ls.type) = s at *
  obtain ⟨new, hnew, hopened, habout, hdone⟩ := askAll_spec system (setup_plain ls s)
    (⟨.socket (family ls.sockaddr) ls.type, s⟩ :: calls)
  rw [hgot] at hopened
  cases hask : system.askAll (setup ls s) (⟨.socket (family ls.sockaddr) ls.type, s⟩ :: calls) with
  | mk failed calls' =>
    rw [hask] at hnew hdone
    obtain rfl : calls' = _ := hnew
    have hsplit : new ++ ⟨.socket (family ls.sockaddr) ls.type, s⟩ :: calls =
        (new ++ [⟨.socket (family ls.sockaddr) ls.type, s⟩]) ++ calls := by simp
    have hquiet : Quiet (opened system.held calls)
        (new ++ [⟨.socket (family ls.sockaddr) ls.type, s⟩]) := by
      intro done hmem
      obtain hmem | hmem := List.mem_append.mp hmem
      · exact quiet_of_about hfresh habout done hmem
      · rw [List.mem_singleton.mp hmem]
        simp [Call.socket?]
    cases failed with
    | true =>
      have hclose : opened system.held (⟨.close s, system.answer
          (new ++ ⟨.socket (family ls.sockaddr) ls.type, s⟩ :: calls) (.close s)⟩ ::
            (new ++ ⟨.socket (family ls.sockaddr) ls.type, s⟩ :: calls)) =
          opened system.held calls :=
        (congrArg (List.erase · s) hopened).trans (List.erase_cons_head s _)
      simp only [if_true, System.ask]
      rw [hsplit, ← List.cons_append] at hclose ⊢
      refine .failed _ hfd hclose fun done hmem s' hs' => ?_
      obtain rfl | hmem := List.mem_cons.mp hmem
      · exact fun heq => hfresh (Option.some.inj heq ▸ hs')
      · exact hquiet done hmem s' hs'
    | false =>
      obtain ⟨hmap, hrc⟩ := hdone rfl
      simp only [Bool.false_eq_true, if_false]
      rw [hsplit] at hopened ⊢
      exact .ready _ s hfd hs hfresh hopened hquiet
        ⟨[], new, calls, by simp, hmap, hrc, rfl⟩

/-! ## The loops -/

/-- The sockets of the entries. -/
def fds (listening : List Listening) : List ℤ :=
  (listening.map Listening.fd).filter (· ≠ -1)

/-- The entries have their sockets, and nothing else was left open. -/
structure Holds (system : System) (family : ℕ → ℕ) (listening : List Listening)
    (calls : List Done) : Prop where
  opened : (opened system.held calls).Perm (fds listening ++ system.held)
  nodup : (fds listening ++ system.held).Nodup
  ready : ∀ ls ∈ listening, ls.fd ≠ -1 → 0 ≤ ls.fd ∧ Ready family ls ls.fd calls []

variable {listening left right : List Listening}

theorem fds_split (left : List Listening) (ls : Listening) (right : List Listening) :
    fds (left ++ ls :: right) = fds left ++ (if ls.fd ≠ -1 then [ls.fd] else []) ++ fds right := by
  by_cases hfd : ls.fd = -1 <;> simp [fds, hfd]

theorem mem_fds (hmem : ls ∈ listening) (hfd : ls.fd ≠ -1) : ls.fd ∈ fds listening :=
  List.mem_filter.mpr ⟨List.mem_map_of_mem hmem, by simpa using hfd⟩

/-- The other entries keep what they have. -/
theorem Holds.ready_append (hholds : Holds system family listening calls)
    (hquiet : Quiet (ListeningSockets.opened system.held calls) new) (hmem : ls ∈ listening)
    (hfd : ls.fd ≠ -1) : 0 ≤ ls.fd ∧ Ready family ls ls.fd (new ++ calls) [] := by
  obtain ⟨hpos, hready⟩ := hholds.ready ls hmem hfd
  have hopen : ls.fd ∈ ListeningSockets.opened system.held calls :=
    hholds.opened.mem_iff.mpr (List.mem_append_left _ (mem_fds hmem hfd))
  have hafter := hready.append new
  rw [hquiet.about hopen] at hafter
  exact ⟨hpos, hafter⟩

/-- A turn keeps it. -/
theorem Holds.turn (hholds : Holds system family (left ++ ls :: right) calls) :
    Holds system family (left ++ (openTurn system family ls calls).listening :: right)
      (openTurn system family ls calls).calls := by
  have hturned := openTurn_turned system family ls calls
  generalize openTurn system family ls calls = turn at hturned ⊢
  cases hturned with
  | kept => exact hholds
  | failed new hfd hopened hquiet =>
    refine ⟨?_, hholds.nodup, fun ls' hmem hfd' => hholds.ready_append hquiet hmem hfd'⟩
    rw [hopened]
    exact hholds.opened
  | ready new s hfd hs hfresh hopened hquiet hready =>
    have hone : fds (left ++ { ls with fd := s } :: right) = fds left ++ [s] ++ fds right := by
      rw [fds_split, if_pos (show s ≠ -1 by omega)]
    have hnone : fds (left ++ ls :: right) = fds left ++ fds right := by
      rw [fds_split, if_neg (not_not.mpr hfd), List.append_nil]
    have hperm : (s :: ListeningSockets.opened system.held calls).Perm
        (fds (left ++ { ls with fd := s } :: right) ++ system.held) := by
      have hcons := hholds.opened.cons s
      rw [hnone, ← List.cons_append, ← List.cons_append] at hcons
      rw [hone, List.append_assoc (fds left)]
      exact hcons.trans ((List.perm_middle.symm).append_right _)
    refine ⟨hopened ▸ hperm, ?_, fun ls' hmem hfd' => ?_⟩
    · exact hperm.nodup_iff.mp (List.nodup_cons.mpr
        ⟨hfresh, hholds.opened.nodup_iff.mpr hholds.nodup⟩)
    · rcases List.mem_append.mp hmem with hleft | hright
      · exact hholds.ready_append hquiet (List.mem_append_left _ hleft) hfd'
      · obtain rfl | hright := List.mem_cons.mp hright
        · exact ⟨hs, hready⟩
        · exact hholds.ready_append hquiet
            (List.mem_append_right _ (List.mem_cons_of_mem _ hright)) hfd'

theorem Holds.round (hholds : Holds system family (left ++ right) calls) :
    Holds system family (left ++ (openRound system family right calls).listening)
      (openRound system family right calls).calls := by
  induction right generalizing left calls with
  | nil => exact hholds
  | cons ls right ih =>
    have hnext := hholds.turn
    rw [List.append_cons] at hnext
    have hrest := ih hnext
    rwa [List.append_assoc] at hrest

theorem Holds.tries {opening : Opening (List Listening)}
    (hholds : Holds system family opening.listening opening.calls) (tries : ℕ) :
    Holds system family (openTries system family tries opening).listening
      (openTries system family tries opening).calls := by
  induction tries generalizing opening with
  | zero => exact hholds
  | succ tries ih => exact ih (@Holds.round _ _ _ [] _ hholds)

/-- An entry without its socket. -/
def Listening.closed (ls : Listening) : Listening := { ls with fd := -1 }

theorem openTurn_keeps (system : System) (family : ℕ → ℕ) (ls : Listening) (calls : List Done) :
    (openTurn system family ls calls).listening.closed = ls.closed ∧
      ((openTurn system family ls calls).failed = false ↔
        (openTurn system family ls calls).listening.fd ≠ -1) := by
  have hturned := openTurn_turned system family ls calls
  generalize openTurn system family ls calls = turn at hturned ⊢
  cases hturned with
  | kept hfd => exact ⟨rfl, by simpa using hfd⟩
  | failed new hfd => exact ⟨rfl, by simpa using hfd⟩
  | ready new s hfd hs =>
    refine ⟨rfl, iff_of_true rfl ?_⟩
    dsimp only
    omega

/-- A round changes nothing but sockets, and it has failed unless all entries have theirs. -/
theorem openRound_keeps (system : System) (family : ℕ → ℕ) (listening : List Listening)
    (calls : List Done) :
    (openRound system family listening calls).listening.map Listening.closed =
        listening.map Listening.closed ∧
      ((openRound system family listening calls).failed = false ↔
        ∀ ls ∈ (openRound system family listening calls).listening, ls.fd ≠ -1) := by
  induction listening generalizing calls with
  | nil => exact ⟨rfl, by simp [openRound]⟩
  | cons ls listening ih =>
    obtain ⟨hls, hfailed⟩ := openTurn_keeps system family ls calls
    obtain ⟨hrest, hrestFailed⟩ := ih (openTurn system family ls calls).calls
    rw [openRound]
    refine ⟨by simp [hls, hrest], ?_⟩
    simp only [Bool.or_eq_false_iff, hfailed, hrestFailed, List.forall_mem_cons]

theorem openTries_keeps (system : System) (family : ℕ → ℕ) (tries : ℕ)
    (opening : Opening (List Listening)) :
    (openTries system family (tries + 1) opening).listening.map Listening.closed =
        opening.listening.map Listening.closed ∧
      ((openTries system family (tries + 1) opening).failed = false ↔
        ∀ ls ∈ (openTries system family (tries + 1) opening).listening, ls.fd ≠ -1) := by
  induction tries generalizing opening with
  | zero => exact openRound_keeps system family opening.listening opening.calls
  | succ tries ih =>
    obtain ⟨hrest, hfailed⟩ := ih (openRound system family opening.listening opening.calls)
    exact ⟨hrest.trans (openRound_keeps system family opening.listening opening.calls).1, hfailed⟩

/-! ## Options, and the way out -/

/-- What is called for the options of an entry, the last call first. -/
inductive Configured (ls : Listening) : List Done → Prop
  | undeferred (keep defer : ℤ) (hdefer : defer = -1) : Configured ls
      [⟨.setsockopt ls.fd .deferAccept 5, defer⟩, ⟨.setsockopt ls.fd .keepalive 1, keep⟩]
  | deferred (keep defer again : ℤ) (hdefer : defer ≠ -1) (hagain : again ≠ -1) : Configured ls
      [⟨.listen ls.fd ls.backlog, again⟩, ⟨.setsockopt ls.fd .deferAccept 5, defer⟩,
        ⟨.setsockopt ls.fd .keepalive 1, keep⟩]

theorem configureTurn_spec (system : System) (ls : Listening) (calls : List Done) :
    ∃ new, (configureTurn system ls calls).2 = new ++ calls ∧
      opened held (new ++ calls) = opened held calls ∧
      (∀ done ∈ new, done.call.socket? = some ls.fd) ∧
      ((configureTurn system ls calls).1 = false → Configured ls new) := by
  rw [configureTurn]
  by_cases hfails : system.answer (system.ask calls (.setsockopt ls.fd .keepalive 1))
      (.setsockopt ls.fd .deferAccept 5) = -1
  · simp only [if_pos hfails]
    exact ⟨[_, _], rfl, rfl, by simp [Call.socket?], fun _ => .undeferred _ _ hfails⟩
  · simp only [if_neg hfails]
    exact ⟨[_, _, _], rfl, rfl, by simp [Call.socket?], fun hok =>
      .deferred _ _ _ hfails (of_decide_eq_false hok)⟩

/-- The calls about one of several sockets that are about another one. -/
theorem about_other {s' : ℤ} (habout : ∀ done ∈ new, done.call.socket? = some s) (hne : s' ≠ s) :
    about s' new = [] := by
  refine List.filter_eq_nil_iff.mpr fun done hdone => ?_
  rw [habout done hdone]
  simpa using fun heq => hne heq.symm

theorem about_self (habout : ∀ done ∈ new, done.call.socket? = some s) : about s new = new :=
  List.filter_eq_self.mpr fun done hdone => by simpa using habout done hdone

/-- Options leave open what is open; without an error every entry has got its own. -/
theorem configure_spec (system : System) (hnodup : (listening.map Listening.fd).Nodup)
    (calls : List Done) :
    ∃ new, (nightConfigureListeningSockets system listening calls).2 = new ++ calls ∧
      opened held (new ++ calls) = opened held calls ∧
      (∀ s, s ∉ listening.map Listening.fd → about s new = []) ∧
      ((nightConfigureListeningSockets system listening calls).1 = .ok →
        ∀ ls ∈ listening, Configured ls (about ls.fd new)) := by
  induction listening generalizing calls with
  | nil => exact ⟨[], rfl, rfl, fun _ _ => rfl, by simp⟩
  | cons ls listening ih =>
    rw [List.map_cons, List.nodup_cons] at hnodup
    obtain ⟨own, hown, hopened, habout, hconfigured⟩ :=
      @configureTurn_spec held system ls calls
    rw [nightConfigureListeningSockets]
    cases hturn : configureTurn system ls calls with
    | mk failed calls' =>
      rw [hturn] at hown hconfigured
      obtain rfl : calls' = _ := hown
      cases failed with
      | true =>
        refine ⟨own, rfl, hopened, fun s hs => ?_, by simp⟩
        exact about_other habout fun heq => hs (heq ▸ List.mem_cons_self)
      | false =>
        obtain ⟨new, hnew, hrestOpened, hother, hrest⟩ := ih hnodup.2 (own ++ calls)
        refine ⟨new ++ own, by rw [List.append_assoc]; exact hnew, ?_, fun s hs => ?_,
          fun hok ls' hmem => ?_⟩
        · rw [List.append_assoc, hrestOpened, hopened]
        · rw [List.map_cons, List.mem_cons, not_or] at hs
          rw [about_append, hother s hs.2, about_other habout hs.1, List.append_nil]
        · rw [about_append]
          obtain rfl | hmem := List.mem_cons.mp hmem
          · rw [hother _ hnodup.1, about_self habout, List.nil_append]
            exact hconfigured rfl
          · have hne : ls'.fd ≠ ls.fd := fun heq =>
              hnodup.1 (heq ▸ List.mem_map_of_mem hmem)
            rw [about_other habout hne, List.append_nil]
            exact hrest hok ls' hmem

/-- What the entries have is closed. -/
theorem closeAll_opened (system : System) {rest : List ℤ}
    (hopened : (opened held calls).Perm (fds listening ++ rest)) :
    (opened held (closeAll system listening calls)).Perm rest := by
  induction listening generalizing calls with
  | nil => exact hopened
  | cons ls listening ih =>
    rw [closeAll]
    by_cases hfd : ls.fd = -1
    · rw [if_pos hfd]
      exact ih (by simpa [fds, hfd] using hopened)
    · rw [if_neg hfd]
      apply ih
      have hcons : (opened held calls).Perm (ls.fd :: (fds listening ++ rest)) := by
        simpa [fds, hfd] using hopened
      have herase := hcons.erase ls.fd
      rwa [List.erase_cons_head] at herase

/-! ## The whole -/

theorem fds_of_open (hopen : ∀ ls ∈ listening, ls.fd ≠ -1) :
    fds listening = listening.map Listening.fd := by
  refine List.filter_eq_self.mpr fun s hs => ?_
  obtain ⟨ls, hmem, rfl⟩ := List.mem_map.mp hs
  simpa using hopen ls hmem

theorem closed_of_fd (hclosed : ∀ ls ∈ listening, ls.fd = -1) :
    listening.map Listening.closed = listening := by
  conv_rhs => rw [← List.map_id listening]
  refine List.map_congr_left fun ls hmem => ?_
  rw [Listening.closed, ← hclosed ls hmem]
  rfl

/-- At the start nothing is open yet. -/
theorem holds_nil (system : System) (family : ℕ → ℕ) (hclosed : ∀ ls ∈ listening, ls.fd = -1) :
    Holds system family listening [] := by
  have hnone : fds listening = [] := by
    refine List.filter_eq_nil_iff.mpr fun s hs => ?_
    obtain ⟨ls, hmem, rfl⟩ := List.mem_map.mp hs
    simpa using hclosed ls hmem
  refine ⟨?_, ?_, fun ls hmem hfd => absurd (hclosed ls hmem) hfd⟩
  · rw [hnone]
    exact List.Perm.refl _
  · rw [hnone]
    exact system.nodup

/-- After the start: an error leaves nothing open.  Otherwise each entry has a socket of its own,
which was set up for its address and got its options, and nothing else was left open. -/
structure Started (system : System) (family : ℕ → ℕ) (rc : Rc) (listening : List Listening)
    (calls : List Done) : Prop where
  error : rc = .error → (opened system.held calls).Perm system.held
  opened : rc = .ok → (opened system.held calls).Perm (listening.map Listening.fd ++ system.held)
  nodup : rc = .ok → (listening.map Listening.fd ++ system.held).Nodup
  ready : rc = .ok → ∀ ls ∈ listening, 0 ≤ ls.fd ∧
    ∃ later, Ready family ls ls.fd calls later ∧ Configured ls later

theorem nightInitCycle_started (system : System) (family : ℕ → ℕ)
    (hclosed : ∀ ls ∈ listening, ls.fd = -1) :
    Started system family (nightInitCycle system family listening []).1
        (nightInitCycle system family listening []).2.1
        (nightInitCycle system family listening []).2.2 ∧
      (nightInitCycle system family listening []).2.1.map Listening.closed = listening := by
  have hholds := @Holds.tries system family ⟨listening, false, []⟩
    (holds_nil system family hclosed) 5
  obtain ⟨hkeeps, hfailed⟩ := openTries_keeps system family 4 ⟨listening, false, []⟩
  rw [closed_of_fd hclosed] at hkeeps
  rw [nightInitCycle, nightOpenListeningSockets]
  generalize openTries system family 5 ⟨listening, false, []⟩ = opening at *
  obtain ⟨listening', failed, calls⟩ := opening
  cases failed with
  | true =>
    refine ⟨⟨fun _ => closeAll_opened system hholds.opened, ?_, ?_, ?_⟩, hkeeps⟩ <;>
      exact fun hrc => by cases hrc
  | false =>
    have hopen := hfailed.mp rfl
    have hfds := fds_of_open hopen
    have hnodup := hholds.nodup
    rw [hfds] at hnodup
    obtain ⟨new, hnew, hopened, -, hconfigured⟩ :=
      @configure_spec system.held _ system (List.Nodup.of_append_left hnodup) calls
    simp only [Bool.false_eq_true, if_false]
    cases hconfigure : nightConfigureListeningSockets system listening' calls with
    | mk rc calls' =>
      rw [hconfigure] at hnew hconfigured
      obtain rfl : calls' = _ := hnew
      have hperm := hholds.opened
      rw [← hopened] at hperm
      cases rc with
      | error =>
        refine ⟨⟨fun _ => closeAll_opened system hperm, ?_, ?_, ?_⟩, hkeeps⟩ <;>
          exact fun hrc => by cases hrc
      | ok =>
        refine ⟨⟨fun hrc => (by cases hrc), fun _ => hfds ▸ hperm, fun _ => hnodup,
          fun _ ls hmem => ?_⟩, hkeeps⟩
        obtain ⟨hpos, hready⟩ := hholds.ready ls hmem (hopen ls hmem)
        have hafter := hready.append new
        rw [List.append_nil] at hafter
        exact ⟨hpos, _, hafter, hconfigured rfl ls hmem⟩

/-! ## All workers -/

theorem ofBytes_setWorker {entry : List Byte} (hentry : entry.length = listeningSize) {n : ℕ}
    (hn : n < 2 ^ 31) : ofBytes (setWorker n entry) = { ofBytes entry with worker := n } := by
  have hfront : (entry.take workerOffset).length = 48 := by
    rw [List.length_take, hentry]
    rfl
  have hworker : workerOf (setWorker n entry) = n := workerOf_setWorker hentry hn
  have hpart : ∀ offset, 52 ≤ offset →
      ((setWorker n entry).drop offset) = entry.drop offset := by
    intro offset hoffset
    have hlength : (entry.take workerOffset ++ Memory.encode intSize n).length = 52 := by
      rw [List.length_append, hfront, Memory.encode_length]
      rfl
    rw [setWorker, List.drop_append, List.drop_eq_nil_of_le (by omega), List.nil_append,
      List.drop_drop, hlength]
    congr 1
    rw [workerOffset, intSize]
    omega
  have hfirst : ∀ offset count, offset + count ≤ 48 →
      ((setWorker n entry).drop offset).take count = (entry.drop offset).take count := by
    intro offset count hcount
    rw [setWorker, List.append_assoc, List.drop_append_of_le_length (by omega),
      List.take_append_of_le_length (by rw [List.length_drop]; omega), workerOffset,
      List.drop_take, List.take_take]
    congr 1
    omega
  have hsockaddr := hfirst 0 8 (by decide)
  rw [List.drop_zero, List.drop_zero] at hsockaddr
  rw [ofBytes, ofBytes, hworker, hsockaddr, hfirst 8 intSize (by decide), hpart 52 (by decide),
    hpart 56 (by decide), hpart 60 (by decide)]

/-- The entry for a worker. -/
def Listening.forWorker (ls : Listening) (worker : ℕ) : Listening := { ls with worker := worker }

/-- Among the entries for all workers there is one for each. -/
theorem listenersOf_workers (entries : List Listening) {worker workerProcesses : ℕ}
    (hworker : worker < workerProcesses) :
    listenersOf worker (entries.flatMap fun ls => (List.range workerProcesses).map ls.forWorker) =
      entries.map (Listening.forWorker · worker) := by
  have hone : ∀ ls : Listening, listenersOf worker ((List.range workerProcesses).map ls.forWorker) =
      [ls.forWorker worker] := by
    intro ls
    have hfilter : (List.range workerProcesses).filter (fun k => k = worker) = [worker] := by
      have hcount := List.count_eq_one_of_mem List.nodup_range (List.mem_range.mpr hworker)
      rw [List.filter_eq, hcount, List.replicate_one]
    rw [listenersOf, List.filter_map]
    exact congrArg (List.map ls.forWorker) hfilter
  induction entries with
  | nil => rfl
  | cons ls entries ih =>
    rw [List.flatMap_cons, List.map_cons, ← ih, ← List.singleton_append, ← hone ls]
    exact List.filter_append ..

theorem listenersOf_closed (worker : ℕ) (listening : List Listening) :
    (listenersOf worker listening).map Listening.closed =
      listenersOf worker (listening.map Listening.closed) := by
  rw [listenersOf, listenersOf, List.filter_map]
  rfl

section Workers

variable {allocator : Regions.Allocator} {pool pool' : PoolLarge.Pool}
  {array array' : ArrayPush.NightArray} {configured : List (List Byte)}

/-- The entries that the sockets are opened for. -/
theorem perm_entries (hlistens : Listens pool array configured)
    (hworkers : ∀ entry ∈ configured, workerOf entry = 0) {workerProcesses connectionN fuel : ℕ}
    (hpos : 1 ≤ workerProcesses) (hint : configured.length * workerProcesses < 2 ^ 31)
    (hfuel : configured.length * workerProcesses < fuel)
    (hinit : nightEventInitConf allocator connectionN workerProcesses fuel array pool =
      some (.ok, array', pool')) :
    ((ArrayPush.contents pool'.memory array').map ofBytes).Perm
      ((configured.map ofBytes).flatMap fun ls =>
        (List.range workerProcesses).map ls.forWorker) := by
  have hnone : Listens pool array (progress workerProcesses [] configured) := by
    simpa [progress, clonesOf] using hlistens
  obtain ⟨hdone, -⟩ := @initLoop_clones allocator _ _ [] _ _ _ fuel hpos hint (by simp) hworkers
    (by simpa using hfuel) hnone
  rw [nightEventInitConf] at hinit
  split_ifs at hinit with hfew
  · cases hinit
  have hall : Listens pool' array' (progress workerProcesses configured []) := hdone _ _ hinit
  have hperm := (perm_progress hpos hlistens.lengths hworkers).map ofBytes
  rw [← hall.contents] at hperm
  refine hperm.trans (List.Perm.of_eq ?_)
  rw [List.map_flatMap, List.flatMap_map]
  refine List.flatMap_congr fun entry hentry => ?_
  rw [List.map_map]
  refine List.map_congr_left fun n hn => ?_
  have hmany := Nat.le_mul_of_pos_left workerProcesses (List.length_pos_of_mem hentry)
  have hlt := List.mem_range.mp hn
  exact ofBytes_setWorker (hlistens.lengths entry hentry) (by omega)

/-- With a socket for each entry: every worker has one listener of its own for each that is
configured, no two share a descriptor, and a worker that leaves closes all of them.  When one
cannot be had, none is left open. -/
theorem workers_listen (system : System) (family : ℕ → ℕ) (hlistens : Listens pool array configured)
    (hworkers : ∀ entry ∈ configured, workerOf entry = 0)
    (hclosed : ∀ entry ∈ configured, (ofBytes entry).fd = -1)
    {workerProcesses connectionN fuel : ℕ} (hpos : 1 ≤ workerProcesses)
    (hint : configured.length * workerProcesses < 2 ^ 31)
    (hfuel : configured.length * workerProcesses < fuel)
    (hinit : nightEventInitConf allocator connectionN workerProcesses fuel array pool =
      some (.ok, array', pool'))
    {rc : Rc} {listening : List Listening} {calls : List Done}
    (hstart : nightInitCycle system family ((ArrayPush.contents pool'.memory array').map ofBytes)
      [] = (rc, listening, calls)) :
    Started system family rc listening calls ∧
      (∀ ls ∈ listening, ls.worker < workerProcesses) ∧
      (∀ worker < workerProcesses,
        ((listenersOf worker listening).map Listening.closed).Perm
          (configured.map fun entry => (ofBytes entry).forWorker worker)) ∧
      (rc = .ok → (opened system.held
        (nightCloseListeningSockets system listening calls).2).Perm system.held) := by
  have hentries := perm_entries hlistens hworkers hpos hint hfuel hinit
  have hnone : ∀ ls ∈ (ArrayPush.contents pool'.memory array').map ofBytes, ls.fd = -1 := by
    intro ls hmem
    obtain ⟨ls', hls', hmem⟩ := List.mem_flatMap.mp (hentries.mem_iff.mp hmem)
    obtain ⟨entry, hentry, rfl⟩ := List.mem_map.mp hls'
    obtain ⟨n, -, rfl⟩ := List.mem_map.mp hmem
    exact hclosed entry hentry
  obtain ⟨hstarted, hkeeps⟩ := nightInitCycle_started system family hnone
  rw [hstart] at hstarted hkeeps
  dsimp only at hstarted hkeeps
  rw [← hkeeps] at hentries
  refine ⟨hstarted, fun ls hmem => ?_, fun worker hworker => ?_, fun hrc => ?_⟩
  · obtain ⟨ls', -, hmem⟩ := List.mem_flatMap.mp
      (hentries.mem_iff.mp (List.mem_map_of_mem (f := Listening.closed) hmem))
    obtain ⟨n, hn, heq⟩ := List.mem_map.mp hmem
    have hn := List.mem_range.mp hn
    rwa [show n = ls.worker from congrArg Listening.worker heq] at hn
  · rw [listenersOf_closed]
    have hfilter := (hentries.filter fun ls => ls.worker = worker)
    refine hfilter.trans (List.Perm.of_eq ?_)
    rw [show List.filter _ _ = listenersOf worker _ from rfl, listenersOf_workers _ hworker,
      List.map_map]
    rfl
  · have hopen : ∀ ls ∈ listening, ls.fd ≠ -1 := fun ls hmem => by
      have := (hstarted.ready hrc ls hmem).1
      omega
    have hperm := hstarted.opened hrc
    rw [← fds_of_open hopen] at hperm
    exact closeAll_opened system hperm

end Workers

theorem le_foldr_max {sockets : List ℤ} (hs : s ∈ sockets) : s ≤ sockets.foldr max 0 := by
  induction sockets with
  | nil => cases hs
  | cons s' sockets ih =>
    obtain rfl | hs := List.mem_cons.mp hs
    · exact le_max_left _ _
    · exact (ih hs).trans (le_max_right _ _)

theorem zero_le_foldr_max (sockets : List ℤ) : 0 ≤ sockets.foldr max 0 := by
  induction sockets with
  | nil => exact le_rfl
  | cons s sockets ih => exact ih.trans (le_max_right _ _)

/-- A system where every call succeeds, with the standard descriptors and a log open. -/
def System.serving : System where
  held := [0, 1, 2, 3]
  nodup := by decide
  answer calls
    | .socket _ _ => (opened [0, 1, 2, 3] calls).foldr max 0 + 1
    | _ => 0
  fresh calls family type := by
    have hpos := zero_le_foldr_max (opened [0, 1, 2, 3] calls)
    refine Or.inr ⟨Int.le_add_one hpos, fun hmem => ?_⟩
    exact absurd (le_foldr_max hmem) (Int.lt_add_one_of_le le_rfl).not_ge

/-- An entry without a socket. -/
def unopened : List Byte :=
  List.replicate 52 0 ++ List.replicate 4 0xFF ++ List.replicate 32 0

/-- One listener, three workers. -/
theorem workers_listen_three :
    ∃ rc listening calls, Started .serving (fun _ => 2) rc listening calls ∧
      (∀ ls ∈ listening, ls.worker < 3) ∧
      (∀ worker < 3, ((listenersOf worker listening).map Listening.closed).Perm
        ([unopened].map fun entry => (ofBytes entry).forWorker worker)) ∧
      (rc = .ok → (opened System.serving.held
        (nightCloseListeningSockets .serving listening calls).2).Perm System.serving.held) := by
  have hsystem : ∀ owned size,
      ((Regions.Allocator.above fun _ => true).alloc owned size).isSome := fun _ _ => rfl
  have hcreate : PoolLarge.nightCreatePool (.above fun _ => true) (fun _ => 0xFF) 4096 =
    some PoolLarge.pagePool := rfl
  obtain ⟨pool, hinit⟩ : ∃ pool, ArrayPush.nightArrayInit (.above fun _ => true)
      PoolLarge.pagePool 4 listeningSize = some (some ⟨80, 0, listeningSize, 4⟩, pool) := ⟨_, rfl⟩
  obtain ⟨hstored, -, -⟩ := ArrayPush.stored_start
    (PoolLarge.nightCreatePool_sound (by decide) hcreate) (by decide) (by decide) hinit
  obtain ⟨ls, array, pool₁, copied, hpush⟩ := ArrayPush.push_some hsystem hstored
  obtain ⟨hstored₁, -, hsize, hcontents⟩ := ArrayPush.contents_push hstored
    (show listeningSize * ArrayPush.exN 0 < 2 ^ 63 by decide) hpush
    (show unopened.length = listeningSize by decide)
  have hlistens : Listens { pool₁ with memory := Memory.store pool₁.memory ls unopened } array
      [unopened] := ⟨hstored₁, hsize, hcontents⟩
  have hworkers : ∀ entry ∈ [unopened], workerOf entry = 0 := by decide
  obtain ⟨array', pool', hloop⟩ := (@initLoop_clones (.above fun _ => true) _ _ [] [unopened] 3 1 4
    (by decide) (by decide) rfl hworkers (by decide) hlistens).2 hsystem
  have hconf : nightEventInitConf (.above fun _ => true) 512 3 4 array
      { pool₁ with memory := Memory.store pool₁.memory ls unopened } =
        some (.ok, array', pool') := by
    rw [nightEventInitConf, hlistens.nelts, if_neg (by decide)]
    exact hloop
  exact ⟨_, _, _, workers_listen .serving (fun _ => 2) hlistens hworkers (by decide) (by decide)
    (by decide) (by decide) hconf rfl⟩

end Night.ListeningSockets
