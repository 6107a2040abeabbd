import Mathlib.Logic.Function.Basic
import Night.Conf.Parse

/-!
# What `night_conf_parse` and the block handlers do with `*cf`

The parser of a file puts its own `night_conf_file_t` into `cf`, and the handlers of the
blocks `events` and `http` their context.  Everything else reads `*cf` only; what it does is
a state `σ`, and each call that can fail answers as it likes.  `night_dump_config` is off.
-/

namespace Night.ConfRestore

open Night.Bytes
open Night.Conf (Args Flags ParseType)

def nightEventModule : Flags := 0x544E5645#64
def nightHttpModule : Flags := 0x50545448#64

def nightEventConf : Flags := 0x02000000#64
def nightHttpMainConf : Flags := 0x02000000#64

/-- A `night_conf_t`; pointers are numbers and null is zero. -/
structure NightConf where
  name : ℕ
  args : ℕ
  cycle : ℕ
  pool : ℕ
  tempPool : ℕ
  ctx : ℕ
  moduleType : Flags
  cmdType : Flags
  confFile : ℕ
  deriving DecidableEq, Repr

/-- `NIGHT_CONF_OK`, `NIGHT_CONF_ERROR` or a text. -/
inductive Rv where
  | ok
  | error
  | message (text : List Byte)
  deriving DecidableEq, Repr

/-- The fields of a `night_conf_file_t` that the parser tests: `file.fd`, if it is valid, and
`buffer->start`. -/
structure ConfFile where
  fd : Option ℕ
  start : ℕ
  deriving DecidableEq, Repr

/-- The objects that `cf->conf_file` can point to, and the rest. -/
structure World (σ : Type) where
  files : ℕ → ConfFile
  state : σ

/-! ## What is recorded -/

/-- The calls whose answers the handlers of blocks test. -/
inductive Step where
  | pcalloc
  | createConf
  | initConf
  | createMainConf
  | createSrvConf
  | createLocConf
  | preconfiguration
  | initMainConf
  | mergeServers
  | initLocations
  | initStaticLocationTrees
  | initPhases
  | initHeadersInHash
  | postconfiguration
  | initVars
  | initPhaseHandlers
  | optimizeServers
  deriving DecidableEq, Repr

inductive BlockKind where
  | events
  | http
  deriving DecidableEq, Repr

/-- What happens: a file and its buffer come and go, a call inside the handler of a block is
answered with a failure, the handler of a block or the parser returns. -/
inductive Event where
  | opened (fd : ℕ)
  | closed (fd : ℕ)
  | allocated (start : ℕ)
  | freed (start : ℕ)
  | refused (step : Step)
  | block (kind : BlockKind) (entry exit : NightConf)
  | parsed (entry exit : ℕ)
  deriving DecidableEq, Repr

/-- A return, `*cf` and everything else at that time, and what happened. -/
structure Outcome (σ : Type) where
  rv : Rv
  cf : NightConf
  world : World σ
  log : List Event

/-- `night_conf_parse(cf, NULL)`. -/
abbrev Parser (σ : Type) := NightConf → World σ → Option (Outcome σ)

/-! ## Modules -/

/-- A call and what its failure makes the handler return. -/
abbrev Task (σ : Type) := Step × (σ → Option Rv × σ)

structure EventModuleCtx (σ : Type) where
  createConf : Option (σ → ℕ × σ)
  initConf : Option (ℕ → σ → Rv × σ)

structure HttpModuleCtx (σ : Type) where
  preconfiguration : Option (NightConf → σ → ℤ × σ)
  postconfiguration : Option (NightConf → σ → ℤ × σ)
  createMainConf : Option (NightConf → σ → ℕ × σ)
  initMainConf : Option (NightConf → ℕ → σ → Rv × σ)
  createSrvConf : Option (NightConf → σ → ℕ × σ)
  createLocConf : Option (NightConf → σ → ℕ × σ)

/-- A `night_module_t`, with the `ctx` of its type. -/
structure Module (σ : Type) where
  type : Flags
  ctxIndex : ℕ
  event : EventModuleCtx σ
  http : HttpModuleCtx σ

/-- A `set` function. -/
inductive SetFn (σ : Type) where
  | plain (set : NightConf → Args → ℕ → σ → Rv × σ)
  | events
  | http

inductive Token where
  | directive (args : Args) (block : Bool)
  | blockDone
  | fileDone
  | error
  deriving DecidableEq, Repr

/-- Everything that is called.  The functions of `night_http_module.c` that have no body yet
answer as they like too.  `find` is the choice of a command and its pointer by
`night_conf_handler`, `frame` the address of the local `conf_file`. -/
structure Env (σ : Type) where
  modules : List (Module σ)
  load : ℕ → σ → ℕ
  store : ℕ → ℕ → σ → σ
  pcalloc : NightConf → ℕ → σ → ℕ × σ
  openFile : List Byte → σ → Option ℕ × σ
  malloc : σ → ℕ × σ
  free : ℕ → σ → σ
  close : ℕ → σ → Bool × σ
  frame : σ → ℕ
  readToken : NightConf → σ → Token × σ
  find : NightConf → Args → Bool → σ → Option (SetFn σ × ℕ)
  eventMaxModule : ℕ
  httpMaxModule : ℕ
  servers : ℕ → σ → ℕ
  mergeServers : NightConf → ℕ → ℕ → σ → Rv × σ
  initLocations : NightConf → ℕ → ℕ → σ → ℤ × σ
  initStaticLocationTrees : NightConf → ℕ → ℕ → σ → ℤ × σ
  initPhases : NightConf → ℕ → σ → ℤ × σ
  initHeadersInHash : NightConf → ℕ → σ → ℤ × σ
  initVars : NightConf → σ → ℤ × σ
  initPhaseHandlers : NightConf → ℕ → σ → ℤ × σ
  optimizeServers : NightConf → ℕ → σ → ℤ × σ
  coreCtxIndex : ℕ

variable {σ : Type}

/-- Calls in a row up to the first failure. -/
def inTurn : List (Task σ) → σ → Option (Step × Rv) × σ
  | [], s => (none, s)
  | (step, call) :: tasks, s =>
      match call s with
      | (none, s) => inTurn tasks s
      | (some rv, s) => (some (step, rv), s)

/-- `if (call != NIGHT_OK) return NIGHT_CONF_ERROR`. -/
def unlessOk (call : σ → ℤ × σ) (s : σ) : Option Rv × σ :=
  let answer := call s
  (if answer.1 = 0 then none else some .error, answer.2)

/-- `if (rv != NIGHT_CONF_OK)`, and `rv` is returned. -/
def unlessConfOk (call : σ → Rv × σ) (s : σ) : Option Rv × σ :=
  let answer := call s
  (if answer.1 = .ok then none else some answer.1, answer.2)

/-- A pointer is asked for and stored, and null is a failure. -/
def storePointer (store : ℕ → ℕ → σ → σ) (address : ℕ) (call : σ → ℕ × σ) (s : σ) :
    Option Rv × σ :=
  let answer := call s
  (if answer.1 = 0 then some .error else none, store address answer.1 answer.2)

/-- The modules of a type. -/
def modulesOf (env : Env σ) (type : Flags) : List (Module σ) :=
  env.modules.filter fun m => m.type = type

/-- A return of the handler of a block, which was called with `cf`. -/
def leave (kind : BlockKind) (cf : NightConf) (rv : Rv) (exit : NightConf) (w : World σ)
    (log : List Event) : Outcome σ :=
  ⟨rv, exit, w, log ++ [.block kind cf exit]⟩

/-- A state put into the place of another. -/
def World.put (w : World σ) (s : σ) : World σ := { w with state := s }

/-! ## `night_events_block` -/

/-- The loop over `create_conf`. -/
def createConfs (env : Env σ) (table : ℕ) : List (Task σ) :=
  (modulesOf env nightEventModule).filterMap fun m =>
    m.event.createConf.map fun createConf =>
      (.createConf, storePointer env.store (table + 8 * m.ctxIndex) createConf)

/-- The loop over `init_conf`. -/
def initConfs (env : Env σ) (table : ℕ) : List (Task σ) :=
  (modulesOf env nightEventModule).filterMap fun m =>
    m.event.initConf.map fun initConf =>
      (.initConf, fun s => unlessConfOk (initConf (env.load (table + 8 * m.ctxIndex) s)) s)

/-- The text of both handlers for a second block. -/
def isDuplicate : Rv := .message ("is duplicate".toList.map ascii)

/-- What follows the parser, with `*cf = pcf`. -/
def eventsParsed (env : Env σ) (table : ℕ) (pcf : NightConf) (parsed : Outcome σ) : Outcome σ :=
  if parsed.rv ≠ .ok then leave .events pcf parsed.rv pcf parsed.world parsed.log
  else
    match inTurn (initConfs env table) parsed.world.state with
    | (some (step, rv), s) =>
        leave .events pcf rv pcf (parsed.world.put s) (parsed.log ++ [.refused step])
    | (none, s) => leave .events pcf .ok pcf (parsed.world.put s) parsed.log

def nightEventsBlock (env : Env σ) (parse : Parser σ) (conf : ℕ) (cf : NightConf)
    (w : World σ) : Option (Outcome σ) :=
  if env.load conf w.state ≠ 0 then some (leave .events cf isDuplicate cf w [])
  else
    let (ctx, s) := env.pcalloc cf 8 w.state
    if ctx = 0 then some (leave .events cf .error cf (w.put s) [.refused .pcalloc])
    else
      let (table, s) := env.pcalloc cf (env.eventMaxModule * 8) s
      let s := env.store ctx table s
      if table = 0 then some (leave .events cf .error cf (w.put s) [.refused .pcalloc])
      else
        let s := env.store conf ctx s
        match inTurn (createConfs env table) s with
        | (some (step, rv), s) => some (leave .events cf rv cf (w.put s) [.refused step])
        | (none, s) => do
            let pcf := cf
            let parsed ← parse
              { cf with ctx := ctx, moduleType := nightEventModule, cmdType := nightEventConf }
              (w.put s)
            some (eventsParsed env table pcf parsed)

/-! ## `night_http_block` -/

/-- A `night_http_conf_ctx_t`. -/
structure HttpConfCtx where
  address : ℕ
  mainConf : ℕ
  srvConf : ℕ
  locConf : ℕ

/-- The allocations at the begin: the context, stored at `conf`, and its three arrays. -/
def allocations (env : Env σ) (conf : ℕ) (cf : NightConf) (s : σ) : Option HttpConfCtx × σ :=
  let size := 8 * env.httpMaxModule
  let (address, s) := env.pcalloc cf 24 s
  if address = 0 then (none, s)
  else
    let s := env.store conf address s
    let (mainConf, s) := env.pcalloc cf size s
    let s := env.store address mainConf s
    if mainConf = 0 then (none, s)
    else
      let (srvConf, s) := env.pcalloc cf size s
      let s := env.store (address + 8) srvConf s
      if srvConf = 0 then (none, s)
      else
        let (locConf, s) := env.pcalloc cf size s
        let s := env.store (address + 16) locConf s
        if locConf = 0 then (none, s) else (some ⟨address, mainConf, srvConf, locConf⟩, s)

/-- The loop over `create_main_conf`, `create_srv_conf` and `create_loc_conf`. -/
def createHttpConfs (env : Env σ) (ctx : HttpConfCtx) (cf : NightConf) : List (Task σ) :=
  let create (step : Step) (table : ℕ) (m : Module σ)
      (call : Option (NightConf → σ → ℕ × σ)) : List (Task σ) :=
    (call.map fun call =>
      (step, storePointer env.store (table + 8 * m.ctxIndex) (call cf))).toList
  (modulesOf env nightHttpModule).flatMap fun m =>
    create .createMainConf ctx.mainConf m m.http.createMainConf ++
      (create .createSrvConf ctx.srvConf m m.http.createSrvConf ++
        create .createLocConf ctx.locConf m m.http.createLocConf)

/-- The loop over `preconfiguration`. -/
def preconfigurations (env : Env σ) (cf : NightConf) : List (Task σ) :=
  (modulesOf env nightHttpModule).filterMap fun m =>
    m.http.preconfiguration.map fun call => (.preconfiguration, unlessOk (call cf))

/-- The loop over `init_main_conf` and `night_http_merge_servers`. -/
def mainConfs (env : Env σ) (ctx : HttpConfCtx) (cmcf : ℕ) (cf : NightConf) : List (Task σ) :=
  (modulesOf env nightHttpModule).flatMap fun m =>
    (m.http.initMainConf.map fun call =>
      (Step.initMainConf, fun s =>
        unlessConfOk (call cf (env.load (ctx.mainConf + 8 * m.ctxIndex) s)) s)).toList ++
      [(.mergeServers, unlessConfOk (env.mergeServers cf cmcf m.ctxIndex))]

/-- The loop over the servers. -/
def locations (env : Env σ) (cmcf count : ℕ) (cf : NightConf) : List (Task σ) :=
  (List.range count).flatMap fun server =>
    [(.initLocations, unlessOk (env.initLocations cf cmcf server)),
      (.initStaticLocationTrees, unlessOk (env.initStaticLocationTrees cf cmcf server))]

/-- The loop over `postconfiguration`. -/
def postconfigurations (env : Env σ) (cf : NightConf) : List (Task σ) :=
  (modulesOf env nightHttpModule).filterMap fun m =>
    m.http.postconfiguration.map fun call => (.postconfiguration, unlessOk (call cf))

/-- What is between the last `goto failed` and `*cf = pcf`. -/
def configuration (env : Env σ) (cmcf count : ℕ) (cf : NightConf) : List (Task σ) :=
  locations env cmcf count cf ++
    ([(.initPhases, unlessOk (env.initPhases cf cmcf)),
      (.initHeadersInHash, unlessOk (env.initHeadersInHash cf cmcf))] ++
      (postconfigurations env cf ++ [(.initVars, unlessOk (env.initVars cf))]))

/-- What is behind `*cf = pcf`. -/
def serverSetup (env : Env σ) (cmcf : ℕ) (cf : NightConf) : List (Task σ) :=
  [(.initPhaseHandlers, unlessOk (env.initPhaseHandlers cf cmcf)),
    (.optimizeServers, unlessOk (env.optimizeServers cf cmcf))]

/-- What follows the parser.  The calls in `configuration` return directly. -/
def httpParsed (env : Env σ) (ctx : HttpConfCtx) (pcf : NightConf) (parsed : Outcome σ) :
    Outcome σ :=
  if parsed.rv ≠ .ok then leave .http pcf parsed.rv pcf parsed.world parsed.log
  else
    let cf := parsed.cf
    let w := parsed.world
    let cmcf := env.load (ctx.mainConf + 8 * env.coreCtxIndex) w.state
    match inTurn (mainConfs env ctx cmcf cf) w.state with
    | (some (step, rv), s) => leave .http pcf rv pcf (w.put s) (parsed.log ++ [.refused step])
    | (none, s) =>
        match inTurn (configuration env cmcf (env.servers cmcf s) cf) s with
        | (some (step, rv), s) =>
            leave .http pcf rv cf (w.put s) (parsed.log ++ [.refused step])
        | (none, s) =>
            match inTurn (serverSetup env cmcf pcf) s with
            | (some (step, rv), s) =>
                leave .http pcf rv pcf (w.put s) (parsed.log ++ [.refused step])
            | (none, s) => leave .http pcf .ok pcf (w.put s) parsed.log

def nightHttpBlock (env : Env σ) (parse : Parser σ) (conf : ℕ) (cf : NightConf)
    (w : World σ) : Option (Outcome σ) :=
  if env.load conf w.state ≠ 0 then some (leave .http cf isDuplicate cf w [])
  else
    match allocations env conf cf w.state with
    | (none, s) => some (leave .http cf .error cf (w.put s) [.refused .pcalloc])
    | (some ctx, s) =>
        match inTurn (createHttpConfs env ctx cf) s with
        | (some (step, rv), s) => some (leave .http cf rv cf (w.put s) [.refused step])
        | (none, s) =>
            let pcf := cf
            let cf := { cf with ctx := ctx.address }
            match inTurn (preconfigurations env cf) s with
            | (some (step, rv), s) => some (leave .http pcf rv cf (w.put s) [.refused step])
            | (none, s) => do
                let parsed ← parse
                  { cf with moduleType := nightHttpModule, cmdType := nightHttpMainConf }
                  (w.put s)
                some (httpParsed env ctx pcf parsed)

/-! ## The handler and the parser -/

/-- `rv = cmd->set(cf, cmd, conf)`. -/
def callSet (env : Env σ) (parse : Parser σ) (set : SetFn σ) (args : Args) (conf : ℕ)
    (cf : NightConf) (w : World σ) : Option (Outcome σ) :=
  match set with
  | .plain set =>
      let (rv, s) := set cf args conf w.state
      some ⟨rv, cf, (w.put s), []⟩
  | .events => nightEventsBlock env parse conf cf w
  | .http => nightHttpBlock env parse conf cf w

/-- `night_conf_handler`; its returns are `ok` and `error`. -/
def nightConfHandler (env : Env σ) (parse : Parser σ) (args : Args) (block : Bool)
    (cf : NightConf) (w : World σ) : Option (Outcome σ) :=
  match env.find cf args block w.state with
  | none => some ⟨.error, cf, w, []⟩
  | some (set, conf) => do
      let out ← callSet env parse set args conf cf w
      some { out with rv := if out.rv = .ok then .ok else .error }

/-- The parser without a file name: the loop decides what is a block, and nothing is put
back. -/
def parseBlock (loop : ParseType → Parser σ) : Parser σ := fun cf w => do
  let type := if (w.files cf.confFile).fd.isSome then .block else .param
  let out ← loop type cf w
  some { out with log := out.log ++ [.parsed cf.confFile out.cf.confFile] }

/-- The main loop. -/
def parseLoop (env : Env σ) : ℕ → ParseType → Parser σ
  | 0, _, _, _ => none
  | fuel + 1, type, cf, w =>
      match env.readToken cf w.state with
      | (.error, s) => some ⟨.error, cf, (w.put s), []⟩
      | (.blockDone, s) =>
          some ⟨if type = .block then .ok else .error, cf, (w.put s), []⟩
      | (.fileDone, s) =>
          some ⟨if type = .block then .error else .ok, cf, (w.put s), []⟩
      | (.directive args block, s) =>
          if block ∧ type = .param then some ⟨.error, cf, (w.put s), []⟩
          else do
            let handled ← nightConfHandler env (parseBlock (parseLoop env fuel)) args block cf
              (w.put s)
            if handled.rv = .error then some handled
            else
              let parsed ← parseLoop env fuel type handled.cf handled.world
              some { parsed with log := handled.log ++ parsed.log }

/-- What is behind the label `done` for a file: `cf->conf_file` tells which buffer is freed. -/
def finishFile (env : Env σ) (fd prev : ℕ) (out : Outcome σ) : Outcome σ :=
  let file := out.world.files out.cf.confFile
  let s := if file.start ≠ 0 then env.free file.start out.world.state else out.world.state
  let freed := if file.start ≠ 0 then [.freed file.start] else []
  let closed := env.close fd s
  let cf := { out.cf with confFile := prev }
  { rv := if closed.1 then out.rv else .error
    cf := cf
    world := out.world.put closed.2
    log := out.log ++ (freed ++ [.closed fd, .parsed prev cf.confFile]) }

/-- The parser with a file name. -/
def parseFile (env : Env σ) (loop : ParseType → Parser σ) (filename : List Byte) : Parser σ :=
  fun cf w =>
    match env.openFile filename w.state with
    | (none, s) =>
        some ⟨.error, cf, (w.put s), [.parsed cf.confFile cf.confFile]⟩
    | (some fd, s) => do
        let prev := cf.confFile
        let here := env.frame s
        let cf := { cf with confFile := here }
        let (start, s) := env.malloc s
        let w := { files := Function.update w.files here ⟨some fd, start⟩, state := s }
        let run := if start = 0 then some ⟨.error, cf, w, []⟩ else loop .file cf w
        let out ← run
        let allocated := if start = 0 then [] else [.allocated start]
        some (finishFile env fd prev { out with log := .opened fd :: (allocated ++ out.log) })

/-- `night_conf_parse`, with at most `fuel` directives in a row or one in the other. -/
def nightConfParse (env : Env σ) (fuel : ℕ) (filename : Option (List Byte)) : Parser σ :=
  match filename with
  | none => parseBlock (parseLoop env fuel)
  | some filename => parseFile env (parseLoop env fuel) filename

end Night.ConfRestore
