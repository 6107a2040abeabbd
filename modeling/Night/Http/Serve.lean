import Night.Http.Index
import Night.Http.LocationTree
import Night.Http.StaticResponse

/-!
# `night_http_handler` with the handlers of the modules

A request whose header was read runs through the handlers that the modules have registered for
the phases: to its location, from a directory to the file of an index by a run of its own, and
to the static handler.
-/

namespace Night.Serve

open Night.Bytes Night.Locations Night.PhaseHandlers
open Night.PhaseRun (Behaviour check entryAt nightAgain nightDeclined nightDone nightError
  nightHttpInternalServerError nightHttpNotFound nightOk)
open Night.HttpRequest (nightHttpGet nightHttpPost)
open Night.RequestHeader (ConnectionType)
open Night.StaticResponse (nightHttpHead nightHttpStaticHandler)
open Night.Time (literal)

/-! ## The handlers of the modules -/

inductive HttpHandler where
  | mirror
  | static
  | autoindex
  | index
  | tryFiles
  | authBasic
  | access
  | limitConn
  | limitReq
  | rewrite
  deriving DecidableEq, Repr

/-- What the modules push in their `postconfiguration`, in the order of `night_modules`; the log
phase has no entries in the engine. -/
def postconfiguration : List (Phase × HttpHandler) :=
  [(.precontent, .mirror), (.content, .static), (.content, .autoindex), (.content, .index),
    (.precontent, .tryFiles), (.access, .authBasic), (.access, .access),
    (.preaccess, .limitConn), (.preaccess, .limitReq), (.serverRewrite, .rewrite),
    (.rewrite, .rewrite)]

def phases (phase : Phase) : List HttpHandler :=
  (postconfiguration.filter fun pushed => pushed.1 = phase).map Prod.snd

def engine : PhaseEngine HttpHandler := nightHttpInitPhaseHandlers phases

/-! ## The server -/

/-- A server block: its locations, the configuration of each of them, and what the files, the
memory and the stack are like for the handlers. -/
structure Server where
  locations : List CoreLocConf
  tree : LocationTree
  built : buildTree locations = some tree
  internal : LocConf → Bool
  /-- The arguments of the `index` directives. -/
  directives : LocConf → List (List (List Byte))
  /-- What lies behind the array of the names when it is copied. -/
  behind : LocConf → ℕ → ℕ → Index.Unset
  files : LocConf → StaticResponse.Environment
  stat : List Byte → Index.Stat
  memory : Bool
  /-- The variables `reserve` and `len` before they are set. -/
  reserve : ℕ
  len : ℕ

def Server.index (server : Server) (locConf : LocConf) : Index.IndexLocConf :=
  Index.configured (server.behind locConf) (server.directives locConf)

/-- A request, with what was sent and the codes that `night_http_finalize_request` got. -/
structure State where
  request : PhaseRun.Request
  method : BitVec 32
  connectionType : ConnectionType
  uri : List Byte
  exten : List Byte
  errStatus : ℤ
  uriChanges : BitVec 4
  locConf : LocConf
  response : HeaderFilter.Request
  output : WriteFilter.State
  finalized : List ℤ

/-- `r->keepalive` by the header `Connection` and the version. -/
def State.keepalive (s : State) : Bool :=
  match s.connectionType with
  | .none => RequestHeader.nightHttpVersion10 < s.response.httpVersion
  | .close => false
  | .keepAlive => true

/-- `night_http_handler` sets `r->keepalive` for a client. -/
def State.withKeepalive (s : State) : State :=
  { s with response := { s.response with keepalive := s.keepalive } }

/-- `r->phase_handler = index`. -/
def State.enter (s : State) (index : ℕ) : State :=
  { s with request := { s.request with phaseHandler := index } }

/-! ## The source -/

section Run

variable (server : Server)

/-- The handlers; `redirect` is `night_http_internal_redirect`. -/
def callHandler (redirect : List Byte → State → Option State) (fuel : ℕ) (s : State) :
    HttpHandler → Option (ℤ × State)
  | .static => do
    let (rc, output) ← nightHttpStaticHandler (server.files s.locConf) fuel
      ⟨s.method, s.uri, s.exten, s.errStatus, s.response⟩ s.output
    some (rc, { s with output := output })
  | .autoindex =>
    match s.uri.getLast? with
    -- the byte in front of the URI would be read
    | none => none
    | some ch => if ch ≠ ascii '/' then some (nightDeclined, s) else some (nightOk, s)
  | .index =>
    if s.uri = [] then none
    else
      let served : Bool := s.method &&& (nightHttpGet ||| nightHttpHead ||| nightHttpPost) ≠ 0
      match (Index.nightHttpIndexHandler server.stat server.memory server.reserve server.len
        ⟨s.uri, served, (server.files s.locConf).root, server.index s.locConf⟩).1 with
      | .declined => some (nightDeclined, s)
      | .internalServerError => some (nightHttpInternalServerError, s)
      | .stray => none
      | .redirect uri => (redirect uri s).map fun s => (nightDone, s)
  -- no other module has anything behind its handler
  | _ => some (nightDeclined, s)

/-- `night_http_core_find_location` and where it leaves `loc_conf`; it never returns an error. -/
def nightHttpCoreFindLocation (depth : ℕ) (s : State) : Option State := do
  let (_, locConf) ←
    Locations.nightHttpCoreFindLocation (staticLocationsTree server.tree) s.uri depth s.locConf
  some { s with locConf := locConf }

/-- Whether the checker calls the handler of its entry. -/
def calls (r : PhaseRun.Request) : Checker → Bool
  | .coreRewritePhase => true
  | .coreFindConfigPhase => false
  | .corePostRewritePhase => false
  | .coreAccessPhase => r.isMain
  | .corePostAccessPhase => false
  | .coreContentPhase => r.contentHandler.isNone
  | .coreGenericPhase => true

/-- What a checker gets from a handler that has returned `code` and left `s`. -/
def behaviour (code : ℤ) (s : State) : Behaviour where
  call := fun _ r => ⟨code, r.uriChanged, r.contentHandler⟩
  findLocation := fun _ => nightOk
  locationInternal := fun _ => server.internal s.locConf

/-- A turn of the loop of `night_http_core_run_phases`, and the code of its checker. -/
def turn (redirect : List Byte → State → Option State) (fuel : ℕ) (checker : Checker)
    (handler : Option HttpHandler) (next : ℕ) (s : State) : Option (ℤ × State) := do
  let (code, s) ←
    if calls s.request checker then handler.bind (callHandler server redirect fuel s)
    else if checker = .coreFindConfigPhase then
      (nightHttpCoreFindLocation server fuel s).map fun s => (nightOk, s)
    else some (nightOk, s)
  let checked := check engine (behaviour server code s) checker next s.request
  some (checked.rc, { s with
    request := checked.request
    finalized := s.finalized ++ checked.finalized.toList })

/-- `night_http_handler`, with `run` for `night_http_core_run_phases`. -/
def nightHttpHandler (run : State → Option State) (s : State) : Option State :=
  if s.request.internal then run (s.enter engine.serverRewriteIndex.toNat)
  else run (s.withKeepalive.enter 0)

/-- `night_http_internal_redirect`. -/
def nightHttpInternalRedirect (run : State → Option State) (uri : List Byte) (s : State) :
    Option State :=
  let s := { s with uriChanges := s.uriChanges - 1 }
  if s.uriChanges = 0 then
    some { s with finalized := s.finalized ++ [nightHttpInternalServerError] }
  else do
    let typed ← ContentType.nightHttpSetExten ⟨uri, s.exten, [], 0⟩
    nightHttpHandler run { s with
      uri := uri
      exten := typed.exten
      locConf := .server
      request := { s.request with internal := true } }

/-- `night_http_core_run_phases` for at most `fuel` turns. -/
def nightHttpCoreRunPhases : ℕ → State → Option State
  | 0, _ => none
  | fuel + 1, s =>
    match entryAt engine s.request.phaseHandler with
    | none => none
    | some ⟨none, _, _⟩ => some s
    | some ⟨some checker, handler, next⟩ => do
      let (rc, s) ← turn server (nightHttpInternalRedirect (nightHttpCoreRunPhases fuel)) fuel
        checker handler next s
      if rc = nightOk then some s else nightHttpCoreRunPhases fuel s

end Run

/-! ## The location -/

variable {server : Server} {s : State}

section Turns

variable {checker : Checker} {handler : Option HttpHandler} {next index fuel : ℕ}
  {redirect : List Byte → State → Option State}

end Turns

/-! ## The index -/

section Index

variable {stat : List Byte → Index.Stat} {root uri : List Byte}
  {indices before : List Index.NightHttpIndex} {len : ℕ} {behind : ℕ → ℕ → Index.Unset}
  {directives : List (List (List Byte))}

end Index

/-! ## What a client gets -/

/-- A file, by its location, its URI and its extension, and whether a redirect leads to it. -/
structure Target where
  locConf : LocConf
  uri : List Byte
  exten : List Byte
  redirected : Bool

/-- An end without an answer, or a file. -/
inductive Result where
  | code (rc : ℤ)
  | file (target : Target)

/-- The names of the index that the search has looked up in a directory. -/
def Server.search (server : Server) (locConf : LocConf) (uri : List Byte) : Index.Answer :=
  (Index.search server.stat (server.files locConf).root uri (server.index locConf).names).1

/-- The locations and the names of the index are in order, and there is memory. -/
structure Sound (server : Server) : Prop where
  valid : ValidLocations server.locations
  noHigh : NoHighExtension server.locations
  names : ∀ locConf, ∀ name ∈ (server.index locConf).names,
    ∃ last, name.getLast? = some last ∧ last ≠ ascii '/'
  memory : server.memory = true
  supplied : ∀ locConf, StaticResponse.Supplied (server.files locConf)

/-- The request as the run of a redirect begins with it. -/
def State.redirected (s : State) (uri : List Byte) : State :=
  { s with
    uriChanges := s.uriChanges - 1
    uri := uri
    exten := ContentType.extenLoop uri (uri.length - 1)
    locConf := .server
    request := { s.request with internal := true } }

/-- The request in the content phase behind the search for its location. -/
def State.found (s : State) (locConf : LocConf) : State :=
  { s with
    locConf := locConf
    request := ⟨11, false, none, true, s.request.internal⟩ }

end Night.Serve
