import Night.Core.OutputChain
import Night.Http.ContentType
import Night.Http.PhaseRun
import Night.Http.Request
import Night.Http.Validators
import Night.Http.WriteFilterLaw

/-!
# `night_http_static_handler`

The answer to a request for a file, through the filters in the order of the table of modules:
the header by the range filter and the header filter to the write filter, the body by the copy
filter, which reads the file, to the write filter.  Memory of a pool comes zeroed; the null byte
of the path, which is written behind its block, is taken to fall on memory that is free.
-/

namespace Night.StaticResponse

open Night.Bytes Night.Time
open Night.PhaseRun (nightAgain nightDeclined nightDone nightError nightHttpInternalServerError
  nightOk)
open Night.HttpRequest (nightHttpGet nightHttpPost)

/-! ## The file -/

/-- What is read of a `struct stat`. -/
structure Stat where
  size : Int64
  mtime : Int64
  isDir : Bool
  deriving DecidableEq

/-- What comes of `open` and of `fstat`. -/
inductive Opened where
  | refused
  | unknown
  | found (fd : ℕ) (stat : Stat)

/-- `night_open_file_info_t`. -/
structure OpenFileInfo where
  fd : ℤ
  size : Int64
  mtime : Int64
  isDir : Bool
  deriving DecidableEq

/-- `night_open_and_stat_file`, and whether it returns `NIGHT_OK`. -/
def nightOpenAndStatFile (opened : Opened) (file : OpenFileInfo) : Bool × OpenFileInfo :=
  match opened with
  | .refused => (false, { file with fd := -1 })
  | .unknown => (false, { file with fd := -1 })
  | .found fd stat =>
    (true, { fd := if stat.isDir then file.fd else fd,
             size := stat.size, mtime := stat.mtime, isDir := stat.isDir })

/-- `night_open_cached_file` without `test_only`; `cached` says that there is a cache, which has
no files. -/
def nightOpenCachedFile (cached : Bool) (opened : Opened) (file : OpenFileInfo) :
    Bool × OpenFileInfo :=
  let file := { file with fd := -1 }
  if cached then (true, file) else nightOpenAndStatFile opened file

/-! ## The filters -/

/-- A request: what the header filter reads of it, apart from the method. -/
structure Request where
  method : BitVec 32
  uri : List Byte
  exten : List Byte
  errStatus : ℤ
  response : HeaderFilter.Request

def nightHttpHead : BitVec 32 := 0x00000004#32

def nightHttpNotAllowed : ℤ := 405

/-- What the handler depends on: the root of the location, whether it has a file cache, the
files, the configured types, the process, whether a list and the pool have memory at each of
the places where they are asked, the locals of `night_output_chain_get_buf`, and how much the
connection takes in each of the two calls of the write filter. -/
structure Environment where
  root : List Byte
  cached : Bool
  opened : List Byte → Opened
  content : ℕ → List Byte
  types : ContentType.Types
  process : HeaderFilter.Process
  path : Bool
  etag : Option Bool
  etagValue : Bool
  exten : Bool
  buf : Bool
  acceptRanges : Option Bool
  header : Bool
  context : Bool
  memory : ℕ → OutputChain.Memory
  headerCount : ℕ
  bodyCount : ℕ

def code : WriteFilter.Code → ℤ
  | .ok => nightOk
  | .again => nightAgain
  | .error => nightError

/-- A buffer that may be handed to the write filter: it has bytes or carries a mark. -/
def toInput (b : WriteFilter.Buf) : Option WriteFilter.InputBuf :=
  if h : b.bytes = [] → b.lastBuf ∨ b.flush ∨ b.sync then some ⟨b, h⟩ else none

/-- `night_http_write_filter` on a chain of buffers.  At one with neither bytes nor a mark it
returns an error before it sends anything; what it has put into `r->out` is not looked at
again. -/
def nightHttpWriteFilter (s : WriteFilter.State) (bufs : List WriteFilter.Buf) (pooled : Bool)
    (count : ℕ) : Option (WriteFilter.Code × WriteFilter.State) :=
  match bufs.mapM toInput with
  | none => some (.error, s)
  | some input => WriteFilter.runCall s ⟨input, pooled, count⟩

/-- `night_http_header_filter` with the write filter; `header_only` is returned too. -/
def nightHttpHeaderFilter (env : Environment) (r : HeaderFilter.Request) (s : WriteFilter.State) :
    Option (ℤ × Bool × WriteFilter.State) := do
  match ← HeaderFilter.nightHttpHeaderFilter env.process r env.header with
  | (.ok, r) => some (nightOk, r.headerOnly, s)
  | (.error, r) => some (nightError, r.headerOnly, s)
  | (.sent b, r) =>
    let (rc, s) ← nightHttpWriteFilter s [⟨b.bytes, false, false, false, false, b.lastBuf⟩] false
      env.headerCount
    some (code rc, r.headerOnly, s)

/-- `night_http_range_header_filter`; whatever the header `Range` says, the whole file is
sent. -/
def nightHttpRangeHeaderFilter (env : Environment) (r : HeaderFilter.Request)
    (s : WriteFilter.State) : Option (ℤ × Bool × WriteFilter.State) :=
  let h := r.headersOut
  if r.httpVersion < 1000 ∨ h.status ≠ 200 ∨ r.main = false ∨ h.contentLengthN = -1 then
    nightHttpHeaderFilter env r s
  else
    match env.acceptRanges with
    | none => some (nightError, r.headerOnly, s)
    | some room =>
      let elt := ⟨1, literal "Accept-Ranges", literal "bytes"⟩
      nightHttpHeaderFilter env
        { r with headersOut := { h with headers := Validators.push h.headers room elt } } s

/-- `night_http_send_header`. -/
def nightHttpSendHeader (env : Environment) (errStatus : ℤ) (r : HeaderFilter.Request)
    (s : WriteFilter.State) : Option (ℤ × Bool × WriteFilter.State) :=
  if r.headerSent then some (nightError, r.headerOnly, s)
  else
    let h := r.headersOut
    let h := if errStatus ≠ 0 then { h with status := errStatus, statusLine := [] } else h
    nightHttpRangeHeaderFilter env { r with headersOut := h } s

/-- The bytes of a file that `night_read_file` gives; nothing when a read fails or the file has
become shorter. -/
def readFile (env : Environment) (file : OpenFileInfo) : Option (List Byte) :=
  if file.size = 0 then some []
  else if file.fd = -1 then none
  else
    let content := env.content file.fd.toNat
    if (content.length : ℤ) < file.size.toInt then none
    else some (content.take file.size.toInt.toNat)

/-- The buffer that the handler makes of a file. -/
def fileBuf (main : Bool) (bytes : List Byte) : OutputChain.Buf where
  bytes := bytes
  capacity := 0
  inFile := bytes ≠ []
  flush := false
  lastBuf := main
  lastInChain := true
  recycled := false
  tag := 0

def chainCode : WriteFilter.Code → OutputChain.Code
  | .ok => .ok
  | .again => .again
  | .error => .error

def chainRc : OutputChain.Code → ℤ
  | .ok => nightOk
  | .again => nightAgain
  | .error => nightError
  | .done => nightDone

/-- A work buffer as the write filter sees it. -/
def workBuf (b : OutputChain.Buf) : WriteFilter.Buf :=
  ⟨b.bytes, b.inFile, b.flush, b.recycled, false, b.lastBuf⟩

/-- `night_http_copy_filter` in a request that has no context yet, with the write filter.  What
the chain passes on is known before it is answered; then it gets the answer of the filter. -/
def nightHttpCopyFilter (env : Environment) (fuel : ℕ) (b : OutputChain.Buf)
    (s : WriteFilter.State) : Option (ℤ × WriteFilter.State) := do
  let chain := fun answer => OutputChain.nightOutputChain ⟨env.memory, fun _ => answer⟩ fuel [b]
    (OutputChain.start 1)
  if !env.context then some (nightError, s)
  else
    match ← chain ⟨.ok, fun _ => 0⟩ with
    | .crashed => none
    | .returned rc ended =>
      if ended.filters = 0 then some (chainRc rc, s)
      else do
        let (rc, s) ← nightHttpWriteFilter s (ended.passed.map workBuf) true env.bodyCount
        match ← chain ⟨chainCode rc, fun _ => 0⟩ with
        | .crashed => none
        | .returned rc _ => some (chainRc rc, s)

/-- `night_http_output_filter`: an error is noted in the connection. -/
def nightHttpOutputFilter (env : Environment) (fuel : ℕ) (main : Bool) (file : OpenFileInfo)
    (s : WriteFilter.State) : Option (ℤ × WriteFilter.State) := do
  let (rc, s) ← match readFile env file with
    | none => some (nightError, s)
    | some bytes => nightHttpCopyFilter env fuel (fileBuf main bytes) s
  some (rc, if rc = nightError then { s with error := true } else s)

/-! ## The handler -/

def nightHttpStaticHandler (env : Environment) (fuel : ℕ) (r : Request) (s : WriteFilter.State) :
    Option (ℤ × WriteFilter.State) :=
  if r.method &&& (nightHttpGet ||| nightHttpHead ||| nightHttpPost) = 0 then
    some (nightHttpNotAllowed, s)
  else if r.uri = [] then none
  else if r.uri.getLast? = some (ascii '/') then some (nightDeclined, s)
  else if !env.path then some (nightHttpInternalServerError, s)
  else
    -- whether there is a file is not asked
    let file := (nightOpenCachedFile env.cached (env.opened (env.root ++ r.uri)) ⟨0, 0, 0, false⟩).2
    if r.method = nightHttpPost then some (nightHttpNotAllowed, s)
    else
      let h := { r.response.headersOut with
        status := 200
        contentLengthN := file.size
        lastModifiedTime := file.mtime.toInt }
      match Validators.nightHttpSetEtag h env.etag env.etagValue with
      | (false, _) => some (nightHttpInternalServerError, s)
      | (true, h) => do
        match ← ContentType.nightHttpSetContentType env.types
            ⟨r.uri, r.exten, h.contentType, h.contentTypeLen⟩ env.exten with
        | .segfault => none
        | .returned .error _ => some (nightHttpInternalServerError, s)
        | .returned .ok typed =>
          if !env.buf then some (nightHttpInternalServerError, s)
          else do
            let response := { r.response with
              head := r.method = nightHttpHead
              headersOut := { h with
                contentType := typed.contentType, contentTypeLen := typed.contentTypeLen } }
            let (rc, headerOnly, s) ← nightHttpSendHeader env r.errStatus response s
            if rc = nightError ∨ nightOk < rc ∨ headerOnly then some (rc, s)
            else nightHttpOutputFilter env fuel response.main file s

/-! ## The write filter -/

section Copy

variable {env : OutputChain.Environment} {s : OutputChain.State}

end Copy

section CopyFilter

variable {env : Environment} {s : WriteFilter.State}

end CopyFilter

/-! ## The header -/

/-- The type of a file: what is found for the extension in lower case, or the default. -/
def fileType (types : ContentType.Types) (exten : List Byte) : List Byte :=
  if exten = [] then ContentType.defaultType
  else (types.entry (exten.map nightTolower)).getD ContentType.defaultType

/-- Nothing of an answer is there yet but for headers of the list. -/
structure Fresh (r : Request) : Prop where
  errStatus : r.errStatus = 0
  headerSent : r.response.headerSent = false
  main : r.response.main = true
  httpVersion : 1000 ≤ r.response.httpVersion
  headerOnly : r.response.headerOnly = false
  chunked : r.response.chunked = false
  statusLine : r.response.headersOut.statusLine = []
  server : r.response.headersOut.server = false
  date : r.response.headersOut.date = false
  contentType : r.response.headersOut.contentType = []
  charset : r.response.headersOut.charset = []
  contentLength : r.response.headersOut.contentLength = false
  lastModified : r.response.headersOut.lastModified = false

/-- Whenever the list and the pool are asked they have memory, and the size that a work buffer
gets can be served. -/
structure Supplied (env : Environment) : Prop where
  path : env.path = true
  etag : env.etag.isSome
  etagValue : env.etagValue = true
  exten : env.exten = true
  buf : env.buf = true
  acceptRanges : env.acceptRanges.isSome
  header : env.header = true
  context : env.context = true
  memory : ∀ k, (env.memory k).Good

/-- The header lines of the answer. -/
def responseLines (env : Environment) (r : Request) (file : OpenFileInfo) :
    List HeaderFilter.Line :=
  [⟨literal "Server", literal "night"⟩, ⟨literal "Date", env.process.cachedHttpTime⟩] ++
    (if fileType env.types r.exten = [] then []
      else [⟨literal "Content-Type", fileType env.types r.exten⟩]) ++
    [⟨literal "Content-Length", decimal file.size.toInt⟩] ++
    ((nightHttpTime file.mtime.toInt).toList.map fun time => ⟨literal "Last-Modified", time⟩) ++
    [⟨literal "Connection",
      if r.response.keepalive && !env.process.closing then literal "keep-alive"
      else literal "close"⟩] ++
    HeaderFilter.listLines r.response.headersOut.headers ++
    [⟨literal "ETag", Validators.etagText file.mtime.toInt file.size⟩,
      ⟨literal "Accept-Ranges", literal "bytes"⟩]

section Header

variable {env : Environment} {r : Request} {file : OpenFileInfo}

/-- The file that a request is answered with. -/
def fileOf (env : Environment) (r : Request) : OpenFileInfo :=
  (nightOpenCachedFile env.cached (env.opened (env.root ++ r.uri)) ⟨0, 0, 0, false⟩).2

/-- The file has a size, a time of its last change that can be written, and all its bytes. -/
structure Readable (env : Environment) (file : OpenFileInfo) (content : List Byte) : Prop where
  size : 0 ≤ file.size.toInt
  known : file.mtime.toInt ≠ -1
  late : file.mtime.toInt < 2 ^ 31 * 86400
  read : readFile env file = some content

/-- What a request for a file gets: the status 200, the headers of the file and, with `GET`, its
bytes. -/
def response (env : Environment) (r : Request) (content : List Byte) : List Byte :=
  HeaderFilter.message (literal "200 OK") (responseLines env r (fileOf env r)) ++
    if r.method = nightHttpGet then content else []

end Header

end Night.StaticResponse
