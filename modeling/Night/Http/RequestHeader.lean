import Night.Http.HeaderLookup

/-!
# The framing of a request

The header lines fill `headers_in` through the handlers that the hash finds, and
`night_http_process_request_header` checks the fields before the request is handed on.
The hash knows neither `Content-Length` nor `Transfer-Encoding`, so the checks of these
two fields see null pointers, and `night_http_validate_host` has no body.
-/

namespace Night.RequestHeader

open Night.Bytes
open Night.Hash
open Night.HeaderLine

/-! ## Strings -/

def nightMaxOffTValue : ℤ := 9223372036854775807
def nightMaxTimeTValue : ℤ := 9223372036854775807

def nightError : ℤ := -1
def nightDeclined : ℤ := -3

/-- The loop of `night_atoof` and `night_atotm`, from `value` on. -/
def readDecimal (max : ℤ) : ℤ → List Byte → ℤ
  | value, [] => value
  | value, ch :: rest =>
      if ch.toInt < '0'.toNat ∨ ch.toInt > '9'.toNat then nightError
      else
        let digit := ch.toInt - '0'.toNat
        if value ≥ max / 10 ∧ (value > max / 10 ∨ digit > max % 10) then nightError
        else readDecimal max (value * 10 + digit) rest

def nightAtoof (line : List Byte) : ℤ :=
  if line.length = 0 then nightError else readDecimal nightMaxOffTValue 0 line

def nightAtotm (line : List Byte) : ℤ :=
  if line.length = 0 then nightError else readDecimal nightMaxTimeTValue 0 line

/-- `night_strncasecmp` on two strings that end with a zero byte. -/
def nightStrncasecmp (s1 s2 : List Byte) : ℕ → ℤ
  | 0 => 0
  | n + 1 =>
      let c1 := nightTolower (s1.headD 0)
      let c2 := nightTolower (s2.headD 0)
      if c1 = c2 then (if c1 ≠ 0 then nightStrncasecmp s1.tail s2.tail n else 0)
      else c1.toInt - c2.toInt

/-- `night_strcasestrn`; `s1` is what is in front of the zero byte. -/
def nightStrcasestrn (s2 : List Byte) (n : ℕ) : List Byte → Option (List Byte)
  | [] => none
  | ch :: s1 =>
      if nightTolower ch = nightTolower (s2.headD 0) ∧
          nightStrncasecmp s1 s2.tail (n - 1) = 0 then some (ch :: s1)
      else nightStrcasestrn s2 n s1

/-- The bytes in front of the zero byte that the caller writes behind a value. -/
def cString (value : List Byte) : List Byte := value.takeWhile fun ch => ch ≠ 0

/-! ## The fields of the request -/

inductive ConnectionType where
  | none
  | close
  | keepAlive
  deriving DecidableEq, Repr

/-- `night_http_headers_in_t`, less what nothing here reads: the list of all headers and
the browser. -/
structure HeadersIn where
  host : Option TableElt
  connection : List TableElt
  userAgent : List TableElt
  accept : List TableElt
  acceptEncoding : List TableElt
  acceptLanguage : List TableElt
  contentLength : Option TableElt
  transferEncoding : Option TableElt
  keepAlive : Option TableElt
  contentLengthN : ℤ
  keepAliveN : ℤ
  connectionType : ConnectionType
  chunked : Bool
  deriving DecidableEq, Repr

/-- `headers_in` as `night_http_create_request` leaves it. -/
def freshHeadersIn : HeadersIn where
  host := none
  connection := []
  userAgent := []
  accept := []
  acceptEncoding := []
  acceptLanguage := []
  contentLength := none
  transferEncoding := none
  keepAlive := none
  contentLengthN := -1
  keepAliveN := -1
  connectionType := .none
  chunked := false

def nightHttpBadRequest : ℕ := 400
def nightHttpNotAllowed : ℕ := 405
def nightHttpInternalServerError : ℕ := 500
def nightHttpNotImplemented : ℕ := 501

def nightHttpVersion10 : ℕ := 1000
def nightHttpVersion11 : ℕ := 1001

def nightHttpTrace : ℕ := 0x8000
def nightHttpConnect : ℕ := 0x10000

/-- How the header loop ends: with `night_http_finalize_request`, with
`night_http_close_request`, or with `night_http_process_request`. -/
inductive Answer where
  | finalize (status : ℕ)
  | close (status : ℕ)
  | processRequest (headersIn : HeadersIn)
  deriving DecidableEq, Repr

/-! ## The handlers -/

/-- `night_http_process_header_line`: `h` goes to the end of the list at `offset`.  A second
`Host` does not come here. -/
def nightHttpProcessHeaderLine (h : TableElt) (offset : HeaderOffset) (headersIn : HeadersIn) :
    HeadersIn :=
  match offset with
  | .host => { headersIn with host := headersIn.host.or (some h) }
  | .connection => { headersIn with connection := headersIn.connection ++ [h] }
  | .userAgent => { headersIn with userAgent := headersIn.userAgent ++ [h] }
  | .accept => { headersIn with accept := headersIn.accept ++ [h] }
  | .acceptEncoding => { headersIn with acceptEncoding := headersIn.acceptEncoding ++ [h] }
  | .acceptLanguage => { headersIn with acceptLanguage := headersIn.acceptLanguage ++ [h] }

/-- `night_http_validate_host` returns a local that it never sets, here `rc`. -/
def nightHttpValidateHost (rc : ℤ) (_ : List Byte) : ℤ := rc

def nightHttpProcessHost (rc : ℤ) (h : TableElt) (headersIn : HeadersIn) :
    Except Answer HeadersIn :=
  if headersIn.host.isSome then .error (.finalize nightHttpBadRequest)
  else
    let rc := nightHttpValidateHost rc h.value
    if rc = nightDeclined then .error (.finalize nightHttpBadRequest)
    else if rc = nightError then .error (.close nightHttpInternalServerError)
    else .ok { headersIn with host := some h }

def nightHttpProcessConnection (h : TableElt) (offset : HeaderOffset) (headersIn : HeadersIn) :
    HeadersIn :=
  let headersIn := nightHttpProcessHeaderLine h offset headersIn
  if (nightStrcasestrn (nightString "close") 5 (cString h.value)).isSome then
    { headersIn with connectionType := .close }
  else if (nightStrcasestrn (nightString "keep-alive") 10 (cString h.value)).isSome then
    { headersIn with connectionType := .keepAlive }
  else headersIn

/-- `hh->handler(r, h, hh->offset)`.  What `night_http_process_user_agent` finds out about the
browser is left out. -/
def callHandler (rc : ℤ) (h : TableElt) (hh : HeaderIn) (headersIn : HeadersIn) :
    Except Answer HeadersIn :=
  match hh.handler with
  | .processHost => nightHttpProcessHost rc h headersIn
  | .processConnection => .ok (nightHttpProcessConnection h hh.offset headersIn)
  | .processUserAgent => .ok (nightHttpProcessHeaderLine h hh.offset headersIn)
  | .processHeaderLine => .ok (nightHttpProcessHeaderLine h hh.offset headersIn)

/-- The turns of the loop for the header lines: the line number `index` has `rcs index` in
the local of `night_http_validate_host`.  There is no result when a lookup leaves the table. -/
def processLines (table : NightHash) (rcs : ℕ → ℤ) :
    ℕ → List TableElt → HeadersIn → Option (Except Answer HeadersIn)
  | _, [], headersIn => some (.ok headersIn)
  | index, h :: lines, headersIn =>
      match findHeader table h with
      | none => none
      | some none => processLines table rcs (index + 1) lines headersIn
      | some (some hh) =>
          match callHandler (rcs index) h hh headersIn with
          | .error answer => some (.error answer)
          | .ok headersIn => processLines table rcs (index + 1) lines headersIn

/-! ## The checks -/

/-- The check of `Content-Length`. -/
def checkContentLength (headersIn : HeadersIn) : Except Answer HeadersIn :=
  match headersIn.contentLength with
  | none => .ok headersIn
  | some h =>
      let contentLengthN := nightAtoof h.value
      if contentLengthN = nightError then .error (.finalize nightHttpBadRequest)
      else .ok { headersIn with contentLengthN := contentLengthN }

/-- The check of `Transfer-Encoding`. -/
def checkTransferEncoding (version : ℕ) (headersIn : HeadersIn) : Except Answer HeadersIn :=
  match headersIn.transferEncoding with
  | none => .ok headersIn
  | some h =>
      if version < nightHttpVersion11 then .error (.finalize nightHttpBadRequest)
      else if h.value.length = 7 ∧ nightStrncasecmp h.value (nightString "chunked") 7 = 0 then
        if headersIn.contentLength.isSome then .error (.finalize nightHttpBadRequest)
        else .ok { headersIn with chunked := true }
      else .error (.finalize nightHttpNotImplemented)

/-- The timeout of `Keep-Alive`. -/
def readKeepAlive (headersIn : HeadersIn) : HeadersIn :=
  match headersIn.connectionType, headersIn.keepAlive with
  | .keepAlive, some h => { headersIn with keepAliveN := nightAtotm h.value }
  | _, _ => headersIn

def nightHttpProcessRequestHeader (version method : ℕ) (headersIn : HeadersIn) :
    Except Answer HeadersIn := do
  if headersIn.host.isNone ∧ version > nightHttpVersion10 then
    .error (.finalize nightHttpBadRequest)
  else
    let headersIn ← checkContentLength headersIn
    let headersIn ← checkTransferEncoding version headersIn
    let headersIn := readKeepAlive headersIn
    if method = nightHttpConnect then .error (.finalize nightHttpNotAllowed)
    else if method = nightHttpTrace then .error (.finalize nightHttpNotAllowed)
    else .ok headersIn

/-- The loop of `night_http_process_request_headers` over the header lines of a request and the
empty line behind them. -/
def processRequestHeaders (table : NightHash) (rcs : ℕ → ℤ) (version method : ℕ)
    (lines : List TableElt) : Option Answer := do
  match ← processLines table rcs 0 lines freshHeadersIn with
  | .error answer => some answer
  | .ok headersIn =>
      match nightHttpProcessRequestHeader version method headersIn with
      | .error answer => some answer
      | .ok headersIn => some (.processRequest headersIn)

/-! ## Framing -/

/-- The header lines with the name `text`, in whatever case. -/
def named (text : String) (lines : List TableElt) : List TableElt :=
  lines.filter fun h => h.key.map nightTolower = nightString text

/-- A request whose framing is consistent, where `malformed` says which values of `Host`
are malformed. -/
structure Framed (malformed : List Byte → Prop) (version : ℕ) (lines : List TableElt) :
    Prop where
  host : version > nightHttpVersion10 → named "host" lines ≠ []
  hostOnce : (named "host" lines).length ≤ 1
  hostValue : ∀ h ∈ named "host" lines, ¬ malformed h.value
  lengthOnce : (named "content-length" lines).length ≤ 1
  lengthValue : ∀ h ∈ named "content-length" lines, nightAtoof h.value ≠ nightError
  encoding : ∀ h ∈ named "transfer-encoding" lines,
    version ≥ nightHttpVersion11 ∧ h.value.map nightTolower = nightString "chunked"
  notBoth : named "content-length" lines = [] ∨ named "transfer-encoding" lines = []

/-- The request was answered with an error. -/
def Answer.IsError : Answer → Prop
  | .finalize _ => True
  | .close _ => True
  | .processRequest _ => False

/-- The guard: a request that is not framed is answered with an error. -/
def Guarded (malformed : List Byte → Prop) (table : NightHash) (rcs : ℕ → ℤ)
    (version method : ℕ) (lines : List TableElt) : Prop :=
  ¬ Framed malformed version lines →
    ∃ answer, processRequestHeaders table rcs version method lines = some answer ∧
      answer.IsError

/-- The hash gives the line to `night_http_process_host`. -/
def takesHost (table : NightHash) (h : TableElt) : Bool :=
  match findHeader table h with
  | some (some hh) => hh.handler = .processHost
  | _ => false

def BadCode (rc : ℤ) : Prop := rc = nightDeclined ∨ rc = nightError

/-- The requests that the checks refuse: by the lines that are taken for `Host`, by what is
left in the local of `night_http_validate_host` for one of them, and by the method. -/
def Refused (table : NightHash) (rcs : ℕ → ℤ) (version method : ℕ) (lines : List TableElt) :
    Prop :=
  2 ≤ lines.countP (takesHost table) ∨
    (∃ i h, lines[i]? = some h ∧ takesHost table h ∧ BadCode (rcs i)) ∨
    (version > nightHttpVersion10 ∧ lines.countP (takesHost table) = 0) ∨
    method = nightHttpConnect ∨ method = nightHttpTrace

/-! ## What the handlers fill -/

variable {table : NightHash} {rcs : ℕ → ℤ} {version method : ℕ} {lines : List TableElt}
variable {headersIn : HeadersIn} {h : TableElt} {hh : HeaderIn}

def nightHttpGet : ℕ := 0x0002

end Night.RequestHeader
