import Night.Core.Time

/-!
# `night_http_header_filter`

One pass over the request adds up the length of the header, a second one with conditions of
its own writes it.  The buffer is the list of bytes that are written; the null byte that
`sprintf` puts behind a number is overwritten by what follows.
-/

namespace Night.HeaderFilter

open Night.Bytes
open Night.Time

/-- The fields of a `night_table_elt_t` that are read. -/
structure TableElt where
  hash : UInt64
  key : List Byte
  value : List Byte
  deriving DecidableEq, Repr

/-- A `night_list_t`: the first part, which may be empty, and the further ones, which
`night_list_push` allocates for an element each. -/
structure NightList where
  part : List TableElt
  next : List {part : List TableElt // part ≠ []}

/-- The fields of `headers_out` that are read; of the headers that have a pointer of their
own it is known whether that is not `NULL`. -/
structure HeadersOut where
  status : ℤ
  statusLine : List Byte
  server : Bool
  date : Bool
  contentType : List Byte
  contentTypeLen : ℕ
  charset : List Byte
  contentLength : Bool
  contentLengthN : Int64
  lastModified : Bool
  lastModifiedTime : ℤ
  headers : NightList

/-- The fields of the request that are read or set; `main` says that it is its own main
request. -/
structure Request where
  headerSent : Bool
  main : Bool
  httpVersion : ℕ
  head : Bool
  headerOnly : Bool
  keepalive : Bool
  chunked : Bool
  headerSize : ℕ
  headersOut : HeadersOut

/-- `night_terminate || night_exiting`, and `night_cached_http_time` with its constant
length. -/
structure Process where
  closing : Bool
  cachedHttpTime : List Byte
  cachedLength : cachedHttpTime.length = 29

def crlf : List Byte := [CR, LF]

/-! ## Before the header -/

def nightHttpStatusLines : List (List Byte) :=
  [literal "200 OK", literal "201 Created", literal "202 Accepted", [],
    literal "204 No Content", [], literal "206 Partial Content"]

/-- What `status_line` points to; for a status without a line it is not initialised. -/
def statusText (h : HeadersOut) : Option (List Byte) :=
  if h.statusLine.length ≠ 0 then some h.statusLine
  else if 200 ≤ h.status ∧ h.status < 207 then nightHttpStatusLines[(h.status - 200).toNat]?
  else none

/-- The time of the last change is sent with three statuses only. -/
def checkLastModified (h : HeadersOut) : HeadersOut :=
  if h.lastModifiedTime ≠ -1 then
    if h.status ≠ 200 ∧ h.status ≠ 206 ∧ h.status ≠ 304 then
      { h with lastModifiedTime := -1, lastModified := false }
    else h
  else h

/-- The fields that a status of 204 resets. -/
def clearNoContent (h : HeadersOut) : HeadersOut :=
  { h with
    contentType := []
    lastModifiedTime := -1
    lastModified := false
    contentLength := false
    contentLengthN := -1 }

/-- A status of 204 without a status line of its own. -/
def noContent (h : HeadersOut) : Bool :=
  h.statusLine.length = 0 && h.status = 204

def prepareHeaders (h : HeadersOut) : HeadersOut :=
  let h := checkLastModified h
  if noContent h then clearNoContent h else h

/-- What is set in the request before the length is computed: `header_only` by the method and
by the status, `keepalive` by a worker that is about to exit, and the headers. -/
def prepare (process : Process) (r : Request) : Request :=
  { r with
    headerOnly := r.headerOnly || r.head || noContent r.headersOut
    keepalive := r.keepalive && !process.closing
    headersOut := prepareHeaders r.headersOut }

/-! ## The loop over the headers -/

/-- Both loops over `headers_out.headers`: at the end of a part comes the first element of
the next one. -/
def walk {α : Type*} (visit : α → TableElt → α) :
    α → List TableElt → List {part : List TableElt // part ≠ []} → α
  | state, part, [] => part.foldl visit state
  | state, part, next :: parts => walk visit (part.foldl visit state) next.val parts

def NightList.elements (list : NightList) : List TableElt :=
  list.part ++ (list.next.map Subtype.val).flatten

theorem walk_eq {α : Type*} (visit : α → TableElt → α) (state : α) (list : NightList) :
    walk visit state list.part list.next = list.elements.foldl visit state := by
  obtain ⟨part, next⟩ := list
  rw [NightList.elements]
  induction next generalizing state part with
  | nil => simp only [walk, List.map_nil, List.flatten_nil, List.append_nil]
  | cons first next ih =>
      rw [walk, ih, List.foldl_append, List.map_cons, List.flatten_cons, List.foldl_append,
        List.foldl_append]

/-! ## The length -/

def nightHttpServerString : List Byte := literal "Server: night" ++ crlf

def serverSize (h : HeadersOut) : ℕ :=
  if h.server then 0 else nightHttpServerString.length

def dateSize (h : HeadersOut) : ℕ :=
  if h.date then 0 else (literal "Date: Mon, 28 Sep 1970 06:00:00 GMT" ++ crlf).length

def contentTypeSize (h : HeadersOut) : ℕ :=
  if h.contentType.length ≠ 0 then
    (literal "Content-Type: ").length + h.contentType.length + 2 +
      if h.contentTypeLen = h.contentType.length ∧ h.charset.length ≠ 0 then
        (literal "; charset=").length + h.charset.length
      else 0
  else 0

/-- The condition of both passes for a length that no header has yet. -/
def SendsLength (h : HeadersOut) : Prop :=
  h.contentLength = false ∧ 0 ≤ h.contentLengthN.toInt

instance (h : HeadersOut) : Decidable (SendsLength h) :=
  inferInstanceAs (Decidable (_ ∧ _))

/-- The condition of both passes for a time of the last change that no header has yet. -/
def SendsLastModified (h : HeadersOut) : Prop :=
  h.lastModified = false ∧ h.lastModifiedTime ≠ -1

instance (h : HeadersOut) : Decidable (SendsLastModified h) :=
  inferInstanceAs (Decidable (_ ∧ _))

/-- `NIGHT_OFF_T_LEN`. -/
def offTLen : ℕ := (literal "-9223372036854775808").length

def contentLengthSize (h : HeadersOut) : ℕ :=
  if SendsLength h then
    (literal "Content-Length: ").length + offTLen + 2
  else 0

def lastModifiedSize (h : HeadersOut) : ℕ :=
  if SendsLastModified h then
    (literal "Last-Modified: Mon, 28 Sep 1970 06:00:00 GMT" ++ crlf).length
  else 0

def connectionSize (r : Request) : ℕ :=
  if r.headersOut.status = 101 then (literal "Connection: upgrade" ++ crlf).length
  else if r.keepalive then (literal "Connection: keep-alive" ++ crlf).length
  else (literal "Connection: close" ++ crlf).length

def addHeader (len : ℕ) (header : TableElt) : ℕ :=
  if header.hash = 0 then len
  else len + (header.key.length + (literal ": ").length + header.value.length + crlf.length)

/-- The `len` that is allocated. -/
def headerLength (text : List Byte) (r : Request) : ℕ :=
  let h := r.headersOut
  let len := (literal "HTTP/1.x ").length + crlf.length + crlf.length + text.length +
    serverSize h + dateSize h + contentTypeSize h + contentLengthSize h + lastModifiedSize h +
    connectionSize r
  walk addHeader len h.headers.part h.headers.next

/-! ## The bytes -/

def serverHeader (h : HeadersOut) : List Byte :=
  if h.server then [] else nightHttpServerString

def dateHeader (process : Process) (h : HeadersOut) : List Byte :=
  if h.date then [] else literal "Date: " ++ process.cachedHttpTime ++ crlf

/-- The value of the content type with the charset that is appended. -/
def contentTypeValue (h : HeadersOut) : List Byte :=
  if h.contentTypeLen = h.contentType.length ∧ h.charset.length ≠ 0 then
    h.contentType ++ literal "; charset=" ++ h.charset
  else h.contentType

def contentTypeHeader (h : HeadersOut) : List Byte :=
  if h.contentType.length ≠ 0 then literal "Content-Type: " ++ contentTypeValue h ++ crlf else []

def contentLengthHeader (h : HeadersOut) : List Byte :=
  if SendsLength h then
    literal "Content-Length: " ++ decimal h.contentLengthN.toInt ++ crlf
  else []

def lastModifiedHeader (h : HeadersOut) : Option (List Byte) :=
  if SendsLastModified h then do
    let time ← nightHttpTime h.lastModifiedTime
    some (literal "Last-Modified: " ++ time ++ crlf)
  else some []

def chunkedHeader (r : Request) : List Byte :=
  if r.chunked then literal "Transfer-Encoding: chunked" ++ crlf else []

def connectionHeader (r : Request) : List Byte :=
  if r.headersOut.status = 101 then literal "Connection: upgrade" ++ crlf
  else if r.keepalive then literal "Connection: keep-alive" ++ crlf
  else literal "Connection: close" ++ crlf

def writeHeader (out : List Byte) (header : TableElt) : List Byte :=
  if header.hash = 0 then out
  else out ++ (header.key ++ literal ": " ++ header.value ++ crlf)

/-- The bytes that are written from the status line on. -/
def headerBytes (process : Process) (text : List Byte) (r : Request) : Option (List Byte) := do
  let h := r.headersOut
  let lastModified ← lastModifiedHeader h
  let out := literal "HTTP/1.1 " ++ text ++ crlf ++ serverHeader h ++ dateHeader process h ++
    contentTypeHeader h ++ contentLengthHeader h ++ lastModified ++ chunkedHeader r ++
    connectionHeader r
  some (walk writeHeader out h.headers.part h.headers.next ++ crlf)

/-- The buffer: the length that was allocated and the bytes that are written. -/
structure Buf where
  size : ℕ
  bytes : List Byte
  lastBuf : Bool
  deriving DecidableEq, Repr

/-- A return without a header, one of `NIGHT_ERROR`, or a buffer for the write filter. -/
inductive Filtered where
  | ok
  | error
  | sent (b : Buf)
  deriving DecidableEq, Repr

/-- `night_http_header_filter`; `served` says whether the pool has memory for the buffer.
There is no result when it reads the pointer that is not initialised, or when
`night_http_time` has none. -/
def nightHttpHeaderFilter (process : Process) (r : Request) (served : Bool) :
    Option (Filtered × Request) :=
  if r.headerSent then some (.ok, r)
  else
    let r := { r with headerSent := true }
    if !r.main then some (.ok, r)
    else if r.httpVersion < 1000 then some (.ok, r)
    else do
      let r := prepare process r
      let text ← statusText r.headersOut
      if !served then some (.error, r)
      else do
        let bytes ← headerBytes process text r
        let contentType :=
          if r.headersOut.contentType.length ≠ 0 then contentTypeValue r.headersOut
          else r.headersOut.contentType
        some (.sent ⟨headerLength text r, bytes, r.headerOnly⟩,
          { r with
            headerSize := bytes.length
            headersOut := { r.headersOut with contentType := contentType } })

/-! ## The message -/

/-- A header line. -/
structure Line where
  key : List Byte
  value : List Byte
  deriving DecidableEq, Repr

def Line.wire (line : Line) : List Byte := line.key ++ literal ": " ++ line.value ++ crlf

def wires (lines : List Line) : List Byte := (lines.map Line.wire).flatten

def serverLines (h : HeadersOut) : List Line :=
  if h.server then [] else [⟨literal "Server", literal "night"⟩]

def dateLines (process : Process) (h : HeadersOut) : List Line :=
  if h.date then [] else [⟨literal "Date", process.cachedHttpTime⟩]

def contentTypeLines (h : HeadersOut) : List Line :=
  if h.contentType = [] then [] else [⟨literal "Content-Type", contentTypeValue h⟩]

def contentLengthLines (h : HeadersOut) : List Line :=
  if SendsLength h then [⟨literal "Content-Length", decimal h.contentLengthN.toInt⟩] else []

def lastModifiedLines (h : HeadersOut) : List Line :=
  if SendsLastModified h then
    (nightHttpTime h.lastModifiedTime).toList.map fun time => ⟨literal "Last-Modified", time⟩
  else []

def chunkedLines (r : Request) : List Line :=
  if r.chunked then [⟨literal "Transfer-Encoding", literal "chunked"⟩] else []

def connectionLines (r : Request) : List Line :=
  [⟨literal "Connection",
    if r.headersOut.status = 101 then literal "upgrade"
    else if r.keepalive then literal "keep-alive"
    else literal "close"⟩]

/-- The headers of the list that are not marked as deleted. -/
def listLines (list : NightList) : List Line :=
  (list.elements.filter fun header => header.hash ≠ 0).map fun header =>
    ⟨header.key, header.value⟩

/-- All header lines of a request, in their order. -/
def headerLines (process : Process) (r : Request) : List Line :=
  let h := r.headersOut
  serverLines h ++ dateLines process h ++ contentTypeLines h ++ contentLengthLines h ++
    lastModifiedLines h ++ chunkedLines r ++ connectionLines r ++ listLines h.headers

/-- A status line, header lines and an empty line, each with its line end. -/
def message (text : List Byte) (lines : List Line) : List Byte :=
  literal "HTTP/1.1 " ++ text ++ crlf ++ wires lines ++ crlf

theorem wires_append (lines lines' : List Line) :
    wires (lines ++ lines') = wires lines ++ wires lines' := by
  rw [wires, List.map_append, List.flatten_append]
  rfl

theorem wires_singleton (line : Line) : wires [line] = line.wire := by
  rw [wires, List.map_singleton, List.flatten_singleton]

theorem wires_nil : wires [] = [] := rfl

theorem serverHeader_eq (h : HeadersOut) : serverHeader h = wires (serverLines h) := by
  rw [serverHeader, serverLines]
  split
  · rfl
  · rfl

theorem dateHeader_eq (process : Process) (h : HeadersOut) :
    dateHeader process h = wires (dateLines process h) := by
  rw [dateHeader, dateLines]
  split
  · rfl
  · rw [wires_singleton]
    rfl

theorem contentTypeHeader_eq (h : HeadersOut) :
    contentTypeHeader h = wires (contentTypeLines h) := by
  rw [contentTypeHeader, contentTypeLines]
  by_cases hempty : h.contentType = []
  · rw [if_neg (by simp [hempty]), if_pos hempty, wires_nil]
  · rw [if_pos (by simpa using hempty), if_neg hempty, wires_singleton]
    rfl

theorem contentLengthHeader_eq (h : HeadersOut) :
    contentLengthHeader h = wires (contentLengthLines h) := by
  rw [contentLengthHeader, contentLengthLines]
  by_cases hsends : SendsLength h
  · rw [if_pos hsends, if_pos hsends, wires_singleton]
    rfl
  · rw [if_neg hsends, if_neg hsends, wires_nil]

theorem lastModifiedHeader_eq {h : HeadersOut} {bytes : List Byte}
    (hbytes : lastModifiedHeader h = some bytes) : bytes = wires (lastModifiedLines h) := by
  rw [lastModifiedHeader] at hbytes
  rw [lastModifiedLines]
  by_cases hsends : SendsLastModified h
  · rw [if_pos hsends] at hbytes
    obtain ⟨time, htime, heq⟩ := Option.bind_eq_some_iff.mp hbytes
    rw [if_pos hsends, htime, ← Option.some.inj heq, Option.toList_some, List.map_singleton,
      wires_singleton]
    rfl
  · rw [if_neg hsends] at hbytes
    rw [if_neg hsends, ← Option.some.inj hbytes, wires_nil]

theorem chunkedHeader_eq (r : Request) : chunkedHeader r = wires (chunkedLines r) := by
  rw [chunkedHeader, chunkedLines]
  split
  · rfl
  · rfl

theorem connectionHeader_eq (r : Request) : connectionHeader r = wires (connectionLines r) := by
  rw [connectionHeader, connectionLines, wires_singleton]
  split
  · rfl
  split
  · rfl
  · rfl

/-- The second loop appends the lines of the headers. -/
theorem foldl_writeHeader (elements : List TableElt) (out : List Byte) :
    elements.foldl writeHeader out =
      out ++ wires ((elements.filter fun header => header.hash ≠ 0).map fun header =>
        ⟨header.key, header.value⟩) := by
  induction elements generalizing out with
  | nil => rw [List.foldl_nil, List.filter_nil, List.map_nil, wires_nil, List.append_nil]
  | cons header elements ih =>
      rw [List.foldl_cons, ih, writeHeader]
      by_cases hdeleted : header.hash = 0
      · rw [if_pos hdeleted, List.filter_cons_of_neg (by simp [hdeleted])]
      · rw [if_neg hdeleted, List.filter_cons_of_pos (by simp [hdeleted]), List.map_cons,
          List.append_assoc, ← List.singleton_append, wires_append, wires_singleton]
        rfl

theorem headerBytes_eq {process : Process} {text bytes : List Byte} {r : Request}
    (hbytes : headerBytes process text r = some bytes) :
    bytes = message text (headerLines process r) := by
  obtain ⟨lastModified, hlast, heq⟩ := Option.bind_eq_some_iff.mp hbytes
  rw [← Option.some.inj heq, walk_eq, foldl_writeHeader, lastModifiedHeader_eq hlast,
    serverHeader_eq, dateHeader_eq, contentTypeHeader_eq, contentLengthHeader_eq, chunkedHeader_eq,
    connectionHeader_eq, message, headerLines]
  simp only [wires_append, List.append_assoc]
  rfl

/-! ## Both passes -/

/-- The digits that are counted for the length and not written. -/
def unusedDigits (h : HeadersOut) : ℕ :=
  if SendsLength h then offTLen - (decimal h.contentLengthN.toInt).length else 0

theorem length_serverHeader (h : HeadersOut) : (serverHeader h).length = serverSize h := by
  rw [serverHeader, serverSize]
  split
  · rfl
  · rfl

theorem length_dateHeader (process : Process) (h : HeadersOut) :
    (dateHeader process h).length = dateSize h := by
  rw [dateHeader, dateSize]
  split
  · rfl
  · rw [List.length_append, List.length_append, process.cachedLength]
    rfl

theorem length_contentTypeHeader (h : HeadersOut) :
    (contentTypeHeader h).length = contentTypeSize h := by
  rw [contentTypeHeader, contentTypeSize, contentTypeValue]
  have hcrlf : crlf.length = 2 := rfl
  split
  · split
    · simp only [List.length_append, hcrlf]
      omega
    · simp only [List.length_append, hcrlf, Nat.add_zero]
  · rfl

/-- A length has at most nineteen digits, one less than is counted. -/
theorem length_decimal_lt (n : Int64) (hn : 0 ≤ n.toInt) : (decimal n.toInt).length < offTLen := by
  have hlt : n.toInt < 2 ^ 63 := n.toInt_lt
  have hle := length_decimal_le (show 0 < 19 by decide) hn (by omega)
  have hoff : offTLen = 20 := rfl
  omega

theorem length_contentLengthHeader (h : HeadersOut) :
    (contentLengthHeader h).length + unusedDigits h = contentLengthSize h := by
  rw [contentLengthHeader, unusedDigits, contentLengthSize]
  by_cases hsends : SendsLength h
  · have hdigits := length_decimal_lt h.contentLengthN hsends.2
    have hcrlf : crlf.length = 2 := rfl
    rw [if_pos hsends, if_pos hsends, if_pos hsends]
    simp only [List.length_append, hcrlf]
    omega
  · rw [if_neg hsends, if_neg hsends, if_neg hsends]
    rfl

theorem length_connectionHeader (r : Request) :
    (connectionHeader r).length = connectionSize r := by
  rw [connectionHeader, connectionSize]
  split
  · rfl
  split
  · rfl
  · rfl

/-- What the first loop adds does not depend on the length before it. -/
theorem foldl_addHeader (elements : List TableElt) (len : ℕ) :
    elements.foldl addHeader len = len + elements.foldl addHeader 0 := by
  induction elements generalizing len with
  | nil => rfl
  | cons header elements ih =>
      rw [List.foldl_cons, List.foldl_cons, ih, ih (addHeader 0 header), addHeader, addHeader]
      split
      · rw [Nat.zero_add]
      · omega

/-- The first loop counts what the second one writes. -/
theorem length_foldl_writeHeader (elements : List TableElt) (out : List Byte) :
    (elements.foldl writeHeader out).length = elements.foldl addHeader out.length := by
  induction elements generalizing out with
  | nil => rfl
  | cons header elements ih =>
      rw [List.foldl_cons, List.foldl_cons, ih, writeHeader, addHeader]
      by_cases hdeleted : header.hash = 0
      · rw [if_pos hdeleted, if_pos hdeleted]
      · rw [if_neg hdeleted, if_neg hdeleted]
        simp only [List.length_append]

/-- The two passes differ in the digits of the length, the date and the coding. -/
theorem length_headerBytes {process : Process} {text bytes lastModified : List Byte} {r : Request}
    (hlast : lastModifiedHeader r.headersOut = some lastModified)
    (hbytes : headerBytes process text r = some bytes) :
    bytes.length + unusedDigits r.headersOut + lastModifiedSize r.headersOut =
      headerLength text r + lastModified.length + (chunkedHeader r).length := by
  obtain ⟨lastModified', hlast', heq⟩ := Option.bind_eq_some_iff.mp hbytes
  rw [hlast] at hlast'
  obtain rfl := Option.some.inj hlast'
  have hwritten : (literal "HTTP/1.1 ").length = 9 := rfl
  have hcounted : (literal "HTTP/1.x ").length = 9 := rfl
  have hcrlf : crlf.length = 2 := rfl
  have hdigits := length_contentLengthHeader r.headersOut
  rw [← Option.some.inj heq, headerLength, walk_eq, walk_eq, List.length_append,
    length_foldl_writeHeader, foldl_addHeader, foldl_addHeader _ (_ + _)]
  simp only [List.length_append, hwritten, hcounted, hcrlf, length_serverHeader, length_dateHeader,
    length_contentTypeHeader, length_connectionHeader]
  omega

/-- The bytes of the date and of the coding that are not counted are no more than the digits
that are counted and not written. -/
def Fits (r : Request) : Prop :=
  let coding := if r.chunked then 28 else 0
  if SendsLastModified r.headersOut then
    ∃ time, nightHttpTime r.headersOut.lastModifiedTime = some time ∧
      time.length + coding ≤ 29 + unusedDigits r.headersOut
  else coding ≤ unusedDigits r.headersOut

theorem length_chunkedHeader (r : Request) :
    (chunkedHeader r).length = if r.chunked then 28 else 0 := by
  rw [chunkedHeader]
  split
  · rfl
  · rfl

/-- The header is written within its length just where the surplus fits. -/
theorem headerBytes_fits_iff (process : Process) (text : List Byte) (r : Request) :
    (∃ bytes, headerBytes process text r = some bytes ∧ bytes.length ≤ headerLength text r) ↔
      Fits r := by
  rw [Fits]
  by_cases hsends : SendsLastModified r.headersOut
  · have hsize : lastModifiedSize r.headersOut = 46 := if_pos hsends
    rw [if_pos hsends]
    cases htime : nightHttpTime r.headersOut.lastModifiedTime with
    | none =>
        have hnone : headerBytes process text r = none := by
          rw [headerBytes, lastModifiedHeader, if_pos hsends, htime]
          rfl
        rw [hnone]
        exact iff_of_false (fun ⟨_, heq, _⟩ => nomatch heq) fun ⟨_, heq, _⟩ => nomatch heq
    | some time =>
        have hlast : lastModifiedHeader r.headersOut =
            some (literal "Last-Modified: " ++ time ++ crlf) := by
          rw [lastModifiedHeader, if_pos hsends, htime]
          rfl
        obtain ⟨bytes, hbytes⟩ : ∃ bytes, headerBytes process text r = some bytes := by
          rw [headerBytes, hlast]
          exact ⟨_, rfl⟩
        have hlength := length_headerBytes hlast hbytes
        have hname : (literal "Last-Modified: ").length = 15 := rfl
        have hcrlf : crlf.length = 2 := rfl
        rw [hsize, length_chunkedHeader, List.length_append, List.length_append, hname,
          hcrlf] at hlength
        constructor
        · rintro ⟨bytes', hbytes', hle⟩
          obtain rfl := Option.some.inj (hbytes.symm.trans hbytes')
          exact ⟨time, rfl, by omega⟩
        · rintro ⟨time', htime', hle⟩
          obtain rfl := Option.some.inj htime'
          exact ⟨bytes, hbytes, by omega⟩
  · have hsize : lastModifiedSize r.headersOut = 0 := if_neg hsends
    have hlast : lastModifiedHeader r.headersOut = some [] := if_neg hsends
    obtain ⟨bytes, hbytes⟩ : ∃ bytes, headerBytes process text r = some bytes := by
      rw [headerBytes, hlast]
      exact ⟨_, rfl⟩
    have hlength := length_headerBytes hlast hbytes
    rw [if_neg hsends]
    rw [hsize, length_chunkedHeader, List.length_nil] at hlength
    constructor
    · rintro ⟨bytes', hbytes', hle⟩
      obtain rfl := Option.some.inj (hbytes.symm.trans hbytes')
      omega
    · intro hle
      exact ⟨bytes, hbytes, by omega⟩

/-- For every time that `night_http_time` can write the coding is what does not fit. -/
theorem fits_iff {r : Request} (htime : r.headersOut.lastModifiedTime < 2 ^ 31 * 86400) :
    Fits r ↔ r.chunked = false := by
  have hdigits : unusedDigits r.headersOut < 20 := by
    rw [unusedDigits]
    split
    · have hoff : offTLen = 20 := rfl
      have hpos : 0 < (decimal r.headersOut.contentLengthN.toInt).length := by
        rename_i hsends
        rw [length_decimal_of_nonneg hsends.2]
        exact Nat.length_toDigits_pos
      omega
    · decide
  obtain ⟨time, hsome, hlength⟩ := length_nightHttpTime htime
  rw [Fits, hsome]
  cases r.chunked with
  | false =>
      refine iff_of_true ?_ rfl
      split
      · exact ⟨time, rfl, by rw [hlength]; exact Nat.le_add_right _ _⟩
      · exact Nat.zero_le _
  | true =>
      refine iff_of_false ?_ (fun heq => nomatch heq)
      split
      · rintro ⟨time', heq, hle⟩
        obtain rfl := Option.some.inj heq
        rw [hlength, if_pos rfl] at hle
        omega
      · rw [if_pos rfl]
        omega

/-! ## The filter -/

/-- The requests that get no header from the filter. -/
def Skipped (r : Request) : Prop :=
  r.headerSent = true ∨ r.main = false ∨ r.httpVersion < 1000

/-- `status_line` is initialised. -/
def StatusLineSet (h : HeadersOut) : Prop :=
  h.statusLine ≠ [] ∨ 200 ≤ h.status ∧ h.status < 207

/-- There is a text for the status: the table has none for 203 and 205. -/
def StatusNamed (h : HeadersOut) : Prop :=
  h.statusLine ≠ [] ∨ h.status ≠ 203 ∧ h.status ≠ 205

theorem statusText_none {h : HeadersOut} (hset : ¬ StatusLineSet h) : statusText h = none := by
  rw [StatusLineSet, not_or, not_not] at hset
  rw [statusText, if_neg (by simp [hset.1]), if_neg hset.2]

theorem statusText_some {h : HeadersOut} (hset : StatusLineSet h) :
    ∃ text, statusText h = some text ∧ (text ≠ [] ↔ StatusNamed h) := by
  rw [statusText]
  by_cases hgiven : h.statusLine = []
  · have hrange : 200 ≤ h.status ∧ h.status < 207 := hset.resolve_left fun hne => hne hgiven
    have hcases : h.status = 200 ∨ h.status = 201 ∨ h.status = 202 ∨ h.status = 203 ∨
        h.status = 204 ∨ h.status = 205 ∨ h.status = 206 := by omega
    rw [StatusNamed, if_neg (by simp [hgiven]), if_pos hrange,
      or_iff_right (fun hne : h.statusLine ≠ [] => hne hgiven)]
    rcases hcases with heq | heq | heq | heq | heq | heq | heq
    all_goals
      rw [heq]
      exact ⟨_, rfl, by decide⟩
  · rw [if_pos (by simpa using hgiven)]
    exact ⟨h.statusLine, rfl, iff_of_true hgiven (Or.inl hgiven)⟩

/-- What is written is within the length that was computed: the status line with a text for
the status, the header lines and an empty line.  An error is returned only when the pool has
no memory. -/
def Sound (process : Process) (r : Request) (served : Bool) : Option (Filtered × Request) → Prop
  | none => False
  | some (.ok, _) => Skipped r
  | some (.error, _) => served = false
  | some (.sent b, _) =>
      b.bytes.length ≤ b.size ∧
        ∃ text, text ≠ [] ∧ statusText (prepare process r).headersOut = some text ∧
          b.bytes = message text (headerLines process (prepare process r))

/-- The status and its line stay as they are. -/
theorem statusText_prepareHeaders (h : HeadersOut) :
    statusText (prepareHeaders h) = statusText h := by
  have hlast : statusText (checkLastModified h) = statusText h := by
    rw [checkLastModified]
    split
    · split
      · rfl
      · rfl
    · rfl
  rw [prepareHeaders]
  split
  · exact hlast
  · exact hlast

theorem nightHttpHeaderFilter_skipped {process : Process} {r : Request} (served : Bool)
    (hskipped : Skipped r) : ∃ r', nightHttpHeaderFilter process r served = some (.ok, r') := by
  rw [nightHttpHeaderFilter]
  by_cases hsent : r.headerSent = true
  · rw [if_pos hsent]
    exact ⟨_, rfl⟩
  rw [if_neg hsent]
  by_cases hmain : r.main = false
  · dsimp only
    rw [hmain]
    exact ⟨_, rfl⟩
  have hold : r.httpVersion < 1000 := (hskipped.resolve_left hsent).resolve_left hmain
  dsimp only
  rw [Bool.not_eq_false] at hmain
  rw [hmain, if_pos hold]
  exact ⟨_, rfl⟩

/-- A header is sent just when the status line is initialised, the pool has the memory and
`night_http_time` writes a date. -/
theorem nightHttpHeaderFilter_eq (process : Process) {r : Request} (served : Bool)
    (hskipped : ¬ Skipped r) :
    nightHttpHeaderFilter process r served =
      (statusText r.headersOut).bind fun text =>
        let prepared := { prepare process r with headerSent := true }
        if !served then some (.error, prepared)
        else (headerBytes process text prepared).bind fun bytes =>
          let h := prepared.headersOut
          some (.sent ⟨headerLength text prepared, bytes, prepared.headerOnly⟩,
            { prepared with
              headerSize := bytes.length
              headersOut := { h with
                contentType :=
                  if h.contentType.length ≠ 0 then contentTypeValue h else h.contentType } }) := by
  have hparts : ¬ r.headerSent = true ∧ ¬ r.main = false ∧ ¬ r.httpVersion < 1000 :=
    ⟨fun hsent => hskipped (Or.inl hsent), fun hmain => hskipped (Or.inr (Or.inl hmain)),
      fun hold => hskipped (Or.inr (Or.inr hold))⟩
  obtain ⟨hsent, hmain, hold⟩ := hparts
  have hmain' : ¬ (!r.main) = true := by simpa using hmain
  rw [nightHttpHeaderFilter, if_neg hsent]
  dsimp only
  rw [if_neg hmain', if_neg hold, ← statusText_prepareHeaders r.headersOut]
  rfl

/-- The header is sound but for a status without a text, a date that `night_http_time` does not
write in its width, and the coding, which is not counted. -/
theorem nightHttpHeaderFilter_sound_iff (process : Process) (r : Request) (served : Bool) :
    Sound process r served (nightHttpHeaderFilter process r served) ↔
      Skipped r ∨ StatusLineSet r.headersOut ∧
        (served = false ∨ StatusNamed r.headersOut ∧ Fits (prepare process r)) := by
  by_cases hskipped : Skipped r
  · obtain ⟨r', heq⟩ := nightHttpHeaderFilter_skipped served hskipped
    rw [heq]
    exact iff_of_true hskipped (Or.inl hskipped)
  rw [nightHttpHeaderFilter_eq process served hskipped, or_iff_right hskipped]
  by_cases hset : StatusLineSet r.headersOut
  · obtain ⟨text, htext, hnamed⟩ := statusText_some hset
    rw [htext, and_iff_right hset, Option.bind_some]
    cases served with
    | false => exact iff_of_true rfl (Or.inl rfl)
    | true =>
        rw [or_iff_right (fun heq : true = false => nomatch heq), ← hnamed,
          ← headerBytes_fits_iff process text]
        have hprepared : headerBytes process text { prepare process r with headerSent := true } =
            headerBytes process text (prepare process r) := rfl
        dsimp only
        rw [hprepared, if_neg (by decide)]
        cases hbytes : headerBytes process text (prepare process r) with
        | none =>
            exact iff_of_false id fun ⟨_, _, heq, _⟩ => nomatch heq
        | some bytes =>
            constructor
            · rintro ⟨hle, text', hne, htext', -⟩
              obtain rfl : text' = text := by
                have hsame := (statusText_prepareHeaders r.headersOut).symm.trans htext'
                exact Option.some.inj (hsame.symm.trans htext)
              exact ⟨hne, bytes, rfl, hle⟩
            · rintro ⟨hne, bytes', heq, hle⟩
              obtain rfl := Option.some.inj heq
              refine ⟨hle, text, hne, ?_, headerBytes_eq hbytes⟩
              exact (statusText_prepareHeaders r.headersOut).trans htext
  · rw [statusText_none hset]
    exact iff_of_false id fun hboth => hset hboth.1

/-- A chunked response to a request over HTTP/1.1, without other headers. -/
def chunkedRequest : Request where
  headerSent := false
  main := true
  httpVersion := 1001
  head := false
  headerOnly := false
  keepalive := true
  chunked := true
  headerSize := 0
  headersOut := {
    status := 200
    statusLine := []
    server := false
    date := false
    contentType := []
    contentTypeLen := 0
    charset := []
    contentLength := false
    contentLengthN := -1
    lastModified := false
    lastModifiedTime := -1
    headers := ⟨[], []⟩ }

/-- Its header is longer than what was computed. -/
theorem not_sound_chunked :
    ¬ ∀ (process : Process) (r : Request) (served : Bool),
      Sound process r served (nightHttpHeaderFilter process r served) := by
  intro hall
  have hsound := hall ⟨false, List.replicate 29 0, rfl⟩ chunkedRequest true
  obtain ⟨b, r', hsent, hlong⟩ : ∃ b r',
      nightHttpHeaderFilter ⟨false, List.replicate 29 0, rfl⟩ chunkedRequest true =
        some (.sent b, r') ∧ b.size < b.bytes.length := ⟨_, _, rfl, by decide⟩
  rw [hsent] at hsound
  exact Nat.not_le_of_lt hlong hsound.1

end Night.HeaderFilter
