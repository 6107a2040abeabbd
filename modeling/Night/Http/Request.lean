import Night.Core.Bytes

/-!
# The request record

The part of `night_http_request_t` that the request-line and header-line parsers
read and write, the buffer they scan, and the codes they return.  A pointer into
the buffer is an offset from the buffer's start, and `NULL` is `none`.
-/

namespace Night.HttpRequest

open Night.Bytes

/-- `night_http_request.h`: the method bits the parser sets. -/
def nightHttpUnknown : BitVec 32 := 0x00000001#32
def nightHttpGet : BitVec 32 := 0x00000002#32
def nightHttpPost : BitVec 32 := 0x00000008#32
def nightHttpPut : BitVec 32 := 0x00000010#32

def nightHttpVersion10 : ℕ := 1000

/-- `NIGHT_HTTP_LC_HEADER_LEN`. -/
def nightHttpLcHeaderLen : ℕ := 32

/-- The codes the two parsers return. -/
inductive ParseCode where
  | ok
  | again
  | error
  | headerDone
  | invalidMethod
  | invalidRequest
  | invalidVersion
  | invalid09Method
  | invalidHeader
  deriving DecidableEq, Repr

/-- The fields of a request that the parsers touch.  `httpMinor` and `httpMajor`
are the 16-bit fields of the source and `lowcaseHeader` its 32-byte array. -/
structure Request where
  state : ℕ
  method : BitVec 32
  httpVersion : ℕ
  requestStart : Option ℕ
  requestEnd : Option ℕ
  methodEnd : Option ℕ
  uriStart : Option ℕ
  uriEnd : Option ℕ
  httpProtocol : Option ℕ
  httpMinor : ℕ
  httpMajor : ℕ
  headerNameStart : ℕ
  headerNameEnd : ℕ
  headerStart : ℕ
  headerEnd : ℕ
  headerHash : BitVec 64
  lowcaseIndex : ℕ
  lowcaseHeader : List Byte
  invalidHeader : Bool
  deriving DecidableEq, Repr

/-- What `night_http_alloc_request` leaves in these fields: the record comes
zeroed from the pool and only the method and the version are set. -/
def freshRequest : Request where
  state := 0
  method := nightHttpUnknown
  httpVersion := nightHttpVersion10
  requestStart := none
  requestEnd := none
  methodEnd := none
  uriStart := none
  uriEnd := none
  httpProtocol := none
  httpMinor := 0
  httpMajor := 0
  headerNameStart := 0
  headerNameEnd := 0
  headerStart := 0
  headerEnd := 0
  headerHash := 0
  lowcaseIndex := 0
  lowcaseHeader := List.replicate nightHttpLcHeaderLen 0
  invalidHeader := false

/-- A `night_buf_t` that is being parsed: `data` are the bytes from `start` to
`last`, and `pos` is where the next call begins. -/
structure Buf where
  data : List Byte
  pos : ℕ
  deriving DecidableEq, Repr

namespace Buf

def last (b : Buf) : ℕ := b.data.length

/-- The bytes a call of a parser sees. -/
def unread (b : Buf) : List Byte := b.data.drop b.pos

/-- `recv` stores its bytes at `last`. -/
def receive (b : Buf) (chunk : List Byte) : Buf :=
  { b with data := b.data ++ chunk }

end Buf

end Night.HttpRequest
