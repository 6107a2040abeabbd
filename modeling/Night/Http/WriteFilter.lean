import Night.Core.Bytes
import Night.Lib.Chains

/-!
# `night_http_write_filter`

The filter appends the links of its input to `r->out`, hands the chain to the
connection and frees the links that were sent.  Links and buffers live in a heap:
a freed link keeps its `next` in the free list of the pool, and a link that is taken
from there comes with it.
-/

namespace Night.WriteFilter

open Night.Bytes
open Night.Chains

/-! ## Heap -/

/-- A `night_buf_t`: `bytes` are those from `pos` to `last`, or from `file_pos` to
`file_last` when the buffer is `in_file`. -/
structure Buf where
  bytes : List Byte
  inFile : Bool
  flush : Bool
  recycled : Bool
  sync : Bool
  lastBuf : Bool
  deriving DecidableEq, Repr

/-- The macro `night_buf_size`. -/
def nightBufSize (b : Buf) : ℕ := b.bytes.length

/-- `pos += count`, or `file_pos += count` for a file buffer. -/
def Buf.advance (count : ℕ) (b : Buf) : Buf := { b with bytes := b.bytes.drop count }

/-- The heap, the pool, the request and its connection.  Addresses are numbers:
`next` and `linkBuf` are the two fields of the links, `links` and `bufs` count the
allocated ones.  `wire` is what the connection has acknowledged as sent. -/
structure State where
  next : ℕ → Option ℕ
  linkBuf : ℕ → ℕ
  buf : ℕ → Buf
  links : ℕ
  bufs : ℕ
  poolChain : Option ℕ
  out : Option ℕ
  error : Bool
  sent : ℕ
  wire : List Byte

/-- A zeroed link from the pool's memory. -/
def newLink (s : State) : ℕ × State :=
  (s.links, { s with
    next := Function.update s.next s.links none
    links := s.links + 1 })

/-- `night_pmalloc_chain_link`: the first link of the free list as it is, or new
memory. -/
def nightPmallocChainLink (s : State) : ℕ × State :=
  match s.poolChain with
  | some cl => (cl, { s with poolChain := s.next cl })
  | none => newLink s

/-- The macro `night_free_chain`. -/
def nightFreeChain (cl : ℕ) (s : State) : State :=
  { s with next := Function.update s.next cl s.poolChain, poolChain := some cl }

/-- `night_chain_update_sent`; the result is `none` when the loop does not end within
`fuel` links. -/
def nightChainUpdateSent : ℕ → State → Option ℕ → ℕ → Option (State × Option ℕ)
  | _, s, none, _ => some (s, none)
  | 0, _, some _, _ => none
  | fuel + 1, s, some cl, sent =>
      if sent = 0 then some (s, some cl)
      else
        let size := nightBufSize (s.buf (s.linkBuf cl))
        if sent ≥ size then
          let s := { s with
            buf := Function.update s.buf (s.linkBuf cl)
              ((s.buf (s.linkBuf cl)).advance size) }
          nightChainUpdateSent fuel s (s.next cl) (sent - size)
        else
          some ({ s with
            buf := Function.update s.buf (s.linkBuf cl)
              ((s.buf (s.linkBuf cl)).advance sent) }, some cl)

/-! ## The filter -/

/-- Where `ll` points to: `r->out` or the `next` of a link. -/
inductive Slot where
  | out
  | next (cl : ℕ)
  deriving DecidableEq, Repr

/-- `*ll = value`. -/
def store (ll : Slot) (value : Option ℕ) (s : State) : State :=
  match ll with
  | .out => { s with out := value }
  | .next cl => { s with next := Function.update s.next cl value }

/-- The locals that both loops over links update. -/
structure Locals where
  ll : Slot
  size : ℕ
  flush : Bool
  sync : Bool
  last : Bool
  deriving DecidableEq, Repr

/-- The rest of the loop body once the size of the buffer of `cl` is known to be
positive. -/
def Locals.add (cl : ℕ) (b : Buf) (locals : Locals) : Locals where
  ll := .next cl
  size := locals.size + nightBufSize b
  flush := locals.flush || b.flush || b.recycled
  sync := locals.sync || b.sync
  last := locals.last || b.lastBuf

/-- A loop of the filter ends normally or with `return NIGHT_ERROR`. -/
inductive LoopEnd where
  | done (s : State) (locals : Locals)
  | failed (s : State)

/-- The loop over `r->out`. -/
def scanOut : ℕ → State → Option ℕ → Locals → Option LoopEnd
  | _, s, none, locals => some (.done s locals)
  | 0, _, some _, _ => none
  | fuel + 1, s, some cl, locals =>
      let b := s.buf (s.linkBuf cl)
      if nightBufSize b ≤ 0 then some (.failed s)
      else scanOut fuel s (s.next cl) (locals.add cl b)

/-- `cl = night_pmalloc_chain_link(r->pool); cl->buf = ln->buf; *ll = cl;` -/
def appendLink (ll : Slot) (ln : ℕ) (s : State) : ℕ × State :=
  let allocated := nightPmallocChainLink s
  let cl := allocated.1
  let s := allocated.2
  let s := { s with linkBuf := Function.update s.linkBuf cl (s.linkBuf ln) }
  (cl, store ll (some cl) s)

/-- The loop over the input chain. -/
def appendIn : ℕ → State → Option ℕ → Locals → Option LoopEnd
  | _, s, none, locals => some (.done s locals)
  | 0, _, some _, _ => none
  | fuel + 1, s, some ln, locals =>
      let appended := appendLink locals.ll ln s
      let cl := appended.1
      let s := appended.2
      let b := s.buf (s.linkBuf cl)
      if nightBufSize b ≤ 0 then some (.failed s)
      else appendIn fuel s (s.next ln) (locals.add cl b)

/-- The loop that frees the links in front of `chain`. -/
def freeSent : ℕ → State → Option ℕ → Option ℕ → Option State
  | _, s, none, _ => some s
  | 0, _, some _, _ => none
  | fuel + 1, s, some cl, chain =>
      if some cl = chain then some s
      else freeSent fuel (nightFreeChain cl s) (s.next cl) chain

/-- What the connection does when it is asked to send: it fails, or it takes up to
`count` bytes. -/
inductive SendResult where
  | fails
  | takes (count : ℕ)
  deriving DecidableEq, Repr

/-- The bytes of the buffers of the links. -/
def bytesOf (s : State) (links : List ℕ) : List Byte :=
  links.flatMap fun cl => (s.buf (s.linkBuf cl)).bytes

/-- `c->send_chain(c, in, limit)`: the bytes that are taken are acknowledged and the
chain is updated with `night_chain_update_sent`. -/
def sendChain (s : State) (head : Option ℕ) (limit count : ℕ) :
    Option (State × Option ℕ) := do
  let links ← walk s.next s.links head
  let bytes := bytesOf s links
  let n := min count (min limit bytes.length)
  nightChainUpdateSent s.links
    { s with sent := s.sent + n, wire := s.wire ++ bytes.take n } head n

inductive Code where
  | ok
  | again
  | error
  deriving DecidableEq, Repr

def postponeOutput : ℕ := 1460

def sendLimit : ℕ := 2097152

/-- The filter from the test for postponed output on. -/
def sendOut (s : State) (locals : Locals) (head : Option ℕ) (send : SendResult) :
    Option (Code × State) :=
  if !locals.last && !locals.flush && head.isSome && locals.size < postponeOutput then
    some (.ok, s)
  else
    match send with
    | .fails => some (.error, { s with error := true })
    | .takes count => do
        let sent ← sendChain s s.out sendLimit count
        let s ← freeSent sent.1.links sent.1 sent.1.out sent.2
        let s := { s with out := sent.2 }
        some (if sent.2.isSome then .again else .ok, s)

/-- `night_http_write_filter`; the result is `none` when a loop does not end. -/
def nightHttpWriteFilter (s : State) (head : Option ℕ) (send : SendResult) :
    Option (Code × State) :=
  if s.error then some (.error, s)
  else do
    match ← scanOut s.links s s.out ⟨.out, 0, false, false, false⟩ with
    | .failed s => some (.error, s)
    | .done s locals =>
        match ← appendIn s.links s head locals with
        | .failed s => some (.error, s)
        | .done s locals => sendOut (store locals.ll none s) locals head send

/-! ## Calls -/

/-- A buffer that callers may hand in: an empty one carries a flag. -/
structure InputBuf extends Buf where
  special : bytes = [] → lastBuf ∨ flush ∨ sync

/-- A call: the buffers of the input chain, whether the caller takes its links from
the pool or from elsewhere, and how much the connection will take. -/
structure Call where
  input : List InputBuf
  pooled : Bool
  count : ℕ

def Call.bytes (call : Call) : List Byte := call.input.flatMap fun b => b.bytes

/-- The caller builds its chain. -/
def buildChain (pooled : Bool) : List InputBuf → State → Option ℕ × State
  | [], s => (none, s)
  | b :: input, s =>
      let allocated := if pooled then nightPmallocChainLink s else newLink s
      let cl := allocated.1
      let s := allocated.2
      let s := { s with
        linkBuf := Function.update s.linkBuf cl s.bufs
        buf := Function.update s.buf s.bufs b.toBuf
        bufs := s.bufs + 1 }
      let rest := buildChain pooled input s
      (some cl, { rest.2 with next := Function.update rest.2.next cl rest.1 })

def runCall (s : State) (call : Call) : Option (Code × State) :=
  let built := buildChain call.pooled call.input s
  nightHttpWriteFilter built.2 built.1 (.takes call.count)

/-- A request without output and a pool without free links. -/
def freshState : State where
  next := fun _ => none
  linkBuf := fun _ => 0
  buf := fun _ => ⟨[], false, false, false, false, false⟩
  links := 0
  bufs := 0
  poolChain := none
  out := none
  error := false
  sent := 0
  wire := []

/-- The bytes that are still in `r->out`. -/
def pendingBytes (s : State) : Option (List Byte) :=
  (walk s.next s.links s.out).map (bytesOf s)

/-- The law of the filter over a sequence of calls that follow the bytes `before`: no
call fails, and what was sent followed by what is pending is what was handed in. -/
def Lawful : List Byte → State → List Call → Prop
  | _, _, [] => True
  | before, s, call :: calls =>
      ∃ code s' pending, runCall s call = some (code, s') ∧ code ≠ .error ∧
        pendingBytes s' = some pending ∧ s'.wire ++ pending = before ++ call.bytes ∧
        Lawful (before ++ call.bytes) s' calls

end Night.WriteFilter
