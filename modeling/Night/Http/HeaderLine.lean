import Night.Http.Request
import Night.Lib.Scanner

/-!
# `night_http_parse_header_line`

The state machine of one header line.  The hash and the index into
`lowcase_header` are locals that the source leaves uninitialised, and a loop that
runs out of bytes falls through to the label `done`.
-/

namespace Night.HeaderLine

open Night.Bytes
open Night.HttpRequest
open Night.Scanner

/-- The local enumeration of the parser.  `other` stands for the remaining values
of the `int` that the state is kept in. -/
inductive State where
  | swStart
  | swName
  | swSpaceBeforeValue
  | swValue
  | swSpaceAfterValue
  | swAlmostDone
  | swHeaderAlmostDone
  | other (value : ℕ)
  deriving DecidableEq, Repr

/-- `state = r->state`. -/
def State.ofNat : ℕ → State
  | 0 => .swStart
  | 1 => .swName
  | 2 => .swSpaceBeforeValue
  | 3 => .swValue
  | 4 => .swSpaceAfterValue
  | 5 => .swAlmostDone
  | 6 => .swHeaderAlmostDone
  | value + 7 => .other value

/-- The value of `sw_start`. -/
def swStartValue : ℕ := 0

/-- The table `lowcase`: letters in lower case, digits and the hyphen. -/
def lowcaseTable : List Byte :=
  List.replicate 45 0 ++ [ascii '-', 0, 0] ++ "0123456789".toList.map ascii ++
    List.replicate 7 0 ++ "abcdefghijklmnopqrstuvwxyz".toList.map ascii ++
    List.replicate 6 0 ++ "abcdefghijklmnopqrstuvwxyz".toList.map ascii ++
    List.replicate 133 0

/-- An access to the table.  A byte above `0x7f` is a negative index; `below`
stands for what the program image holds in front of the table. -/
def lowcase (below : ℤ → Byte) (index : ℤ) : Byte :=
  if 0 ≤ index then lowcaseTable.getD index.toNat 0 else below index

/-- The macro `night_hash` on a `char`. -/
def nightHash (key : BitVec 64) (c : Byte) : BitVec 64 :=
  key * 31 + BitVec.signExtend 64 c

/-- The locals `hash` and `i`. -/
structure Locals where
  hash : BitVec 64
  i : ℕ
  deriving DecidableEq, Repr

/-- The byte `c` becomes the first of the lower-case name. -/
def startName (c : Byte) (r : Request) : Locals × Request :=
  (⟨nightHash 0 c, 1⟩, { r with lowcaseHeader := r.lowcaseHeader.set 0 c })

/-- The byte `c` is appended to the lower-case name. -/
def extendName (c : Byte) (locals : Locals) (r : Request) : Locals × Request :=
  (⟨nightHash locals.hash c, (locals.i + 1) % nightHttpLcHeaderLen⟩,
    { r with lowcaseHeader := r.lowcaseHeader.set locals.i c })

/-- How the loop is left: by `goto done` or `goto header_done` at `p`, or with
`NIGHT_HTTP_PARSE_INVALID_HEADER`. -/
inductive Exit where
  | done (p : ℕ) (locals : Locals) (r : Request)
  | headerDone (p : ℕ) (r : Request)
  | invalid (r : Request)
  deriving DecidableEq, Repr

abbrev Step := Verdict (State × Locals × Request) Exit

/-- One turn of the loop: the `switch (state)` on the byte at `p`. -/
def headerLineStep (below : ℤ → Byte) (p : ℕ) :
    State × Locals × Request → Byte → Step
  | (.swStart, locals, r), ch =>
      let r := { r with headerNameStart := p, invalidHeader := false }
      let c := lowcase below ch.toInt
      if ch = CR then .more (.swHeaderAlmostDone, locals, { r with headerEnd := p })
      else if ch = LF then .stop (.headerDone p { r with headerEnd := p })
      else if c ≠ 0 then .more (.swName, startName c r)
      else if ch = ascii '_' then .more (.swName, startName ch r)
      else if ch.toInt ≤ 0x20 ∨ ch = DEL ∨ ch = ascii ':' then
        .stop (.invalid { r with headerEnd := p })
      else .more (.swName, ⟨0, 0⟩, { r with invalidHeader := true })
  | (.swName, locals, r), ch =>
      let c := lowcase below ch.toInt
      if c ≠ 0 then .more (.swName, extendName c locals r)
      else if ch = ascii '_' then .more (.swName, extendName ch locals r)
      else if ch = ascii ':' then
        .more (.swSpaceBeforeValue, locals, { r with headerNameEnd := p })
      else if ch = CR then
        .more (.swAlmostDone, locals,
          { r with headerNameEnd := p, headerStart := p, headerEnd := p })
      else if ch = LF then
        .stop (.done p locals
          { r with headerNameEnd := p, headerStart := p, headerEnd := p })
      else .more (.swName, locals, r)
  | (.swSpaceBeforeValue, locals, r), ch =>
      if ch = SP then .more (.swSpaceBeforeValue, locals, r)
      else .more (.swValue, locals, { r with headerStart := p })
  | (.swValue, locals, r), ch =>
      if ch = SP then .more (.swSpaceAfterValue, locals, { r with headerEnd := p })
      else if ch = CR then .more (.swAlmostDone, locals, { r with headerEnd := p })
      else if ch = LF then .stop (.done p locals { r with headerEnd := p })
      else .more (.swValue, locals, r)
  | (.swSpaceAfterValue, locals, r), ch =>
      if ch = SP then .more (.swSpaceAfterValue, locals, r)
      else if ch = CR then .more (.swAlmostDone, locals, r)
      else if ch = LF then .stop (.done p locals r)
      else .more (.swValue, locals, r)
  | (.swAlmostDone, locals, r), ch =>
      if ch = LF then .stop (.done p locals r)
      else if ch = CR then .more (.swAlmostDone, locals, r)
      else .stop (.invalid r)
  | (.swHeaderAlmostDone, _, r), ch =>
      if ch = LF then .stop (.headerDone p r) else .stop (.invalid r)
  | (.other value, locals, r), _ => .more (.other value, locals, r)

/-- The code after the label `done`. -/
def finishHeaderLine (p : ℕ) (locals : Locals) (r : Request) (b : Buf) :
    ParseCode × Request × Buf :=
  (.ok, { r with
    state := swStartValue
    headerHash := locals.hash
    lowcaseIndex := locals.i }, { b with pos := p + 1 })

/-- `night_http_parse_header_line`; `locals` is what the two uninitialised locals
hold when the call begins.  When the loop runs out of bytes, `p` is at `b->last`
and the code after `done` follows. -/
def nightHttpParseHeaderLine (below : ℤ → Byte) (locals : Locals) (r : Request)
    (b : Buf) : ParseCode × Request × Buf :=
  match run (headerLineStep below) b.pos (State.ofNat r.state, locals, r) b.unread with
  | .more (_, locals, r) =>
      finishHeaderLine (b.pos + b.unread.length) locals r b
  | .stop (.done p locals r) _ => finishHeaderLine p locals r b
  | .stop (.headerDone p r) _ =>
      (.headerDone, { r with state := swStartValue }, { b with pos := p + 1 })
  | .stop (.invalid r) _ => (.invalidHeader, r, b)

end Night.HeaderLine
