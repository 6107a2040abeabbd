import Night.Http.Request
import Night.Lib.Scanner

/-!
# `night_http_parse_request_line`

The state machine of the request line as the source has it.  `sw_check_uri` is
entered but no `case` handles it, so the `default` branch answers for it, and
`sw_spaces_before_uri` skips every byte up to the first slash.
-/

namespace Night.RequestLine

open Night.Bytes
open Night.HttpRequest
open Night.Scanner

/-- The local enumeration of the parser.  `other` stands for the remaining values
of the `int` that the state is kept in. -/
inductive State where
  | swStart
  | swMethod
  | swSpacesBeforeUri
  | swAfterSlashInUri
  | swCheckUri
  | swHttp09
  | swHttpH
  | swHttpHT
  | swHttpHTT
  | swHttpHTTP
  | swFirstMajorDigit
  | swMajorDigit
  | swFirstMinorDigit
  | swMinorDigit
  | swAlmostDone
  | other (value : ℕ)
  deriving DecidableEq, Repr

/-- `state = r->state`. -/
def State.ofNat : ℕ → State
  | 0 => .swStart
  | 1 => .swMethod
  | 2 => .swSpacesBeforeUri
  | 3 => .swAfterSlashInUri
  | 4 => .swCheckUri
  | 5 => .swHttp09
  | 6 => .swHttpH
  | 7 => .swHttpHT
  | 8 => .swHttpHTT
  | 9 => .swHttpHTTP
  | 10 => .swFirstMajorDigit
  | 11 => .swMajorDigit
  | 12 => .swFirstMinorDigit
  | 13 => .swMinorDigit
  | 14 => .swAlmostDone
  | value + 15 => .other value

/-- `r->state = state`. -/
def State.toNat : State → ℕ
  | .swStart => 0
  | .swMethod => 1
  | .swSpacesBeforeUri => 2
  | .swAfterSlashInUri => 3
  | .swCheckUri => 4
  | .swHttp09 => 5
  | .swHttpH => 6
  | .swHttpHT => 7
  | .swHttpHTT => 8
  | .swHttpHTTP => 9
  | .swFirstMajorDigit => 10
  | .swMajorDigit => 11
  | .swFirstMinorDigit => 12
  | .swMinorDigit => 13
  | .swAlmostDone => 14
  | .other value => value + 15

@[simp]
theorem State.ofNat_toNat (state : State) : State.ofNat state.toNat = state := by
  cases state <;> rfl

@[simp]
theorem State.toNat_ofNat (value : ℕ) : (State.ofNat value).toNat = value := by
  rcases value with _ | _ | _ | _ | _ | _ | _ | _ | _ | _ | _ | _ | _ | _ | _ | value
    <;> rfl

/-- The table `http_uri_usual`. -/
def httpUriUsualTable : List (BitVec 32) :=
  [0x00000000#32, 0x7fff37d6#32, 0xffffffff#32, 0x7fffffff#32,
   0xffffffff#32, 0xffffffff#32, 0xffffffff#32, 0xffffffff#32]

/-- An access to the table.  A byte above `0x7f` is a negative `char`, and its
index is then one of the four words in front of the table; `below` stands for
what the program image holds there. -/
def httpUriUsual (below : ℤ → BitVec 32) (index : ℤ) : BitVec 32 :=
  if 0 ≤ index then httpUriUsualTable.getD index.toNat 0 else below index

/-- `http_uri_usual[ch >> 5] & (1U << (ch & 0x1f))`. -/
def isUsual (below : ℤ → BitVec 32) (ch : Byte) : Prop :=
  httpUriUsual below (ch.toInt >>> 5) &&& (1#32 <<< (ch.toNat &&& 0x1f)) ≠ 0

instance (below : ℤ → BitVec 32) (ch : Byte) : Decidable (isUsual below ch) :=
  inferInstanceAs (Decidable (_ ≠ _))

/-- `strncmp(m, word, strlen(word)) == 0` for a `word` without a NUL. -/
def strncmpEq (data : List Byte) (m : ℕ) (word : List Byte) : Bool :=
  (data.drop m).take word.length == word

/-- The `switch (p - m)` on the length of the method.  The result is the method
to set, or `none` for the `default` branch. -/
def methodOf (data : List Byte) (p : ℕ) (r : Request) : Option (BitVec 32) :=
  match r.requestStart with
  | none => none
  | some m =>
      if m + 3 = p then
        if strncmpEq data m [ascii 'G', ascii 'E', ascii 'T', SP] then
          some nightHttpGet
        else if strncmpEq data m [ascii 'P', ascii 'U', ascii 'T', SP] then
          some nightHttpPut
        else some r.method
      else if m + 4 = p then
        if data[m + 1]? = some (ascii 'O') then
          if strncmpEq data m [ascii 'P', ascii 'O', ascii 'S', ascii 'T', SP] then
            some nightHttpPost
          else some r.method
        else some r.method
      else none

/-- How the loop is left: with an error code, or by `goto done` at `p`. -/
inductive Exit where
  | fail (code : ParseCode) (r : Request)
  | done (p : ℕ) (r : Request)
  deriving DecidableEq, Repr

abbrev Step := Verdict (State × Request) Exit

/-- A state that waits for one given byte and rejects every other. -/
def expect (wanted : Byte) (next : State) (r : Request) (ch : Byte) : Step :=
  if ch = wanted then .more (next, r) else .stop (.fail .invalidRequest r)

/-- One turn of the loop: the `switch (state)` on the byte at `p`. -/
def requestLineStep (below : ℤ → BitVec 32) (data : List Byte) (p : ℕ) :
    State × Request → Byte → Step
  | (.swStart, r), ch =>
      let r := { r with requestStart := some p }
      if ch.toInt < 'A'.toNat ∨ ('Z'.toNat : ℤ) < ch.toInt then
        .stop (.fail .invalidMethod r)
      else .more (.swMethod, r)
  | (.swMethod, r), ch =>
      if ch = SP then
        let r := { r with methodEnd := some p }
        match methodOf data p r with
        | some method => .more (.swSpacesBeforeUri, { r with method := method })
        | none => .stop (.fail .invalidMethod r)
      else if ch.toInt < 'A'.toNat ∨ ('Z'.toNat : ℤ) < ch.toInt then
        .stop (.fail .invalidMethod r)
      else .more (.swMethod, r)
  | (.swSpacesBeforeUri, r), ch =>
      if ch = ascii '/' then
        .more (.swAfterSlashInUri, { r with uriStart := some p })
      else .more (.swSpacesBeforeUri, r)
  | (.swAfterSlashInUri, r), ch =>
      if isUsual below ch then .more (.swCheckUri, r)
      else if ch = SP then .more (.swHttp09, { r with uriEnd := some p })
      else if ch.toInt < 0x20 ∨ ch = DEL then
        .stop (.fail .invalidRequest r)
      else .more (.swCheckUri, r)
  | (.swHttp09, r), ch =>
      if ch = SP then .more (.swHttp09, r)
      else if ch = CR then .more (.swAlmostDone, { r with httpMinor := 9 })
      else if ch = LF then .stop (.done p { r with httpMinor := 9 })
      else if ch = ascii 'H' then
        .more (.swHttpH, { r with httpProtocol := some p })
      else .stop (.fail .invalidRequest r)
  | (.swHttpH, r), ch => expect (ascii 'T') .swHttpHT r ch
  | (.swHttpHT, r), ch => expect (ascii 'T') .swHttpHTT r ch
  | (.swHttpHTT, r), ch => expect (ascii 'P') .swHttpHTTP r ch
  | (.swHttpHTTP, r), ch => expect (ascii '/') .swFirstMajorDigit r ch
  | (.swFirstMajorDigit, r), ch =>
      if ch.toInt < '1'.toNat ∨ ('9'.toNat : ℤ) < ch.toInt then
        .stop (.fail .invalidRequest r)
      else
        let major := ch.toNat - '0'.toNat
        let r := { r with httpMajor := major }
        if major > 1 then .stop (.fail .invalidVersion r)
        else .more (.swMajorDigit, r)
  | (.swMajorDigit, r), ch =>
      if ch = ascii '.' then .more (.swFirstMinorDigit, r)
      else if ch.toInt < '0'.toNat ∨ ('9'.toNat : ℤ) < ch.toInt then
        .stop (.fail .invalidRequest r)
      else
        let major := (r.httpMajor * 10 + (ch.toNat - '0'.toNat)) % 2 ^ 16
        let r := { r with httpMajor := major }
        if major > 1 then .stop (.fail .invalidVersion r)
        else .more (.swMajorDigit, r)
  | (.swFirstMinorDigit, r), ch =>
      if ch.toInt < '0'.toNat ∨ ('9'.toNat : ℤ) < ch.toInt then
        .stop (.fail .invalidRequest r)
      else .more (.swMinorDigit, { r with httpMinor := ch.toNat - '0'.toNat })
  | (.swMinorDigit, r), ch =>
      if ch = CR then .more (.swAlmostDone, r)
      else if ch = LF then .stop (.done p r)
      else if ch.toInt < '0'.toNat ∨ ('9'.toNat : ℤ) < ch.toInt then
        .stop (.fail .invalidRequest r)
      else if r.httpMinor > 99 then .stop (.fail .invalidRequest r)
      else
        .more (.swMinorDigit, { r with
          httpMinor := (r.httpMinor * 10 + (ch.toNat - '0'.toNat)) % 2 ^ 16 })
  | (.swAlmostDone, r), ch =>
      let r := { r with requestEnd := some (p - 1) }
      if ch = LF then .stop (.done p r) else .stop (.fail .invalidRequest r)
  | (.swCheckUri, r), _ => .stop (.fail .error r)
  | (.other _, r), _ => .stop (.fail .error r)

/-- The code after the label `done`, except for `b->pos`. -/
def finishRequestLine (p : ℕ) (r : Request) : ParseCode × Request :=
  let r := { r with
    requestEnd := if r.requestEnd = none then some p else r.requestEnd
    httpVersion := r.httpMajor * 1000 + r.httpMinor
    state := State.swStart.toNat }
  (if r.httpVersion = 9 ∧ r.method ≠ nightHttpGet then .invalid09Method else .ok, r)

/-- `night_http_parse_request_line`. -/
def nightHttpParseRequestLine (below : ℤ → BitVec 32) (r : Request) (b : Buf) :
    ParseCode × Request × Buf :=
  match run (requestLineStep below b.data) b.pos (State.ofNat r.state, r) b.unread with
  | .more (state, r) =>
      (.again, { r with state := state.toNat },
        { b with pos := b.pos + b.unread.length })
  | .stop (.fail code r) _ => (code, r, b)
  | .stop (.done p r) _ =>
      ((finishRequestLine p r).1, (finishRequestLine p r).2,
        { b with pos := p + 1 })

end Night.RequestLine
