import Night.Core.Bytes

/-!
# `night_conf_read_token`

The function looks at the bytes of a buffer one by one and reads more of the file when
the buffer is used up; the bytes of the word that has begun move to the front then.
The number of the line is in messages only and left out.
-/

namespace Night.ConfToken

open Night.Bytes

def TAB : Byte := 0x09#8

abbrev Word := List Byte

/-- What a call returns, with the words in `cf->args` where the caller reads them. -/
inductive Code where
  | ok (args : List Word)
  | blockStart (args : List Word)
  | blockDone
  | fileDone
  | error
  deriving DecidableEq, Repr

def isBlank (ch : Byte) : Bool := ch == SP || ch == TAB || ch == CR || ch == LF

/-! ## Decoding a word -/

/-- The byte that `\` with `ch` stands for in the `switch` of the decoding loop. -/
def escape (ch : Byte) : Option Byte :=
  if ch = ascii '"' ∨ ch = ascii '\'' ∨ ch = ascii '\\' then some ch
  else if ch = ascii 't' then some TAB
  else if ch = ascii 'r' then some CR
  else if ch = ascii 'n' then some LF
  else none

/-- The decoding loop over the bytes of a word; `next` is the byte behind them. -/
def decodeWord (next : Byte) : List Byte → Word
  | [] => []
  | [ch] => if ch = ascii '\\' then [(escape next).getD ch] else [ch]
  | ch :: ch' :: src =>
      if ch = ascii '\\' then
        match escape ch' with
        | some decoded => decoded :: decodeWord next src
        | none => ch :: decodeWord next (ch' :: src)
      else ch :: decodeWord next (ch' :: src)

/-! ## One byte -/

/-- The flags of the function. -/
structure Locals where
  needSpace : Bool
  lastSpace : Bool
  sharpComment : Bool
  quoted : Bool
  sQuoted : Bool
  dQuoted : Bool
  variableFlag : ℤ
  deriving DecidableEq, Repr

/-- The flags at the start of a call: `variableFlag` is not initialised. -/
def Locals.start (garbage : ℤ) : Locals where
  needSpace := false
  lastSpace := true
  sharpComment := false
  quoted := false
  sQuoted := false
  dQuoted := false
  variableFlag := garbage

/-- What a byte does to `start`: nothing, or it points to the byte or behind it. -/
inductive Start where
  | same
  | here
  | behind
  deriving DecidableEq, Repr

/-- What a byte does: the loop goes on, or the function returns. -/
inductive Step where
  | next (locals : Locals) (args : List Word) (start : Start)
  | ret (code : Code)

/-- What a byte that may end a word does to the flags, with the value of `found`. -/
def endWord (l : Locals) (ch : Byte) : Locals × Bool :=
  if l.dQuoted then
    if ch = ascii '"' then ({ l with dQuoted := false, needSpace := true }, true)
    else (l, false)
  else if l.sQuoted then
    if ch = ascii '\'' then ({ l with sQuoted := false, needSpace := true }, true)
    else (l, false)
  else if isBlank ch ∨ ch = ascii ';' ∨ ch = ascii '{' then ({ l with lastSpace := true }, true)
  else (l, false)

/-- The part of the loop for a byte inside a word; `raw` are the bytes from `start` to
the byte. -/
def stepWord (l : Locals) (args : List Word) (raw : List Byte) (ch : Byte) : Step :=
  if ch = ascii '{' ∧ l.variableFlag ≠ 0 then .next l args .same
  else
    let l := { l with variableFlag := 0 }
    if ch = ascii '\\' then .next { l with quoted := true } args .same
    else if ch = ascii '$' then .next { l with variableFlag := 1 } args .same
    else
      let ended := endWord l ch
      if ended.2 then
        let args := args ++ [decodeWord ch raw]
        if ch = ascii ';' then .ret (.ok args)
        else if ch = ascii '{' then .ret (.blockStart args)
        else .next ended.1 args .same
      else .next ended.1 args .same

/-- The part of the loop for a byte behind a blank. -/
def stepSpace (l : Locals) (args : List Word) (ch : Byte) : Step :=
  if isBlank ch then .next l args .here
  else if ch = ascii ';' ∨ ch = ascii '{' then
    if args = [] then .ret .error
    else if ch = ascii '{' then .ret (.blockStart args)
    else .ret (.ok args)
  else if ch = ascii '}' then
    if args ≠ [] then .ret .error else .ret .blockDone
  else if ch = ascii '#' then .next { l with sharpComment := true } args .here
  else if ch = ascii '\\' then .next { l with quoted := true, lastSpace := false } args .here
  else if ch = ascii '"' then .next { l with dQuoted := true, lastSpace := false } args .behind
  else if ch = ascii '\'' then .next { l with sQuoted := true, lastSpace := false } args .behind
  else if ch = ascii '$' then .next { l with variableFlag := 1, lastSpace := false } args .here
  else .next { l with lastSpace := false } args .here

/-- The loop body behind `ch = *b->pos++`. -/
def step (l : Locals) (args : List Word) (raw : List Byte) (ch : Byte) : Step :=
  let l := if ch = LF ∧ l.sharpComment then { l with sharpComment := false } else l
  if l.sharpComment then .next l args .same
  else if l.quoted then .next { l with quoted := false } args .same
  else if l.needSpace then
    if isBlank ch then .next { l with lastSpace := true, needSpace := false } args .same
    else if ch = ascii ';' then .ret (.ok args)
    else if ch = ascii '{' then .ret (.blockStart args)
    else .ret .error
  else if l.lastSpace then stepSpace l args ch
  else stepWord l args raw ch

/-! ## The buffer -/

/-- The bytes from `b->start` to `b->last`, `b->pos` and how much of the file was
read. -/
structure Buffer where
  window : List Byte
  pos : ℕ
  offset : ℕ
  deriving DecidableEq, Repr

/-- The end of the file: an unfinished directive is an error. -/
def atEnd (l : Locals) (args : List Word) : Code :=
  if args ≠ [] ∨ l.lastSpace = false then .error else .fileDone

/-- The start of the loop body: a buffer that is used up is filled again, from `start`
on; `night_read_file` returns the bytes asked for. -/
def fill (pagesize : ℕ) (file : List Byte) (l : Locals) (args : List Word) (start : ℕ)
    (b : Buffer) : Except Code (ℕ × Buffer) :=
  if b.pos ≥ b.window.length then
    if b.offset ≥ file.length then .error (atEnd l args)
    else
      let len := b.pos - start
      if len = pagesize then .error .error
      else
        let size := min (file.length - b.offset) (pagesize - len)
        .ok (0, { window := (b.window.drop start).take len ++ (file.drop b.offset).take size
                  pos := len
                  offset := b.offset + size })
  else .ok (start, b)

/-- The loop, for at most `fuel` bytes. -/
def loop (pagesize : ℕ) (file : List Byte) :
    ℕ → Locals → List Word → ℕ → Buffer → Option (Code × Buffer)
  | 0, _, _, _, _ => none
  | fuel + 1, l, args, start, b =>
      match fill pagesize file l args start b with
      | .error code => some (code, b)
      | .ok (start, b) =>
          match b.window[b.pos]? with
          | none => none
          | some ch =>
              let raw := (b.window.drop start).take (b.pos - start)
              let b' := { b with pos := b.pos + 1 }
              match step l args raw ch with
              | .ret code => some (code, b')
              | .next l args .same => loop pagesize file fuel l args start b'
              | .next l args .here => loop pagesize file fuel l args b.pos b'
              | .next l args .behind => loop pagesize file fuel l args (b.pos + 1) b'

/-- `night_conf_read_token`; `garbage` is what `variable` holds. -/
def nightConfReadToken (pagesize : ℕ) (file : List Byte) (garbage : ℤ) (b : Buffer) :
    Option (Code × Buffer) :=
  loop pagesize file (file.length + 1) (.start garbage) [] b.pos b

/-- The buffer before anything is read. -/
def Buffer.empty : Buffer where
  window := []
  pos := 0
  offset := 0

/-- A directive or the end of a block: the parser goes on. -/
def Code.goesOn : Code → Bool
  | .ok _ | .blockStart _ | .blockDone => true
  | .fileDone | .error => false

/-- The first `calls` successive calls, as long as the parser goes on. -/
def readTokens (pagesize : ℕ) (file : List Byte) (garbage : ℕ → ℤ) :
    ℕ → Buffer → Option (List Code)
  | 0, _ => some []
  | calls + 1, b => do
      let (code, b) ← nightConfReadToken pagesize file (garbage calls) b
      if code.goesOn then
        let codes ← readTokens pagesize file garbage calls b
        some (code :: codes)
      else some [code]

end Night.ConfToken
