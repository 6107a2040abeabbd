import Night.Conf.TokenText

/-!
# The reference tokenizer

What a configuration text says, byte by byte and without a buffer: what separates
words, what ends a directive and what a backslash does.  `Hazard` names the places
where `night_conf_read_token` does something else.
-/

namespace Night.ConfToken

open Night.Bytes

/-! ## Words -/

/-- A backslash is decoded together with the byte it protects. -/
def unescape : List Byte → Word
  | [] => []
  | [ch] => [ch]
  | ch :: ch' :: rest =>
      if ch = ascii '\\' then
        match escape ch' with
        | some decoded => decoded :: unescape rest
        | none => ch :: ch' :: unescape rest
      else ch :: unescape (ch' :: rest)

/-- Where a byte of the text stands; `raw` are the bytes of the word before it. -/
inductive Mode where
  | between
  | comment (length : ℕ)
  | word (raw : List Byte) (dollar : Bool)
  | escaped (raw : List Byte)
  | string (quote : Byte) (raw : List Byte)
  | stringEscaped (quote : Byte) (raw : List Byte)
  | afterString
  deriving DecidableEq, Repr

inductive ReferenceStep where
  | next (mode : Mode) (args : List Word)
  | ret (code : Code)
  deriving DecidableEq, Repr

/-- What a byte means before a word. -/
def referenceBetween (args : List Word) (ch : Byte) : ReferenceStep :=
  if isBlank ch then .next .between args
  else if ch = ascii ';' then if args = [] then .ret .error else .ret (.ok args)
  else if ch = ascii '{' then if args = [] then .ret .error else .ret (.blockStart args)
  else if ch = ascii '}' then if args = [] then .ret .blockDone else .ret .error
  else if ch = ascii '#' then .next (.comment 1) args
  else if ch = ascii '\\' then .next (.escaped [ch]) args
  else if ch = ascii '"' ∨ ch = ascii '\'' then .next (.string ch []) args
  else .next (.word [ch] (ch = ascii '$')) args

/-- What a byte means in an unquoted word; `dollar` says that it stands directly behind
a `$`. -/
def referenceWord (args : List Word) (raw : List Byte) (dollar : Bool) (ch : Byte) :
    ReferenceStep :=
  if ch = ascii '\\' then .next (.escaped (raw ++ [ch])) args
  else if isBlank ch then .next .between (args ++ [unescape raw])
  else if ch = ascii ';' then .ret (.ok (args ++ [unescape raw]))
  else if ch = ascii '{' ∧ dollar = false then .ret (.blockStart (args ++ [unescape raw]))
  else .next (.word (raw ++ [ch]) (ch = ascii '$')) args

def referenceStep (args : List Word) (ch : Byte) : Mode → ReferenceStep
  | .between => referenceBetween args ch
  | .comment length => .next (if ch = LF then .between else .comment (length + 1)) args
  | .word raw dollar => referenceWord args raw dollar ch
  | .escaped raw => .next (.word (raw ++ [ch]) false) args
  | .string quote raw =>
      if ch = ascii '\\' then .next (.stringEscaped quote (raw ++ [ch])) args
      else if ch = quote then .next .afterString (args ++ [unescape raw])
      else .next (.string quote (raw ++ [ch])) args
  | .stringEscaped quote raw => .next (.string quote (raw ++ [ch])) args
  | .afterString =>
      if isBlank ch then .next .between args
      else if ch = ascii ';' then .ret (.ok args)
      else if ch = ascii '{' then .ret (.blockStart args)
      else .ret .error

/-- The text may end before a directive only. -/
def referenceEnd (args : List Word) : Mode → Code
  | .between | .comment _ => if args = [] then .fileDone else .error
  | _ => .error

/-- One directive of the text, and the rest of the text. -/
def reference : List Byte → Mode → List Word → Code × List Byte
  | [], mode, args => (referenceEnd args mode, [])
  | ch :: rest, mode, args =>
      match referenceStep args ch mode with
      | .ret code => (code, rest)
      | .next mode args => reference rest mode args

def referenceToken (text : List Byte) : Code × List Byte := reference text .between []

/-- The first directives of the text. -/
def referenceTokens : ℕ → List Byte → List Code
  | 0, _ => []
  | calls + 1, text =>
      let token := referenceToken text
      if token.1.goesOn then token.1 :: referenceTokens calls token.2 else [token.1]

/-! ## Conditions on a text -/

/-- The bytes of the word that ends with `ch`. -/
def completes (ch : Byte) : Mode → Option (List Byte)
  | .word raw dollar =>
      if isBlank ch ∨ ch = ascii ';' ∨ ch = ascii '{' ∧ dollar = false then some raw else none
  | .string quote raw => if ch = quote then some raw else none
  | _ => none

/-- A condition on every byte of a directive, with its place and the words before it. -/
def AtEachByte (p : Mode → List Word → Byte → Prop) : List Byte → Mode → List Word → Prop
  | [], _, _ => True
  | ch :: rest, mode, args =>
      p mode args ch ∧
        match referenceStep args ch mode with
        | .ret _ => True
        | .next mode args => AtEachByte p rest mode args

/-- A condition on every directive among the first ones. -/
def AtEachToken (p : List Byte → Prop) : ℕ → List Byte → Prop
  | 0, _ => True
  | calls + 1, text =>
      p text ∧ ((referenceToken text).1.goesOn = true →
        AtEachToken p calls (referenceToken text).2)

instance AtEachByte.decidable (p : Mode → List Word → Byte → Prop)
    [∀ mode args ch, Decidable (p mode args ch)] :
    ∀ text mode args, Decidable (AtEachByte p text mode args)
  | [], _, _ => isTrue True.intro
  | ch :: rest, mode, args =>
      have : Decidable (match referenceStep args ch mode with
          | .ret _ => True
          | .next mode args => AtEachByte p rest mode args) :=
        match referenceStep args ch mode with
        | .ret _ => isTrue True.intro
        | .next mode args => AtEachByte.decidable p rest mode args
      inferInstanceAs (Decidable (_ ∧ _))

/-- A condition on the directives holds of a text if it holds of the first one and of the
text behind it. -/
theorem atEachToken_cons {p : List Byte → Prop} {text : List Byte} (htext : p text)
    (hrest : ∀ calls, AtEachToken p calls (referenceToken text).2) (calls : ℕ) :
    AtEachToken p calls text := by
  cases calls with
  | zero => exact True.intro
  | succ calls => exact ⟨htext, fun _ => hrest calls⟩

theorem atEachToken_last {p : List Byte → Prop} {text : List Byte} (htext : p text)
    (hlast : (referenceToken text).1.goesOn = false) (calls : ℕ) :
    AtEachToken p calls text := by
  cases calls with
  | zero => exact True.intro
  | succ calls =>
      refine ⟨htext, ?_⟩
      intro hgoes
      rw [hlast] at hgoes
      cases hgoes

/-- Words, the quoted ones included, are shorter than `pagesize - 2`. -/
def ShortWord (pagesize : ℕ) (mode : Mode) (_ : List Word) (ch : Byte) : Prop :=
  ∀ raw, completes ch mode = some raw → raw.length + 2 < pagesize

instance (pagesize : ℕ) (mode : Mode) (args : List Word) (ch : Byte) :
    Decidable (ShortWord pagesize mode args ch) :=
  match h : completes ch mode with
  | none => isTrue fun raw hraw => by rw [h] at hraw; cases hraw
  | some raw =>
      decidable_of_iff (raw.length + 2 < pagesize) (by simp [ShortWord, h])

def ShortWords (pagesize : ℕ) (text : List Byte) : Prop :=
  ∀ calls, AtEachToken (fun text => AtEachByte (ShortWord pagesize) text .between []) calls text

/-- A word whose opening brace `night_conf_read_token` may take for a part of it: the
word ends with `${`, or it is the first word of its directive and a single byte, which a
backslash may protect. -/
def LateBrace (args : List Word) (raw : List Byte) : Prop :=
  [ascii '$', ascii '{'] <:+ raw ∨
    args = [] ∧ (raw.length = 1 ∨ raw.length = 2 ∧ raw.head? = some (ascii '\\'))

instance (args : List Word) (raw : List Byte) : Decidable (LateBrace args raw) :=
  inferInstanceAs (Decidable (_ ∨ _))

/-- The text goes on behind `pagesize` bytes of a comment, or a late brace follows a
word. -/
def Hazard (pagesize : ℕ) (mode : Mode) (args : List Word) (ch : Byte) : Prop :=
  match mode with
  | .comment length => length = pagesize
  | .word raw dollar => ch = ascii '{' ∧ dollar = false ∧ LateBrace args raw
  | _ => False

instance (pagesize : ℕ) (mode : Mode) (args : List Word) (ch : Byte) :
    Decidable (Hazard pagesize mode args ch) :=
  match mode with
  | .comment length => inferInstanceAs (Decidable (length = pagesize))
  | .word raw dollar =>
      inferInstanceAs (Decidable (ch = ascii '{' ∧ dollar = false ∧ LateBrace args raw))
  | .between | .escaped _ | .string _ _ | .stringEscaped _ _ | .afterString => isFalse id

def NoHazard (pagesize : ℕ) : List Byte → Mode → List Word → Prop :=
  AtEachByte fun mode args ch => ¬ Hazard pagesize mode args ch

instance (pagesize : ℕ) (text : List Byte) (mode : Mode) (args : List Word) :
    Decidable (NoHazard pagesize text mode args) :=
  inferInstanceAs (Decidable (AtEachByte _ text mode args))

/-- There is no hazard in the directives, except in one that is an error anyway. -/
def Safe (pagesize : ℕ) (text : List Byte) : Prop :=
  ∀ calls, AtEachToken
    (fun text => (referenceToken text).1 = .error ∨ NoHazard pagesize text .between [])
    calls text

end Night.ConfToken
