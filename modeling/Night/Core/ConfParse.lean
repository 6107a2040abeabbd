import Night.Conf.Parse
import Night.Core.ConfToken

/-!
# `night_conf_parse` and `night_conf_handler` of the 2025 tree

The parser asks for the next directive, the handler looks up its command by the name alone
and calls its `set` function, and that of a block parses the block by calling the parser
again.  Messages about a brace or an end of file in the wrong place are printed and change
nothing.  What `set` functions read and write, `cf->ctx` included, is a state `σ`.
-/

namespace Night.ConfFile

open Night.Bytes
open Night.Refill
open Night.Conf (strcmp Flags has)

def nightOk : ℤ := 0
def nightError : ℤ := -1

def nightDirectConf : Flags := 0x00000001#64
def nightMainConf : Flags := 0x00000002#64

/-! ## Tokens -/

/-- The words of a directive. -/
structure Args where
  name : Word
  params : List Word
  deriving DecidableEq, Repr

/-- A result of `night_conf_read_token` as the parser sees it. -/
inductive Token where
  | directive (args : Args) (block : Bool)
  | blockDone
  | fileDone
  | error
  deriving DecidableEq, Repr

/-- A directive that is returned has a first word. -/
def Code.token : Code → Token
  | .ok (name :: params) => .directive ⟨name, params⟩ false
  | .blockStart (name :: params) => .directive ⟨name, params⟩ true
  | .blockDone => .blockDone
  | .fileDone => .fileDone
  | _ => .error

/-- The reads of the parser from a file. -/
def readToken (limit : ℕ) (amount : ℕ → ℕ) (file : List Byte) (b : Window Byte) :
    Option (Token × Window Byte) :=
  (nightConfReadToken limit amount file b).map fun result => (result.1.token, result.2)

/-! ## Modules -/

/-- A `set` function.  That of a block does something before it calls the parser, or returns
without calling it, and something with what the parser returned. -/
inductive SetFn (σ : Type) where
  | plain (set : Args → ℕ → σ → ℤ × σ)
  | block (enter : Args → ℕ → σ → Except ℤ Unit × σ) (leave : Args → ℕ → ℤ → σ → ℤ × σ)

/-- A `night_command_t` before the null command. -/
structure Command (σ : Type) where
  name : List Byte
  type : Flags
  offset : ℕ
  set : SetFn σ

structure Module (σ : Type) where
  index : ℕ
  ctxIndex : ℕ
  commands : Option (List (Command σ))

/-- What the handler finds: `cf->cycle->modules`, `cf->ctx`, and the pointer at an
address. -/
structure Env (σ : Type) where
  modules : List (Module σ)
  ctx : σ → ℕ
  load : σ → ℕ → ℕ

variable {σ ρ : Type}

/-- The choice of the configuration pointer; null is zero. -/
def confPointer (env : Env σ) (s : σ) (m : Module σ) (cmd : Command σ) : ℕ :=
  if has cmd.type nightDirectConf then env.load s (env.ctx s + 8 * m.index)
  else if has cmd.type nightMainConf then env.ctx s + 8 * m.index
  else if env.ctx s ≠ 0 then
    let confp := env.load s (env.ctx s + cmd.offset)
    if confp ≠ 0 then env.load s (confp + 8 * m.ctxIndex) else 0
  else 0

/-- The loop over the commands of a module. -/
def commandLoop (name : List Byte) : List (Command σ) → Option (Command σ)
  | [] => none
  | cmd :: cmds =>
      if name.length ≠ cmd.name.length then commandLoop name cmds
      else if strcmp name cmd.name ≠ 0 then commandLoop name cmds
      else some cmd

/-- The loop over the modules. -/
def moduleLoop (name : List Byte) : List (Module σ) → Option (Module σ × Command σ)
  | [] => none
  | m :: modules =>
      match m.commands with
      | none => moduleLoop name modules
      | some cmds =>
          match commandLoop name cmds with
          | some cmd => some (m, cmd)
          | none => moduleLoop name modules

/-! ## The handler -/

/-- What the parser and the handler do, in order: a directive is handed to a `set` function,
which perhaps calls the parser (`parsed` is what that returned) and returns `code`, or to
none; a closing brace or the end of the file is read, inside a block or not; the tokenizer
returns an error. -/
inductive Event where
  | call (args : Args) (block : Bool) (parsed : Option ℤ) (code : ℤ)
  | unknown (args : Args) (block : Bool)
  | blockDone (inBlock : Bool)
  | fileDone (inBlock : Bool)
  | bad
  deriving DecidableEq, Repr

/-- A return, the state, the reader, and what was done. -/
structure Outcome (σ ρ : Type) where
  code : ℤ
  state : σ
  reader : ρ
  log : List Event

/-- A call of the parser for a block. -/
abbrev Parser (σ ρ : Type) := σ → ρ → Option (Outcome σ ρ)

/-- `rc = cmd->set(cf, cmd, conf)`. -/
def callSet (parse : Parser σ ρ) (set : SetFn σ) (args : Args) (block : Bool) (conf : ℕ)
    (s : σ) (b : ρ) : Option (Outcome σ ρ) :=
  match set with
  | .plain set =>
      let returned := set args conf s
      some ⟨returned.1, returned.2, b, [.call args block none returned.1]⟩
  | .block enter leave =>
      match enter args conf s with
      | (.error code, s) => some ⟨code, s, b, [.call args block none code]⟩
      | (.ok _, s) => do
          let parsed ← parse s b
          let returned := leave args conf parsed.code parsed.state
          some ⟨returned.1, returned.2, parsed.reader,
            .call args block (some parsed.code) returned.1 :: parsed.log⟩

/-- `night_conf_handler`; it does not look at `last`. -/
def nightConfHandler (env : Env σ) (parse : Parser σ ρ) (args : Args) (block : Bool) (s : σ)
    (b : ρ) : Option (Outcome σ ρ) :=
  match moduleLoop args.name env.modules with
  | some (m, cmd) => callSet parse cmd.set args block (confPointer env s m cmd) s b
  | none => some ⟨nightError, s, b, [.unknown args block]⟩

/-! ## The parser -/

inductive ParseType where
  | file
  | block
  deriving DecidableEq, Repr

/-- The main loop, with at most `fuel` directives in a row or one in the other. -/
def parseLoop (env : Env σ) (read : ρ → Option (Token × ρ)) :
    ℕ → ParseType → Parser σ ρ
  | 0, _, _, _ => none
  | fuel + 1, type, s, b =>
      match read b with
      | none => none
      | some (.error, b) => some ⟨nightError, s, b, [.bad]⟩
      | some (.blockDone, b) => some ⟨nightOk, s, b, [.blockDone (type = .block)]⟩
      | some (.fileDone, b) => some ⟨nightOk, s, b, [.fileDone (type = .block)]⟩
      | some (.directive args block, b) => do
          let handled ← nightConfHandler env (parseLoop env read fuel .block) args block s b
          if handled.code = nightError then some handled
          else
            let parsed ← parseLoop env read fuel type handled.state handled.reader
            some { parsed with log := handled.log ++ parsed.log }

/-- `night_conf_parse` on a file that can be opened and read. -/
def nightConfParse (env : Env σ) (amount : ℕ → ℕ) (file : List Byte) (s : σ) :
    Option (Outcome σ (Window Byte)) :=
  parseLoop env (readToken nightDefaultPoolLimit amount file) (file.length + 1) .file s .empty

end Night.ConfFile
