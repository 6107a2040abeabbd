import Night.Core.Bytes

/-!
# `night_conf_parse` and `night_conf_handler`

The parser asks for the next directive and the handler looks up its command and calls
its `set` function; that of a block parses the block by calling the parser again.  What
`set` functions read and write is a state `σ`, in which `load` gives the pointer at an
address.  Calls of `set` are recorded.
-/

namespace Night.Conf

open Night.Bytes

/-! ## Flags -/

abbrev Flags := BitVec 64

def confNoargs : Flags := 0x1#64
def confTake1 : Flags := 0x2#64
def confTake2 : Flags := 0x4#64
def confTake3 : Flags := 0x8#64
def confTake4 : Flags := 0x10#64
def confTake5 : Flags := 0x20#64
def confTake6 : Flags := 0x40#64
def confTake7 : Flags := 0x80#64

def confBlock : Flags := 0x100#64
def confFlag : Flags := 0x200#64
def confAny : Flags := 0x400#64
def conf1More : Flags := 0x800#64
def conf2More : Flags := 0x1000#64

def confMaxArgs : ℕ := 8

def directConf : Flags := 0x10000#64
def mainConf : Flags := 0x1000000#64

def confModule : Flags := 0x464E4F43#64

def argumentNumber : List Flags :=
  [confNoargs, confTake1, confTake2, confTake3, confTake4, confTake5, confTake6, confTake7]

/-- `type & flag`. -/
def has (type flag : Flags) : Bool := type &&& flag != 0

/-! ## Tokens -/

/-- The words of a directive: `cf->args` is never empty when a directive is read. -/
structure Args where
  name : List Byte
  params : List (List Byte)
  deriving DecidableEq, Repr

def Args.nelts (args : Args) : ℕ := args.params.length + 1

/-- What `night_conf_read_token` returns before it returns `NIGHT_CONF_FILE_DONE` or an
error: a directive that ends with `;` or, when `block`, with an opening brace, or a
closing brace. -/
inductive Token where
  | directive (args : Args) (block : Bool)
  | blockDone
  deriving DecidableEq, Repr

inductive Ending where
  | fileDone
  | error
  deriving DecidableEq, Repr

/-! ## Modules -/

/-- The fields of `night_conf_t` that a `set` function of a block changes. -/
structure Context where
  ctx : ℕ
  moduleType : Flags
  cmdType : Flags
  deriving DecidableEq, Repr

/-- A `night_conf_t`; `fd` is that of the current file, if it is valid. -/
structure NightConf extends Context where
  fd : Option ℕ
  deriving DecidableEq, Repr

/-- What a `set` function returns when it is not `NIGHT_CONF_OK`. -/
inductive Failure where
  | error
  | message (text : List Byte)
  deriving DecidableEq, Repr

/-- A `set` function.  That of a block sets up the context of the block, parses it, restores
`cf` and finishes; it hands on an error of the parser. -/
inductive SetFn (σ : Type) where
  | plain (set : Context → Args → ℕ → σ → Except Failure Unit × σ)
  | block (enter : Context → Args → ℕ → σ → Except Failure Context × σ)
      (leave : Context → Context → ℕ → σ → Except Failure Unit × σ)

def SetFn.isBlock {σ : Type} : SetFn σ → Bool
  | .plain _ => false
  | .block _ _ => true

/-- A `night_command_t` other than `night_null_command`. -/
structure Command (σ : Type) where
  name : List Byte
  type : Flags
  set : SetFn σ
  conf : ℕ
  nonempty : name ≠ []
  noNul : 0#8 ∉ name
  block : has type confBlock = set.isBlock

/-- A `night_module_t`; `commands` is the table before the null command, or `NULL`. -/
structure Module (σ : Type) where
  type : Flags
  index : ℕ
  ctxIndex : ℕ
  commands : Option (List (Command σ))

/-- A call of `set`. -/
structure Call (σ : Type) where
  module : Module σ
  command : Command σ
  args : Args
  conf : ℕ

/-! ## The handler -/

/-- `strcmp` of two strings whose terminating null bytes follow the listed bytes. -/
def strcmp : List Byte → List Byte → ℤ
  | [], [] => 0
  | [], b :: _ => -(b.toNat : ℤ)
  | a :: _, [] => a.toNat
  | a :: s, b :: t =>
      if a ≠ b then (a.toNat : ℤ) - b.toNat else if a = 0#8 then 0 else strcmp s t

/-- The check of the number of arguments; `false` is `goto invalid`. -/
def checkArgs (type : Flags) (nelts : ℕ) : Bool :=
  if has type confAny then true
  else if has type confFlag then nelts == 2
  else if has type conf1More then !(nelts < 2)
  else if has type conf2More then !(nelts < 3)
  else if nelts > confMaxArgs then false
  else has type (argumentNumber.getD (nelts - 1) 0)

variable {σ : Type}

/-- The choice of the configuration pointer; null is zero. -/
def confPointer (load : σ → ℕ → ℕ) (s : σ) (ctx : ℕ) (m : Module σ) (cmd : Command σ) : ℕ :=
  if has cmd.type directConf then load s (ctx + 8 * m.index)
  else if has cmd.type mainConf then ctx + 8 * m.index
  else if ctx ≠ 0 then
    let confp := load s (ctx + cmd.conf)
    if confp ≠ 0 then load s (confp + 8 * m.ctxIndex) else 0
  else 0

inductive Rc where
  | ok
  | error
  deriving DecidableEq, Repr

/-- A return, the state, the calls of `set` and the tokens that are left. -/
structure Outcome (σ : Type) where
  rc : Rc
  state : σ
  calls : List (Call σ)
  rest : List Token

/-- A call of the parser on the rest of the file. -/
abbrev Parser (σ : Type) := NightConf → σ → List Token → Option (Outcome σ)

/-- `rv = cmd->set(cf, cmd, conf)` and the return of the handler. -/
def callSet (parse : Parser σ) (cf : NightConf) (s : σ) (rest : List Token) (call : Call σ) :
    Option (Outcome σ) :=
  match call.command.set with
  | .plain set =>
      match set cf.toContext call.args call.conf s with
      | (.ok _, s) => some ⟨.ok, s, [call], rest⟩
      | (.error _, s) => some ⟨.error, s, [call], rest⟩
  | .block enter leave =>
      match enter cf.toContext call.args call.conf s with
      | (.error _, s) => some ⟨.error, s, [call], rest⟩
      | (.ok inner, s) => do
          let parsed ← parse { cf with toContext := inner } s rest
          match parsed.rc with
          | .error => some { parsed with calls := call :: parsed.calls }
          | .ok =>
              match leave cf.toContext inner call.conf parsed.state with
              | (.ok _, s) => some ⟨.ok, s, call :: parsed.calls, parsed.rest⟩
              | (.error _, s) => some ⟨.error, s, call :: parsed.calls, parsed.rest⟩

/-- The body of the loop over commands once the command fits. -/
def handleCommand (load : σ → ℕ → ℕ) (parse : Parser σ) (cf : NightConf) (args : Args)
    (block : Bool) (s : σ) (rest : List Token) (m : Module σ) (cmd : Command σ) :
    Option (Outcome σ) :=
  if !has cmd.type confBlock && block then some ⟨.error, s, [], rest⟩
  else if has cmd.type confBlock && !block then some ⟨.error, s, [], rest⟩
  else if !checkArgs cmd.type args.nelts then some ⟨.error, s, [], rest⟩
  else callSet parse cf s rest ⟨m, cmd, args, confPointer load s cf.ctx m cmd⟩

/-- The loop over the commands of a module; `none` when no command fits. -/
def commandLoop {α : Type} (cf : NightConf) (name : List Byte) (m : Module σ)
    (handle : Module σ → Command σ → α) : List (Command σ) → Option α
  | [] => none
  | cmd :: cmds =>
      if name.length ≠ cmd.name.length then commandLoop cf name m handle cmds
      else if strcmp name cmd.name ≠ 0 then commandLoop cf name m handle cmds
      else if m.type ≠ confModule ∧ m.type ≠ cf.moduleType then
        commandLoop cf name m handle cmds
      else if !has cmd.type cf.cmdType then commandLoop cf name m handle cmds
      else some (handle m cmd)

/-- The loop over the modules. -/
def moduleLoop {α : Type} (cf : NightConf) (name : List Byte)
    (handle : Module σ → Command σ → α) : List (Module σ) → Option α
  | [] => none
  | m :: modules =>
      match m.commands with
      | none => moduleLoop cf name handle modules
      | some cmds =>
          match commandLoop cf name m handle cmds with
          | some result => some result
          | none => moduleLoop cf name handle modules

/-- `night_conf_handler`. -/
def nightConfHandler (load : σ → ℕ → ℕ) (modules : List (Module σ)) (parse : Parser σ)
    (cf : NightConf) (args : Args) (block : Bool) (s : σ) (rest : List Token) :
    Option (Outcome σ) :=
  match moduleLoop cf args.name (handleCommand load parse cf args block s rest) modules with
  | some outcome => outcome
  | none => some ⟨.error, s, [], rest⟩

/-! ## The parser -/

inductive ParseType where
  | file
  | block
  | param
  deriving DecidableEq, Repr

/-- The type of a parser that is called without a file name. -/
def parseType (cf : NightConf) : ParseType := if cf.fd.isSome then .block else .param

/-- The main loop, with at most `fuel` directives in a row or one in the other. -/
def parseLoop (load : σ → ℕ → ℕ) (modules : List (Module σ)) (ending : Ending) :
    ℕ → ParseType → Parser σ
  | 0, _, _, _, _ => none
  | fuel + 1, type, cf, s, tokens =>
      match tokens with
      | [] =>
          match ending with
          | .error => some ⟨.error, s, [], []⟩
          | .fileDone =>
              if type = .block then some ⟨.error, s, [], []⟩ else some ⟨.ok, s, [], []⟩
      | .blockDone :: rest =>
          if type ≠ .block then some ⟨.error, s, [], rest⟩ else some ⟨.ok, s, [], rest⟩
      | .directive args block :: rest =>
          if block ∧ type = .param then some ⟨.error, s, [], rest⟩
          else do
            let handled ← nightConfHandler load modules
              (fun cf => parseLoop load modules ending fuel (parseType cf) cf)
              cf args block s rest
            match handled.rc with
            | .error => some handled
            | .ok => do
                let parsed ← parseLoop load modules ending fuel type cf handled.state
                  handled.rest
                some { parsed with calls := handled.calls ++ parsed.calls }

/-- A file that can be read: its descriptor, and the results that `night_conf_read_token`
returns for it. -/
structure File where
  fd : ℕ
  tokens : List Token
  ending : Ending

/-- `night_conf_parse` on a file that can be opened, read and closed. -/
def nightConfParse (load : σ → ℕ → ℕ) (modules : List (Module σ)) (cf : NightConf) (s : σ)
    (file : File) : Option (Outcome σ) :=
  parseLoop load modules file.ending (file.tokens.length + 1) .file
    { cf with fd := some file.fd } s file.tokens

end Night.Conf
