import Night.Conf.Parse

/-!
# Directives in the order of the text

The parser calls itself through the `set` functions of blocks.  Read in one pass from
left to right, with the open blocks on a stack, the directives are the same: each is
handled once, in the context of the innermost open block, until the first failure.
-/

namespace Night.Conf

open Night.Bytes

variable {σ : Type}

/-! ## Which command, how many arguments -/

/-- The commands of all modules in module and table order. -/
def commands (modules : List (Module σ)) : List (Module σ × Command σ) :=
  modules.flatMap fun m => (m.commands.getD []).map fun cmd => (m, cmd)

/-- Name, module type and context fit. -/
def Fits (cf : Context) (name : List Byte) (m : Module σ) (cmd : Command σ) : Prop :=
  cmd.name = name ∧ (m.type = confModule ∨ m.type = cf.moduleType) ∧
    has cmd.type cf.cmdType = true

instance (cf : Context) (name : List Byte) (m : Module σ) (cmd : Command σ) :
    Decidable (Fits cf name m cmd) :=
  inferInstanceAs (Decidable (_ ∧ _ ∧ _))

def firstFit (modules : List (Module σ)) (cf : Context) (name : List Byte) :
    Option (Module σ × Command σ) :=
  (commands modules).find? fun entry => Fits cf name entry.1 entry.2

/-- The flags admit `n` arguments: any number, one, at least one, at least two, or one of
the numbers up to seven whose flag is set. -/
def Admits (type : Flags) (n : ℕ) : Prop :=
  if has type confAny then True
  else if has type confFlag then n = 1
  else if has type conf1More then 1 ≤ n
  else if has type conf2More then 2 ≤ n
  else n ≤ 7 ∧ type.getLsbD n = true

instance (type : Flags) (n : ℕ) : Decidable (Admits type n) := by
  unfold Admits
  infer_instance

/-! ## One pass over the tokens -/

/-- An open block: the context outside it, that inside it, and how it ends. -/
structure Frame (σ : Type) where
  outer : Context
  inner : Context
  conf : ℕ
  leave : Context → Context → ℕ → σ → Except Failure Unit × σ

/-- The result of a pass: whether all was accepted, the state and the calls of `set`. -/
structure Reading (σ : Type) where
  accepted : Bool
  state : σ
  calls : List (Call σ)

def Reading.after (calls : List (Call σ)) (reading : Reading σ) : Reading σ :=
  { reading with calls := calls ++ reading.calls }

section Pass

variable (load : σ → ℕ → ℕ) (modules : List (Module σ)) (ending : Ending)

/-- What a table of pointers holds at `offset`; a table that is missing holds null. -/
def entryAt (s : σ) (table offset : ℕ) : ℕ := if table = 0 then 0 else load s (table + offset)

/-- The configuration of a command: for `NIGHT_DIRECT_CONF` what the context holds for the
module, for `NIGHT_MAIN_CONF` the place of that, and else what the table at the offset of the
command in the context holds for the module. -/
def confFor (s : σ) (ctx : ℕ) (m : Module σ) (cmd : Command σ) : ℕ :=
  match has cmd.type directConf, has cmd.type mainConf with
  | true, _ => load s (ctx + 8 * m.index)
  | false, true => ctx + 8 * m.index
  | false, false => entryAt load s (entryAt load s ctx cmd.conf) (8 * m.ctxIndex)

/-- The call that a directive gets, when its command exists, is a block exactly when the
directive opens one, and admits the arguments. -/
def callFor (cf : Context) (s : σ) (args : Args) (block : Bool) : Option (Call σ) :=
  match firstFit modules cf args.name with
  | none => none
  | some (m, cmd) =>
      if has cmd.type confBlock = block ∧ Admits cmd.type args.params.length then
        some ⟨m, cmd, args, confFor load s cf.ctx m cmd⟩
      else none

/-- What `set` does first: it is done, or it opens a block. -/
inductive Entered (σ : Type) where
  | done (s : σ)
  | opened (frame : Frame σ) (s : σ)
  | failed (s : σ)

def enterSet (cf : Context) (s : σ) (call : Call σ) : Entered σ :=
  match call.command.set with
  | .plain set =>
      match set cf call.args call.conf s with
      | (.ok _, s) => .done s
      | (.error _, s) => .failed s
  | .block enter leave =>
      match enter cf call.args call.conf s with
      | (.ok inner, s) => .opened ⟨cf, inner, call.conf, leave⟩ s
      | (.error _, s) => .failed s

/-- The pass over the tokens with the blocks of `stack` open. -/
def interpret : List Token → List (Frame σ) → Context → σ → Reading σ
  | [], stack, _, s => ⟨ending == .fileDone && stack.isEmpty, s, []⟩
  | .blockDone :: rest, stack, _, s =>
      match stack with
      | [] => ⟨false, s, []⟩
      | frame :: stack =>
          match frame.leave frame.outer frame.inner frame.conf s with
          | (.ok _, s) => interpret rest stack frame.outer s
          | (.error _, s) => ⟨false, s, []⟩
  | .directive args block :: rest, stack, cf, s =>
      match callFor load modules cf s args block with
      | none => ⟨false, s, []⟩
      | some call =>
          match enterSet cf s call with
          | .done s => (interpret rest stack cf s).after [call]
          | .opened frame s => (interpret rest (frame :: stack) frame.inner s).after [call]
          | .failed s => ⟨false, s, [call]⟩

end Pass

/-! ## The handler -/

theorem strcmp_eq_zero {s t : List Byte} (hlength : s.length = t.length) (ht : 0#8 ∉ t) :
    strcmp s t = 0 ↔ t = s := by
  induction s generalizing t with
  | nil =>
      have hnil : t = [] := List.length_eq_zero_iff.mp hlength.symm
      simp [hnil, strcmp]
  | cons a s ih =>
      cases t with
      | nil => simp at hlength
      | cons b t =>
          simp only [List.mem_cons, not_or] at ht
          rw [strcmp]
          by_cases heq : a = b
          · subst heq
            have hnonzero : ¬ a = 0#8 := fun hzero => ht.1 hzero.symm
            rw [if_neg (by simp), if_neg hnonzero, ih (by simpa using hlength) ht.2]
            simp
          · have hne : ¬ (a.toNat : ℤ) - b.toNat = 0 := by
              intro hzero
              apply heq
              apply BitVec.eq_of_toNat_eq
              omega
            rw [if_pos heq]
            constructor
            · intro hzero
              exact absurd hzero hne
            · intro hlists
              exact absurd (List.cons.inj hlists).1.symm heq

theorem commandLoop_eq {α : Type} (cf : NightConf) (name : List Byte) (m : Module σ)
    (handle : Module σ → Command σ → α) (cmds : List (Command σ)) :
    commandLoop cf name m handle cmds =
      (cmds.find? fun cmd => Fits cf.toContext name m cmd).map (handle m) := by
  induction cmds with
  | nil => rfl
  | cons cmd cmds ih =>
      rw [commandLoop, ih]
      by_cases hfits : Fits cf.toContext name m cmd
      · obtain ⟨hname, htype, hctx⟩ := id hfits
        have hcmp : strcmp name cmd.name = 0 :=
          (strcmp_eq_zero (by rw [hname]) cmd.noNul).mpr hname
        have hmodule : ¬ (m.type ≠ confModule ∧ m.type ≠ cf.moduleType) := by
          rintro ⟨hconf, hother⟩
          exact htype.elim hconf hother
        rw [List.find?_cons_of_pos (by simpa using hfits), if_neg (by simp [hname]),
          if_neg (by simpa using hcmp), if_neg hmodule, if_neg (by simp [hctx])]
        rfl
      · rw [List.find?_cons_of_neg (by simpa using hfits)]
        split
        · rfl
        split
        · rfl
        split
        · rfl
        split
        · rfl
        · rename_i hlength hcmp hmodule hctx
          have hname : cmd.name = name :=
            (strcmp_eq_zero (not_not.mp hlength) cmd.noNul).mp (not_not.mp hcmp)
          refine absurd ⟨hname, ?_, by simpa using hctx⟩ hfits
          by_contra hneither
          exact hmodule (not_or.mp hneither)

theorem commands_cons (m : Module σ) (modules : List (Module σ)) :
    commands (m :: modules) =
      (m.commands.getD []).map (fun cmd => (m, cmd)) ++ commands modules :=
  List.flatMap_cons

theorem moduleLoop_eq {α : Type} (cf : NightConf) (name : List Byte)
    (handle : Module σ → Command σ → α) (modules : List (Module σ)) :
    moduleLoop cf name handle modules =
      (firstFit modules cf.toContext name).map fun entry => handle entry.1 entry.2 := by
  induction modules with
  | nil => rfl
  | cons m modules ih =>
      rw [moduleLoop, ih, firstFit, firstFit, commands_cons, List.find?_append,
        List.find?_map]
      cases m.commands with
      | none => rfl
      | some cmds =>
          simp only [commandLoop_eq, Option.getD_some]
          rw [show ((fun entry : Module σ × Command σ =>
              decide (Fits cf.toContext name entry.1 entry.2)) ∘ fun cmd => (m, cmd)) =
            fun cmd => decide (Fits cf.toContext name m cmd) from rfl]
          cases cmds.find? fun cmd => decide (Fits cf.toContext name m cmd) with
          | none => rfl
          | some cmd => rfl

theorem has_argumentNumber (type : Flags) {n : ℕ} (hn : n ≤ 7) :
    has type (argumentNumber.getD n 0) = type.getLsbD n := by
  have hflag : argumentNumber.getD n 0 = BitVec.twoPow 64 n := by
    have hall : ∀ k ≤ 7, argumentNumber.getD k 0 = BitVec.twoPow 64 k := by decide
    exact hall n hn
  have hpower : BitVec.twoPow 64 n ≠ 0#64 := by
    have hall : ∀ k ≤ 7, BitVec.twoPow 64 k ≠ 0#64 := by decide
    exact hall n hn
  rw [has, hflag, BitVec.and_twoPow]
  cases type.getLsbD n with
  | false => rfl
  | true => simpa using hpower

theorem checkArgs_iff (type : Flags) (args : Args) :
    checkArgs type args.nelts = true ↔ Admits type args.params.length := by
  rw [checkArgs, Admits, Args.nelts, Nat.add_sub_cancel]
  split
  · simp
  split
  · simp
  split
  · simp [Nat.one_le_iff_ne_zero]
  split
  · simp
  split
  · rename_i hmax
    have hmany : ¬ args.params.length ≤ 7 := by
      rw [confMaxArgs] at hmax
      omega
    simp [hmany]
  · rename_i hmax
    have hfew : args.params.length ≤ 7 := by
      rw [confMaxArgs] at hmax
      omega
    rw [has_argumentNumber type hfew]
    simp [hfew]

/-- The handler chooses the configuration of the command. -/
theorem confPointer_eq (load : σ → ℕ → ℕ) (s : σ) (ctx : ℕ) (m : Module σ) (cmd : Command σ) :
    confPointer load s ctx m cmd = confFor load s ctx m cmd := by
  rw [confPointer, confFor]
  cases has cmd.type directConf with
  | true => rfl
  | false =>
      cases has cmd.type mainConf with
      | true => rfl
      | false =>
          by_cases hctx : ctx = 0
          · simp [entryAt, hctx]
          · by_cases htable : load s (ctx + cmd.conf) = 0
            · simp [entryAt, hctx, htable]
            · simp [entryAt, hctx, htable]

/-- The handler calls `set` for the directive, or fails. -/
theorem nightConfHandler_eq (load : σ → ℕ → ℕ) (modules : List (Module σ))
    (parse : Parser σ) (cf : NightConf) (args : Args) (block : Bool) (s : σ)
    (rest : List Token) :
    nightConfHandler load modules parse cf args block s rest =
      match callFor load modules cf.toContext s args block with
      | none => some ⟨.error, s, [], rest⟩
      | some call => callSet parse cf s rest call := by
  rw [nightConfHandler, moduleLoop_eq, callFor]
  cases firstFit modules cf.toContext args.name with
  | none => rfl
  | some entry =>
      obtain ⟨m, cmd⟩ := entry
      simp only [Option.map_some, handleCommand, confPointer_eq]
      have hargs := checkArgs_iff cmd.type args
      by_cases hadmits : Admits cmd.type args.params.length
      · rw [hargs.mpr hadmits]
        cases hblock : has cmd.type confBlock <;> cases block <;> simp [hadmits]
      · have hcheck : checkArgs cmd.type args.nelts = false := by
          rw [← Bool.not_eq_true, hargs]
          exact hadmits
        rw [hcheck]
        cases hblock : has cmd.type confBlock <;> cases block <;> simp [hadmits]

/-! ## The parser -/

section Parser

variable {load : σ → ℕ → ℕ} {modules : List (Module σ)} {ending : Ending}

@[simp]
theorem after_nil (reading : Reading σ) : reading.after [] = reading := rfl

@[simp]
theorem after_after (left right : List (Call σ)) (reading : Reading σ) :
    (reading.after right).after left = reading.after (left ++ right) := by
  rw [Reading.after, Reading.after, Reading.after, List.append_assoc]

/-- How the pass goes on where a parser has returned. -/
def resume (load : σ → ℕ → ℕ) (modules : List (Module σ)) (ending : Ending)
    (type : ParseType) (stack : List (Frame σ)) (cf : Context) (o : Outcome σ) : Reading σ :=
  match o.rc with
  | .error => ⟨false, o.state, []⟩
  | .ok =>
      if type = .block then interpret load modules ending (.blockDone :: o.rest) stack cf o.state
      else ⟨true, o.state, []⟩

/-- A parser that starts at `tokens` and returns `o` has done what the pass does. -/
structure Reads (load : σ → ℕ → ℕ) (modules : List (Module σ)) (ending : Ending)
    (type : ParseType) (cf : Context) (s : σ) (tokens : List Token) (o : Outcome σ) :
    Prop where
  rest : o.rest.length ≤ tokens.length
  pass : ∀ stack, (stack = [] ↔ type = .file) →
    interpret load modules ending tokens stack cf s =
      (resume load modules ending type stack cf o).after o.calls

/-- The parser reads every block of at most `bound` tokens. -/
def ReadsBlocks (load : σ → ℕ → ℕ) (modules : List (Module σ)) (ending : Ending)
    (bound : ℕ) (parse : Parser σ) : Prop :=
  ∀ cf : NightConf, cf.fd.isSome → ∀ s tokens, tokens.length ≤ bound →
    ∃ o, parse cf s tokens = some o ∧ Reads load modules ending .block cf.toContext s tokens o

/-- A call of `set` does what the pass does for its directive, with the whole block if it
opens one. -/
theorem callSet_spec {parse : Parser σ} {cf : NightConf} (hfd : cf.fd.isSome) {s : σ}
    {rest : List Token} {args : Args} {block : Bool} {call : Call σ}
    (hparse : ReadsBlocks load modules ending rest.length parse)
    (hcall : callFor load modules cf.toContext s args block = some call) :
    ∃ o, callSet parse cf s rest call = some o ∧ o.rest.length ≤ rest.length ∧
      ∀ stack, interpret load modules ending (.directive args block :: rest) stack
          cf.toContext s =
        (match o.rc with
          | .ok => interpret load modules ending o.rest stack cf.toContext o.state
          | .error => ⟨false, o.state, []⟩).after o.calls := by
  simp only [interpret, hcall]
  rw [callSet, enterSet]
  cases call.command.set with
  | plain set =>
      simp only
      cases hset : set cf.toContext call.args call.conf s with
      | mk result s₁ =>
          cases result with
          | error => exact ⟨_, rfl, Nat.le_refl _, fun _ => rfl⟩
          | ok => exact ⟨_, rfl, Nat.le_refl _, fun _ => rfl⟩
  | block enter leave =>
      simp only
      cases henter : enter cf.toContext call.args call.conf s with
      | mk result s₁ =>
          cases result with
          | error => exact ⟨_, rfl, Nat.le_refl _, fun _ => rfl⟩
          | ok inner =>
              obtain ⟨o, hrun, hrest, hpass⟩ :=
                hparse { cf with toContext := inner } hfd s₁ rest (Nat.le_refl _)
              simp only [hrun, Option.bind_eq_bind, Option.bind_some]
              have hbody := fun stack => hpass
                (⟨cf.toContext, inner, call.conf, leave⟩ :: stack) (by simp)
              simp only [resume] at hbody
              cases hrc : o.rc with
              | error =>
                  refine ⟨_, rfl, hrest, ?_⟩
                  intro stack
                  rw [hbody, hrc]
                  simp
              | ok =>
                  simp only [hrc, if_true, interpret] at hbody
                  simp only
                  cases hleave : leave cf.toContext inner call.conf o.state with
                  | mk result s₂ =>
                      simp only [hleave] at hbody
                      cases result with
                      | error =>
                          refine ⟨_, rfl, hrest, ?_⟩
                          intro stack
                          rw [hbody]
                          simp
                      | ok =>
                          refine ⟨_, rfl, hrest, ?_⟩
                          intro stack
                          rw [hbody]
                          simp

/-- The loop of the parser does what the pass does, and `fuel` is enough for it. -/
theorem parseLoop_spec {fuel : ℕ} {type : ParseType} (htype : type ≠ .param)
    {cf : NightConf} (hfd : cf.fd.isSome) {s : σ} {tokens : List Token}
    (hfuel : tokens.length < fuel) :
    ∃ o, parseLoop load modules ending fuel type cf s tokens = some o ∧
      Reads load modules ending type cf.toContext s tokens o := by
  induction fuel generalizing type cf s tokens with
  | zero => exact absurd hfuel (Nat.not_lt_zero _)
  | succ fuel ih =>
      cases tokens with
      | nil =>
          simp only [parseLoop]
          cases ending with
          | error =>
              exact ⟨_, rfl, Nat.le_refl _, fun _ _ => rfl⟩
          | fileDone =>
              by_cases hblock : type = .block
              · simp only [if_pos hblock]
                refine ⟨_, rfl, Nat.le_refl _, ?_⟩
                intro stack hstack
                have hopen : stack ≠ [] := by simp [hstack, hblock]
                simp [interpret, resume, hopen]
              · have hfile : type = .file := by
                  cases type <;> simp_all
                simp only [if_neg hblock]
                refine ⟨_, rfl, Nat.le_refl _, ?_⟩
                intro stack hstack
                simp [interpret, resume, hstack.mpr hfile, hblock]
      | cons token rest =>
          have hfuel' : rest.length < fuel := by simpa using hfuel
          cases token with
          | blockDone =>
              simp only [parseLoop]
              by_cases hblock : type = .block
              · simp only [hblock, ne_eq, not_true, if_false]
                refine ⟨_, rfl, Nat.le_succ _, ?_⟩
                intro stack _
                simp [resume]
              · have hfile : type = .file := by
                  cases type <;> simp_all
                simp only [ne_eq, hblock, not_false_eq_true, if_true]
                refine ⟨_, rfl, Nat.le_succ _, ?_⟩
                intro stack hstack
                simp [interpret, resume, hstack.mpr hfile]
          | directive args block =>
              have hparse : ReadsBlocks load modules ending rest.length
                  (fun cf => parseLoop load modules ending fuel (parseType cf) cf) := by
                intro cf hfd s tokens hlength
                have hblock : parseType cf = .block := if_pos hfd
                simp only [hblock]
                exact ih (by decide) hfd (by omega)
              simp only [parseLoop, htype, and_false, if_false, nightConfHandler_eq]
              cases hcall : callFor load modules cf.toContext s args block with
              | none =>
                  refine ⟨_, rfl, Nat.le_succ _, ?_⟩
                  intro stack _
                  simp only [interpret, hcall]
                  rfl
              | some call =>
                  obtain ⟨o, hset, hrest, hpass⟩ := callSet_spec hfd hparse hcall
                  simp only [hset, Option.bind_eq_bind, Option.bind_some]
                  cases hrc : o.rc with
                  | error =>
                      simp only [hrc] at hpass
                      refine ⟨o, rfl, Nat.le_succ_of_le hrest, ?_⟩
                      intro stack _
                      rw [hpass, resume, hrc]
                  | ok =>
                      simp only [hrc] at hpass
                      obtain ⟨o', hrun, hrest', hpass'⟩ :=
                        ih (s := o.state) htype hfd (Nat.lt_of_le_of_lt hrest hfuel')
                      simp only [hrun, Option.bind_some]
                      refine ⟨_, rfl, Nat.le_succ_of_le (Nat.le_trans hrest' hrest), ?_⟩
                      intro stack hstack
                      rw [hpass, hpass' stack hstack, after_after]
                      rfl

end Parser

/-! ## What is accepted -/

/-- No block ends outside a block and every block is closed, with `depth` blocks open. -/
def Balanced : List Token → ℕ → Prop
  | [], depth => depth = 0
  | .blockDone :: rest, depth =>
      match depth with
      | 0 => False
      | depth + 1 => Balanced rest depth
  | .directive _ block :: rest, depth => Balanced rest (if block then depth + 1 else depth)

/-- The words of the directives, in the order of the text. -/
def directives (tokens : List Token) : List Args :=
  tokens.filterMap fun
    | .directive args _ => some args
    | .blockDone => none

section Accepted

variable (load : σ → ℕ → ℕ) (modules : List (Module σ))

/-- For every directive the first command that fits exists, is a block exactly when the
directive opens one and admits the number of arguments, and its `set` function, which
for a block goes on where the block is closed, returns `NIGHT_CONF_OK`. -/
def Accepted : List Token → List (Frame σ) → Context → σ → Prop
  | [], _, _, _ => True
  | .blockDone :: rest, stack, _, s =>
      match stack with
      | [] => True
      | frame :: stack => ∃ s', frame.leave frame.outer frame.inner frame.conf s = (.ok (), s') ∧
          Accepted rest stack frame.outer s'
  | .directive args block :: rest, stack, cf, s =>
      ∃ m cmd, firstFit modules cf args.name = some (m, cmd) ∧
        has cmd.type confBlock = block ∧ Admits cmd.type args.params.length ∧
        match enterSet cf s ⟨m, cmd, args, confFor load s cf.ctx m cmd⟩ with
        | .done s => Accepted rest stack cf s
        | .opened frame s => Accepted rest (frame :: stack) frame.inner s
        | .failed _ => False

end Accepted

variable {load : σ → ℕ → ℕ} {modules : List (Module σ)} {ending : Ending}

theorem callFor_eq_some {cf : Context} {s : σ} {args : Args} {block : Bool} {call : Call σ} :
    callFor load modules cf s args block = some call ↔
      ∃ m cmd, firstFit modules cf args.name = some (m, cmd) ∧
        has cmd.type confBlock = block ∧ Admits cmd.type args.params.length ∧
        call = ⟨m, cmd, args, confFor load s cf.ctx m cmd⟩ := by
  rw [callFor]
  cases firstFit modules cf args.name with
  | none => simp
  | some entry =>
      obtain ⟨m, cmd⟩ := entry
      by_cases hfits : has cmd.type confBlock = block ∧ Admits cmd.type args.params.length
      · simp only [if_pos hfits, Option.some.injEq]
        constructor
        · intro hcall
          exact ⟨m, cmd, rfl, hfits.1, hfits.2, hcall.symm⟩
        · rintro ⟨m', cmd', hentry, -, -, hcall⟩
          obtain ⟨rfl, rfl⟩ := Prod.mk.inj hentry
          exact hcall.symm
      · simp only [if_neg hfits]
        constructor
        · intro hcall
          cases hcall
        · rintro ⟨m', cmd', hentry, hblock, hadmits, -⟩
          obtain ⟨rfl, rfl⟩ := Prod.mk.inj (Option.some.inj hentry)
          exact absurd ⟨hblock, hadmits⟩ hfits

/-- Only the commands of blocks open one. -/
theorem enterSet_block (cf : Context) (s : σ) (call : Call σ) :
    (∀ s', enterSet cf s call = .done s' → has call.command.type confBlock = false) ∧
      ∀ frame s', enterSet cf s call = .opened frame s' →
        has call.command.type confBlock = true := by
  rw [call.command.block, enterSet]
  cases call.command.set with
  | plain set =>
      refine ⟨fun _ _ => rfl, ?_⟩
      intro frame s' henter
      simp only at henter
      split at henter <;> cases henter
  | block enter leave =>
      refine ⟨?_, fun _ _ _ => rfl⟩
      intro s' henter
      simp only at henter
      split at henter <;> cases henter

theorem accepted_directive {args : Args} {block : Bool} {rest : List Token}
    {stack : List (Frame σ)} {cf : Context} {s : σ} :
    Accepted load modules (.directive args block :: rest) stack cf s ↔
      ∃ call, callFor load modules cf s args block = some call ∧
        match enterSet cf s call with
        | .done s => Accepted load modules rest stack cf s
        | .opened frame s => Accepted load modules rest (frame :: stack) frame.inner s
        | .failed _ => False := by
  rw [Accepted]
  constructor
  · rintro ⟨m, cmd, hfirst, hblock, hadmits, hset⟩
    exact ⟨_, callFor_eq_some.mpr ⟨m, cmd, hfirst, hblock, hadmits, rfl⟩, hset⟩
  · rintro ⟨call, hcall, hset⟩
    obtain ⟨m, cmd, hfirst, hblock, hadmits, rfl⟩ := callFor_eq_some.mp hcall
    exact ⟨m, cmd, hfirst, hblock, hadmits, hset⟩

/-- The pass accepts exactly the balanced files whose directives are all accepted. -/
theorem accepted_iff (tokens : List Token) (stack : List (Frame σ)) (cf : Context) (s : σ) :
    (interpret load modules ending tokens stack cf s).accepted = true ↔
      ending = .fileDone ∧ Balanced tokens stack.length ∧
        Accepted load modules tokens stack cf s := by
  induction tokens generalizing stack cf s with
  | nil => cases ending <;> cases stack <;> simp [interpret, Balanced, Accepted]
  | cons token rest ih =>
      cases token with
      | blockDone =>
          cases stack with
          | nil => simp [interpret, Balanced]
          | cons frame stack =>
              simp only [interpret, Balanced, Accepted, List.length_cons]
              cases hleave : frame.leave frame.outer frame.inner frame.conf s with
              | mk result s' =>
                  cases result with
                  | error => simp
                  | ok => simp [ih]
      | directive args block =>
          rw [accepted_directive]
          simp only [interpret, Balanced]
          cases hcall : callFor load modules cf s args block with
          | none => simp
          | some call =>
              obtain ⟨m, cmd, -, hblock, -, rfl⟩ := callFor_eq_some.mp hcall
              obtain ⟨hdone, hopened⟩ := enterSet_block cf s
                ⟨m, cmd, args, confFor load s cf.ctx m cmd⟩
              simp only [hblock] at hdone hopened
              simp only [Option.some.injEq, exists_eq_left']
              cases henter : enterSet cf s ⟨m, cmd, args, confFor load s cf.ctx m cmd⟩ with
              | done s' =>
                  simp [Reading.after, ih, hdone s' henter]
              | opened frame s' =>
                  simp [Reading.after, ih, hopened frame s' henter]
              | failed s' => simp

variable (load modules ending) in
/-- `set` is called once for every directive in the order of the text, up to the first
failure. -/
theorem calls_prefix (tokens : List Token) (stack : List (Frame σ)) (cf : Context) (s : σ) :
    (interpret load modules ending tokens stack cf s).calls.map Call.args <+:
        directives tokens ∧
      ((interpret load modules ending tokens stack cf s).accepted = true →
        (interpret load modules ending tokens stack cf s).calls.map Call.args =
          directives tokens) := by
  induction tokens generalizing stack cf s with
  | nil => exact ⟨List.nil_prefix, fun _ => rfl⟩
  | cons token rest ih =>
      cases token with
      | blockDone =>
          have hsame : directives (.blockDone :: rest) = directives rest := rfl
          rw [hsame]
          cases stack with
          | nil => simp [interpret]
          | cons frame stack =>
              simp only [interpret]
              cases hleave : frame.leave frame.outer frame.inner frame.conf s with
              | mk result s' =>
                  cases result with
                  | error => simp
                  | ok => exact ih stack frame.outer s'
      | directive args block =>
          have hcons : directives (.directive args block :: rest) = args :: directives rest :=
            rfl
          rw [hcons]
          simp only [interpret]
          cases hcall : callFor load modules cf s args block with
          | none => simp
          | some call =>
              obtain ⟨m, cmd, -, -, -, rfl⟩ := callFor_eq_some.mp hcall
              simp only
              cases henter : enterSet cf s ⟨m, cmd, args, confFor load s cf.ctx m cmd⟩ with
              | done s' =>
                  obtain ⟨hfront, hall⟩ := ih stack cf s'
                  simp only [Reading.after, List.cons_append, List.nil_append, List.map_cons]
                  exact ⟨List.cons_prefix_cons.mpr ⟨rfl, hfront⟩,
                    fun haccepted => congrArg _ (hall haccepted)⟩
              | opened frame s' =>
                  obtain ⟨hfront, hall⟩ := ih (frame :: stack) frame.inner s'
                  simp only [Reading.after, List.cons_append, List.nil_append, List.map_cons]
                  exact ⟨List.cons_prefix_cons.mpr ⟨rfl, hfront⟩,
                    fun haccepted => congrArg _ (hall haccepted)⟩
              | failed s' => simp

/-- Parsing a file succeeds exactly when its directives are balanced and all accepted, and
calls `set` as the pass over its tokens does. -/
theorem nightConfParse_eq (load : σ → ℕ → ℕ) (modules : List (Module σ)) (cf : NightConf)
    (s : σ) (file : File) :
    ∃ o, nightConfParse load modules cf s file = some o ∧
      (o.rc = .ok ↔ file.ending = .fileDone ∧ Balanced file.tokens 0 ∧
        Accepted load modules file.tokens [] cf.toContext s) ∧
      o.calls = (interpret load modules file.ending file.tokens [] cf.toContext s).calls ∧
      o.calls.map Call.args <+: directives file.tokens ∧
      (o.rc = .ok → o.calls.map Call.args = directives file.tokens) := by
  have hfd : ({ cf with fd := some file.fd } : NightConf).fd.isSome := rfl
  obtain ⟨o, hrun, hreads⟩ : ∃ o, nightConfParse load modules cf s file = some o ∧
      Reads load modules file.ending .file cf.toContext s file.tokens o :=
    parseLoop_spec (by decide) hfd (Nat.lt_succ_self _)
  have hread := hreads.pass [] (by simp)
  have hcalls : (interpret load modules file.ending file.tokens [] cf.toContext s).calls =
      o.calls := by
    rw [hread, resume]
    cases o.rc <;> simp [Reading.after]
  have haccepted : o.rc = .ok ↔
      (interpret load modules file.ending file.tokens [] cf.toContext s).accepted = true := by
    rw [hread, resume]
    cases o.rc <;> simp [Reading.after]
  obtain ⟨hfront, hall⟩ := calls_prefix load modules file.ending file.tokens [] cf.toContext s
  rw [hcalls] at hfront hall
  refine ⟨o, hrun, haccepted.trans (accepted_iff file.tokens [] cf.toContext s), hcalls.symm,
    hfront, ?_⟩
  intro hok
  exact hall (haccepted.mp hok)

end Night.Conf
