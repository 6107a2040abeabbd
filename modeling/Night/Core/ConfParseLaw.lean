import Night.Core.ConfParse

/-!
# What `night_conf_parse` accepts

The parser passes every error of the tokenizer and of a `set` function on, but a brace in the
wrong place does not count as one, and neither does a return other than `NIGHT_ERROR`.
-/

namespace Night.ConfFile

open Night.Bytes
open Night.Refill

variable {σ ρ : Type}

/-! ## Reads in a row -/

section Reads

variable (read : ρ → Option (Token × ρ))

/-- The reads of the parser one after the other. -/
inductive Reads : ρ → List Token → ρ → Prop where
  | nil (b : ρ) : Reads b [] b
  | cons {b b1 b2 : ρ} {tok : Token} {toks : List Token} (hread : read b = some (tok, b1))
      (hrest : Reads b1 toks b2) : Reads b (tok :: toks) b2

variable {read}

theorem Reads.append {b b1 b2 : ρ} {toks more : List Token} (hfirst : Reads read b toks b1)
    (hmore : Reads read b1 more b2) : Reads read b (toks ++ more) b2 := by
  induction hfirst with
  | nil b => exact hmore
  | cons hread _ ih => exact Reads.cons hread (ih hmore)

/-- The reader alone decides what is read. -/
theorem Reads.prefix_of_length_le {b b1 b2 : ρ} {toks others : List Token}
    (htoks : Reads read b toks b1) (hothers : Reads read b others b2)
    (hlength : toks.length ≤ others.length) : toks <+: others := by
  induction htoks generalizing others with
  | nil b => exact List.nil_prefix
  | cons hread _ ih =>
      cases hothers with
      | nil => simp at hlength
      | cons hread' hrest' =>
          rw [hread] at hread'
          obtain ⟨rfl, rfl⟩ := Prod.mk.inj (Option.some.inj hread')
          have hshort := Nat.le_of_succ_le_succ hlength
          exact List.cons_prefix_cons.mpr ⟨rfl, ih hrest' hshort⟩

/-- At the end of the file a reader stays there. -/
def StopsAtEnd (read : ρ → Option (Token × ρ)) : Prop :=
  ∀ b b', read b = some (.fileDone, b') → read b' = some (.fileDone, b')

theorem reads_fileDone (hstop : StopsAtEnd read) {b b' : ρ}
    (hread : read b = some (.fileDone, b')) (n : ℕ) :
    Reads read b (List.replicate (n + 1) .fileDone) b' := by
  induction n generalizing b with
  | zero => exact Reads.cons hread (Reads.nil b')
  | succ n ih => exact Reads.cons hread (ih (hstop b b' hread))

end Reads

/-! ## A run of the parser -/

/-- A run of the parser without the state: what a `set` function returns is arbitrary. -/
inductive Parsed (read : ρ → Option (Token × ρ)) :
    ParseType → ρ → ℤ → ρ → List Event → Prop where
  | bad {type : ParseType} {b b1 : ρ} (hread : read b = some (.error, b1)) :
      Parsed read type b nightError b1 [.bad]
  | blockDone {type : ParseType} {b b1 : ρ} (hread : read b = some (.blockDone, b1)) :
      Parsed read type b nightOk b1 [.blockDone (type = .block)]
  | fileDone {type : ParseType} {b b1 : ρ} (hread : read b = some (.fileDone, b1)) :
      Parsed read type b nightOk b1 [.fileDone (type = .block)]
  | unknown {type : ParseType} {b b1 : ρ} {args : Args} {block : Bool}
      (hread : read b = some (.directive args block, b1)) :
      Parsed read type b nightError b1 [.unknown args block]
  | flatStop {type : ParseType} {b b1 : ρ} {args : Args} {block : Bool}
      (hread : read b = some (.directive args block, b1)) :
      Parsed read type b nightError b1 [.call args block none nightError]
  | flatGo {type : ParseType} {b b1 b2 : ρ} {args : Args} {block : Bool} {code code' : ℤ}
      {log : List Event} (hread : read b = some (.directive args block, b1))
      (hcode : code ≠ nightError) (hrest : Parsed read type b1 code' b2 log) :
      Parsed read type b code' b2 (.call args block none code :: log)
  | nestStop {type : ParseType} {b b1 b2 : ρ} {args : Args} {block : Bool} {parsed : ℤ}
      {nested : List Event} (hread : read b = some (.directive args block, b1))
      (hnested : Parsed read .block b1 parsed b2 nested) :
      Parsed read type b nightError b2 (.call args block (some parsed) nightError :: nested)
  | nestGo {type : ParseType} {b b1 b2 b3 : ρ} {args : Args} {block : Bool}
      {parsed code code' : ℤ} {nested log : List Event}
      (hread : read b = some (.directive args block, b1))
      (hnested : Parsed read .block b1 parsed b2 nested) (hcode : code ≠ nightError)
      (hrest : Parsed read type b2 code' b3 log) :
      Parsed read type b code' b3
        (.call args block (some parsed) code :: (nested ++ log))

/-- What a call of the handler does: no command, a `set` function that does not call the
parser, or one that does. -/
theorem handler_cases {env : Env σ} {parse : Parser σ ρ} {args : Args} {block : Bool} {s : σ}
    {b : ρ} {out : Outcome σ ρ} (hhandler : nightConfHandler env parse args block s b = some out) :
    (out.code = nightError ∧ out.reader = b ∧ out.log = [.unknown args block]) ∨
      (out.reader = b ∧ out.log = [.call args block none out.code]) ∨
      ∃ s' parsed, parse s' b = some parsed ∧ out.reader = parsed.reader ∧
        out.log = .call args block (some parsed.code) out.code :: parsed.log := by
  unfold nightConfHandler at hhandler
  split at hhandler
  · rename_i m cmd _
    right
    unfold callSet at hhandler
    split at hhandler
    · left
      cases hhandler
      exact ⟨rfl, rfl⟩
    · split at hhandler
      · left
        cases hhandler
        exact ⟨rfl, rfl⟩
      · rename_i s' _
        right
        obtain ⟨parsed, hparsed, hout⟩ := Option.bind_eq_some_iff.mp hhandler
        cases hout
        exact ⟨s', parsed, hparsed, rfl, rfl⟩
  · left
    cases hhandler
    exact ⟨rfl, rfl, rfl⟩

theorem parseLoop_parsed {env : Env σ} {read : ρ → Option (Token × ρ)} {fuel : ℕ}
    {type : ParseType} {s : σ} {b : ρ} {out : Outcome σ ρ}
    (hparse : parseLoop env read fuel type s b = some out) :
    Parsed read type b out.code out.reader out.log := by
  induction fuel generalizing type s b out with
  | zero => cases hparse
  | succ fuel ih =>
      rw [parseLoop] at hparse
      split at hparse
      · cases hparse
      · rename_i hread
        cases hparse
        exact Parsed.bad hread
      · rename_i hread
        cases hparse
        exact Parsed.blockDone hread
      · rename_i hread
        cases hparse
        exact Parsed.fileDone hread
      · rename_i args block b1 hread
        obtain ⟨handled, hhandled, hparse⟩ := Option.bind_eq_some_iff.mp hparse
        obtain ⟨hcode, hreader, hlog⟩ | ⟨hreader, hlog⟩ | ⟨s', nested, hnested, hreader, hlog⟩ :=
          handler_cases hhandled
        · rw [if_pos hcode] at hparse
          cases hparse
          rw [hcode, hreader, hlog]
          exact Parsed.unknown hread
        · by_cases hcode : handled.code = nightError
          · rw [if_pos hcode] at hparse
            cases hparse
            rw [hcode] at hlog ⊢
            rw [hreader, hlog]
            exact Parsed.flatStop hread
          · rw [if_neg hcode] at hparse
            obtain ⟨rest, hrest, hparse⟩ := Option.bind_eq_some_iff.mp hparse
            cases hparse
            rw [hreader] at hrest
            rw [hlog]
            exact Parsed.flatGo hread hcode (ih hrest)
        · by_cases hcode : handled.code = nightError
          · rw [if_pos hcode] at hparse
            cases hparse
            rw [hcode] at hlog ⊢
            rw [hlog, hreader]
            exact Parsed.nestStop hread (ih hnested)
          · rw [if_neg hcode] at hparse
            obtain ⟨rest, hrest, hparse⟩ := Option.bind_eq_some_iff.mp hparse
            cases hparse
            rw [hreader] at hrest
            rw [hlog]
            exact Parsed.nestGo hread (ih hnested) hcode (ih hrest)

/-! ## What a run reads, and with which code it ends -/

def Event.token : Event → Token
  | .call args block _ _ => .directive args block
  | .unknown args block => .directive args block
  | .blockDone _ => .blockDone
  | .fileDone _ => .fileDone
  | .bad => .error

/-- The tokens of a log. -/
def tokens (log : List Event) : List Token := log.map Event.token

theorem tokens_append (log more : List Event) : tokens (log ++ more) = tokens log ++ tokens more :=
  List.map_append

variable {read : ρ → Option (Token × ρ)} {type : ParseType} {b b' : ρ} {code : ℤ}
  {log : List Event}

/-- A log has every read in it, in order. -/
theorem Parsed.reads (hparsed : Parsed read type b code b' log) : Reads read b (tokens log) b' := by
  induction hparsed with
  | bad hread => exact Reads.cons hread (Reads.nil _)
  | blockDone hread => exact Reads.cons hread (Reads.nil _)
  | fileDone hread => exact Reads.cons hread (Reads.nil _)
  | unknown hread => exact Reads.cons hread (Reads.nil _)
  | flatStop hread => exact Reads.cons hread (Reads.nil _)
  | flatGo hread _ _ ih => exact Reads.cons hread ih
  | nestStop hread _ ih => exact Reads.cons hread ih
  | nestGo hread _ _ _ ihNested ihRest =>
      apply Reads.cons hread
      have happend := ihNested.append ihRest
      rw [← tokens_append] at happend
      exact happend

/-- An event that is an error on its own. -/
def Event.Fails : Event → Prop
  | .call _ _ _ code => code = nightError
  | .unknown _ _ | .bad => True
  | .blockDone _ | .fileDone _ => False

/-- Errors do not come from nowhere. -/
theorem Parsed.exists_fails (hparsed : Parsed read type b code b' log)
    (herror : code = nightError) : ∃ event ∈ log, event.Fails := by
  induction hparsed with
  | bad | unknown => exact ⟨_, List.mem_cons_self, trivial⟩
  | flatStop | nestStop => exact ⟨_, List.mem_cons_self, rfl⟩
  | blockDone | fileDone => exact absurd herror (by decide)
  | flatGo _ _ _ ih =>
      obtain ⟨event, hmem, hfails⟩ := ih herror
      exact ⟨event, List.mem_cons_of_mem _ hmem, hfails⟩
  | nestGo _ _ _ _ _ ihRest =>
      obtain ⟨event, hmem, hfails⟩ := ihRest herror
      exact ⟨event, List.mem_cons_of_mem _ (List.mem_append_right _ hmem), hfails⟩

/-! ## Acceptance -/

/-- The depth of the braces behind some tokens, when nothing but directives and the ends of
blocks is among them and no brace closes what is not open. -/
def balance : ℕ → List Token → Option ℕ
  | depth, [] => some depth
  | depth, .directive _ block :: toks => balance (if block then depth + 1 else depth) toks
  | depth, .blockDone :: toks => if depth = 0 then none else balance (depth - 1) toks
  | _, .fileDone :: _ => none
  | _, .error :: _ => none

def directives : List Token → List Args
  | [] => []
  | .directive args _ :: toks => args :: directives toks
  | _ :: toks => directives toks

/-- The directives that were handed to a `set` function, and what it returned. -/
def calls : List Event → List (Args × ℤ)
  | [] => []
  | .call args _ _ code :: log => (args, code) :: calls log
  | _ :: log => calls log

/-- The text up to its end has balanced braces, and each of its directives was handed to a
`set` function that returned `NIGHT_OK`, in order and once. -/
def Accepted (read : ρ → Option (Token × ρ)) (b : ρ) (log : List Event) : Prop :=
  ∃ toks b1 b2, Reads read b toks b1 ∧ read b1 = some (.fileDone, b2) ∧
    balance 0 toks = some 0 ∧ calls log = (directives toks).map fun args => (args, nightOk)

/-- A directive ends with a brace exactly when its `set` function calls the parser. -/
def Event.Fits : Event → Prop
  | .call _ block parsed _ => block = parsed.isSome
  | _ => True

/-- No brace and no end of the file where it does not belong, no `set` function that returns
something else than the two codes, and none that keeps an error of the parser to itself. -/
def Event.Careful : Event → Prop
  | .call _ _ parsed code =>
      (code = nightOk ∨ code = nightError) ∧ (parsed = some nightError → code = nightError)
  | .blockDone inBlock => inBlock = true
  | .fileDone inBlock => inBlock = false
  | .unknown _ _ | .bad => True

/-! ## Depths -/

theorem balance_append (depth : ℕ) (toks more : List Token) :
    balance depth (toks ++ more) = (balance depth toks).bind fun inner => balance inner more := by
  induction toks generalizing depth with
  | nil => rfl
  | cons tok toks ih =>
      cases tok with
      | directive args block => exact ih _
      | blockDone =>
          by_cases hzero : depth = 0
          · simp [balance, hzero]
          · simp [balance, hzero, ih]
      | fileDone => rfl
      | error => rfl

theorem not_mem_of_balance {depth inner : ℕ} {toks : List Token}
    (hbalance : balance depth toks = some inner) :
    Token.fileDone ∉ toks ∧ Token.error ∉ toks := by
  constructor
  all_goals
    intro hmem
    obtain ⟨before, behind, rfl⟩ := List.append_of_mem hmem
    rw [balance_append] at hbalance
    obtain ⟨middle, _, hnone⟩ := Option.bind_eq_some_iff.mp hbalance
    cases hnone

theorem directives_append (toks more : List Token) :
    directives (toks ++ more) = directives toks ++ directives more := by
  induction toks with
  | nil => rfl
  | cons tok toks ih =>
      cases tok with
      | directive args block => exact congrArg (args :: ·) ih
      | blockDone | fileDone | error => exact ih

/-- No error, every directive fits and is accepted. -/
def Event.Regular : Event → Prop
  | .call _ block parsed code =>
      block = parsed.isSome ∧ code = nightOk ∧ parsed ≠ some nightError
  | .blockDone _ | .fileDone _ => True
  | .unknown _ _ | .bad => False

/-- The braces and the end of the file are where they belong. -/
def Event.InPlace : Event → Prop
  | .blockDone inBlock => inBlock = true
  | .fileDone inBlock => inBlock = false
  | .call _ _ _ _ | .unknown _ _ | .bad => True

/-- A run at `depth` that ends with a closing brace; that is in place unless the run is that
of the file. -/
def ClosesAt (depth : ℕ) (log : List Event) : Prop :=
  ∃ toks, tokens log = toks ++ [.blockDone] ∧ balance depth toks = some depth ∧
    ((∀ event ∈ log, event.InPlace) ↔ depth ≠ 0)

/-- A run at `depth` in which the file ends; that is in place where no brace is open. -/
def RunsOutAt (depth : ℕ) (log : List Event) : Prop :=
  ∃ toks behind inner, tokens log = toks ++ .fileDone :: behind ∧
    balance depth toks = some inner ∧ depth ≤ inner ∧
      ((∀ event ∈ log, event.InPlace) ↔ inner = 0)

theorem closesAt_cons {depth : ℕ} {args : Args} (hcloses : ClosesAt depth log) :
    ClosesAt depth (.call args false none nightOk :: log) := by
  obtain ⟨toks, htokens, hbalance, hplace⟩ := hcloses
  refine ⟨.directive args false :: toks, congrArg (Token.directive args false :: ·) htokens,
    hbalance, ?_⟩
  rw [List.forall_mem_cons]
  exact ⟨fun h => hplace.mp h.2, fun h => ⟨trivial, hplace.mpr h⟩⟩

theorem runsOutAt_cons {depth : ℕ} {args : Args} (hruns : RunsOutAt depth log) :
    RunsOutAt depth (.call args false none nightOk :: log) := by
  obtain ⟨toks, behind, inner, htokens, hbalance, hle, hplace⟩ := hruns
  refine ⟨.directive args false :: toks, behind, inner,
    congrArg (Token.directive args false :: ·) htokens, hbalance, hle, ?_⟩
  rw [List.forall_mem_cons]
  exact ⟨fun h => hplace.mp h.2, fun h => ⟨trivial, hplace.mpr h⟩⟩

/-- Where a block ends with its brace, the balance behind the block is that before it. -/
theorem balance_block {depth : ℕ} {args : Args} {body : List Token}
    (hbody : balance (depth + 1) body = some (depth + 1)) (toks : List Token) :
    balance depth (.directive args true :: (body ++ .blockDone :: toks)) = balance depth toks := by
  change balance (depth + 1) (body ++ .blockDone :: toks) = _
  rw [balance_append, hbody]
  rfl

theorem nested_forall_inPlace {args : Args} {parsed : Option ℤ} {nested : List Event} :
    (∀ event ∈ .call args true parsed nightOk :: (nested ++ log), event.InPlace) ↔
      (∀ event ∈ nested, event.InPlace) ∧ ∀ event ∈ log, event.InPlace := by
  rw [List.forall_mem_cons, List.forall_mem_append]
  exact and_iff_right trivial

theorem tokens_nest {args : Args} {parsed : Option ℤ} {nested : List Event} {body toks : List Token}
    (hbody : tokens nested = body ++ [.blockDone]) (htokens : tokens log = toks) :
    tokens (.call args true parsed nightOk :: (nested ++ log)) =
      .directive args true :: (body ++ .blockDone :: toks) := by
  change Token.directive args true :: tokens (nested ++ log) = _
  rw [tokens_append, hbody, htokens, List.append_assoc, List.singleton_append]

/-- A block that ends with its brace, and what follows. -/
theorem closesAt_nest {depth : ℕ} {args : Args} {parsed : ℤ} {nested : List Event}
    (hnested : ClosesAt (depth + 1) nested) (hcloses : ClosesAt depth log) :
    ClosesAt depth (.call args true (some parsed) nightOk :: (nested ++ log)) := by
  obtain ⟨body, hbody, hbalance, hinner⟩ := hnested
  obtain ⟨toks, htokens, hrest, hplace⟩ := hcloses
  refine ⟨.directive args true :: (body ++ .blockDone :: toks), ?_, ?_, ?_⟩
  · rw [tokens_nest hbody htokens, List.cons_append, List.append_assoc, List.cons_append]
  · rw [balance_block hbalance]
    exact hrest
  · rw [nested_forall_inPlace, hplace]
    exact and_iff_right (hinner.mpr (Nat.succ_ne_zero depth))

theorem runsOutAt_nest {depth : ℕ} {args : Args} {parsed : ℤ} {nested : List Event}
    (hnested : ClosesAt (depth + 1) nested) (hruns : RunsOutAt depth log) :
    RunsOutAt depth (.call args true (some parsed) nightOk :: (nested ++ log)) := by
  obtain ⟨body, hbody, hbalance, hinner⟩ := hnested
  obtain ⟨toks, behind, inner, htokens, hrest, hle, hplace⟩ := hruns
  refine ⟨.directive args true :: (body ++ .blockDone :: toks), behind, inner, ?_, ?_, hle, ?_⟩
  · rw [tokens_nest hbody htokens, List.cons_append, List.append_assoc, List.cons_append]
  · rw [balance_block hbalance]
    exact hrest
  · rw [nested_forall_inPlace, hplace]
    exact and_iff_right (hinner.mpr (Nat.succ_ne_zero depth))

/-- A block in which the file ends: the file stays at its end, inside of a brace. -/
theorem runsOutAt_inside {depth : ℕ} {args : Args} {parsed : ℤ} {nested : List Event}
    (hnested : RunsOutAt (depth + 1) nested) :
    RunsOutAt depth (.call args true (some parsed) nightOk :: (nested ++ log)) := by
  obtain ⟨toks, behind, inner, htokens, hbalance, hle, hinner⟩ := hnested
  have hopen : inner ≠ 0 := by omega
  refine ⟨.directive args true :: toks, behind ++ tokens log, inner, ?_, hbalance, by omega, ?_⟩
  · change Token.directive args true :: tokens (nested ++ log) = _
    rw [tokens_append, htokens]
    simp
  · rw [nested_forall_inPlace, hinner]
    exact ⟨fun h => h.1, fun h => absurd h hopen⟩

/-- A run without errors closes its block or runs out of tokens.  The induction is on the
run; inside a block the depth is one more. -/
theorem Parsed.closes_or_runsOut (hparsed : Parsed read type b code b' log)
    (hregular : ∀ event ∈ log, event.Regular) {depth : ℕ} (hdepth : depth = 0 ↔ type = .file) :
    ClosesAt depth log ∨ RunsOutAt depth log := by
  induction hparsed generalizing depth with
  | bad | unknown => exact absurd (hregular _ List.mem_cons_self) id
  | flatStop | nestStop =>
      exact absurd (hregular _ List.mem_cons_self).2.1 (by decide)
  | @blockDone type _ _ _ =>
      refine Or.inl ⟨[], rfl, rfl, ?_⟩
      rw [List.forall_mem_singleton, Event.InPlace, decide_eq_true_iff, Ne, hdepth]
      cases type <;> decide
  | @fileDone type _ _ _ =>
      refine Or.inr ⟨[], [], depth, rfl, rfl, Nat.le_refl depth, ?_⟩
      rw [List.forall_mem_singleton, Event.InPlace, decide_eq_false_iff_not, hdepth]
      cases type <;> decide
  | flatGo hread hcode hrest ih =>
      obtain ⟨⟨hfits, hok, _⟩, houter⟩ := List.forall_mem_cons.mp hregular
      cases hfits
      cases hok
      exact (ih houter hdepth).imp closesAt_cons runsOutAt_cons
  | nestGo hread hnested hcode hrest ihNested ihRest =>
      obtain ⟨⟨hfits, hok, _⟩, hbehind⟩ := List.forall_mem_cons.mp hregular
      obtain ⟨hinner, houter⟩ := List.forall_mem_append.mp hbehind
      cases hfits
      cases hok
      have hdeeper : depth + 1 = 0 ↔ ParseType.block = .file := by simp
      obtain hcloses | hruns := ihNested hinner hdeeper
      · exact (ihRest houter hdepth).imp (closesAt_nest hcloses) (runsOutAt_nest hcloses)
      · exact Or.inr (runsOutAt_inside hruns)

/-! ## Accepted files -/

/-- A careful run with an error in it returns it. -/
theorem Parsed.error_of_fails (hparsed : Parsed read type b code b' log)
    (hcareful : ∀ event ∈ log, event.Careful) (hfails : ∃ event ∈ log, event.Fails) :
    code = nightError := by
  induction hparsed with
  | bad | unknown | flatStop | nestStop => rfl
  | blockDone | fileDone => simp [Event.Fails] at hfails
  | flatGo hread hcode hrest ih =>
      obtain ⟨_, hcareful⟩ := List.forall_mem_cons.mp hcareful
      exact ih hcareful ((List.exists_mem_cons_iff ..).mp hfails |>.resolve_left hcode)
  | nestGo hread hnested hcode hrest ihNested ihRest =>
      obtain ⟨⟨_, hpassed⟩, hcareful⟩ := List.forall_mem_cons.mp hcareful
      obtain ⟨hinner, houter⟩ := List.forall_mem_append.mp hcareful
      obtain ⟨event, hmem, hfails⟩ := (List.exists_mem_cons_iff ..).mp hfails |>.resolve_left hcode
      obtain hmem | hmem := List.mem_append.mp hmem
      · have herror := ihNested hinner ⟨event, hmem, hfails⟩
        exact absurd (hpassed (congrArg some herror)) hcode
      · exact ihRest houter ⟨event, hmem, hfails⟩

/-- Without errors no parser returned one. -/
theorem Parsed.parsed_ne_error (hparsed : Parsed read type b code b' log)
    (hnone : ∀ event ∈ log, ¬ event.Fails) {args : Args} {block : Bool} {parsed : Option ℤ}
    {returned : ℤ} (hmem : Event.call args block parsed returned ∈ log) :
    parsed ≠ some nightError := by
  induction hparsed with
  | bad | unknown | blockDone | fileDone => simp at hmem
  | flatStop | nestStop => exact absurd rfl (hnone _ List.mem_cons_self)
  | flatGo hread hcode hrest ih =>
      obtain ⟨_, hnone⟩ := List.forall_mem_cons.mp hnone
      obtain heq | hmem := List.mem_cons.mp hmem
      · cases heq
        simp
      · exact ih hnone hmem
  | nestGo hread hnested hcode hrest ihNested ihRest =>
      obtain ⟨_, hnone⟩ := List.forall_mem_cons.mp hnone
      obtain ⟨hinner, houter⟩ := List.forall_mem_append.mp hnone
      obtain heq | hmem := List.mem_cons.mp hmem
      · cases heq
        intro herror
        obtain ⟨event, hmem, hfails⟩ := hnested.exists_fails (Option.some.inj herror)
        exact hinner event hmem hfails
      · obtain hmem | hmem := List.mem_append.mp hmem
        · exact ihNested hinner hmem
        · exact ihRest houter hmem

/-- Where nothing fails every `set` function is asked about each directive that is read. -/
theorem calls_eq (hregular : ∀ event ∈ log, event.Regular) :
    calls log = (directives (tokens log)).map fun args => (args, nightOk) := by
  induction log with
  | nil => rfl
  | cons event log ih =>
      obtain ⟨hfirst, hrest⟩ := List.forall_mem_cons.mp hregular
      cases event with
      | call args block parsed code =>
          change (args, code) :: calls log = (args, nightOk) :: _
          rw [hfirst.2.1]
          exact congrArg _ (ih hrest)
      | unknown | bad => exact absurd hfirst id
      | blockDone | fileDone => exact ih hrest

theorem calls_append (log more : List Event) : calls (log ++ more) = calls log ++ calls more := by
  induction log with
  | nil => rfl
  | cons event log ih =>
      cases event with
      | call args block parsed code => exact congrArg ((args, code) :: ·) ih
      | unknown | bad | blockDone | fileDone => exact ih

theorem mem_calls {args : Args} {block : Bool} {parsed : Option ℤ} {returned : ℤ}
    (hmem : Event.call args block parsed returned ∈ log) : (args, returned) ∈ calls log := by
  obtain ⟨before, behind, rfl⟩ := List.append_of_mem hmem
  rw [calls_append]
  exact List.mem_append_right _ List.mem_cons_self

theorem calls_length_le (log : List Event) :
    (calls log).length ≤ (directives (tokens log)).length := by
  induction log with
  | nil => exact Nat.le_refl 0
  | cons event log ih =>
      cases event with
      | call args block parsed code => exact Nat.succ_le_succ ih
      | unknown args block => exact Nat.le_succ_of_le ih
      | bad | blockDone | fileDone => exact ih

/-- A directive without a command is not handed to a `set` function. -/
theorem calls_length_lt {args : Args} {block : Bool} (hmem : Event.unknown args block ∈ log) :
    (calls log).length < (directives (tokens log)).length := by
  obtain ⟨before, behind, rfl⟩ := List.append_of_mem hmem
  have hbefore := calls_length_le before
  have hbehind := calls_length_le behind
  rw [calls_append, tokens_append, directives_append, List.length_append, List.length_append]
  change _ + (calls behind).length < _ + ((directives (tokens behind)).length + 1)
  omega

theorem Reads.split {b2 : ρ} {toks behind : List Token} {tok : Token}
    (hreads : Reads read b (toks ++ tok :: behind) b2) :
    ∃ b1 b1', Reads read b toks b1 ∧ read b1 = some (tok, b1') ∧ Reads read b1' behind b2 := by
  induction toks generalizing b with
  | nil =>
      cases hreads with
      | cons hread hrest => exact ⟨b, _, Reads.nil b, hread, hrest⟩
  | cons first toks ih =>
      cases hreads with
      | cons hread hrest =>
          obtain ⟨b1, b1', hfirst, htok, hbehind⟩ := ih hrest
          exact ⟨b1, b1', Reads.cons hread hfirst, htok, hbehind⟩

theorem directives_replicate (n : ℕ) : directives (List.replicate n .fileDone) = [] := by
  induction n with
  | zero => rfl
  | succ n ih => exact ih

/-- Behind the end of the file nothing but the end of the file is read. -/
theorem directives_behind (hstop : StopsAtEnd read) {b1 b2 : ρ} {behind : List Token}
    (hend : read b = some (.fileDone, b1)) (hbehind : Reads read b behind b2) :
    directives behind = [] := by
  have hlength : behind.length ≤ (List.replicate (behind.length + 1) Token.fileDone).length := by
    rw [List.length_replicate]
    exact Nat.le_succ _
  obtain ⟨more, hmore⟩ :=
    hbehind.prefix_of_length_le (reads_fileDone hstop hend behind.length) hlength
  have hnil := congrArg directives hmore
  rw [directives_append, directives_replicate] at hnil
  exact (List.append_eq_nil_iff.mp hnil).1

/-- The tokens of a run, next to a text that is read to its end. -/
theorem Parsed.tokens_prefix (hstop : StopsAtEnd read)
    (hparsed : Parsed read type b code b' log) {toks : List Token} {b1 b2 : ρ}
    (hreads : Reads read b toks b1) (hend : read b1 = some (.fileDone, b2)) :
    tokens log <+: toks ++ List.replicate ((tokens log).length + 1) .fileDone := by
  apply hparsed.reads.prefix_of_length_le (hreads.append (reads_fileDone hstop hend _))
  rw [List.length_append, List.length_replicate]
  omega

/-- In an accepted text nothing fails. -/
theorem not_fails_of_accepted (hstop : StopsAtEnd read)
    (hparsed : Parsed read type b code b' log) (haccepted : Accepted read b log) :
    ∀ event ∈ log, ¬ event.Fails := by
  obtain ⟨toks, b1, b2, hreads, hend, hbalance, hcalls⟩ := haccepted
  obtain ⟨more, hmore⟩ := hparsed.tokens_prefix hstop hreads hend
  intro event hmem hfails
  cases event with
  | call args block parsed returned =>
      have hcall := mem_calls hmem
      rw [hcalls] at hcall
      obtain ⟨_, _, heq⟩ := List.mem_map.mp hcall
      have hok : returned = nightOk := (Prod.mk.inj heq).2.symm
      rw [Event.Fails, hok] at hfails
      exact absurd hfails (by decide)
  | unknown args block =>
      have hlt := calls_length_lt hmem
      have hdirectives := congrArg directives hmore
      rw [directives_append, directives_append, directives_replicate,
        List.append_nil] at hdirectives
      have hlength := congrArg List.length hdirectives
      rw [List.length_append] at hlength
      rw [hcalls, List.length_map] at hlt
      omega
  | bad =>
      have htoken : Token.error ∈ tokens log := List.mem_map_of_mem hmem
      have herror : Token.error ∈ tokens log ++ more := List.mem_append_left more htoken
      rw [hmore] at herror
      obtain hmem | hmem := List.mem_append.mp herror
      · exact (not_mem_of_balance hbalance).2 hmem
      · cases List.eq_of_mem_replicate hmem
  | blockDone | fileDone => exact hfails

/-- In an accepted text the braces are where they belong. -/
theorem inPlace_of_accepted (hstop : StopsAtEnd read)
    (hparsed : Parsed read .file b code b' log) (hregular : ∀ event ∈ log, event.Regular)
    (haccepted : Accepted read b log) : ∀ event ∈ log, event.InPlace := by
  obtain ⟨toks, b1, b2, hreads, hend, hbalance, _⟩ := haccepted
  obtain ⟨more, hmore⟩ := hparsed.tokens_prefix hstop hreads hend
  have hdone := (not_mem_of_balance hbalance).1
  rw [List.replicate_succ] at hmore
  have hdepth : 0 = 0 ↔ ParseType.file = .file := by simp
  obtain ⟨opened, hlog, hopened, _⟩ | ⟨opened, behind, inner, hlog, hopened, _, hplace⟩ :=
    hparsed.closes_or_runsOut hregular hdepth
  · exfalso
    have hread : opened ++ [.blockDone] <+: tokens log ++ more := by
      rw [hlog]
      exact List.prefix_append _ more
    have htext : toks ++ [.fileDone] <+: tokens log ++ more := by
      refine ⟨List.replicate (tokens log).length .fileDone, ?_⟩
      rw [hmore, ← List.append_cons]
    obtain hshort | hlong := List.prefix_or_prefix_of_prefix hread htext
    · obtain heq | hinside := List.prefix_concat_iff.mp hshort
      · cases (List.append_inj_right' heq rfl)
      · -- the brace closes nothing
        obtain ⟨rest, rfl⟩ := hinside
        rw [balance_append, balance_append, hopened] at hbalance
        cases hbalance
    · have hmem := hlong.subset (List.mem_append_right toks List.mem_cons_self)
      obtain hmem | hmem := List.mem_append.mp hmem
      · exact (not_mem_of_balance hopened).1 hmem
      · cases List.mem_singleton.mp hmem
  · rw [hlog, List.append_assoc] at hmore
    have hsame := append_delimiter_inj (not_mem_of_balance hopened).1 hdone hmore
    rw [hsame.1, hbalance] at hopened
    exact hplace.mpr (Option.some.inj hopened).symm

/-- A file is accepted rightly exactly when the run is careful, as long as the braces fit. -/
theorem Parsed.accepted_iff_careful (hstop : StopsAtEnd read)
    (hparsed : Parsed read .file b nightOk b' log) (hfits : ∀ event ∈ log, event.Fits) :
    Accepted read b log ↔ ∀ event ∈ log, event.Careful := by
  constructor
  · intro haccepted
    have hnone := not_fails_of_accepted hstop hparsed haccepted
    have hregular : ∀ event ∈ log, event.Regular := by
      intro event hmem
      cases event with
      | call args block parsed returned =>
          obtain ⟨toks, _, _, _, _, _, hcalls⟩ := haccepted
          have hcall := mem_calls hmem
          rw [hcalls] at hcall
          obtain ⟨_, _, heq⟩ := List.mem_map.mp hcall
          exact ⟨hfits _ hmem, (Prod.mk.inj heq).2.symm, hparsed.parsed_ne_error hnone hmem⟩
      | unknown | bad => exact hnone _ hmem trivial
      | blockDone | fileDone => trivial
    have hplace := inPlace_of_accepted hstop hparsed hregular haccepted
    intro event hmem
    cases event with
    | call args block parsed returned =>
        obtain ⟨_, hok, hne⟩ := hregular _ hmem
        exact ⟨Or.inl hok, fun herror => absurd herror hne⟩
    | unknown | bad => trivial
    | blockDone | fileDone => exact hplace _ hmem
  · intro hcareful
    have hnone : ∀ event ∈ log, ¬ event.Fails := by
      intro event hmem hfails
      have herror := hparsed.error_of_fails hcareful ⟨event, hmem, hfails⟩
      exact absurd herror (by decide)
    have hregular : ∀ event ∈ log, event.Regular := by
      intro event hmem
      cases event with
      | call args block parsed returned =>
          have hok := (hcareful _ hmem).1.resolve_right (hnone _ hmem)
          exact ⟨hfits _ hmem, hok, hparsed.parsed_ne_error hnone hmem⟩
      | unknown | bad => exact hnone _ hmem trivial
      | blockDone | fileDone => trivial
    have hplace : ∀ event ∈ log, event.InPlace := by
      intro event hmem
      cases event with
      | call | unknown | bad => trivial
      | blockDone | fileDone => exact hcareful _ hmem
    have hdepth : 0 = 0 ↔ ParseType.file = .file := by simp
    obtain ⟨_, _, _, hopen⟩ | ⟨toks, behind, inner, hlog, hbalance, _, hinner⟩ :=
      hparsed.closes_or_runsOut hregular hdepth
    · exact absurd rfl (hopen.mp hplace)
    · rw [hinner.mp hplace] at hbalance
      have hreads := hparsed.reads
      rw [hlog] at hreads
      obtain ⟨b1, b2, hfirst, hend, hbehind⟩ := hreads.split
      refine ⟨toks, b1, b2, hfirst, hend, hbalance, ?_⟩
      have hnil := directives_behind hstop (hstop _ _ hend) hbehind
      rw [calls_eq hregular, hlog, directives_append]
      change (directives toks ++ directives behind).map _ = _
      rw [hnil, List.append_nil]

/-! ## The reader of a file -/

section Reader

/-- A code that a call of the reader returns before the file ends: a directive has a word. -/
def Code.Early : Code → Prop
  | .ok args | .blockStart args => args ≠ []
  | .blockDone | .error => True
  | .fileDone => False

/-- What a byte keeps: nothing asks for a blank. -/
def Step.Kept : Step → Prop
  | .next l _ _ => l.needSpace = false
  | .ret code => code.Early

theorem stepSpace_kept {l : Locals} (hspace : l.needSpace = false) (args : List Word)
    (ch : Byte) : (stepSpace l args ch).Kept := by
  unfold stepSpace
  by_cases hargs : args = []
  all_goals
    repeat' split
    all_goals
      first
      | exact hspace
      | exact trivial
      | exact hargs

theorem stepWord_kept {l : Locals} (hspace : l.needSpace = false) (args : List Word)
    (raw : List Byte) (ch : Byte) : (stepWord l args raw ch).Kept := by
  have hargs : args ++ [raw] ≠ [] := by simp
  unfold stepWord
  repeat' split
  all_goals first | exact hspace | exact hargs

theorem step_kept {l : Locals} (hspace : l.needSpace = false) (args : List Word)
    (raw : List Byte) (ch : Byte) : (step l args raw ch).Kept := by
  unfold step
  extract_lets l'
  have hspace' : l'.needSpace = false := by
    unfold l'
    split
    · exact hspace
    · exact hspace
  rw [hspace']
  split
  · exact hspace'
  · rw [if_neg Bool.false_ne_true]
    split
    · exact stepSpace_kept hspace' args ch
    · exact stepWord_kept hspace' args raw ch

variable {limit : ℕ} {amount : ℕ → ℕ} {file : List Byte}

/-- A call returns early, or the window and the file are used up. -/
theorem loop_code {fuel : ℕ} {l : Locals} (hspace : l.needSpace = false) {args : List Word}
    {wordStart : ℕ} {b b' : Window Byte} {returned : Code}
    (hloop : loop limit amount file fuel l args wordStart b = some (returned, b')) :
    returned.Early ∨
      (returned = .fileDone ∧ b'.held.length ≤ b'.pos ∧ file.length ≤ b'.offset) := by
  induction fuel generalizing l args wordStart b with
  | zero => cases hloop
  | succ fuel ih =>
      rw [loop] at hloop
      split at hloop
      · rename_i code hfill
        cases hloop
        unfold fill at hfill
        split at hfill
        · rename_i hused
          split at hfill
          · rename_i hend
            cases hfill
            unfold atEnd
            split
            · exact Or.inl trivial
            · exact Or.inr ⟨rfl, hused, hend⟩
          · split at hfill
            · cases hfill
              exact Or.inl trivial
            · cases hfill
        · cases hfill
      · rename_i mark w hfill
        split at hloop
        · cases hloop
        · rename_i ch hch
          have hkept := step_kept hspace args (w.since mark) ch
          split at hloop
          · rename_i code hstep
            cases hloop
            rw [hstep] at hkept
            exact Or.inl hkept
          · rename_i l' args' moved hstep
            rw [hstep] at hkept
            exact ih hkept hloop

/-- Only the end of the file is a `fileDone`, and no directive without a word is lost. -/
theorem token_eq_fileDone {returned : Code} (htoken : returned.token = .fileDone) :
    returned = .fileDone := by
  cases returned with
  | ok args | blockStart args =>
      cases args with
      | nil => cases htoken
      | cons name params => cases htoken
  | blockDone | error => cases htoken
  | fileDone => rfl

theorem readToken_stopsAtEnd : StopsAtEnd (readToken limit amount file) := by
  intro b b' hread
  obtain ⟨⟨returned, b1⟩, hcall, heq⟩ := Option.map_eq_some_iff.mp hread
  obtain ⟨htoken, rfl⟩ := Prod.mk.inj heq
  have hdone : returned = .fileDone := token_eq_fileDone htoken
  rcases loop_code rfl hcall with hearly | ⟨_, hused, hend⟩
  · rw [hdone] at hearly
    exact absurd hearly id
  · rw [readToken, nightConfReadToken, loop, fill, if_pos hused, if_pos hend]
    rfl

end Reader

/-! ## The parser returns -/

section Total

variable (env : Env σ) (measure : ρ → ℕ) (sound : ρ → Prop)

/-- A reader that always returns, and a directive takes something of what is to come. -/
def Progresses (read : ρ → Option (Token × ρ)) : Prop :=
  ∀ b, sound b → ∃ tok b', read b = some (tok, b') ∧ sound b' ∧ measure b' ≤ measure b ∧
    ∀ args block, tok = .directive args block → measure b' < measure b

/-- What a call of the parser or the handler leaves. -/
def Returns (b : ρ) (result : Option (Outcome σ ρ)) : Prop :=
  ∃ out, result = some out ∧ sound out.reader ∧ measure out.reader ≤ measure b

theorem handler_returns {parse : Parser σ ρ} {b : ρ} (hsound : sound b)
    (hparse : ∀ s, Returns measure sound b (parse s b)) (args : Args) (block : Bool) (s : σ) :
    Returns measure sound b (nightConfHandler env parse args block s b) := by
  unfold nightConfHandler
  split
  · unfold callSet
    split
    · exact ⟨_, rfl, hsound, Nat.le_refl _⟩
    · split
      · exact ⟨_, rfl, hsound, Nat.le_refl _⟩
      · rename_i s' _
        obtain ⟨parsed, hparsed, hsound', hle⟩ := hparse s'
        rw [hparsed]
        exact ⟨_, rfl, hsound', hle⟩
  · exact ⟨_, rfl, hsound, Nat.le_refl _⟩

/-- The fuel is what is to come, in a block and behind it. -/
theorem parseLoop_returns (hprogress : Progresses measure sound read) (type : ParseType) (s : σ)
    {fuel : ℕ} (hsound : sound b) (hfuel : measure b < fuel) :
    Returns measure sound b (parseLoop env read fuel type s b) := by
  induction fuel generalizing type s b with
  | zero => omega
  | succ fuel ih =>
      obtain ⟨tok, b1, hread, hsound1, hle, hdirective⟩ := hprogress b hsound
      rw [parseLoop, hread]
      cases tok with
      | error | blockDone | fileDone => exact ⟨_, rfl, hsound1, hle⟩
      | directive args block =>
          have hlt := hdirective args block rfl
          have hinner (s' : σ) := ih .block s' hsound1 (by omega)
          obtain ⟨handled, hhandled, hsound2, hle2⟩ :=
            handler_returns env measure sound hsound1 hinner args block s
          simp only [hhandled, Option.bind_eq_bind, Option.bind_some]
          split
          · exact ⟨_, rfl, hsound2, by omega⟩
          · obtain ⟨rest, hrest, hsound3, hle3⟩ :=
              ih type handled.state hsound2 (by omega)
            rw [hrest]
            exact ⟨_, rfl, hsound3, Nat.le_trans hle3 (Nat.le_trans hle2 hle)⟩

end Total

theorem limitedScan_lt {limit : ℕ} (text : List Byte) (l : Locals) (args : List Word)
    (raw : List Byte) (herror : (limitedScan limit text l args raw).1 ≠ .error)
    (hdone : (limitedScan limit text l args raw).1 ≠ .fileDone) :
    (limitedScan limit text l args raw).2.length < text.length := by
  cases text with
  | nil =>
      rw [limitedScan, atEnd] at herror hdone
      split at herror
      · exact absurd rfl herror
      · rw [if_neg ‹_›] at hdone
        exact absurd rfl hdone
  | cons ch rest =>
      rw [limitedScan] at herror ⊢
      split
      · rw [if_pos ‹_›] at herror
        exact absurd rfl herror
      · cases step l args raw ch with
        | ret code => exact Nat.lt_succ_self _
        | next l' args' moved =>
            exact Nat.lt_succ_of_le (limitedScan_length limit rest l' args' _)

theorem readToken_progresses (limit : ℕ) (amount : ℕ → ℕ) (file : List Byte) :
    Progresses (fun b : Window Byte => (b.unread file).length)
      (fun b => b.Sound limit file ∧ (b.unread file).length ≤ file.length)
      (readToken limit amount file) := by
  rintro b ⟨hsound, hlength⟩
  obtain ⟨b', hread, hsound', hunread⟩ :=
    nightConfReadToken_spec limit amount hsound rfl hlength
  have hle := limitedScan_length limit (b.unread file) .start [] []
  rw [← hunread] at hle
  refine ⟨_, b', by rw [readToken, hread]; rfl, ⟨hsound', by omega⟩, hle, ?_⟩
  intro args block htoken
  change (b'.unread file).length < _
  rw [hunread]
  apply limitedScan_lt
  · intro herror
    rw [herror] at htoken
    cases htoken
  · intro hdone
    rw [hdone] at htoken
    cases htoken

/-! ## `night_conf_parse` on a file -/

variable {env : Env σ} {amount : ℕ → ℕ} {file : List Byte} {s : σ}
  {out : Outcome σ (Window Byte)}

theorem nightConfParse_returns (env : Env σ) (amount : ℕ → ℕ) (file : List Byte) (s : σ) :
    ∃ out, nightConfParse env amount file s = some out := by
  have hsound : (Window.empty : Window Byte).Sound nightDefaultPoolLimit file :=
    Window.sound_empty nightDefaultPoolLimit file
  have hstart : ((Window.empty : Window Byte).unread file).length ≤ file.length :=
    Nat.le_of_eq (congrArg List.length (Window.unread_empty file))
  obtain ⟨out, hout, _⟩ := parseLoop_returns env _ _
    (readToken_progresses nightDefaultPoolLimit amount file) .file s ⟨hsound, hstart⟩
    (Nat.lt_succ_of_le hstart)
  exact ⟨out, hout⟩

/-- A file for which `NIGHT_OK` is returned is accepted rightly where its braces fit and the
run is careful; and where they fit, only there. -/
theorem nightConfParse_accepts (hparse : nightConfParse env amount file s = some out)
    (hok : out.code = nightOk) :
    ((∀ event ∈ out.log, event.Fits ∧ event.Careful) →
        Accepted (readToken nightDefaultPoolLimit amount file) .empty out.log) ∧
      ((∀ event ∈ out.log, event.Fits) →
        Accepted (readToken nightDefaultPoolLimit amount file) .empty out.log →
          ∀ event ∈ out.log, event.Careful) := by
  have hparsed := parseLoop_parsed hparse
  rw [hok] at hparsed
  constructor
  · intro hboth
    have hiff := hparsed.accepted_iff_careful readToken_stopsAtEnd
      (fun event hmem => (hboth event hmem).1)
    exact hiff.mpr (fun event hmem => (hboth event hmem).2)
  · intro hfits haccepted
    exact (hparsed.accepted_iff_careful readToken_stopsAtEnd hfits).mp haccepted

/-- One module with one command `a`, whose `set` function returns `NIGHT_OK`. -/
def oneCommand : Env Unit where
  modules := [⟨0, 0, some [⟨[ascii 'a'], nightMainConf, 0, .plain fun _ _ s => (nightOk, s)⟩]⟩]
  ctx := fun _ => 0
  load := fun _ _ => 0

/-- The file `a;`. -/
theorem nightConfParse_accepts_oneDirective :
    Accepted (readToken nightDefaultPoolLimit (fun _ => 0) [ascii 'a', ascii ';']) .empty
      [.call ⟨[ascii 'a'], []⟩ false none nightOk, .fileDone false] := by
  have hparse : nightConfParse oneCommand (fun _ => 0) [ascii 'a', ascii ';'] () =
      some ⟨nightOk, (), ⟨[ascii 'a', ascii ';'], 2, 2⟩,
        [.call ⟨[ascii 'a'], []⟩ false none nightOk, .fileDone false]⟩ := rfl
  refine (nightConfParse_accepts hparse rfl).1 ?_
  simp [Event.Fits, Event.Careful]

/-- For the file of one closing brace `NIGHT_OK` is returned. -/
theorem not_nightConfParse_accepts_strayBrace :
    ¬ ∀ (env : Env Unit) (amount : ℕ → ℕ) (file : List Byte) (s : Unit)
      (out : Outcome Unit (Window Byte)), nightConfParse env amount file s = some out →
        out.code = nightOk →
          Accepted (readToken nightDefaultPoolLimit amount file) .empty out.log := by
  intro hall
  have hparse : nightConfParse oneCommand (fun _ => 0) [ascii '}'] () =
      some ⟨nightOk, (), ⟨[ascii '}'], 1, 1⟩, [.blockDone false]⟩ := rfl
  have haccepted := hall _ _ _ _ _ hparse rfl
  have hparsed := parseLoop_parsed hparse
  have hcareful := (hparsed.accepted_iff_careful readToken_stopsAtEnd
    (by simp [Event.Fits])).mp haccepted
  exact absurd (hcareful _ List.mem_cons_self) Bool.false_ne_true

end Night.ConfFile
