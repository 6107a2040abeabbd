import Night.Conf.ParseOrder
import Night.Conf.TokenLaw

/-!
# Configuration documents

What a configuration file is for: a tree of directives, each of words that may hold any
bytes, some of them with a block of directives.  A document is written down in many ways,
with blanks and comments and with quoted or bare words; whichever is chosen, the tokenizer
returns its directives, and the parser does what the document means.
-/

namespace Night.ConfDocument

open Night.Bytes
open Night.ConfToken
open Night.Conf (Args Token Ending Module Call Context NightConf Outcome File Reading callFor)

/-! ## Documents -/

/-- The first directive and those behind it. -/
inductive Document where
  | nil
  | directive (args : Args) (rest : Document)
  | block (args : Args) (body rest : Document)
  deriving DecidableEq, Repr

/-- The words of a directive. -/
def words (args : Args) : List Word := args.name :: args.params

/-- What calls of the tokenizer return for a document. -/
def Document.codes : Document → List Code
  | .nil => []
  | .directive args rest => .ok (words args) :: rest.codes
  | .block args body rest => .blockStart (words args) :: (body.codes ++ .blockDone :: rest.codes)

/-- What the parser sees of a document. -/
def Document.tokens : Document → List Token
  | .nil => []
  | .directive args rest => .directive args false :: rest.tokens
  | .block args body rest => .directive args true :: (body.tokens ++ .blockDone :: rest.tokens)

/-- The directives in the order of the text. -/
def Document.directives : Document → List Args
  | .nil => []
  | .directive args rest => args :: rest.directives
  | .block args body rest => args :: (body.directives ++ rest.directives)

/-! ## Texts of a document -/

/-- Blanks, and comments that the buffer holds. -/
inductive Gap (pagesize : ℕ) : List Byte → Prop where
  | nil : Gap pagesize []
  | blank {ch : Byte} {rest : List Byte} (hblank : isBlank ch = true) (hrest : Gap pagesize rest) :
      Gap pagesize (ch :: rest)
  | comment {text rest : List Byte} (htext : LF ∉ text) (hlength : text.length + 1 < pagesize)
      (hrest : Gap pagesize rest) : Gap pagesize (ascii '#' :: (text ++ LF :: rest))

/-- Blanks and comments behind a word. -/
inductive Space (pagesize : ℕ) : List Byte → Prop where
  | intro {ch : Byte} {rest : List Byte} (hblank : isBlank ch = true) (hrest : Gap pagesize rest) :
      Space pagesize (ch :: rest)

/-- A byte that ends no string. -/
inductive StringBody (quote : Byte) : List Byte → Prop where
  | nil : StringBody quote []
  | plain {ch : Byte} {raw : List Byte} (hslash : ch ≠ ascii '\\') (hquote : ch ≠ quote)
      (hraw : StringBody quote raw) : StringBody quote (ch :: raw)
  | pair (ch : Byte) {raw : List Byte} (hraw : StringBody quote raw) :
      StringBody quote (ascii '\\' :: ch :: raw)

/-- A byte in a bare word. -/
def Bare (ch : Byte) : Prop :=
  isBlank ch = false ∧ ch ≠ ascii ';' ∧ ch ≠ ascii '{' ∧ ch ≠ ascii '\\'

/-- A byte with which a bare word begins. -/
def BareFirst (ch : Byte) : Prop :=
  Bare ch ∧ ch ≠ ascii '}' ∧ ch ≠ ascii '#' ∧ ¬ isQuote ch

/-- A quoted text of a word. -/
inductive Quoted (pagesize : ℕ) : Word → List Byte → Prop where
  | intro {quote : Byte} {raw : List Byte} (hquote : isQuote quote) (hraw : StringBody quote raw)
      (hlength : raw.length + 2 < pagesize) :
      Quoted pagesize (unescape raw) (quote :: (raw ++ [quote]))

/-- A text of a word that is not quoted. -/
inductive Unquoted (pagesize : ℕ) : Word → List Byte → Prop where
  | intro {ch : Byte} {raw : List Byte} (hfirst : BareFirst ch) (hraw : ∀ c ∈ raw, Bare c)
      (hlength : raw.length + 3 < pagesize) : Unquoted pagesize (ch :: raw) (ch :: raw)

/-- The byte behind the words of a directive. -/
def close (block : Bool) : Byte := if block then ascii '{' else ascii ';'

theorem close_false : close false = ascii ';' := rfl

theorem close_true : close true = ascii '{' := rfl

/-- What the tokenizer returns behind them. -/
def code (block : Bool) (args : List Word) : Code := if block then .blockStart args else .ok args

/-- A text of a directive up to the byte behind it: words, with spaces between them and
perhaps one in the end, which a bare word in front of a block needs. -/
inductive Writing (pagesize : ℕ) : Bool → List Word → List Byte → Prop where
  | quoted {block : Bool} {word : Word} {text : List Byte} (hword : Quoted pagesize word text) :
      Writing pagesize block [word] text
  | bare {word : Word} {text : List Byte} (hword : Unquoted pagesize word text) :
      Writing pagesize false [word] text
  | spaced {block : Bool} {word : Word} {text space : List Byte}
      (hword : Quoted pagesize word text ∨ Unquoted pagesize word text)
      (hspace : Space pagesize space) : Writing pagesize block [word] (text ++ space)
  | cons {block : Bool} {word : Word} {more : List Word} {text space rest : List Byte}
      (hword : Quoted pagesize word text ∨ Unquoted pagesize word text)
      (hspace : Space pagesize space) (hrest : Writing pagesize block more rest) :
      Writing pagesize block (word :: more) (text ++ space ++ rest)

/-- A text of a document. -/
inductive Writes (pagesize : ℕ) : Document → List Byte → Prop where
  | nil {gap : List Byte} (hgap : Gap pagesize gap) : Writes pagesize .nil gap
  | directive {args : Args} {rest : Document} {gap text more : List Byte}
      (hgap : Gap pagesize gap) (htext : Writing pagesize false (words args) text)
      (hrest : Writes pagesize rest more) :
      Writes pagesize (.directive args rest) (gap ++ (text ++ close false :: more))
  | block {args : Args} {body rest : Document} {gap text inner more : List Byte}
      (hgap : Gap pagesize gap) (htext : Writing pagesize true (words args) text)
      (hbody : Writes pagesize body inner) (hrest : Writes pagesize rest more) :
      Writes pagesize (.block args body rest)
        (gap ++ (text ++ close true :: (inner ++ ascii '}' :: more)))

/-! ## Walking over a text -/

variable {pagesize : ℕ} {front text rest : List Byte} {mode mode' mode'' : Mode}
  {args args' args'' : List Word} {code' : Code}

/-- A byte with no hazard that ends no long word. -/
def Plain (pagesize : ℕ) (mode : Mode) (args : List Word) (ch : Byte) : Prop :=
  ShortWord pagesize mode args ch ∧ ¬ Hazard pagesize mode args ch

/-- The bytes `front` lead from one place of a directive to another. -/
inductive Leads (pagesize : ℕ) : List Byte → Mode → List Word → Mode → List Word → Prop where
  | nil (mode : Mode) (args : List Word) : Leads pagesize [] mode args mode args
  | cons {ch : Byte} {front : List Byte} {mode mode' mode'' : Mode}
      {args args' args'' : List Word} (hplain : Plain pagesize mode args ch)
      (hstep : referenceStep args ch mode = .next mode' args')
      (hfront : Leads pagesize front mode' args' mode'' args'') :
      Leads pagesize (ch :: front) mode args mode'' args''

theorem Leads.append {more : List Byte} (hfront : Leads pagesize front mode args mode' args')
    (hmore : Leads pagesize more mode' args' mode'' args'') :
    Leads pagesize (front ++ more) mode args mode'' args'' := by
  induction hfront with
  | nil => exact hmore
  | cons hplain hstep _ ih => exact .cons hplain hstep (ih hmore)

theorem Leads.single {ch : Byte} (hplain : Plain pagesize mode args ch)
    (hstep : referenceStep args ch mode = .next mode' args') :
    Leads pagesize [ch] mode args mode' args' :=
  .cons hplain hstep (.nil mode' args')

/-- From a place of a directive the reference returns `code'` and leaves `rest`, and there is no
hazard on the way. -/
structure Returns (pagesize : ℕ) (text : List Byte) (mode : Mode) (args : List Word)
    (code' : Code) (rest : List Byte) : Prop where
  result : reference text mode args = (code', rest)
  short : AtEachByte (ShortWord pagesize) text mode args
  safe : NoHazard pagesize text mode args

theorem Leads.returns (hfront : Leads pagesize front mode args mode' args')
    (htext : Returns pagesize text mode' args' code' rest) :
    Returns pagesize (front ++ text) mode args code' rest := by
  induction hfront with
  | nil => exact htext
  | cons hplain hstep _ ih =>
      obtain ⟨hresult, hshort, hsafe⟩ := ih htext
      rw [List.cons_append]
      refine ⟨?_, ⟨hplain.1, ?_⟩, ⟨hplain.2, ?_⟩⟩
      · rw [reference, hstep]
        exact hresult
      · rw [hstep]
        exact hshort
      · rw [hstep]
        exact hsafe

/-- A byte at which the reference returns. -/
theorem returns_last {ch : Byte} (hplain : Plain pagesize mode args ch)
    (hstep : referenceStep args ch mode = .ret code') (rest : List Byte) :
    Returns pagesize (ch :: rest) mode args code' rest := by
  refine ⟨?_, ⟨hplain.1, ?_⟩, ⟨hplain.2, ?_⟩⟩
  · rw [reference, hstep]
  · rw [hstep]
    trivial
  · rw [hstep]
    trivial

/-! ## Gaps and words -/

/-- Outside of words there is no hazard but the end of the buffer in a comment. -/
theorem plain_of_completes {ch : Byte} (hcompletes : completes ch mode = none)
    (hhazard : ¬ Hazard pagesize mode args ch) : Plain pagesize mode args ch := by
  refine ⟨?_, hhazard⟩
  intro raw hraw
  rw [hcompletes] at hraw
  cases hraw

theorem plain_between (args : List Word) (ch : Byte) : Plain pagesize .between args ch :=
  plain_of_completes rfl id

theorem plain_afterString (args : List Word) (ch : Byte) :
    Plain pagesize .afterString args ch :=
  plain_of_completes rfl id

theorem leads_comment {length : ℕ} (htext : LF ∉ text)
    (hlength : length + text.length < pagesize) (args : List Word) :
    Leads pagesize text (.comment length) args (.comment (length + text.length)) args := by
  induction text generalizing length with
  | nil => exact .nil _ args
  | cons ch text ih =>
      rw [List.length_cons] at hlength
      rw [List.mem_cons, not_or] at htext
      have hrest : Leads pagesize text (.comment (length + 1)) args
          (.comment (length + 1 + text.length)) args := ih htext.2 (by omega)
      rw [List.length_cons, show length + (text.length + 1) = length + 1 + text.length by omega]
      refine .cons (plain_of_completes rfl ?_) ?_ hrest
      · intro hfull
        have hfull : length = pagesize := hfull
        omega
      · rw [referenceStep, if_neg (Ne.symm htext.1)]

theorem leads_gap (hgap : Gap pagesize text) (args : List Word) :
    Leads pagesize text .between args .between args := by
  induction hgap with
  | nil => exact .nil _ args
  | blank hblank _ ih =>
      refine .cons (plain_between args _) ?_ ih
      rw [referenceStep, referenceBetween, if_pos hblank]
  | @comment comment rest htext hlength _ ih =>
      have hstart : Leads pagesize [ascii '#'] .between args (.comment 1) args :=
        .single (plain_between args _) rfl
      have hcomment : Leads pagesize comment (.comment 1) args (.comment (1 + comment.length))
          args := leads_comment htext (by omega) args
      have hend : Leads pagesize [LF] (.comment (1 + comment.length)) args .between args := by
        refine .single (plain_of_completes rfl ?_) rfl
        intro hfull
        have hfull : 1 + comment.length = pagesize := hfull
        omega
      have hall := ((hstart.append hcomment).append hend).append ih
      simpa using hall

/-- Blanks and comments behind a string. -/
theorem leads_space_afterString (hspace : Space pagesize text) (args : List Word) :
    Leads pagesize text .afterString args .between args := by
  cases hspace with
  | intro hblank hrest =>
      refine .cons (plain_afterString args _) ?_ (leads_gap hrest args)
      rw [referenceStep, if_pos hblank]

/-- The bytes of a string up to the quote that ends it. -/
theorem leads_stringBody {quote : Byte} (htext : StringBody quote text) (raw : List Byte)
    (hlength : raw.length + text.length + 2 < pagesize) (args : List Word) :
    Leads pagesize text (.string quote raw) args (.string quote (raw ++ text)) args := by
  induction htext generalizing raw with
  | nil =>
      rw [List.append_nil]
      exact .nil _ args
  | @plain ch text hslash hquote _ ih =>
      rw [List.length_cons] at hlength
      have hnone : completes ch (.string quote raw) = none := by
        rw [completes, if_neg hquote]
      have hrest := ih (raw ++ [ch]) (by simp; omega)
      rw [List.append_assoc] at hrest
      refine .cons (plain_of_completes hnone id) ?_ hrest
      rw [referenceStep, if_neg hslash, if_neg hquote]
  | @pair ch text _ ih =>
      rw [List.length_cons, List.length_cons] at hlength
      have hslash : Plain pagesize (.string quote raw) args (ascii '\\') := by
        refine ⟨?_, id⟩
        intro raw' hraw'
        rw [completes] at hraw'
        split at hraw'
        · cases hraw'
          omega
        · cases hraw'
      have hrest := ih (raw ++ [ascii '\\'] ++ [ch]) (by simp; omega)
      have hescaped : Leads pagesize (ch :: text) (.stringEscaped quote (raw ++ [ascii '\\']))
          args (.string quote (raw ++ ascii '\\' :: ch :: text)) args :=
        .cons (plain_of_completes rfl id) rfl (by simpa using hrest)
      refine .cons hslash ?_ hescaped
      rw [referenceStep, if_pos rfl]

theorem leads_quoted {word : Word} (hword : Quoted pagesize word text) (args : List Word) :
    Leads pagesize text .between args .afterString (args ++ [word]) := by
  cases hword with
  | @intro quote raw hquote hraw hlength =>
      have hopen : Leads pagesize [quote] .between args (.string quote []) args := by
        refine .single (plain_between args quote) ?_
        obtain rfl | rfl := hquote <;> rfl
      have hbody : Leads pagesize raw (.string quote []) args (.string quote raw) args :=
        leads_stringBody hraw [] (by simpa using hlength) args
      have hclose : Leads pagesize [quote] (.string quote raw) args .afterString
          (args ++ [unescape raw]) := by
        refine .single ⟨?_, id⟩ ?_
        · intro raw' hraw'
          rw [completes, if_pos rfl] at hraw'
          cases hraw'
          exact hlength
        · have hslash : quote ≠ ascii '\\' := by
            obtain rfl | rfl := hquote <;> decide
          rw [referenceStep, if_neg hslash, if_pos rfl]
      exact (hopen.append hbody).append hclose

/-- The bytes of a bare word behind the first one. -/
theorem leads_bare (htext : ∀ ch ∈ text, Bare ch) (raw : List Byte) (dollar : Bool)
    (args : List Word) :
    ∃ dollar', Leads pagesize text (.word raw dollar) args (.word (raw ++ text) dollar') args := by
  induction text generalizing raw dollar with
  | nil => exact ⟨dollar, by rw [List.append_nil]; exact .nil _ args⟩
  | cons ch text ih =>
      obtain ⟨⟨hblank, hsemicolon, hbrace, hslash⟩, hrest⟩ := List.forall_mem_cons.mp htext
      obtain ⟨dollar', hleads⟩ := ih hrest (raw ++ [ch]) (ch = ascii '$')
      rw [List.append_assoc] at hleads
      have hplain : Plain pagesize (.word raw dollar) args ch := by
        refine plain_of_completes ?_ fun hhazard => hbrace hhazard.1
        rw [completes, if_neg (by simp [hblank, hsemicolon, hbrace])]
      refine ⟨dollar', .cons hplain ?_ hleads⟩
      rw [referenceStep, referenceWord, if_neg hslash, if_neg (by simp [hblank]),
        if_neg hsemicolon, if_neg fun hopen => hbrace hopen.1]

theorem leads_unquoted {word : Word} (hword : Unquoted pagesize word text) (args : List Word) :
    ∃ dollar, Leads pagesize text .between args (.word word dollar) args := by
  cases hword with
  | @intro ch raw hfirst hraw _ =>
      obtain ⟨⟨hblank, hsemicolon, hbrace, hslash⟩, hend, hsharp, hquote⟩ := hfirst
      obtain ⟨dollar, hleads⟩ := leads_bare hraw [ch] (ch = ascii '$') args
      refine ⟨dollar, .cons (plain_between args ch) ?_ hleads⟩
      rw [referenceStep, referenceBetween, if_neg (by simp [hblank]), if_neg hsemicolon,
        if_neg hbrace, if_neg hend, if_neg hsharp, if_neg hslash,
        if_neg (show ¬(ch = ascii '"' ∨ ch = ascii '\'') from hquote)]

/-- Where no backslash stands nothing is decoded. -/
theorem unescape_eq_self {raw : List Byte} (hraw : ascii '\\' ∉ raw) : unescape raw = raw := by
  induction raw with
  | nil => rfl
  | cons ch raw ih =>
      rw [List.mem_cons, not_or] at hraw
      rw [unescape_plain (Ne.symm hraw.1), ih hraw.2]

theorem Unquoted.unescape {word : Word} (hword : Unquoted pagesize word text) :
    ConfToken.unescape word = word := by
  cases hword with
  | intro hfirst hraw _ =>
      apply unescape_eq_self
      intro hmem
      obtain heq | hmem := List.mem_cons.mp hmem
      · exact hfirst.1.2.2.2 heq.symm
      · exact (hraw _ hmem).2.2.2 rfl

theorem Unquoted.length_lt {word : Word} (hword : Unquoted pagesize word text) :
    word.length + 2 < pagesize := by
  cases hword with
  | intro _ _ hlength => simpa using hlength

/-- A word with the space behind it. -/
theorem leads_spaced {word : Word} {space : List Byte}
    (hword : Quoted pagesize word text ∨ Unquoted pagesize word text)
    (hspace : Space pagesize space) (args : List Word) :
    Leads pagesize (text ++ space) .between args .between (args ++ [word]) := by
  obtain hword | hword := hword
  · exact (leads_quoted hword args).append (leads_space_afterString hspace (args ++ [word]))
  · obtain ⟨dollar, hleads⟩ := leads_unquoted hword args
    cases hspace with
    | @intro ch rest hblank hrest =>
        have hends : Leads pagesize [ch] (.word word dollar) args .between (args ++ [word]) := by
          refine .single ⟨?_, ?_⟩ ?_
          · intro raw hraw
            rw [completes, if_pos (.inl hblank)] at hraw
            cases hraw
            exact hword.length_lt
          · intro hhazard
            have hbrace : ch = ascii '{' := hhazard.1
            subst hbrace
            revert hblank
            decide
          · have hslash : ch ≠ ascii '\\' := by
              rintro rfl
              revert hblank
              decide
            rw [referenceStep, referenceWord, if_neg hslash, if_pos hblank, hword.unescape]
        exact hleads.append (hends.append (leads_gap hrest _))

/-- The words of a directive with the byte behind them. -/
theorem Writing.returns {block : Bool} {ws : List Word} (hwriting : Writing pagesize block ws text)
    (args : List Word) (rest : List Byte) :
    Returns pagesize (text ++ close block :: rest) .between args (code block (args ++ ws))
      rest := by
  have hbetween {block : Bool} {args : List Word} (hargs : args ≠ []) :
      Returns pagesize (close block :: rest) .between args (code block args) rest := by
    refine returns_last (plain_between args _) ?_ rest
    cases block with
    | false =>
        rw [referenceStep, referenceBetween, if_neg (by decide), if_pos close_false,
          if_neg hargs]
        rfl
    | true =>
        rw [referenceStep, referenceBetween, if_neg (by decide), if_neg (by decide),
          if_pos close_true, if_neg hargs]
        rfl
  induction hwriting generalizing args with
  | @quoted block word text hword =>
      refine (leads_quoted hword args).returns (returns_last (plain_afterString _ _) ?_ rest)
      cases block <;> rfl
  | @bare word text hword =>
      obtain ⟨dollar, hleads⟩ := leads_unquoted hword args
      refine hleads.returns (returns_last ⟨?_, fun hhazard => ?_⟩ ?_ rest)
      · intro raw hraw
        rw [completes, if_pos (.inr (.inl rfl))] at hraw
        cases hraw
        exact hword.length_lt
      · exact absurd hhazard.1 (by decide)
      · rw [referenceStep, referenceWord, if_neg (by decide), if_neg (by decide),
          if_pos close_false, hword.unescape]
        rfl
  | @spaced block word text space hword hspace =>
      exact (leads_spaced hword hspace args).returns (hbetween (by simp))
  | @cons block word more text space rest' hword hspace _ ih =>
      have hmore := ih (args ++ [word])
      rw [List.append_assoc] at hmore
      rw [List.append_assoc]
      exact (leads_spaced hword hspace args).returns hmore

/-! ## One text for each document -/

/-- A byte of a word inside double quotes. -/
def protect (ch : Byte) : List Byte :=
  if ch = ascii '"' ∨ ch = ascii '\\' then [ascii '\\', ch] else [ch]

def protectWord (word : Word) : List Byte := word.flatMap protect

def renderWord (word : Word) : List Byte := ascii '"' :: (protectWord word ++ [ascii '"'])

def renderWords : Word → List Word → List Byte
  | word, [] => renderWord word
  | word, next :: more => renderWord word ++ [SP] ++ renderWords next more

def Document.render : Document → List Byte
  | .nil => []
  | .directive args rest => renderWords args.name args.params ++ close false :: rest.render
  | .block args body rest =>
      renderWords args.name args.params ++ close true :: (body.render ++ ascii '}' :: rest.render)

/-- Every word, quoted, is as short as the buffer asks for. -/
def Document.Short (pagesize : ℕ) (document : Document) : Prop :=
  ∀ args ∈ document.directives, ∀ word ∈ words args, (protectWord word).length + 2 < pagesize

instance (pagesize : ℕ) (document : Document) : Decidable (document.Short pagesize) :=
  inferInstanceAs (Decidable (∀ args ∈ _, ∀ word ∈ _, _))

theorem unescape_protectWord (word : Word) : unescape (protectWord word) = word := by
  induction word with
  | nil => rfl
  | cons ch word ih =>
      rw [protectWord, List.flatMap_cons, protect]
      split
      · rename_i hspecial
        have hescape : escape ch = some ch := by
          rw [escape, if_pos (by tauto)]
        rw [List.cons_append, List.cons_append, List.nil_append, unescape, if_pos rfl, hescape]
        exact congrArg _ ih
      · rename_i hplain
        rw [List.cons_append, List.nil_append, unescape_plain fun hslash => hplain (.inr hslash)]
        exact congrArg _ ih

theorem stringBody_protectWord (word : Word) : StringBody (ascii '"') (protectWord word) := by
  induction word with
  | nil => exact .nil
  | cons ch word ih =>
      rw [protectWord, List.flatMap_cons, protect]
      split
      · exact .pair ch ih
      · rename_i hplain
        exact .plain (fun hslash => hplain (.inr hslash)) (fun hquote => hplain (.inl hquote)) ih

theorem quoted_renderWord {word : Word} (hlength : (protectWord word).length + 2 < pagesize) :
    Quoted pagesize word (renderWord word) := by
  have hquoted : Quoted pagesize (unescape (protectWord word)) (renderWord word) :=
    .intro (.inl rfl) (stringBody_protectWord word) hlength
  rwa [unescape_protectWord] at hquoted

theorem writing_renderWords (block : Bool) {word : Word} {more : List Word}
    (hlength : ∀ w ∈ word :: more, (protectWord w).length + 2 < pagesize) :
    Writing pagesize block (word :: more) (renderWords word more) := by
  induction more generalizing word with
  | nil => exact .quoted (quoted_renderWord (hlength word List.mem_cons_self))
  | cons next more ih =>
      obtain ⟨hword, hmore⟩ := List.forall_mem_cons.mp hlength
      exact .cons (.inl (quoted_renderWord hword)) (.intro rfl .nil) (ih hmore)

theorem writes_render {document : Document} (hshort : document.Short pagesize) :
    Writes pagesize document document.render := by
  induction document with
  | nil => exact .nil .nil
  | directive args rest ih =>
      obtain ⟨hargs, hrest⟩ := List.forall_mem_cons.mp hshort
      exact .directive .nil (writing_renderWords false hargs) (ih hrest)
  | block args body rest ihbody ih =>
      obtain ⟨hargs, hmore⟩ := List.forall_mem_cons.mp hshort
      obtain ⟨hbody, hrest⟩ := List.forall_mem_append.mp hmore
      exact .block .nil (writing_renderWords true hargs) (ihbody hbody) (ih hrest)

/-- The document `a { b "c"; }`. -/
def sample : Document :=
  .block ⟨[ascii 'a'], []⟩ (.directive ⟨[ascii 'b'], [[ascii 'c']]⟩ .nil) .nil

theorem writes_sample : Writes 4096 sample sample.render := writes_render (by decide)

/-! ## The directives of a text -/

/-- The calls of the tokenizer on a text return `codes`. -/
inductive Listed (pagesize : ℕ) : List Byte → List Code → Prop where
  | last {text rest : List Byte} (hlast : Returns pagesize text .between [] .fileDone rest) :
      Listed pagesize text [.fileDone]
  | cons {text rest : List Byte} {code' : Code} {codes : List Code}
      (hfirst : Returns pagesize text .between [] code' rest) (hgoes : code'.goesOn = true)
      (hrest : Listed pagesize rest codes) : Listed pagesize text (code' :: codes)

/-- The text of a document in front of a text that may begin with a gap. -/
theorem Writes.listed {document : Document} (hwrites : Writes pagesize document text)
    {codes : List Code} (hrest : ∀ gap, Gap pagesize gap → Listed pagesize (gap ++ rest) codes) :
    Listed pagesize (text ++ rest) (document.codes ++ codes) := by
  induction hwrites generalizing rest codes with
  | nil hgap => exact hrest _ hgap
  | @directive args document gap text more hgap htext _ ih =>
      have hreturns : Returns pagesize (gap ++ (text ++ close false :: more) ++ rest) .between []
          (.ok (words args)) (more ++ rest) := by
        simpa [code] using (leads_gap hgap []).returns (htext.returns [] (more ++ rest))
      exact .cons hreturns rfl (ih hrest)
  | @block args body document gap text inner more hgap htext _ _ ihbody ih =>
      have hreturns : Returns pagesize
          (gap ++ (text ++ close true :: (inner ++ ascii '}' :: more)) ++ rest) .between []
          (.blockStart (words args)) (inner ++ ascii '}' :: (more ++ rest)) := by
        simpa [code] using (leads_gap hgap []).returns
          (htext.returns [] (inner ++ ascii '}' :: (more ++ rest)))
      have hbody : Listed pagesize (inner ++ ascii '}' :: (more ++ rest))
          (body.codes ++ .blockDone :: (document.codes ++ codes)) := by
        refine ihbody fun gap hgap => ?_
        exact .cons ((leads_gap hgap []).returns (returns_last (plain_between [] _) rfl _)) rfl
          (ih hrest)
      have hcodes : (Document.block args body document).codes ++ codes =
          .blockStart (words args) ::
            (body.codes ++ .blockDone :: (document.codes ++ codes)) := by
        simp [Document.codes]
      rw [hcodes]
      exact .cons hreturns rfl hbody

theorem Writes.listed_all {document : Document} (hwrites : Writes pagesize document text) :
    Listed pagesize text (document.codes ++ [.fileDone]) := by
  have hend (gap : List Byte) (hgap : Gap pagesize gap) :
      Listed pagesize (gap ++ []) [.fileDone] :=
    .last ((leads_gap hgap []).returns ⟨rfl, trivial, trivial⟩)
  have hlisted := hwrites.listed hend
  rwa [List.append_nil] at hlisted

/-- The tokenizer returns what is listed, wherever the buffer is filled again and whatever
its local `variable` holds. -/
theorem Listed.readTokens (hpage : 1 < pagesize) {codes : List Code}
    (hlisted : Listed pagesize text codes) (garbage : ℕ → ℤ) (calls : ℕ) :
    readTokens pagesize text garbage calls .empty = some (codes.take calls) := by
  have hreference : referenceTokens calls text = codes.take calls ∧
      AtEachToken (fun text => AtEachByte (ShortWord pagesize) text .between []) calls text ∧
      AtEachToken
        (fun text => (referenceToken text).1 = .error ∨ NoHazard pagesize text .between [])
        calls text := by
    induction hlisted generalizing calls with
    | @last text rest hlast =>
        have hgoes : (referenceToken text).1.goesOn = false := by
          rw [referenceToken, hlast.result]
          rfl
        refine ⟨?_, atEachToken_last hlast.short hgoes calls,
          atEachToken_last (.inr hlast.safe) hgoes calls⟩
        cases calls with
        | zero => rfl
        | succ calls =>
            rw [referenceTokens_succ, hgoes, referenceToken, hlast.result, if_neg (by decide),
              List.take_succ_cons, List.take_nil]
    | @cons text rest code' codes hfirst hgoes _ ih =>
        have htoken : referenceToken text = (code', rest) := hfirst.result
        cases calls with
        | zero => exact ⟨rfl, trivial, trivial⟩
        | succ calls =>
            obtain ⟨htokens, hshort, hsafe⟩ := ih calls
            refine ⟨?_, ⟨hfirst.short, fun _ => ?_⟩, ⟨.inr hfirst.safe, fun _ => ?_⟩⟩
            · rw [referenceTokens_succ, htoken, if_pos hgoes, htokens, List.take_succ_cons]
            · rwa [htoken]
            · rwa [htoken]
  obtain ⟨htokens, hshort, hsafe⟩ := hreference
  rw [readTokens_eq, (scanTokens_iff hpage hshort).mpr hsafe garbage, htokens]

/-- Whatever text of a document is in the file, the tokenizer returns the directives of the
document and then the end of the file. -/
theorem readTokens_writes (hpage : 1 < pagesize) {document : Document}
    (hwrites : Writes pagesize document text) (garbage : ℕ → ℤ) (calls : ℕ) :
    readTokens pagesize text garbage calls .empty =
      some ((document.codes ++ [Code.fileDone]).take calls) :=
  hwrites.listed_all.readTokens hpage garbage calls

theorem readTokens_sample :
    readTokens 4096 sample.render (fun _ => 1) 4 .empty =
      some [.blockStart [[ascii 'a']], .ok [[ascii 'b'], [ascii 'c']], .blockDone, .fileDone] :=
  readTokens_writes (by decide) writes_sample (fun _ => 1) 4

/-! ## No text of two documents -/

/-- A closing brace or the end of the file: no directive. -/
def Closes : List Code → Prop
  | [] => True
  | code' :: _ => code' = .blockDone ∨ code' = .fileDone

theorem closes_blockDone (rest : List Code) : Closes (.blockDone :: rest) := .inl rfl

theorem closes_fileDone (rest : List Code) : Closes (.fileDone :: rest) := .inr rfl

/-- The calls of the tokenizer tell the document and what is behind it. -/
theorem codes_append_inj {document document' : Document} {rest rest' : List Code}
    (hrest : Closes rest) (hrest' : Closes rest')
    (heq : document.codes ++ rest = document'.codes ++ rest') :
    document = document' ∧ rest = rest' := by
  induction document generalizing document' rest rest' with
  | nil =>
      cases document' with
      | nil => exact ⟨rfl, heq⟩
      | directive | block =>
          cases heq
          obtain hcode | hcode := hrest <;> cases hcode
  | directive args document ih =>
      cases document' with
      | nil =>
          cases heq
          obtain hcode | hcode := hrest' <;> cases hcode
      | block => cases heq
      | directive args' document' =>
          obtain ⟨name, params⟩ := args
          obtain ⟨name', params'⟩ := args'
          simp only [Document.codes, words, List.cons_append, List.cons.injEq,
            ConfToken.Code.ok.injEq] at heq
          obtain ⟨⟨rfl, rfl⟩, hcodes⟩ := heq
          obtain ⟨rfl, htail⟩ := ih hrest hrest' hcodes
          exact ⟨rfl, htail⟩
  | block args body document ihbody ih =>
      cases document' with
      | nil =>
          cases heq
          obtain hcode | hcode := hrest' <;> cases hcode
      | directive => cases heq
      | block args' body' document' =>
          obtain ⟨name, params⟩ := args
          obtain ⟨name', params'⟩ := args'
          simp only [Document.codes, words, List.cons_append, List.append_assoc, List.cons.injEq,
            ConfToken.Code.blockStart.injEq] at heq
          obtain ⟨⟨rfl, rfl⟩, hcodes⟩ := heq
          obtain ⟨rfl, hmore⟩ := ihbody (closes_blockDone _) (closes_blockDone _) hcodes
          obtain ⟨rfl, htail⟩ := ih hrest hrest' (List.cons.inj hmore).2
          exact ⟨rfl, htail⟩

/-- A text is a text of one document at most. -/
theorem Writes.unique (hpage : 1 < pagesize) {document document' : Document}
    (hwrites : Writes pagesize document text) (hwrites' : Writes pagesize document' text) :
    document = document' := by
  let calls := document.codes.length + document'.codes.length + 1
  have hread := hwrites.listed_all.readTokens hpage (fun _ => 0) calls
  have hread' := hwrites'.listed_all.readTokens hpage (fun _ => 0) calls
  rw [hread, List.take_of_length_le (by simp [calls]),
    List.take_of_length_le (by simp [calls])] at hread'
  exact (codes_append_inj (closes_fileDone _) (closes_fileDone _) (Option.some.inj hread')).1

/-! ## What a document says -/

section Meaning

variable {σ : Type} (load : σ → ℕ → ℕ) (modules : List (Module σ))

/-- A document is carried out directive by directive: `set` is called in the context of the
block around it, and a block is carried out in the context that its `set` function opens. -/
def Document.evaluate : Document → Context → σ → Reading σ
  | .nil, _, s => ⟨true, s, []⟩
  | .directive args rest, cf, s =>
      match callFor load modules cf s args false with
      | none => ⟨false, s, []⟩
      | some call =>
          match Conf.enterSet cf s call with
          | .done s => (rest.evaluate cf s).after [call]
          | .opened _ s | .failed s => ⟨false, s, [call]⟩
  | .block args body rest, cf, s =>
      match callFor load modules cf s args true with
      | none => ⟨false, s, []⟩
      | some call =>
          match Conf.enterSet cf s call with
          | .done s | .failed s => ⟨false, s, [call]⟩
          | .opened frame s =>
              let inside := (body.evaluate frame.inner s).after [call]
              if inside.accepted then
                match frame.leave frame.outer frame.inner frame.conf inside.state with
                | (.ok _, s) => (rest.evaluate cf s).after inside.calls
                | (.error _, s) => ⟨false, s, inside.calls⟩
              else inside

/-- The pass over the directives of a document carries it out and goes on behind it. -/
theorem interpret_tokens (document : Document) (ending : Ending) (rest : List Token)
    (stack : List (Conf.Frame σ)) (cf : Context) (s : σ) :
    Conf.interpret load modules ending (document.tokens ++ rest) stack cf s =
      if (document.evaluate load modules cf s).accepted then
        (Conf.interpret load modules ending rest stack cf
          (document.evaluate load modules cf s).state).after
            (document.evaluate load modules cf s).calls
      else document.evaluate load modules cf s := by
  induction document generalizing rest stack cf s with
  | nil => rfl
  | directive args document ih =>
      rw [Document.tokens, List.cons_append, Conf.interpret, Document.evaluate]
      cases hcall : callFor load modules cf s args false with
      | none => rfl
      | some call =>
          obtain ⟨m, cmd, -, hblock, -, rfl⟩ := Conf.callFor_eq_some.mp hcall
          simp only
          cases henter : Conf.enterSet cf s
              ⟨m, cmd, args, Conf.confFor load s cf.ctx m cmd⟩ with
          | failed s' => rfl
          | opened frame s' =>
              have hopens := (Conf.enterSet_block cf s _).2 frame s' henter
              exact absurd (hblock.symm.trans hopens) (by decide)
          | done s' =>
              simp only [ih]
              by_cases haccepted : (document.evaluate load modules cf s').accepted = true
              · simp [Reading.after, haccepted]
              · simp [Reading.after, haccepted]
  | block args body document ihbody ih =>
      rw [Document.tokens, List.cons_append, List.append_assoc, List.cons_append, Conf.interpret,
        Document.evaluate]
      cases hcall : callFor load modules cf s args true with
      | none => rfl
      | some call =>
          obtain ⟨m, cmd, -, hblock, -, rfl⟩ := Conf.callFor_eq_some.mp hcall
          simp only
          cases henter : Conf.enterSet cf s
              ⟨m, cmd, args, Conf.confFor load s cf.ctx m cmd⟩ with
          | failed s' => rfl
          | done s' =>
              have hdone := (Conf.enterSet_block cf s _).1 s' henter
              exact absurd (hdone.symm.trans hblock) (by decide)
          | opened frame s' =>
              have hframe : frame.outer = cf := by
                rw [Conf.enterSet] at henter
                split at henter
                · split at henter <;> cases henter
                · split at henter
                  · cases henter
                    rfl
                  · cases henter
              simp only [ihbody]
              by_cases hinside : (body.evaluate load modules frame.inner s').accepted = true
              · simp only [hinside, if_true, Conf.interpret, Reading.after]
                cases hleave : frame.leave frame.outer frame.inner frame.conf
                    (body.evaluate load modules frame.inner s').state with
                | mk result s'' =>
                    cases result with
                    | error => simp
                    | ok =>
                        simp only [ih, hframe]
                        by_cases haccepted :
                            (document.evaluate load modules cf s'').accepted = true
                        · simp [Reading.after, haccepted]
                        · simp [haccepted]
              · simp [Reading.after, hinside]

/-! ## Reading and carrying out -/

/-- What the parser sees of what the tokenizer returns. -/
def token : Code → Option Token
  | .ok (name :: params) => some (.directive ⟨name, params⟩ false)
  | .blockStart (name :: params) => some (.directive ⟨name, params⟩ true)
  | .blockDone => some .blockDone
  | _ => none

def fileOf (fd : ℕ) (codes : List Code) : File where
  fd := fd
  tokens := codes.filterMap token
  ending := if codes.getLast? = some .fileDone then .fileDone else .error

/-- The tokenizer and the parser on the text of a file. -/
def parseText (load : σ → ℕ → ℕ) (modules : List (Module σ)) (pagesize : ℕ) (garbage : ℕ → ℤ)
    (cf : NightConf) (s : σ) (fd : ℕ) (text : List Byte) : Option (Outcome σ) := do
  let codes ← readTokens pagesize text garbage (text.length + 1) .empty
  Conf.nightConfParse load modules cf s (fileOf fd codes)

theorem filterMap_codes (document : Document) :
    document.codes.filterMap token = document.tokens := by
  induction document with
  | nil => rfl
  | directive args rest ih =>
      have htoken : token (.ok (words args)) = some (.directive args false) := rfl
      rw [Document.codes, List.filterMap_cons, htoken, ih, Document.tokens]
  | block args body rest ihbody ih =>
      have htoken : token (.blockStart (words args)) = some (.directive args true) := rfl
      have hdone : token .blockDone = some .blockDone := rfl
      rw [Document.codes, List.filterMap_cons, htoken]
      simp only [List.filterMap_append, List.filterMap_cons, hdone, ihbody, ih, Document.tokens]

theorem Writes.length_codes {document : Document} (hwrites : Writes pagesize document text) :
    document.codes.length ≤ text.length := by
  induction hwrites with
  | nil => exact Nat.zero_le _
  | directive _ _ _ ih =>
      simp only [Document.codes, List.length_cons, List.length_append]
      omega
  | block _ _ _ _ ihbody ih =>
      simp only [Document.codes, List.length_cons, List.length_append]
      omega

/-- The parser on the directives of a document carries the document out. -/
theorem nightConfParse_tokens (document : Document) (cf : NightConf) (s : σ) (fd : ℕ) :
    ∃ o, Conf.nightConfParse load modules cf s ⟨fd, document.tokens, .fileDone⟩ = some o ∧
      (o.rc = .ok ↔ (document.evaluate load modules cf.toContext s).accepted = true) ∧
      o.state = (document.evaluate load modules cf.toContext s).state ∧
      o.calls = (document.evaluate load modules cf.toContext s).calls := by
  obtain ⟨o, hrun, hreads⟩ : ∃ o,
      Conf.nightConfParse load modules cf s ⟨fd, document.tokens, .fileDone⟩ = some o ∧
        Conf.Reads load modules .fileDone .file cf.toContext s document.tokens o :=
    Conf.parseLoop_spec (by decide) rfl (Nat.lt_succ_self _)
  have hread := hreads.pass [] (by simp)
  have hdocument : Conf.interpret load modules .fileDone document.tokens [] cf.toContext s =
      document.evaluate load modules cf.toContext s := by
    have hall := interpret_tokens load modules document .fileDone [] [] cf.toContext s
    rw [List.append_nil] at hall
    rw [hall]
    split
    · rename_i haccepted
      simp [Conf.interpret, Reading.after, ← haccepted]
    · rfl
  rw [hdocument, Conf.resume] at hread
  refine ⟨o, hrun, ?_⟩
  cases hrc : o.rc <;> simp [hread, hrc, Reading.after]

/-- Parsing any text of a document carries the document out: `set` is called for the same
directives in the same order and contexts, with the words of the document, and the file is
accepted exactly when the document is. -/
theorem parseText_writes {pagesize : ℕ} (hpage : 1 < pagesize) {document : Document}
    {text : List Byte} (hwrites : Writes pagesize document text) (garbage : ℕ → ℤ)
    (cf : NightConf) (s : σ) (fd : ℕ) :
    ∃ o, parseText load modules pagesize garbage cf s fd text = some o ∧
      (o.rc = .ok ↔ (document.evaluate load modules cf.toContext s).accepted = true) ∧
      o.state = (document.evaluate load modules cf.toContext s).state ∧
      o.calls = (document.evaluate load modules cf.toContext s).calls := by
  have hlength := hwrites.length_codes
  have hfile : fileOf fd (document.codes ++ [.fileDone]) = ⟨fd, document.tokens, .fileDone⟩ := by
    rw [fileOf, List.filterMap_append, filterMap_codes, List.getLast?_append]
    simp [token]
  obtain ⟨o, hrun, hmeaning⟩ := nightConfParse_tokens load modules document cf s fd
  refine ⟨o, ?_, hmeaning⟩
  rw [parseText, readTokens_writes hpage hwrites, List.take_of_length_le (by simp; omega)]
  simp only [Option.bind_eq_bind, Option.bind_some, hfile, hrun]

end Meaning

/-- A module with the commands of `sample`; `b` counts its calls. -/
def counter : Module ℕ where
  type := Conf.confModule
  index := 0
  ctxIndex := 0
  commands := some [
    { name := [ascii 'a']
      type := Conf.confBlock ||| Conf.confNoargs ||| Conf.mainConf
      set := .block (fun cf _ _ s => (.ok cf, s)) (fun _ _ _ s => (.ok (), s))
      conf := 0
      nonempty := by decide
      noNul := by decide
      block := by decide },
    { name := [ascii 'b']
      type := Conf.confTake1 ||| Conf.mainConf
      set := .plain fun _ _ _ s => (.ok (), s + 1)
      conf := 0
      nonempty := by decide
      noNul := by decide
      block := by decide }]

theorem parseText_sample :
    ∃ o, parseText (fun _ _ => 0) [counter] 4096 (fun _ => 1)
        ⟨⟨8, Conf.confModule, Conf.mainConf⟩, none⟩ 0 3 sample.render = some o ∧
      o.rc = .ok ∧ o.state = 1 := by
  obtain ⟨o, hrun, hrc, hstate, -⟩ := parseText_writes (fun _ _ => 0) [counter] (by decide)
    writes_sample (fun _ => 1) ⟨⟨8, Conf.confModule, Conf.mainConf⟩, none⟩ 0 3
  exact ⟨o, hrun, hrc.mpr (by decide), hstate.trans (by decide)⟩

end Night.ConfDocument
