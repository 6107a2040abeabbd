import Mathlib.Data.List.DropRight
import Night.Core.DecimalText

/-!
# `night -s`

A start of the program with `-s` only signals the master that runs: `night_get_options` reads
the arguments, `night_signal_process` reads the pid file that the master has written with
`night_create_pidfile`, and `night_os_signal_process` looks the name up and calls `kill`.
-/

namespace Night.SignalProcess

open Night.Atoi Night.Bytes Night.DecimalText Night.Time

/-! ## The source -/

/-- The texts after `-s` that `night_get_options` lets pass. -/
def names : List (List Byte) := ["stop", "quit", "reopen", "reload"].map literal

/-- `night_get_options` from one argument on.  Each is a C string without its NUL, and NULL
follows the last.  It leaves `night_signal`, and nothing is `NIGHT_ERROR`. -/
def nightGetOptions (nightSignal : Option (List Byte)) :
    List (List Byte) → Option (Option (List Byte))
  | [] => some nightSignal
  | [] :: _ => none
  | [ch] :: args => if ch = ascii '-' then nightGetOptions nightSignal args else none
  | [ch, option] :: args =>
    if ch = ascii '-' ∧ option = ascii 's' then
      match args with
      | [] => none
      | name :: args => if name ∈ names then nightGetOptions (some name) args else none
    else none
  | (ch :: option :: first :: rest) :: args =>
    if ch = ascii '-' ∧ option = ascii 's' then
      if first :: rest ∈ names then nightGetOptions (some (first :: rest)) args else none
    else none

inductive Signo
  | SIGTERM
  | SIGQUIT
  | SIGCHLD
  deriving DecidableEq, Repr

structure NightSignal where
  signo : Signo
  name : List Byte

/-- The table up to the entry with the number 0. -/
def signals : List NightSignal :=
  [⟨.SIGTERM, literal "stop"⟩, ⟨.SIGQUIT, literal "quit"⟩, ⟨.SIGCHLD, literal ""⟩]

/-- What a process asks of `kill`, and its exit code. -/
structure Signalled where
  code : ℤ
  kills : List (ℤ × Signo)
  deriving DecidableEq, Repr

/-- `night_os_signal_process` from one entry of the table on. -/
def nightOsSignalProcess (kill : ℤ → Signo → ℤ) (name : List Byte) (pid : ℤ) :
    List NightSignal → Signalled
  | [] => ⟨9, []⟩
  | sig :: sigs =>
    if name = sig.name then
      if kill pid sig.signo ≠ -1 then ⟨0, [(pid, sig.signo)]⟩
      else
        -- a call that fails does not end the loop
        let rest := nightOsSignalProcess kill name pid sigs
        ⟨rest.code, (pid, sig.signo) :: rest.kills⟩
    else nightOsSignalProcess kill name pid sigs

/-- What comes of opening the pid file and of reading it. -/
inductive Pidfile
  | closed
  | unreadable
  | holds (content : List Byte)
  deriving DecidableEq, Repr

/-- `sizeof("-9223372036854775808") - 1`. -/
def nightInt64Strlen : ℕ := 20

/-- The loop that leaves line ends out: the length that `night_atoi` is given for `n` bytes. -/
def lineLength (buf : List Byte) : ℕ → ℕ
  | 0 => 0
  | n + 1 => if buf[n]? = some CR ∨ buf[n]? = some LF then lineLength buf n else n + 1

/-- `night_signal_process`; no result would be an overflow in `night_atoi`. -/
def nightSignalProcess (kill : ℤ → Signo → ℤ) (s : List Byte) : Pidfile → Option Signalled
  | .closed => some ⟨1, []⟩
  | .unreadable => some ⟨1, []⟩
  | .holds content => do
    let buf := content.take (nightInt64Strlen + 2)
    let pid ← nightAtoi (buf.take (lineLength buf buf.length))
    if pid = -1 then some ⟨1, []⟩ else some (nightOsSignalProcess kill s pid signals)

/-- The end of a start of the program, unless it becomes the master. -/
inductive Run
  | exits (signalled : Signalled)
  | starts
  deriving DecidableEq, Repr

/-- `main` up to `night_time_init`, for the arguments after the program's name. -/
def main (kill : ℤ → Signo → ℤ) (argv : List (List Byte)) (pidfile : Pidfile) : Option Run :=
  match nightGetOptions none argv with
  | none => some (.exits ⟨1, []⟩)
  | some none => some .starts
  | some (some nightSignal) => (nightSignalProcess kill nightSignal pidfile).map .exits

/-- What `snprintf` leaves in `pid` for `"%ld\n\n"`, up to the NUL. -/
def pidText (nightPid : ℤ) : List Byte :=
  (decimal nightPid ++ [LF, LF]).take nightInt64Strlen

/-- `night_create_pidfile`: the return value and the file, by whether `open` succeeds and by
how many bytes `write` takes.  Fewer bytes than the text has are not an error. -/
def nightCreatePidfile (nightPid : ℤ) (opened : Bool) (written : Option ℕ) (pidfile : Pidfile) :
    Bool × Pidfile :=
  if !opened then (false, pidfile)
  else match written with
    | none => (false, .holds [])
    | some count => (true, .holds ((pidText nightPid).take count))

/-! ## What the arguments say -/

/-- What can be asked of a master. -/
inductive Name
  | stop
  | quit
  | reopen
  | reload
  deriving DecidableEq, Repr

def Name.text : Name → List Byte
  | stop => literal "stop"
  | quit => literal "quit"
  | reopen => literal "reopen"
  | reload => literal "reload"

/-- The signal that stands for it; two names have none. -/
def Name.signo : Name → Option Signo
  | stop => some .SIGTERM
  | quit => some .SIGQUIT
  | reopen => none
  | reload => none

/-- An option: a dash that says nothing, or a name behind `-s` in the same argument or in the
next one. -/
inductive Word
  | dash
  | joined (name : Name)
  | apart (name : Name)
  deriving DecidableEq, Repr

def Word.args : Word → List (List Byte)
  | dash => [literal "-"]
  | joined name => [literal "-s" ++ name.text]
  | apart name => [literal "-s", name.text]

def Word.name : Word → Option Name
  | dash => none
  | joined name => some name
  | apart name => some name

/-- The arguments that spell options. -/
def spell (words : List Word) : List (List Byte) := words.flatMap Word.args

/-- The name that counts is the last one. -/
def lastName (words : List Word) : Option Name := (words.filterMap Word.name).getLast?

theorem mem_names_iff (text : List Byte) : text ∈ names ↔ ∃ name : Name, name.text = text := by
  constructor
  · intro hmem
    simp only [names, List.map_cons, List.map_nil, List.mem_cons, List.not_mem_nil,
      or_false] at hmem
    obtain rfl | rfl | rfl | rfl := hmem
    · exact ⟨.stop, rfl⟩
    · exact ⟨.quit, rfl⟩
    · exact ⟨.reopen, rfl⟩
    · exact ⟨.reload, rfl⟩
  · rintro ⟨name, rfl⟩
    cases name <;> simp [names, Name.text]

@[simp]
theorem spell_nil : spell [] = [] := rfl

@[simp]
theorem spell_cons (word : Word) (words : List Word) :
    spell (word :: words) = word.args ++ spell words := List.flatMap_cons

@[simp]
theorem lastName_nil : lastName [] = none := rfl

theorem lastName_dash (words : List Word) : lastName (.dash :: words) = lastName words := rfl

theorem lastName_cons {word : Word} {name : Name} (hname : word.name = some name)
    (words : List Word) : lastName (word :: words) = some ((lastName words).getD name) := by
  rw [lastName, List.filterMap_cons_some hname, List.getLast?_cons]
  rfl

/-- The texts of names have a first byte. -/
theorem Name.text_ne_nil (name : Name) : name.text ≠ [] := by cases name <;> decide

theorem Name.text_injective : Function.Injective Name.text := by
  intro name name' heq
  cases name <;> cases name' <;> first | rfl | exact absurd heq (by decide)

/-- What is left in `night_signal`. -/
def leaves (nightSignal : Option (List Byte)) (words : List Word) : Option (List Byte) :=
  ((lastName words).map Name.text).or nightSignal

theorem leaves_cons {word : Word} {name : Name} (hname : word.name = some name)
    (nightSignal : Option (List Byte)) (words : List Word) :
    leaves nightSignal (word :: words) = leaves (some name.text) words := by
  rw [leaves, leaves, lastName_cons hname]
  cases lastName words <;> rfl

/-- Options that are spelled are read. -/
theorem nightGetOptions_spell (nightSignal : Option (List Byte)) (words : List Word) :
    nightGetOptions nightSignal (spell words) = some (leaves nightSignal words) := by
  induction words generalizing nightSignal with
  | nil => rfl
  | cons word words ih =>
    cases word with
    | dash => exact ih nightSignal
    | joined name =>
      rw [@leaves_cons (.joined name) name rfl, ← ih, spell_cons, Word.args, List.singleton_append]
      have hmem : name.text ∈ names := (mem_names_iff _).mpr ⟨name, rfl⟩
      cases htext : name.text with
      | nil => exact absurd htext name.text_ne_nil
      | cons first rest =>
        rw [htext] at hmem
        exact (if_pos ⟨rfl, rfl⟩).trans (if_pos hmem)
    | apart name =>
      rw [@leaves_cons (.apart name) name rfl, ← ih, spell_cons, Word.args]
      exact (if_pos ⟨rfl, rfl⟩).trans (if_pos ((mem_names_iff _).mpr ⟨name, rfl⟩))

/-- Only options are read. -/
theorem spelled_of_nightGetOptions {nightSignal nightSignal' : Option (List Byte)}
    {argv : List (List Byte)} (hread : nightGetOptions nightSignal argv = some nightSignal') :
    ∃ words, argv = spell words ∧ nightSignal' = leaves nightSignal words := by
  fun_induction nightGetOptions nightSignal argv with
  | case1 nightSignal => exact ⟨[], rfl, (Option.some.inj hread).symm⟩
  | case2 => cases hread
  | case3 nightSignal args ih =>
    obtain ⟨words, rfl, rfl⟩ := ih hread
    exact ⟨.dash :: words, rfl, rfl⟩
  | case4 => cases hread
  | case5 => cases hread
  | case6 nightSignal ch option hdash name args hmem ih =>
    obtain ⟨words, rfl, rfl⟩ := ih hread
    obtain ⟨name, rfl⟩ := (mem_names_iff _).mp hmem
    obtain ⟨rfl, rfl⟩ := hdash
    exact ⟨.apart name :: words, rfl, (leaves_cons rfl _ _).symm⟩
  | case7 => cases hread
  | case8 => cases hread
  | case9 nightSignal ch option first rest args hdash hmem ih =>
    obtain ⟨words, rfl, rfl⟩ := ih hread
    obtain ⟨name, hname⟩ := (mem_names_iff _).mp hmem
    obtain ⟨rfl, rfl⟩ := hdash
    refine ⟨.joined name :: words, ?_, ?_⟩
    · rw [spell_cons, Word.args, hname]
      rfl
    · rw [@leaves_cons (.joined name) name rfl, hname]
  | case10 => cases hread
  | case11 => cases hread

/-! ## What the pid file says -/

/-- A byte that ends a line. -/
def isLineEnd (ch : Byte) : Bool := ch = CR ∨ ch = LF

/-- The bytes of a file that `night_atoi` is given. -/
def pidLine (content : List Byte) : List Byte :=
  (content.take (nightInt64Strlen + 2)).rdropWhile isLineEnd

/-- A file gives a process for `kill`: 0 is one too, for the group of the caller. -/
def Pidfile.Gives (pidfile : Pidfile) (pid : ℤ) : Prop :=
  ∃ content, pidfile = .holds content ∧ IsNumber (pidLine content) ∧
    decimalValue (pidLine content) ≤ 2147483647 ∧ pid = decimalValue (pidLine content)

theorem take_lineLength (buf : List Byte) {n : ℕ} (hn : n ≤ buf.length) :
    buf.take (lineLength buf n) = (buf.take n).rdropWhile isLineEnd := by
  induction n with
  | zero => rfl
  | succ n ih =>
    have hlt : n < buf.length := hn
    rw [List.take_succ_eq_append_getElem hlt, lineLength, List.getElem?_eq_getElem hlt]
    by_cases hend : buf[n] = CR ∨ buf[n] = LF
    · rw [if_pos (hend.imp (congrArg some) (congrArg some)), ih (by omega),
        List.rdropWhile_concat_pos isLineEnd _ _ (decide_eq_true hend)]
    · rw [if_neg fun hsome => hend (hsome.imp Option.some.inj Option.some.inj),
        List.rdropWhile_concat_neg isLineEnd _ _ (by simpa [isLineEnd] using hend),
        List.take_succ_eq_append_getElem hlt]

variable {kill : ℤ → Signo → ℤ}

/-- What is sent for a name to a process. -/
def send (kill : ℤ → Signo → ℤ) (name : Name) (pid : ℤ) : Signalled :=
  match name.signo with
  | some signo => ⟨if kill pid signo ≠ -1 then 0 else 9, [(pid, signo)]⟩
  | none => ⟨9, []⟩

/-- No two entries of the table have one name. -/
theorem nightOsSignalProcess_eq (kill : ℤ → Signo → ℤ) (name : Name) (pid : ℤ) :
    nightOsSignalProcess kill name.text pid signals = send kill name pid := by
  have hstop : literal "stop" ≠ literal "quit" ∧ literal "stop" ≠ literal "" := by decide
  have hquit : literal "quit" ≠ literal "stop" ∧ literal "quit" ≠ literal "" := by decide
  cases name with
  | stop =>
    by_cases hkill : kill pid .SIGTERM = -1 <;>
      simp [nightOsSignalProcess, signals, send, Name.signo, Name.text, hkill, hstop]
  | quit =>
    by_cases hkill : kill pid .SIGQUIT = -1 <;>
      simp [nightOsSignalProcess, signals, send, Name.signo, Name.text, hkill, hquit]
  | reopen => rfl
  | reload => rfl

theorem nightSignalProcess_holds (name : Name) (content : List Byte) :
    nightSignalProcess kill name.text (.holds content) =
      some (if IsNumber (pidLine content) ∧ decimalValue (pidLine content) ≤ 2147483647 then
        send kill name (decimalValue (pidLine content)) else ⟨1, []⟩) := by
  have hline := take_lineLength (content.take (nightInt64Strlen + 2)) le_rfl
  rw [List.take_length, ← pidLine] at hline
  simp only [nightSignalProcess, hline, (readers_eq _).1, Option.bind_eq_bind, Option.bind_some,
    nightOsSignalProcess_eq]
  by_cases hnumber : IsNumber (pidLine content) ∧ decimalValue (pidLine content) ≤ 2147483647
  · rw [if_pos hnumber, if_pos hnumber, if_neg (by omega)]
  · rw [if_neg hnumber, if_neg hnumber, if_pos rfl]

/-- What a start does, by the name that its arguments leave. -/
theorem main_spell (kill : ℤ → Signo → ℤ) (words : List Word) (pidfile : Pidfile) :
    main kill (spell words) pidfile =
      match lastName words with
      | none => some .starts
      | some name => (nightSignalProcess kill name.text pidfile).map .exits := by
  rw [main, nightGetOptions_spell, leaves]
  cases lastName words <;> rfl

theorem spell_eq_dashes (words : List Word) :
    lastName words = none ↔ ∀ arg ∈ spell words, arg = literal "-" := by
  induction words with
  | nil => simp
  | cons word words ih =>
    cases word with
    | dash => simpa [lastName_dash, Word.args] using ih
    | joined name =>
      rw [@lastName_cons (.joined name) name rfl]
      refine iff_of_false (by simp) fun hall => ?_
      have hdash := hall (literal "-s" ++ name.text) (by simp [Word.args])
      cases name <;> exact absurd hdash (by decide)
    | apart name =>
      rw [@lastName_cons (.apart name) name rfl]
      refine iff_of_false (by simp) fun hall => ?_
      exact absurd (hall (literal "-s") (by simp [Word.args])) (by decide)

/-- A process that only signals: one call of `kill` at most, and the code tells how it went. -/
structure Signalled.Lawful (signalled : Signalled) (kill : ℤ → Signo → ℤ) : Prop where
  one : signalled.kills.length ≤ 1
  code : signalled.code = 0 ↔ ∃ sent ∈ signalled.kills, kill sent.1 sent.2 ≠ -1

theorem send_lawful (kill : ℤ → Signo → ℤ) (name : Name) (pid : ℤ) :
    (send kill name pid).Lawful kill := by
  rw [send]
  cases name.signo with
  | none => exact ⟨by simp, by simp⟩
  | some signo =>
    refine ⟨le_rfl, ?_⟩
    by_cases hkill : kill pid signo = -1 <;> simp [hkill]

theorem mem_send_iff (kill : ℤ → Signo → ℤ) (name : Name) (pid pid' : ℤ) (signo : Signo) :
    (pid', signo) ∈ (send kill name pid).kills ↔ name.signo = some signo ∧ pid' = pid := by
  rw [send]
  cases name.signo with
  | none => simp
  | some signo' =>
    simp only [List.mem_singleton, Prod.mk.injEq, Option.some.injEq]
    exact ⟨fun h => ⟨h.2.symm, h.1⟩, fun h => ⟨h.2, h.1.symm⟩⟩

theorem error_lawful (kill : ℤ → Signo → ℤ) : (⟨1, []⟩ : Signalled).Lawful kill :=
  ⟨by simp, by simp⟩

/-- `night_signal_process` sends the signal of the name to the process that the file gives. -/
theorem nightSignalProcess_spec (kill : ℤ → Signo → ℤ) (name : Name) (pidfile : Pidfile) :
    ∃ signalled, nightSignalProcess kill name.text pidfile = some signalled ∧
      signalled.Lawful kill ∧
      ∀ pid signo, (pid, signo) ∈ signalled.kills ↔
        name.signo = some signo ∧ pidfile.Gives pid := by
  cases pidfile with
  | closed => exact ⟨_, rfl, error_lawful kill, by simp [Pidfile.Gives]⟩
  | unreadable => exact ⟨_, rfl, error_lawful kill, by simp [Pidfile.Gives]⟩
  | holds content =>
    rw [nightSignalProcess_holds]
    refine ⟨_, rfl, ?_⟩
    by_cases hnumber : IsNumber (pidLine content) ∧ decimalValue (pidLine content) ≤ 2147483647
    · rw [if_pos hnumber]
      refine ⟨send_lawful kill name _, fun pid signo => ?_⟩
      rw [mem_send_iff]
      simp [Pidfile.Gives, hnumber]
    · rw [if_neg hnumber]
      refine ⟨error_lawful kill, fun pid signo => ?_⟩
      simp only [Pidfile.Gives, Pidfile.holds.injEq, exists_eq_left', List.not_mem_nil,
        false_iff]
      exact fun hgives => hnumber ⟨hgives.2.1, hgives.2.2.1⟩

/-- Arguments that say nothing are options. -/
theorem exists_spell_of_dashes {argv : List (List Byte)} (hall : ∀ arg ∈ argv, arg = literal "-") :
    ∃ words, argv = spell words := by
  induction argv with
  | nil => exact ⟨[], rfl⟩
  | cons arg argv ih =>
    obtain ⟨harg, hrest⟩ := List.forall_mem_cons.mp hall
    obtain ⟨words, rfl⟩ := ih hrest
    exact ⟨.dash :: words, by rw [harg, spell_cons]; rfl⟩

/-- Two ways to spell the same arguments leave the same name. -/
theorem lastName_eq_of_spell {words words' : List Word} (heq : spell words = spell words') :
    lastName words = lastName words' := by
  have hread := (nightGetOptions_spell none words).symm.trans
    ((congrArg _ heq).trans (nightGetOptions_spell none words'))
  simp only [leaves, Option.or_none, Option.some.injEq] at hread
  exact Option.map_injective Name.text_injective hread

/-- Every start ends in one of three ways.  It becomes the master when no argument says
anything; a signal is sent exactly if all arguments are options, the last name is one that has
a signal, and the file gives a process, the one it is sent to. -/
theorem main_signals (kill : ℤ → Signo → ℤ) (argv : List (List Byte)) (pidfile : Pidfile) :
    ∃ run, main kill argv pidfile = some run ∧
      (run = .starts ↔ ∀ arg ∈ argv, arg = literal "-") ∧
      ∀ signalled, run = .exits signalled →
        signalled.Lawful kill ∧
        ∀ pid signo, (pid, signo) ∈ signalled.kills ↔
          ∃ words name, argv = spell words ∧ lastName words = some name ∧
            name.signo = some signo ∧ pidfile.Gives pid := by
  cases hread : nightGetOptions none argv with
  | none =>
    have hnone : ¬ ∃ words, argv = spell words := by
      rintro ⟨words, rfl⟩
      rw [nightGetOptions_spell] at hread
      cases hread
    refine ⟨.exits ⟨1, []⟩, by rw [main, hread], ?_, ?_⟩
    · exact iff_of_false (by simp) fun hall => hnone (exists_spell_of_dashes hall)
    · rintro signalled ⟨⟩
      refine ⟨error_lawful kill, fun pid signo => iff_of_false (by simp) ?_⟩
      rintro ⟨words, -, hwords, -⟩
      exact hnone ⟨words, hwords⟩
  | some nightSignal =>
    obtain ⟨words, rfl, -⟩ := spelled_of_nightGetOptions hread
    rw [main_spell]
    cases hname : lastName words with
    | none =>
      exact ⟨.starts, rfl, iff_of_true rfl ((spell_eq_dashes words).mp hname), by simp⟩
    | some name =>
      obtain ⟨signalled, hsignalled, hlawful, hmem⟩ :=
        nightSignalProcess_spec kill name pidfile
      refine ⟨.exits signalled, by simp [hsignalled], ?_, ?_⟩
      · refine iff_of_false (by simp) fun hall => ?_
        rw [(spell_eq_dashes words).mpr hall] at hname
        cases hname
      · rintro _ ⟨⟩
        refine ⟨hlawful, fun pid signo => (hmem pid signo).trans ?_⟩
        constructor
        · rintro ⟨hsigno, hgives⟩
          exact ⟨words, name, rfl, hname, hsigno, hgives⟩
        · rintro ⟨words', name', hwords, hname', hsigno, hgives⟩
          rw [← lastName_eq_of_spell hwords, hname] at hname'
          cases hname'
          exact ⟨hsigno, hgives⟩

/-! ## The pid file of a master -/

theorem isNumber_take_decimal {n : ℤ} (hn : 0 ≤ n) {count : ℕ} (hcount : 0 < count) :
    IsNumber ((decimal n).take count) := by
  refine ⟨?_, fun ch hch => digits_decimal hn ch (List.mem_of_mem_take hch)⟩
  have hpos : 0 < (decimal n).length := by
    rw [length_decimal_of_nonneg hn]
    exact Nat.length_toDigits_pos
  rw [← List.length_pos_iff, List.length_take]
  omega

theorem not_isLineEnd_of_digit {ch : Byte} (hdigit : ascii '0' ≤ ch ∧ ch ≤ ascii '9') :
    isLineEnd ch = false := by
  have hlow : 48 ≤ ch.toNat := hdigit.1
  rw [isLineEnd, decide_eq_false_iff_not]
  rintro (rfl | rfl) <;> exact absurd hlow (by decide)

/-- Line ends after a number are left out, and nothing of the number. -/
theorem rdropWhile_number {line ends : List Byte} (hline : IsNumber line)
    (hends : ∀ ch ∈ ends, isLineEnd ch) : (line ++ ends).rdropWhile isLineEnd = line := by
  rw [List.rdropWhile, List.reverse_append,
    List.dropWhile_append_of_pos fun ch hch => hends ch (List.mem_reverse.mp hch),
    ← List.rdropWhile, List.rdropWhile_eq_self_iff]
  intro hne
  simp [not_isLineEnd_of_digit (hline.2 _ (List.getLast_mem hne))]

theorem length_decimal_pid {n : ℤ} (hn : 0 ≤ n) (hlt : n < 2 ^ 31) : (decimal n).length ≤ 10 :=
  length_decimal_le (by decide) hn (by omega)

/-- The line of a file that was written is the number, as far as it was written. -/
theorem pidLine_pidText {nightPid : ℤ} (hpos : 0 ≤ nightPid) (hlt : nightPid < 2 ^ 31) {count : ℕ}
    (hcount : 0 < count) :
    pidLine ((pidText nightPid).take count) = (decimal nightPid).take count := by
  have hlength : (decimal nightPid ++ [LF, LF]).length ≤ nightInt64Strlen := by
    have := length_decimal_pid hpos hlt
    rw [List.length_append, nightInt64Strlen]
    simp only [List.length_cons, List.length_nil]
    omega
  have htake : ((decimal nightPid ++ [LF, LF]).take count).length ≤ nightInt64Strlen + 2 :=
    (List.length_take_le' _ _).trans (hlength.trans (by omega))
  rw [pidLine, pidText, List.take_of_length_le hlength, List.take_of_length_le htake,
    List.take_append]
  refine rdropWhile_number (isNumber_take_decimal hpos hcount) fun ch hch => ?_
  have hmem := List.mem_of_mem_take hch
  simp only [List.mem_cons, List.not_mem_nil, or_false, or_self] at hmem
  rw [hmem]
  decide

theorem decimalValue_take_le {n : ℤ} (hn : 0 ≤ n) (count : ℕ) :
    (decimalValue ((decimal n).take count) : ℤ) ≤ n := by
  have hvalue := decimalValue_decimal hn
  have hmore := Decimal.value_le_append (((decimal n).take count).map fun ch => ch.toNat - 48)
    (((decimal n).drop count).map fun ch => ch.toNat - 48)
  rw [← List.map_append, List.take_append_drop, ← decimalValue, ← decimalValue] at hmore
  omega

/-- A number that is not written to its end is a smaller one. -/
theorem decimalValue_take_eq_iff {n : ℤ} (hpos : 0 < n) (count : ℕ) :
    (decimalValue ((decimal n).take count) : ℤ) = n ↔ (decimal n).length ≤ count := by
  constructor
  · intro heq
    by_contra hshort
    push Not at hshort
    -- the next digit would multiply the number by ten
    have hvalue := decimalValue_decimal hpos.le
    rw [← List.take_append_drop count (decimal n), List.drop_eq_getElem_cons hshort,
      List.append_cons, decimalValue, List.map_append, List.map_append, List.map_singleton]
      at hvalue
    have hmore := Decimal.value_le_append
      (((decimal n).take count).map (fun ch => ch.toNat - 48) ++
        [(decimal n)[count].toNat - 48])
      (((decimal n).drop (count + 1)).map fun ch => ch.toNat - 48)
    rw [Decimal.value_append, ← decimalValue] at hmore
    omega
  · intro hcount
    rw [List.take_of_length_le hcount, decimalValue_decimal hpos.le]

/-- A name is sent to the process whose number the file holds, as far as that was written: to
the master exactly if all its digits were. -/
theorem main_created (kill : ℤ → Signo → ℤ) {words : List Word} {name : Name}
    (hname : lastName words = some name) {nightPid : ℤ} (hpos : 0 < nightPid)
    (hlt : nightPid < 2 ^ 31) {count : ℕ} (hcount : 0 < count) (before : Pidfile) :
    main kill (spell words) (nightCreatePidfile nightPid true (some count) before).2 =
        some (.exits (send kill name (decimalValue ((decimal nightPid).take count)))) ∧
      ((decimalValue ((decimal nightPid).take count) : ℤ) = nightPid ↔
        (decimal nightPid).length ≤ count) := by
  refine ⟨?_, decimalValue_take_eq_iff hpos count⟩
  have hvalue := decimalValue_take_le hpos.le count
  rw [main_spell, hname, nightCreatePidfile, if_neg (by decide)]
  simp only [nightSignalProcess_holds, pidLine_pidText hpos.le hlt hcount, Option.map_some]
  rw [if_pos ⟨isNumber_take_decimal hpos.le hcount, by omega⟩]

/-- `night -s stop -squit` after the master with the number 407 has written three digits. -/
theorem main_created_sample :
    main (fun _ _ => 0) (spell [.apart .stop, .joined .quit])
        (nightCreatePidfile 407 true (some 3) .closed).2 =
        some (.exits (send (fun _ _ => 0) .quit (decimalValue ((decimal 407).take 3)))) ∧
      ((decimalValue ((decimal 407).take 3) : ℤ) = 407 ↔ (decimal 407).length ≤ 3) :=
  main_created (fun _ _ => 0) rfl (by decide) (by decide) (by decide) .closed

end Night.SignalProcess
