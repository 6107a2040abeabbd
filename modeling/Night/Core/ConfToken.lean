import Night.Core.Bytes
import Night.Lib.Refill

/-!
# `night_conf_read_token` of the 2025 tree

A directive is read byte by byte from a buffer of `NIGHT_DEFAULT_POOL_LIMIT` bytes.  At a
refill the bytes from `word_start` on move to its front; `word_start` is where the last
word, comment or punctuation began, or the call, and blanks do not move it.  The number of
the line is in messages only and left out, and so is a failed allocation.
-/

namespace Night.ConfFile

open Night.Bytes
open Night.Refill

def nightDefaultPoolLimit : ℕ := 4 * 1024

def TAB : Byte := 0x09#8

abbrev Word := List Byte

/-- What a call returns, with the words in `cf->args` where the caller reads them. -/
inductive Code where
  | ok (args : List Word)
  | blockStart (args : List Word)
  | blockDone
  | fileDone
  | error
  deriving DecidableEq, Repr

def isBlank (ch : Byte) : Bool := ch == SP || ch == TAB || ch == CR || ch == LF

/-! ## One byte -/

/-- The flags of the function.  Nothing sets `needSpace`. -/
structure Locals where
  lastSpace : Bool
  sharpComment : Bool
  needSpace : Bool
  deriving DecidableEq, Repr

def Locals.start : Locals where
  lastSpace := true
  sharpComment := false
  needSpace := false

/-- What a byte does: the loop goes on, with `word_start` moved to the byte or not, or the
function returns. -/
inductive Step where
  | next (locals : Locals) (args : List Word) (moved : Bool)
  | ret (code : Code)
  deriving DecidableEq, Repr

/-- The part of the loop for a byte behind a blank. -/
def stepSpace (l : Locals) (args : List Word) (ch : Byte) : Step :=
  if isBlank ch then .next l args false
  else if ch = ascii ';' ∨ ch = ascii '{' then
    if args = [] then .ret .error
    else if ch = ascii '{' then .ret (.blockStart args)
    else .ret (.ok args)
  else if ch = ascii '}' then
    if args ≠ [] then .ret .error else .ret .blockDone
  else if ch = ascii '#' then .next { l with sharpComment := true } args true
  else .next { l with lastSpace := false } args true

/-- The part of the loop for a byte inside a word; `raw` are the bytes from `word_start` to
the byte. -/
def stepWord (l : Locals) (args : List Word) (raw : List Byte) (ch : Byte) : Step :=
  if isBlank ch ∨ ch = ascii ';' ∨ ch = ascii '{' then
    let args := args ++ [raw]
    if ch = ascii ';' then .ret (.ok args)
    else if ch = ascii '{' then .ret (.blockStart args)
    else .next { l with lastSpace := true } args false
  else .next l args false

/-- The loop body behind `ch = *b->pos++`. -/
def step (l : Locals) (args : List Word) (raw : List Byte) (ch : Byte) : Step :=
  let l := if ch = LF ∧ l.sharpComment then { l with sharpComment := false } else l
  if l.sharpComment then .next l args false
  else if l.needSpace then
    if isBlank ch then .next { l with lastSpace := true, needSpace := false } args false
    else if ch = ascii ';' then .ret (.ok args)
    else if ch = ascii '{' then .ret (.blockStart args)
    else .ret .error
  else if l.lastSpace then stepSpace l args ch
  else stepWord l args raw ch

/-- The end of the file: an unfinished directive is an error. -/
def atEnd (l : Locals) (args : List Word) : Code :=
  if args ≠ [] ∨ l.lastSpace = false then .error else .fileDone

/-! ## The buffer -/

/-- The start of the loop body: a buffer that is used up is filled again.  `amount` says how
much a `pread` at an offset gives, and `memcpy` copies the bytes one by one from the first
on. -/
def fill (limit : ℕ) (amount : ℕ → ℕ) (file : List Byte) (l : Locals) (args : List Word)
    (wordStart : ℕ) (b : Window Byte) : Except Code (ℕ × Window Byte) :=
  if b.held.length ≤ b.pos then
    if file.length ≤ b.offset then .error (atEnd l args)
    else if b.pos - wordStart = limit then .error .error
    else .ok (0, b.refill limit amount file wordStart)
  else .ok (wordStart, b)

/-- The loop, for at most `fuel` bytes. -/
def loop (limit : ℕ) (amount : ℕ → ℕ) (file : List Byte) :
    ℕ → Locals → List Word → ℕ → Window Byte → Option (Code × Window Byte)
  | 0, _, _, _, _ => none
  | fuel + 1, l, args, wordStart, b =>
      match fill limit amount file l args wordStart b with
      | .error code => some (code, b)
      | .ok (wordStart, b) =>
          match b.held[b.pos]? with
          | none => none
          | some ch =>
              match step l args (b.since wordStart) ch with
              | .ret code => some (code, b.advance)
              | .next l args moved =>
                  loop limit amount file fuel l args (if moved then b.pos else wordStart)
                    b.advance

/-- `night_conf_read_token`. -/
def nightConfReadToken (limit : ℕ) (amount : ℕ → ℕ) (file : List Byte) (b : Window Byte) :
    Option (Code × Window Byte) :=
  loop limit amount file (file.length + 1) .start [] b.pos b

/-- A directive or the end of a block: the parser goes on. -/
def Code.goesOn : Code → Bool
  | .ok _ | .blockStart _ | .blockDone => true
  | .fileDone | .error => false

/-- The results of the first `calls` successive calls, as long as the parser goes on. -/
def readTokens (limit : ℕ) (amount : ℕ → ℕ) (file : List Byte) :
    ℕ → Window Byte → Option (List Code)
  | 0, _ => some []
  | calls + 1, b => do
      let (code, b) ← nightConfReadToken limit amount file b
      if code.goesOn then
        let codes ← readTokens limit amount file calls b
        some (code :: codes)
      else some [code]

/-! ## The whole text at once -/

/-- The bytes from `word_start` on behind a byte. -/
def moveStart (raw : List Byte) (ch : Byte) (moved : Bool) : List Byte :=
  if moved then [ch] else raw ++ [ch]

/-- A call that sees the whole text behind it, and the text that it leaves. -/
def wholeScan : List Byte → Locals → List Word → List Byte → Code × List Byte
  | [], l, args, _ => (atEnd l args, [])
  | ch :: rest, l, args, raw =>
      match step l args raw ch with
      | .ret code => (code, rest)
      | .next l args moved => wholeScan rest l args (moveStart raw ch moved)

def wholeToken (text : List Byte) : Code × List Byte := wholeScan text .start [] []

/-- The results of the first `calls` successive calls on a text. -/
def wholeTokens : ℕ → List Byte → List Code
  | 0, _ => []
  | calls + 1, text =>
      (wholeToken text).1 ::
        if (wholeToken text).1.goesOn then wholeTokens calls (wholeToken text).2 else []

/-- In a call `limit` bytes are read behind `word_start`, and more of the text follows. -/
def TooLong (limit : ℕ) : List Byte → Locals → List Word → List Byte → Prop
  | [], _, _, _ => False
  | ch :: rest, l, args, raw =>
      raw.length = limit ∨
        match step l args raw ch with
        | .ret _ => False
        | .next l args moved => TooLong limit rest l args (moveStart raw ch moved)

/-- No call up to the first error or the end reads `limit` bytes behind `word_start`, unless
it ends with an error anyway. -/
def SafeCalls (limit : ℕ) : ℕ → List Byte → Prop
  | 0, _ => True
  | calls + 1, text =>
      ((wholeToken text).1 = .error ∨ ¬ TooLong limit text .start [] []) ∧
        ((wholeToken text).1.goesOn = true → SafeCalls limit calls (wholeToken text).2)

def Safe (limit : ℕ) (text : List Byte) : Prop := ∀ calls, SafeCalls limit calls text

/-! ## A call on the buffer is a call on the text -/

/-- A call on the text that gives up where the buffer is full. -/
def limitedScan (limit : ℕ) : List Byte → Locals → List Word → List Byte → Code × List Byte
  | [], l, args, _ => (atEnd l args, [])
  | ch :: rest, l, args, raw =>
      if raw.length = limit then (.error, ch :: rest)
      else
        match step l args raw ch with
        | .ret code => (code, rest)
        | .next l args moved => limitedScan limit rest l args (moveStart raw ch moved)

variable (limit : ℕ) (amount : ℕ → ℕ) {file text : List Byte}

/-- Where the buffer is not full the limit changes nothing; where it is, the call ends with
an error. -/
theorem limitedScan_spec (text : List Byte) (l : Locals) (args : List Word)
    (raw : List Byte) :
    (¬ TooLong limit text l args raw →
        limitedScan limit text l args raw = wholeScan text l args raw) ∧
      (TooLong limit text l args raw → (limitedScan limit text l args raw).1 = .error) := by
  induction text generalizing l args raw with
  | nil => exact ⟨fun _ => rfl, fun hlong => absurd hlong id⟩
  | cons ch rest ih =>
      rw [limitedScan, wholeScan, TooLong]
      by_cases hfull : raw.length = limit
      · rw [if_pos hfull]
        exact ⟨fun hnot => absurd (Or.inl hfull) hnot, fun _ => rfl⟩
      · rw [if_neg hfull]
        cases step l args raw ch with
        | ret code => exact ⟨fun _ => rfl, fun hlong => absurd (hlong.resolve_left hfull) id⟩
        | next l' args' moved =>
            obtain ⟨hsame, herror⟩ := ih l' args' (moveStart raw ch moved)
            exact ⟨fun hnot => hsame (fun hlong => hnot (Or.inr hlong)),
              fun hlong => herror (hlong.resolve_left hfull)⟩

/-- The loop reads what is still to come of the file, and stands in front of what the call
on the text leaves. -/
theorem loop_spec (text : List Byte) {fuel : ℕ} (hfuel : text.length < fuel) (l : Locals)
    (args : List Word) {wordStart : ℕ} {b : Window Byte} (hsound : b.Sound limit file)
    (hstart : wordStart ≤ b.pos) (hunread : b.unread file = text) :
    ∃ b', loop limit amount file fuel l args wordStart b =
        some ((limitedScan limit text l args (b.since wordStart)).1, b') ∧
      b'.Sound limit file ∧
      b'.unread file = (limitedScan limit text l args (b.since wordStart)).2 := by
  induction text generalizing fuel l args wordStart b with
  | nil =>
      obtain ⟨fuel, rfl⟩ : ∃ more, fuel = more + 1 := ⟨fuel - 1, by omega⟩
      have hnil := List.append_eq_nil_iff.mp hunread
      have hused : b.held.length ≤ b.pos := List.drop_eq_nil_iff.mp hnil.1
      have hend : file.length ≤ b.offset := List.drop_eq_nil_iff.mp hnil.2
      refine ⟨b, ?_, hsound, hunread⟩
      rw [loop, fill, if_pos hused, if_pos hend]
      rfl
  | cons ch rest ih =>
      obtain ⟨fuel, rfl⟩ : ∃ more, fuel = more + 1 := ⟨fuel - 1, by omega⟩
      rw [List.length_cons] at hfuel
      -- the loop behind `fill`, with a byte at the position
      have hbody {mark : ℕ} {w : Window Byte} (hw : w.Sound limit file) (hmark : mark ≤ w.pos)
          (hnext : w.unread file = ch :: rest) (hpos : w.pos < w.held.length)
          (hsince : w.since mark = b.since wordStart)
          (hfill : fill limit amount file l args wordStart b = .ok (mark, w))
          (hfull : (b.since wordStart).length ≠ limit) :
          ∃ b', loop limit amount file (fuel + 1) l args wordStart b =
              some ((limitedScan limit (ch :: rest) l args (b.since wordStart)).1, b') ∧
            b'.Sound limit file ∧
            b'.unread file =
              (limitedScan limit (ch :: rest) l args (b.since wordStart)).2 := by
        have hch := Window.getElem?_of_unread hpos hnext
        have hadvance := Window.sound_advance hw hpos
        have hrest := Window.unread_advance hpos hnext
        rw [loop, hfill, limitedScan, if_neg hfull]
        simp only [hch, hsince]
        cases step l args (b.since wordStart) ch with
        | ret code => exact ⟨w.advance, rfl, hadvance, hrest⟩
        | next l' args' moved =>
            cases moved with
            | true =>
                have hmoved : w.advance.since w.pos = moveStart (b.since wordStart) ch true :=
                  Window.since_advance_self hpos hch
                have hgo := ih (show rest.length < fuel by omega) l' args' hadvance
                  (Nat.le_succ w.pos) hrest
                rw [hmoved] at hgo
                exact hgo
            | false =>
                have hkept : w.advance.since mark =
                    moveStart (b.since wordStart) ch false := by
                  rw [Window.since_advance hpos hmark hch, hsince]
                  rfl
                have hgo := ih (show rest.length < fuel by omega) l' args' hadvance
                  (Nat.le_succ_of_le hmark) hrest
                rw [hkept] at hgo
                exact hgo
      have hlength := Window.length_since hsound hstart
      by_cases hused : b.held.length ≤ b.pos
      · have hmore : b.offset < file.length := by
          by_contra hend
          have hnil : b.unread file = [] := by
            rw [Window.unread, List.drop_eq_nil_of_le hused,
              List.drop_eq_nil_of_le (Nat.le_of_not_lt hend), List.append_nil]
          rw [hnil] at hunread
          cases hunread
        have hend : ¬ file.length ≤ b.offset := Nat.not_le_of_lt hmore
        by_cases hfull : b.pos - wordStart = limit
        · refine ⟨b, ?_, hsound, ?_⟩
          · rw [loop, fill, if_pos hused, if_neg hend, if_pos hfull, limitedScan,
              if_pos (hlength.trans hfull)]
          · rw [limitedScan, if_pos (hlength.trans hfull), hunread]
        · have hroom : b.pos - wordStart < limit := by
            have hpos := hsound.pos_le
            have hheld := hsound.held_le
            omega
          refine hbody (w := b.refill limit amount file wordStart)
            (Window.sound_refill hsound hstart) (Nat.zero_le _) ?_
            (Window.pos_lt_refill hsound hstart hroom hmore)
            (Window.since_refill hsound hstart) ?_ (fun h => hfull (hlength.symm.trans h))
          · rw [Window.unread_refill hsound hused hstart, hunread]
          · rw [fill, if_pos hused, if_neg hend, if_neg hfull]
      · have hpos : b.pos < b.held.length := Nat.lt_of_not_le hused
        have hheld := hsound.held_le
        refine hbody hsound hstart hunread hpos rfl ?_ (fun h => by omega)
        rw [fill, if_neg hused]

theorem limitedScan_length (text : List Byte) (l : Locals) (args : List Word)
    (raw : List Byte) : (limitedScan limit text l args raw).2.length ≤ text.length := by
  induction text generalizing l args raw with
  | nil => exact Nat.le_refl _
  | cons ch rest ih =>
      rw [limitedScan]
      split
      · exact Nat.le_refl _
      · cases step l args raw ch with
        | ret code => exact Nat.le_succ _
        | next l' args' moved => exact Nat.le_succ_of_le (ih l' args' (moveStart raw ch moved))

/-- A call leaves the buffer in front of what the call on the text leaves. -/
theorem nightConfReadToken_spec {b : Window Byte} (hsound : b.Sound limit file)
    (hunread : b.unread file = text) (hlength : text.length ≤ file.length) :
    ∃ b', nightConfReadToken limit amount file b =
        some ((limitedScan limit text .start [] []).1, b') ∧ b'.Sound limit file ∧
      b'.unread file = (limitedScan limit text .start [] []).2 := by
  have hloop := loop_spec limit amount text (Nat.lt_succ_of_le hlength) .start [] hsound
    (Nat.le_refl b.pos) hunread
  rw [Window.since_self] at hloop
  exact hloop

/-- What a call on the text behind a full buffer and a call on the whole text have in
common: the results, and what is left where the parser goes on. -/
theorem limitedScan_safe
    (hsafe : (wholeToken text).1 = .error ∨ ¬ TooLong limit text .start [] []) :
    (limitedScan limit text .start [] []).1 = (wholeToken text).1 ∧
      ((wholeToken text).1.goesOn = true →
        (limitedScan limit text .start [] []).2 = (wholeToken text).2) := by
  obtain ⟨hsame, herror⟩ := limitedScan_spec limit text .start [] []
  by_cases hlong : TooLong limit text .start [] []
  · have hwhole := hsafe.resolve_right (not_not_intro hlong)
    rw [hwhole]
    exact ⟨herror hlong, fun hgoes => by cases hgoes⟩
  · rw [hsame hlong]
    exact ⟨rfl, fun _ => rfl⟩

theorem readTokens_iff_safeCalls (calls : ℕ) {b : Window Byte} (hsound : b.Sound limit file)
    (hunread : b.unread file = text) (hlength : text.length ≤ file.length) :
    readTokens limit amount file calls b = some (wholeTokens calls text) ↔
      SafeCalls limit calls text := by
  induction calls generalizing b text with
  | zero => exact ⟨fun _ => trivial, fun _ => rfl⟩
  | succ calls ih =>
      obtain ⟨b', hread, hsound', hunread'⟩ :=
        nightConfReadToken_spec limit amount hsound hunread hlength
      have hshorter := limitedScan_length limit text .start [] []
      rw [readTokens, hread, wholeTokens, SafeCalls, Option.bind_eq_bind, Option.bind_some]
      by_cases hsafe : (wholeToken text).1 = .error ∨ ¬ TooLong limit text .start [] []
      · obtain ⟨hsame, hleft⟩ := limitedScan_safe limit hsafe
        simp only [hsame, hsafe, true_and]
        by_cases hgoes : (wholeToken text).1.goesOn = true
        · rw [if_pos hgoes, if_pos hgoes, ← hleft hgoes]
          have hrest := ih hsound' hunread' (Nat.le_trans hshorter hlength)
          rw [← hrest]
          cases readTokens limit amount file calls b' with
          | none => simp [hgoes]
          | some codes => simp [hgoes]
        · simp [hgoes]
      · obtain ⟨hne, hlong⟩ := not_or.mp hsafe
        have herror := (limitedScan_spec limit text .start [] []).2 (not_not.mp hlong)
        refine iff_of_false ?_ (fun h => hsafe h.1)
        rw [herror]
        intro heq
        simp only [Code.goesOn, Bool.false_eq_true, if_false, Option.some.injEq,
          List.cons.injEq] at heq
        exact hne heq.1.symm

/-- Reading a file returns what its text says, however the reads cut it, if and only if in
each call, or up to an error, fewer than `limit` bytes are read behind `word_start` before
the file ends. -/
theorem readTokens_eq_wholeTokens_iff (amount : ℕ → ℕ) (file : List Byte) :
    (∀ calls, readTokens nightDefaultPoolLimit amount file calls .empty =
      some (wholeTokens calls file)) ↔ Safe nightDefaultPoolLimit file := by
  have hcalls (calls : ℕ) := readTokens_iff_safeCalls nightDefaultPoolLimit amount calls
    (Window.sound_empty nightDefaultPoolLimit file) (Window.unread_empty file)
    (Nat.le_refl file.length)
  exact forall_congr' hcalls

/-! ### A long run of blanks -/

/-- As many blanks as the buffer holds, and the directive `a;`. -/
def longBlanks : List Byte :=
  List.replicate nightDefaultPoolLimit SP ++ [ascii 'a', ascii ';']

theorem wholeScan_blanks (count : ℕ) (rest raw : List Byte) :
    wholeScan (List.replicate count SP ++ rest) .start [] raw =
      wholeScan rest .start [] (raw ++ List.replicate count SP) := by
  induction count generalizing raw with
  | zero => simp
  | succ count ih =>
      have hstep : step .start [] raw SP = .next .start [] false := rfl
      rw [List.replicate_succ, List.cons_append, wholeScan, hstep]
      simp only
      rw [ih, moveStart, if_neg (by decide), List.append_assoc, List.singleton_append]

theorem tooLong_blanks (count : ℕ) (ch : Byte) (rest raw : List Byte)
    (hlength : raw.length + count = limit) :
    TooLong limit (List.replicate count SP ++ ch :: rest) .start [] raw := by
  induction count generalizing raw with
  | zero => exact Or.inl hlength
  | succ count ih =>
      have hstep : step .start [] raw SP = .next .start [] false := rfl
      rw [List.replicate_succ, List.cons_append, TooLong, hstep]
      refine Or.inr (ih _ ?_)
      rw [moveStart, if_neg (by decide), List.length_append, List.length_singleton]
      omega

/-- A file that begins with such a run is an error, although its words have one byte. -/
theorem not_readTokens_longBlanks :
    ¬ ∀ calls, readTokens nightDefaultPoolLimit (fun _ => nightDefaultPoolLimit) longBlanks
      calls .empty = some (wholeTokens calls longBlanks) := by
  intro hall
  have hsafe := (readTokens_eq_wholeTokens_iff _ _).mp hall 1
  have hlong : TooLong nightDefaultPoolLimit longBlanks .start [] [] :=
    tooLong_blanks nightDefaultPoolLimit nightDefaultPoolLimit (ascii 'a') [ascii ';'] [] (by simp)
  have hwhole : (wholeToken longBlanks).1 = .ok [[ascii 'a']] := by
    rw [wholeToken, longBlanks, wholeScan_blanks]
    rfl
  rcases hsafe.1 with herror | hnot
  · rw [hwhole] at herror
    cases herror
  · exact hnot hlong

end Night.ConfFile
