import Night.Conf.Token

/-!
# Reading tokens from the whole text

Where the refills of the buffer fall makes no difference, except that a word or a
comment that fills the buffer is an error when more of the file follows.
-/

namespace Night.ConfToken

open Night.Bytes

/-- The bytes from `start` on, behind a byte. -/
def Start.move (raw : List Byte) (ch : Byte) : Start → List Byte
  | .same => raw ++ [ch]
  | .here => [ch]
  | .behind => []

/-- The function over the rest of the text, with the bytes `raw` from `start` on. -/
def scan (pagesize : ℕ) : List Byte → Locals → List Word → List Byte → Code × List Byte
  | [], l, args, _ => (atEnd l args, [])
  | ch :: rest, l, args, raw =>
      if raw.length = pagesize then (.error, ch :: rest)
      else
        match step l args raw ch with
        | .ret code => (code, rest)
        | .next l args start => scan pagesize rest l args (start.move raw ch)

/-- The text that is left: what the buffer still has and what was not read. -/
structure BufferAt (pagesize : ℕ) (file : List Byte) (b : Buffer) (text : List Byte) :
    Prop where
  pos : b.pos ≤ b.window.length
  window : b.window.length ≤ pagesize
  text : b.window.drop b.pos ++ file.drop b.offset = text

/-- The bytes from `start` to `b->pos`. -/
structure StartAt (b : Buffer) (start : ℕ) (raw : List Byte) : Prop where
  le : start ≤ b.pos
  eq : (b.window.drop start).take (b.pos - start) = raw

variable {pagesize : ℕ} {file : List Byte} {b : Buffer} {text raw : List Byte} {start : ℕ}

theorem StartAt.length (hstart : StartAt b start raw)
    (hb : BufferAt pagesize file b text) : raw.length = b.pos - start := by
  have hpos := hb.pos
  rw [← hstart.eq, List.length_take, List.length_drop]
  omega

/-- Filling the buffer ends the call or gives a buffer with the next byte. -/
theorem fill_spec (hb : BufferAt pagesize file b text) (hstart : StartAt b start raw)
    (l : Locals) (args : List Word) :
    (text = [] ∧ fill pagesize file l args start b = .error (atEnd l args)) ∨
    (text ≠ [] ∧ raw.length = pagesize ∧ fill pagesize file l args start b = .error .error) ∨
    (text ≠ [] ∧ raw.length ≠ pagesize ∧ ∃ start' b', fill pagesize file l args start b =
        .ok (start', b') ∧ BufferAt pagesize file b' text ∧ StartAt b' start' raw ∧
      b'.pos < b'.window.length) := by
  have hlength := hstart.length hb
  have hpos := hb.pos
  have hwindow := hb.window
  have hle := hstart.le
  rw [fill]
  by_cases hused : b.pos ≥ b.window.length
  · have htext : file.drop b.offset = text := by
      rw [← hb.text, List.drop_eq_nil_of_le hused, List.nil_append]
    rw [if_pos hused]
    by_cases hend : b.offset ≥ file.length
    · left
      rw [if_pos hend, ← htext]
      exact ⟨List.drop_eq_nil_of_le hend, rfl⟩
    · right
      have hne : text ≠ [] := by
        rw [← htext, ne_eq, List.drop_eq_nil_iff]
        omega
      rw [if_neg hend]
      by_cases hfull : b.pos - start = pagesize
      · left
        rw [← hlength] at hfull
        exact ⟨hne, hfull, by simp only [← hlength, if_pos hfull]⟩
      · right
        rw [← hlength] at hfull
        let size := min (file.length - b.offset) (pagesize - raw.length)
        let b' : Buffer := { window := raw ++ (file.drop b.offset).take size
                             pos := raw.length
                             offset := b.offset + size }
        have hsize : size ≤ file.length - b.offset := Nat.min_le_left _ _
        have hroom : size ≤ pagesize - raw.length := Nat.min_le_right _ _
        have hpositive : 0 < size := Nat.lt_min.mpr ⟨by omega, by omega⟩
        have hread : ((file.drop b.offset).take size).length = size := by
          rw [List.length_take, List.length_drop]
          omega
        refine ⟨hne, hfull, 0, b', ?_, ⟨?_, ?_, ?_⟩, ⟨Nat.zero_le _, ?_⟩, ?_⟩
        · have heq : (b.window.drop start).take raw.length = raw := by
            rw [hlength]
            exact hstart.eq
          simp only [← hlength, heq, if_neg hfull]
          rfl
        · show raw.length ≤ (raw ++ _).length
          rw [List.length_append]
          omega
        · show (raw ++ _).length ≤ pagesize
          rw [List.length_append, hread]
          omega
        · show (raw ++ _).drop raw.length ++ file.drop (b.offset + size) = text
          rw [List.drop_left, ← List.drop_drop, List.take_append_drop, htext]
        · show ((raw ++ _).drop 0).take (raw.length - 0) = raw
          rw [List.drop_zero, Nat.sub_zero, List.take_left]
        · show raw.length < (raw ++ _).length
          rw [List.length_append, hread]
          omega
  · right
    right
    have hne : text ≠ [] := by
      rw [← hb.text]
      intro hnil
      have hdrop := List.drop_eq_nil_iff.mp (List.append_eq_nil_iff.mp hnil).1
      omega
    rw [if_neg hused]
    exact ⟨hne, by omega, start, b, rfl, hb, hstart, by omega⟩

theorem startAt_self (b : Buffer) : StartAt b b.pos [] :=
  ⟨Nat.le_refl _, by rw [Nat.sub_self, List.take_zero]⟩

/-- The next byte of the buffer is that of the text, and moving on keeps `start`. -/
theorem next_byte {ch : Byte} {rest : List Byte} (hb : BufferAt pagesize file b (ch :: rest))
    (hstart : StartAt b start raw) (hpos : b.pos < b.window.length) :
    b.window[b.pos]? = some ch ∧
      BufferAt pagesize file { b with pos := b.pos + 1 } rest ∧
      StartAt { b with pos := b.pos + 1 } start (raw ++ [ch]) ∧
      StartAt { b with pos := b.pos + 1 } b.pos [ch] := by
  have hdrop : b.window.drop b.pos = b.window[b.pos] :: b.window.drop (b.pos + 1) :=
    List.drop_eq_getElem_cons hpos
  have htext := hb.text
  rw [hdrop, List.cons_append, List.cons.injEq] at htext
  obtain ⟨hch, hrest⟩ := htext
  have hle := hstart.le
  have hget : b.window[b.pos]? = some ch := by
    rw [List.getElem?_eq_getElem hpos, hch]
  refine ⟨hget, ⟨hpos, hb.window, hrest⟩, ⟨Nat.le_succ_of_le hle, ?_⟩, ⟨Nat.le_succ _, ?_⟩⟩
  · show (b.window.drop start).take (b.pos + 1 - start) = raw ++ [ch]
    have hsucc : b.pos + 1 - start = (b.pos - start) + 1 := by omega
    have hsum : start + (b.pos - start) = b.pos := by omega
    rw [hsucc, List.take_add_one, hstart.eq, List.getElem?_drop, hsum, hget]
    rfl
  · show (b.window.drop b.pos).take (b.pos + 1 - b.pos) = [ch]
    rw [Nat.add_sub_cancel_left, hdrop, hch]
    rfl

/-- The loop over the buffer returns what the scan of the text returns. -/
theorem loop_spec {fuel : ℕ} (l : Locals) (args : List Word)
    (hb : BufferAt pagesize file b text) (hstart : StartAt b start raw)
    (hfuel : text.length < fuel) :
    ∃ b', loop pagesize file fuel l args start b =
        some ((scan pagesize text l args raw).1, b') ∧
      ((scan pagesize text l args raw).1.goesOn = true →
        BufferAt pagesize file b' (scan pagesize text l args raw).2) := by
  induction fuel generalizing text l args start raw b with
  | zero => exact absurd hfuel (Nat.not_lt_zero _)
  | succ fuel ih =>
      rw [loop]
      rcases fill_spec hb hstart l args with ⟨rfl, hfill⟩ | ⟨hne, hfull, hfill⟩ |
        ⟨hne, hroom, start', b', hfill, hb', hstart', hpos⟩
      · rw [hfill]
        refine ⟨b, rfl, ?_⟩
        rw [scan, atEnd]
        split
        · intro hgoes
          cases hgoes
        · intro hgoes
          cases hgoes
      · rw [hfill]
        cases text with
        | nil => exact absurd rfl hne
        | cons ch rest =>
            rw [scan, if_pos hfull]
            refine ⟨b, rfl, ?_⟩
            intro hgoes
            cases hgoes
      · rw [hfill]
        cases text with
        | nil => exact absurd rfl hne
        | cons ch rest =>
            obtain ⟨hget, hnext, hsame, hhere⟩ := next_byte hb' hstart' hpos
            rw [scan, if_neg hroom]
            simp only [hget, hstart'.eq]
            have hfuel' : rest.length < fuel := by simpa using hfuel
            cases hstep : step l args raw ch with
            | ret code => exact ⟨_, rfl, fun _ => hnext⟩
            | next l' args' move =>
                cases move with
                | same => exact ih l' args' hnext hsame hfuel'
                | here => exact ih l' args' hnext hhere hfuel'
                | behind => exact ih l' args' hnext (startAt_self _) hfuel'

/-! ## Successive calls -/

/-- A call over the rest of the text. -/
def scanToken (pagesize : ℕ) (garbage : ℤ) (text : List Byte) : Code × List Byte :=
  scan pagesize text (.start garbage) [] []

/-- Successive calls over the text. -/
def scanTokens (pagesize : ℕ) (garbage : ℕ → ℤ) : ℕ → List Byte → List Code
  | 0, _ => []
  | calls + 1, text =>
      let token := scanToken pagesize (garbage calls) text
      if token.1.goesOn then token.1 :: scanTokens pagesize garbage calls token.2
      else [token.1]

theorem scan_length (text : List Byte) (l : Locals) (args : List Word) (raw : List Byte) :
    (scan pagesize text l args raw).2.length ≤ text.length := by
  induction text generalizing l args raw with
  | nil => exact Nat.le_refl _
  | cons ch rest ih =>
      rw [scan]
      split
      · exact Nat.le_refl _
      · cases step l args raw ch with
        | ret code => exact Nat.le_succ _
        | next l' args' move => exact Nat.le_succ_of_le (ih l' args' _)

theorem readTokens_eq_scanTokens (hb : BufferAt pagesize file b text)
    (htext : text.length ≤ file.length) (garbage : ℕ → ℤ) (calls : ℕ) :
    readTokens pagesize file garbage calls b =
      some (scanTokens pagesize garbage calls text) := by
  induction calls generalizing b text with
  | zero => rfl
  | succ calls ih =>
      obtain ⟨b', hloop, hb'⟩ := loop_spec (.start (garbage calls)) [] hb (startAt_self b)
        (Nat.lt_succ_of_le htext)
      have hread : nightConfReadToken pagesize file (garbage calls) b =
          some ((scanToken pagesize (garbage calls) text).1, b') := hloop
      rw [readTokens, hread, scanTokens]
      simp only [Option.bind_eq_bind, Option.bind_some]
      by_cases hgoes : (scanToken pagesize (garbage calls) text).1.goesOn = true
      · have hshort : (scanToken pagesize (garbage calls) text).2.length ≤ file.length :=
          Nat.le_trans (scan_length text _ _ _) htext
        rw [if_pos hgoes, if_pos hgoes, ih (hb' hgoes) hshort, Option.bind_some]
        rfl
      · rw [if_neg hgoes, if_neg hgoes]

/-- Reading a file from its start is scanning its bytes. -/
theorem readTokens_eq (pagesize : ℕ) (file : List Byte) (garbage : ℕ → ℤ) (calls : ℕ) :
    readTokens pagesize file garbage calls .empty =
      some (scanTokens pagesize garbage calls file) :=
  readTokens_eq_scanTokens ⟨Nat.le_refl 0, Nat.zero_le _, rfl⟩ (Nat.le_refl _) garbage calls

end Night.ConfToken
