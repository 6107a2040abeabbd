import Night.Http.RequestLine

/-!
# What the request-line parser accepts

`GrammarLine` is the grammar of a request line and `LineShape` the language the
state machine really follows: a path can only be a single slash, because no state
continues a longer one, while a method word is only recognised by its length and
the bytes between it and the slash are skipped unseen.
-/

namespace Night.RequestLine

open Night.Bytes
open Night.HttpRequest
open Night.Scanner

/-! ## Grammar -/

def IsUpper (ch : Byte) : Prop := 'A'.toNat ≤ ch.toNat ∧ ch.toNat ≤ 'Z'.toNat

def IsDigit (ch : Byte) : Prop := '0'.toNat ≤ ch.toNat ∧ ch.toNat ≤ '9'.toNat

/-- A byte a path may hold: no blank, no control byte and no DEL. -/
def IsPathByte (ch : Byte) : Prop := SP.toNat < ch.toNat ∧ ch ≠ DEL

instance : DecidablePred IsUpper := fun _ => inferInstanceAs (Decidable (_ ∧ _))
instance : DecidablePred IsDigit := fun _ => inferInstanceAs (Decidable (_ ∧ _))
instance : DecidablePred IsPathByte := fun _ => inferInstanceAs (Decidable (_ ∧ _))

/-- The value of a digit string read after `value`. -/
def decimalFrom (value : ℕ) : List Byte → ℕ
  | [] => value
  | digit :: digits => decimalFrom (value * 10 + (digit.toNat - '0'.toNat)) digits

/-- A minor version: a digit string of value at most 999. -/
structure Minor where
  digits : List Byte
  ne_nil : digits ≠ []
  isDigit : ∀ digit ∈ digits, IsDigit digit
  le_max : decimalFrom 0 digits ≤ 999

def Minor.value (minor : Minor) : ℕ := decimalFrom 0 minor.digits

/-- `HTTP/1.` -/
def protocolBytes : List Byte :=
  [ascii 'H', ascii 'T', ascii 'T', ascii 'P', ascii '/', ascii '1', ascii '.']

def versionBytes : Option Minor → List Byte
  | none => []
  | some minor => protocolBytes ++ minor.digits

/-- The recognised methods. -/
inductive Method where
  | get
  | put
  | post
  deriving DecidableEq, Repr

def Method.bytes : Method → List Byte
  | .get => [ascii 'G', ascii 'E', ascii 'T']
  | .put => [ascii 'P', ascii 'U', ascii 'T']
  | .post => [ascii 'P', ascii 'O', ascii 'S', ascii 'T']

/-- What may follow the path: blanks, a version or none, and the line end. -/
structure LineTail where
  gap : ℕ
  minor : Option Minor
  cr : Bool
  gap_pos : 0 < gap

def LineTail.bytes (tail : LineTail) : List Byte :=
  List.replicate tail.gap SP ++ versionBytes tail.minor ++ lineEnd tail.cr

/-- A request line of the grammar
`METHOD SP+ '/' path SP+ ('HTTP/1.' minor)? [CR] LF`. -/
structure GrammarLine where
  method : Method
  blanks : ℕ
  path : List Byte
  tail : LineTail
  blanks_pos : 0 < blanks
  isPathByte : ∀ ch ∈ path, IsPathByte ch
  get_of_no_version : tail.minor = none → method = .get

namespace GrammarLine

/-- The line up to and with the slash. -/
def head (line : GrammarLine) : List Byte :=
  line.method.bytes ++ List.replicate line.blanks SP ++ [ascii '/']

def bytes (line : GrammarLine) : List Byte :=
  line.head ++ line.path ++ line.tail.bytes

end GrammarLine

/-- What the state machine takes for the part up to the slash: a word of three or
four capital letters, a blank, and anything that holds no slash. -/
structure LaxHead where
  word : List Byte
  junk : List Byte
  isUpper : ∀ ch ∈ word, IsUpper ch
  word_length : word.length = 3 ∨ word.length = 4
  no_slash : ascii '/' ∉ junk

namespace LaxHead

def bytes (head : LaxHead) : List Byte :=
  head.word ++ SP :: (head.junk ++ [ascii '/'])

/-- The head is one of the grammar: its word is a method and only blanks stand
before the slash. -/
def IsGrammatical (head : LaxHead) : Prop :=
  (∃ method : Method, head.word = method.bytes) ∧ ∀ ch ∈ head.junk, ch = SP

end LaxHead

/-- A line as the state machine accepts it. -/
structure LaxLine where
  head : LaxHead
  tail : LineTail
  get_of_no_version : tail.minor = none → head.word = Method.get.bytes

def LaxLine.bytes (line : LaxLine) : List Byte :=
  line.head.bytes ++ line.tail.bytes

theorem decimalFrom_ge (value : ℕ) (digits : List Byte) :
    value ≤ decimalFrom value digits := by
  induction digits generalizing value with
  | nil => exact Nat.le_refl value
  | cons digit digits ih =>
      have hnext := ih (value * 10 + (digit.toNat - '0'.toNat))
      calc
        value ≤ value * 10 := Nat.le_mul_of_pos_right value (by decide)
        _ ≤ value * 10 + (digit.toNat - '0'.toNat) := Nat.le_add_right _ _
        _ ≤ _ := hnext

/-- A number that is already above 99 has no further digit. -/
theorem le_99_of_decimalFrom_cons_le {value : ℕ} {digit : Byte} {digits : List Byte}
    (hbound : decimalFrom value (digit :: digits) ≤ 999) : value ≤ 99 := by
  have hvalue := decimalFrom_ge (value * 10 + (digit.toNat - '0'.toNat)) digits
  have htimes : value * 10 ≤ 999 :=
    Nat.le_trans (Nat.le_add_right _ _) (Nat.le_trans hvalue hbound)
  omega

theorem decimalFrom_zero_cons (digit : Byte) (digits : List Byte) :
    decimalFrom 0 (digit :: digits) = decimalFrom (digit.toNat - '0'.toNat) digits := by
  have hzero : 0 * 10 + (digit.toNat - '0'.toNat) = digit.toNat - '0'.toNat := by
    generalize digit.toNat - '0'.toNat = value
    omega
  show decimalFrom (0 * 10 + (digit.toNat - '0'.toNat)) digits = _
  rw [hzero]

/-! ## Facts about single bytes -/

theorem isDigit_iff (ch : Byte) :
    ¬(ch.toInt < '0'.toNat ∨ ('9'.toNat : ℤ) < ch.toInt) ↔ IsDigit ch :=
  not_outside_iff ch (by decide) (by decide)

theorem isUpper_iff (ch : Byte) :
    ¬(ch.toInt < 'A'.toNat ∨ ('Z'.toNat : ℤ) < ch.toInt) ↔ IsUpper ch :=
  not_outside_iff ch (by decide) (by decide)

theorem isDigit_ne_CR : ∀ {ch : Byte}, IsDigit ch → ch ≠ CR := by decide

theorem isDigit_ne_LF : ∀ {ch : Byte}, IsDigit ch → ch ≠ LF := by decide

theorem isUpper_ne_SP : ∀ {ch : Byte}, IsUpper ch → ch ≠ SP := by decide

theorem isDigit_sub_le : ∀ {ch : Byte}, IsDigit ch → ch.toNat - '0'.toNat ≤ 9 := by
  decide

theorem not_isUsual_SP (below : ℤ → BitVec 32) : ¬ isUsual below SP := by
  intro husual
  have hword : httpUriUsual below (SP.toInt >>> 5) = 0x7fff37d6#32 := by
    rw [show SP.toInt >>> 5 = 1 by decide]
    rfl
  rw [isUsual, hword] at husual
  exact husual (by decide)

/-! ## What the scan does on each piece of a line -/

section Pieces

variable {below : ℤ → BitVec 32} {data : List Byte} {p : ℕ} {r : Request}

theorem run_blanks (count : ℕ) :
    run (requestLineStep below data) p (.swHttp09, r) (List.replicate count SP) =
      .more (.swHttp09, r) := by
  induction count generalizing p with
  | zero => rfl
  | succ count ih =>
      have hstep : requestLineStep below data p (.swHttp09, r) SP = .more (.swHttp09, r) := by
        simp only [requestLineStep, if_pos]
      rw [List.replicate_succ, run_cons_more hstep, ih]

/-- The blanks behind the slash end the path. -/
theorem run_gap {gap : ℕ} (hgap : 0 < gap) :
    run (requestLineStep below data) p (.swAfterSlashInUri, r)
        (List.replicate gap SP) =
      .more (.swHttp09, { r with uriEnd := some p }) := by
  obtain ⟨count, rfl⟩ := Nat.exists_eq_add_of_lt hgap
  have hstep : requestLineStep below data p (.swAfterSlashInUri, r) SP =
      .more (.swHttp09, { r with uriEnd := some p }) := by
    simp only [requestLineStep, if_neg (not_isUsual_SP below), if_pos]
  rw [Nat.zero_add, List.replicate_succ, run_cons_more hstep, run_blanks]

theorem run_protocol :
    run (requestLineStep below data) p (.swHttp09, r) protocolBytes =
      .more (.swFirstMinorDigit,
        { r with httpProtocol := some p, httpMajor := 1 }) := by
  rfl

theorem run_digits {digits : List Byte} (hdigits : ∀ digit ∈ digits, IsDigit digit)
    (hbound : decimalFrom r.httpMinor digits ≤ 999) :
    run (requestLineStep below data) p (.swMinorDigit, r) digits =
      .more (.swMinorDigit,
        { r with httpMinor := decimalFrom r.httpMinor digits }) := by
  induction digits generalizing p r with
  | nil => rfl
  | cons digit digits ih =>
      have hdigit : IsDigit digit := hdigits digit (by simp)
      have hvalue := le_99_of_decimalFrom_cons_le hbound
      have hsmall := isDigit_sub_le hdigit
      have hwrap : (r.httpMinor * 10 + (digit.toNat - '0'.toNat)) % 2 ^ 16 =
          r.httpMinor * 10 + (digit.toNat - '0'.toNat) :=
        Nat.mod_eq_of_lt (by omega)
      have hstep : requestLineStep below data p (.swMinorDigit, r) digit =
          .more (.swMinorDigit, { r with
            httpMinor := r.httpMinor * 10 + (digit.toNat - '0'.toNat) }) := by
        simp only [requestLineStep, if_neg (isDigit_ne_CR hdigit),
          if_neg (isDigit_ne_LF hdigit), if_neg ((isDigit_iff digit).mpr hdigit),
          if_neg (show ¬ r.httpMinor > 99 by omega), hwrap]
      rw [run_cons_more hstep, ih]
      · rfl
      · intro other hother
        exact hdigits other (by simp [hother])
      · exact hbound

theorem run_minor (minor : Minor) :
    run (requestLineStep below data) p (.swFirstMinorDigit, r) minor.digits =
      .more (.swMinorDigit, { r with httpMinor := minor.value }) := by
  obtain ⟨digits, hne, hdigits, hbound⟩ := minor
  cases digits with
  | nil => exact absurd rfl hne
  | cons digit digits =>
      have hdigit : IsDigit digit := hdigits digit (by simp)
      have hstep : requestLineStep below data p (.swFirstMinorDigit, r) digit =
          .more (.swMinorDigit,
            { r with httpMinor := digit.toNat - '0'.toNat }) := by
        simp only [requestLineStep, if_neg ((isDigit_iff digit).mpr hdigit)]
      rw [decimalFrom_zero_cons] at hbound
      rw [run_cons_more hstep, run_digits _ hbound, Minor.value, decimalFrom_zero_cons]
      intro other hother
      exact hdigits other (by simp [hother])

/-- The request when the line ends at `q`, with or without a `CR`. -/
def endRequest (cr : Bool) (q : ℕ) (r : Request) : Request :=
  if cr then { r with requestEnd := some (q - 1) } else r

theorem run_lineEnd (cr : Bool) :
    run (requestLineStep below data) p (.swMinorDigit, r) (lineEnd cr) =
      .stop (.done (p + cr.toNat) (endRequest cr (p + cr.toNat) r)) [] := by
  cases cr <;> rfl

theorem run_lineEnd_of_no_version (cr : Bool) :
    run (requestLineStep below data) p (.swHttp09, r) (lineEnd cr) =
      .stop (.done (p + cr.toNat)
        (endRequest cr (p + cr.toNat) { r with httpMinor := 9 })) [] := by
  cases cr <;> rfl

/-- What the version leaves in the request when it begins at `p`. -/
def versionRequest (minor : Option Minor) (p : ℕ) (r : Request) : Request :=
  match minor with
  | none => { r with httpMinor := 9 }
  | some minor =>
      { r with httpProtocol := some p, httpMajor := 1, httpMinor := minor.value }

/-- The part of a line behind its path is read to the end. -/
theorem run_tail (tail : LineTail) :
    run (requestLineStep below data) p (.swAfterSlashInUri, r) tail.bytes =
      .stop (.done (p + tail.bytes.length - 1)
        (endRequest tail.cr (p + tail.bytes.length - 1)
          (versionRequest tail.minor (p + tail.gap)
            { r with uriEnd := some p }))) [] := by
  obtain ⟨gap, minor, cr, hgap⟩ := tail
  simp only [LineTail.bytes, List.append_assoc]
  rw [run_append_of_more (run_gap hgap), List.length_replicate]
  cases minor with
  | none =>
      have hend : p + (gap + (lineEnd cr).length) - 1 = p + gap + cr.toNat := by
        rw [length_lineEnd]
        omega
      simp only [versionBytes, List.nil_append, List.length_append,
        List.length_replicate, hend]
      rw [run_lineEnd_of_no_version]
      rfl
  | some minor =>
      have hend : p + (gap + (protocolBytes.length +
            (minor.digits.length + (lineEnd cr).length))) - 1 =
          p + gap + protocolBytes.length + minor.digits.length + cr.toNat := by
        rw [length_lineEnd]
        omega
      simp only [versionBytes, List.append_assoc, List.length_append,
        List.length_replicate, hend]
      rw [run_append_of_more run_protocol, run_append_of_more (run_minor minor),
        run_lineEnd]
      rfl

theorem run_word {word : List Byte} (hword : ∀ ch ∈ word, IsUpper ch) :
    run (requestLineStep below data) p (.swMethod, r) word = .more (.swMethod, r) := by
  induction word generalizing p with
  | nil => rfl
  | cons ch word ih =>
      have hch : IsUpper ch := hword ch (by simp)
      have hstep : requestLineStep below data p (.swMethod, r) ch =
          .more (.swMethod, r) := by
        simp only [requestLineStep, if_neg (isUpper_ne_SP hch),
          if_neg ((isUpper_iff ch).mpr hch)]
      rw [run_cons_more hstep]
      apply ih
      intro other hother
      exact hword other (by simp [hother])

theorem run_junk {junk : List Byte} (hjunk : ascii '/' ∉ junk) :
    run (requestLineStep below data) p (.swSpacesBeforeUri, r) junk =
      .more (.swSpacesBeforeUri, r) := by
  induction junk generalizing p with
  | nil => rfl
  | cons ch junk ih =>
      have hch : ch ≠ ascii '/' := by
        intro heq
        exact hjunk (by simp [heq])
      have hstep : requestLineStep below data p (.swSpacesBeforeUri, r) ch =
          .more (.swSpacesBeforeUri, r) := by
        simp only [requestLineStep, if_neg hch]
      rw [run_cons_more hstep]
      apply ih
      intro hmem
      exact hjunk (by simp [hmem])

end Pieces

/-- The method the parser stores for a word of three or four letters. -/
def methodBits (word : List Byte) : BitVec 32 :=
  if word = Method.get.bytes then nightHttpGet
  else if word = Method.put.bytes then nightHttpPut
  else if word = Method.post.bytes then nightHttpPost
  else nightHttpUnknown

theorem methodBits_eq_get_iff (word : List Byte) :
    methodBits word = nightHttpGet ↔ word = Method.get.bytes := by
  unfold methodBits
  split_ifs with hget hput hpost
  · simp [hget]
  · simp [hget, nightHttpPut, nightHttpGet]
  · simp [hget, nightHttpPost, nightHttpGet]
  · simp [hget, nightHttpUnknown, nightHttpGet]

/-- The `switch` on the length of the word that ends in front of a blank. -/
theorem methodOf_word {word : List Byte} (rest : List Byte) {r : Request}
    (hlength : word.length = 3 ∨ word.length = 4)
    (hstart : r.requestStart = some 0) (hmethod : r.method = nightHttpUnknown) :
    methodOf (word ++ SP :: rest) word.length r = some (methodBits word) := by
  rcases hlength with hthree | hfour
  · obtain ⟨first, second, third, rfl⟩ := List.length_eq_three.mp hthree
    simp [methodOf, hstart, hmethod, strncmpEq, methodBits, Method.bytes]
    split_ifs <;> rfl
  · obtain ⟨first, second, third, fourth, rfl⟩ : ∃ first second third fourth,
        word = [first, second, third, fourth] := by
      match word, hfour with
      | [first, second, third, fourth], _ => exact ⟨_, _, _, _, rfl⟩
    simp [methodOf, hstart, hmethod, strncmpEq, methodBits, Method.bytes]
    split_ifs <;> simp_all

/-- The request of a fresh call that has read a head. -/
def headRequest (head : LaxHead) : Request :=
  { freshRequest with
    requestStart := some 0
    methodEnd := some head.word.length
    method := methodBits head.word
    uriStart := some (head.bytes.length - 1) }

/-- The first four states read a head and wait behind its slash. -/
theorem run_head (below : ℤ → BitVec 32) (head : LaxHead) (rest : List Byte) :
    run (requestLineStep below (head.bytes ++ rest)) 0 (.swStart, freshRequest)
        head.bytes =
      .more (.swAfterSlashInUri, headRequest head) := by
  obtain ⟨word, junk, hword, hlength, hjunk⟩ := head
  cases word with
  | nil => simp at hlength
  | cons first word =>
      set data := LaxHead.bytes ⟨first :: word, junk, hword, hlength, hjunk⟩ ++ rest
        with hdata
      let started : Request := { freshRequest with requestStart := some 0 }
      let named : Request := { started with
        methodEnd := some (first :: word).length
        method := methodBits (first :: word) }
      have hfirst : requestLineStep below data 0 (.swStart, freshRequest) first =
          .more (.swMethod, started) := by
        simp only [requestLineStep, if_neg ((isUpper_iff first).mpr (hword first (by simp)))]
        rfl
      have hrest : run (requestLineStep below data) 1 (.swMethod, started) word =
          .more (.swMethod, started) := by
        apply run_word
        intro ch hch
        exact hword ch (by simp [hch])
      have hblank : requestLineStep below data (1 + word.length) (.swMethod, started) SP =
          .more (.swSpacesBeforeUri, named) := by
        have hmethod := methodOf_word (junk ++ [ascii '/'] ++ rest) hlength
          (r := { started with methodEnd := some (1 + word.length) }) rfl rfl
        have hshape : data = first :: word ++ SP :: (junk ++ [ascii '/'] ++ rest) := by
          simp [hdata, LaxHead.bytes]
        rw [← hshape, List.length_cons, Nat.add_comm] at hmethod
        simp only [requestLineStep, if_pos, hmethod]
        simp [named, Nat.add_comm]
      have hslash : ∀ p, requestLineStep below data p (.swSpacesBeforeUri, named)
          (ascii '/') = .more (.swAfterSlashInUri, { named with uriStart := some p }) := by
        intro p
        simp only [requestLineStep, if_pos]
      rw [LaxHead.bytes, List.cons_append, run_cons_more hfirst,
        run_append_of_more hrest, run_cons_more hblank,
        run_append_of_more (run_junk hjunk), run_cons_more (hslash _)]
      simp [headRequest, LaxHead.bytes, named, started]
      omega

end Night.RequestLine
