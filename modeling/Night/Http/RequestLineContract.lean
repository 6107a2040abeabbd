import Night.Http.RequestLineChunks
import Night.Http.RequestLineGrammar

/-!
# The contract of the request-line parser

A request line is accepted exactly when it has the shape the state machine
follows.  The two differences from the grammar, a path longer than the slash and
a head that only looks like a method and blanks, are the inputs on which the
parser breaks its contract.
-/

namespace Night.RequestLine

open Night.Bytes
open Night.HttpRequest
open Night.Scanner

/-! ## Whatever is accepted has the shape of a line -/

section Accepted

variable {below : ℤ → BitVec 32} {data input rest : List Byte}
variable {p : ℕ} {r : Request}

/-- From a state the scan of `input` ends by `goto done` and leaves `rest`. -/
def Ends (below : ℤ → BitVec 32) (data : List Byte) (p : ℕ) (state : State)
    (r : Request) (input rest : List Byte) : Prop :=
  ∃ q r', run (requestLineStep below data) p (state, r) input = .stop (.done q r') rest

theorem not_ends_nil {state : State} : ¬ Ends below data p state r [] rest := by
  rintro ⟨q, r', hrun⟩
  cases hrun

/-- The first byte of a scan that ends either goes on or is the last one. -/
theorem ends_cons {state : State} {ch : Byte}
    (hends : Ends below data p state r (ch :: input) rest) :
    (∃ next r', requestLineStep below data p (state, r) ch = .more (next, r') ∧
      Ends below data (p + 1) next r' input rest) ∨
    (∃ q r', requestLineStep below data p (state, r) ch = .stop (.done q r')) ∧
      input = rest := by
  obtain ⟨q, r', hrun⟩ := hends
  rcases run_cons_eq_stop_iff.mp hrun with ⟨⟨next, s⟩, hstep, hrest⟩ | ⟨hstep, hinput⟩
  · exact Or.inl ⟨next, s, hstep, q, r', hrest⟩
  · exact Or.inr ⟨⟨q, r', hstep⟩, hinput⟩

theorem ends_almostDone (hends : Ends below data p .swAlmostDone r input rest) :
    input = LF :: rest := by
  cases input with
  | nil => exact absurd hends not_ends_nil
  | cons ch input =>
      rcases ends_cons hends with ⟨next, r', hstep, -⟩ | ⟨⟨q, r', hstep⟩, hinput⟩
      · simp only [requestLineStep] at hstep
        split_ifs at hstep
      · by_cases hch : ch = LF
        · rw [hch, hinput]
        · simp [requestLineStep, hch] at hstep

theorem ends_minorDigit (hvalue : r.httpMinor ≤ 999)
    (hends : Ends below data p .swMinorDigit r input rest) :
    ∃ digits cr, (∀ digit ∈ digits, IsDigit digit) ∧
      decimalFrom r.httpMinor digits ≤ 999 ∧ input = digits ++ (lineEnd cr ++ rest) := by
  induction input generalizing p r with
  | nil => exact absurd hends not_ends_nil
  | cons ch input ih =>
      rcases ends_cons hends with ⟨next, r', hstep, hnext⟩ | ⟨⟨q, r', hstep⟩, hinput⟩
      · simp only [requestLineStep] at hstep
        split_ifs at hstep with hcr hlf hdigit hmax
        · simp only [Verdict.more.injEq, Prod.mk.injEq] at hstep
          obtain ⟨rfl, rfl⟩ := hstep
          refine ⟨[], true, by simp, hvalue, ?_⟩
          simp [lineEnd, hcr, ends_almostDone hnext]
        · rw [isDigit_iff] at hdigit
          have hsmall := isDigit_sub_le hdigit
          have hwrap : (r.httpMinor * 10 + (ch.toNat - '0'.toNat)) % 2 ^ 16 =
              r.httpMinor * 10 + (ch.toNat - '0'.toNat) :=
            Nat.mod_eq_of_lt (by omega)
          simp only [Verdict.more.injEq, Prod.mk.injEq, hwrap] at hstep
          obtain ⟨rfl, rfl⟩ := hstep
          have hbound : r.httpMinor * 10 + (ch.toNat - '0'.toNat) ≤ 999 := by omega
          obtain ⟨digits, cr, hdigits, hmost, hinput⟩ := ih hbound hnext
          refine ⟨ch :: digits, cr, ?_, hmost, by rw [hinput, List.cons_append]⟩
          intro digit hmem
          rcases List.mem_cons.mp hmem with heq | hmem
          · rw [heq]
            exact hdigit
          · exact hdigits digit hmem
      · have hlf : ch = LF := by
          by_contra hlf
          simp only [requestLineStep, if_neg hlf] at hstep
          split_ifs at hstep
          all_goals simp at hstep
        refine ⟨[], false, by simp, hvalue, ?_⟩
        simp [lineEnd, hlf, hinput]

theorem ends_firstMinorDigit (hends : Ends below data p .swFirstMinorDigit r input rest) :
    ∃ minor : Minor, ∃ cr, input = minor.digits ++ (lineEnd cr ++ rest) := by
  cases input with
  | nil => exact absurd hends not_ends_nil
  | cons ch input =>
      rcases ends_cons hends with ⟨next, r', hstep, hnext⟩ | ⟨⟨q, r', hstep⟩, hinput⟩
      · simp only [requestLineStep] at hstep
        split_ifs at hstep with hdigit
        rw [isDigit_iff] at hdigit
        have hsmall := isDigit_sub_le hdigit
        simp only [Verdict.more.injEq, Prod.mk.injEq] at hstep
        obtain ⟨rfl, rfl⟩ := hstep
        have hbound : ch.toNat - '0'.toNat ≤ 999 := by omega
        obtain ⟨digits, cr, hdigits, hmost, hinput⟩ := ends_minorDigit hbound hnext
        refine ⟨⟨ch :: digits, by simp, ?_, ?_⟩, cr, ?_⟩
        · intro digit hmem
          rcases List.mem_cons.mp hmem with heq | hmem
          · rw [heq]
            exact hdigit
          · exact hdigits digit hmem
        · rw [decimalFrom_zero_cons]
          exact hmost
        · rw [hinput, List.cons_append]
      · simp only [requestLineStep] at hstep
        split_ifs at hstep
        all_goals simp at hstep

/-- A major version of one digit is 1, and a second digit makes it too large. -/
theorem ends_majorDigit (hmajor : r.httpMajor = 1)
    (hends : Ends below data p .swMajorDigit r input rest) :
    ∃ minor : Minor, ∃ cr,
      input = ascii '.' :: (minor.digits ++ (lineEnd cr ++ rest)) := by
  cases input with
  | nil => exact absurd hends not_ends_nil
  | cons ch input =>
      have hdot : ch = ascii '.' := by
        by_contra hdot
        rcases ends_cons hends with ⟨next, r', hstep, -⟩ | ⟨⟨q, r', hstep⟩, -⟩
        all_goals
          simp only [requestLineStep, if_neg hdot, hmajor] at hstep
          split_ifs at hstep with hdigit hlarge
        · rw [isDigit_iff] at hdigit
          have hsmall := isDigit_sub_le hdigit
          omega
        all_goals simp at hstep
      rcases ends_cons hends with ⟨next, r', hstep, hnext⟩ | ⟨⟨q, r', hstep⟩, -⟩
      · simp only [requestLineStep, if_pos hdot, Verdict.more.injEq,
          Prod.mk.injEq] at hstep
        obtain ⟨rfl, rfl⟩ := hstep
        obtain ⟨minor, cr, hinput⟩ := ends_firstMinorDigit hnext
        exact ⟨minor, cr, by rw [hdot, hinput]⟩
      · simp [requestLineStep, hdot] at hstep

theorem ends_firstMajorDigit (hends : Ends below data p .swFirstMajorDigit r input rest) :
    ∃ minor : Minor, ∃ cr,
      input = ascii '1' :: ascii '.' :: (minor.digits ++ (lineEnd cr ++ rest)) := by
  cases input with
  | nil => exact absurd hends not_ends_nil
  | cons ch input =>
      rcases ends_cons hends with ⟨next, r', hstep, hnext⟩ | ⟨⟨q, r', hstep⟩, -⟩
      · simp only [requestLineStep] at hstep
        split_ifs at hstep with hdigit hlarge
        simp only [Verdict.more.injEq, Prod.mk.injEq] at hstep
        obtain ⟨rfl, rfl⟩ := hstep
        rw [not_outside_iff ch (by decide) (by decide)] at hdigit
        have hone : ch.toNat = '1'.toNat := by
          have hlow : '1'.toNat ≤ ch.toNat := hdigit.1
          simp only [Char.reduceToNat] at hlarge hlow ⊢
          omega
        have hch : ch = ascii '1' := BitVec.eq_of_toNat_eq hone
        obtain ⟨minor, cr, hinput⟩ := ends_majorDigit (by simp [hone]) hnext
        exact ⟨minor, cr, by rw [hch, hinput]⟩
      · simp only [requestLineStep] at hstep
        split_ifs at hstep
        all_goals simp at hstep

/-- A state made with `expect` consumes its byte. -/
theorem ends_expect {state next : State} {wanted : Byte}
    (hexpect : ∀ ch, requestLineStep below data p (state, r) ch = expect wanted next r ch)
    (hends : Ends below data p state r input rest) :
    ∃ input', input = wanted :: input' ∧ Ends below data (p + 1) next r input' rest := by
  cases input with
  | nil => exact absurd hends not_ends_nil
  | cons ch input =>
      rcases ends_cons hends with ⟨next', r', hstep, hnext⟩ | ⟨⟨q, r', hstep⟩, -⟩
      · rw [hexpect, expect] at hstep
        split_ifs at hstep with hch
        simp only [Verdict.more.injEq, Prod.mk.injEq] at hstep
        obtain ⟨rfl, rfl⟩ := hstep
        exact ⟨input, by rw [hch], hnext⟩
      · rw [hexpect, expect] at hstep
        split_ifs at hstep
        simp at hstep

theorem ends_httpH (hends : Ends below data p .swHttpH r input rest) :
    ∃ minor : Minor, ∃ cr,
      ascii 'H' :: input = protocolBytes ++ (minor.digits ++ (lineEnd cr ++ rest)) := by
  obtain ⟨second, rfl, hsecond⟩ := ends_expect (fun _ => rfl) hends
  obtain ⟨third, rfl, hthird⟩ := ends_expect (fun _ => rfl) hsecond
  obtain ⟨fourth, rfl, hfourth⟩ := ends_expect (fun _ => rfl) hthird
  obtain ⟨fifth, rfl, hfifth⟩ := ends_expect (fun _ => rfl) hfourth
  obtain ⟨minor, cr, rfl⟩ := ends_firstMajorDigit hfifth
  exact ⟨minor, cr, rfl⟩

theorem ends_http09 (hends : Ends below data p .swHttp09 r input rest) :
    ∃ count minor cr,
      input = List.replicate count SP ++ (versionBytes minor ++ (lineEnd cr ++ rest)) := by
  induction input generalizing p with
  | nil => exact absurd hends not_ends_nil
  | cons ch input ih =>
      rcases ends_cons hends with ⟨next, r', hstep, hnext⟩ | ⟨⟨q, r', hstep⟩, hinput⟩
      · simp only [requestLineStep] at hstep
        split_ifs at hstep with hblank hcr hlf hproto
        all_goals
          simp only [Verdict.more.injEq, Prod.mk.injEq] at hstep
          obtain ⟨rfl, rfl⟩ := hstep
        · obtain ⟨count, minor, cr, hinput⟩ := ih hnext
          exact ⟨count + 1, minor, cr, by
            rw [hblank, hinput, List.replicate_succ, List.cons_append]⟩
        · refine ⟨0, none, true, ?_⟩
          simp [versionBytes, lineEnd, hcr, ends_almostDone hnext]
        · obtain ⟨minor, cr, hinput⟩ := ends_httpH hnext
          refine ⟨0, some minor, cr, ?_⟩
          rw [hproto, hinput]
          simp [versionBytes]
      · have hlf : ch = LF := by
          by_contra hlf
          simp only [requestLineStep, if_neg hlf] at hstep
          split_ifs at hstep
          all_goals simp at hstep
        refine ⟨0, none, false, ?_⟩
        simp [versionBytes, lineEnd, hlf, hinput]

/-- No state continues a path behind its slash. -/
theorem not_ends_checkUri : ¬ Ends below data p .swCheckUri r input rest := by
  intro hends
  cases input with
  | nil => exact not_ends_nil hends
  | cons ch input =>
      rcases ends_cons hends with ⟨next, r', hstep, -⟩ | ⟨⟨q, r', hstep⟩, -⟩
      all_goals simp [requestLineStep] at hstep

theorem ends_afterSlashInUri (hends : Ends below data p .swAfterSlashInUri r input rest) :
    ∃ tail : LineTail, input = tail.bytes ++ rest := by
  cases input with
  | nil => exact absurd hends not_ends_nil
  | cons ch input =>
      rcases ends_cons hends with ⟨next, r', hstep, hnext⟩ | ⟨⟨q, r', hstep⟩, -⟩
      · simp only [requestLineStep] at hstep
        split_ifs at hstep with husual hblank hcontrol
        all_goals
          simp only [Verdict.more.injEq, Prod.mk.injEq] at hstep
          obtain ⟨rfl, rfl⟩ := hstep
        · exact absurd hnext not_ends_checkUri
        · obtain ⟨count, minor, cr, hinput⟩ := ends_http09 hnext
          refine ⟨⟨count + 1, minor, cr, by omega⟩, ?_⟩
          simp [LineTail.bytes, List.replicate_succ, hblank, hinput]
        · exact absurd hnext not_ends_checkUri
      · simp only [requestLineStep] at hstep
        split_ifs at hstep
        all_goals simp at hstep

theorem ends_spacesBeforeUri (hends : Ends below data p .swSpacesBeforeUri r input rest) :
    ∃ junk : List Byte, ∃ tail : LineTail, ascii '/' ∉ junk ∧
      input = junk ++ ascii '/' :: (tail.bytes ++ rest) := by
  induction input generalizing p with
  | nil => exact absurd hends not_ends_nil
  | cons ch input ih =>
      rcases ends_cons hends with ⟨next, r', hstep, hnext⟩ | ⟨⟨q, r', hstep⟩, -⟩
      · simp only [requestLineStep] at hstep
        split_ifs at hstep with hslash
        all_goals
          simp only [Verdict.more.injEq, Prod.mk.injEq] at hstep
          obtain ⟨rfl, rfl⟩ := hstep
        · obtain ⟨tail, hinput⟩ := ends_afterSlashInUri hnext
          exact ⟨[], tail, by simp, by rw [hslash, hinput, List.nil_append]⟩
        · obtain ⟨junk, tail, hjunk, hinput⟩ := ih hnext
          refine ⟨ch :: junk, tail, ?_, by rw [hinput, List.cons_append]⟩
          intro hmem
          rcases List.mem_cons.mp hmem with heq | hmem
          · exact hslash heq.symm
          · exact hjunk hmem
      · simp only [requestLineStep] at hstep
        split_ifs at hstep

/-- A word is taken for a method by its length alone. -/
theorem length_of_methodOf_eq_some {r : Request} {method : BitVec 32}
    (hstart : r.requestStart = some 0) (hmethod : methodOf data p r = some method) :
    p = 3 ∨ p = 4 := by
  by_contra hlength
  rw [methodOf, hstart] at hmethod
  simp only [Nat.zero_add] at hmethod
  rw [if_neg (by omega), if_neg (by omega)] at hmethod
  cases hmethod

theorem ends_method (hstart : r.requestStart = some 0)
    (hends : Ends below data p .swMethod r input rest) :
    ∃ word : List Byte, ∃ junk : List Byte, ∃ tail : LineTail,
      (∀ ch ∈ word, IsUpper ch) ∧ (p + word.length = 3 ∨ p + word.length = 4) ∧
      ascii '/' ∉ junk ∧
      input = word ++ SP :: (junk ++ ascii '/' :: (tail.bytes ++ rest)) := by
  induction input generalizing p with
  | nil => exact absurd hends not_ends_nil
  | cons ch input ih =>
      rcases ends_cons hends with ⟨next, r', hstep, hnext⟩ | ⟨⟨q, r', hstep⟩, -⟩
      · simp only [requestLineStep] at hstep
        split_ifs at hstep with hblank hupper
        · cases hmethod : methodOf data p { r with methodEnd := some p } with
          | none => simp [hmethod] at hstep
          | some method =>
              have hlength : p = 3 ∨ p = 4 := length_of_methodOf_eq_some hstart hmethod
              simp only [hmethod, Verdict.more.injEq, Prod.mk.injEq] at hstep
              obtain ⟨rfl, rfl⟩ := hstep
              obtain ⟨junk, tail, hjunk, hinput⟩ := ends_spacesBeforeUri hnext
              refine ⟨[], junk, tail, by simp, by simpa using hlength, hjunk, ?_⟩
              rw [hblank, hinput, List.nil_append]
        · rw [isUpper_iff] at hupper
          simp only [Verdict.more.injEq, Prod.mk.injEq] at hstep
          obtain ⟨rfl, rfl⟩ := hstep
          obtain ⟨word, junk, tail, hword, hlength, hjunk, hinput⟩ := ih hnext
          refine ⟨ch :: word, junk, tail, ?_, ?_, hjunk, by rw [hinput, List.cons_append]⟩
          · intro other hmem
            rcases List.mem_cons.mp hmem with heq | hmem
            · rw [heq]
              exact hupper
            · exact hword other hmem
          · rw [List.length_cons]
            omega
      · simp only [requestLineStep] at hstep
        split_ifs at hstep
        · cases hmethod : methodOf data p { r with methodEnd := some p } <;>
            simp [hmethod] at hstep
        · simp at hstep

/-- A scan that accepts has read a head and a tail. -/
theorem ends_start (hends : Ends below data 0 .swStart freshRequest input rest) :
    ∃ head : LaxHead, ∃ tail : LineTail, input = head.bytes ++ tail.bytes ++ rest := by
  cases input with
  | nil => exact absurd hends not_ends_nil
  | cons ch input =>
      rcases ends_cons hends with ⟨next, r', hstep, hnext⟩ | ⟨⟨q, r', hstep⟩, -⟩
      · simp only [requestLineStep] at hstep
        split_ifs at hstep with hupper
        rw [isUpper_iff] at hupper
        simp only [Verdict.more.injEq, Prod.mk.injEq] at hstep
        obtain ⟨rfl, rfl⟩ := hstep
        obtain ⟨word, junk, tail, hword, hlength, hjunk, hinput⟩ := ends_method rfl hnext
        refine ⟨⟨ch :: word, junk, ?_, ?_, hjunk⟩, tail, ?_⟩
        · intro other hmem
          rcases List.mem_cons.mp hmem with heq | hmem
          · rw [heq]
            exact hupper
          · exact hword other hmem
        · rw [List.length_cons]
          omega
        · simp [LaxHead.bytes, hinput]
      · simp only [requestLineStep] at hstep
        split_ifs at hstep
        simp at hstep

end Accepted

/-! ## The calls on a fresh request -/

/-- One call on a fresh request with the whole of `s` in the buffer. -/
def parseFresh (below : ℤ → BitVec 32) (s : List Byte) : ParseCode × Request × Buf :=
  nightHttpParseRequestLine below freshRequest ⟨s, 0⟩

/-- The scan behind `parseFresh`. -/
def scanFresh (below : ℤ → BitVec 32) (s : List Byte) :
    Outcome (State × Request) Byte Exit :=
  run (requestLineStep below s) 0 (.swStart, freshRequest) s

/-- The request when a line is at its end. -/
def lineRequest (head : LaxHead) (tail : LineTail) : Request :=
  endRequest tail.cr ((head.bytes ++ tail.bytes).length - 1)
    (versionRequest tail.minor (head.bytes.length + tail.gap)
      { headRequest head with uriEnd := some head.bytes.length })

theorem LineTail.bytes_ne_nil (tail : LineTail) : tail.bytes ≠ [] := by
  have hgap := tail.gap_pos
  intro hnil
  have hlength := congrArg List.length hnil
  simp only [bytes, List.length_append, List.length_replicate,
    List.length_nil] at hlength
  omega

theorem scanFresh_line (below : ℤ → BitVec 32) (head : LaxHead) (tail : LineTail)
    (rest : List Byte) :
    scanFresh below (head.bytes ++ tail.bytes ++ rest) =
      .stop (.done ((head.bytes ++ tail.bytes).length - 1) (lineRequest head tail))
        rest := by
  have hhead := run_head below head (tail.bytes ++ rest)
  rw [← List.append_assoc] at hhead
  have htail : run (requestLineStep below (head.bytes ++ tail.bytes ++ rest))
      (0 + head.bytes.length) (.swAfterSlashInUri, headRequest head)
      (tail.bytes ++ rest) = .stop (.done _ _) ([] ++ rest) :=
    run_append_of_stop (run_tail tail)
  have hscan : scanFresh below (head.bytes ++ tail.bytes ++ rest) =
      run (requestLineStep below (head.bytes ++ tail.bytes ++ rest))
        (0 + head.bytes.length) (.swAfterSlashInUri, headRequest head)
        (tail.bytes ++ rest) := by
    rw [scanFresh, ← run_append_of_more hhead, List.append_assoc]
  rw [hscan, htail, lineRequest]
  simp only [Nat.zero_add, List.length_append, List.nil_append]

theorem finish_lineRequest (head : LaxHead) (tail : LineTail) (p : ℕ) :
    (finishRequestLine p (lineRequest head tail)).1 = .ok ↔
      (tail.minor = none → head.word = Method.get.bytes) := by
  obtain ⟨gap, minor, cr, hgap⟩ := tail
  rw [← methodBits_eq_get_iff]
  cases minor with
  | none =>
      cases cr <;>
        simp [finishRequestLine, lineRequest, endRequest, versionRequest, headRequest,
          freshRequest]
  | some minor =>
      have hversion : 1000 + minor.value ≠ 9 := by omega
      cases cr <;>
        simp [finishRequestLine, lineRequest, endRequest, versionRequest, hversion]

section Calls

variable {below : ℤ → BitVec 32} {s rest : List Byte}

theorem parseFresh_of_more {current : State × Request}
    (hscan : scanFresh below s = .more current) : (parseFresh below s).1 = .again := by
  have hrun : run (requestLineStep below s) 0 (State.ofNat freshRequest.state, freshRequest)
      (s.drop 0) = .more current := hscan
  simp only [parseFresh, nightHttpParseRequestLine, Buf.unread, hrun]

theorem parseFresh_of_fail {code : ParseCode} {r : Request}
    (hscan : scanFresh below s = .stop (.fail code r) rest) :
    (parseFresh below s).1 = code := by
  have hrun : run (requestLineStep below s) 0 (State.ofNat freshRequest.state, freshRequest)
      (s.drop 0) = .stop (.fail code r) rest := hscan
  simp only [parseFresh, nightHttpParseRequestLine, Buf.unread, hrun]

theorem parseFresh_of_done {p : ℕ} {r : Request}
    (hscan : scanFresh below s = .stop (.done p r) rest) :
    parseFresh below s =
      ((finishRequestLine p r).1, (finishRequestLine p r).2, ⟨s, p + 1⟩) := by
  have hrun : run (requestLineStep below s) 0 (State.ofNat freshRequest.state, freshRequest)
      (s.drop 0) = .stop (.done p r) rest := hscan
  simp only [parseFresh, nightHttpParseRequestLine, Buf.unread, hrun]

/-- `NIGHT_OK` means that the input starts with a line of the machine's shape. -/
theorem parseFresh_ok_iff : (parseFresh below s).1 = .ok ↔
    ∃ line : LaxLine, line.bytes <+: s := by
  constructor
  · intro hok
    cases hscan : scanFresh below s with
    | more current =>
        rw [parseFresh_of_more hscan] at hok
        cases hok
    | stop exit rest =>
        have hfinal := result_of_run_stop (requestLineStep_isFinal below s) hscan
        cases exit with
        | fail code r =>
            rw [parseFresh_of_fail hscan] at hok
            exact absurd hok hfinal.1
        | done p r =>
            obtain ⟨head, tail, hs⟩ := ends_start ⟨p, r, hscan⟩
            have hline := scanFresh_line below head tail rest
            rw [← hs] at hline
            rw [parseFresh_of_done hline, finish_lineRequest] at hok
            exact ⟨⟨head, tail, hok⟩, rest, hs.symm⟩
  · rintro ⟨⟨head, tail, hget⟩, rest, rfl⟩
    show (parseFresh below (head.bytes ++ tail.bytes ++ rest)).1 = .ok
    rw [parseFresh_of_done (scanFresh_line below head tail rest), finish_lineRequest]
    exact hget

/-- A scan that waits at the end of a longer input waits at the end of `s`. -/
theorem parseFresh_again_of_prefix {more : List Byte} {exit : Exit}
    (hmore : more ≠ []) (hscan : scanFresh below (s ++ more) = .stop exit []) :
    (parseFresh below s).1 = .again := by
  have hfirst := run_requestLine_append below [] s more (.swStart, freshRequest)
  simp only [List.nil_append, List.length_nil] at hfirst
  obtain ⟨next, hnext⟩ := exists_more_of_append_stop hscan hmore
  rw [hfirst] at hnext
  exact parseFresh_of_more hnext

theorem parseFresh_again_of_line (head : LaxHead) (tail : LineTail) (more : List Byte)
    (hmore : more ≠ []) (hs : s ++ more = head.bytes ++ tail.bytes) :
    (parseFresh below s).1 = .again := by
  have hscan := scanFresh_line below head tail []
  rw [List.append_nil, ← hs] at hscan
  exact parseFresh_again_of_prefix hmore hscan

end Calls

/-! ## Heads and paths -/

/-- The first blank and the first slash delimit a head. -/
theorem LaxHead.bytes_append_inj {left right : LaxHead} {rest rest' : List Byte}
    (heq : left.bytes ++ rest = right.bytes ++ rest') :
    left.word = right.word ∧ left.junk = right.junk ∧ rest = rest' := by
  have no_blank : ∀ head : LaxHead, SP ∉ head.word := by
    intro head hmem
    exact isUpper_ne_SP (head.isUpper SP hmem) rfl
  simp only [bytes, List.append_assoc, List.cons_append] at heq
  obtain ⟨hword, hbehind⟩ := append_delimiter_inj (no_blank left) (no_blank right) heq
  obtain ⟨hjunk, hrest⟩ := append_delimiter_inj left.no_slash right.no_slash hbehind
  exact ⟨hword, hjunk, hrest⟩

theorem Method.isUpper_of_mem (method : Method) : ∀ ch ∈ method.bytes, IsUpper ch := by
  cases method <;> decide

theorem Method.length_bytes (method : Method) :
    method.bytes.length = 3 ∨ method.bytes.length = 4 := by
  cases method <;> decide

/-- A head of the grammar is one the machine follows. -/
def GrammarLine.laxHead (line : GrammarLine) : LaxHead where
  word := line.method.bytes
  junk := List.replicate (line.blanks - 1) SP
  isUpper := line.method.isUpper_of_mem
  word_length := line.method.length_bytes
  no_slash := by
    intro hmem
    exact absurd (List.eq_of_mem_replicate hmem) (by decide)

theorem GrammarLine.bytes_laxHead (line : GrammarLine) : line.laxHead.bytes = line.head := by
  obtain ⟨count, hcount⟩ := Nat.exists_eq_add_of_lt line.blanks_pos
  simp only [LaxHead.bytes, laxHead, head, hcount, Nat.zero_add, Nat.add_sub_cancel,
    List.replicate_succ, List.append_assoc, List.cons_append]

theorem Method.bytes_eq_get_iff (method : Method) :
    method.bytes = Method.get.bytes ↔ method = .get := by
  cases method <;> decide

/-- A line with an empty path, as the machine sees it. -/
def GrammarLine.laxLine (line : GrammarLine) : LaxLine where
  head := line.laxHead
  tail := line.tail
  get_of_no_version := by
    intro hminor
    exact congrArg Method.bytes (line.get_of_no_version hminor)

theorem GrammarLine.bytes_laxLine (line : GrammarLine) (hpath : line.path = []) :
    line.laxLine.bytes = line.bytes := by
  have hhead : line.laxLine.head.bytes = line.head := line.bytes_laxHead
  rw [LaxLine.bytes, hhead, bytes, hpath, List.append_nil]
  rfl

/-- A line of the machine whose head is one of the grammar is a line of the
grammar. -/
theorem exists_grammarLine (lax : LaxLine) (hhead : lax.head.IsGrammatical) :
    ∃ line : GrammarLine, line.bytes = lax.bytes := by
  obtain ⟨⟨method, hword⟩, hjunk⟩ := hhead
  refine ⟨⟨method, lax.head.junk.length + 1, [], lax.tail, by omega, by simp, ?_⟩, ?_⟩
  · intro hminor
    exact method.bytes_eq_get_iff.mp (hword ▸ lax.get_of_no_version hminor)
  · have hblanks : lax.head.junk = List.replicate lax.head.junk.length SP :=
      List.eq_replicate_of_mem hjunk
    simp only [GrammarLine.bytes, GrammarLine.head, LaxLine.bytes, LaxHead.bytes,
      List.replicate_succ, List.append_nil, hword, ← hblanks]
    simp

/-- The state behind the slash takes a path byte, unless it is a byte above `0x7f`
that the words in front of the table do not call usual. -/
theorem step_pathByte (below : ℤ → BitVec 32) (data : List Byte) (p : ℕ) (r : Request)
    {ch : Byte} (hch : IsPathByte ch) :
    requestLineStep below data p (.swAfterSlashInUri, r) ch =
      if ch.toNat < 128 ∨ isUsual below ch then .more (.swCheckUri, r)
      else .stop (.fail .invalidRequest r) := by
  have hblank : ch ≠ SP := by
    intro heq
    exact absurd hch.1 (by rw [heq]; decide)
  have hlow : SP.toNat < ch.toNat := hch.1
  rw [show SP.toNat = 32 by rfl] at hlow
  have hcontrol : (ch.toInt < 0x20 ∨ ch = DEL) ↔ ¬ ch.toNat < 128 := by
    rw [toInt_eq]
    have := ch.isLt
    constructor
    · rintro (hneg | hdel)
      · split_ifs at hneg <;> omega
      · exact absurd hdel hch.2
    · intro hhigh
      rw [if_neg hhigh]
      left
      omega
  simp only [requestLineStep, if_neg hblank, hcontrol]
  by_cases husual : isUsual below ch
  · simp [husual]
  · by_cases hhigh : ch.toNat < 128
    · simp [husual, hhigh]
    · simp [husual, hhigh]

section Path

variable {below : ℤ → BitVec 32} {rest : List Byte}

theorem scanFresh_path (below : ℤ → BitVec 32) (head : LaxHead) {ch : Byte}
    (hch : IsPathByte ch) (rest : List Byte) :
    scanFresh below (head.bytes ++ ch :: rest) =
      if ch.toNat < 128 ∨ isUsual below ch then
        run (requestLineStep below (head.bytes ++ ch :: rest)) (head.bytes.length + 1)
          (.swCheckUri, headRequest head) rest
      else .stop (.fail .invalidRequest (headRequest head)) rest := by
  have hstep := step_pathByte below (head.bytes ++ ch :: rest) head.bytes.length
    (headRequest head) hch
  rw [scanFresh, run_append_of_more (run_head below head (ch :: rest)), Nat.zero_add]
  split_ifs with husual
  · rw [if_pos husual] at hstep
    rw [run_cons_more hstep]
  · rw [if_neg husual] at hstep
    rw [run_cons_stop hstep]

/-- The input goes past the first byte of a path, or stops at one that the machine
does not take. -/
def LeavesPath (below : ℤ → BitVec 32) (ch : Byte) (rest : List Byte) : Prop :=
  rest ≠ [] ∨ ¬(ch.toNat < 128 ∨ isUsual below ch)

theorem parseFresh_path (head : LaxHead) {ch : Byte} (hch : IsPathByte ch)
    (hleaves : LeavesPath below ch rest) :
    (parseFresh below (head.bytes ++ ch :: rest)).1 ≠ .ok ∧
      (parseFresh below (head.bytes ++ ch :: rest)).1 ≠ .again := by
  have hscan := scanFresh_path below head hch rest
  by_cases husual : ch.toNat < 128 ∨ isUsual below ch
  · rw [if_pos husual] at hscan
    cases rest with
    | nil =>
        rcases hleaves with hrest | hunusual
        · exact absurd rfl hrest
        · exact absurd husual hunusual
    | cons next rest =>
        have hstop : scanFresh below (head.bytes ++ ch :: next :: rest) =
            .stop (.fail .error (headRequest head)) rest := hscan
        rw [parseFresh_of_fail hstop]
        exact ⟨by decide, by decide⟩
  · rw [if_neg husual] at hscan
    rw [parseFresh_of_fail hscan]
    exact ⟨by decide, by decide⟩

theorem parseFresh_path_first (head : LaxHead) {ch : Byte} (hch : IsPathByte ch)
    (husual : ch.toNat < 128 ∨ isUsual below ch) :
    (parseFresh below (head.bytes ++ [ch])).1 = .again := by
  have hscan := scanFresh_path below head hch []
  rw [if_pos husual] at hscan
  exact parseFresh_of_more hscan

end Path

/-! ## The contract -/

/-- What `NIGHT_OK` must leave behind for a line of the grammar. -/
structure Delimits (line : GrammarLine) (r : Request) (b : Buf) : Prop where
  methodEnd : r.methodEnd = some line.method.bytes.length
  uriStart : r.uriStart = some (line.head.length - 1)
  uriEnd : r.uriEnd = some (line.head.length + line.path.length)
  httpMajor : r.httpMajor = if line.tail.minor.isSome then 1 else 0
  httpMinor : r.httpMinor = (line.tail.minor.map Minor.value).getD 9
  pos : b.pos = line.bytes.length

/-- The contract of one call on a fresh request. -/
structure MeetsContract (below : ℤ → BitVec 32) (s : List Byte) : Prop where
  ok_iff : (parseFresh below s).1 = .ok ↔ ∃ line : GrammarLine, line.bytes <+: s
  delimits : (parseFresh below s).1 = .ok → ∀ line : GrammarLine, line.bytes <+: s →
    Delimits line (parseFresh below s).2.1 (parseFresh below s).2.2
  again : ∀ line : GrammarLine, s <+: line.bytes → s ≠ line.bytes →
    (parseFresh below s).1 = .again

/-- The inputs on which no defect shows: they do not go past the first byte of a
path, and what they have in front of the slash is a method and blanks. -/
structure AvoidsDefects (below : ℤ → BitVec 32) (s : List Byte) : Prop where
  path : ∀ line : GrammarLine, ∀ ch more, line.path = ch :: more →
    line.bytes <+: s ∨ s <+: line.bytes →
    ∀ rest, s = line.head ++ ch :: rest → ¬ LeavesPath below ch rest
  head : ∀ line : LaxLine, line.bytes <+: s → line.head.IsGrammatical

section Contract

variable {below : ℤ → BitVec 32} {s : List Byte}

theorem finish_delimits (line : GrammarLine) (hpath : line.path = []) (p : ℕ)
    (b : Buf) (hb : b.pos = line.bytes.length) :
    Delimits line (finishRequestLine p (lineRequest line.laxHead line.tail)).2 b := by
  have hend : ∀ q r, (endRequest line.tail.cr q r).methodEnd = r.methodEnd ∧
      (endRequest line.tail.cr q r).uriStart = r.uriStart ∧
      (endRequest line.tail.cr q r).uriEnd = r.uriEnd ∧
      (endRequest line.tail.cr q r).httpMajor = r.httpMajor ∧
      (endRequest line.tail.cr q r).httpMinor = r.httpMinor := by
    intro q r
    cases hcr : line.tail.cr <;> simp [endRequest]
  have hfinish := hend ((line.laxHead.bytes ++ line.tail.bytes).length - 1)
    (versionRequest line.tail.minor (line.laxHead.bytes.length + line.tail.gap)
      { headRequest line.laxHead with uriEnd := some line.laxHead.bytes.length })
  obtain ⟨hmethodEnd, huriStart, huriEnd, hmajor, hminor⟩ := hfinish
  constructor
  · refine hmethodEnd.trans ?_
    cases hversion : line.tail.minor <;> rfl
  · rw [← line.bytes_laxHead]
    refine huriStart.trans ?_
    cases hversion : line.tail.minor <;> rfl
  · rw [hpath, ← line.bytes_laxHead]
    refine huriEnd.trans ?_
    cases hversion : line.tail.minor <;> rfl
  · refine hmajor.trans ?_
    cases hversion : line.tail.minor <;> rfl
  · refine hminor.trans ?_
    cases hversion : line.tail.minor <;> rfl
  · exact hb

/-- The machine cuts the path of a line it accepts down to nothing. -/
theorem path_eq_nil_of_lax (lax : LaxLine) (line : GrammarLine)
    (hlax : lax.bytes <+: s) (hline : line.bytes <+: s) :
    line.path = [] ∧ lax.head.IsGrammatical := by
  obtain ⟨rest, hrest⟩ := hlax
  obtain ⟨rest', hrest'⟩ := hline
  have heq : lax.head.bytes ++ (lax.tail.bytes ++ rest) =
      line.laxHead.bytes ++ (line.path ++ line.tail.bytes ++ rest') := by
    rw [line.bytes_laxHead]
    simpa [LaxLine.bytes, GrammarLine.bytes] using hrest.trans hrest'.symm
  obtain ⟨hword, hjunk, htail⟩ := LaxHead.bytes_append_inj heq
  constructor
  · obtain ⟨count, hcount⟩ := Nat.exists_eq_add_of_lt lax.tail.gap_pos
    cases hpath : line.path with
    | nil => rfl
    | cons ch more =>
        have hch : IsPathByte ch := line.isPathByte ch (by simp [hpath])
        have hblank : SP = ch := by
          rw [hpath, LineTail.bytes, hcount, List.replicate_succ] at htail
          simp only [List.cons_append, List.cons.injEq] at htail
          exact htail.1
        exact absurd hch.1 (by rw [← hblank]; decide)
  · refine ⟨⟨line.method, hword⟩, ?_⟩
    intro ch hch
    rw [hjunk] at hch
    exact List.eq_of_mem_replicate hch

theorem meetsContract_of_avoidsDefects (havoids : AvoidsDefects below s) :
    MeetsContract below s := by
  have hpath : ∀ line : GrammarLine, line.bytes <+: s → line.path = [] := by
    intro line hline
    obtain ⟨rest, hrest⟩ := hline
    cases hpath : line.path with
    | nil => rfl
    | cons ch more =>
        have hs : s = line.head ++ ch :: (more ++ line.tail.bytes ++ rest) := by
          rw [← hrest]
          simp [GrammarLine.bytes, hpath]
        have hleaves : LeavesPath below ch (more ++ line.tail.bytes ++ rest) := by
          left
          simp [line.tail.bytes_ne_nil]
        exact absurd hleaves (havoids.path line ch more hpath (Or.inl ⟨rest, hrest⟩) _ hs)
  refine ⟨?_, ?_, ?_⟩
  · rw [parseFresh_ok_iff]
    constructor
    · rintro ⟨lax, hlax⟩
      obtain ⟨line, hline⟩ := exists_grammarLine lax (havoids.head lax hlax)
      exact ⟨line, by rw [hline]; exact hlax⟩
    · rintro ⟨line, hline⟩
      exact ⟨line.laxLine, by rwa [line.bytes_laxLine (hpath line hline)]⟩
  · intro _ line hline
    have hnil := hpath line hline
    obtain ⟨rest, hrest⟩ := hline
    have hscan := scanFresh_line below line.laxHead line.tail rest
    have hbytes : line.laxHead.bytes ++ line.tail.bytes = line.bytes :=
      line.bytes_laxLine hnil
    rw [hbytes, hrest] at hscan
    rw [parseFresh_of_done hscan]
    apply finish_delimits line hnil
    have hpos : 0 < line.bytes.length := by
      rw [← hbytes, List.length_append]
      have := List.length_pos_iff.mpr line.tail.bytes_ne_nil
      omega
    show line.bytes.length - 1 + 1 = line.bytes.length
    omega
  · intro line hprefix hne
    cases hpath : line.path with
    | nil =>
        obtain ⟨more, hmore⟩ := hprefix
        have hbytes : line.laxHead.bytes ++ line.tail.bytes = line.bytes :=
          line.bytes_laxLine hpath
        apply parseFresh_again_of_line (line.laxHead) (line.tail) more
        · intro hnil
          exact hne (by rw [← hmore, hnil, List.append_nil])
        · rw [hmore, hbytes]
    | cons ch more =>
        have hch : IsPathByte ch := line.isPathByte ch (by simp [hpath])
        by_cases hhead : s <+: line.head
        · obtain ⟨more', hmore'⟩ := hhead
          apply parseFresh_again_of_line (line.laxHead) (line.tail)
            (more' ++ line.tail.bytes)
          · simp [line.tail.bytes_ne_nil]
          · rw [← List.append_assoc, hmore', line.bytes_laxHead]
        · obtain ⟨after, hafter⟩ := hprefix
          have hsplit : s ++ after = line.head ++ (ch :: (more ++ line.tail.bytes)) := by
            rw [hafter]
            simp [GrammarLine.bytes, hpath]
          have hbehind : line.head <+: s :=
            (List.prefix_or_prefix_of_prefix ⟨after, rfl⟩ ⟨_, hsplit.symm⟩).resolve_left
              hhead
          obtain ⟨read, hread⟩ := hbehind
          cases read with
          | nil =>
              rw [List.append_nil] at hread
              exact absurd (hread ▸ List.prefix_rfl) hhead
          | cons ch' rest =>
              rw [← hread, List.append_assoc] at hsplit
              have hcons := List.append_cancel_left hsplit
              simp only [List.cons_append, List.cons.injEq] at hcons
              rw [hcons.1] at hread
              have hstays := havoids.path line ch more hpath (Or.inr ⟨after, hafter⟩) rest
                hread.symm
              have hrest : rest = [] := by
                by_contra hrest
                exact hstays (Or.inl hrest)
              have husual : ch.toNat < 128 ∨ isUsual below ch := by
                by_contra husual
                exact hstays (Or.inr husual)
              rw [hrest] at hread
              have hcode := parseFresh_path_first line.laxHead hch husual
              rwa [line.bytes_laxHead, hread] at hcode

theorem avoidsDefects_of_meetsContract (hmeets : MeetsContract below s) :
    AvoidsDefects below s := by
  constructor
  · intro line ch more hpath hrelated rest hs hleaves
    have hch : IsPathByte ch := line.isPathByte ch (by simp [hpath])
    have hcode := parseFresh_path line.laxHead hch hleaves
    rw [line.bytes_laxHead, ← hs] at hcode
    by_cases hwhole : line.bytes <+: s
    · exact hcode.1 (hmeets.ok_iff.mpr ⟨line, hwhole⟩)
    · have hprefix : s <+: line.bytes := hrelated.resolve_left hwhole
      have hne : s ≠ line.bytes := by
        intro heq
        exact hwhole (heq ▸ List.prefix_rfl)
      exact hcode.2 (hmeets.again line hprefix hne)
  · intro lax hlax
    obtain ⟨line, hline⟩ := hmeets.ok_iff.mp (parseFresh_ok_iff.mpr ⟨lax, hlax⟩)
    exact (path_eq_nil_of_lax lax line hlax hline).2

end Contract

/-- The parser meets its contract on an input exactly when the input does not reach
one of its two defects. -/
theorem meetsContract_iff (below : ℤ → BitVec 32) (s : List Byte) :
    MeetsContract below s ↔ AvoidsDefects below s :=
  ⟨avoidsDefects_of_meetsContract, meetsContract_of_avoidsDefects⟩

/-- `GET /ab HTTP/1.1` with its line end. -/
def twoBytePath : GrammarLine where
  method := .get
  blanks := 1
  path := [ascii 'a', ascii 'b']
  tail := ⟨1, some ⟨[ascii '1'], by decide, by decide, by decide⟩, true, by decide⟩
  blanks_pos := by decide
  isPathByte := by decide
  get_of_no_version := by
    intro hminor
    cases hminor

/-- The line is rejected at the second byte of its path. -/
theorem not_meetsContract_twoBytePath :
    ¬ MeetsContract (fun _ => 0) twoBytePath.bytes := by
  intro hmeets
  have hok : (parseFresh (fun _ => 0) twoBytePath.bytes).1 = .ok :=
    hmeets.ok_iff.mpr ⟨twoBytePath, List.prefix_rfl⟩
  exact absurd hok (by decide)

end Night.RequestLine
