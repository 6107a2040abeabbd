import Night.Http.HeaderBlock
import Night.Http.RequestLineContract

/-!
# The table accesses of the parsers

The request line looks up one byte in `http_uri_usual`, the one behind the slash,
and a header line looks up the bytes of its name in `lowcase`.  The index is the
byte as a `char`, so an access is in the table exactly when the byte is below
`0x80`.
-/

namespace Night.TableAccess

open Night.Bytes
open Night.HttpRequest
open Night.Scanner

/-! ## The accesses -/

/-- The index that a turn of `night_http_parse_request_line` uses: `ch >> 5`. -/
def uriIndex : RequestLine.State × Request → Byte → List ℤ
  | (.swAfterSlashInUri, _), ch => [ch.toInt >>> 5]
  | _, _ => []

/-- The index that a turn of `night_http_parse_header_line` uses.  In `sw_start` only
the `default` branch looks the byte up. -/
def lowcaseIndex : HeaderLine.State × HeaderLine.Locals × Request → Byte → List ℤ
  | (.swStart, _, _), ch => if ch = CR ∨ ch = LF then [] else [ch.toInt]
  | (.swName, _, _), ch => [ch.toInt]
  | _, _ => []

/-- The accesses of one call of `night_http_parse_request_line`. -/
def uriAccesses (below : ℤ → BitVec 32) (r : Request) (b : Buf) : List ℤ :=
  looks (RequestLine.requestLineStep below b.data) uriIndex b.pos
    (RequestLine.State.ofNat r.state, r) b.unread

/-- The accesses of one call of `night_http_parse_header_line`. -/
def lowcaseAccesses (below : ℤ → Byte) (locals : HeaderLine.Locals) (r : Request)
    (b : Buf) : List ℤ :=
  looks (HeaderLine.headerLineStep below) lowcaseIndex b.pos
    (HeaderLine.State.ofNat r.state, locals, r) b.unread

/-- What stands in front of the table reaches a turn through its index alone. -/
theorem requestLineStep_congr {below below' : ℤ → BitVec 32} (data : List Byte) (p : ℕ)
    (current : RequestLine.State × Request) (ch : Byte)
    (hagree : ∀ index ∈ uriIndex current ch, index < 0 → below index = below' index) :
    RequestLine.requestLineStep below data p current ch =
      RequestLine.requestLineStep below' data p current ch := by
  obtain ⟨state, r⟩ := current
  cases state with
  | swAfterSlashInUri =>
      have hword : RequestLine.httpUriUsual below (ch.toInt >>> 5) =
          RequestLine.httpUriUsual below' (ch.toInt >>> 5) := by
        unfold RequestLine.httpUriUsual
        split_ifs with hindex
        · rfl
        · exact hagree _ (by simp [uriIndex]) (by omega)
      have husual : RequestLine.isUsual below ch ↔ RequestLine.isUsual below' ch := by
        rw [RequestLine.isUsual, RequestLine.isUsual, hword]
      simp only [RequestLine.requestLineStep]
      by_cases hset : RequestLine.isUsual below' ch
      · rw [if_pos hset, if_pos (husual.mpr hset)]
      · rw [if_neg hset, if_neg (fun h => hset (husual.mp h))]
  | _ => rfl

theorem headerLineStep_congr {below below' : ℤ → Byte} (p : ℕ)
    (current : HeaderLine.State × HeaderLine.Locals × Request) (ch : Byte)
    (hagree : ∀ index ∈ lowcaseIndex current ch, index < 0 → below index = below' index) :
    HeaderLine.headerLineStep below p current ch =
      HeaderLine.headerLineStep below' p current ch := by
  obtain ⟨state, locals, r⟩ := current
  have hlowcase : ch.toInt ∈ lowcaseIndex (state, locals, r) ch →
      HeaderLine.lowcase below ch.toInt = HeaderLine.lowcase below' ch.toInt := by
    intro hmem
    unfold HeaderLine.lowcase
    split_ifs with hindex
    · rfl
    · exact hagree _ hmem (by omega)
  cases state with
  | swStart =>
      simp only [HeaderLine.headerLineStep]
      by_cases hcr : ch = CR
      · rw [if_pos hcr, if_pos hcr]
      by_cases hlf : ch = LF
      · rw [if_neg hcr, if_neg hcr, if_pos hlf, if_pos hlf]
      · rw [hlowcase (by simp [lowcaseIndex, hcr, hlf])]
  | swName =>
      simp only [HeaderLine.headerLineStep]
      rw [hlowcase (by simp [lowcaseIndex])]
  | _ => rfl

/-! ## Indices -/

theorem uriIndex_in_range : ∀ ch : Byte,
    (0 ≤ ch.toInt >>> 5 ∧ ch.toInt >>> 5 < 8) ↔ ch.toNat < 128 := by
  decide +kernel

theorem lowcaseIndex_in_range : ∀ ch : Byte,
    (0 ≤ ch.toInt ∧ ch.toInt < 256) ↔ ch.toNat < 128 := by
  decide +kernel

/-! ## The request line -/

section RequestLine

open Night.RequestLine

variable {below : ℤ → BitVec 32} {data before : List Byte} {p : ℕ} {r : Request}

/-- What a scan in a given state reads up to the slash in front of the path. -/
def EndsBehindSlash (p : ℕ) (r : Request) : RequestLine.State → List Byte → Prop
  | .swStart, before => ∃ head : LaxHead, before = head.bytes
  | .swMethod, before => ∃ m word junk, r.requestStart = some m ∧
      (m + 3 = p + word.length ∨ m + 4 = p + word.length) ∧ (∀ ch ∈ word, IsUpper ch) ∧
      ascii '/' ∉ junk ∧ before = word ++ SP :: (junk ++ [ascii '/'])
  | .swSpacesBeforeUri, before => ∃ junk, ascii '/' ∉ junk ∧ before = junk ++ [ascii '/']
  | .swAfterSlashInUri, before => before = []
  | _, _ => False

/-- The scan waits in `sw_after_slash_in_uri`. -/
def BehindSlash (below : ℤ → BitVec 32) (data : List Byte) (p : ℕ)
    (current : RequestLine.State × Request) (before : List Byte) : Prop :=
  ∃ r', run (requestLineStep below data) p current before = .more (.swAfterSlashInUri, r')

/-- The states behind the slash. -/
def IsLate : RequestLine.State → Prop
  | .swStart | .swMethod | .swSpacesBeforeUri | .swAfterSlashInUri => False
  | _ => True

theorem isLate_step (p : ℕ) (current : RequestLine.State × Request) (ch : Byte)
    (next : RequestLine.State × Request)
    (hlate : IsLate current.1 ∨ current.1 = .swAfterSlashInUri)
    (hstep : requestLineStep below data p current ch = .more next) : IsLate next.1 := by
  obtain ⟨state, r⟩ := current
  cases state with
  | swStart | swMethod | swSpacesBeforeUri =>
      rcases hlate with hlate | hlate
      · exact absurd hlate id
      · cases hlate
  | _ =>
      simp only [requestLineStep, expect] at hstep
      try split_ifs at hstep
      all_goals
        simp only [Verdict.more.injEq, reduceCtorEq] at hstep
        try subst hstep
        try trivial

theorem not_behindSlash_of_isLate {state : RequestLine.State} (hlate : IsLate state) :
    ¬ BehindSlash below data p (state, r) before := by
  rintro ⟨r', hrun⟩
  let Late : ℕ → RequestLine.State × Request → Prop := fun _ current => IsLate current.1
  have hmore : ∀ position current ch next, Late position current →
      requestLineStep below data position current ch = .more next →
      Late (position + 1) next := fun position current ch next hlate hstep =>
    isLate_step position current ch next (Or.inl hlate) hstep
  have hkept : Late (p + before.length) (.swAfterSlashInUri, r') :=
    state_of_invariant hmore hlate hrun
  exact hkept

theorem behindSlash_cons {current : RequestLine.State × Request} {ch : Byte} :
    BehindSlash below data p current (ch :: before) ↔
      ∃ next, requestLineStep below data p current ch = .more next ∧
        BehindSlash below data (p + 1) next before := by
  unfold BehindSlash
  cases hstep : requestLineStep below data p current ch with
  | more next => simp [run_cons_more hstep]
  | stop exit => simp [run_cons_stop hstep]

theorem behindSlash_afterSlash :
    BehindSlash below data p (.swAfterSlashInUri, r) before ↔
      EndsBehindSlash p r .swAfterSlashInUri before := by
  cases before with
  | nil => exact ⟨fun _ => rfl, fun _ => ⟨r, rfl⟩⟩
  | cons ch before =>
      constructor
      · intro hbehind
        obtain ⟨next, hstep, hnext⟩ := behindSlash_cons.mp hbehind
        have hlate := isLate_step p _ ch next (Or.inr rfl) hstep
        exact absurd hnext (not_behindSlash_of_isLate hlate)
      · intro hnil
        cases hnil

theorem behindSlash_spaces :
    BehindSlash below data p (.swSpacesBeforeUri, r) before ↔
      EndsBehindSlash p r .swSpacesBeforeUri before := by
  constructor
  · intro hbehind
    induction before generalizing p with
    | nil =>
        obtain ⟨r', hrun⟩ := hbehind
        cases hrun
    | cons ch before ih =>
        obtain ⟨next, hstep, hnext⟩ := behindSlash_cons.mp hbehind
        by_cases hslash : ch = ascii '/'
        · simp only [requestLineStep, if_pos hslash, Verdict.more.injEq] at hstep
          rw [← hstep, behindSlash_afterSlash] at hnext
          exact ⟨[], by simp, by rw [hslash, hnext]; rfl⟩
        · simp only [requestLineStep, if_neg hslash, Verdict.more.injEq] at hstep
          rw [← hstep] at hnext
          obtain ⟨junk, hjunk, hbefore⟩ := ih hnext
          refine ⟨ch :: junk, ?_, by rw [hbefore, List.cons_append]⟩
          simp only [List.mem_cons, not_or]
          exact ⟨fun heq => hslash heq.symm, hjunk⟩
  · rintro ⟨junk, hjunk, rfl⟩
    refine ⟨{ r with uriStart := some (p + junk.length) }, ?_⟩
    rw [run_append_of_more (run_junk hjunk)]
    rfl

/-- The `switch` on the length of the method finds a case. -/
theorem methodOf_isSome_iff :
    (∃ method, methodOf data p r = some method) ↔
      ∃ m, r.requestStart = some m ∧ (m + 3 = p ∨ m + 4 = p) := by
  cases hstart : r.requestStart with
  | none => simp [methodOf, hstart]
  | some m =>
      simp only [methodOf, hstart, Option.some.injEq, exists_eq_left']
      constructor
      · rintro ⟨method, hmethod⟩
        by_contra hlength
        simp only [not_or] at hlength
        rw [if_neg hlength.1, if_neg hlength.2] at hmethod
        cases hmethod
      · intro hlength
        split_ifs
        all_goals
          first
            | exact ⟨_, rfl⟩
            | omega

theorem behindSlash_method :
    BehindSlash below data p (.swMethod, r) before ↔
      EndsBehindSlash p r .swMethod before := by
  constructor
  · intro hbehind
    induction before generalizing p with
    | nil =>
        obtain ⟨r', hrun⟩ := hbehind
        cases hrun
    | cons ch before ih =>
        obtain ⟨next, hstep, hnext⟩ := behindSlash_cons.mp hbehind
        by_cases hblank : ch = SP
        · simp only [requestLineStep, if_pos hblank] at hstep
          cases hmethod : methodOf data p { r with methodEnd := some p } with
          | none => simp [hmethod] at hstep
          | some method =>
              simp only [hmethod, Verdict.more.injEq] at hstep
              rw [← hstep, behindSlash_spaces] at hnext
              obtain ⟨junk, hjunk, hbefore⟩ := hnext
              obtain ⟨m, hstart, hlength⟩ := methodOf_isSome_iff.mp ⟨method, hmethod⟩
              exact ⟨m, [], junk, hstart, by simpa using hlength, by simp, hjunk, by
                rw [hblank, hbefore, List.nil_append]⟩
        · by_cases hupper : ch.toInt < 'A'.toNat ∨ ('Z'.toNat : ℤ) < ch.toInt
          · simp only [requestLineStep, if_neg hblank, if_pos hupper, reduceCtorEq] at hstep
          · simp only [requestLineStep, if_neg hblank, if_neg hupper,
              Verdict.more.injEq] at hstep
            rw [← hstep] at hnext
            obtain ⟨m, word, junk, hstart, hlength, hword, hjunk, hbefore⟩ := ih hnext
            refine ⟨m, ch :: word, junk, hstart, ?_, ?_, hjunk, by
              rw [hbefore, List.cons_append]⟩
            · rw [List.length_cons]
              omega
            · exact List.forall_mem_cons.mpr ⟨(isUpper_iff ch).mp hupper, hword⟩
  · rintro ⟨m, word, junk, hstart, hlength, hword, hjunk, rfl⟩
    obtain ⟨method, hmethod⟩ : ∃ method, methodOf data (p + word.length)
        { r with methodEnd := some (p + word.length) } = some method :=
      methodOf_isSome_iff.mpr ⟨m, hstart, hlength⟩
    let named : Request := { r with methodEnd := some (p + word.length), method := method }
    have hblank : requestLineStep below data (p + word.length) (.swMethod, r) SP =
        .more (.swSpacesBeforeUri, named) := by
      simp only [requestLineStep, if_pos, hmethod]
      rfl
    obtain ⟨r', hrun⟩ : BehindSlash below data (p + word.length + 1)
        (.swSpacesBeforeUri, named) (junk ++ [ascii '/']) :=
      behindSlash_spaces.mpr ⟨junk, hjunk, rfl⟩
    refine ⟨r', ?_⟩
    rw [run_append_of_more (run_word hword), run_cons_more hblank, hrun]

theorem behindSlash_start :
    BehindSlash below data p (.swStart, r) before ↔
      EndsBehindSlash p r .swStart before := by
  constructor
  · intro hbehind
    cases before with
    | nil =>
        obtain ⟨r', hrun⟩ := hbehind
        cases hrun
    | cons ch before =>
        obtain ⟨next, hstep, hnext⟩ := behindSlash_cons.mp hbehind
        simp only [requestLineStep] at hstep
        split_ifs at hstep with hupper
        simp only [Verdict.more.injEq] at hstep
        rw [← hstep, behindSlash_method] at hnext
        obtain ⟨m, word, junk, hstart, hlength, hword, hjunk, hbefore⟩ := hnext
        simp only [Option.some.injEq] at hstart
        refine ⟨⟨ch :: word, junk, ?_, ?_, hjunk⟩, ?_⟩
        · exact List.forall_mem_cons.mpr ⟨(isUpper_iff ch).mp hupper, hword⟩
        · rw [List.length_cons]
          omega
        · rw [hbefore]
          rfl
  · rintro ⟨⟨word, junk, hword, hlength, hjunk⟩, rfl⟩
    cases word with
    | nil => simp at hlength
    | cons first word =>
        have hfirst : requestLineStep below data p (.swStart, r) first =
            .more (.swMethod, { r with requestStart := some p }) := by
          simp only [requestLineStep, if_neg ((isUpper_iff first).mpr (hword first (by simp)))]
        rw [LaxHead.bytes, List.cons_append, behindSlash_cons]
        refine ⟨_, hfirst, behindSlash_method.mpr ?_⟩
        refine ⟨p, word, junk, rfl, ?_, ?_, hjunk, rfl⟩
        · rw [List.length_cons] at hlength
          omega
        · exact (List.forall_mem_cons.mp hword).2

theorem behindSlash_iff (state : RequestLine.State) :
    BehindSlash below data p (state, r) before ↔ EndsBehindSlash p r state before := by
  cases state with
  | swStart => exact behindSlash_start
  | swMethod => exact behindSlash_method
  | swSpacesBeforeUri => exact behindSlash_spaces
  | swAfterSlashInUri => exact behindSlash_afterSlash
  | _ => exact iff_of_false (not_behindSlash_of_isLate trivial) id

/-- The byte that a call finds behind the slash, if it comes so far, is ASCII. -/
def AsciiBehindSlash (r : Request) (b : Buf) : Prop :=
  ∀ before ch after, b.unread = before ++ ch :: after →
    EndsBehindSlash b.pos r (RequestLine.State.ofNat r.state) before → ch.toNat < 128

theorem uriAccesses_in_range_iff (below : ℤ → BitVec 32) (r : Request) (b : Buf) :
    (∀ index ∈ uriAccesses below r b, 0 ≤ index ∧ index < 8) ↔ AsciiBehindSlash r b := by
  constructor
  · intro hrange before ch after hunread hends
    obtain ⟨r', hrun⟩ : BehindSlash below b.data b.pos
        (RequestLine.State.ofNat r.state, r) before := (behindSlash_iff _).mpr hends
    have hindex : ch.toInt >>> 5 ∈ uriAccesses below r b :=
      mem_looks_iff.mpr ⟨before, ch, after, _, hunread, hrun, by simp [uriIndex]⟩
    exact (uriIndex_in_range ch).mp (hrange _ hindex)
  · intro hascii index hindex
    obtain ⟨before, ch, after, ⟨state, r'⟩, hunread, hrun, hlook⟩ := mem_looks_iff.mp hindex
    cases state with
    | swAfterSlashInUri =>
        simp only [uriIndex, List.mem_singleton] at hlook
        rw [hlook]
        have hends := (behindSlash_iff _).mp ⟨r', hrun⟩
        exact (uriIndex_in_range ch).mpr (hascii before ch after hunread hends)
    | _ => simp [uriIndex] at hlook

end RequestLine

/-! ## The header line -/

section HeaderLine

open Night.HeaderLine

variable {below : ℤ → Byte} {p : ℕ} {locals : Locals} {r : Request} {before : List Byte}

/-- A name from its second byte on: no colon and no end of the line. -/
def IsNameRest (before : List Byte) : Prop :=
  ∀ ch ∈ before, ch ≠ ascii ':' ∧ ¬ IsLineEnd ch

/-- The bytes that a call looks up, by the state it begins in: those of the name and
the one behind it. -/
def EndsInName (below : ℤ → Byte) : HeaderLine.State → List Byte → Prop
  | .swStart, [] => True
  | .swStart, first :: before =>
      ¬ IsLineEnd first ∧ StartsName below first ∧ IsNameRest before
  | .swName, before => IsNameRest before
  | _, _ => False

/-- The scan is in a state that looks its byte up. -/
def InName (below : ℤ → Byte) (p : ℕ) (state : HeaderLine.State) (before : List Byte) : Prop :=
  ∃ next, (next = HeaderLine.State.swStart ∨ next = .swName) ∧
    run (controlStep below) p state before = .more next

/-- The states behind the name. -/
def IsBehindName : HeaderLine.State → Prop
  | .swStart | .swName => False
  | _ => True

theorem isBehindName_step (p : ℕ) (state : HeaderLine.State) (ch : Byte)
    (next : HeaderLine.State) (hbehind : IsBehindName state)
    (hstep : controlStep below p state ch = .more next) : IsBehindName next := by
  cases state with
  | swStart | swName => exact absurd hbehind id
  | _ =>
      simp only [controlStep] at hstep
      try split_ifs at hstep
      all_goals
        simp only [Verdict.more.injEq] at hstep
        try subst hstep
        try trivial

theorem not_inName_of_isBehindName {state : HeaderLine.State}
    (hbehind : IsBehindName state) : ¬ InName below p state before := by
  rintro ⟨next, hnext, hrun⟩
  let Behind : ℕ → HeaderLine.State → Prop := fun _ state => IsBehindName state
  have hkept : Behind (p + before.length) next :=
    state_of_invariant isBehindName_step hbehind hrun
  rcases hnext with rfl | rfl <;> exact hkept

theorem inName_cons {state : HeaderLine.State} {ch : Byte} :
    InName below p state (ch :: before) ↔
      ∃ next, controlStep below p state ch = .more next ∧
        InName below (p + 1) next before := by
  unfold InName
  cases hstep : controlStep below p state ch with
  | more next => simp [run_cons_more hstep]
  | stop exit => simp [run_cons_stop hstep]

theorem inName_name : InName below p .swName before ↔ IsNameRest before := by
  constructor
  · intro hin
    induction before generalizing p with
    | nil => simp [IsNameRest]
    | cons ch before ih =>
        obtain ⟨next, hstep, hnext⟩ := inName_cons.mp hin
        simp only [controlStep] at hstep
        split_ifs at hstep with hcolon hcr hlf
        all_goals
          simp only [Verdict.more.injEq] at hstep
          subst hstep
        · exact absurd hnext (not_inName_of_isBehindName trivial)
        · exact absurd hnext (not_inName_of_isBehindName trivial)
        · exact List.forall_mem_cons.mpr ⟨⟨hcolon, not_or.mpr ⟨hcr, hlf⟩⟩, ih hnext⟩
  · intro hname
    exact ⟨.swName, Or.inr rfl, run_name hname⟩

theorem inName_start : InName below p .swStart before ↔ EndsInName below .swStart before := by
  cases before with
  | nil => exact ⟨fun _ => trivial, fun _ => ⟨.swStart, Or.inl rfl, rfl⟩⟩
  | cons first before =>
      rw [inName_cons]
      simp only [EndsInName, IsLineEnd, not_or]
      constructor
      · rintro ⟨next, hstep, hnext⟩
        simp only [controlStep] at hstep
        split_ifs at hstep with hcr hlf hstarts
        all_goals
          simp only [Verdict.more.injEq] at hstep
          subst hstep
        · exact absurd hnext (not_inName_of_isBehindName trivial)
        · exact ⟨⟨hcr, hlf⟩, hstarts, inName_name.mp hnext⟩
      · rintro ⟨⟨hcr, hlf⟩, hstarts, hname⟩
        refine ⟨.swName, ?_, inName_name.mpr hname⟩
        simp only [controlStep, if_neg hcr, if_neg hlf, if_pos hstarts]

theorem inName_iff (state : HeaderLine.State) :
    InName below p state before ↔ EndsInName below state before := by
  cases state with
  | swStart => exact inName_start
  | swName => exact inName_name
  | _ => exact iff_of_false (not_inName_of_isBehindName trivial) id

/-- Every byte that a call finds in a name, or right behind what it read of one, is
ASCII. -/
def AsciiName (below : ℤ → Byte) (r : Request) (b : Buf) : Prop :=
  ∀ before ch after, b.unread = before ++ ch :: after →
    EndsInName below (HeaderLine.State.ofNat r.state) before → ch.toNat < 128

theorem lowcaseAccesses_in_range_iff (below : ℤ → Byte) (locals : Locals) (r : Request)
    (b : Buf) :
    (∀ index ∈ lowcaseAccesses below locals r b, 0 ≤ index ∧ index < 256) ↔
      AsciiName below r b := by
  have hcontrol : ∀ before, run (controlStep below) b.pos (HeaderLine.State.ofNat r.state)
      before = (run (headerLineStep below) b.pos
        (HeaderLine.State.ofNat r.state, locals, r) before).map Prod.fst Exit.ending := by
    intro before
    exact run_map Prod.fst Exit.ending
      (fun position current ch => controlStep_eq_map below position current ch) b.pos
      (HeaderLine.State.ofNat r.state, locals, r) before
  constructor
  · intro hrange before ch after hunread hends
    obtain ⟨state, hstate, hrun⟩ : InName below b.pos (HeaderLine.State.ofNat r.state)
        before := (inName_iff _).mpr hends
    rw [hcontrol] at hrun
    cases hinner : run (headerLineStep below) b.pos
        (HeaderLine.State.ofNat r.state, locals, r) before with
    | stop exit rest =>
        rw [hinner] at hrun
        cases hrun
    | more inner =>
        obtain ⟨reached, locals', r'⟩ := inner
        rw [hinner] at hrun
        simp only [Outcome.map, Outcome.more.injEq] at hrun
        subst hrun
        by_cases hend : ch = CR ∨ ch = LF
        · rcases hend with rfl | rfl <;> decide
        · have hlook : ch.toInt ∈ lowcaseIndex (reached, locals', r') ch := by
            rcases hstate with rfl | rfl
            · simp [lowcaseIndex, hend]
            · simp [lowcaseIndex]
          have hindex : ch.toInt ∈ lowcaseAccesses below locals r b :=
            mem_looks_iff.mpr ⟨before, ch, after, _, hunread, hinner, hlook⟩
          exact (lowcaseIndex_in_range ch).mp (hrange _ hindex)
  · intro hascii index hindex
    obtain ⟨before, ch, after, ⟨state, locals', r'⟩, hunread, hrun, hlook⟩ :=
      mem_looks_iff.mp hindex
    have hstate : state = .swStart ∨ state = .swName := by
      cases state with
      | swStart => exact Or.inl rfl
      | swName => exact Or.inr rfl
      | _ => simp [lowcaseIndex] at hlook
    have hlooked : index = ch.toInt := by
      rcases hstate with rfl | rfl
      · simp only [lowcaseIndex] at hlook
        split_ifs at hlook
        · cases hlook
        · exact List.mem_singleton.mp hlook
      · exact List.mem_singleton.mp hlook
    have hin : InName below b.pos (HeaderLine.State.ofNat r.state) before := by
      refine ⟨state, hstate, ?_⟩
      rw [hcontrol, hrun]
      rfl
    rw [hlooked]
    exact (lowcaseIndex_in_range ch).mpr
      (hascii before ch after hunread ((inName_iff _).mp hin))

end HeaderLine

/-- Every table access of a call of either parser is in its table exactly when the
bytes it looks up are ASCII: the one behind the slash, and those of a header name. -/
theorem accesses_in_range_iff (belowUri : ℤ → BitVec 32) (belowLowcase : ℤ → Byte)
    (locals : HeaderLine.Locals) (r : Request) (b : Buf) :
    ((∀ index ∈ uriAccesses belowUri r b, 0 ≤ index ∧ index < 8) ↔ AsciiBehindSlash r b) ∧
      ((∀ index ∈ lowcaseAccesses belowLowcase locals r b, 0 ≤ index ∧ index < 256) ↔
        AsciiName belowLowcase r b) :=
  ⟨uriAccesses_in_range_iff belowUri r b, lowcaseAccesses_in_range_iff belowLowcase locals r b⟩

/-- `GET /` and then the byte `0xff`: the index is `-1`. -/
theorem not_in_range_highByte :
    ¬ ∀ index ∈ uriAccesses (fun _ => 0) freshRequest
      ⟨[ascii 'G', ascii 'E', ascii 'T', SP, ascii '/', 0xff#8], 0⟩,
      0 ≤ index ∧ index < 8 := by
  decide

end Night.TableAccess
