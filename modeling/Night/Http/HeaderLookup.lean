import Night.Core.HashLookup
import Night.Http.HeaderCalls

/-!
# From a header name to its handler

The parser hashes and lowers a name byte by byte as it reads it; the table of the known
headers was hashed by `night_hash_key_lc` and lowered by `night_hash_init`.  Names of 32
bytes and more are lowered a second time by `night_strlow`, since the parser keeps the
last bytes only.
-/

namespace Night.HeaderLine

open Night.Bytes
open Night.Hash
open Night.HttpRequest
open Night.Scanner

/-! ## The table -/

inductive HeaderHandler where
  | processHost
  | processConnection
  | processUserAgent
  | processHeaderLine
  deriving DecidableEq, Repr

/-- The field of `night_http_headers_in_t` at the offset of an entry. -/
inductive HeaderOffset where
  | host
  | connection
  | userAgent
  | accept
  | acceptEncoding
  | acceptLanguage
  deriving DecidableEq, Repr

/-- `night_http_header_t`. -/
structure HeaderIn where
  name : List Byte
  offset : HeaderOffset
  handler : HeaderHandler
  deriving DecidableEq, Repr

def nightString (text : String) : List Byte := text.toList.map ascii

/-- The entries in front of the one without a name. -/
def nightHttpHeadersIn : List HeaderIn :=
  [⟨nightString "Host", .host, .processHost⟩,
    ⟨nightString "Connection", .connection, .processConnection⟩,
    ⟨nightString "User-Agent", .userAgent, .processUserAgent⟩,
    ⟨nightString "Accept", .accept, .processHeaderLine⟩,
    ⟨nightString "Accept-Encoding", .acceptEncoding, .processHeaderLine⟩,
    ⟨nightString "Accept-Language", .acceptLanguage, .processHeaderLine⟩]

/-- The pointer to the entry at `index`: entries are numbered from one, `NULL` is zero. -/
def headerPointer (index : ℕ) : Pointer := UInt64.ofNat (index + 1)

def headerAt (pointer : Pointer) : Option HeaderIn :=
  if pointer = 0 then none else nightHttpHeadersIn[pointer.toNat - 1]?

/-- The array that `night_http_init_headers_in_hash` fills. -/
def headersInKeys : List HashKey :=
  nightHttpHeadersIn.zipIdx.map fun header =>
    ⟨some header.1.name, nightHashKeyLc header.1.name, headerPointer header.2⟩

def nightHttpInitHeadersInHash (process : Process) : Option Built :=
  nightHashInit process ⟨true, process.pageSize, 64⟩ headersInKeys

/-! ## The caller of the parser -/

/-- `night_table_elt_t`. -/
structure TableElt where
  hash : BitVec 64
  key : List Byte
  value : List Byte
  lowcaseKey : List Byte
  deriving DecidableEq, Repr

/-- The element that `night_http_process_request_headers` makes of a header line. -/
def tableElt (r : Request) (b : Buf) : TableElt :=
  let key := slice b.data r.headerNameStart r.headerNameEnd
  { hash := r.headerHash
    key := key
    value := slice b.data r.headerStart r.headerEnd
    lowcaseKey :=
      if key.length = r.lowcaseIndex then r.lowcaseHeader.take key.length
      else key.map nightTolower }

/-- The entry whose handler is called, if any. -/
def findHeader (table : NightHash) (h : TableElt) : Option (Option HeaderIn) :=
  (nightHashFind table (UInt64.ofBitVec h.hash) h.lowcaseKey).map headerAt

/-- The entry whose handler is called for a header line that was accepted, if any. -/
def handledBy (table : NightHash) (r : Request) (b : Buf) : Option (Option HeaderIn) :=
  if r.invalidHeader then some none else findHeader table (tableElt r b)

/-! ## Names -/

/-- Letters, digits, the hyphen and the underscore. -/
def IsNameByte (ch : Byte) : Prop :=
  ('a'.toNat ≤ ch.toNat ∧ ch.toNat ≤ 'z'.toNat) ∨ ('A'.toNat ≤ ch.toNat ∧ ch.toNat ≤ 'Z'.toNat) ∨
    ('0'.toNat ≤ ch.toNat ∧ ch.toNat ≤ '9'.toNat) ∨ ch = ascii '-' ∨ ch = ascii '_'

instance : DecidablePred IsNameByte := fun _ =>
  inferInstanceAs (Decidable (_ ∨ _ ∨ _ ∨ _ ∨ _))

theorem lowcaseTable_nameByte (ch : Byte) (hch : IsNameByte ch) :
    0 ≤ ch.toInt ∧
      (lowcaseTable.getD ch.toInt.toNat 0 = nightTolower ch ∧ nightTolower ch ≠ 0 ∨
        lowcaseTable.getD ch.toInt.toNat 0 = 0 ∧ ch = ascii '_') := by
  revert ch
  decide +kernel

/-- The table lowers the bytes of a name as `night_tolower` does, except for the
underscore, which it does not know and which has no case. -/
theorem lowcase_nameByte (below : ℤ → Byte) {ch : Byte} (hch : IsNameByte ch) :
    (lowcase below ch.toInt = nightTolower ch ∧ nightTolower ch ≠ 0) ∨
      (lowcase below ch.toInt = 0 ∧ ch = ascii '_') := by
  obtain ⟨hindex, htable⟩ := lowcaseTable_nameByte ch hch
  rw [lowcase, if_pos hindex]
  exact htable

theorem nameByte_ne {ch : Byte} (hch : IsNameByte ch) : ch ≠ CR ∧ ch ≠ LF := by
  revert ch
  decide +kernel

theorem nightTolower_underscore : nightTolower (ascii '_') = ascii '_' := by
  decide

section Steps

variable {below : ℤ → Byte} {p : ℕ} {locals : Locals} {r : Request} {ch : Byte}

theorem step_nameByte (hch : IsNameByte ch) :
    headerLineStep below p (.swName, locals, r) ch =
      .more (.swName, extendName (nightTolower ch) locals r) := by
  rcases lowcase_nameByte below hch with ⟨hlow, hne⟩ | ⟨hlow, rfl⟩
  · simp only [headerLineStep, hlow, if_pos hne]
  · simp only [headerLineStep, hlow, ne_eq, not_true_eq_false, if_false, if_true,
      nightTolower_underscore]

theorem step_firstByte (hch : IsNameByte ch) :
    headerLineStep below p (.swStart, locals, r) ch =
      .more (.swName, startName (nightTolower ch)
        { r with headerNameStart := p, invalidHeader := false }) := by
  obtain ⟨hcr, hlf⟩ := nameByte_ne hch
  rcases lowcase_nameByte below hch with ⟨hlow, hne⟩ | ⟨hlow, rfl⟩
  · simp only [headerLineStep, if_neg hcr, if_neg hlf, hlow, if_pos hne]
  · simp only [headerLineStep, if_neg hcr, if_neg hlf, hlow, ne_eq, not_true_eq_false, if_false,
      if_true, nightTolower_underscore]

/-- What reading `more` does to `lowcase_header`, from index `i` on. -/
def storeLower : ℕ → List Byte → List Byte → List Byte
  | _, [], lowcaseHeader => lowcaseHeader
  | i, ch :: more, lowcaseHeader =>
      storeLower ((i + 1) % nightHttpLcHeaderLen) more (lowcaseHeader.set i (nightTolower ch))

/-- `night_hash` over the lowered bytes. -/
def hashLower (hash : BitVec 64) (more : List Byte) : BitVec 64 :=
  more.foldl (fun key ch => nightHash key (nightTolower ch)) hash

theorem run_nameBytes {more : List Byte} (hmore : ∀ ch ∈ more, IsNameByte ch)
    (hi : locals.i < nightHttpLcHeaderLen) :
    run (headerLineStep below) p (.swName, locals, r) more =
      .more (.swName,
        ⟨hashLower locals.hash more, (locals.i + more.length) % nightHttpLcHeaderLen⟩,
        { r with lowcaseHeader := storeLower locals.i more r.lowcaseHeader }) := by
  induction more generalizing p locals r with
  | nil =>
      rw [run_nil, List.length_nil, Nat.add_zero, Nat.mod_eq_of_lt hi]
      rfl
  | cons ch more ih =>
      have hnext : (locals.i + 1) % nightHttpLcHeaderLen < nightHttpLcHeaderLen :=
        Nat.mod_lt _ (by decide)
      rw [run_cons_more (step_nameByte (hmore ch List.mem_cons_self)), extendName,
        ih (fun ch hch => hmore ch (List.mem_cons_of_mem _ hch)) hnext]
      simp only [Nat.mod_add_mod, List.length_cons, storeLower, hashLower, List.foldl_cons,
        Nat.add_comm more.length 1, Nat.add_assoc]

/-- Short names are in `lowcase_header` from its start. -/
theorem storeLower_take {more lowcaseHeader : List Byte} {i : ℕ}
    (hlength : lowcaseHeader.length = nightHttpLcHeaderLen)
    (hshort : i + more.length < nightHttpLcHeaderLen) :
    (storeLower i more lowcaseHeader).take (i + more.length) =
      lowcaseHeader.take i ++ more.map nightTolower := by
  induction more generalizing i lowcaseHeader with
  | nil => simp [storeLower]
  | cons ch more ih =>
      rw [List.length_cons] at hshort ⊢
      have hnext : (i + 1) % nightHttpLcHeaderLen = i + 1 := Nat.mod_eq_of_lt (by omega)
      have hset : (lowcaseHeader.set i (nightTolower ch)).take (i + 1) =
          lowcaseHeader.take i ++ [nightTolower ch] := by
        rw [List.take_succ_eq_append_getElem (by rw [List.length_set]; omega),
          List.getElem_set_self, List.take_set_of_le (Nat.le_refl i)]
      have hrest := @ih (lowcaseHeader.set i (nightTolower ch)) (i + 1)
        (by rw [List.length_set, hlength]) (by omega)
      rw [storeLower, hnext, show i + (more.length + 1) = i + 1 + more.length by omega, hrest,
        hset, List.map_cons, List.append_assoc, List.singleton_append]

theorem run_lowered (below : ℤ → Byte) (p : ℕ) (locals : Locals) (r : Request)
    {name : List Byte} (hname : ∀ ch ∈ name, IsNameByte ch) (hne : name ≠ []) :
    run (headerLineStep below) p (.swStart, locals, r) name =
      .more (.swName, ⟨hashLower 0 name, name.length % nightHttpLcHeaderLen⟩,
        { r with
          headerNameStart := p
          invalidHeader := false
          lowcaseHeader := storeLower 0 name r.lowcaseHeader }) := by
  obtain ⟨first, more, rfl⟩ := List.exists_cons_of_ne_nil hne
  rw [run_cons_more (step_firstByte (hname first List.mem_cons_self)), startName,
    run_nameBytes (fun ch hch => hname ch (List.mem_cons_of_mem _ hch))
      (show 1 < nightHttpLcHeaderLen by decide)]
  simp only [List.length_cons, Nat.add_comm more.length 1]
  rfl

/-! ## The rest of the line -/

/-- The states behind the name. -/
def valueStates : List State :=
  [.swSpaceBeforeValue, .swValue, .swSpaceAfterValue, .swAlmostDone]

/-- What is known of the request once the name has been read. -/
structure NameKept (start stop : ℕ) (lowcaseHeader : List Byte) (r : Request) : Prop where
  start : r.headerNameStart = start
  stop : r.headerNameEnd = stop
  lowcase : r.lowcaseHeader = lowcaseHeader
  valid : r.invalidHeader = false

def NameRead (start stop : ℕ) (name : Locals) (lowcaseHeader : List Byte) :
    State × Locals × Request → Prop
  | (state, locals, r) =>
      state ∈ valueStates ∧ locals = name ∧ NameKept start stop lowcaseHeader r

def Exit.NameRead (start stop : ℕ) (name : Locals) (lowcaseHeader : List Byte) : Exit → Prop
  | .done _ locals r => locals = name ∧ NameKept start stop lowcaseHeader r
  | .headerDone _ _ => False
  | .invalid _ => True

variable {start stop : ℕ} {name : Locals} {lowcaseHeader : List Byte}
variable {current next : State × Locals × Request} {ended : Exit}

theorem nameRead_more (hread : NameRead start stop name lowcaseHeader current)
    (hstep : headerLineStep below p current ch = .more next) :
    NameRead start stop name lowcaseHeader next := by
  obtain ⟨state, locals, r⟩ := current
  obtain ⟨hstate, rfl, hkept⟩ := hread
  cases state with
  | swStart | swName | swHeaderAlmostDone | other => simp [valueStates] at hstate
  | swSpaceBeforeValue | swValue | swSpaceAfterValue | swAlmostDone =>
      simp only [headerLineStep] at hstep
      split_ifs at hstep
      all_goals
        simp only [Verdict.more.injEq] at hstep
        subst hstep
        exact ⟨by decide, rfl, hkept.start, hkept.stop, hkept.lowcase, hkept.valid⟩

theorem nameRead_stop (hread : NameRead start stop name lowcaseHeader current)
    (hstep : headerLineStep below p current ch = .stop ended) :
    ended.NameRead start stop name lowcaseHeader := by
  obtain ⟨state, locals, r⟩ := current
  obtain ⟨hstate, rfl, hkept⟩ := hread
  cases state with
  | swStart | swName | swHeaderAlmostDone | other => simp [valueStates] at hstate
  | swSpaceBeforeValue | swValue | swSpaceAfterValue | swAlmostDone =>
      simp only [headerLineStep] at hstep
      split_ifs at hstep
      all_goals
        simp only [Verdict.stop.injEq] at hstep
        subst hstep
        first
          | exact trivial
          | exact ⟨rfl, hkept.start, hkept.stop, hkept.lowcase, hkept.valid⟩

theorem nameRead_of_more {input : List Byte}
    (hread : NameRead start stop name lowcaseHeader current)
    (hrun : run (headerLineStep below) p current input = .more next) :
    NameRead start stop name lowcaseHeader next := by
  have hmore : ∀ position state symbol next,
      NameRead start stop name lowcaseHeader state →
      headerLineStep below position state symbol = .more next →
      NameRead start stop name lowcaseHeader next :=
    fun _ _ _ _ hread hstep => nameRead_more hread hstep
  exact state_of_invariant hmore hread hrun

theorem nameRead_of_stop {input rest : List Byte}
    (hread : NameRead start stop name lowcaseHeader current)
    (hrun : run (headerLineStep below) p current input = .stop ended rest) :
    ended.NameRead start stop name lowcaseHeader := by
  have hmore : ∀ position state symbol next,
      NameRead start stop name lowcaseHeader state →
      headerLineStep below position state symbol = .more next →
      NameRead start stop name lowcaseHeader next :=
    fun _ _ _ _ hread hstep => nameRead_more hread hstep
  have hstop : ∀ position state symbol ended,
      NameRead start stop name lowcaseHeader state →
      headerLineStep below position state symbol = .stop ended →
      ended.NameRead start stop name lowcaseHeader :=
    fun _ _ _ _ hread hstep => nameRead_stop hread hstep
  obtain ⟨-, -, hended⟩ := result_of_invariant hmore hstop hread hrun
  exact hended

/-- The byte behind the name: the colon, or a line end when there is no value. -/
theorem run_delimiter (below : ℤ → Byte) (p : ℕ) (locals : Locals) (r : Request)
    {delimiter : Byte} (hdelimiter : delimiter = ascii ':' ∨ IsLineEnd delimiter)
    (hstart : r.headerNameStart = start) (hvalid : r.invalidHeader = false) :
    (∃ next, headerLineStep below p (.swName, locals, r) delimiter = .more next ∧
      NameRead start p locals r.lowcaseHeader next) ∨
    ∃ ended, headerLineStep below p (.swName, locals, r) delimiter = .stop ended ∧
      ended.NameRead start p locals r.lowcaseHeader := by
  have hcolon : lowcase below (ascii ':').toInt = 0 := by
    rw [lowcase, if_pos (by decide)]
    decide
  have hcr : lowcase below CR.toInt = 0 := by
    rw [lowcase, if_pos (by decide)]
    decide
  have hlf : lowcase below LF.toInt = 0 := by
    rw [lowcase, if_pos (by decide)]
    decide
  rcases hdelimiter with rfl | rfl | rfl
  · refine .inl ⟨(.swSpaceBeforeValue, locals, { r with headerNameEnd := p }), ?_, ?_⟩
    · simp [headerLineStep, hcolon, show ¬ ascii ':' = ascii '_' by decide]
    · exact ⟨by decide, rfl, hstart, rfl, rfl, hvalid⟩
  · refine .inl ⟨(.swAlmostDone, locals,
      { r with headerNameEnd := p, headerStart := p, headerEnd := p }), ?_, ?_⟩
    · simp [headerLineStep, hcr, show ¬ CR = ascii '_' by decide, show ¬ CR = ascii ':' by decide]
    · exact ⟨by decide, rfl, hstart, rfl, rfl, hvalid⟩
  · refine .inr ⟨.done p locals
      { r with headerNameEnd := p, headerStart := p, headerEnd := p }, ?_, ?_⟩
    · simp [headerLineStep, hlf, show ¬ LF = ascii '_' by decide, show ¬ LF = ascii ':' by decide,
        show ¬ LF = CR by decide]
    · exact ⟨rfl, hstart, rfl, rfl, hvalid⟩

end Steps

/-! ## The lookup -/

section Lookup

variable {below : ℤ → Byte} {locals : Locals} {r r' : Request} {b b' : Buf}
variable {name rest : List Byte} {delimiter : Byte}

/-- What the caller finds in the request after the name. -/
structure Parsed (start stop : ℕ) (name : Locals) (lowcaseHeader data : List Byte)
    (r : Request) (b : Buf) : Prop where
  kept : NameKept start stop lowcaseHeader r
  hash : r.headerHash = name.hash
  index : r.lowcaseIndex = name.i
  data : b.data = data

theorem parsed_of_finish {start stop p : ℕ} {lowcaseHeader : List Byte}
    (hkept : NameKept start stop lowcaseHeader r)
    (hfinish : finishHeaderLine p locals r b = (.ok, r', b')) :
    Parsed start stop locals lowcaseHeader b.data r' b' := by
  simp only [finishHeaderLine, Prod.mk.injEq] at hfinish
  obtain ⟨-, rfl, rfl⟩ := hfinish
  exact ⟨⟨hkept.start, hkept.stop, hkept.lowcase, hkept.valid⟩, rfl, rfl, rfl⟩

/-- A call that accepts the line has hashed and lowered the bytes of the name. -/
theorem parsed_of_ok (hname : ∀ ch ∈ name, IsNameByte ch) (hne : name ≠ [])
    (hdelimiter : delimiter = ascii ':' ∨ IsLineEnd delimiter)
    (hstate : r.state = swStartValue) (hunread : b.unread = name ++ delimiter :: rest)
    (hparse : nightHttpParseHeaderLine below locals r b = (.ok, r', b')) :
    Parsed b.pos (b.pos + name.length)
      ⟨hashLower 0 name, name.length % nightHttpLcHeaderLen⟩
      (storeLower 0 name r.lowcaseHeader) b.data r' b' := by
  rw [nightHttpParseHeaderLine, hstate, hunread, swStartValue, State.ofNat,
    run_append_of_more (run_lowered below b.pos locals r hname hne)] at hparse
  rcases run_delimiter below (b.pos + name.length)
      ⟨hashLower 0 name, name.length % nightHttpLcHeaderLen⟩
      { r with
        headerNameStart := b.pos
        invalidHeader := false
        lowcaseHeader := storeLower 0 name r.lowcaseHeader } hdelimiter rfl rfl with
    ⟨next, hstep, hread⟩ | ⟨ended, hstep, hread⟩
  · rw [run_cons_more hstep] at hparse
    cases hrest : run (headerLineStep below) (b.pos + name.length + 1) next rest with
    | more final =>
        obtain ⟨state, locals', r''⟩ := final
        obtain ⟨-, rfl, hkept⟩ := nameRead_of_more hread hrest
        simp only [hrest] at hparse
        exact parsed_of_finish hkept hparse
    | stop ended unread =>
        have hended := nameRead_of_stop hread hrest
        simp only [hrest] at hparse
        cases ended with
        | done q locals' r'' =>
            obtain ⟨rfl, hkept⟩ := hended
            exact parsed_of_finish hkept hparse
        | headerDone q r'' => exact absurd hended id
        | invalid r'' => cases hparse
  · rw [run_cons_stop hstep] at hparse
    cases ended with
    | done q locals' r'' =>
        obtain ⟨rfl, hkept⟩ := hread
        exact parsed_of_finish hkept hparse
    | headerDone q r'' => exact absurd hread id
    | invalid r'' => cases hparse

theorem ofBitVec_hashLower (hash : BitVec 64) (name : List Byte) :
    UInt64.ofBitVec (hashLower hash name) =
      name.foldl (fun key ch => key * 31 + UInt64.ofBitVec ((nightTolower ch).signExtend 64))
        (UInt64.ofBitVec hash) := by
  induction name generalizing hash with
  | nil => rfl
  | cons ch name ih => exact ih (nightHash hash (nightTolower ch))

theorem Parsed.tableElt_eq
    (hparsed : Parsed b.pos (b.pos + name.length)
      ⟨hashLower 0 name, name.length % nightHttpLcHeaderLen⟩
      (storeLower 0 name r.lowcaseHeader) b.data r' b')
    (hlowcase : r.lowcaseHeader.length = nightHttpLcHeaderLen)
    (hunread : b.unread = name ++ delimiter :: rest) :
    (tableElt r' b').key = name ∧ (tableElt r' b').lowcaseKey = name.map nightTolower := by
  have hkey : (tableElt r' b').key = name := by
    show slice b'.data r'.headerNameStart r'.headerNameEnd = name
    rw [hparsed.kept.start, hparsed.kept.stop, hparsed.data, slice, ← List.take_drop]
    show b.unread.take name.length = name
    rw [hunread, List.take_left]
  refine ⟨hkey, ?_⟩
  have hlow : (tableElt r' b').lowcaseKey =
      if name.length = r'.lowcaseIndex then r'.lowcaseHeader.take name.length
      else name.map nightTolower := by
    rw [← hkey]
    rfl
  rw [hlow, hparsed.index, hparsed.kept.lowcase]
  split
  · -- the parser's copy is whole, since the index has not wrapped
    rename_i hindex
    have hshort : name.length < nightHttpLcHeaderLen :=
      hindex ▸ Nat.mod_lt _ (by decide)
    have htake := @storeLower_take name _ 0 hlowcase (by omega)
    simpa using htake
  · rfl

/-- The names of the known headers as they are stored. -/
def headerNames : Names nightHashKeyLc where
  list := headersInKeys.map HashKey.lowered
  distinct := by decide +kernel
  lower := by decide +kernel
  hashed := by decide +kernel
  nonNull := by decide +kernel

theorem headerAt_value {n : HashKey} (hn : n ∈ headerNames.list) {lowered : List Byte}
    (hdata : n.data = some lowered) :
    headerAt n.value =
      nightHttpHeadersIn.find? fun e => e.name.map nightTolower = lowered := by
  have hall : ∀ n ∈ headerNames.list, ∀ data ∈ n.data, headerAt n.value =
      nightHttpHeadersIn.find? fun e => e.name.map nightTolower = data := by
    decide +kernel
  exact hall n hn lowered hdata

theorem exists_stored {e : HeaderIn} (he : e ∈ nightHttpHeadersIn) :
    ∃ n ∈ headerNames.list, n.data = some (e.name.map nightTolower) := by
  have hall : ∀ e ∈ nightHttpHeadersIn, ∃ n ∈ headerNames.list,
      n.data = some (e.name.map nightTolower) := by
    decide +kernel
  exact hall e he

/-- The known headers fit the buckets of any hash. -/
theorem headerNames_fits (limit size : ℕ) :
    Fits limit size headerNames.list fun _ => pointerSize :=
  fits_of_used (by decide +kernel) limit size

theorem nightHashInit_headerNames {process : Process} {table : NightHash}
    (hinit : nightHttpInitHeadersInHash process = some (.ok table)) :
    nightHashInit process ⟨true, process.pageSize, 64⟩ headerNames.list = some (.ok table) := by
  rw [← hinit, nightHttpInitHeadersInHash, headerNames, nightHashInit_lowered]

theorem findHeader_lowered {process : Process} {table : NightHash}
    (hinit : nightHttpInitHeadersInHash process = some (.ok table)) (lowered : List Byte) :
    (nightHashFind table (nightHashKeyLc lowered) lowered).map headerAt =
      some (nightHttpHeadersIn.find? fun e => e.name.map nightTolower = lowered) := by
  obtain ⟨hstored, habsent⟩ := nightHashFind_built (headerNames_fits process.pageSize)
    (nightHashInit_headerNames hinit)
  by_cases hknown : ∃ n ∈ headerNames.list, n.data = some lowered
  · obtain ⟨n, hn, hdata⟩ := hknown
    rw [hstored n hn lowered hdata, Option.map_some, headerAt_value hn hdata]
  · have hnot : ∀ n ∈ headerNames.list, n.data ≠ some lowered :=
      fun n hn hdata => hknown ⟨n, hn, hdata⟩
    have hnone : nightHttpHeadersIn.find? (fun e => e.name.map nightTolower = lowered) = none := by
      apply List.find?_eq_none.mpr
      intro e he heq
      obtain ⟨n, hn, hdata⟩ := exists_stored he
      exact hnot n hn (by rw [hdata, of_decide_eq_true heq])
    rw [habsent _ lowered hnot, hnone]
    rfl

/-- A header line is handled by the entry that has its name, in whatever case. -/
theorem handledBy_eq {process : Process} {table : NightHash}
    (hinit : nightHttpInitHeadersInHash process = some (.ok table))
    (hname : ∀ ch ∈ name, IsNameByte ch) (hne : name ≠ [])
    (hdelimiter : delimiter = ascii ':' ∨ IsLineEnd delimiter)
    (hstate : r.state = swStartValue) (hlowcase : r.lowcaseHeader.length = nightHttpLcHeaderLen)
    (hunread : b.unread = name ++ delimiter :: rest)
    (hparse : nightHttpParseHeaderLine below locals r b = (.ok, r', b')) :
    UInt64.ofBitVec r'.headerHash = nightHashKeyLc name ∧
      (tableElt r' b').lowcaseKey = name.map nightTolower ∧
      handledBy table r' b' = some (nightHttpHeadersIn.find? fun e =>
        e.name.map nightTolower = name.map nightTolower) := by
  have hparsed := parsed_of_ok hname hne hdelimiter hstate hunread hparse
  have hhash : UInt64.ofBitVec r'.headerHash = nightHashKeyLc name := by
    rw [hparsed.hash]
    exact ofBitVec_hashLower 0 name
  obtain ⟨-, hlower⟩ := hparsed.tableElt_eq hlowcase hunread
  refine ⟨hhash, hlower, ?_⟩
  have hfound := findHeader_lowered hinit (name.map nightTolower)
  rw [nightHashKeyLc_lowered, ← hhash, ← hlower] at hfound
  rw [handledBy, hparsed.kept.valid, ← hlower]
  exact hfound

end Lookup

set_option maxRecDepth 10000 in
/-- `hOsT: x` is given to the entry of `Host`. -/
theorem handledBy_host :
    ∃ table r' b', nightHttpInitHeadersInHash ⟨4096, fun _ => true⟩ = some (.ok table) ∧
      nightHttpParseHeaderLine (fun _ => 0) ⟨0, 0⟩ (startLine freshRequest)
        ⟨nightString "hOsT: x\n", 0⟩ = (.ok, r', b') ∧
      handledBy table r' b' = some (some ⟨nightString "Host", .host, .processHost⟩) := by
  obtain ⟨table, hinit⟩ : ∃ table, nightHttpInitHeadersInHash ⟨4096, fun _ => true⟩ =
      some (.ok table) := ⟨_, rfl⟩
  obtain ⟨r', b', hparse⟩ : ∃ r' b', nightHttpParseHeaderLine (fun _ => 0) ⟨0, 0⟩
      (startLine freshRequest) ⟨nightString "hOsT: x\n", 0⟩ = (.ok, r', b') :=
    ⟨_, _, rfl⟩
  have hline : (⟨nightString "hOsT: x\n", 0⟩ : Buf).unread =
      nightString "hOsT" ++ ascii ':' :: nightString " x\n" := rfl
  obtain ⟨-, -, hhandled⟩ := handledBy_eq hinit (by decide) (by decide) (.inl rfl) rfl rfl hline
    hparse
  exact ⟨table, r', b', hinit, hparse, hhandled⟩

end Night.HeaderLine
