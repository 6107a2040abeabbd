import Mathlib.Data.List.DropRight
import Night.Core.HashLookup

/-!
# `night_http_set_exten` and `night_http_set_content_type`

The extension is found from the end of the URI, the type by its lowered text in the hash
of the types.
-/

namespace Night.ContentType

open Night.Bytes
open Night.Hash

/-- The fields of the request and of its `headers_out` that are read or set. -/
structure Request where
  uri : List Byte
  exten : List Byte
  contentType : List Byte
  contentTypeLen : ℕ
  deriving DecidableEq, Repr

/-- The loop from the index `i` down to two. -/
def extenLoop (uri : List Byte) : ℕ → List Byte
  | 0 => []
  | 1 => []
  | i + 2 =>
      if uri[i + 2]? = some (ascii '.') ∧ uri[i + 1]? ≠ some (ascii '/') then uri.drop (i + 3)
      else if uri[i + 2]? = some (ascii '/') then []
      else extenLoop uri (i + 1)

/-- `night_http_set_exten`; without a URI the loop starts at the largest `size_t`, which is
outside of every string. -/
def nightHttpSetExten (r : Request) : Option Request :=
  match r.uri.length with
  | 0 => none
  | last + 1 => some { r with exten := extenLoop r.uri last }

/-- The test `c >= 'A' && c <= 'Z'` on a `char`. -/
def isUpper (ch : Byte) : Bool :=
  ('A'.toNat : ℤ) ≤ ch.toInt && ch.toInt ≤ 'Z'.toNat

/-- The macro `night_hash`. -/
def nightHash (key : UInt64) (ch : Byte) : UInt64 :=
  key * 31 + UInt64.ofBitVec (ch.signExtend 64)

/-- `night_hash_strlow`: the lowered bytes and their hash. -/
def nightHashStrlow (src : List Byte) : List Byte × UInt64 :=
  src.foldl (fun copied ch =>
    (copied.1 ++ [nightTolower ch], nightHash copied.2 (nightTolower ch))) ([], 0)

/-- The loop over the extension: the text that is looked up and its hash.  At the first
upper case letter all of `exten` is copied, if the pool has memory. -/
def hashExten (exten : List Byte) (served : Bool) :
    UInt64 → List Byte → Option (List Byte × UInt64)
  | hash, [] => some (exten, hash)
  | hash, ch :: rest =>
      if isUpper ch then if served then some (nightHashStrlow exten) else none
      else hashExten exten served (nightHash hash ch) rest

/-- A types table: the names and the hash that was built of them, and the string that each
of their values points to. -/
structure Types where
  process : Process
  hinit : HashInit
  names : Names nightHashKeyLc
  table : NightHash
  built : nightHashInit process hinit names.list = some (.ok table)
  page : process.pageSize < 2 ^ 16
  strAt : Pointer → Option (List Byte)
  stored : ∀ name ∈ names.list, (strAt name.value).isSome

def textPlain : List Byte :=
  ['t', 'e', 'x', 't', '/', 'p', 'l', 'a', 'i', 'n'].map ascii

/-- `clcf->default_type`, whose length is the `sizeof` of the literal. -/
def defaultType : List Byte := textPlain ++ [0]

/-- The codes that are returned. -/
inductive Code where
  | ok
  | error
  deriving DecidableEq, Repr

/-- A return, or the end of the process at a read through the null pointer. -/
inductive Outcome where
  | returned (code : Code) (r : Request)
  | segfault
  deriving DecidableEq, Repr

/-- `night_http_set_content_type`; there is no result when the search leaves the hash or
the type that it finds is no string. -/
def nightHttpSetContentType (types : Types) (r : Request) (served : Bool) : Option Outcome :=
  if r.contentType.length ≠ 0 then some (.returned .ok r)
  else if r.exten.length ≠ 0 then
    match hashExten r.exten served 0 r.exten with
    | none => some (.returned .error r)
    | some (exten, hash) => do
        let value ← nightHashFind types.table hash exten
        -- the trace reads `type->data` before the test of `type`, which never fails then
        if value = 0 then some .segfault
        else do
          let type ← types.strAt value
          some (.returned .ok { r with
            exten := exten
            contentType := type
            contentTypeLen := type.length })
  else
    some (.returned .ok
      { r with contentType := defaultType, contentTypeLen := defaultType.length })

/-! ## The extension -/

/-- The path segment behind the last slash. -/
def lastSegment (uri : List Byte) : List Byte :=
  uri.rtakeWhile fun ch => ch ≠ ascii '/'

/-- The text behind the last dot of the last segment, unless there is none or it is the
first character of the segment. -/
def extenOf (uri : List Byte) : List Byte :=
  match lastSegment uri with
  | [] => []
  | _ :: rest =>
      if ascii '.' ∈ rest then rest.rtakeWhile fun ch => ch ≠ ascii '.' else []

/-- The only dot is the second character, behind one that is no slash: the loop ends before
it gets there. -/
def Overlooked (uri : List Byte) : Prop :=
  ∃ first rest, uri = first :: ascii '.' :: rest ∧ first ≠ ascii '/' ∧ rest ≠ [] ∧
    ascii '.' ∉ rest ∧ ascii '/' ∉ rest

theorem extenOf_cons {uri rest : List Byte} {first : Byte}
    (hsegment : lastSegment uri = first :: rest) :
    extenOf uri =
      if ascii '.' ∈ rest then rest.rtakeWhile fun ch => ch ≠ ascii '.' else [] := by
  rw [extenOf, hsegment]

theorem dot_ne_slash : ascii '.' ≠ ascii '/' := by decide

/-- What is behind the last occurrence of a byte. -/
theorem exists_behind {delimiter : Byte} {bytes : List Byte} (hmem : delimiter ∈ bytes) :
    ∃ front, bytes = front ++ delimiter :: bytes.rtakeWhile fun ch => ch ≠ delimiter := by
  have hnonempty : bytes.rdropWhile (fun ch => ch ≠ delimiter) ≠ [] := by
    intro hnil
    have hall := List.rdropWhile_eq_nil_iff.mp hnil delimiter hmem
    exact of_decide_eq_true hall rfl
  have hlast : (bytes.rdropWhile fun ch => ch ≠ delimiter).getLast hnonempty = delimiter := by
    have hnot := List.rdropWhile_last_not (fun ch => decide (ch ≠ delimiter)) bytes hnonempty
    rw [decide_eq_true_eq, not_not] at hnot
    exact hnot
  refine ⟨(bytes.rdropWhile fun ch => ch ≠ delimiter).dropLast, ?_⟩
  have hcut := List.dropLast_append_getLast hnonempty
  rw [hlast] at hcut
  rw [List.append_cons, hcut, List.rdropWhile_append_rtakeWhile]

theorem not_mem_behind (delimiter : Byte) (bytes : List Byte) :
    delimiter ∉ bytes.rtakeWhile fun ch => ch ≠ delimiter := by
  intro hmem
  have himp := List.mem_rtakeWhile_imp hmem
  exact of_decide_eq_true himp rfl

/-! ### One step of the loop -/

theorem getElem?_middle (front : List Byte) (ch : Byte) (rest : List Byte) :
    (front ++ ch :: rest)[front.length]? = some ch := by
  rw [List.getElem?_append_right (Nat.le_refl _), Nat.sub_self, List.getElem?_cons_zero]

theorem extenLoop_low (uri : List Byte) {i : ℕ} (hi : i < 2) : extenLoop uri i = [] := by
  match i, hi with
  | 0, _ => rfl
  | 1, _ => rfl

/-- The index that the loop looks at and the one before it. -/
theorem extenLoop_at {front rest : List Byte} {ch : Byte} (hlow : 2 ≤ front.length) :
    extenLoop (front ++ ch :: rest) front.length =
      if ch = ascii '.' ∧ front.getLast? ≠ some (ascii '/') then rest
      else if ch = ascii '/' then []
      else extenLoop (front ++ ch :: rest) (front.length - 1) := by
  obtain ⟨i, hi⟩ : ∃ i, front.length = i + 2 := ⟨front.length - 2, by omega⟩
  have hch : (front ++ ch :: rest)[i + 2]? = some ch := hi ▸ getElem?_middle front ch rest
  have hprevious : (front ++ ch :: rest)[i + 1]? = front.getLast? := by
    rw [List.getElem?_append_left (by omega), List.getLast?_eq_getElem?, hi]
    rfl
  have hrest : (front ++ ch :: rest).drop (i + 3) = rest := by
    have hlength : (front ++ [ch]).length = i + 3 := by
      rw [List.length_append, List.length_singleton, hi]
    rw [List.append_cons]
    exact List.drop_left' hlength
  rw [hi, extenLoop, hch, hprevious, hrest]
  simp only [Option.some.injEq]
  rfl

theorem extenLoop_dot {front : List Byte} (rest : List Byte) (hlow : 2 ≤ front.length)
    (hslash : front.getLast? ≠ some (ascii '/')) :
    extenLoop (front ++ ascii '.' :: rest) front.length = rest := by
  rw [extenLoop_at hlow, if_pos ⟨rfl, hslash⟩]

theorem extenLoop_slash (front rest : List Byte) :
    extenLoop (front ++ ascii '/' :: rest) front.length = [] := by
  by_cases hlow : 2 ≤ front.length
  · rw [extenLoop_at hlow, if_neg fun hdot => dot_ne_slash hdot.1.symm, if_pos rfl]
  · exact extenLoop_low _ (Nat.lt_of_not_le hlow)

/-- The loop passes a byte that is no slash and not a dot that ends a name. -/
theorem extenLoop_pass (front rest : List Byte) {ch : Byte} (hslash : ch ≠ ascii '/')
    (hdot : ch = ascii '.' → front.getLast? = some (ascii '/')) :
    extenLoop (front ++ ch :: rest) front.length =
      extenLoop (front ++ ch :: rest) (front.length - 1) := by
  by_cases hlow : 2 ≤ front.length
  · rw [extenLoop_at hlow, if_neg fun hboth => hboth.2 (hdot hboth.1), if_neg hslash]
  · rw [extenLoop_low _ (Nat.lt_of_not_le hlow), extenLoop_low _ (by omega)]

/-- The loop passes a text without dots and slashes. -/
theorem extenLoop_pass_all (front text : List Byte) (hslash : ascii '/' ∉ text)
    (hdot : ascii '.' ∉ text) (rest : List Byte) :
    extenLoop (front ++ (text ++ rest)) (front.length + text.length - 1) =
      extenLoop (front ++ (text ++ rest)) (front.length - 1) := by
  induction text using List.reverseRecOn generalizing rest with
  | nil => rfl
  | append_singleton text ch ih =>
      rw [List.mem_append, not_or, List.mem_singleton] at hslash hdot
      have hpass := extenLoop_pass (front ++ text) rest (fun heq => hslash.2 heq.symm)
        (fun heq => absurd heq.symm hdot.2)
      have hbytes : front ++ (text ++ [ch] ++ rest) = front ++ text ++ ch :: rest := by
        simp only [List.append_assoc, List.singleton_append]
      have hbytes' : front ++ (text ++ ch :: rest) = front ++ text ++ ch :: rest := by
        simp only [List.append_assoc]
      have hlast : front.length + (text ++ [ch]).length - 1 = (front ++ text).length := by
        simp only [List.length_append, List.length_singleton]
        omega
      have hrest := ih hslash.1 hdot.1 (ch :: rest)
      rw [hbytes'] at hrest
      rw [hbytes, hlast, hpass, List.length_append, hrest]

/-! ### The whole loop -/

/-- What is before the last segment ends with a slash. -/
theorem getLast_directory {uri : List Byte}
    (hnil : uri.rdropWhile (fun ch => ch ≠ ascii '/') ≠ []) :
    (uri.rdropWhile fun ch => ch ≠ ascii '/').getLast hnil = ascii '/' := by
  have hnot := List.rdropWhile_last_not (fun ch => decide (ch ≠ ascii '/')) uri hnil
  rw [decide_eq_true_eq, not_not] at hnot
  exact hnot

/-- The loop ends at the last slash, or at a URI that has none. -/
theorem extenLoop_directory {uri : List Byte} (rest : List Byte)
    (hrest : uri = uri.rdropWhile (fun ch => ch ≠ ascii '/') ++ rest) :
    extenLoop uri ((uri.rdropWhile fun ch => ch ≠ ascii '/').length - 1) = [] := by
  generalize hdirectory : uri.rdropWhile (fun ch => ch ≠ ascii '/') = directory at hrest
  by_cases hnil : directory = []
  · rw [hnil]
    exact extenLoop_low uri (by decide)
  · have hslash : directory.getLast hnil = ascii '/' := by
      subst hdirectory
      exact getLast_directory hnil
    have hcut := List.dropLast_append_getLast hnil
    rw [hslash] at hcut
    have huri : uri = directory.dropLast ++ ascii '/' :: rest := by
      rw [List.append_cons, hcut]
      exact hrest
    rw [← List.length_dropLast]
    rw [huri]
    exact extenLoop_slash _ _

theorem directory_append (uri : List Byte) :
    uri = uri.rdropWhile (fun ch => ch ≠ ascii '/') ++ lastSegment uri :=
  List.rdropWhile_append_rtakeWhile.symm

/-- The loop stops at a dot behind which there is neither a dot nor a slash. -/
theorem extenLoop_found {front exten : List Byte} (hlow : 2 ≤ front.length)
    (hlast : front.getLast? ≠ some (ascii '/')) (hslash : ascii '/' ∉ exten)
    (hdot : ascii '.' ∉ exten) :
    extenLoop (front ++ ascii '.' :: exten) ((front ++ ascii '.' :: exten).length - 1) =
      exten := by
  have hpass := extenLoop_pass_all (front ++ [ascii '.']) exten hslash hdot []
  rw [List.append_nil, ← List.append_cons] at hpass
  have hstart : (front ++ ascii '.' :: exten).length - 1 =
      (front ++ [ascii '.']).length + exten.length - 1 := by
    simp only [List.length_append, List.length_cons, List.length_nil]
    omega
  have hstop : (front ++ [ascii '.']).length - 1 = front.length := by
    rw [List.length_append, List.length_singleton, Nat.add_sub_cancel]
  rw [hstart, hpass, hstop]
  exact extenLoop_dot exten hlow hlast

/-- A name whose first character at most is a dot has no extension. -/
theorem extenLoop_none {uri rest : List Byte} {first : Byte}
    (hsegment : lastSegment uri = first :: rest) (hdot : ascii '.' ∉ rest) :
    extenLoop uri (uri.length - 1) = [] := by
  have huri := directory_append uri
  have hdirectory := extenLoop_directory _ huri
  have hslash := not_mem_behind (ascii '/') uri
  have hends := @getLast_directory uri
  rw [lastSegment] at hsegment
  rw [hsegment, List.mem_cons, not_or] at hslash
  rw [lastSegment, hsegment] at huri
  generalize uri.rdropWhile (fun ch => ch ≠ ascii '/') = directory at huri hdirectory hends
  have hpass := extenLoop_pass_all (directory ++ [first]) rest hslash.2 hdot []
  rw [List.append_nil, ← List.append_cons, ← huri] at hpass
  have hstart : uri.length - 1 = (directory ++ [first]).length + rest.length - 1 := by
    rw [huri]
    simp only [List.length_append, List.length_cons, List.length_nil]
    omega
  have hstop : (directory ++ [first]).length - 1 = directory.length := by
    rw [List.length_append, List.length_singleton, Nat.add_sub_cancel]
  rw [hstart, hpass, hstop]
  by_cases hnil : directory = []
  · rw [hnil]
    rfl
  · have hfirst := extenLoop_pass directory rest (fun heq => hslash.1 heq.symm)
      (fun _ => by rw [List.getLast?_eq_some_getLast hnil, hends hnil])
    rw [← huri] at hfirst
    rw [hfirst]
    exact hdirectory

theorem extenLoop_eq {uri : List Byte} (hover : ¬ Overlooked uri) :
    extenLoop uri (uri.length - 1) = extenOf uri := by
  have huri := directory_append uri
  cases hsegment : lastSegment uri with
  | nil =>
      have hdirectory := extenLoop_directory _ huri
      have hexten : extenOf uri = [] := by rw [extenOf, hsegment]
      rw [hexten]
      rw [hsegment, List.append_nil] at huri
      rw [← huri] at hdirectory
      exact hdirectory
  | cons first rest =>
      rw [extenOf_cons hsegment]
      by_cases hdot : ascii '.' ∈ rest
      · have hslash := not_mem_behind (ascii '/') uri
        rw [lastSegment] at hsegment
        rw [lastSegment, hsegment] at huri
        rw [hsegment] at hslash
        obtain ⟨front, hrest⟩ := exists_behind hdot
        have hbehind := not_mem_behind (ascii '.') rest
        rw [if_pos hdot]
        generalize rest.rtakeWhile (fun ch => ch ≠ ascii '.') = exten at hrest hbehind
        generalize uri.rdropWhile (fun ch => ch ≠ ascii '/') = directory at huri
        rw [hrest, ← List.cons_append, List.mem_append, not_or, List.mem_cons (b := ascii '.'),
          not_or] at hslash
        have huri' : uri = (directory ++ first :: front) ++ ascii '.' :: exten := by
          rw [huri, hrest, List.append_assoc, List.cons_append]
        by_cases hlow : 2 ≤ (directory ++ first :: front).length
        · have hlast : (directory ++ first :: front).getLast? ≠ some (ascii '/') := by
            intro hlast
            rw [List.getLast?_append_of_ne_nil _ (List.cons_ne_nil _ _)] at hlast
            exact hslash.1 (List.mem_of_getLast? hlast)
          rw [huri']
          exact extenLoop_found hlow hlast hslash.2.2 hbehind
        · -- the dot is the second character
          have hlength : directory.length + front.length = 0 := by
            simp only [List.length_append, List.length_cons] at hlow
            omega
          have hdirectory : directory = [] := List.eq_nil_of_length_eq_zero (by omega)
          have hfront : front = [] := List.eq_nil_of_length_eq_zero (by omega)
          rw [hdirectory, hfront] at huri'
          by_cases hexten : exten = []
          · rw [huri', hexten]
            rfl
          · refine absurd ⟨first, exten, huri', ?_, hexten, hbehind, hslash.2.2⟩ hover
            exact fun heq => hslash.1 (heq ▸ List.mem_cons_self)
      · rw [if_neg hdot]
        exact extenLoop_none hsegment hdot

/-- In an overlooked name the text behind the dot is lost. -/
theorem extenLoop_overlooked {uri : List Byte} (hover : Overlooked uri) :
    extenLoop uri (uri.length - 1) ≠ extenOf uri := by
  obtain ⟨first, rest, huri, hfirst, hrest, hdot, hslash⟩ := hover
  have hloop : extenLoop uri (uri.length - 1) = [] := by
    have hpass := extenLoop_pass_all [first, ascii '.'] rest hslash hdot []
    rw [List.append_nil] at hpass
    have hstart : uri.length - 1 = [first, ascii '.'].length + rest.length - 1 := by
      rw [huri]
      simp only [List.length_cons, List.length_nil]
      omega
    rw [hstart, huri]
    exact hpass
  have hsegment : lastSegment uri = first :: ascii '.' :: rest := by
    rw [huri, lastSegment, List.rtakeWhile_eq_self_iff]
    intro ch hch
    rcases List.mem_cons.mp hch with rfl | hch
    · exact decide_eq_true hfirst
    rcases List.mem_cons.mp hch with rfl | hch
    · exact decide_eq_true dot_ne_slash
    · exact decide_eq_true fun heq => hslash (heq ▸ hch)
  have hexten : extenOf uri = rest := by
    rw [extenOf_cons hsegment, if_pos List.mem_cons_self]
    obtain ⟨front, heq⟩ := exists_behind (List.mem_cons_self (a := ascii '.') (l := rest))
    cases front with
    | nil => exact (List.cons.inj heq).2.symm
    | cons first front =>
        have hmem : ascii '.' ∈ rest := by
          rw [(List.cons.inj heq).2]
          exact List.mem_append_right _ List.mem_cons_self
        exact absurd hmem hdot
  rw [hloop, hexten]
  exact fun heq => hrest heq.symm

/-! ## The type -/

/-- The string that the table has for a name. -/
def Types.entry (types : Types) (name : List Byte) : Option (List Byte) :=
  (types.names.list.find? fun key => key.data = some name).bind fun key =>
    types.strAt key.value

/-- The type of an extension: the entry of its lowered text or else the default. -/
def typeOf (types : Types) : List Byte → List Byte
  | [] => textPlain
  | exten => (types.entry (exten.map nightTolower)).getD textPlain

/-- A type that is set already stays; otherwise the type is that of the extension and the
length is that of its text.  An error is returned only when the copy has no memory, and no
entry is read that is not there. -/
def Typed (types : Types) (r : Request) (served : Bool) : Option Outcome → Prop
  | none => False
  | some .segfault => False
  | some (.returned .error r') => served = false ∧ r' = r
  | some (.returned .ok r') =>
      if r.contentType ≠ [] then r' = r
      else r'.contentType = typeOf types r.exten ∧
        r'.contentTypeLen = (typeOf types r.exten).length

/-! ### The lowered extension and its hash -/

theorem isUpper_iff (ch : Byte) :
    isUpper ch = true ↔ 'A'.toNat ≤ ch.toNat ∧ ch.toNat ≤ 'Z'.toNat := by
  have houtside := @not_outside_iff ch 'A'.toNat 'Z'.toNat (by decide) (by decide)
  rw [← houtside, isUpper, Bool.and_eq_true, decide_eq_true_eq, decide_eq_true_eq, not_or,
    Int.not_lt, Int.not_lt]

theorem nightTolower_of_not_upper {ch : Byte} (hupper : isUpper ch = false) :
    nightTolower ch = ch := by
  refine if_neg fun hboth => ?_
  rw [(isUpper_iff ch).mpr hboth] at hupper
  cases hupper

theorem nightHashStrlow_eq (src : List Byte) :
    nightHashStrlow src = (src.map nightTolower, nightHashKeyLc src) := by
  have hfold : ∀ (dst : List Byte) (key : UInt64),
      src.foldl (fun copied ch =>
          (copied.1 ++ [nightTolower ch], nightHash copied.2 (nightTolower ch))) (dst, key) =
        (dst ++ src.map nightTolower,
          src.foldl (fun key ch => nightHash key (nightTolower ch)) key) := by
    induction src with
    | nil =>
        intro dst key
        rw [List.map_nil, List.append_nil]
        rfl
    | cons ch src ih =>
        intro dst key
        rw [List.foldl_cons, ih, List.foldl_cons, List.map_cons, List.append_assoc,
          List.singleton_append]
  rw [nightHashStrlow, hfold, List.nil_append]
  rfl

/-- On the bytes that are left the loop either copies the whole extension or goes on to
hash bytes that lowering does not change. -/
theorem hashExten_rest (exten : List Byte) (served : Bool) (rest : List Byte) (hash : UInt64) :
    hashExten exten served hash rest =
      if ∃ ch ∈ rest, isUpper ch = true then
        if served then some (nightHashStrlow exten) else none
      else some (exten, rest.foldl (fun key ch => nightHash key (nightTolower ch)) hash) := by
  induction rest generalizing hash with
  | nil => rw [hashExten, if_neg (by simp), List.foldl_nil]
  | cons ch rest ih =>
      rw [hashExten]
      cases hupper : isUpper ch with
      | true =>
          have hsome : ∃ upper ∈ ch :: rest, isUpper upper = true :=
            ⟨ch, List.mem_cons_self, hupper⟩
          rw [if_pos rfl, if_pos hsome]
      | false =>
          have hiff : (∃ upper ∈ ch :: rest, isUpper upper = true) ↔
              ∃ upper ∈ rest, isUpper upper = true := by
            simp [hupper]
          rw [if_neg Bool.false_ne_true, ih, List.foldl_cons, nightTolower_of_not_upper hupper]
          simp only [hiff]

theorem hashExten_eq (exten : List Byte) (served : Bool) :
    hashExten exten served 0 exten =
      if served = false ∧ ∃ ch ∈ exten, isUpper ch = true then none
      else some (exten.map nightTolower, nightHashKeyLc (exten.map nightTolower)) := by
  rw [hashExten_rest, nightHashStrlow_eq, nightHashKeyLc_lowered]
  by_cases hupper : ∃ ch ∈ exten, isUpper ch = true
  · cases served <;> simp [hupper]
  · have hlowered : exten.map nightTolower = exten := by
      have hsame : ∀ ch ∈ exten, nightTolower ch = id ch := by
        intro ch hch
        apply nightTolower_of_not_upper
        rw [← Bool.not_eq_true]
        exact fun heq => hupper ⟨ch, hch, heq⟩
      rw [List.map_congr_left hsame, List.map_id]
    rw [if_neg hupper, if_neg fun hboth => hupper hboth.2, hlowered]
    rfl

/-! ### The lookup -/

/-- The value that is found is null just for a name without an entry. -/
theorem nightHashFind_entry (types : Types) (name : List Byte) :
    ∃ value, nightHashFind types.table (nightHashKeyLc name) name = some value ∧
      match types.entry name with
      | none => value = 0
      | some type => value ≠ 0 ∧ types.strAt value = some type := by
  obtain ⟨hstored, habsent⟩ := nightHashFind_built (fun _ => .inl types.page) types.built
  cases hfound : types.names.list.find? fun key => key.data = some name with
  | none =>
      have hnone : types.entry name = none := by rw [Types.entry, hfound, Option.bind_none]
      have hdata : ∀ key ∈ types.names.list, key.data ≠ some name := by
        intro key hkey heq
        exact List.find?_eq_none.mp hfound key hkey (decide_eq_true heq)
      refine ⟨0, habsent _ name hdata, ?_⟩
      rw [hnone]
  | some key =>
      have hkey := List.mem_of_find?_eq_some hfound
      have hdata := List.find?_some hfound
      rw [decide_eq_true_eq] at hdata
      obtain ⟨type, htype⟩ := Option.isSome_iff_exists.mp (types.stored key hkey)
      have hentry : types.entry name = some type := by
        rw [Types.entry, hfound, Option.bind_some, htype]
      refine ⟨key.value, hstored key hkey name hdata, ?_⟩
      rw [hentry]
      exact ⟨types.names.nonNull key hkey, htype⟩

/-- A name has an entry just where it is a key of the table. -/
theorem isSome_entry_iff (types : Types) (name : List Byte) :
    (types.entry name).isSome ↔ ∃ key ∈ types.names.list, key.data = some name := by
  cases hfound : types.names.list.find? fun key => key.data = some name with
  | none =>
      have hnot := List.find?_eq_none.mp hfound
      rw [Types.entry, hfound, Option.bind_none]
      refine iff_of_false Bool.false_ne_true ?_
      rintro ⟨key, hkey, hdata⟩
      exact hnot key hkey (decide_eq_true hdata)
  | some key =>
      have hkey := List.mem_of_find?_eq_some hfound
      have hdata := List.find?_some hfound
      rw [decide_eq_true_eq] at hdata
      rw [Types.entry, hfound, Option.bind_some]
      exact iff_of_true (types.stored key hkey) ⟨key, hkey, hdata⟩

theorem textPlain_ne_defaultType : defaultType ≠ textPlain := by decide

/-- The search and what it sets, by the entry of the lowered extension. -/
theorem nightHttpSetContentType_eq (types : Types) {r : Request} (served : Bool)
    (hunset : r.contentType = []) (hexten : r.exten ≠ []) :
    nightHttpSetContentType types r served =
      if served = false ∧ ∃ ch ∈ r.exten, isUpper ch = true then some (.returned .error r)
      else
        match types.entry (r.exten.map nightTolower) with
        | none => some .segfault
        | some type => some (.returned .ok { r with
            exten := r.exten.map nightTolower
            contentType := type
            contentTypeLen := type.length }) := by
  have hlength : r.exten.length ≠ 0 := fun hzero => hexten (List.eq_nil_of_length_eq_zero hzero)
  rw [nightHttpSetContentType, hunset, if_neg fun hset => hset rfl, if_pos hlength, hashExten_eq]
  by_cases herror : served = false ∧ ∃ ch ∈ r.exten, isUpper ch = true
  · rw [if_pos herror, if_pos herror]
  · rw [if_neg herror, if_neg herror]
    obtain ⟨value, hfind, hvalue⟩ := nightHashFind_entry types (r.exten.map nightTolower)
    simp only [hfind, Option.bind_eq_bind, Option.bind_some]
    cases hentry : types.entry (r.exten.map nightTolower) with
    | none =>
        rw [hentry] at hvalue
        rw [if_pos hvalue]
    | some type =>
        rw [hentry] at hvalue
        rw [if_neg hvalue.1, hvalue.2]
        rfl

theorem nightHttpSetExten_iff (r : Request) :
    nightHttpSetExten r = some { r with exten := extenOf r.uri } ↔
      r.uri ≠ [] ∧ ¬ Overlooked r.uri := by
  by_cases hempty : r.uri = []
  · have hnone : nightHttpSetExten r = none := by rw [nightHttpSetExten, hempty]; rfl
    rw [hnone]
    exact iff_of_false (fun heq => nomatch heq) fun hboth => hboth.1 hempty
  · have hsome : nightHttpSetExten r =
        some { r with exten := extenLoop r.uri (r.uri.length - 1) } := by
      obtain ⟨last, hlast⟩ := Nat.exists_eq_succ_of_ne_zero
        fun hzero => hempty (List.eq_nil_of_length_eq_zero hzero)
      rw [nightHttpSetExten, hlast]
      rfl
    rw [hsome]
    by_cases hover : Overlooked r.uri
    · refine iff_of_false ?_ fun hboth => hboth.2 hover
      intro heq
      exact extenLoop_overlooked hover (congrArg Request.exten (Option.some.inj heq))
    · exact iff_of_true (by rw [extenLoop_eq hover]) ⟨hempty, hover⟩

theorem typed_iff (types : Types) (r : Request) (served : Bool) :
    Typed types r served (nightHttpSetContentType types r served) ↔
      r.contentType ≠ [] ∨
        r.exten ≠ [] ∧ ((types.entry (r.exten.map nightTolower)).isSome ∨
          served = false ∧ ∃ ch ∈ r.exten, isUpper ch = true) := by
  by_cases hset : r.contentType ≠ []
  · have hlength : r.contentType.length ≠ 0 :=
      fun hzero => hset (List.eq_nil_of_length_eq_zero hzero)
    rw [nightHttpSetContentType, if_pos hlength, Typed, if_pos hset]
    exact iff_of_true rfl (Or.inl hset)
  rw [not_not] at hset
  have hnot : ¬ r.contentType ≠ [] := not_not.mpr hset
  rw [or_iff_right hnot]
  by_cases hexten : r.exten = []
  · -- the length of the default type is one too many
    have hdefault : nightHttpSetContentType types r served =
        some (.returned .ok
          { r with contentType := defaultType, contentTypeLen := defaultType.length }) := by
      rw [nightHttpSetContentType, hset, hexten]
      rfl
    rw [hdefault, Typed, if_neg hnot, hexten]
    exact iff_of_false (fun hboth => textPlain_ne_defaultType hboth.1) fun hboth => hboth.1 rfl
  obtain ⟨first, rest, hcons⟩ := List.exists_cons_of_ne_nil hexten
  have htype : typeOf types r.exten =
      (types.entry (r.exten.map nightTolower)).getD textPlain := by
    rw [hcons]
    rfl
  rw [nightHttpSetContentType_eq types served hset hexten]
  by_cases herror : served = false ∧ ∃ ch ∈ r.exten, isUpper ch = true
  · rw [if_pos herror]
    exact iff_of_true ⟨herror.1, rfl⟩ ⟨hexten, Or.inr herror⟩
  rw [if_neg herror, or_iff_left herror]
  cases hentry : types.entry (r.exten.map nightTolower) with
  | none => exact iff_of_false id fun hboth => Bool.false_ne_true hboth.2
  | some type =>
      dsimp only
      rw [Typed, if_neg hnot, htype, hentry]
      exact iff_of_true ⟨rfl, rfl⟩ ⟨hexten, rfl⟩

/-- The process ends just at an extension that is not in the table. -/
theorem nightHttpSetContentType_segfault_iff (types : Types) (r : Request) (served : Bool) :
    nightHttpSetContentType types r served = some .segfault ↔
      r.contentType = [] ∧ r.exten ≠ [] ∧ types.entry (r.exten.map nightTolower) = none ∧
        ¬ (served = false ∧ ∃ ch ∈ r.exten, isUpper ch = true) := by
  by_cases hset : r.contentType = []
  · by_cases hexten : r.exten = []
    · refine iff_of_false ?_ fun hall => hall.2.1 hexten
      rw [nightHttpSetContentType, hset, hexten]
      exact nofun
    · rw [nightHttpSetContentType_eq types served hset hexten]
      by_cases herror : served = false ∧ ∃ ch ∈ r.exten, isUpper ch = true
      · rw [if_pos herror]
        exact iff_of_false nofun fun hall => hall.2.2.2 herror
      · rw [if_neg herror]
        cases hentry : types.entry (r.exten.map nightTolower) with
        | none => exact iff_of_true rfl ⟨hset, hexten, rfl, herror⟩
        | some type => exact iff_of_false nofun fun hall => nomatch hall.2.2.1
  · refine iff_of_false ?_ fun hall => hset hall.1
    rw [nightHttpSetContentType,
      if_pos fun hzero => hset (List.eq_nil_of_length_eq_zero hzero)]
    exact nofun

/-- The extension is that of the last segment unless the loop overlooks its dot, and the type
is right if it was set before or is that of an entry of the table: without an extension it is
the default, whose length counts the null byte, and without an entry the process ends. -/
theorem nightHttpSetContentType_typed_iff (types : Types) (r : Request) (served : Bool) :
    nightHttpSetExten r = some { r with exten := extenOf r.uri } ∧
        Typed types r served (nightHttpSetContentType types r served) ↔
      (r.uri ≠ [] ∧ ¬ Overlooked r.uri) ∧
        (r.contentType ≠ [] ∨
          r.exten ≠ [] ∧ ((types.entry (r.exten.map nightTolower)).isSome ∨
            served = false ∧ ∃ ch ∈ r.exten, isUpper ch = true)) :=
  and_congr (nightHttpSetExten_iff r) (typed_iff types r served)

/-! ## The table of the core module -/

/-- `night_http_core_default_types`, with the types at the addresses eight, sixteen and
twenty-four. -/
def nightHttpCoreDefaultTypes : Names nightHashKeyLc where
  list :=
    [⟨some (['h', 't', 'm', 'l'].map ascii), nightHashKeyLc (['h', 't', 'm', 'l'].map ascii), 8⟩,
      ⟨some (['g', 'i', 'f'].map ascii), nightHashKeyLc (['g', 'i', 'f'].map ascii), 16⟩,
      ⟨some (['j', 'p', 'g'].map ascii), nightHashKeyLc (['j', 'p', 'g'].map ascii), 24⟩]
  distinct := by decide
  lower := by decide
  hashed := by decide
  nonNull := by decide

def defaultStrAt (value : Pointer) : Option (List Byte) :=
  if value = 8 then some (['t', 'e', 'x', 't', '/', 'h', 't', 'm', 'l'].map ascii)
  else if value = 16 then some (['i', 'm', 'a', 'g', 'e', '/', 'g', 'i', 'f'].map ascii)
  else if value = 24 then some (['i', 'm', 'a', 'g', 'e', '/', 'j', 'p', 'e', 'g'].map ascii)
  else none

theorem exists_defaultTypes : ∃ types : Types, types.names = nightHttpCoreDefaultTypes := by
  obtain ⟨table, hbuilt⟩ : ∃ table, nightHashInit ⟨4096, fun _ => true⟩ ⟨true, 1024, 64⟩
      nightHttpCoreDefaultTypes.list = some (.ok table) := ⟨_, rfl⟩
  exact ⟨⟨_, _, _, table, hbuilt, by decide, defaultStrAt, by decide⟩, rfl⟩

/-- A request for `/a.css` ends the process. -/
theorem not_typed_missing :
    ¬ ∀ (types : Types) (r : Request) (served : Bool), r.uri ≠ [] → r.contentType = [] →
      nightHttpSetExten r = some { r with exten := extenOf r.uri } ∧
        Typed types r served (nightHttpSetContentType types r served) := by
  intro hall
  obtain ⟨types, hnames⟩ := exists_defaultTypes
  let r : Request := ⟨['/', 'a', '.', 'c', 's', 's'].map ascii, ['c', 's', 's'].map ascii, [], 0⟩
  have hmissing : types.entry (r.exten.map nightTolower) = none := by
    rw [← Option.not_isSome_iff_eq_none, isSome_entry_iff, hnames]
    decide
  have hsegfault := (nightHttpSetContentType_segfault_iff types r true).mpr
    ⟨rfl, by decide, hmissing, by decide⟩
  have htyped := (hall types r true (by decide) rfl).2
  rw [hsegfault] at htyped
  exact htyped

end Night.ContentType
