import Mathlib.Data.List.TakeWhile
import Night.Core.ArrayPush
import Night.Http.MapUri
import Night.Http.RequestHeader

/-!
# `night_http_index_module.c`

The names of the `index` directives are tried one after the other in the directory of the
request.  All of them are written to the same place of one block, whose size comes from the
longest name.
-/

namespace Night.Index

open ArrayPush (exN)
open Bytes Memory MapUri
open HeaderLine (nightString)
open RequestHeader (cString)

/-! ## The directive -/

/-- The fields of an element that are not set; they are addresses. -/
structure Unset where
  lengths : ℕ
  values : ℕ
  deriving DecidableEq, Repr

/-- `night_http_index_t`. -/
structure NightHttpIndex extends Unset where
  name : List Byte
  deriving DecidableEq, Repr

/-- `night_http_index_loc_conf_t`; `spare` is what the storage of the array holds in the fields
that are not set, from its next element to its last. -/
structure IndexLocConf where
  indices : List NightHttpIndex
  spare : List Unset
  maxIndexLen : ℕ
  deriving DecidableEq, Repr

/-- The storage of two elements comes zeroed. -/
def nightHttpIndexCreateLocConf : IndexLocConf := ⟨[], [⟨0, 0⟩, ⟨0, 0⟩], 0⟩

/-- `strcat` to a block of `value.len + 1` zero bytes, of which `value.len` are the name. -/
def copyName (value : List Byte) : List Byte :=
  cString value ++ List.replicate (value.length - (cString value).length) 0

section Directive

-- what lies behind the storage of an array of so many elements, in the fields of the elements
-- that would follow there
variable (behind : ℕ → ℕ → Unset)

/-- What is in the storage when `night_array_push` takes the next element.  The copy to a larger
one has read behind the end of a full one. -/
def IndexLocConf.storage (lc : IndexLocConf) : List Unset :=
  let n := lc.indices.length
  if lc.spare = [] then (List.range (exN n - n)).map (behind n) else lc.spare

/-- One round of the loop of `night_http_index`. -/
def pushIndex (lc : IndexLocConf) (value : List Byte) : IndexLocConf :=
  { indices := lc.indices ++ [⟨(lc.storage behind).headD ⟨0, 0⟩, copyName value⟩]
    spare := (lc.storage behind).tail
    maxIndexLen :=
      if lc.maxIndexLen < (copyName value).length + 1 then (copyName value).length + 1
      else lc.maxIndexLen }

/-- The arguments of one directive; there is memory for them. -/
def nightHttpIndex (values : List (List Byte)) (lc : IndexLocConf) : IndexLocConf :=
  values.foldl (pushIndex behind) lc

/-- The names of all `index` directives of a location. -/
def configured (directives : List (List (List Byte))) : IndexLocConf :=
  directives.foldl (fun lc values => nightHttpIndex behind values lc) nightHttpIndexCreateLocConf

end Directive

/-! ## The handler -/

/-- What `stat` answers for a path; there is no open file cache. -/
inductive Stat where
  | found
  | failed (errno : ℕ)
  deriving DecidableEq, Repr

/-- `ENOENT`. -/
def enoent : ℕ := 2

/-- What the handler returns; `stray` is a write that is not in the block. -/
inductive Answer where
  | declined
  | internalServerError
  | redirect (uri : List Byte)
  | stray
  deriving DecidableEq, Repr

/-- The answer, and the paths that were looked up before it. -/
abbrev Outcome := Answer × List (List Byte)

def Outcome.behind (tested : List Byte) (outcome : Outcome) : Outcome :=
  (outcome.1, tested :: outcome.2)

/-- The fields of the request and of its location that are read; `root` is that of `clcf`, whose
`root_lengths` no directive sets. -/
structure Request where
  uri : List Byte
  /-- `r->method & (NIGHT_HTTP_GET | NIGHT_HTTP_HEAD | NIGHT_HTTP_POST)`. -/
  served : Bool
  root : List Byte
  ilcf : IndexLocConf

/-- The variables of the handler that a round leaves to the next one. -/
structure Locals where
  path : Path
  allocated : ℕ
  reserve : ℕ
  len : ℕ

section Handler

-- what the file system says of a path, and whether the pool has memory
variable (stat : List Byte → Stat) (memory : Bool)

/-- The locals behind the test of `lengths`. -/
def Locals.measure (s : Locals) (ilcf : IndexLocConf) (index : NightHttpIndex) : Locals :=
  if index.lengths = 0 then
    { s with reserve := ilcf.maxIndexLen, len := index.name.length + 1 }
  else s

/-- The loop over the names. -/
def indexLoop (r : Request) : List NightHttpIndex → Locals → Outcome
  | [], _ => (.declined, [])
  | index :: indices, s =>
    let s := s.measure r.ilcf index
    match if s.reserve > s.allocated then
        nightHttpMapUriToPath ⟨r.root, false⟩ r.uri s.reserve memory
      else .path s.path with
    | .null => (.internalServerError, [])
    | .stray => (.stray, [])
    | .path path =>
      let allocated :=
        if s.reserve > s.allocated then path.data.length - path.last else s.allocated
      match if index.values = 0 then write path.data path.last index.name
        else some path.data with
      | none => (.stray, [])
      | some data =>
        if stat (cString data) = .failed enoent then
          (indexLoop r indices
            { s with path := { path with data := data }, allocated := allocated }).behind
              (cString data)
        else
          (.redirect ((data.drop path.rootLength).take (r.uri.length + s.len - 1)),
            [cString data])

/-- `reserve` and `len` are what the stack has there. -/
def nightHttpIndexHandler (reserve len : ℕ) (r : Request) : Outcome :=
  if r.uri.getLast? ≠ some (ascii '/') then (.declined, [])
  else if !r.served then (.declined, [])
  else indexLoop stat memory r r.ilcf.indices ⟨⟨[], 0, 0⟩, 0, reserve, len⟩

/-! ## What it is for -/

def IndexLocConf.names (lc : IndexLocConf) : List (List Byte) :=
  lc.indices.map NightHttpIndex.name

/-- The first name that exists in the directory. -/
def search (root uri : List Byte) : List (List Byte) → Outcome
  | [] => (.declined, [])
  | name :: names =>
    let path := cString (root ++ uri ++ name)
    match stat path with
    | .found => (.redirect (uri ++ name), [path])
    | .failed errno =>
      if errno = enoent then (search root uri names).behind path
      else (.internalServerError, [path])

/-- The handler looks up the names in their order and redirects to the first that exists.
Without memory for the path it can only answer an error. -/
def Serves (reserve len : ℕ) (r : Request) : Prop :=
  nightHttpIndexHandler stat memory reserve len r =
    if !r.served || r.ilcf.indices.isEmpty then (.declined, [])
    else if !memory then (.internalServerError, [])
    else search stat r.root r.uri r.ilcf.names

end Handler

/-- The byte that the names have left at a place behind the directory; those with `values` are
not written. -/
def left (indices : List NightHttpIndex) (i : ℕ) : Byte :=
  indices.foldl
    (fun byte index => if index.values = 0 then index.name.getD i byte else byte) 0

/-- The variable `len` behind the names; it is set for those without `lengths`. -/
def lastLen (len : ℕ) (indices : List NightHttpIndex) : ℕ :=
  indices.foldl (fun len index => if index.lengths = 0 then index.name.length + 1 else len) len

/-- The string that the names have left behind the directory is a name, unless the directory
ends the string itself. -/
def Spelled (directory : List Byte) (indices : List NightHttpIndex) (name : List Byte) : Prop :=
  0 ∈ directory ∨ ∀ i ≤ (cString name).length, left indices i = (cString name).getD i 0

/-- The bytes that the names have left behind the directory and the length are those of a
name. -/
def Measured (len : ℕ) (indices : List NightHttpIndex) (name : List Byte) : Prop :=
  lastLen len indices = name.length + 1 ∧ ∀ i < name.length, left indices i = name.getD i 0

/-- When a name is tried behind those in `before`, the string in the block is its path, and
where that is there the redirect leads to it; otherwise there is none.  The last name tried is
the first whose path is there. -/
def Proper (stat : List Byte → Stat) (directory : List Byte) (len : ℕ)
    (before indices : List NightHttpIndex) : Prop :=
  ∀ earlier index later, indices = earlier ++ index :: later →
    (∀ other ∈ earlier, stat (cString (directory ++ other.name)) = .failed enoent) →
    Spelled directory (before ++ earlier ++ [index]) index.name ∧
      match stat (cString (directory ++ index.name)) with
      | .found => Measured len (before ++ earlier ++ [index]) index.name
      | .failed errno => errno = enoent

/-! ## Names -/

variable {indices before : List NightHttpIndex} {index : NightHttpIndex}
  {name directory buffer rest : List Byte} {lc : IndexLocConf} {stat : List Byte → Stat}
  {memory : Bool} {r : Request} {behind : ℕ → ℕ → Unset} {len : ℕ}

theorem left_concat (indices : List NightHttpIndex) (index : NightHttpIndex) (i : ℕ) :
    left (indices ++ [index]) i =
      if index.values = 0 then index.name.getD i (left indices i) else left indices i := by
  rw [left, List.foldl_concat, left]

theorem lastLen_concat (len : ℕ) (indices : List NightHttpIndex) (index : NightHttpIndex) :
    lastLen len (indices ++ [index]) =
      if index.lengths = 0 then index.name.length + 1 else lastLen len indices := by
  rw [lastLen, List.foldl_concat, lastLen]

/-- There is room for every name and the byte behind it. -/
def Fits (lc : IndexLocConf) : Prop :=
  ∀ index ∈ lc.indices, index.name.length + 1 ≤ lc.maxIndexLen

theorem fits_pushIndex (hfits : Fits lc) (value : List Byte) :
    Fits (pushIndex behind lc value) := by
  intro index hindex
  rw [pushIndex] at hindex ⊢
  simp only at hindex ⊢
  obtain hin | hin := List.mem_append.mp hindex
  · have hroom := hfits index hin
    split <;> omega
  · obtain rfl := List.mem_singleton.mp hin
    dsimp only
    split <;> omega

/-- What the pushes keep, the directives keep. -/
theorem configured_induct {P : IndexLocConf → Prop} (hcreate : P nightHttpIndexCreateLocConf)
    (hpush : ∀ lc value, P lc → P (pushIndex behind lc value))
    (directives : List (List (List Byte))) : P (configured behind directives) := by
  have hindex : ∀ values lc, P lc → P (nightHttpIndex behind values lc) := by
    intro values
    induction values with
    | nil => exact fun lc hlc => hlc
    | cons value values ih => exact fun lc hlc => ih _ (hpush lc value hlc)
  have hall : ∀ lc, P lc →
      P (directives.foldl (fun lc values => nightHttpIndex behind values lc) lc) := by
    induction directives with
    | nil => exact fun lc hlc => hlc
    | cons values directives ih => exact fun lc hlc => ih _ (hindex values lc hlc)
  exact hall _ hcreate

theorem fits_configured (behind : ℕ → ℕ → Unset) (directives : List (List (List Byte))) :
    Fits (configured behind directives) :=
  configured_induct (P := Fits) (fun _ hindex => absurd hindex List.not_mem_nil)
    (fun _ value hfits => fits_pushIndex hfits value) directives

/-- The first two elements of the storage are never copied from behind another one. -/
def Zeroed (lc : IndexLocConf) : Prop :=
  ∃ rest, lc.indices.map NightHttpIndex.toUnset ++ lc.spare = ⟨0, 0⟩ :: ⟨0, 0⟩ :: rest

theorem zeroed_pushIndex (hzeroed : Zeroed lc) (value : List Byte) :
    Zeroed (pushIndex behind lc value) := by
  obtain ⟨rest, hrest⟩ := hzeroed
  rw [Zeroed, pushIndex]
  simp only [List.map_append, List.map_singleton, List.append_assoc, List.singleton_append]
  by_cases hfull : lc.spare = []
  · rw [hfull, List.append_nil] at hrest
    rw [hrest]
    exact ⟨_, rfl⟩
  · have hstorage : lc.storage behind = lc.spare := if_neg hfull
    obtain ⟨first, spare, hspare⟩ := List.exists_cons_of_ne_nil hfull
    rw [hspare] at hrest
    rw [hstorage, hspare]
    exact ⟨rest, hrest⟩

theorem zeroed_configured (behind : ℕ → ℕ → Unset) (directives : List (List (List Byte))) :
    Zeroed (configured behind directives) :=
  configured_induct (P := Zeroed) ⟨[], rfl⟩
    (fun _ value hzeroed => zeroed_pushIndex hzeroed value) directives

/-- The first name has no `lengths` and no `values`. -/
theorem Zeroed.first (hzeroed : Zeroed lc) (hindices : lc.indices = index :: indices) :
    index.toUnset = ⟨0, 0⟩ := by
  obtain ⟨rest, hrest⟩ := hzeroed
  rw [hindices, List.map_cons, List.cons_append] at hrest
  exact (List.cons.inj hrest).1

/-- Two names have no `lengths` and no `values`. -/
theorem Zeroed.of_length_le (hzeroed : Zeroed lc) (hlength : lc.indices.length ≤ 2) :
    ∀ index ∈ lc.indices, index.toUnset = ⟨0, 0⟩ := by
  obtain ⟨rest, hrest⟩ := hzeroed
  intro index hindex
  match hindices : lc.indices, hlength with
  | [], _ =>
    rw [hindices] at hindex
    exact absurd hindex List.not_mem_nil
  | [first], _ =>
    rw [hindices, List.map_singleton, List.singleton_append] at hrest
    rw [hindices] at hindex
    rw [List.mem_singleton.mp hindex]
    exact (List.cons.inj hrest).1
  | [first, second], _ =>
    rw [hindices] at hrest hindex
    obtain ⟨hfirst, htail⟩ := List.cons.inj hrest
    rcases List.mem_cons.mp hindex with rfl | hindex
    · exact hfirst
    · rw [List.mem_singleton.mp hindex]
      exact (List.cons.inj htail).1

/-! ## Paths -/

theorem cString_append_of_mem {front : List Byte} (hzero : 0 ∈ front) (rest : List Byte) :
    cString (front ++ rest) = cString front := by
  induction front with
  | nil => exact absurd hzero List.not_mem_nil
  | cons byte front ih =>
    rw [List.cons_append, cString, cString, List.takeWhile_cons, List.takeWhile_cons]
    by_cases hbyte : byte = 0
    · rw [if_neg (by simpa using hbyte), if_neg (by simpa using hbyte)]
    · rw [if_pos (by simpa using hbyte), if_pos (by simpa using hbyte)]
      congr 1
      exact ih ((List.mem_cons.mp hzero).resolve_left fun heq => hbyte heq.symm)

theorem cString_append_of_not_mem {front : List Byte} (hzero : 0 ∉ front) (rest : List Byte) :
    cString (front ++ rest) = front ++ cString rest := by
  rw [cString, cString, List.takeWhile_append_of_pos]
  intro byte hbyte
  exact decide_eq_true fun heq => hzero (heq ▸ hbyte)

theorem not_mem_cString (bytes : List Byte) : 0 ∉ cString bytes := by
  intro hmem
  have himp := List.mem_takeWhile_imp hmem
  exact of_decide_eq_true himp rfl

theorem cString_of_not_mem {bytes : List Byte} (hzero : 0 ∉ bytes) : cString bytes = bytes := by
  apply List.takeWhile_eq_self_iff.mpr
  intro byte hbyte
  exact decide_eq_true fun heq => hzero (heq ▸ hbyte)

theorem length_cString_le (bytes : List Byte) : (cString bytes).length ≤ bytes.length :=
  List.Sublist.length_le (List.takeWhile_sublist _)

/-- The string at the begin of a longer block is a text without a NUL when the block has its
bytes and a NUL behind them. -/
theorem cString_eq_iff {text : List Byte} (hzero : 0 ∉ text) (hroom : text.length < buffer.length) :
    cString buffer = text ↔ ∀ i ≤ text.length, buffer.getD i 0 = text.getD i 0 := by
  induction text generalizing buffer with
  | nil =>
    obtain ⟨byte, rest, rfl⟩ := List.exists_cons_of_length_pos hroom
    by_cases hbyte : byte = 0
    · refine iff_of_true (by simp [cString, hbyte]) fun i hi => ?_
      rw [Nat.le_zero.mp hi]
      exact hbyte
    · refine iff_of_false ?_ fun hall => hbyte (hall 0 le_rfl)
      rw [cString, List.takeWhile_cons, if_pos (decide_eq_true hbyte)]
      exact List.cons_ne_nil _ _
  | cons ch text ih =>
    obtain ⟨byte, rest, rfl⟩ := List.exists_cons_of_length_pos (Nat.zero_lt_of_lt hroom)
    rw [List.mem_cons, not_or] at hzero
    have hrest := @ih rest hzero.2 (Nat.lt_of_succ_lt_succ hroom)
    have hsplit : (∀ i ≤ (ch :: text).length, (byte :: rest).getD i 0 = (ch :: text).getD i 0) ↔
        byte = ch ∧ ∀ i ≤ text.length, rest.getD i 0 = text.getD i 0 := by
      constructor
      · intro hall
        exact ⟨hall 0 (Nat.zero_le _), fun i hi => hall (i + 1) (Nat.succ_le_succ hi)⟩
      · rintro ⟨hfirst, hlater⟩ i hi
        cases i with
        | zero => exact hfirst
        | succ i => exact hlater i (Nat.le_of_succ_le_succ hi)
    rw [hsplit, ← hrest]
    by_cases hbyte : byte = 0
    · refine iff_of_false ?_ fun hboth => hzero.1 (hbyte.symm.trans hboth.1)
      rw [cString, List.takeWhile_cons, if_neg (by simpa using hbyte)]
      exact (List.cons_ne_nil _ _).symm
    · rw [cString, List.takeWhile_cons, if_pos (decide_eq_true hbyte)]
      exact List.cons_eq_cons

/-! ## The loop -/

theorem proper_nil : Proper stat directory len before [] := by
  intro earlier index later hsplit
  exact absurd hsplit.symm (by simp)

theorem proper_cons : Proper stat directory len before (index :: indices) ↔
    Spelled directory (before ++ [index]) index.name ∧
      match stat (cString (directory ++ index.name)) with
      | .found => Measured len (before ++ [index]) index.name
      | .failed errno =>
        errno = enoent ∧ Proper stat directory len (before ++ [index]) indices := by
  constructor
  · intro hproper
    have hfirst := hproper [] index indices rfl (by simp)
    rw [List.append_nil] at hfirst
    obtain ⟨hspelled, hcode⟩ := hfirst
    refine ⟨hspelled, ?_⟩
    cases hstat : stat (cString (directory ++ index.name)) with
    | found =>
      rw [hstat] at hcode
      exact hcode
    | failed errno =>
      rw [hstat] at hcode
      refine ⟨hcode, ?_⟩
      rintro earlier other later rfl hearlier
      rw [List.append_assoc before, List.singleton_append]
      apply hproper (index :: earlier) other later rfl
      rintro x hx
      obtain rfl | hx := List.mem_cons.mp hx
      · rw [hstat, hcode]
      · exact hearlier x hx
  · rintro ⟨hspelled, hcode⟩ earlier other later hsplit hearlier
    cases earlier with
    | nil =>
      obtain ⟨rfl, -⟩ := List.cons.inj hsplit
      rw [List.append_nil]
      refine ⟨hspelled, ?_⟩
      cases hstat : stat (cString (directory ++ index.name)) with
      | found =>
        rw [hstat] at hcode
        exact hcode
      | failed errno =>
        rw [hstat] at hcode
        exact hcode.1
    | cons first earlier =>
      obtain ⟨rfl, hindices⟩ := List.cons.inj hsplit
      rw [hearlier index List.mem_cons_self] at hcode
      have hlater := hcode.2 earlier other later hindices
        fun x hx => hearlier x (List.mem_cons_of_mem _ hx)
      rwa [List.append_assoc before, List.singleton_append] at hlater

/-- What the names before have left in the block behind the directory. -/
def Holds (before : List NightHttpIndex) (buffer : List Byte) : Prop :=
  ∀ i < buffer.length, buffer.getD i 0 = left before i

/-- The block behind the directory when a name is written, unless it has `values`. -/
def overwrite (buffer : List Byte) (index : NightHttpIndex) : List Byte :=
  if index.values = 0 then index.name ++ buffer.drop index.name.length else buffer

theorem length_overwrite (hroom : index.name.length ≤ buffer.length) :
    (overwrite buffer index).length = buffer.length := by
  rw [overwrite]
  split
  · rw [List.length_append, List.length_drop, Nat.add_sub_cancel' hroom]
  · rfl

theorem Holds.overwrite (hholds : Holds before buffer) (hroom : index.name.length ≤ buffer.length) :
    Holds (before ++ [index]) (overwrite buffer index) := by
  intro i hi
  rw [length_overwrite hroom] at hi
  rw [left_concat, Index.overwrite]
  split
  · by_cases hin : i < index.name.length
    · rw [List.getD_append _ _ _ _ hin, List.getD_eq_getElem _ _ hin,
        List.getD_eq_getElem _ _ hin]
    · have hle := Nat.le_of_not_lt hin
      rw [List.getD_append_right _ _ _ _ hle, List.getD_eq_default _ (left before i) hle,
        ← hholds i hi, List.getD_eq_getElem?_getD, List.getD_eq_getElem?_getD,
        List.getElem?_drop, Nat.add_sub_cancel' hle]
  · exact hholds i hi

/-- The locals when the path of a request is in its block. -/
def localsIn (r : Request) (buffer : List Byte) (len : ℕ) : Locals where
  path := ⟨r.root ++ r.uri ++ buffer, r.root.length, (r.root ++ r.uri).length⟩
  allocated := r.ilcf.maxIndexLen
  reserve := r.ilcf.maxIndexLen
  len := len

theorem behind_inj {tested : List Byte} {outcome outcome' : Outcome} :
    outcome.behind tested = outcome'.behind tested ↔ outcome = outcome' := by
  simp [Outcome.behind, Prod.ext_iff]

/-- The first path that the search looks up. -/
theorem search_head (root uri name : List Byte) (names : List (List Byte)) :
    (search stat root uri (name :: names)).2.head? = some (cString (root ++ uri ++ name)) := by
  rw [search]
  split
  · rfl
  · split <;> rfl

/-- What is looked up is the path just where the block spells the name. -/
theorem cString_block_iff (hroom : name.length < buffer.length) (hholds : Holds before buffer) :
    cString (directory ++ buffer) = cString (directory ++ name) ↔
      Spelled directory before name := by
  rw [Spelled]
  by_cases hzero : 0 ∈ directory
  · rw [cString_append_of_mem hzero, cString_append_of_mem hzero]
    exact iff_of_true rfl (.inl hzero)
  · have hshorter : (cString name).length < buffer.length :=
      Nat.lt_of_le_of_lt (length_cString_le name) hroom
    rw [cString_append_of_not_mem hzero, cString_append_of_not_mem hzero,
      List.append_cancel_left_eq, cString_eq_iff (not_mem_cString name) hshorter,
      or_iff_right hzero]
    exact forall₂_congr fun i hi => by rw [hholds i (Nat.lt_of_le_of_lt hi hshorter)]

/-- The redirect leads to the name just where the bytes and the length are those of it. -/
theorem take_eq_iff {uri : List Byte} (huri : uri ≠ []) (hroom : name.length < buffer.length)
    (hholds : Holds before buffer) :
    (uri ++ buffer).take (uri.length + lastLen len before - 1) = uri ++ name ↔
      Measured len before name := by
  have hpos := List.length_pos_iff.mpr huri
  have hbytes : buffer.take name.length = name ↔
      ∀ i < name.length, left before i = name.getD i 0 := by
    constructor
    · intro htake i hi
      rw [← hholds i (hi.trans hroom), List.getD_eq_getElem _ _ (hi.trans hroom),
        List.getD_eq_getElem _ _ hi]
      have hget := List.getElem_of_eq htake.symm hi
      rw [List.getElem_take] at hget
      exact hget.symm
    · intro hall
      apply List.ext_getElem
      · rw [List.length_take, Nat.min_eq_left hroom.le]
      · intro i _ hi
        have heq := hall i hi
        rw [← hholds i (hi.trans hroom), List.getD_eq_getElem _ _ (hi.trans hroom),
          List.getD_eq_getElem _ _ hi] at heq
        rw [List.getElem_take]
        exact heq
  rw [Measured, ← hbytes]
  constructor
  · intro heq
    have hlength := congrArg List.length heq
    rw [List.length_take, List.length_append, List.length_append] at hlength
    have hlen : lastLen len before = name.length + 1 := by omega
    refine ⟨hlen, ?_⟩
    have hsum : uri.length + (name.length + 1) - 1 = uri.length + name.length := rfl
    rw [hlen, hsum, List.take_length_add_append] at heq
    exact List.append_cancel_left heq
  · rintro ⟨hlen, htake⟩
    have hsum : uri.length + (name.length + 1) - 1 = uri.length + name.length := rfl
    rw [hlen, hsum, List.take_length_add_append, htake]

/-- One round when the path is there. -/
theorem indexLoop_cons (hroom : index.name.length ≤ buffer.length) :
    indexLoop stat memory r (index :: indices) (localsIn r buffer (lastLen len before)) =
      let data := r.root ++ r.uri ++ overwrite buffer index
      let next := lastLen len (before ++ [index])
      if stat (cString data) = .failed enoent then
        (indexLoop stat memory r indices (localsIn r (overwrite buffer index) next)).behind
          (cString data)
      else (.redirect ((r.uri ++ overwrite buffer index).take (r.uri.length + next - 1)),
        [cString data]) := by
  have hmeasure : (localsIn r buffer (lastLen len before)).measure r.ilcf index =
      localsIn r buffer (lastLen len (before ++ [index])) := by
    rw [Locals.measure, lastLen_concat]
    split <;> rfl
  have hwrite : (if index.values = 0 then
      write (r.root ++ r.uri ++ buffer) (r.root ++ r.uri).length index.name
        else some (r.root ++ r.uri ++ buffer)) =
      some (r.root ++ r.uri ++ overwrite buffer index) := by
    rw [overwrite]
    split
    · rw [@write_append index.name (r.root ++ r.uri) buffer hroom, List.append_assoc _ index.name]
    · rfl
  have hdrop : (r.root ++ r.uri ++ overwrite buffer index).drop r.root.length =
      r.uri ++ overwrite buffer index := by
    rw [List.append_assoc, List.drop_left' rfl]
  rw [indexLoop, hmeasure]
  simp only [localsIn, gt_iff_lt, Nat.lt_irrefl, if_false, hwrite, hdrop]

/-- The loop behind its first round is the search just where the names are proper. -/
theorem indexLoop_eq_search_iff (huri : r.uri ≠ [])
    (hfits : ∀ index ∈ indices, index.name.length + 1 ≤ r.ilcf.maxIndexLen)
    (hlength : buffer.length = r.ilcf.maxIndexLen) (hholds : Holds before buffer) :
    indexLoop stat memory r indices (localsIn r buffer (lastLen len before)) =
        search stat r.root r.uri (indices.map NightHttpIndex.name) ↔
      Proper stat (r.root ++ r.uri) len before indices := by
  induction indices generalizing before buffer with
  | nil => exact iff_of_true rfl proper_nil
  | cons index indices ih =>
    have hroom : index.name.length < buffer.length := hlength ▸ hfits index List.mem_cons_self
    have hlength' := (length_overwrite hroom.le).trans hlength
    have hroom' : index.name.length < (overwrite buffer index).length :=
      (length_overwrite hroom.le).symm ▸ hroom
    have hholds' := hholds.overwrite hroom.le
    have hsame := @cString_block_iff _ _ (r.root ++ r.uri) _ hroom' hholds'
    have htake := @take_eq_iff _ _ _ len _ huri hroom' hholds'
    have hrest := ih (fun other hother => hfits other (List.mem_cons_of_mem _ hother))
      hlength' hholds'
    rw [indexLoop_cons hroom.le, proper_cons, List.map_cons]
    dsimp only
    by_cases hspelled : Spelled (r.root ++ r.uri) (before ++ [index]) index.name
    · rw [hsame.mpr hspelled, search, and_iff_right hspelled]
      cases hstat : stat (cString (r.root ++ r.uri ++ index.name)) with
      | found =>
        rw [if_neg nofun]
        dsimp only
        rw [← htake, Prod.mk.injEq, and_iff_left rfl, Answer.redirect.injEq]
      | failed errno =>
        dsimp only
        by_cases herrno : errno = enoent
        · rw [herrno, if_pos rfl, if_pos rfl, behind_inj, hrest, and_iff_right rfl]
        · have hne : Stat.failed errno ≠ .failed enoent := fun heq => herrno (Stat.failed.inj heq)
          rw [if_neg hne, if_neg herrno]
          refine iff_of_false (fun heq => ?_) fun hproper => herrno hproper.1
          cases congrArg Prod.fst heq
    · -- the first path that is looked up is another one
      refine iff_of_false (fun heq => hspelled (hsame.mp ?_)) fun hproper => hspelled hproper.1
      have hhead := congrArg (fun outcome => outcome.2.head?) heq
      simp only [search_head] at hhead
      split at hhead
      · exact Option.some.inj hhead
      · exact Option.some.inj hhead

/-- Whatever was written before, every name is written in the block. -/
theorem indexLoop_ne_stray
    (hfits : ∀ index ∈ indices, index.name.length + 1 ≤ r.ilcf.maxIndexLen)
    (hlength : buffer.length = r.ilcf.maxIndexLen) :
    (indexLoop stat memory r indices (localsIn r buffer (lastLen len before))).1 ≠ .stray := by
  induction indices generalizing before buffer with
  | nil => exact nofun
  | cons index indices ih =>
    have hroom : index.name.length < buffer.length := hlength ▸ hfits index List.mem_cons_self
    have hrest := @ih (before ++ [index]) (overwrite buffer index)
      (fun other hother => hfits other (List.mem_cons_of_mem _ hother))
      ((length_overwrite hroom.le).trans hlength)
    rw [indexLoop_cons hroom.le]
    dsimp only
    split
    · exact hrest
    · exact nofun

/-- The first round, whose name has no `lengths`, gets the path, with zeros behind the
directory. -/
theorem indexLoop_first (hpositive : 0 < r.ilcf.maxIndexLen) (hfirst : index.toUnset = ⟨0, 0⟩)
    (reserve len : ℕ) :
    indexLoop stat true r (index :: indices) ⟨⟨[], 0, 0⟩, 0, reserve, len⟩ =
      indexLoop stat true r (index :: indices)
        (localsIn r (List.replicate r.ilcf.maxIndexLen 0) (lastLen len [])) := by
  have hmapped := nightHttpMapUriToPath_eq ⟨r.root, false⟩ r.uri hpositive rfl
  have hzeros : [(0 : Byte)] ++ List.replicate (r.ilcf.maxIndexLen - 1) 0 =
      List.replicate r.ilcf.maxIndexLen 0 := by
    rw [List.singleton_append, ← List.replicate_succ, Nat.sub_add_cancel hpositive]
  have hallocated : r.root.length + r.uri.length + r.ilcf.maxIndexLen -
      (r.root.length + r.uri.length) = r.ilcf.maxIndexLen := Nat.add_sub_cancel_left _ _
  have hlengths : index.lengths = 0 := congrArg Unset.lengths hfirst
  rw [List.append_assoc _ [0], hzeros] at hmapped
  rw [indexLoop, indexLoop, Locals.measure, Locals.measure, if_pos hlengths, if_pos hlengths]
  simp only [localsIn, if_pos hpositive, if_neg (Nat.lt_irrefl _), hmapped, List.length_append,
    List.length_replicate, hallocated]

/-! ## The handler -/

theorem holds_zeros (n : ℕ) : Holds [] (List.replicate n 0) := by
  intro i hi
  rw [List.getD_eq_getElem _ _ hi, List.getElem_replicate]
  rfl

/-- The loop of the handler is the search just where the names are proper. -/
theorem loop_eq_search_iff {uri : List Byte} (huri : uri ≠ []) (hfits : Fits lc)
    (hzeroed : Zeroed lc) (served : Bool) (root : List Byte) (reserve len : ℕ) :
    indexLoop stat true ⟨uri, served, root, lc⟩ lc.indices ⟨⟨[], 0, 0⟩, 0, reserve, len⟩ =
        search stat root uri lc.names ↔
      Proper stat (root ++ uri) len [] lc.indices := by
  rw [IndexLocConf.names]
  cases hindices : lc.indices with
  | nil => exact iff_of_true rfl proper_nil
  | cons index indices =>
    have hroom := hfits index (hindices ▸ List.mem_cons_self)
    rw [indexLoop_first (r := ⟨uri, served, root, lc⟩) (Nat.zero_lt_of_lt hroom)
      (hzeroed.first hindices)]
    exact @indexLoop_eq_search_iff (index :: indices) [] _ stat true ⟨uri, served, root, lc⟩ len
      huri (fun other hother => hfits other (hindices ▸ hother)) List.length_replicate
      (holds_zeros _)

/-- For every URI that ends in a slash: the handler does its work just where the block spells
each of the names it tries, what is left of the length and the bytes is that of the name that it
finds, and no path is refused for another reason. -/
theorem serves_iff (stat : List Byte → Stat) (memory served : Bool) (reserve len : ℕ)
    (root stem : List Byte) (behind : ℕ → ℕ → Unset) (directives : List (List (List Byte))) :
    Serves stat memory reserve len
        ⟨stem ++ [ascii '/'], served, root, configured behind directives⟩ ↔
      (served = true → memory = true →
        Proper stat (root ++ (stem ++ [ascii '/'])) len []
          (configured behind directives).indices) := by
  have hfits := fits_configured behind directives
  have hzeroed := zeroed_configured behind directives
  rw [Serves, nightHttpIndexHandler, if_neg (by simp)]
  generalize configured behind directives = lc at hfits hzeroed ⊢
  cases served with
  | false => exact iff_of_true rfl nofun
  | true =>
    cases memory with
    | false =>
      refine iff_of_true ?_ nofun
      cases hindices : lc.indices with
      | nil => simp [indexLoop]
      | cons index indices =>
        have hroom := hfits index (hindices ▸ List.mem_cons_self)
        have hlengths : index.lengths = 0 := congrArg Unset.lengths (hzeroed.first hindices)
        dsimp only
        rw [indexLoop, Locals.measure, if_pos hlengths, if_pos (Nat.zero_lt_of_lt hroom)]
        rfl
    | true =>
      have hloop := @loop_eq_search_iff lc stat (stem ++ [ascii '/']) (by simp) hfits hzeroed
        true root reserve len
      simp only [Bool.not_true, Bool.false_or, Bool.false_eq_true, if_false, forall_const]
      rw [← hloop]
      cases hindices : lc.indices with
      | nil =>
        refine iff_of_true (by simp [indexLoop]) ?_
        rw [IndexLocConf.names, hindices]
        rfl
      | cons index indices => simp

/-- For all names, in any order, no write leaves the block. -/
theorem nightHttpIndexHandler_ne_stray (stat : List Byte → Stat) (memory served : Bool)
    (reserve len : ℕ) (root uri : List Byte) (behind : ℕ → ℕ → Unset)
    (directives : List (List (List Byte))) :
    (nightHttpIndexHandler stat memory reserve len
      ⟨uri, served, root, configured behind directives⟩).1 ≠ .stray := by
  have hfits := fits_configured behind directives
  have hzeroed := zeroed_configured behind directives
  rw [nightHttpIndexHandler]
  split
  · exact nofun
  · split
    · exact nofun
    · generalize configured behind directives = lc at hfits hzeroed ⊢
      cases hindices : lc.indices with
      | nil => exact nofun
      | cons index indices =>
        have hroom := hfits index (hindices ▸ List.mem_cons_self)
        have hfirst := hzeroed.first hindices
        cases memory with
        | false =>
          have hlengths : index.lengths = 0 := congrArg Unset.lengths hfirst
          rw [indexLoop, Locals.measure, if_pos hlengths, if_pos (Nat.zero_lt_of_lt hroom)]
          exact nofun
        | true =>
          rw [indexLoop_first (r := ⟨uri, served, root, lc⟩) (Nat.zero_lt_of_lt hroom) hfirst]
          exact indexLoop_ne_stray (fun other hother => hfits other (hindices ▸ hother))
            List.length_replicate

/-! ## Names without stale fields -/

/-- Without a NUL in the names a byte is left behind the end of a name just where one of them was
longer. -/
theorem left_eq_zero_iff (hvalues : ∀ index ∈ indices, index.values = 0)
    (hnames : ∀ index ∈ indices, (0 : Byte) ∉ index.name) (i : ℕ) :
    left indices i = 0 ↔ ∀ index ∈ indices, index.name.length ≤ i := by
  induction indices using List.reverseRecOn with
  | nil => exact iff_of_true rfl (by simp)
  | append_singleton indices index ih =>
    rw [left_concat, if_pos (hvalues index (by simp))]
    by_cases hlong : i < index.name.length
    · rw [List.getD_eq_getElem _ _ hlong]
      refine iff_of_false ?_ ?_
      · intro hzero
        exact hnames index (by simp) (hzero ▸ List.getElem_mem hlong)
      · intro hall
        exact absurd (hall index (by simp)) (Nat.not_le.mpr hlong)
    · rw [List.getD_eq_default _ _ (Nat.le_of_not_lt hlong),
        ih (fun other hother => hvalues other (List.mem_append_left _ hother))
          fun other hother => hnames other (List.mem_append_left _ hother)]
      simp only [List.mem_append, List.mem_singleton, or_imp, forall_and, forall_eq]
      exact (and_iff_left (Nat.le_of_not_lt hlong)).symm

/-- The block spells a name that was written just where a NUL follows it. -/
theorem spelled_iff_left (hdirectory : 0 ∉ directory) (hname : 0 ∉ index.name)
    (hvalues : index.values = 0) :
    Spelled directory (before ++ [index]) index.name ↔ left before index.name.length = 0 := by
  rw [Spelled, or_iff_right hdirectory, cString_of_not_mem hname]
  constructor
  · intro hall
    have hend := hall index.name.length le_rfl
    rw [left_concat, if_pos hvalues, List.getD_eq_default _ _ le_rfl,
      List.getD_eq_default _ _ le_rfl] at hend
    exact hend
  · intro hzero i hi
    rw [left_concat, if_pos hvalues]
    rcases Nat.lt_or_eq_of_le hi with hlt | rfl
    · rw [List.getD_eq_getElem _ _ hlt, List.getD_eq_getElem _ _ hlt]
    · rw [List.getD_eq_default _ _ le_rfl, List.getD_eq_default _ _ le_rfl, hzero]

theorem measured_of_unset (hunset : index.toUnset = ⟨0, 0⟩) :
    Measured len (before ++ [index]) index.name := by
  refine ⟨?_, fun i hi => ?_⟩
  · rw [lastLen_concat, if_pos (congrArg Unset.lengths hunset)]
  · rw [left_concat, if_pos (congrArg Unset.values hunset), List.getD_eq_getElem _ _ hi,
      List.getD_eq_getElem _ _ hi]

/-- Names without `lengths`, without `values` and without a NUL, as two names always are, are
proper just where none is tried behind a longer one and no path is refused for another reason
than `ENOENT`. -/
theorem proper_iff_of_unset (hdirectory : 0 ∉ directory)
    (hunset : ∀ index ∈ indices, index.toUnset = ⟨0, 0⟩)
    (hnames : ∀ index ∈ indices, 0 ∉ index.name) :
    Proper stat directory len [] indices ↔
      ∀ earlier index later, indices = earlier ++ index :: later →
        (∀ other ∈ earlier, stat (cString (directory ++ other.name)) = .failed enoent) →
        (∀ other ∈ earlier, other.name.length ≤ index.name.length) ∧
          ∀ errno, stat (cString (directory ++ index.name)) = .failed errno → errno = enoent := by
  refine forall₅_congr fun earlier index later hsplit _ => ?_
  have hmem : ∀ other ∈ earlier, other ∈ indices :=
    fun other hother => hsplit ▸ List.mem_append_left _ hother
  have hindex : index ∈ indices := hsplit ▸ List.mem_append_right _ List.mem_cons_self
  have hvalues : ∀ other ∈ indices, other.values = 0 :=
    fun other hother => congrArg Unset.values (hunset other hother)
  rw [List.nil_append, spelled_iff_left hdirectory (hnames index hindex) (hvalues index hindex),
    left_eq_zero_iff (fun other hother => hvalues other (hmem other hother))
      fun other hother => hnames other (hmem other hother)]
  apply and_congr_right
  intro _
  cases stat (cString (directory ++ index.name)) with
  | found => exact iff_of_true (measured_of_unset (hunset index hindex)) nofun
  | failed errno => simp

instance decidableServes (stat : List Byte → Stat) (memory : Bool) (reserve len : ℕ)
    (r : Request) : Decidable (Serves stat memory reserve len r) :=
  inferInstanceAs (Decidable (_ = _))

/-- Of the names `index.html` and `a` only the second exists. -/
def onlyA (path : List Byte) : Stat :=
  if path = nightString "/w/a" then .found else .failed enoent

/-- The handler looks for `/w/andex.html` and finds nothing. -/
theorem not_serves_shorter :
    ¬ ∀ (stat : List Byte → Stat) (memory served : Bool) (reserve len : ℕ)
      (root stem : List Byte) (behind : ℕ → ℕ → Unset) (directives : List (List (List Byte))),
      Serves stat memory reserve len
        ⟨stem ++ [ascii '/'], served, root, configured behind directives⟩ := by
  intro hall
  have hserves := hall onlyA true true 0 0 (nightString "/w") [] (fun _ _ => ⟨0, 0⟩)
    [[nightString "index.html", nightString "a"]]
  exact absurd hserves (by decide +kernel)

/-- The third name is redirected to with the length of the second when the copy has left
something in `lengths`. -/
example :
    (nightHttpIndexHandler
      (fun path => if path = nightString "/w/c.html" then .found else .failed enoent) true 0 0
      ⟨[ascii '/'], true, nightString "/w",
        configured (fun _ _ => ⟨1, 0⟩)
          [[nightString "a", nightString "b", nightString "c.html"]]⟩).1 =
      .redirect (nightString "/c") := by
  decide +kernel

end Night.Index
