import Mathlib.Data.List.Pairwise
import Night.Core.HashLayout

/-!
# What `night_hash_find` finds

A hash that `night_hash_init` built returns for every name the value that was stored
with it, and `NULL` for a name that was not stored.
-/

namespace Night.Hash

open Night.Bytes
open Night.Memory

/-- The names of one hash: distinct lowered keys with a value, hashed by `hash`. -/
structure Names (hash : List Byte → UInt64) where
  list : List HashKey
  distinct : (list.filterMap HashKey.data).Nodup
  lower : ∀ name ∈ list, ∀ data, name.data = some data → data.map nightTolower = data
  hashed : ∀ name ∈ list, ∀ data, name.data = some data → name.keyHash = hash data
  nonNull : ∀ name ∈ list, name.value ≠ 0

/-! ## The walk through a bucket -/

theorem decode_value (value : Pointer) : decode (encode 8 value.toNat) = value.toNat := by
  rw [decode_encode]
  exact Nat.mod_eq_of_lt value.toNat_lt

/-- The walk returns the value of the first entry with the name. -/
theorem walkBucket_spec {elts name : List Byte} {elt fuel : ℕ} {es : List Entry}
    (hes : EltsAt elts elt es) (hend : read elts (elt + used es) 8 = some (encode 8 0))
    (helt : elt % 8 = 0) (hfuel : es.length < fuel)
    (hlower : ∀ e ∈ es, e.1.map nightTolower = e.1) (hlen : ∀ e ∈ es, e.1.length < 2 ^ 16)
    (hvalue : ∀ e ∈ es, e.2 ≠ 0) :
    walkBucket elts name fuel elt =
      some (((es.find? fun e => e.1 = name).map Prod.snd).getD 0) := by
  induction es generalizing elt fuel with
  | nil =>
      cases fuel with
      | zero => simp at hfuel
      | succ fuel =>
          rw [used, Nat.add_zero] at hend
          rw [walkBucket, hend]
          rfl
  | cons e es ih =>
      obtain ⟨⟨hvalueRead, hlenRead, hnameRead⟩, hes⟩ := hes
      cases fuel with
      | zero => simp at hfuel
      | succ fuel =>
          rw [used, ← Nat.add_assoc] at hend
          have hmod := eltSize_mod e.1.length
          have hrest := ih hes hend (by omega) (by simpa using hfuel)
            (fun e he => hlower e (List.mem_cons_of_mem _ he))
            (fun e he => hlen e (List.mem_cons_of_mem _ he))
            (fun e he => hvalue e (List.mem_cons_of_mem _ he))
          have hnonNull : ¬ e.2.toNat = 0 := by
            intro hzero
            apply hvalue e (by simp)
            exact UInt64.toNat_inj.mp hzero
          have hdecode : decode (encode 2 e.1.length) = e.1.length := by
            rw [decode_encode]
            exact Nat.mod_eq_of_lt (hlen e (by simp))
          rw [hlower e (by simp)] at hnameRead
          rw [walkBucket, hvalueRead]
          simp only [Option.bind_eq_bind, Option.bind_some, decode_value, if_neg hnonNull,
            hlenRead, hdecode, nightAlign_next helt]
          by_cases hlength : name.length ≠ e.1.length
          · have hne : ¬ e.1 = name := fun heq => hlength (by rw [heq])
            rw [if_pos hlength, hrest, List.find?_cons_of_neg (by simpa using hne)]
          · rw [if_neg hlength, hnameRead, Option.bind_some]
            by_cases hname : name = e.1
            · rw [if_neg (by simpa using hname), List.find?_cons_of_pos (by simp [hname])]
              simp
            · have hne : ¬ e.1 = name := fun heq => hname heq.symm
              rw [if_pos hname, hrest, List.find?_cons_of_neg (by simpa using hne)]

/-! ## The block that was built -/

/-- Every bucket that has elements holds the entries of its names and a null value. -/
structure Packed (sizes : ℕ → ℕ) (names : List HashKey) (table : NightHash) : Prop where
  total : Sizes sizes table.size names
  buckets : table.buckets = (placeBuckets sizes table.size).1
  elts : ∀ i < table.size, EltsAt table.elts (offset sizes i) (entries table.size i names)
  ends : ∀ i < table.size, sizes i ≠ pointerSize →
    read table.elts (offset sizes i + used (entries table.size i names)) 8 =
      some (encode 8 0)

/-- The block that is allocated has room for everything that is written. -/
theorem exists_packed {sizes : ℕ → ℕ} {size : ℕ} {names : List HashKey} (hsize : 0 < size)
    (hsizes : Sizes sizes size names) :
    ∃ test elts elts', fillBuckets (placeBuckets sizes size).1 size names (fun _ => 0)
        (List.replicate (nightAlign (offset sizes size) 8) 0) = some (test, elts) ∧
      endBuckets (placeBuckets sizes size).1 test size elts = some elts' ∧
      Packed sizes names ⟨(placeBuckets sizes size).1, size, elts'⟩ := by
  have hfits : offset sizes size ≤
      (List.replicate (nightAlign (offset sizes size) 8) (0 : Byte)).length := by
    rw [List.length_replicate, nightAlign]
    omega
  have hempty : Filled sizes size [] (fun _ => 0)
      (List.replicate (nightAlign (offset sizes size) 8) 0) :=
    ⟨fun _ => rfl, fun _ _ => trivial⟩
  obtain ⟨test, elts, hfill, hlength, hfilled⟩ :=
    fillBuckets_spec hsize hsizes hempty hfits
  rw [← hlength] at hfits
  obtain ⟨elts', hends, -, hfilled', hread⟩ :=
    endBuckets_spec hsizes hfilled hfits (Nat.le_refl size)
  refine ⟨test, elts, elts', hfill, hends, hsizes, rfl, hfilled'.elts, ?_⟩
  intro i hi hnonempty
  have htest : test i = used (entries size i names) := hfilled.test i
  have hnull := hread i hi hnonempty
  rw [htest] at hnull
  exact hnull

theorem sizes_of_addUp {limit size : ℕ} {names : List HashKey}
    (hfits : Fits limit size names fun _ => pointerSize) {sizes : ℕ → ℕ}
    (hadd : addUp limit size names (fun _ => pointerSize) = some sizes) :
    Sizes sizes size names where
  eq i := (addUp_spec hfits hadd i).1
  small i := by
    obtain ⟨hsum, heq | hle⟩ := addUp_spec hfits hadd i
    · exact .inl heq
    rcases hfits with hlimit | hfew
    · exact .inr (by omega)
    · exact .inr (hsum ▸ hfew i)

/-- Building fails, builds a packed hash, or needs a size that does not fit `size_t`; it
never leaves the block. -/
theorem buildSize_cases {process : Process} (hinit : HashInit) {names : List HashKey}
    {size : ℕ} (hfits : Fits process.pageSize size names fun _ => pointerSize)
    (hsize : 0 < size) :
    buildSize process hinit names size = some .error ∨
      (∃ sizes table, buildSize process hinit names size = some (.ok table) ∧
        Packed sizes names table ∧ table.size = size) ∨
      (buildSize process hinit names size = none ∧
        (2 ^ 64 ≤ wildcardSize + size * pointerSize ∨
          ∃ sizes, Sizes sizes size names ∧ 2 ^ 64 ≤ offset sizes size)) := by
  rw [buildSize]
  cases hadd : addUp process.pageSize size names (fun _ => pointerSize) with
  | none => exact .inl rfl
  | some sizes =>
      have hsizes := sizes_of_addUp hfits hadd
      obtain ⟨test, elts, elts', hfill, hends, hpacked⟩ := exists_packed hsize hsizes
      simp only [alignBuckets_eq hsizes.mod hsizes.small]
      by_cases hlen : offset sizes size < 2 ^ 64
      · rw [sizeT, if_pos hlen]
        generalize htotal : (if hinit.hash then 0 else wildcardSize) + size * pointerSize = bytes
        by_cases hbytes : bytes < 2 ^ 64
        · rw [sizeT, if_pos hbytes]
          simp only [Option.bind_eq_bind, Option.bind_some, hfill, hends]
          split
          · exact .inl rfl
          split
          · exact .inl rfl
          · exact .inr (.inl ⟨sizes, _, rfl, hpacked, rfl⟩)
        · rw [sizeT, if_neg hbytes]
          refine .inr (.inr ⟨rfl, .inl ?_⟩)
          split at htotal <;> omega
      · rw [sizeT, if_neg hlen]
        exact .inr (.inr ⟨rfl, .inr ⟨sizes, hsizes, by omega⟩⟩)

theorem trySizes_pos {testBytes maxSize bucketSize : ℕ} {names : List HashKey}
    (hmax : 0 < maxSize) {tries start size : ℕ} (hstart : 0 < start)
    (hrun : trySizes testBytes maxSize bucketSize names tries start = some size) :
    0 < size := by
  induction tries generalizing start with
  | zero =>
      rw [trySizes] at hrun
      split at hrun
      · cases hrun
      · rw [← Option.some.inj hrun]
        exact hmax
  | succ tries ih =>
      rw [trySizes] at hrun
      split at hrun
      · cases hrun
      split at hrun
      · rw [← Option.some.inj hrun]
        exact hstart
      · exact ih (Nat.succ_pos start) hrun

theorem packed_of_nightHashInit {process : Process} {hinit : HashInit}
    {names : List HashKey} {table : NightHash}
    (hfits : ∀ size, Fits process.pageSize size names fun _ => pointerSize)
    (hrun : nightHashInit process hinit names = some (.ok table)) :
    ∃ sizes, Packed sizes names table ∧ 0 < table.size := by
  rw [nightHashInit] at hrun
  split at hrun
  · cases hrun
  rename_i hmax
  split at hrun
  · cases hrun
  split at hrun
  · cases hrun
  dsimp only at hrun
  split at hrun
  · cases hrun
  split at hrun
  · cases hrun
  obtain ⟨size, htry, hbuild⟩ := Option.bind_eq_some_iff.mp hrun
  have hsize : 0 < size := by
    apply trySizes_pos (Nat.pos_of_ne_zero hmax) _ htry
    split
    · exact Nat.one_pos
    · exact Nat.pos_of_ne_zero ‹_›
  rcases buildSize_cases hinit (hfits size) hsize with herror | ⟨sizes, table', hok, hpacked, heq⟩ |
    ⟨hnone, -⟩
  · rw [herror] at hbuild
    cases hbuild
  · rw [hok] at hbuild
    have htable : table' = table := Built.ok.inj (Option.some.inj hbuild)
    exact ⟨sizes, htable ▸ hpacked, by rw [← htable, heq]; exact hsize⟩
  · rw [hnone] at hbuild
    cases hbuild

/-! ## Lookups -/

theorem mem_entries {size i : ℕ} {names : List HashKey} {e : Entry} :
    e ∈ entries size i names ↔
      ∃ name ∈ names, name.keyHash.toNat % size = i ∧ name.data = some e.1 ∧
        name.value = e.2 := by
  rw [entries, List.mem_filterMap]
  constructor
  · rintro ⟨name, hmem, hname⟩
    split at hname
    · rename_i hi
      obtain ⟨data, hdata, heq⟩ := Option.map_eq_some_iff.mp hname
      exact ⟨name, hmem, hi, by rw [hdata, ← heq], by rw [← heq]⟩
    · cases hname
  · rintro ⟨name, hmem, hi, hdata, hvalue⟩
    refine ⟨name, hmem, ?_⟩
    rw [if_pos hi, hdata, Option.map_some, hvalue]

/-- The lengths fit into their two bytes: an element is no larger than its bucket. -/
theorem length_lt_of_mem {sizes : ℕ → ℕ} {size i : ℕ} {names : List HashKey}
    (hsizes : Sizes sizes size names) {e : Entry} (he : e ∈ entries size i names) :
    e.1.length < 2 ^ 16 := by
  have hused : ∀ es : List Entry, e ∈ es → e.1.length < used es := by
    intro es hmem
    induction es with
    | nil => cases hmem
    | cons first es ih =>
        have hfirst := le_eltSize first.1.length
        rw [used]
        rcases List.mem_cons.mp hmem with heq | hmem
        · rw [heq]
          omega
        · have hrest := ih hmem
          omega
  have hlt := hused _ he
  have heq := hsizes.eq i
  rcases hsizes.small i with hempty | hsmall <;> omega

/-- The search in the bucket of `key` gives the first entry of the name. -/
theorem nightHashFind_eq {hash : List Byte → UInt64} {names : Names hash}
    {sizes : ℕ → ℕ} {table : NightHash} (hpacked : Packed sizes names.list table)
    (hsize : 0 < table.size) (key : UInt64) (name : List Byte) :
    nightHashFind table key name = some
      ((((entries table.size (key.toNat % table.size) names.list).find?
        fun e => e.1 = name).map Prod.snd).getD 0) := by
  have hlt : key.toNat % table.size < table.size := Nat.mod_lt _ hsize
  rw [nightHashFind, hpacked.buckets, placeBuckets_eq]
  generalize key.toNat % table.size = i at *
  by_cases hempty : sizes i = pointerSize
  · have hnone : entries table.size i names.list = [] := by
      have heq := hpacked.total.eq i
      exact used_eq_zero (by omega)
    rw [if_neg (by simp [hempty]), hnone]
    rfl
  · rw [if_pos ⟨hlt, hempty⟩]
    have hends := hpacked.ends i hlt hempty
    apply walkBucket_spec (hpacked.elts i hlt) hends (offset_mod hpacked.total.mod i)
    · have hlength := length_le_used (entries table.size i names.list)
      have hinside := read_eq_some hends
      omega
    · intro e he
      obtain ⟨n, hmem, -, hdata, -⟩ := mem_entries.mp he
      exact names.lower n hmem e.1 hdata
    · intro e he
      exact length_lt_of_mem hpacked.total he
    · intro e he
      obtain ⟨n, hmem, -, -, hvalue⟩ := mem_entries.mp he
      rw [← hvalue]
      exact names.nonNull n hmem

theorem Names.eq_of_data {hash : List Byte → UInt64} (names : Names hash) {m n : HashKey}
    (hm : m ∈ names.list) (hn : n ∈ names.list) {name : List Byte}
    (hmData : m.data = some name) (hnData : n.data = some name) : m = n := by
  by_contra hne
  have hsymm : Std.Symm fun m n : HashKey => ¬ (m.data = some name ∧ n.data = some name) :=
    ⟨fun _ _ hnot hboth => hnot ⟨hboth.2, hboth.1⟩⟩
  have hpairs : names.list.Pairwise fun m n => ¬ (m.data = some name ∧ n.data = some name) := by
    apply (List.pairwise_filterMap.mp names.distinct).imp
    intro m n hnot hboth
    exact hnot name hboth.1 name hboth.2 rfl
  exact hpairs.forall hm hn hne ⟨hmData, hnData⟩

theorem nightHashFind_built {process : Process} {hinit : HashInit}
    {hash : List Byte → UInt64} {names : Names hash} {table : NightHash}
    (hfits : ∀ size, Fits process.pageSize size names.list fun _ => pointerSize)
    (hrun : nightHashInit process hinit names.list = some (.ok table)) :
    (∀ n ∈ names.list, ∀ name, n.data = some name →
      nightHashFind table (hash name) name = some n.value) ∧
    ∀ key name, (∀ n ∈ names.list, n.data ≠ some name) →
      nightHashFind table key name = some 0 := by
  obtain ⟨sizes, hpacked, hsize⟩ := packed_of_nightHashInit hfits hrun
  constructor
  · intro n hn name hdata
    rw [nightHashFind_eq hpacked hsize]
    have hmem : (name, n.value) ∈
        entries table.size ((hash name).toNat % table.size) names.list :=
      mem_entries.mpr ⟨n, hn, by rw [names.hashed n hn name hdata], hdata, rfl⟩
    cases hfound : (entries table.size ((hash name).toNat % table.size) names.list).find?
        fun e => e.1 = name with
    | none =>
        have hnot := List.find?_eq_none.mp hfound (name, n.value) hmem
        simp at hnot
    | some e =>
        have hname : e.1 = name := by simpa using List.find?_some hfound
        obtain ⟨m, hm, -, hmData, hvalue⟩ := mem_entries.mp (List.mem_of_find?_eq_some hfound)
        rw [hname] at hmData
        rw [names.eq_of_data hn hm hdata hmData, hvalue]
        rfl
  · intro key name habsent
    rw [nightHashFind_eq hpacked hsize]
    have hnone : (entries table.size (key.toNat % table.size) names.list).find?
        (fun e => e.1 = name) = none := by
      apply List.find?_eq_none.mpr
      intro e he
      obtain ⟨n, hn, -, hdata, -⟩ := mem_entries.mp he
      have hne : e.1 ≠ name := fun heq => habsent n hn (heq ▸ hdata)
      simpa using hne
    rw [hnone]
    rfl

/-- A hash that was built without an error finds what was stored and nothing else. -/
theorem nightHashFind_stored {process : Process} (hpage : process.pageSize < 2 ^ 16)
    {hinit : HashInit} {hash : List Byte → UInt64} {names : Names hash} {table : NightHash}
    (hrun : nightHashInit process hinit names.list = some (.ok table)) :
    (∀ n ∈ names.list, ∀ name, n.data = some name →
      nightHashFind table (hash name) name = some n.value) ∧
    ∀ name, (∀ n ∈ names.list, n.data ≠ some name) →
      nightHashFind table (hash name) name = some 0 := by
  obtain ⟨hstored, habsent⟩ := nightHashFind_built (fun _ => .inl hpage) hrun
  exact ⟨hstored, fun name => habsent (hash name) name⟩

/-- Names that fit one bucket fit the buckets of any hash. -/
theorem used_entries_le (size i : ℕ) (names : List HashKey) :
    used (entries size i names) ≤ used (entries 1 0 names) := by
  induction names with
  | nil => exact Nat.le_refl _
  | cons name names ih =>
      have hone : used (entries size i [name]) ≤ used (entries 1 0 [name]) := by
        cases hdata : name.data with
        | none => simp only [entries_null hdata, used, Nat.zero_le]
        | some data =>
            have hzero : entries 1 0 [name] = [(data, name.value)] := by
              rw [← entries_same hdata, Nat.mod_one]
            rw [hzero]
            by_cases hi : i = name.keyHash.toNat % size
            · exact Nat.le_of_eq (congrArg used (hi ▸ entries_same hdata))
            · rw [entries_other hi]
              exact Nat.zero_le _
      rw [used_entries_cons size i name names, used_entries_cons 1 0 name names]
      exact Nat.add_le_add hone ih

theorem fits_of_used {names : List HashKey}
    (hused : pointerSize + used (entries 1 0 names) < 2 ^ 16) (limit size : ℕ) :
    Fits limit size names fun _ => pointerSize := by
  refine .inr fun i => ?_
  show pointerSize + _ < _
  have hle := used_entries_le size i names
  omega

/-! ## Keys that are not lowered -/

theorem nightTolower_idem (ch : Byte) : nightTolower (nightTolower ch) = nightTolower ch := by
  revert ch
  decide +kernel

/-- Two names that differ in the case of letters have one hash. -/
theorem nightHashKeyLc_lowered (name : List Byte) :
    nightHashKeyLc (name.map nightTolower) = nightHashKeyLc name := by
  rw [nightHashKeyLc, nightHashKeyLc, List.foldl_map]
  simp only [nightTolower_idem]

/-- The key as it is stored. -/
def HashKey.lowered (name : HashKey) : HashKey :=
  { name with data := name.data.map fun data => data.map nightTolower }

theorem addUp_lowered (limit size : ℕ) (names : List HashKey) (test : ℕ → ℕ) :
    addUp limit size (names.map HashKey.lowered) test = addUp limit size names test := by
  induction names generalizing test with
  | nil => rfl
  | cons name names ih =>
      obtain ⟨data, keyHash, value⟩ := name
      cases data with
      | none => simpa [addUp, HashKey.lowered] using ih test
      | some data => simp [addUp, HashKey.lowered, ih]

theorem trySizes_lowered (testBytes maxSize bucketSize : ℕ) (names : List HashKey)
    (tries start : ℕ) :
    trySizes testBytes maxSize bucketSize (names.map HashKey.lowered) tries start =
      trySizes testBytes maxSize bucketSize names tries start := by
  induction tries generalizing start with
  | zero => rfl
  | succ tries ih => rw [trySizes, trySizes, addUp_lowered, ih]

theorem writeElt_lowered (elts : List Byte) (elt : ℕ) (value : Pointer) (data : List Byte) :
    writeElt elts elt value (data.map nightTolower) = writeElt elts elt value data := by
  have hmap : (data.map nightTolower).map nightTolower = data.map nightTolower := by
    simp [nightTolower_idem]
  rw [writeElt, writeElt, hmap, List.length_map]

theorem fillBuckets_lowered (buckets : ℕ → Option ℕ) (size : ℕ) (names : List HashKey)
    (test : ℕ → ℕ) (elts : List Byte) :
    fillBuckets buckets size (names.map HashKey.lowered) test elts =
      fillBuckets buckets size names test elts := by
  induction names generalizing test elts with
  | nil => rfl
  | cons name names ih =>
      obtain ⟨data, keyHash, value⟩ := name
      cases data with
      | none => simpa [fillBuckets, HashKey.lowered] using ih test elts
      | some data => simp [fillBuckets, HashKey.lowered, ih, writeElt_lowered]

theorem buildSize_lowered (process : Process) (hinit : HashInit) (names : List HashKey)
    (size : ℕ) :
    buildSize process hinit (names.map HashKey.lowered) size =
      buildSize process hinit names size := by
  rw [buildSize, buildSize, addUp_lowered]
  simp only [fillBuckets_lowered]

/-- `night_hash_init` lowers the keys itself. -/
theorem nightHashInit_lowered (process : Process) (hinit : HashInit) (names : List HashKey) :
    nightHashInit process hinit (names.map HashKey.lowered) =
      nightHashInit process hinit names := by
  have htoo : (∃ name ∈ names.map HashKey.lowered, ∃ data ∈ name.data,
      hinit.bucketSize < eltSize data.length + pointerSize) ↔
      ∃ name ∈ names, ∃ data ∈ name.data,
        hinit.bucketSize < eltSize data.length + pointerSize := by
    simp [HashKey.lowered]
  rw [nightHashInit, nightHashInit, List.length_map]
  simp only [htoo, trySizes_lowered, buildSize_lowered]

/-- The keys `a` and `bb`. -/
def twoNames : Names nightHashKeyLc where
  list := [⟨some [0x61#8], nightHashKeyLc [0x61#8], 7⟩,
    ⟨some [0x62#8, 0x62#8], nightHashKeyLc [0x62#8, 0x62#8], 9⟩]
  distinct := by decide
  lower := by decide
  hashed := by decide
  nonNull := by decide

theorem nightHashFind_twoNames :
    ∃ table, nightHashInit ⟨4096, fun _ => true⟩ ⟨true, 4, 64⟩ twoNames.list = some (.ok table) ∧
      nightHashFind table (nightHashKeyLc [0x62#8, 0x62#8]) [0x62#8, 0x62#8] = some 9 ∧
      nightHashFind table (nightHashKeyLc [0x63#8]) [0x63#8] = some 0 := by
  obtain ⟨table, hrun⟩ : ∃ table, nightHashInit ⟨4096, fun _ => true⟩ ⟨true, 4, 64⟩
      twoNames.list = some (.ok table) := ⟨_, rfl⟩
  obtain ⟨hstored, habsent⟩ := nightHashFind_stored (by decide) hrun
  refine ⟨table, hrun, ?_, ?_⟩
  · exact hstored _ (List.mem_cons_of_mem _ List.mem_cons_self) _ rfl
  · exact habsent _ (by decide)

end Night.Hash
