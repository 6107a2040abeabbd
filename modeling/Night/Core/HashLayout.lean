import Night.Core.Hash

/-!
# The layout of a hash

After the passes over the names every bucket holds its elements one behind the other
and ends with a null value.  The sizes of `NIGHT_HASH_ELT_SIZE` that the passes add up
are the distances that `night_hash_find` computes again.
-/

namespace Night.Hash

open Night.Bytes
open Night.Memory

/-! ## Sizes -/

/-- A key and its value. -/
abbrev Entry := List Byte × Pointer

/-- The entries that go into bucket `i`, in the order of the names. -/
def entries (size i : ℕ) (names : List HashKey) : List Entry :=
  names.filterMap fun name =>
    if name.keyHash.toNat % size = i then name.data.map fun data => (data, name.value)
    else none

theorem entries_append (size i : ℕ) (left right : List HashKey) :
    entries size i (left ++ right) = entries size i left ++ entries size i right :=
  List.filterMap_append

theorem entries_null {size i : ℕ} {name : HashKey} (hdata : name.data = none) :
    entries size i [name] = [] := by
  simp [entries, hdata]

theorem entries_same {size : ℕ} {name : HashKey} {data : List Byte}
    (hdata : name.data = some data) :
    entries size (name.keyHash.toNat % size) [name] = [(data, name.value)] := by
  simp [entries, hdata]

theorem entries_other {size i : ℕ} {name : HashKey} (hi : i ≠ name.keyHash.toNat % size) :
    entries size i [name] = [] := by
  simp [entries, hi.symm]

/-- The bytes that the elements take. -/
def used : List Entry → ℕ
  | [] => 0
  | e :: es => eltSize e.1.length + used es

theorem used_append (left right : List Entry) :
    used (left ++ right) = used left + used right := by
  induction left with
  | nil => rw [List.nil_append, used, Nat.zero_add]
  | cons e left ih => rw [List.cons_append, used, used, ih, Nat.add_assoc]

theorem used_entries_cons (size i : ℕ) (name : HashKey) (names : List HashKey) :
    used (entries size i (name :: names)) =
      used (entries size i [name]) + used (entries size i names) := by
  rw [← used_append, ← entries_append, List.singleton_append]

theorem eltSize_mod (len : ℕ) : eltSize len % 8 = 0 := by
  rw [eltSize, nightAlign, pointerSize]
  omega

theorem le_eltSize (len : ℕ) : len + 10 ≤ eltSize len := by
  rw [eltSize, nightAlign, pointerSize]
  omega

/-- The distance that `night_hash_find` computes. -/
theorem nightAlign_next {elt : ℕ} (helt : elt % 8 = 0) (len : ℕ) :
    nightAlign (elt + 10 + len) pointerSize = elt + eltSize len := by
  rw [eltSize, nightAlign, nightAlign, pointerSize]
  omega

theorem used_mod (es : List Entry) : used es % 8 = 0 := by
  induction es with
  | nil => rfl
  | cons e es ih =>
      have hfirst := eltSize_mod e.1.length
      rw [used]
      omega

theorem length_le_used (es : List Entry) : es.length ≤ used es := by
  induction es with
  | nil => exact Nat.le_refl 0
  | cons e es ih =>
      have hfirst := le_eltSize e.1.length
      rw [used, List.length_cons]
      omega

theorem used_eq_zero {es : List Entry} (hused : used es = 0) : es = [] := by
  have hlength := length_le_used es
  exact List.length_eq_zero_iff.mp (by omega)

/-- No sum over the elements of a bucket is cut to its 16 bits: the limit is smaller, or
the elements are few. -/
def Fits (limit size : ℕ) (names : List HashKey) (test : ℕ → ℕ) : Prop :=
  limit < 2 ^ 16 ∨ ∀ i, test i + used (entries size i names) < 2 ^ 16

/-- Adding up gives every bucket the size of its elements, without truncation. -/
theorem addUp_spec {limit size : ℕ} {names : List HashKey} {test test' : ℕ → ℕ}
    (hfits : Fits limit size names test) (hrun : addUp limit size names test = some test')
    (i : ℕ) :
    test' i = test i + used (entries size i names) ∧ (test' i = test i ∨ test' i ≤ limit) := by
  induction names generalizing test with
  | nil =>
      rw [← Option.some.inj hrun]
      exact ⟨rfl, .inl rfl⟩
  | cons name names ih =>
      rw [addUp] at hrun
      simp only [Fits, used_entries_cons size _ name names] at hfits ⊢
      cases hdata : name.data with
      | none =>
          rw [hdata] at hrun
          simp only [entries_null hdata, used, Nat.zero_add] at hfits ⊢
          exact ih hfits hrun
      | some data =>
          simp only [hdata] at hrun
          generalize hkey : name.keyHash.toNat % size = key at hrun
          have hsame : used (entries size key [name]) = eltSize data.length := by
            rw [← hkey, entries_same hdata]
            rfl
          have hother : ∀ j, j ≠ key → used (entries size j [name]) = 0 := by
            intro j hj
            rw [entries_other (hkey ▸ hj)]
            rfl
          by_cases hlen : test key + eltSize data.length > limit
          · rw [if_pos hlen] at hrun
            cases hrun
          · rw [if_neg hlen] at hrun
            have hsmall : uint16 (test key + eltSize data.length) =
                test key + eltSize data.length := by
              apply Nat.mod_eq_of_lt
              rcases hfits with hlimit | hfew
              · omega
              · have hkeyFew := hfew key
                omega
            rw [hsmall] at hrun
            have hrest : Fits limit size names
                (Function.update test key (test key + eltSize data.length)) := by
              refine hfits.imp_right fun hfew j => ?_
              have hj := hfew j
              by_cases hjKey : j = key
              · subst hjKey
                rw [Function.update_self]
                omega
              · rw [Function.update_of_ne hjKey]
                omega
            obtain ⟨hsum, hle⟩ := ih hrest hrun
            by_cases hi : i = key
            · subst hi
              rw [Function.update_self] at hsum hle
              omega
            · rw [Function.update_of_ne hi] at hsum hle
              rw [hother i hi, Nat.zero_add]
              exact ⟨hsum, hle⟩

/-! ## Places -/

/-- Where bucket `i` starts, when `test` has the sizes of the buckets. -/
def offset (test : ℕ → ℕ) (i : ℕ) : ℕ := (placeBuckets test i).2

theorem offset_succ {test : ℕ → ℕ} {i : ℕ} (hi : test i ≠ pointerSize) :
    offset test (i + 1) = offset test i + test i := by
  rw [offset, placeBuckets, if_neg hi]
  rfl

theorem offset_succ_empty {test : ℕ → ℕ} {i : ℕ} (hi : test i = pointerSize) :
    offset test (i + 1) = offset test i := by
  rw [offset, placeBuckets, if_pos hi]
  rfl

theorem offset_le {test : ℕ → ℕ} {i j : ℕ} (hij : i ≤ j) : offset test i ≤ offset test j := by
  induction j with
  | zero =>
      exact Nat.le_of_eq (congrArg (offset test) (Nat.le_zero.mp hij))
  | succ j ih =>
      rcases Nat.eq_or_lt_of_le hij with heq | hlt
      · exact Nat.le_of_eq (congrArg (offset test) heq)
      · have hbefore := ih (Nat.le_of_lt_succ hlt)
        by_cases hj : test j = pointerSize
        · rw [offset_succ_empty hj]
          exact hbefore
        · rw [offset_succ hj]
          omega

/-- A bucket with elements ends where a later one starts, or before. -/
theorem offset_add_le {test : ℕ → ℕ} {i j : ℕ} (hi : test i ≠ pointerSize) (hij : i < j) :
    offset test i + test i ≤ offset test j := by
  rw [← offset_succ hi]
  exact offset_le hij

theorem offset_mod {test : ℕ → ℕ} (htest : ∀ i, test i % 8 = 0) (i : ℕ) :
    offset test i % 8 = 0 := by
  induction i with
  | zero => rfl
  | succ i ih =>
      have hi := htest i
      by_cases hempty : test i = pointerSize
      · rw [offset_succ_empty hempty]
        exact ih
      · rw [offset_succ hempty]
        omega

theorem placeBuckets_eq (test : ℕ → ℕ) (size i : ℕ) :
    (placeBuckets test size).1 i =
      if i < size ∧ test i ≠ pointerSize then some (offset test i) else none := by
  induction size with
  | zero => simp [placeBuckets]
  | succ size ih =>
      rw [placeBuckets]
      by_cases hempty : test size = pointerSize
      · rw [if_pos hempty, ih]
        by_cases hi : i = size
        · simp [hi, hempty]
        · have hlt : i < size ↔ i < size + 1 := by omega
          simp only [hlt]
      · rw [if_neg hempty]
        by_cases hi : i = size
        · simp [hi, hempty, offset]
        · have hlt : i < size ↔ i < size + 1 := by omega
          simp only [Function.update_of_ne hi, ih, hlt]

/-- Sizes that are multiples of eight stay as they are. -/
theorem alignBuckets_eq {test : ℕ → ℕ} (htest : ∀ i, test i % 8 = 0)
    (hsmall : ∀ i, test i = pointerSize ∨ test i < 2 ^ 16) (size : ℕ) :
    alignBuckets test size = (offset test size, test) := by
  induction size with
  | zero => rfl
  | succ size ih =>
      rw [alignBuckets, ih]
      by_cases hempty : test size = pointerSize
      · rw [if_pos hempty, offset_succ_empty hempty]
      · have hlt := (hsmall size).resolve_left hempty
        have hmod := htest size
        have haligned : uint16 (nightAlign (test size) 8) = test size := by
          rw [uint16, nightAlign]
          omega
        rw [if_neg hempty, offset_succ hempty]
        simp only [haligned, Function.update_eq_self]

/-! ## Elements in memory -/

/-- The element at `elt` is the entry. -/
structure EltAt (elts : List Byte) (elt : ℕ) (e : Entry) : Prop where
  value : read elts elt 8 = some (encode 8 e.2.toNat)
  len : read elts (elt + 8) 2 = some (encode 2 e.1.length)
  name : read elts (elt + 10) e.1.length = some (e.1.map nightTolower)

/-- The elements from `elt` on are the entries. -/
def EltsAt (elts : List Byte) : ℕ → List Entry → Prop
  | _, [] => True
  | elt, e :: es => EltAt elts elt e ∧ EltsAt elts (elt + eltSize e.1.length) es

theorem EltsAt.append {elts : List Byte} {elt : ℕ} {es : List Entry} {e : Entry}
    (hes : EltsAt elts elt es) (he : EltAt elts (elt + used es) e) :
    EltsAt elts elt (es ++ [e]) := by
  induction es generalizing elt with
  | nil => exact ⟨he, trivial⟩
  | cons first es ih =>
      rw [used, ← Nat.add_assoc] at he
      exact ⟨hes.1, ih hes.2 he⟩

/-- Elements depend on the bytes they take only. -/
theorem EltsAt.congr {elts elts' : List Byte} {elt : ℕ} {es : List Entry}
    (hes : EltsAt elts elt es)
    (hagree : ∀ start count, elt ≤ start → start + count ≤ elt + used es →
      read elts' start count = read elts start count) : EltsAt elts' elt es := by
  induction es generalizing elt with
  | nil => trivial
  | cons e es ih =>
      obtain ⟨he, hes⟩ := hes
      have hle := le_eltSize e.1.length
      rw [used] at hagree
      refine ⟨⟨?_, ?_, ?_⟩, ?_⟩
      · rw [hagree elt 8 (by omega) (by omega)]
        exact he.value
      · rw [hagree (elt + 8) 2 (by omega) (by omega)]
        exact he.len
      · rw [hagree (elt + 10) e.1.length (by omega) (by omega)]
        exact he.name
      · apply ih hes
        intro start count hstart hend
        exact hagree start count (by omega) (by omega)

theorem writeElt_spec {elts : List Byte} {elt : ℕ} {data : List Byte} (value : Pointer)
    (hfits : elt + eltSize data.length ≤ elts.length) :
    ∃ elts', writeElt elts elt value data = some elts' ∧ elts'.length = elts.length ∧
      EltAt elts' elt (data, value) ∧
      ∀ start count, start + count ≤ elt ∨ elt + eltSize data.length ≤ start →
        read elts' start count = read elts start count := by
  have hle := le_eltSize data.length
  obtain ⟨elts₁, hvalue⟩ : ∃ elts₁, write elts elt (encode 8 value.toNat) = some elts₁ :=
    write_isSome (by rw [encode_length]; omega)
  have hlength₁ := write_length hvalue
  obtain ⟨elts₂, hlen⟩ : ∃ elts₂, write elts₁ (elt + 8) (encode 2 data.length) = some elts₂ :=
    write_isSome (by rw [encode_length]; omega)
  have hlength₂ := write_length hlen
  obtain ⟨elts₃, hname⟩ : ∃ elts₃, write elts₂ (elt + 10) (data.map nightTolower) = some elts₃ :=
    write_isSome (by rw [List.length_map]; omega)
  have hlength₃ := write_length hname
  have hvalueRead : read elts₁ elt 8 = some (encode 8 value.toNat) := by
    simpa only [encode_length] using read_write hvalue
  have hlenRead : read elts₂ (elt + 8) 2 = some (encode 2 data.length) := by
    simpa only [encode_length] using read_write hlen
  have hnameRead : read elts₃ (elt + 10) data.length = some (data.map nightTolower) := by
    simpa only [List.length_map] using read_write hname
  refine ⟨elts₃, ?_, by rw [hlength₃, hlength₂, hlength₁], ⟨?_, ?_, hnameRead⟩, ?_⟩
  · rw [writeElt, hvalue]
    show (do let elts ← write elts₁ (elt + 8) _; write elts (elt + 10) _) = _
    rw [hlen]
    exact hname
  · calc read elts₃ elt 8
        _ = read elts₂ elt 8 := read_write_of_disjoint hname (.inl (by omega))
        _ = read elts₁ elt 8 := read_write_of_disjoint hlen (.inl (by omega))
        _ = some (encode 8 value.toNat) := hvalueRead
  · calc read elts₃ (elt + 8) 2
        _ = read elts₂ (elt + 8) 2 := read_write_of_disjoint hname (.inl (by omega))
        _ = some (encode 2 data.length) := hlenRead
  · intro start count hdisjoint
    calc read elts₃ start count
        _ = read elts₂ start count := by
          apply read_write_of_disjoint hname
          rw [List.length_map]
          omega
        _ = read elts₁ start count := by
          apply read_write_of_disjoint hlen
          rw [encode_length]
          omega
        _ = read elts start count := by
          apply read_write_of_disjoint hvalue
          rw [encode_length]
          omega

/-! ## Filling -/

/-- The sizes of the buckets for all names, as `found` computes them. -/
structure Sizes (sizes : ℕ → ℕ) (size : ℕ) (names : List HashKey) : Prop where
  eq : ∀ i, sizes i = pointerSize + used (entries size i names)
  small : ∀ i, sizes i = pointerSize ∨ sizes i < 2 ^ 16

theorem Sizes.mod {sizes : ℕ → ℕ} {size : ℕ} {names : List HashKey}
    (hsizes : Sizes sizes size names) (i : ℕ) : sizes i % 8 = 0 := by
  have hused := used_mod (entries size i names)
  rw [hsizes.eq, pointerSize]
  omega

/-- The block while the names are worked off: every bucket has the entries of `done`. -/
structure Filled (sizes : ℕ → ℕ) (size : ℕ) (done : List HashKey) (test : ℕ → ℕ)
    (elts : List Byte) : Prop where
  test : ∀ i, test i = used (entries size i done)
  elts : ∀ i < size, EltsAt elts (offset sizes i) (entries size i done)

/-- The buckets do not overlap. -/
theorem offset_disjoint {sizes : ℕ → ℕ} {i j : ℕ} (hij : i ≠ j)
    (hi : sizes i ≠ pointerSize) (hj : sizes j ≠ pointerSize) :
    offset sizes i + sizes i ≤ offset sizes j ∨ offset sizes j + sizes j ≤ offset sizes i := by
  rcases Nat.lt_or_gt_of_ne hij with hlt | hgt
  · exact .inl (offset_add_le hi hlt)
  · exact .inr (offset_add_le hj hgt)

/-- Every name goes behind those that its bucket has already, and nothing is
overwritten. -/
theorem fillBuckets_spec {sizes test : ℕ → ℕ} {size : ℕ} {done names : List HashKey}
    {elts : List Byte} (hsize : 0 < size) (hsizes : Sizes sizes size (done ++ names))
    (hfilled : Filled sizes size done test elts) (hfits : offset sizes size ≤ elts.length) :
    ∃ test' elts', fillBuckets (placeBuckets sizes size).1 size names test elts =
        some (test', elts') ∧ elts'.length = elts.length ∧
      Filled sizes size (done ++ names) test' elts' := by
  induction names generalizing done test elts with
  | nil =>
      rw [List.append_nil]
      exact ⟨test, elts, rfl, rfl, hfilled⟩
  | cons name names ih =>
      rw [← List.singleton_append, ← List.append_assoc] at hsizes ⊢
      rw [List.singleton_append, fillBuckets]
      cases hdata : name.data with
      | none =>
          have hsame (i : ℕ) : entries size i (done ++ [name]) = entries size i done := by
            rw [entries_append, entries_null hdata, List.append_nil]
          apply ih hsizes ⟨?_, ?_⟩ hfits
          · intro i
            rw [hsame]
            exact hfilled.test i
          · intro i hi
            rw [hsame]
            exact hfilled.elts i hi
      | some data =>
          simp only
          have hkeyLt : name.keyHash.toNat % size < size := Nat.mod_lt _ hsize
          have hsame : entries size (name.keyHash.toNat % size) (done ++ [name]) =
              entries size (name.keyHash.toNat % size) done ++ [(data, name.value)] := by
            rw [entries_append, entries_same hdata]
          have hother : ∀ i, i ≠ name.keyHash.toNat % size →
              entries size i (done ++ [name]) = entries size i done := by
            intro i hi
            rw [entries_append, entries_other hi, List.append_nil]
          generalize name.keyHash.toNat % size = key at *
          have hkey := hsizes.eq key
          rw [entries_append, hsame, used_append, used_append] at hkey
          have hone : used [(data, name.value)] = eltSize data.length := rfl
          rw [hone] at hkey
          have hpos := le_eltSize data.length
          have hnonempty : sizes key ≠ pointerSize := by omega
          have htest := hfilled.test key
          have hend := offset_add_le hnonempty hkeyLt
          rw [placeBuckets_eq, if_pos ⟨hkeyLt, hnonempty⟩, Option.bind_eq_bind, Option.bind_some]
          have hroom : offset sizes key + test key + eltSize data.length ≤ elts.length := by
            omega
          obtain ⟨elts₁, hwrite, hlength, helt, hframe⟩ := writeElt_spec name.value hroom
          have hsmall : uint16 (test key + eltSize data.length) =
              test key + eltSize data.length := by
            have hlt := (hsizes.small key).resolve_left hnonempty
            exact Nat.mod_eq_of_lt (by omega)
          have hfilled₁ : Filled sizes size (done ++ [name])
              (Function.update test key (test key + eltSize data.length)) elts₁ := by
            constructor
            · intro i
              by_cases hi : i = key
              · rw [hi, Function.update_self, hsame, used_append, htest, hone]
              · rw [Function.update_of_ne hi, hother i hi, hfilled.test]
            · intro i hlt
              by_cases hi : i = key
              · rw [hi, hsame]
                apply EltsAt.append
                · apply (hfilled.elts key hkeyLt).congr
                  intro start count hstart hstop
                  exact hframe start count (.inl (by omega))
                · rw [← htest]
                  exact helt
              · rw [hother i hi]
                have hi' := hsizes.eq i
                rw [entries_append, hother i hi, used_append] at hi'
                by_cases hempty : sizes i = pointerSize
                · have hnone : used (entries size i done) = 0 := by omega
                  rw [used_eq_zero hnone]
                  trivial
                · apply (hfilled.elts i hlt).congr
                  intro start count hstart hstop
                  apply hframe
                  have hdisjoint := offset_disjoint hi hempty hnonempty
                  omega
          rw [← hlength] at hfits
          obtain ⟨test', elts', hfill, hlength', hfilled'⟩ := ih hsizes hfilled₁ hfits
          refine ⟨test', elts', ?_, hlength'.trans hlength, hfilled'⟩
          rw [hwrite, hsmall]
          exact hfill

/-- The null values go behind the elements of their buckets. -/
theorem endBuckets_spec {sizes test : ℕ → ℕ} {size : ℕ} {names : List HashKey}
    {elts : List Byte} (hsizes : Sizes sizes size names)
    (hfilled : Filled sizes size names test elts) (hfits : offset sizes size ≤ elts.length)
    {n : ℕ} (hn : n ≤ size) :
    ∃ elts', endBuckets (placeBuckets sizes size).1 test n elts = some elts' ∧
      elts'.length = elts.length ∧ Filled sizes size names test elts' ∧
      ∀ i < n, sizes i ≠ pointerSize →
        read elts' (offset sizes i + test i) 8 = some (encode 8 0) := by
  induction n with
  | zero => exact ⟨elts, rfl, rfl, hfilled, by simp⟩
  | succ n ih =>
      obtain ⟨elts₁, hends, hlength, hfilled₁, hread⟩ := ih (by omega)
      rw [endBuckets, hends, placeBuckets_eq]
      by_cases hempty : sizes n = pointerSize
      · refine ⟨elts₁, ?_, hlength, hfilled₁, ?_⟩
        · simp [hempty]
        · intro i hi hnonempty
          have hne : i ≠ n := fun heq => hnonempty (heq ▸ hempty)
          exact hread i (by omega) hnonempty
      · have hend := offset_add_le hempty hn
        have hsum (i : ℕ) : sizes i = 8 + test i := by
          rw [hfilled.test]
          exact hsizes.eq i
        have hroom : offset sizes n + test n + (encode 8 0).length ≤ elts₁.length := by
          have hn' := hsum n
          rw [encode_length]
          omega
        obtain ⟨elts₂, hwrite⟩ := write_isSome hroom
        have hkeeps : ∀ i, sizes i ≠ pointerSize → i ≠ n → ∀ start count,
            offset sizes i ≤ start → start + count ≤ offset sizes i + sizes i →
            read elts₂ start count = read elts₁ start count := by
          intro i hnonempty hi start count hstart hstop
          apply read_write_of_disjoint hwrite
          have hdisjoint := offset_disjoint hi hnonempty hempty
          have hn' := hsum n
          rw [encode_length]
          omega
        refine ⟨elts₂, ?_, (write_length hwrite).trans hlength, ⟨hfilled.test, ?_⟩, ?_⟩
        · simp only [hempty, ne_eq, not_false_eq_true, and_true]
          rw [if_pos (by omega)]
          exact hwrite
        · intro i hi
          have helts := hfilled₁.elts i hi
          have hi' := hsum i
          have hused := hfilled.test i
          by_cases heq : i = n
          · apply helts.congr
            intro start count hstart hstop
            apply read_write_of_disjoint hwrite
            subst heq
            omega
          · by_cases hnone : sizes i = pointerSize
            · have hzero : used (entries size i names) = 0 := by
                rw [pointerSize] at hnone
                omega
              rw [used_eq_zero hzero]
              trivial
            · apply helts.congr
              intro start count hstart hstop
              exact hkeeps i hnone heq start count hstart (by omega)
        · intro i hi hnonempty
          have hi' := hsum i
          by_cases heq : i = n
          · rw [heq]
            simpa only [encode_length] using read_write hwrite
          · rw [hkeeps i hnonempty heq _ _ (by omega) (by omega)]
            exact hread i (by omega) hnonempty

end Night.Hash
