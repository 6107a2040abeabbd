import Mathlib.Data.List.Range
import Night.Core.ArrayPush

/-!
# `night_list_push`

A list is a chain of parts with the same number of elements.  A push fills the last part; when
that is full, it asks the pool for a new part and for its elements, and links the part once it
has both.
-/

namespace Night.ListPush

open Night.Blocks Night.Bytes Night.Regions Night.PoolLarge
open Night.Memory (load load_congr load_store load_store_of_disjoint store)
open Night.Pmalloc (nightAlign poolSize)

/-! ## The source -/

/-- `night_list_part_t`; without an address `next` is `NULL`. -/
structure ListPart where
  elts : ℕ
  nelts : ℕ
  next : Option ℕ
  deriving DecidableEq, Repr

/-- `sizeof(night_list_part_t)`. -/
def listPartSize : ℕ := 24

/-- A `night_list_t` without its pool, and the parts by their addresses; without an address it is
the part inside the list. -/
structure NightList where
  part : Option ℕ → ListPart
  last : Option ℕ
  size : ℕ
  nalloc : ℕ

/-- What a push ends in. -/
structure Pushed where
  elt : Option ℕ
  list : NightList
  pool : Pool

/-- The element `i` of a part. -/
def NightList.address (list : NightList) (part : Option ℕ) (i : ℕ) : ℕ :=
  (list.part part).elts + list.size * i

section Calls

variable (system : Allocator)

/-- `night_list_init`; without a list it is `NIGHT_ERROR`. -/
def nightListInit (pool : Pool) (n size : ℕ) : Option (Option NightList × Pool) :=
  match nightPmalloc system pool (mulSize n size) with
  | none => none
  | some (none, pool) => some (none, pool)
  | some (some elts, pool) => some (some ⟨fun _ => ⟨elts, 0, none⟩, none, size, n⟩, pool)

/-- The last part with one element more. -/
def NightList.taken (list : NightList) : NightList :=
  let last := list.part list.last
  { list with part := Function.update list.part list.last { last with nelts := last.nelts + 1 } }

/-- The end of `night_list_push`. -/
def takeElement (pool : Pool) (list : NightList) : Pushed :=
  ⟨some (list.address list.last (list.part list.last).nelts), list.taken, pool⟩

/-- The new part `p` is linked. -/
def NightList.linked (list : NightList) (p elts : ℕ) : NightList :=
  let part := Function.update list.part (some p) ⟨elts, 0, none⟩
  { list with
    part := Function.update part list.last { part list.last with next := some p }
    last := some p }

def nightListPush (pool : Pool) (list : NightList) : Option Pushed :=
  if (list.part list.last).nelts = list.nalloc then
    match nightPmalloc system pool listPartSize with
    | none => none
    | some (none, pool) => some ⟨none, list, pool⟩
    | some (some p, pool) =>
      match nightPmalloc system pool (mulSize list.nalloc list.size) with
      | none => none
      | some (none, pool) => some ⟨none, list, pool⟩
      | some (some elts, pool) => some (takeElement pool (list.linked p elts))
  else some (takeElement pool list)

end Calls

/-- `for (i = 0; ; i++)` over `header[i]`: the addresses it looks at, from the element `i` of a
part on. -/
def walk (list : NightList) : ℕ → Option ℕ → ℕ → Option (List ℕ)
  | 0, _, _ => none
  | fuel + 1, part, i =>
    if (list.part part).nelts ≤ i then
      match (list.part part).next with
      | none => some []
      | some next =>
        (walk list fuel (some next) 1).map (list.address (some next) 0 :: ·)
    else (walk list fuel part (i + 1)).map (list.address part i :: ·)

/-! ## Runs -/

/-- A list with the pointers that were returned and the values last written through them. -/
structure State where
  pool : Pool
  list : NightList
  pointers : List ℕ
  written : ℕ → Option (List Byte)

def State.start (pool : Pool) (list : NightList) : State := ⟨pool, list, [], fun _ => none⟩

inductive Call where
  | push
  | write (i : ℕ) (bytes : List Byte)
  | pmalloc (size : ℕ)

/-- A push, a write of an element through its pointer, or another request to the pool. -/
def step (system : Allocator) (s : State) : Call → Option State
  | .push => do
    let pushed ← nightListPush system s.pool s.list
    some { s with
      pool := pushed.pool
      list := pushed.list
      pointers := s.pointers ++ pushed.elt.toList }
  | .write i bytes =>
    match s.pointers[i]? with
    | none => some s
    | some p =>
      if bytes.length = s.list.size then
        some { s with
          pool := { s.pool with memory := store s.pool.memory p bytes }
          written := Function.update s.written i (some bytes) }
      else some s
  | .pmalloc size => do
    let (_, pool) ← nightPmalloc system s.pool size
    some { s with pool := pool }

/-- The system may answer every call in another way. -/
def run : State → List (Allocator × Call) → Option State
  | s, [] => some s
  | s, (system, call) :: calls => (step system s call).bind fun s' => run s' calls

/-- What the list promises. -/
structure Right (s : State) : Prop where
  /-- The loop returns the elements in the order of their pushes. -/
  walk : ∀ fuel, s.pointers.length < fuel → walk s.list fuel none 0 = some s.pointers
  /-- Their bytes belong to the process, -/
  valid : ∀ p ∈ s.pointers, Readable s.pool.heap ⟨p, s.list.size⟩
  /-- not to two elements, -/
  apart : s.pointers.Pairwise fun p q => p + s.list.size ≤ q ∨ q + s.list.size ≤ p
  /-- and are what was written there. -/
  reads : ∀ i value, s.written i = some value →
    ∃ p, s.pointers[i]? = some p ∧ load s.pool.memory p s.list.size = value
  refused : ∀ system list pool,
    nightListPush system s.pool s.list = some ⟨none, list, pool⟩ → list = s.list

/-! ## Chains of parts -/

/-- The elements of a part from the number `i` on. -/
def NightList.elements (list : NightList) (part : Option ℕ) (i : ℕ) : List ℕ :=
  (List.range' i ((list.part part).nelts - i)).map (list.address part)

/-- `part` is full and `part'` is the next one, which is not empty. -/
structure Follows (list : NightList) (part part' : Option ℕ) : Prop where
  next : (list.part part).next = part'
  isSome : part'.isSome
  full : (list.part part).nelts = list.nalloc
  used : 0 < (list.part part').nelts

/-- The parts of the list. -/
structure Chained (list : NightList) (front : List (Option ℕ)) (last : Option ℕ) : Prop where
  head : (front ++ [last]).head? = some none
  nodup : (front ++ [last]).Nodup
  chain : (front ++ [last]).IsChain (Follows list)
  ends : list.last = last
  next : (list.part last).next = none
  bound : (list.part last).nelts ≤ list.nalloc

variable {list : NightList} {front : List (Option ℕ)} {last part : Option ℕ}

theorem elements_cons {i : ℕ} (hi : i < (list.part part).nelts) :
    list.elements part i = list.address part i :: list.elements part (i + 1) := by
  rw [NightList.elements, show (list.part part).nelts - i = (list.part part).nelts - (i + 1) + 1 by
    omega, List.range'_succ, List.map_cons]
  rfl

theorem elements_nil {i : ℕ} (hi : (list.part part).nelts ≤ i) : list.elements part i = [] := by
  rw [NightList.elements, Nat.sub_eq_zero_of_le hi, List.range'_zero, List.map_nil]

/-- The loop goes along a chain of parts. -/
theorem walk_chain (hchain : (part :: front).IsChain (Follows list))
    (hnext : (list.part ((part :: front).getLast (by simp))).next = none) {i fuel : ℕ}
    (hfuel : (list.elements part i ++ front.flatMap fun p => list.elements p 0).length < fuel) :
    walk list fuel part i =
      some (list.elements part i ++ front.flatMap fun p => list.elements p 0) := by
  induction fuel generalizing part front i with
  | zero => exact absurd hfuel (Nat.not_lt_zero _)
  | succ fuel ih =>
    rw [walk]
    by_cases hend : (list.part part).nelts ≤ i
    · rw [if_pos hend, elements_nil hend, List.nil_append]
      rw [elements_nil hend, List.nil_append] at hfuel
      cases front with
      | nil =>
        rw [List.getLast_singleton] at hnext
        rw [hnext]
        rfl
      | cons part' front =>
        obtain ⟨hfollows, hrest⟩ := List.isChain_cons_cons.mp hchain
        obtain ⟨p, rfl⟩ := Option.isSome_iff_exists.mp hfollows.isSome
        rw [hfollows.next]
        rw [List.flatMap_cons, elements_cons hfollows.used] at hfuel ⊢
        rw [List.getLast_cons_cons] at hnext
        simp only
        rw [ih hrest hnext (Nat.lt_of_succ_lt_succ hfuel)]
        rfl
    · rw [if_neg hend]
      rw [elements_cons (Nat.lt_of_not_le hend), List.cons_append] at hfuel ⊢
      rw [ih hchain hnext (Nat.lt_of_succ_lt_succ hfuel)]
      rfl

/-! ## One element more -/

/-- A part with a successor is not the last one. -/
theorem Follows.ne_last {part' : Option ℕ} (hfollows : Follows list part part')
    (hnext : (list.part last).next = none) : part ≠ last := by
  rintro rfl
  have hsome := hfollows.isSome
  rw [← hfollows.next, hnext] at hsome
  cases hsome

theorem taken_part_self : list.taken.part list.last =
    { list.part list.last with nelts := (list.part list.last).nelts + 1 } :=
  Function.update_self ..

theorem taken_part_of_ne (hne : part ≠ list.last) : list.taken.part part = list.part part :=
  Function.update_of_ne hne ..

@[simp]
theorem taken_elts (part : Option ℕ) : (list.taken.part part).elts = (list.part part).elts := by
  by_cases hpart : part = list.last
  · rw [hpart, taken_part_self]
  · rw [taken_part_of_ne hpart]

/-- The last part has room. -/
theorem Chained.taken (hchained : Chained list front last)
    (hroom : (list.part last).nelts ≠ list.nalloc) : Chained list.taken front last := by
  have hends := hchained.ends
  subst hends
  refine ⟨hchained.head, hchained.nodup, ?_, rfl, ?_, ?_⟩
  · apply hchained.chain.imp
    intro part part' hfollows
    have hsame := taken_part_of_ne (hfollows.ne_last hchained.next)
    refine ⟨by rw [hsame, hfollows.next], hfollows.isSome, by rw [hsame]; exact hfollows.full, ?_⟩
    by_cases hpart : part' = list.last
    · rw [hpart, taken_part_self]
      exact Nat.succ_pos _
    · rw [taken_part_of_ne hpart]
      exact hfollows.used
  · rw [taken_part_self]
    exact hchained.next
  · rw [taken_part_self]
    exact Nat.lt_of_le_of_ne hchained.bound hroom

theorem elements_taken_of_ne (hne : part ≠ list.last) :
    list.taken.elements part 0 = list.elements part 0 := by
  rw [NightList.elements, NightList.elements, taken_part_of_ne hne]
  apply List.map_congr_left
  intro i hi
  rw [NightList.address, taken_elts]
  rfl

theorem elements_taken_self : list.taken.elements list.last 0 =
    list.elements list.last 0 ++ [list.address list.last (list.part list.last).nelts] := by
  rw [NightList.elements, NightList.elements, taken_part_self, Nat.sub_zero, Nat.sub_zero,
    List.range'_1_concat, List.map_append, List.map_singleton, Nat.zero_add]
  have haddress : list.taken.address list.last = list.address list.last := by
    funext i
    rw [NightList.address, taken_elts]
    rfl
  rw [haddress]

/-- All elements, part after part. -/
def NightList.contents (list : NightList) (parts : List (Option ℕ)) : List ℕ :=
  parts.flatMap fun part => list.elements part 0

theorem contents_taken (hchained : Chained list front last) :
    list.taken.contents (front ++ [last]) =
      list.contents (front ++ [last]) ++ [list.address last (list.part last).nelts] := by
  have hends := hchained.ends
  subst hends
  have hfront : list.taken.contents front = list.contents front := by
    apply List.flatMap_congr
    intro part hpart
    apply elements_taken_of_ne
    exact (List.nodup_append.mp hchained.nodup).2.2 part hpart _ (List.mem_singleton.mpr rfl)
  rw [NightList.contents, NightList.contents, List.flatMap_append, List.flatMap_append,
    List.flatMap_singleton, List.flatMap_singleton, elements_taken_self, List.append_assoc]
  rw [NightList.contents, NightList.contents] at hfront
  rw [hfront]

/-! ## One part more -/

/-- The list after a push that has got a new part. -/
def NightList.extended (list : NightList) (p elts : ℕ) : NightList := (list.linked p elts).taken

variable {p elts : ℕ}

theorem extended_part_new (hp : some p ≠ list.last) :
    (list.extended p elts).part (some p) = ⟨elts, 1, none⟩ := by
  have hnew : (list.linked p elts).part (some p) = ⟨elts, 0, none⟩ := by
    rw [NightList.linked]
    simp only
    rw [Function.update_of_ne hp, Function.update_self]
  have htaken := @taken_part_self (list.linked p elts)
  rw [show (list.linked p elts).last = some p from rfl, hnew] at htaken
  exact htaken

theorem extended_part_last (hp : some p ≠ list.last) :
    (list.extended p elts).part list.last =
      { list.part list.last with next := some p } := by
  rw [NightList.extended, taken_part_of_ne (show list.last ≠ some p from hp.symm)]
  rw [NightList.linked]
  simp only
  rw [Function.update_self, Function.update_of_ne hp.symm]

theorem extended_part_of_ne (hnew : part ≠ some p) (hlast : part ≠ list.last) :
    (list.extended p elts).part part = list.part part := by
  rw [NightList.extended, taken_part_of_ne (show part ≠ some p from hnew), NightList.linked]
  simp only
  rw [Function.update_of_ne hlast, Function.update_of_ne hnew]

/-- Of the older parts only a link is changed. -/
theorem extended_part (hp : some p ≠ list.last) (hnew : part ≠ some p) :
    ((list.extended p elts).part part).elts = (list.part part).elts ∧
      ((list.extended p elts).part part).nelts = (list.part part).nelts := by
  by_cases hlast : part = list.last
  · rw [hlast, extended_part_last hp]
    exact ⟨rfl, rfl⟩
  · rw [extended_part_of_ne hnew hlast]
    exact ⟨rfl, rfl⟩

/-- A full list gets a part that it does not have yet. -/
theorem Chained.extended (hchained : Chained list front last)
    (hfull : (list.part last).nelts = list.nalloc) (hpositive : 0 < list.nalloc)
    (hp : some p ∉ front ++ [last]) :
    Chained (list.extended p elts) (front ++ [last]) (some p) := by
  have hends := hchained.ends
  subst hends
  have hne : some p ≠ list.last := fun heq => hp (heq ▸ by simp)
  refine ⟨?_, ?_, ?_, rfl, ?_, ?_⟩
  · rw [List.head?_append, hchained.head]
    rfl
  · refine List.nodup_append.mpr ⟨hchained.nodup, List.nodup_singleton _, ?_⟩
    intro part hpart other hother
    rw [List.mem_singleton.mp hother]
    rintro rfl
    exact hp hpart
  · rw [List.append_assoc, List.singleton_append, List.isChain_append_cons_cons]
    refine ⟨?_, ⟨?_, rfl, ?_, ?_⟩, List.isChain_singleton _⟩
    · apply hchained.chain.imp_of_mem_imp
      intro part part' hpart hpart' hfollows
      have hpartNew : part ≠ some p := fun heq => hp (heq ▸ hpart)
      have hpartNew' : part' ≠ some p := fun heq => hp (heq ▸ hpart')
      have hsame := @extended_part_of_ne _ _ _ elts hpartNew (hfollows.ne_last hchained.next)
      refine ⟨by rw [hsame, hfollows.next], hfollows.isSome, by rw [hsame]; exact hfollows.full, ?_⟩
      rw [(extended_part hne hpartNew').2]
      exact hfollows.used
    · rw [extended_part_last hne]
    · rw [extended_part_last hne]
      exact hfull
    · rw [extended_part_new hne]
      exact Nat.one_pos
  · rw [extended_part_new hne]
  · rw [extended_part_new hne]
    exact hpositive

theorem contents_extended (hends : list.last = last) (hp : some p ∉ front ++ [last]) :
    (list.extended p elts).contents (front ++ [last] ++ [some p]) =
      list.contents (front ++ [last]) ++ [elts] := by
  subst hends
  have hne : some p ≠ list.last := fun heq => hp (heq ▸ by simp)
  rw [NightList.contents, List.flatMap_append, List.flatMap_singleton]
  congr 1
  · apply List.flatMap_congr
    intro part hpart
    obtain ⟨helts, hnelts⟩ := @extended_part _ _ _ elts hne fun heq => hp (heq ▸ hpart)
    rw [NightList.elements, NightList.elements, hnelts]
    apply List.map_congr_left
    intro i hi
    rw [NightList.address, helts]
    rfl
  · rw [NightList.elements, extended_part_new hne]
    simp only [Nat.sub_zero, List.range'_one, List.map_cons, List.map_nil, NightList.address,
      extended_part_new hne, Nat.mul_zero, Nat.add_zero]

/-! ## The invariant -/

/-- The bytes asked for the elements of a part. -/
def NightList.storage (list : NightList) (part : Option ℕ) : Region :=
  ⟨(list.part part).elts, nightAlign (mulSize list.nalloc list.size)⟩

/-- The regions of the parts, those of the last part first. -/
def NightList.regions (list : NightList) (parts : List (Option ℕ)) : List Region :=
  parts.reverse.flatMap fun part =>
    list.storage part :: (part.map fun p => ⟨p, nightAlign listPartSize⟩).toList

/-- The elements of a part fit in what is asked for them. -/
def NightList.Fits (list : NightList) : Prop := list.nalloc * list.size ≤ 2 ^ 64 - 8

structure Kept (s : State) (front : List (Option ℕ)) (last : Option ℕ) : Prop where
  positive : 0 < s.list.nalloc
  fits : s.list.Fits
  chained : Chained s.list front last
  sound : Sound s.pool (s.list.regions (front ++ [last]))
  pointers : s.pointers = s.list.contents (front ++ [last])
  written : ∀ i value, s.written i = some value → ∃ p, s.pointers[i]? = some p ∧
    value.length = s.list.size ∧ load s.pool.memory p s.list.size = value

variable {s s' : State}

theorem le_nightAlign {size : ℕ} (hsize : size ≤ 2 ^ 64 - 8) : size ≤ nightAlign size := by
  rw [nightAlign, Pmalloc.nightAlignment]
  omega

theorem regions_snoc (parts : List (Option ℕ)) (part : Option ℕ) :
    list.regions (parts ++ [part]) =
      list.storage part :: (part.map fun p => ⟨p, nightAlign listPartSize⟩).toList ++
        list.regions parts := by
  rw [NightList.regions, List.reverse_append, List.reverse_singleton, List.singleton_append,
    List.flatMap_cons]
  rfl

theorem regions_congr {list' : NightList} {parts : List (Option ℕ)}
    (helts : ∀ part ∈ parts, (list'.part part).elts = (list.part part).elts)
    (hsize : list'.size = list.size) (hnalloc : list'.nalloc = list.nalloc) :
    list'.regions parts = list.regions parts := by
  apply List.flatMap_congr
  intro part hpart
  rw [NightList.storage, NightList.storage, helts part (List.mem_reverse.mp hpart), hsize, hnalloc]

theorem storage_mem {parts : List (Option ℕ)} (hpart : part ∈ parts) :
    list.storage part ∈ list.regions parts :=
  List.mem_flatMap.mpr ⟨part, List.mem_reverse.mpr hpart, List.mem_cons_self⟩

theorem struct_mem {parts : List (Option ℕ)} {p : ℕ} (hpart : some p ∈ parts) :
    ⟨p, nightAlign listPartSize⟩ ∈ list.regions parts :=
  List.mem_flatMap.mpr ⟨some p, List.mem_reverse.mpr hpart, by simp⟩

/-- No part holds more elements than it was made for. -/
theorem Chained.nelts_le (hchained : Chained list front last) (hpart : part ∈ front ++ [last]) :
    (list.part part).nelts ≤ list.nalloc := by
  by_cases hlast : part = last
  · rw [hlast]
    exact hchained.bound
  · have hfront : part ∈ front := by
      rcases List.mem_append.mp hpart with hfront | hin
      · exact hfront
      · exact absurd (List.mem_singleton.mp hin) hlast
    obtain ⟨left, right, rfl⟩ := List.append_of_mem hfront
    obtain ⟨next, rest, hnext⟩ : ∃ next rest, right ++ [last] = next :: rest :=
      List.exists_cons_of_ne_nil (by simp)
    have hchain := hchained.chain
    rw [List.append_assoc, List.cons_append, hnext, List.isChain_append_cons_cons] at hchain
    exact hchain.2.1.full.le

/-- The bytes of an element lie in the storage of its part. -/
theorem address_inside (hchained : Chained list front last) (hfits : list.Fits)
    (hpart : part ∈ front ++ [last]) {i : ℕ} (hi : i < (list.part part).nelts) :
    Region.Inside ⟨list.address part i, list.size⟩ (list.storage part) := by
  have hnelts := hchained.nelts_le hpart
  rw [NightList.Fits] at hfits
  have hproduct : mulSize list.nalloc list.size = list.nalloc * list.size :=
    mulSize_eq (by omega)
  have halign := le_nightAlign hfits
  have hnext : list.size * (i + 1) ≤ list.size * list.nalloc :=
    Nat.mul_le_mul_left _ (Nat.le_trans hi hnelts)
  rw [Nat.mul_succ, Nat.mul_comm list.size list.nalloc] at hnext
  constructor
  · exact Nat.le_add_right _ _
  · change (list.part part).elts + list.size * i + list.size ≤ (list.part part).elts + nightAlign _
    rw [hproduct]
    omega

theorem mem_contents {parts : List (Option ℕ)} {p : ℕ} :
    p ∈ list.contents parts ↔
      ∃ part ∈ parts, ∃ i, i < (list.part part).nelts ∧ list.address part i = p := by
  simp only [NightList.contents, NightList.elements, List.mem_flatMap, List.mem_map,
    List.mem_range'_1, Nat.zero_le, true_and, Nat.zero_add, Nat.sub_zero]

/-- Every element lies in a region that the pool has returned. -/
theorem Kept.inside (hkept : Kept s front last) {p : ℕ} (hp : p ∈ s.pointers) :
    ∃ r ∈ s.list.regions (front ++ [last]), Region.Inside ⟨p, s.list.size⟩ r := by
  rw [hkept.pointers] at hp
  obtain ⟨part, hpart, i, hi, rfl⟩ := mem_contents.mp hp
  exact ⟨_, storage_mem hpart, address_inside hkept.chained hkept.fits hpart hi⟩

theorem apart_of_disjoint {p q size : ℕ} (hdisjoint : Region.Disjoint ⟨p, size⟩ ⟨q, size⟩) :
    p + size ≤ q ∨ q + size ≤ p := by
  by_contra hover
  push Not at hover
  apply hdisjoint (max p q)
  · exact ⟨le_max_left _ _, show max p q < p + size by omega⟩
  · exact ⟨le_max_right _ _, show max p q < q + size by omega⟩

/-- No two elements share a byte. -/
theorem Kept.apart (hkept : Kept s front last) :
    s.pointers.Pairwise fun p q => p + s.list.size ≤ q ∨ q + s.list.size ≤ p := by
  have hregions := (List.pairwise_append.mp hkept.sound.chain.arena.handed).1
  rw [NightList.regions, List.pairwise_flatMap, List.pairwise_reverse] at hregions
  rw [hkept.pointers, NightList.contents, List.pairwise_flatMap]
  constructor
  · intro part hpart
    rw [NightList.elements, List.pairwise_map]
    apply List.Pairwise.imp _ (List.pairwise_lt_range' 1 Nat.one_pos)
    intro i j hlt
    left
    have hnext : s.list.size * (i + 1) ≤ s.list.size * j := Nat.mul_le_mul_left _ hlt
    rw [Nat.mul_succ] at hnext
    rw [NightList.address, NightList.address]
    omega
  · apply hregions.2.imp_of_mem
    intro part part' hpart hpart' hdisjoint p hp q hq
    have hstorages := hdisjoint _ List.mem_cons_self _ List.mem_cons_self
    obtain ⟨i, hi, rfl⟩ := List.mem_map.mp hp
    obtain ⟨j, hj, rfl⟩ := List.mem_map.mp hq
    rw [List.mem_range'_1] at hi hj
    have hinside := @address_inside _ _ _ _ hkept.chained hkept.fits hpart i (by omega)
    have hinside' := @address_inside _ _ _ _ hkept.chained hkept.fits hpart' j (by omega)
    exact apart_of_disjoint (hstorages.symm.mono hinside hinside')

/-- The bytes of the elements survive what keeps the regions of the list. -/
theorem Kept.load (hkept : Kept s front last) {memory : ℕ → Byte}
    (hsame : ∀ r ∈ s.list.regions (front ++ [last]), ∀ x, r.Has x →
      memory x = s.pool.memory x) {p : ℕ} (hp : p ∈ s.pointers) :
    load memory p s.list.size = load s.pool.memory p s.list.size := by
  obtain ⟨r, hr, hinside⟩ := hkept.inside hp
  apply load_congr
  intro i hi
  apply hsame r hr
  exact hinside.has ⟨Nat.le_add_right _ _, Nat.add_lt_add_left hi p⟩

theorem mem_of_getElem? {i p : ℕ} {pointers : List ℕ} (hp : pointers[i]? = some p) :
    p ∈ pointers := List.mem_of_getElem? hp

/-! ## Steps -/

variable {system : Allocator}

/-- Requests to the pool do not touch the list. -/
theorem kept_pool (hkept : Kept s front last) {pool : Pool}
    (hsound : Sound pool (s.list.regions (front ++ [last])))
    (hmemory : ∀ r ∈ s.list.regions (front ++ [last]), ∀ x, r.Has x →
      pool.memory x = s.pool.memory x) : Kept { s with pool := pool } front last := by
  refine ⟨hkept.positive, hkept.fits, hkept.chained, hsound, hkept.pointers, ?_⟩
  intro i value hwritten
  obtain ⟨p, hp, hlength, hload⟩ := hkept.written i value hwritten
  exact ⟨p, hp, hlength, (hkept.load hmemory (mem_of_getElem? hp)).trans hload⟩

theorem kept_served (hkept : Kept s front last) {pool : Pool} {result : Option ℕ} {size : ℕ}
    (hcall : nightPmalloc system s.pool size = some (result, pool)) :
    Kept { s with pool := pool } front last := by
  have hserved := nightPmalloc_served hkept.sound hcall
  exact kept_pool hkept (hserved.sound.forget (List.sublist_append_right _ _)) hserved.memory

theorem kept_write (hkept : Kept s front last) {i p : ℕ} {bytes : List Byte}
    (hpointer : s.pointers[i]? = some p) (hlength : bytes.length = s.list.size) :
    Kept { s with
      pool := { s.pool with memory := store s.pool.memory p bytes }
      written := Function.update s.written i (some bytes) } front last := by
  refine ⟨hkept.positive, hkept.fits, hkept.chained, hkept.sound.memory _, hkept.pointers, ?_⟩
  intro j value hwritten
  change Function.update s.written i (some bytes) j = some value at hwritten
  change ∃ q, s.pointers[j]? = some q ∧ value.length = s.list.size ∧
    Memory.load (store s.pool.memory p bytes) q s.list.size = value
  by_cases hj : j = i
  · subst hj
    rw [Function.update_self] at hwritten
    cases hwritten
    refine ⟨p, hpointer, hlength, ?_⟩
    rw [← hlength]
    exact load_store ..
  · rw [Function.update_of_ne hj] at hwritten
    obtain ⟨q, hq, hvalue, hload⟩ := hkept.written j value hwritten
    refine ⟨q, hq, hvalue, Eq.trans ?_ hload⟩
    apply load_store_of_disjoint
    rw [hlength]
    obtain ⟨hjlt, hq⟩ := List.getElem?_eq_some_iff.mp hq
    obtain ⟨hilt, hp⟩ := List.getElem?_eq_some_iff.mp hpointer
    have hpairs := List.pairwise_iff_getElem.mp hkept.apart
    rw [← hq, ← hp]
    rcases Nat.lt_or_gt_of_ne hj with hlt | hgt
    · exact hpairs j i hjlt hilt hlt
    · exact (hpairs i j hilt hjlt hgt).symm

/-- The pointer of a push goes behind the others. -/
theorem written_append {memory : ℕ → Byte} {pointers : List ℕ} {written : ℕ → Option (List Byte)}
    {size : ℕ} (p : ℕ) (hwritten : ∀ i value, written i = some value →
      ∃ q, pointers[i]? = some q ∧ value.length = size ∧ load memory q size = value) :
    ∀ i value, written i = some value →
      ∃ q, (pointers ++ [p])[i]? = some q ∧ value.length = size ∧ load memory q size = value := by
  intro i value hvalue
  obtain ⟨q, hq, hrest⟩ := hwritten i value hvalue
  have hlt := (List.getElem?_eq_some_iff.mp hq).1
  exact ⟨q, by rw [List.getElem?_append_left hlt, hq], hrest⟩

/-- A push that finds room. -/
theorem kept_taken (hkept : Kept s front last)
    (hroom : (s.list.part s.list.last).nelts ≠ s.list.nalloc) :
    Kept { s with
      list := s.list.taken
      pointers := s.pointers ++
        [s.list.address s.list.last (s.list.part s.list.last).nelts] } front last := by
  have hends := hkept.chained.ends
  rw [hends] at hroom ⊢
  refine ⟨hkept.positive, hkept.fits, hkept.chained.taken hroom, ?_, ?_,
    written_append _ hkept.written⟩
  · change Sound s.pool (s.list.taken.regions _)
    rw [regions_congr (fun part hpart => taken_elts part) rfl rfl]
    exact hkept.sound
  · change s.pointers ++ [_] = s.list.taken.contents _
    rw [contents_taken hkept.chained, hkept.pointers]

/-- A push that gets a new part. -/
theorem kept_extended (hkept : Kept s front last)
    (hfull : (s.list.part s.list.last).nelts = s.list.nalloc) {pool pool' : Pool} {p elts : ℕ}
    (hpart : nightPmalloc system s.pool listPartSize = some (some p, pool))
    (helts : nightPmalloc system pool (mulSize s.list.nalloc s.list.size) =
      some (some elts, pool')) :
    Kept { s with
      pool := pool'
      list := s.list.extended p elts
      pointers := s.pointers ++ [elts] } (front ++ [last]) (some p) := by
  have hserved := nightPmalloc_served hkept.sound hpart
  have hserved' := nightPmalloc_served hserved.sound helts
  have hnew : some p ∉ front ++ [last] := by
    intro hin
    have hpairs := List.pairwise_cons.mp hserved.sound.chain.arena.handed
    have hdisjoint := hpairs.1 _ (List.mem_append_left _ (struct_mem hin))
    have hpositive : 0 < nightAlign listPartSize := by decide
    exact hdisjoint.addr_ne hpositive hpositive rfl
  have hends := hkept.chained.ends
  have hne : some p ≠ s.list.last := fun heq => hnew (by rw [heq, hends]; simp)
  have hregions : (s.list.extended p elts).regions (front ++ [last] ++ [some p]) =
      ⟨elts, nightAlign (mulSize s.list.nalloc s.list.size)⟩ ::
        ⟨p, nightAlign listPartSize⟩ :: s.list.regions (front ++ [last]) := by
    rw [regions_snoc, NightList.storage, extended_part_new hne,
      @regions_congr s.list (s.list.extended p elts) (front ++ [last])
        (fun part hin => (extended_part hne fun heq => hnew (heq ▸ hin)).1) rfl rfl]
    rfl
  have hmemory : ∀ r ∈ s.list.regions (front ++ [last]), ∀ x, r.Has x →
      pool'.memory x = s.pool.memory x := by
    intro r hr x hx
    rw [hserved'.memory r (List.mem_append_right _ hr) x hx, hserved.memory r hr x hx]
  refine ⟨hkept.positive, hkept.fits,
    hkept.chained.extended (hends ▸ hfull) hkept.positive hnew, ?_, ?_, ?_⟩
  · change Sound pool' ((s.list.extended p elts).regions _)
    rw [hregions]
    exact hserved'.sound
  · change s.pointers ++ [elts] = (s.list.extended p elts).contents _
    rw [contents_extended hends hnew, hkept.pointers]
  · apply written_append
    intro i value hwritten
    obtain ⟨q, hq, hlength, hload⟩ := hkept.written i value hwritten
    exact ⟨q, hq, hlength, (hkept.load hmemory (mem_of_getElem? hq)).trans hload⟩

/-- The first element of a new part. -/
theorem takeElement_linked {pool : Pool} : takeElement pool (list.linked p elts) =
    ⟨some ((list.linked p elts).address (some p) ((list.linked p elts).part (some p)).nelts),
      list.extended p elts, pool⟩ := rfl

theorem address_linked (hp : some p ≠ list.last) :
    (list.linked p elts).address (some p) ((list.linked p elts).part (some p)).nelts = elts := by
  have hnew : (list.linked p elts).part (some p) = ⟨elts, 0, none⟩ := by
    rw [NightList.linked]
    simp only
    rw [Function.update_of_ne hp, Function.update_self]
  rw [NightList.address, hnew, Nat.mul_zero, Nat.add_zero]

theorem nightListPush_kept (hkept : Kept s front last) {pushed : Pushed}
    (hpush : nightListPush system s.pool s.list = some pushed) :
    ∃ front' last', Kept { s with
      pool := pushed.pool
      list := pushed.list
      pointers := s.pointers ++ pushed.elt.toList } front' last' := by
  rw [nightListPush] at hpush
  by_cases hfull : (s.list.part s.list.last).nelts = s.list.nalloc
  · rw [if_pos hfull] at hpush
    cases hpart : nightPmalloc system s.pool listPartSize with
    | none =>
      rw [hpart] at hpush
      cases hpush
    | some served =>
      obtain ⟨_ | p, pool⟩ := served
      · rw [hpart] at hpush
        cases hpush
        exact ⟨front, last, by simpa using kept_served hkept hpart⟩
      · rw [hpart] at hpush
        simp only at hpush
        have hkeptPart := kept_served hkept hpart
        cases helts : nightPmalloc system pool (mulSize s.list.nalloc s.list.size) with
        | none =>
          rw [helts] at hpush
          cases hpush
        | some served =>
          obtain ⟨_ | elts, pool'⟩ := served
          · rw [helts] at hpush
            cases hpush
            exact ⟨front, last, by simpa using kept_served hkeptPart helts⟩
          · rw [helts] at hpush
            cases hpush
            have hkept' := kept_extended hkept hfull hpart helts
            have hne : some p ≠ s.list.last := by
              have hnodup := hkept'.chained.nodup
              intro heq
              rw [heq, hkept.chained.ends] at hnodup
              exact (List.nodup_append.mp hnodup).2.2 last (by simp) last (by simp) rfl
            rw [takeElement_linked, address_linked hne]
            exact ⟨_, _, hkept'⟩
  · rw [if_neg hfull] at hpush
    cases hpush
    exact ⟨front, last, kept_taken hkept hfull⟩

/-- A push that returns nothing leaves the list as it is. -/
theorem nightListPush_none {pool pool' : Pool} {list' : NightList}
    (hpush : nightListPush system pool list = some ⟨none, list', pool'⟩) : list' = list := by
  rw [nightListPush] at hpush
  by_cases hfull : (list.part list.last).nelts = list.nalloc
  · rw [if_pos hfull] at hpush
    cases hpart : nightPmalloc system pool listPartSize with
    | none =>
      rw [hpart] at hpush
      cases hpush
    | some served =>
      obtain ⟨_ | p, middle⟩ := served
      · rw [hpart] at hpush
        cases hpush
        rfl
      · rw [hpart] at hpush
        simp only at hpush
        cases helts : nightPmalloc system middle (mulSize list.nalloc list.size) with
        | none =>
          rw [helts] at hpush
          cases hpush
        | some served =>
          obtain ⟨_ | elts, last⟩ := served
          · rw [helts] at hpush
            cases hpush
            rfl
          · rw [helts] at hpush
            cases hpush
  · rw [if_neg hfull] at hpush
    cases hpush

theorem step_kept (hkept : Kept s front last) {call : Call}
    (hstep : step system s call = some s') : ∃ front' last', Kept s' front' last' := by
  cases call with
  | push =>
    obtain ⟨pushed, hpush, hs'⟩ := Option.bind_eq_some_iff.mp hstep
    cases hs'
    exact nightListPush_kept hkept hpush
  | write i bytes =>
    simp only [step] at hstep
    cases hpointer : s.pointers[i]? with
    | none =>
      rw [hpointer] at hstep
      cases hstep
      exact ⟨front, last, hkept⟩
    | some p =>
      rw [hpointer] at hstep
      simp only at hstep
      by_cases hlength : bytes.length = s.list.size
      · rw [if_pos hlength] at hstep
        cases hstep
        exact ⟨front, last, kept_write hkept hpointer hlength⟩
      · rw [if_neg hlength] at hstep
        cases hstep
        exact ⟨front, last, hkept⟩
  | pmalloc size =>
    obtain ⟨⟨result, pool⟩, hcall, hs'⟩ := Option.bind_eq_some_iff.mp hstep
    cases hs'
    exact ⟨front, last, kept_served hkept hcall⟩

/-! ## Every run -/

theorem run_kept {calls : List (Allocator × Call)} (hkept : Kept s front last)
    (hrun : run s calls = some s') : ∃ front' last', Kept s' front' last' := by
  induction calls generalizing s front last with
  | nil =>
    cases hrun
    exact ⟨front, last, hkept⟩
  | cons call calls ih =>
    obtain ⟨middle, hstep, hrest⟩ := Option.bind_eq_some_iff.mp hrun
    obtain ⟨front', last', hkept'⟩ := step_kept hkept hstep
    exact ih hkept' hrest

theorem Kept.right (hkept : Kept s front last) : Right s := by
  have hchained := hkept.chained
  refine ⟨?_, ?_, hkept.apart, ?_, fun _ _ _ hpush => nightListPush_none hpush⟩
  · intro fuel hfuel
    obtain ⟨rest, hrest⟩ : ∃ rest, front ++ [last] = none :: rest := by
      cases hparts : front ++ [last] with
      | nil => simp at hparts
      | cons first rest =>
        have hhead := hchained.head
        rw [hparts] at hhead
        exact ⟨rest, by rw [Option.some.inj hhead]⟩
    have hpointers := hkept.pointers
    rw [hrest, NightList.contents, List.flatMap_cons] at hpointers
    rw [hpointers] at hfuel ⊢
    apply walk_chain (hrest ▸ hchained.chain) _ hfuel
    have hlast : (none :: rest).getLast (by simp) = last := by
      simp only [← hrest, List.getLast_append_singleton]
    rw [hlast]
    exact hchained.next
  · intro p hp
    obtain ⟨r, hr, hinside⟩ := hkept.inside hp
    obtain ⟨owner, howner, hin⟩ :=
      hkept.sound.chain.arena.exists_owner (List.mem_append_left _ hr)
    exact ⟨owner, hkept.sound.heap.mem_iff.mpr howner, hinside.trans hin⟩
  · intro i value hwritten
    obtain ⟨p, hp, -, hload⟩ := hkept.written i value hwritten
    exact ⟨p, hp, hload⟩

theorem kept_start {pool pool' : Pool} {returned : List Region} {n size : ℕ}
    (hsound : Sound pool returned) (hpositive : 0 < n) (hfits : n * size ≤ 2 ^ 64 - 8)
    (hinit : nightListInit system pool n size = some (some list, pool')) :
    Kept (State.start pool' list) [] none := by
  rw [nightListInit] at hinit
  cases hcall : nightPmalloc system pool (mulSize n size) with
  | none =>
    rw [hcall] at hinit
    cases hinit
  | some result =>
    obtain ⟨_ | elts, served⟩ := result
    · rw [hcall] at hinit
      cases hinit
    · rw [hcall] at hinit
      cases hinit
      exact ⟨hpositive, hfits, ⟨rfl, List.nodup_singleton _, List.isChain_singleton _, rfl, rfl,
        Nat.zero_le _⟩, nightPmalloc_sound hsound hcall, rfl, nofun⟩

/-- A list of a pool, whatever the pool was used for before, keeps its promises through every
run of pushes, writes to its elements and other requests to the pool. -/
theorem run_right {memory : ℕ → Byte} {poolBytes : ℕ} (hbytes : poolSize ≤ poolBytes)
    {created pool pool' : Pool} (hcreate : nightCreatePool system memory poolBytes = some created)
    {poolCalls : List (Allocator × PoolLarge.Call)}
    (hpool : PoolLarge.run created poolCalls = some pool) {n size : ℕ} (hpositive : 1 ≤ n)
    (hfits : n * size ≤ 2 ^ 64 - 8) {list : NightList}
    (hinit : nightListInit system pool n size = some (some list, pool'))
    {calls : List (Allocator × Call)} {s : State}
    (hrun : run (State.start pool' list) calls = some s) : Right s := by
  have hsound := run_sound (nightCreatePool_sound hbytes hcreate) hpool
  obtain ⟨front, last, hkept⟩ := run_kept (kept_start hsound hpositive hfits hinit) hrun
  exact hkept.right

/-- A new list in a pool of one page, after as many pushes. -/
def pushes (n size count : ℕ) : Option State :=
  (nightListInit (.above fun _ => true) pagePool n size).bind fun result =>
    result.1.bind fun list => run (State.start result.2 list)
      (List.replicate count (.above fun _ => true, .push))

theorem pushes_eq_some {n size count : ℕ} (hpushes : pushes n size count = some s) :
    ∃ list pool', nightListInit (.above fun _ => true) pagePool n size =
        some (some list, pool') ∧
      run (State.start pool' list) (List.replicate count (.above fun _ => true, .push)) =
        some s := by
  obtain ⟨⟨result, pool'⟩, hinit, hrest⟩ := Option.bind_eq_some_iff.mp hpushes
  obtain ⟨list, hlist, hrun⟩ := Option.bind_eq_some_iff.mp hrest
  change result = some list at hlist
  rw [hlist] at hinit
  exact ⟨list, pool', hinit, hrun⟩

/-- Parts of two elements of eight bytes: the third push gets a new part. -/
theorem run_right_third : ∃ s, (pushes 2 8 3).map State.pointers = some [80, 88, 120] ∧
    pushes 2 8 3 = some s ∧ Right s := by
  have hpointers : (pushes 2 8 3).map State.pointers = some [80, 88, 120] := by decide
  obtain ⟨s, hpushes, -⟩ := Option.map_eq_some_iff.mp hpointers
  obtain ⟨list, pool', hinit, hrun⟩ := pushes_eq_some hpushes
  have hcreate : nightCreatePool (.above fun _ => true) (fun _ => 0xFF) 4096 = some pagePool := rfl
  have hpool : PoolLarge.run pagePool [] = some pagePool := rfl
  exact ⟨s, hpointers, hpushes,
    run_right (by decide) hcreate hpool (by decide) (by decide) hinit hrun⟩

/-- Two elements of half the address space are asked for as no bytes at all. -/
theorem not_right_half : ∃ s, pushes 2 (2 ^ 63) 1 = some s ∧ ¬ Right s := by
  have hstate : (pushes 2 (2 ^ 63) 1).map (fun s => (s.pointers, s.list.size, s.pool.heap)) =
      some ([80], 2 ^ 63, [⟨16, 4096⟩]) := by decide
  obtain ⟨s, hpushes, hfields⟩ := Option.map_eq_some_iff.mp hstate
  obtain ⟨hpointers, hrest⟩ := Prod.mk.inj hfields
  obtain ⟨hsize, hheap⟩ := Prod.mk.inj hrest
  refine ⟨s, hpushes, ?_⟩
  intro hright
  have hvalid := hright.valid 80 (by rw [hpointers]; exact List.mem_cons_self)
  rw [hsize, hheap] at hvalid
  revert hvalid
  decide

end Night.ListPush
