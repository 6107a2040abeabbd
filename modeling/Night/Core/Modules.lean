import Mathlib.Data.BitVec
import Mathlib.Data.List.Nodup
import Mathlib.Data.List.Perm.Subperm
import Mathlib.Data.List.Range
import Mathlib.Logic.Function.Basic

/-!
# The indices of the modules of a type

`night_count_modules` numbers the modules of a type.  A module may have its number from an
earlier cycle; the others get numbers that are free in the new cycle and in the old one.
Modules are known by their addresses, since one module can be in both cycles.
-/

namespace Night.Modules

/-! ## The source -/

/-- The largest `int`. -/
def intMax : ℤ := 2 ^ 31 - 1

/-- `n++` on an `int`, without a result when it overflows. -/
def increment (n : ℤ) : Option ℤ := if n < intMax then some (n + 1) else none

/-- `NIGHT_MODULE_UNSET_INDEX`. -/
def unsetIndex : ℤ := -1

structure Module where
  ctxIndex : ℤ
  type : BitVec 64

/-- The modules of a cycle, and those of the old cycle if there is one that has them. -/
structure Cycle where
  modules : List ℕ
  oldModules : Option (List ℕ)

namespace Cycle

def old (cycle : Cycle) : List ℕ := cycle.oldModules.getD []

def all (cycle : Cycle) : List ℕ := cycle.modules ++ cycle.old

end Cycle

/-- A module of the type has the index. -/
def clash (module : ℕ → Module) (type : BitVec 64) (index : ℤ) (modules : List ℕ) : Bool :=
  modules.any fun m => (module m).type = type ∧ (module m).ctxIndex = index

/-- Each clash takes one of `fuel`. -/
def nightModuleCtxIndex (module : ℕ → Module) (cycle : Cycle) (type : BitVec 64) :
    ℕ → ℤ → Option ℤ
  | 0, _ => none
  | fuel + 1, index =>
    let again := (increment index).bind (nightModuleCtxIndex module cycle type fuel)
    if clash module type index cycle.modules then again
    else if clash module type index cycle.old then again
    else some index

/-- The modules and the local variables of `night_count_modules`. -/
structure Counting where
  module : ℕ → Module
  next : ℤ
  max : ℤ

/-- `if (index > max) max = index`. -/
def raise (max index : ℤ) : ℤ := if max < index then index else max

/-- `module->ctx_index = index`. -/
def setIndex (module : ℕ → Module) (m : ℕ) (index : ℤ) : ℕ → Module :=
  Function.update module m { module m with ctxIndex := index }

/-- One pass of the first loop. -/
def countModule (fuel : ℕ) (cycle : Cycle) (type : BitVec 64) (s : Counting) (m : ℕ) :
    Option Counting :=
  let module := s.module m
  if module.type ≠ type then some s
  else if module.ctxIndex ≠ unsetIndex then do
    let next ← if module.ctxIndex = s.next then increment s.next else some s.next
    some { s with max := raise s.max module.ctxIndex, next := next }
  else do
    let index ← nightModuleCtxIndex s.module cycle type fuel s.next
    let next ← increment index
    some { module := setIndex s.module m index, max := raise s.max index, next := next }

/-- The loop over the modules of the old cycle. -/
def oldMax (module : ℕ → Module) (type : BitVec 64) (modules : List ℕ) (max : ℤ) : ℤ :=
  modules.foldl (fun max m =>
    if (module m).type ≠ type then max else raise max (module m).ctxIndex) max

def nightCountModules (fuel : ℕ) (module : ℕ → Module) (cycle : Cycle) (type : BitVec 64) :
    Option (ℤ × (ℕ → Module)) := do
  let s ← cycle.modules.foldlM (countModule fuel cycle type) ⟨module, 0, 0⟩
  let count ← increment (oldMax s.module type cycle.old s.max)
  some (count, s.module)

/-! ## What it is for -/

/-- The indices the modules have before are distinct within a type. -/
def Distinct (module : ℕ → Module) (cycle : Cycle) : Prop :=
  ∀ m ∈ cycle.modules, ∀ n ∈ cycle.modules, m ≠ n → (module m).type = (module n).type →
    (module m).ctxIndex ≠ unsetIndex → (module m).ctxIndex ≠ (module n).ctxIndex

/-- They are also indices of an array whose size is an `int`, and an `int` counts the modules. -/
structure Valid (module : ℕ → Module) (cycle : Cycle) : Prop where
  distinct : Distinct module cycle
  nonneg : ∀ m ∈ cycle.modules, (module m).ctxIndex ≠ unsetIndex → 0 ≤ (module m).ctxIndex
  below : ∀ m ∈ cycle.all, (module m).ctxIndex < intMax
  few : (cycle.all.length : ℤ) ≤ intMax

/-- The modules after those of a type have been counted. -/
structure Counted (before after : ℕ → Module) (cycle : Cycle) (type : BitVec 64) (count : ℤ) :
    Prop where
  /-- Only modules of the type in the cycle that have no index are changed, -/
  kept : ∀ m, (m ∈ cycle.modules → (before m).type = type → (before m).ctxIndex ≠ unsetIndex) →
    after m = before m
  /-- and of these the index. -/
  types : ∀ m, (after m).type = (before m).type
  indexed : ∀ m ∈ cycle.modules, (before m).type = type → 0 ≤ (after m).ctxIndex
  distinct : ∀ m ∈ cycle.modules, ∀ n ∈ cycle.modules, (before m).type = type →
    (before n).type = type → m ≠ n → (after m).ctxIndex ≠ (after n).ctxIndex
  fresh : ∀ m ∈ cycle.modules, (before m).type = type → (before m).ctxIndex = unsetIndex →
    ∀ n ∈ cycle.old, (before n).type = type → m ≠ n → (after m).ctxIndex ≠ (after n).ctxIndex
  positive : 0 < count
  below : ∀ m ∈ cycle.all, (before m).type = type → (after m).ctxIndex < count

/-! ## The search -/

variable {module before : ℕ → Module} {cycle : Cycle} {type : BitVec 64} {index : ℤ}

/-- A module of the type, in one of the two cycles, has the index. -/
def Taken (module : ℕ → Module) (cycle : Cycle) (type : BitVec 64) (index : ℤ) : Prop :=
  ∃ m ∈ cycle.all, (module m).type = type ∧ (module m).ctxIndex = index

theorem clash_iff {modules : List ℕ} : clash module type index modules ↔
    ∃ m ∈ modules, (module m).type = type ∧ (module m).ctxIndex = index := by
  simp [clash]

theorem taken_iff : Taken module cycle type index ↔
    clash module type index cycle.modules ∨ clash module type index cycle.old := by
  rw [Taken, clash_iff, clash_iff, Cycle.all]
  constructor
  · rintro ⟨m, hm, hindex⟩
    rcases List.mem_append.mp hm with hm | hm
    · exact Or.inl ⟨m, hm, hindex⟩
    · exact Or.inr ⟨m, hm, hindex⟩
  · rintro (⟨m, hm, hindex⟩ | ⟨m, hm, hindex⟩)
    · exact ⟨m, List.mem_append_left _ hm, hindex⟩
    · exact ⟨m, List.mem_append_right _ hm, hindex⟩

/-- All indices up to one are taken by as many modules. -/
theorem le_length_of_taken {n : ℕ}
    (htaken : ∀ j, 0 ≤ j → j < (n : ℤ) → Taken module cycle type j) : n ≤ cycle.all.length := by
  have hsub : (List.range n).map (fun j : ℕ => (j : ℤ)) ⊆
      cycle.all.map fun m => (module m).ctxIndex := by
    intro j hj
    obtain ⟨i, hi, rfl⟩ := List.mem_map.mp hj
    have hlt := List.mem_range.mp hi
    obtain ⟨m, hm, -, hindex⟩ := htaken i (Int.natCast_nonneg i) (by omega)
    exact List.mem_map.mpr ⟨m, hm, hindex⟩
  have hnodup : ((List.range n).map fun j : ℕ => (j : ℤ)).Nodup :=
    List.nodup_range.map Int.ofNat_injective
  have hlength := (List.subperm_of_subset hnodup hsub).length_le
  rwa [List.length_map, List.length_map, List.length_range] at hlength

/-- The search goes past taken indices to one that is free. -/
theorem nightModuleCtxIndex_free (fuel : ℕ) (hfew : (cycle.all.length : ℤ) ≤ intMax)
    (hfuel : (cycle.all.length : ℤ) < index + fuel) (hindex : 0 ≤ index)
    (htaken : ∀ j, 0 ≤ j → j < index → Taken module cycle type j) :
    ∃ found, nightModuleCtxIndex module cycle type fuel index = some found ∧ 0 ≤ found ∧
      (∀ j, 0 ≤ j → j < found → Taken module cycle type j) ∧
      ¬ Taken module cycle type found := by
  induction fuel generalizing index with
  | zero =>
    have hle := le_length_of_taken (n := index.toNat) (fun j hj hlt => htaken j hj (by omega))
    omega
  | succ fuel ih =>
    rw [nightModuleCtxIndex]
    by_cases hclash : Taken module cycle type index
    · have htaken' : ∀ j, 0 ≤ j → j < index + 1 → Taken module cycle type j := by
        intro j hj hlt
        rcases Int.lt_add_one_iff.mp hlt |>.lt_or_eq with hlt | rfl
        · exact htaken j hj hlt
        · exact hclash
      have hle := le_length_of_taken (n := (index + 1).toNat)
        (fun j hj hlt => htaken' j hj (by omega))
      have hincrement : increment index = some (index + 1) := if_pos (by omega)
      obtain ⟨found, hsearch, hfound⟩ :=
        @ih (index + 1) (by push_cast at hfuel; omega) (by omega) htaken'
      refine ⟨found, ?_, hfound⟩
      rw [hincrement, Option.bind_some, hsearch]
      rcases taken_iff.mp hclash with hin | hin
      · rw [if_pos hin]
      · rw [if_pos hin, ite_self]
    · refine ⟨index, ?_, hindex, htaken, hclash⟩
      rw [taken_iff] at hclash
      push Not at hclash
      rw [if_neg hclash.1, if_neg hclash.2]

/-! ## The loop -/

/-- What holds after the modules `done` have been counted. -/
structure Loop (before : ℕ → Module) (cycle : Cycle) (type : BitVec 64) (done : List ℕ)
    (s : Counting) : Prop where
  kept : ∀ m, (m ∈ done → (before m).type = type → (before m).ctxIndex ≠ unsetIndex) →
    s.module m = before m
  types : ∀ m, (s.module m).type = (before m).type
  indexed : ∀ m ∈ done, (before m).type = type →
    0 ≤ (s.module m).ctxIndex ∧ (s.module m).ctxIndex ≤ s.max
  distinct : ∀ m ∈ cycle.modules, ∀ n ∈ cycle.modules, (before m).type = type →
    (before n).type = type → m ≠ n → (s.module m).ctxIndex ≠ unsetIndex →
    (s.module m).ctxIndex ≠ (s.module n).ctxIndex
  fresh : ∀ m ∈ cycle.modules, (before m).type = type → (before m).ctxIndex = unsetIndex →
    (s.module m).ctxIndex ≠ unsetIndex → ∀ n ∈ cycle.old, (before n).type = type → m ≠ n →
    (s.module m).ctxIndex ≠ (s.module n).ctxIndex
  below : ∀ m ∈ cycle.all, (before m).type = type → (s.module m).ctxIndex < intMax
  next : 0 ≤ s.next
  taken : ∀ j, 0 ≤ j → j < s.next → Taken s.module cycle type j
  max : 0 ≤ s.max ∧ s.max < intMax

variable {done : List ℕ} {s : Counting} {m : ℕ} {fuel : ℕ}

theorem le_raise (max index : ℤ) : max ≤ raise max index := by
  rw [raise]
  split <;> omega

theorem index_le_raise (max index : ℤ) : index ≤ raise max index := by
  rw [raise]
  split <;> omega

theorem raise_lt {max bound : ℤ} (hmax : max < bound) (hindex : index < bound) :
    raise max index < bound := by
  rw [raise]
  split <;> assumption

theorem Loop.start (hvalid : Valid before cycle) (type : BitVec 64) :
    Loop before cycle type [] ⟨before, 0, 0⟩ where
  kept := fun m hkept => rfl
  types := fun m => rfl
  indexed := fun m hm => absurd hm List.not_mem_nil
  distinct := fun m hm n hn hmtype hntype hne hset =>
    hvalid.distinct m hm n hn hne (hmtype.trans hntype.symm) hset
  fresh := fun m hm htype hunset hset => absurd hunset hset
  below := fun m hm htype => hvalid.below m hm
  next := le_rfl
  taken := fun j hj hlt => absurd hj (not_le_of_gt hlt)
  max := ⟨le_rfl, show (0 : ℤ) < intMax by decide⟩

/-- A module of another type. -/
theorem Loop.other (hloop : Loop before cycle type done s) (htype : (before m).type ≠ type) :
    Loop before cycle type (done ++ [m]) s :=
  { hloop with
    kept := fun n hkept => hloop.kept n fun hn => hkept (List.mem_append_left _ hn)
    indexed := by
      intro n hn hntype
      rcases List.mem_append.mp hn with hn | hn
      · exact hloop.indexed n hn hntype
      · rw [List.mem_singleton.mp hn] at hntype
        exact absurd hntype htype }

/-- A module that has an index. -/
theorem Loop.preset (hloop : Loop before cycle type done s) (hvalid : Valid before cycle)
    (hm : m ∈ cycle.modules) (htype : (before m).type = type)
    (hset : (s.module m).ctxIndex ≠ unsetIndex) {next : ℤ} (hnext : 0 ≤ next)
    (htaken : ∀ j, 0 ≤ j → j < next → Taken s.module cycle type j) :
    Loop before cycle type (done ++ [m])
      { s with max := raise s.max (s.module m).ctxIndex, next := next } where
  kept := fun n hkept => hloop.kept n fun hn => hkept (List.mem_append_left _ hn)
  types := hloop.types
  indexed := by
    intro n hn hntype
    by_cases hdone : n ∈ done
    · have hold := hloop.indexed n hdone hntype
      exact ⟨hold.1, hold.2.trans (le_raise _ _)⟩
    · have hsame : n = m := by
        rcases List.mem_append.mp hn with hn | hn
        · exact absurd hn hdone
        · exact List.mem_singleton.mp hn
      subst hsame
      have hold := hloop.kept n fun hn => absurd hn hdone
      refine ⟨?_, index_le_raise _ _⟩
      change 0 ≤ (s.module n).ctxIndex
      rw [hold] at hset ⊢
      exact hvalid.nonneg n hm hset
  distinct := hloop.distinct
  fresh := hloop.fresh
  below := hloop.below
  next := hnext
  taken := htaken
  max := by
    have hbelow := hloop.below m (List.mem_append_left _ hm) htype
    exact ⟨hloop.max.1.trans (le_raise _ _), raise_lt hloop.max.2 hbelow⟩

@[simp]
theorem setIndex_self : setIndex module m index m = { module m with ctxIndex := index } :=
  Function.update_self ..

theorem setIndex_of_ne {n : ℕ} (hne : n ≠ m) : setIndex module m index n = module n :=
  Function.update_of_ne hne ..

@[simp]
theorem setIndex_type (n : ℕ) : (setIndex module m index n).type = (module n).type := by
  by_cases hne : n = m
  · rw [hne, setIndex_self]
  · rw [setIndex_of_ne hne]

/-- A module gets an index that no other one has. -/
theorem setIndex_ne {n r : ℕ} (hne : n ≠ r) (hn : (module n).ctxIndex ≠ index)
    (hr : (module r).ctxIndex ≠ index)
    (hold : n ≠ m → (module n).ctxIndex ≠ (module r).ctxIndex) :
    (setIndex module m index n).ctxIndex ≠ (setIndex module m index r).ctxIndex := by
  by_cases hnm : n = m
  · subst hnm
    rw [setIndex_self, setIndex_of_ne hne.symm]
    exact hr.symm
  · by_cases hrm : r = m
    · subst hrm
      rw [setIndex_self, setIndex_of_ne hnm]
      exact hn
    · rw [setIndex_of_ne hnm, setIndex_of_ne hrm]
      exact hold hnm

theorem taken_setIndex (hm : m ∈ cycle.all) (htype : (module m).type = type)
    (hunset : (module m).ctxIndex = unsetIndex)
    (htaken : ∀ j, 0 ≤ j → j < index → Taken module cycle type j) :
    ∀ j, 0 ≤ j → j < index + 1 → Taken (setIndex module m index) cycle type j := by
  intro j hj hlt
  rcases (Int.lt_add_one_iff.mp hlt).lt_or_eq with hlt | rfl
  · obtain ⟨n, hn, hntype, hsame⟩ := htaken j hj hlt
    have hne : n ≠ m := by
      rintro rfl
      rw [← hsame, hunset] at hj
      exact absurd hj (by decide)
    refine ⟨n, hn, ?_⟩
    rw [setIndex_of_ne hne]
    exact ⟨hntype, hsame⟩
  · refine ⟨m, hm, ?_⟩
    rw [setIndex_self]
    exact ⟨htype, rfl⟩

/-- A module that gets an index. -/
theorem Loop.assign (hloop : Loop before cycle type done s) (hm : m ∈ cycle.modules)
    (htype : (before m).type = type) (hunset : (s.module m).ctxIndex = unsetIndex)
    (hindex : 0 ≤ index) (hbelow : index < intMax)
    (htaken : ∀ j, 0 ≤ j → j < index → Taken s.module cycle type j)
    (hfree : ¬ Taken s.module cycle type index) :
    Loop before cycle type (done ++ [m])
      { module := setIndex s.module m index, max := raise s.max index, next := index + 1 } := by
  have hunused : ∀ n ∈ cycle.all, (before n).type = type → (s.module n).ctxIndex ≠ index := by
    intro n hn hntype hsame
    exact hfree ⟨n, hn, (hloop.types n).trans hntype, hsame⟩
  have hcycle : ∀ n ∈ cycle.modules, n ∈ cycle.all := fun n hn => List.mem_append_left _ hn
  have hnotDone : m ∉ done := by
    intro hdone
    have hold := (hloop.indexed m hdone htype).1
    rw [hunset] at hold
    exact absurd hold (by decide)
  have hbefore : (before m).ctxIndex = unsetIndex := by
    rw [← hloop.kept m fun hdone => absurd hdone hnotDone]
    exact hunset
  have hset : ∀ n, n ≠ m → (setIndex s.module m index n).ctxIndex ≠ unsetIndex →
      (s.module n).ctxIndex ≠ unsetIndex := by
    intro n hne hset
    rwa [setIndex_of_ne hne] at hset
  constructor
  · -- kept
    intro n hkept
    by_cases hne : n = m
    · subst hne
      exact absurd hbefore (hkept (List.mem_append_right _ List.mem_cons_self) htype)
    · rw [← hloop.kept n fun hn => hkept (List.mem_append_left _ hn)]
      exact setIndex_of_ne hne
  · -- types
    intro n
    rw [← hloop.types n]
    exact setIndex_type n
  · -- indexed
    intro n hn hntype
    by_cases hne : n = m
    · subst hne
      simp only [setIndex_self]
      exact ⟨hindex, index_le_raise _ _⟩
    · simp only [setIndex_of_ne hne]
      rcases List.mem_append.mp hn with hn | hn
      · have hold := hloop.indexed n hn hntype
        exact ⟨hold.1, hold.2.trans (le_raise _ _)⟩
      · exact absurd (List.mem_singleton.mp hn) hne
  · -- distinct
    intro n hn r hr hntype hrtype hne hnset
    exact setIndex_ne hne (hunused n (hcycle n hn) hntype) (hunused r (hcycle r hr) hrtype)
      fun hnm => hloop.distinct n hn r hr hntype hrtype hne (hset n hnm hnset)
  · -- fresh
    intro n hn hntype hnbefore hnset r hr hrtype hne
    exact setIndex_ne hne (hunused n (hcycle n hn) hntype)
      (hunused r (List.mem_append_right _ hr) hrtype)
      fun hnm => hloop.fresh n hn hntype hnbefore (hset n hnm hnset) r hr hrtype hne
  · -- below
    intro n hn hntype
    by_cases hnm : n = m
    · subst hnm
      simp only [setIndex_self]
      exact hbelow
    · simp only [setIndex_of_ne hnm]
      exact hloop.below n hn hntype
  · -- next
    exact hindex.trans (Int.le_add_one le_rfl)
  · -- taken
    exact taken_setIndex (hcycle m hm) ((hloop.types m).trans htype) hunset htaken
  · -- max
    exact ⟨hloop.max.1.trans (le_raise _ _), raise_lt hloop.max.2 hbelow⟩

theorem Loop.step (hloop : Loop before cycle type done s) (hvalid : Valid before cycle)
    (hm : m ∈ cycle.modules) (hfuel : cycle.all.length < fuel) :
    ∃ s', countModule fuel cycle type s m = some s' ∧ Loop before cycle type (done ++ [m]) s' := by
  rw [countModule]
  by_cases htype : (before m).type = type
  · have hstype := (hloop.types m).trans htype
    rw [if_neg (not_not.mpr hstype)]
    by_cases hset : (s.module m).ctxIndex = unsetIndex
    · rw [if_neg (not_not.mpr hset)]
      obtain ⟨found, hsearch, hnonneg, htaken, hfree⟩ :=
        nightModuleCtxIndex_free fuel hvalid.few (by have := hloop.next; omega)
          hloop.next hloop.taken
      have hall : m ∈ cycle.all := List.mem_append_left _ hm
      have hlength := le_length_of_taken (n := (found + 1).toNat) fun j hj hlt =>
        taken_setIndex hall hstype hset htaken j hj (by omega)
      have hbelow : found < intMax := by
        have hfew := hvalid.few
        omega
      have hincrement : increment found = some (found + 1) := if_pos hbelow
      exact ⟨_, by rw [hsearch, Option.bind_eq_bind, Option.bind_some, hincrement]; rfl,
        hloop.assign hm htype hset hnonneg hbelow htaken hfree⟩
    · rw [if_pos hset]
      by_cases hnext : (s.module m).ctxIndex = s.next
      · have htaken : ∀ j, 0 ≤ j → j < s.next + 1 → Taken s.module cycle type j := by
          intro j hj hlt
          rcases (Int.lt_add_one_iff.mp hlt).lt_or_eq with hlt | rfl
          · exact hloop.taken j hj hlt
          · exact ⟨m, List.mem_append_left _ hm, hstype, hnext⟩
        have hbelow := hloop.below m (List.mem_append_left _ hm) htype
        have hincrement : increment s.next = some (s.next + 1) := if_pos (hnext ▸ hbelow)
        have hnonneg := hloop.next
        exact ⟨_, by rw [if_pos hnext, hincrement]; rfl,
          hloop.preset hvalid hm htype hset (by omega) htaken⟩
      · exact ⟨_, by rw [if_neg hnext]; rfl,
          hloop.preset hvalid hm htype hset hloop.next hloop.taken⟩
  · rw [if_pos fun hsame => htype ((hloop.types m).symm.trans hsame)]
    exact ⟨s, rfl, hloop.other htype⟩

/-- The first loop. -/
theorem Loop.run (hvalid : Valid before cycle) (hfuel : cycle.all.length < fuel)
    {modules : List ℕ} (hmodules : modules ⊆ cycle.modules)
    (hloop : Loop before cycle type done s) :
    ∃ s', modules.foldlM (countModule fuel cycle type) s = some s' ∧
      Loop before cycle type (done ++ modules) s' := by
  induction modules generalizing done s with
  | nil => exact ⟨s, rfl, by rwa [List.append_nil]⟩
  | cons m modules ih =>
    obtain ⟨s₁, hstep, hloop₁⟩ := hloop.step hvalid (hmodules List.mem_cons_self) hfuel
    obtain ⟨s', hrun, hloop'⟩ := ih (fun n hn => hmodules (List.mem_cons_of_mem _ hn)) hloop₁
    rw [List.append_assoc] at hloop'
    refine ⟨s', ?_, hloop'⟩
    rw [List.foldlM_cons, hstep]
    exact hrun

/-! ## The count -/

theorem oldMax_spec {modules : List ℕ} {max bound : ℤ} (hmax : max < bound)
    (hbelow : ∀ m ∈ modules, (module m).type = type → (module m).ctxIndex < bound) :
    max ≤ oldMax module type modules max ∧ oldMax module type modules max < bound ∧
      ∀ m ∈ modules, (module m).type = type →
        (module m).ctxIndex ≤ oldMax module type modules max := by
  induction modules generalizing max with
  | nil => exact ⟨le_rfl, hmax, fun m hm => absurd hm List.not_mem_nil⟩
  | cons m modules ih =>
    have hrest : ∀ n ∈ modules, (module n).type = type → (module n).ctxIndex < bound :=
      fun n hn => hbelow n (List.mem_cons_of_mem _ hn)
    rw [oldMax, List.foldl_cons]
    by_cases htype : (module m).type = type
    · rw [if_neg (not_not.mpr htype)]
      obtain ⟨hle, hlt, hall⟩ := ih (raise_lt hmax (hbelow m List.mem_cons_self htype)) hrest
      refine ⟨(le_raise _ _).trans hle, hlt, ?_⟩
      intro n hn hntype
      rcases List.mem_cons.mp hn with rfl | hn
      · exact (index_le_raise _ _).trans hle
      · exact hall n hn hntype
    · rw [if_pos htype]
      obtain ⟨hle, hlt, hall⟩ := ih hmax hrest
      refine ⟨hle, hlt, ?_⟩
      intro n hn hntype
      rcases List.mem_cons.mp hn with rfl | hn
      · exact absurd hntype htype
      · exact hall n hn hntype

/-- Modules with valid indices are counted, whatever indices they have. -/
theorem nightCountModules_spec (hvalid : Valid before cycle) (type : BitVec 64)
    (hfuel : cycle.all.length < fuel) :
    ∃ count after, nightCountModules fuel before cycle type = some (count, after) ∧
      Counted before after cycle type count := by
  obtain ⟨s, hrun, hloop⟩ :=
    (Loop.start hvalid type).run hvalid hfuel (List.Subset.refl cycle.modules)
  rw [List.nil_append] at hloop
  have hold : ∀ m ∈ cycle.old, (s.module m).type = type → (s.module m).ctxIndex < intMax :=
    fun m hm htype => hloop.below m (List.mem_append_right _ hm) ((hloop.types m).symm.trans htype)
  obtain ⟨hle, hlt, hall⟩ := oldMax_spec hloop.max.2 hold
  have hincrement : increment (oldMax s.module type cycle.old s.max) =
      some (oldMax s.module type cycle.old s.max + 1) := if_pos hlt
  refine ⟨oldMax s.module type cycle.old s.max + 1, s.module, ?_, ?_⟩
  · rw [nightCountModules, hrun, Option.bind_eq_bind, Option.bind_some]
    rw [hincrement]
    rfl
  · have hset : ∀ m ∈ cycle.modules, (before m).type = type →
        (s.module m).ctxIndex ≠ unsetIndex := by
      intro m hm htype hunset
      have hindexed := (hloop.indexed m hm htype).1
      rw [hunset] at hindexed
      exact absurd hindexed (by decide)
    refine ⟨hloop.kept, hloop.types, fun m hm htype => (hloop.indexed m hm htype).1, ?_, ?_,
      Int.lt_add_one_of_le (hloop.max.1.trans hle), ?_⟩
    · intro m hm n hn hmtype hntype hne
      exact hloop.distinct m hm n hn hmtype hntype hne (hset m hm hmtype)
    · intro m hm htype hunset n hn hntype hne
      exact hloop.fresh m hm htype hunset (hset m hm htype) n hn hntype hne
    · intro m hm htype
      apply Int.lt_add_one_of_le
      rcases List.mem_append.mp hm with hm | hm
      · exact (hloop.indexed m hm htype).2.trans hle
      · exact hall m hm ((hloop.types m).trans htype)

end Night.Modules
