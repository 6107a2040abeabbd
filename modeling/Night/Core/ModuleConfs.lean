import Mathlib.Data.List.Basic
import Night.Core.Modules

/-!
# The configuration slots of the modules of a type

`night_http_block` and `night_events_block` count the modules of their type, allocate arrays
with a slot for each, and let every module create its configuration there.
-/

namespace Night.ModuleConfs

open Modules

/-! ## The source -/

def nightEventModule : BitVec 64 := 0x544E5645#64

def nightHttpModule : BitVec 64 := 0x50545448#64

inductive ReturnCode where
  | ok
  | error
  | duplicate
deriving DecidableEq, Repr

section

-- `K` names the arrays of a block
variable {K : Type} [DecidableEq K]

/-- For each array the module's handler fills its slot; a NULL from the handler is an error.
A handler is given by the pointer it returns.  A slot outside the array is not written. -/
def createModule (index : ℤ) (handlers : K → Option ℕ) (confs : K → List ℕ) :
    List K → Option (ReturnCode × (K → List ℕ))
  | [] => some (.ok, confs)
  | array :: arrays =>
    match handlers array with
    | none => createModule index handlers confs arrays
    | some conf =>
      if 0 ≤ index ∧ index < (confs array).length then
        let confs := Function.update confs array ((confs array).set index.toNat conf)
        if conf = 0 then some (.error, confs) else createModule index handlers confs arrays
      else none

/-- The loop over the modules of the cycle. -/
def createConfs (module : ℕ → Module) (type : BitVec 64) (handlers : ℕ → K → Option ℕ)
    (arrays : List K) (confs : K → List ℕ) : List ℕ → Option (ReturnCode × (K → List ℕ))
  | [] => some (.ok, confs)
  | m :: modules =>
    if (module m).type ≠ type then createConfs module type handlers arrays confs modules
    else do
      let (rc, confs) ← createModule (module m).ctxIndex (handlers m) confs arrays
      if rc = .ok then createConfs module type handlers arrays confs modules
      else some (rc, confs)

end

/-- What a block leaves: its return code, the modules, and its arrays once they are there. -/
structure Block (K : Type) where
  rc : ReturnCode
  module : ℕ → Module
  confs : Option (K → List ℕ)

/-- The arrays of a `night_http_conf_ctx_t`. -/
inductive HttpConf where
  | mainConf
  | srvConf
  | locConf
deriving DecidableEq, Repr

/-- Arrays of `count` slots from `night_pcalloc`. -/
def zeroed {K : Type} (count : ℤ) : K → List ℕ := fun _ => List.replicate count.toNat 0

/-- The requests for memory that are granted. -/
structure HttpGrants where
  ctx : Bool
  conf : HttpConf → Bool

/-- Up to the loop that creates the configurations; `conf` is what the block's own slot holds.
The rest of the function runs after `.ok`. -/
def nightHttpBlock (fuel : ℕ) (grants : HttpGrants) (handlers : ℕ → HttpConf → Option ℕ)
    (module : ℕ → Module) (cycle : Cycle) (conf : ℕ) : Option (Block HttpConf) :=
  if conf ≠ 0 then some ⟨.duplicate, module, none⟩
  else if grants.ctx = false then some ⟨.error, module, none⟩
  else do
    let (nightHttpMaxModule, module) ← nightCountModules fuel module cycle nightHttpModule
    if grants.conf .mainConf && grants.conf .srvConf && grants.conf .locConf then
      let (rc, confs) ← createConfs module nightHttpModule handlers
        [.mainConf, .srvConf, .locConf] (zeroed nightHttpMaxModule) cycle.modules
      some ⟨rc, module, some confs⟩
    else some ⟨.error, module, none⟩

/-- The one array of `events`. -/
inductive EventConf where
  | conf
deriving DecidableEq, Repr

structure EventGrants where
  ctx : Bool
  conf : Bool

def nightEventsBlock (fuel : ℕ) (grants : EventGrants) (handlers : ℕ → EventConf → Option ℕ)
    (module : ℕ → Module) (cycle : Cycle) (conf : ℕ) : Option (Block EventConf) :=
  if conf ≠ 0 then some ⟨.duplicate, module, none⟩
  else do
    let (nightEventMaxModule, module) ← nightCountModules fuel module cycle nightEventModule
    if grants.ctx && grants.conf then
      let (rc, confs) ← createConfs module nightEventModule handlers [.conf]
        (zeroed nightEventMaxModule) cycle.modules
      some ⟨rc, module, some confs⟩
    else some ⟨.error, module, none⟩

/-! ## Filled slots -/

section

variable {K : Type} [DecidableEq K] {module : ℕ → Module} {type : BitVec 64}
  {handlers : ℕ → K → Option ℕ} {arrays : List K} {confs confs' : K → List ℕ} {modules : List ℕ}

/-- The slots that are not as before are those of the modules, and hold what they created. -/
structure Filled (module : ℕ → Module) (type : BitVec 64) (handlers : ℕ → K → Option ℕ)
    (modules : List ℕ) (confs confs' : K → List ℕ) : Prop where
  length : ∀ array, (confs' array).length = (confs array).length
  slots : ∀ array (j : ℕ), (confs' array)[j]? = (confs array)[j]? ∨
    ∃ m ∈ modules, ∃ conf, (module m).type = type ∧ (module m).ctxIndex = j ∧
      handlers m array = some conf ∧ (confs' array)[j]? = some conf

omit [DecidableEq K] in
theorem Filled.refl (confs : K → List ℕ) :
    Filled module type handlers modules confs confs where
  length := fun _ => rfl
  slots := fun _ _ => Or.inl rfl

omit [DecidableEq K] in
theorem Filled.trans {confs'' : K → List ℕ}
    (hfirst : Filled module type handlers modules confs confs')
    (hrest : Filled module type handlers modules confs' confs'') :
    Filled module type handlers modules confs confs'' where
  length := fun array => (hrest.length array).trans (hfirst.length array)
  slots := by
    intro array j
    rcases hrest.slots array j with hsame | hslot
    · rw [hsame]
      exact hfirst.slots array j
    · exact Or.inr hslot

omit [DecidableEq K] in
theorem Filled.mono {modules' : List ℕ} (hsub : modules ⊆ modules')
    (hfilled : Filled module type handlers modules confs confs') :
    Filled module type handlers modules' confs confs' where
  length := hfilled.length
  slots := by
    intro array j
    rcases hfilled.slots array j with hsame | ⟨m, hm, conf, hslot⟩
    · exact Or.inl hsame
    · exact Or.inr ⟨m, hsub hm, conf, hslot⟩

omit [DecidableEq K] in
/-- A slot stays what a module has put there, if no other module has its index. -/
theorem Filled.keeps {m : ℕ} {array : K} {conf : ℕ}
    (hfilled : Filled module type handlers modules confs confs')
    (hindex : 0 ≤ (module m).ctxIndex)
    (honly : ∀ n ∈ modules, (module n).type = type → (module n).ctxIndex = (module m).ctxIndex →
      n = m)
    (hconf : handlers m array = some conf)
    (hslot : (confs array)[(module m).ctxIndex.toNat]? = some conf) :
    (confs' array)[(module m).ctxIndex.toNat]? = some conf := by
  rcases hfilled.slots array (module m).ctxIndex.toNat with
    hsame | ⟨n, hn, conf', htype, hsame, hconf', hslot'⟩
  · rw [hsame, hslot]
  · have hnm : n = m := honly n hn htype (by omega)
    rw [hnm, hconf] at hconf'
    rw [hslot', Option.some.inj hconf']

/-- A slot of another array, or of another index, stays. -/
theorem getElem?_update_set (confs : K → List ℕ) (array other : K) (i conf j : ℕ) :
    (Function.update confs array ((confs array).set i conf) other)[j]? = (confs other)[j]? ∨
      other = array ∧ j = i ∧
        (Function.update confs array ((confs array).set i conf) other)[j]? = some conf := by
  by_cases hother : other = array
  · subst hother
    rw [Function.update_self, List.getElem?_set]
    by_cases hj : i = j
    · subst hj
      by_cases hin : i < (confs other).length
      · exact Or.inr ⟨rfl, rfl, by rw [if_pos rfl, if_pos hin]⟩
      · left
        rw [if_pos rfl, if_neg hin, List.getElem?_eq_none (Nat.le_of_not_lt hin)]
    · exact Or.inl (if_neg hj)
  · exact Or.inl (by rw [Function.update_of_ne hother])

theorem createModule_filled (handlers : ℕ → K → Option ℕ) (arrays : List K) {m : ℕ} (htype : (module m).type = type)
    (hindex : 0 ≤ (module m).ctxIndex)
    (hroom : ∀ array, (module m).ctxIndex < (confs array).length) :
    ∃ rc confs', createModule (module m).ctxIndex (handlers m) confs arrays = some (rc, confs') ∧
      Filled module type handlers [m] confs confs' ∧
      (rc = .ok → ∀ array ∈ arrays, ∀ conf, handlers m array = some conf →
        (confs' array)[(module m).ctxIndex.toNat]? = some conf) := by
  induction arrays generalizing confs with
  | nil =>
    exact ⟨.ok, confs, rfl, .refl confs, fun hok array hin => absurd hin List.not_mem_nil⟩
  | cons array arrays ih =>
    rw [createModule]
    cases hhandler : handlers m array with
    | none =>
      obtain ⟨rc, confs', hcreate, hfilled, hmade⟩ := ih hroom
      refine ⟨rc, confs', hcreate, hfilled, ?_⟩
      intro hok other hin conf hconf
      rcases List.mem_cons.mp hin with rfl | hin
      · rw [hhandler] at hconf
        cases hconf
      · exact hmade hok other hin conf hconf
    | some conf =>
      let confs₁ := Function.update confs array
        ((confs array).set (module m).ctxIndex.toNat conf)
      have hlength₁ : ∀ other, (confs₁ other).length = (confs other).length := by
        intro other
        by_cases hother : other = array
        · subst hother
          simp only [confs₁, Function.update_self, List.length_set]
        · simp only [confs₁, Function.update_of_ne hother]
      have hslot : (confs₁ array)[(module m).ctxIndex.toNat]? = some conf := by
        have hlt := hroom array
        simp only [confs₁, Function.update_self]
        exact List.getElem?_set_self (by omega)
      have hfilled₁ : Filled module type handlers [m] confs confs₁ := by
        refine ⟨hlength₁, ?_⟩
        intro other j
        rcases getElem?_update_set confs array other (module m).ctxIndex.toNat conf j with
          hsame | ⟨rfl, rfl, hset⟩
        · exact Or.inl hsame
        · exact Or.inr ⟨m, List.mem_singleton.mpr rfl, conf, htype,
            (Int.toNat_of_nonneg hindex).symm, hhandler, hset⟩
      simp only
      rw [if_pos ⟨hindex, hroom array⟩]
      by_cases hnull : conf = 0
      · rw [if_pos hnull]
        exact ⟨.error, confs₁, rfl, hfilled₁, fun hok => absurd hok (by decide)⟩
      · rw [if_neg hnull]
        obtain ⟨rc, confs', hcreate, hfilled, hmade⟩ :=
          @ih confs₁ fun other => by rw [hlength₁]; exact hroom other
        refine ⟨rc, confs', hcreate, hfilled₁.trans hfilled, ?_⟩
        intro hok other hin conf' hconf'
        rcases List.mem_cons.mp hin with rfl | hin
        · rw [hhandler] at hconf'
          obtain rfl := Option.some.inj hconf'
          exact hfilled.keeps hindex (fun n hn _ _ => List.mem_singleton.mp hn) hhandler hslot
        · exact hmade hok other hin conf' hconf'

/-- Every module writes in the arrays, and finds there what it has written. -/
theorem createConfs_filled (handlers : ℕ → K → Option ℕ) (arrays : List K)
    (hindex : ∀ m ∈ modules, (module m).type = type → 0 ≤ (module m).ctxIndex)
    (hroom : ∀ m ∈ modules, (module m).type = type →
      ∀ array, (module m).ctxIndex < (confs array).length)
    (hdistinct : ∀ m ∈ modules, ∀ n ∈ modules, (module m).type = type → (module n).type = type →
      m ≠ n → (module m).ctxIndex ≠ (module n).ctxIndex) :
    ∃ rc confs', createConfs module type handlers arrays confs modules = some (rc, confs') ∧
      Filled module type handlers modules confs confs' ∧
      (rc = .ok → ∀ m ∈ modules, (module m).type = type → ∀ array ∈ arrays, ∀ conf,
        handlers m array = some conf → (confs' array)[(module m).ctxIndex.toNat]? = some conf) := by
  induction modules generalizing confs with
  | nil => exact ⟨.ok, confs, rfl, .refl confs, fun hok m hm => absurd hm List.not_mem_nil⟩
  | cons m modules ih =>
    have hmem : ∀ n ∈ modules, n ∈ m :: modules := fun n hn => List.mem_cons_of_mem _ hn
    have ih := fun confs hroom => @ih confs (fun n hn => hindex n (hmem n hn)) hroom
      fun n hn r hr => hdistinct n (hmem n hn) r (hmem r hr)
    rw [createConfs]
    by_cases htype : (module m).type = type
    · rw [if_neg (not_not.mpr htype)]
      have hm : m ∈ m :: modules := List.mem_cons_self
      obtain ⟨rc, confs₁, hcreate, hfilled₁, hmade₁⟩ := createModule_filled handlers arrays
        htype (hindex m hm htype) (hroom m hm htype)
      have hfilled₁' : Filled module type handlers (m :: modules) confs confs₁ :=
        hfilled₁.mono fun n hn => List.mem_singleton.mp hn ▸ hm
      rw [hcreate, Option.bind_eq_bind, Option.bind_some]
      simp only
      by_cases hok : rc = .ok
      · rw [if_pos hok]
        obtain ⟨rc', confs', hrest, hfilled, hmade⟩ := ih confs₁ fun n hn hntype array => by
          rw [hfilled₁.length]
          exact hroom n (hmem n hn) hntype array
        refine ⟨rc', confs', hrest, hfilled₁'.trans (hfilled.mono (List.subset_cons_self _ _)), ?_⟩
        intro hok' n hn hntype array hin conf hconf
        rcases List.mem_cons.mp hn with rfl | hn
        · apply hfilled.keeps (hindex n hm htype) _ hconf (hmade₁ hok array hin conf hconf)
          intro r hr hrtype hsame
          by_contra hne
          exact hdistinct r (hmem r hr) n hm hrtype htype hne hsame
        · exact hmade hok' n hn hntype array hin conf hconf
      · rw [if_neg hok]
        exact ⟨rc, confs₁, rfl, hfilled₁', fun hok' => absurd hok' hok⟩
    · rw [if_pos htype]
      obtain ⟨rc, confs', hrest, hfilled, hmade⟩ := ih confs fun n hn => hroom n (hmem n hn)
      refine ⟨rc, confs', hrest, hfilled.mono (List.subset_cons_self _ _), ?_⟩
      intro hok n hn hntype
      rcases List.mem_cons.mp hn with rfl | hn
      · exact absurd hntype htype
      · exact hmade hok n hn hntype

end

/-! ## The blocks -/

variable {before : ℕ → Module} {cycle : Cycle}

/-- The arrays of a block: a slot for each index, and after `.ok` in the slot of each module what
it has created. -/
structure Created {K : Type} (handlers : ℕ → K → Option ℕ) (cycle : Cycle) (type : BitVec 64)
    (count : ℤ) (block : Block K) : Prop where
  length : ∀ confs, block.confs = some confs → ∀ array, ((confs array).length : ℤ) = count
  slots : ∀ confs, block.confs = some confs → ∀ array (j : ℕ), j < (confs array).length →
    (confs array)[j]? = some 0 ∨ ∃ m ∈ cycle.modules, (block.module m).type = type ∧
      (block.module m).ctxIndex = j ∧ (confs array)[j]? = handlers m array
  made : block.rc = .ok → ∃ confs, block.confs = some confs ∧
    ∀ m ∈ cycle.modules, (block.module m).type = type → ∀ array conf,
      handlers m array = some conf →
        (confs array)[(block.module m).ctxIndex.toNat]? = some conf

/-- A block that has counted the modules and filled its arrays, or stopped before that. -/
def Filling {K : Type} (before : ℕ → Module) (handlers : ℕ → K → Option ℕ) (cycle : Cycle)
    (type : BitVec 64) (block : Block K) : Prop :=
  block.rc ≠ .ok ∧ block.confs = none ∨
    ∃ count, Counted before block.module cycle type count ∧ Created handlers cycle type count block

/-- The modules of each type are counted, and the blocks write only in their arrays. -/
structure Right (before : ℕ → Module) (cycle : Cycle) : Prop where
  counted : ∀ type fuel, cycle.all.length < fuel →
    ∃ count after, nightCountModules fuel before cycle type = some (count, after) ∧
      Counted before after cycle type count
  http : ∀ fuel grants handlers conf, cycle.all.length < fuel →
    ∃ block, nightHttpBlock fuel grants handlers before cycle conf = some block ∧
      Filling before handlers cycle nightHttpModule block
  events : ∀ fuel grants handlers conf, cycle.all.length < fuel →
    ∃ block, nightEventsBlock fuel grants handlers before cycle conf = some block ∧
      Filling before handlers cycle nightEventModule block

@[simp]
theorem length_zeroed {K : Type} (count : ℤ) (array : K) :
    (zeroed count array).length = count.toNat := List.length_replicate

/-- The loop of a block, over arrays with a slot for each index. -/
theorem createConfs_created {K : Type} [DecidableEq K] {after : ℕ → Module} {type : BitVec 64}
    {count : ℤ} (handlers : ℕ → K → Option ℕ) (arrays : List K) (harrays : ∀ array, array ∈ arrays)
    (hcounted : Counted before after cycle type count) :
    ∃ rc confs, createConfs after type handlers arrays (zeroed count) cycle.modules =
        some (rc, confs) ∧
      Created handlers cycle type count ⟨rc, after, some confs⟩ := by
  have htypes : ∀ m, (after m).type = type → (before m).type = type :=
    fun m htype => (hcounted.types m).symm.trans htype
  have hbelow : ∀ m ∈ cycle.modules, (after m).type = type → (after m).ctxIndex < count :=
    fun m hm htype => hcounted.below m (List.mem_append_left _ hm) (htypes m htype)
  have hpositive := hcounted.positive
  have hindex : ∀ m ∈ cycle.modules, (after m).type = type → 0 ≤ (after m).ctxIndex :=
    fun m hm htype => hcounted.indexed m hm (htypes m htype)
  have hroom : ∀ m ∈ cycle.modules, (after m).type = type → ∀ array : K,
      (after m).ctxIndex < (zeroed count array).length := by
    intro m hm htype array
    have hlt := hbelow m hm htype
    rw [length_zeroed]
    omega
  obtain ⟨rc, confs, hcreate, hfilled, hmade⟩ := createConfs_filled handlers arrays hindex
    hroom
    (fun m hm n hn hmtype hntype hne =>
      hcounted.distinct m hm n hn (htypes m hmtype) (htypes n hntype) hne)
  refine ⟨rc, confs, hcreate, ?_, ?_, ?_⟩
  · rintro _ ⟨⟩ array
    rw [hfilled.length, length_zeroed]
    omega
  · rintro _ ⟨⟩ array j hj
    rw [hfilled.length, length_zeroed] at hj
    rcases hfilled.slots array j with hsame | ⟨m, hm, conf, htype, hmindex, hconf, hslot⟩
    · left
      rw [hsame, zeroed, List.getElem?_replicate, if_pos hj]
    · exact Or.inr ⟨m, hm, htype, hmindex, hslot.trans hconf.symm⟩
  · intro hok
    exact ⟨confs, rfl, fun m hm htype array => hmade hok m hm htype array (harrays array)⟩

theorem Filling.stopped {K : Type} {module : ℕ → Module} {handlers : ℕ → K → Option ℕ}
    {type : BitVec 64} {rc : ReturnCode} (hrc : rc ≠ .ok) :
    Filling before handlers cycle type ⟨rc, module, none⟩ := Or.inl ⟨hrc, rfl⟩

theorem modules_right (hvalid : Valid before cycle) : Right before cycle := by
  constructor
  · intro type fuel hfuel
    exact nightCountModules_spec hvalid type hfuel
  · intro fuel grants handlers conf hfuel
    obtain ⟨count, after, hcount, hcounted⟩ := nightCountModules_spec hvalid nightHttpModule hfuel
    rw [nightHttpBlock]
    by_cases hconf : conf = 0
    · rw [if_neg (not_not.mpr hconf)]
      cases hctx : grants.ctx with
      | false => exact ⟨_, if_pos rfl, .stopped (by decide)⟩
      | true =>
        rw [if_neg (by decide), hcount, Option.bind_eq_bind, Option.bind_some]
        simp only
        by_cases hgrants : (grants.conf .mainConf && grants.conf .srvConf && grants.conf .locConf)
        · rw [if_pos hgrants]
          obtain ⟨rc, confs, hcreate, hcreated⟩ := createConfs_created handlers
            [.mainConf, .srvConf, .locConf] (by rintro (_ | _ | _) <;> decide) hcounted
          exact ⟨_, by rw [hcreate]; rfl, Or.inr ⟨count, hcounted, hcreated⟩⟩
        · rw [if_neg hgrants]
          exact ⟨_, rfl, .stopped (by decide)⟩
    · exact ⟨_, if_pos hconf, .stopped (by decide)⟩
  · intro fuel grants handlers conf hfuel
    obtain ⟨count, after, hcount, hcounted⟩ := nightCountModules_spec hvalid nightEventModule hfuel
    rw [nightEventsBlock]
    by_cases hconf : conf = 0
    · rw [if_neg (not_not.mpr hconf), hcount, Option.bind_eq_bind, Option.bind_some]
      simp only
      by_cases hgrants : (grants.ctx && grants.conf)
      · rw [if_pos hgrants]
        obtain ⟨rc, confs, hcreate, hcreated⟩ := createConfs_created handlers
          [.conf] (by rintro ⟨⟩; decide) hcounted
        exact ⟨_, by rw [hcreate]; rfl, Or.inr ⟨count, hcounted, hcreated⟩⟩
      · rw [if_neg hgrants]
        exact ⟨_, rfl, .stopped (by decide)⟩
    · exact ⟨_, if_pos hconf, .stopped (by decide)⟩

/-- Modules 1 to 3 are of the type of HTTP, the second with an index.  The first is also in the
old cycle, where module 4 has another index. -/
def sharedModules (m : ℕ) : Module :=
  ⟨if m = 2 then 0 else if m = 4 then 1 else unsetIndex, nightHttpModule⟩

theorem modules_right_shared : Right sharedModules ⟨[1, 2, 3], some [1, 4]⟩ := by
  apply modules_right
  constructor
  · unfold Distinct
    decide
  · decide
  · decide
  · decide

/-- One module of the type of HTTP that has an index. -/
def presetModule (index : ℤ) (_ : ℕ) : Module := ⟨index, nightHttpModule⟩

/-- A negative index, other than the one for none, is a slot before the array, and after the
largest `int` there is no count. -/
theorem not_right_preset :
    (Distinct (presetModule (-2)) ⟨[1], none⟩ ∧ ¬ Right (presetModule (-2)) ⟨[1], none⟩) ∧
      (Distinct (presetModule intMax) ⟨[1], none⟩ ∧
        ¬ Right (presetModule intMax) ⟨[1], none⟩) := by
  have hdistinct : ∀ index, Distinct (presetModule index) ⟨[1], none⟩ := by
    intro index m hm n hn hne
    exact absurd ((List.mem_singleton.mp hm).trans (List.mem_singleton.mp hn).symm) hne
  refine ⟨⟨hdistinct _, ?_⟩, hdistinct _, ?_⟩
  · intro hright
    obtain ⟨block, hblock, -⟩ :=
      hright.http 2 ⟨true, fun _ => true⟩ (fun _ _ => some 1) 0 (by decide)
    have hnone : nightHttpBlock 2 ⟨true, fun _ => true⟩ (fun _ _ => some 1) (presetModule (-2))
        ⟨[1], none⟩ 0 = none := rfl
    rw [hnone] at hblock
    cases hblock
  · intro hright
    obtain ⟨count, after, hcount, -⟩ := hright.counted nightHttpModule 2 (by decide)
    have hnone : nightCountModules 2 (presetModule intMax) ⟨[1], none⟩ nightHttpModule = none := rfl
    rw [hnone] at hcount
    cases hcount

end Night.ModuleConfs
