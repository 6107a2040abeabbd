import Night.Conf.Restore

/-!
# What is put back

A call of the parser leaves `cf->conf_file` and the buffers as they were, and the handler of
a block puts `*cf` back, except where `night_http_block` returns directly between
`cf->ctx = ctx` and `*cf = pcf`.
-/

namespace Night.ConfRestore

open Night.Conf (Args ParseType)

variable {σ : Type}

/-! ## The law of a call -/

/-- The calls of `night_http_block` whose failure returns without `*cf = pcf`. -/
def Step.unrestored : Step → Bool
  | .preconfiguration | .initLocations | .initStaticLocationTrees | .initPhases
  | .initHeadersInHash | .postconfiguration | .initVars => true
  | .pcalloc | .createConf | .initConf | .createMainConf | .createSrvConf | .createLocConf
  | .initMainConf | .mergeServers | .initPhaseHandlers | .optimizeServers => false

def Event.Harmless : Event → Prop
  | .refused step => step.unrestored = false
  | _ => True

/-- The handlers of blocks put `*cf` back. -/
def Event.Restored : Event → Prop
  | .block _ entry exit => exit = entry
  | _ => True

/-- The parser puts `cf->conf_file` back. -/
def Event.FileRestored : Event → Prop
  | .parsed entry exit => exit = entry
  | _ => True

def Event.isResource : Event → Bool
  | .opened _ | .closed _ | .allocated _ | .freed _ => true
  | .refused _ | .block _ _ _ | .parsed _ _ => false

/-- What happens to files and buffers. -/
def resources (log : List Event) : List Event := log.filter Event.isResource

/-- No file is opened, or it is closed once, and its buffer, if it has one, freed once. -/
def Released (log : List Event) : Prop :=
  resources log = [] ∨ (∃ fd, resources log = [.opened fd, .closed fd]) ∨
    ∃ fd start, resources log = [.opened fd, .allocated start, .freed start, .closed fd]

/-- A call of `night_conf_parse` puts back what it changed, and so did every call that it
led to. -/
structure Lawful (cf : NightConf) (out : Outcome σ) : Prop where
  confFile : out.cf.confFile = cf.confFile
  released : Released out.log
  parsers : ∀ event ∈ out.log, event.FileRestored
  blocks : ∀ event ∈ out.log, event.Restored

/-- Memory that the pool gives is not the one that `cf->ctx` points to. -/
def Fresh (env : Env σ) : Prop :=
  ∀ cf size s, (env.pcalloc cf size s).1 ≠ 0 → (env.pcalloc cf size s).1 ≠ cf.ctx

/-- What the calls behind the parser of a file keep. -/
structure Kept (env : Env σ) (cf : NightConf) (w : World σ) (out : Outcome σ) : Prop where
  confFile : out.cf.confFile = cf.confFile
  files : out.world.files = w.files
  resources : resources out.log = []
  ok : out.rv = .ok → out.cf = cf
  parsers : ∀ event ∈ out.log, event.FileRestored
  safe : (∀ event ∈ out.log, event.Harmless) → ∀ event ∈ out.log, event.Restored
  exact : Fresh env → (∀ event ∈ out.log, event.Restored) → ∀ event ∈ out.log, event.Harmless

variable {env : Env σ} {cf : NightConf} {w : World σ} {out : Outcome σ}

theorem resources_append (log more : List Event) :
    resources (log ++ more) = resources log ++ resources more :=
  List.filter_append ..

/-- A call that only returns. -/
theorem Kept.simple (rv : Rv) (s : σ) : Kept env cf w ⟨rv, cf, w.put s, []⟩ where
  confFile := rfl
  files := rfl
  resources := rfl
  ok _ := rfl
  parsers := by simp
  safe := by simp
  exact := by simp

/-- The state does not matter. -/
theorem Kept.of_put {s : σ} (hkept : Kept env cf (w.put s) out) : Kept env cf w out where
  confFile := hkept.confFile
  files := hkept.files
  resources := hkept.resources
  ok := hkept.ok
  parsers := hkept.parsers
  safe := hkept.safe
  exact := hkept.exact

/-- Two calls, one after the other. -/
theorem Kept.append {first second : Outcome σ} (hfirst : Kept env cf w first)
    (hsecond : Kept env first.cf first.world second) (hok : first.rv = .ok) :
    Kept env cf w { second with log := first.log ++ second.log } where
  confFile := hsecond.confFile.trans hfirst.confFile
  files := hsecond.files.trans hfirst.files
  resources := by rw [resources_append, hfirst.resources, hsecond.resources]; rfl
  ok h := (hsecond.ok h).trans (hfirst.ok hok)
  parsers := List.forall_mem_append.mpr ⟨hfirst.parsers, hsecond.parsers⟩
  safe h := by
    obtain ⟨hleft, hright⟩ := List.forall_mem_append.mp h
    exact List.forall_mem_append.mpr ⟨hfirst.safe hleft, hsecond.safe hright⟩
  exact hfresh h := by
    obtain ⟨hleft, hright⟩ := List.forall_mem_append.mp h
    exact List.forall_mem_append.mpr ⟨hfirst.exact hfresh hleft, hsecond.exact hfresh hright⟩

/-! ## The returns of the block handlers -/

/-- What stands in the log before the return: the calls of the parser, and a failure. -/
def refusals : Option Step → List Event
  | none => []
  | some step => [.refused step]

theorem resources_refusals (refused : Option Step) : resources (refusals refused) = [] := by
  cases refused <;> rfl

theorem refusals_fileRestored (refused : Option Step) :
    ∀ event ∈ refusals refused, event.FileRestored := by
  cases refused <;> simp [refusals, Event.FileRestored]

theorem refusals_restored (refused : Option Step) :
    ∀ event ∈ refusals refused, event.Restored := by
  cases refused <;> simp [refusals, Event.Restored]

theorem refusals_harmless_iff (refused : Option Step) :
    (∀ event ∈ refusals refused, event.Harmless) ↔
      ∀ step, refused = some step → step.unrestored = false := by
  cases refused <;> simp [refusals, Event.Harmless]

variable {kind : BlockKind} {rv : Rv} {s : σ}

/-- A return before the parser is called, with `*cf` as it was. -/
theorem Kept.early (refused : Option Step)
    (hrefused : ∀ step, refused = some step → step.unrestored = false) :
    Kept env cf w (leave kind cf rv cf (w.put s) (refusals refused)) where
  confFile := rfl
  files := rfl
  resources := by rw [leave, resources_append, resources_refusals]; rfl
  ok _ := rfl
  parsers := List.forall_mem_append.mpr
    ⟨refusals_fileRestored refused, by simp [Event.FileRestored]⟩
  safe _ := List.forall_mem_append.mpr ⟨refusals_restored refused, by simp [Event.Restored]⟩
  exact _ _ := List.forall_mem_append.mpr
    ⟨(refusals_harmless_iff refused).mpr hrefused, by simp [Event.Harmless]⟩

/-- A return behind the parser with `*cf = pcf`. -/
theorem Kept.restored {inner : NightConf} {parsed : Outcome σ}
    (hparsed : Kept env inner w parsed) (refused : Option Step)
    (hrefused : ∀ step, refused = some step → step.unrestored = false) :
    Kept env cf w (leave kind cf rv cf (parsed.world.put s)
      (parsed.log ++ refusals refused)) where
  confFile := rfl
  files := hparsed.files
  resources := by
    rw [leave, resources_append, resources_append, hparsed.resources, resources_refusals]
    rfl
  ok _ := rfl
  parsers := by
    rw [leave, List.forall_mem_append, List.forall_mem_append]
    exact ⟨⟨hparsed.parsers, refusals_fileRestored refused⟩, by simp [Event.FileRestored]⟩
  safe h := by
    rw [leave, List.forall_mem_append, List.forall_mem_append] at h ⊢
    exact ⟨⟨hparsed.safe h.1.1, refusals_restored refused⟩, by simp [Event.Restored]⟩
  exact hfresh h := by
    rw [leave, List.forall_mem_append, List.forall_mem_append] at h ⊢
    exact ⟨⟨hparsed.exact hfresh h.1.1, (refusals_harmless_iff refused).mpr hrefused⟩,
      by simp [Event.Harmless]⟩

/-- A direct return with another context in `cf`. -/
theorem Kept.direct {exit : NightConf} {step : Step} {log : List Event} {w' : World σ}
    (hconf : exit.confFile = cf.confFile) (hfiles : w'.files = w.files)
    (hresources : ConfRestore.resources log = []) (hrv : rv ≠ .ok)
    (hparsers : ∀ event ∈ log, event.FileRestored) (hstep : step.unrestored = true)
    (hctx : Fresh env → exit.ctx ≠ cf.ctx) :
    Kept env cf w (leave kind cf rv exit w' (log ++ [.refused step])) where
  confFile := hconf
  files := hfiles
  resources := by rw [leave, resources_append, resources_append, hresources]; rfl
  ok h := absurd h hrv
  parsers := by
    rw [leave, List.forall_mem_append, List.forall_mem_append]
    exact ⟨⟨hparsers, by simp [Event.FileRestored]⟩, by simp [Event.FileRestored]⟩
  safe h := by
    have hharmless : step.unrestored = false := h (.refused step) (by simp [leave])
    rw [hstep] at hharmless
    cases hharmless
  exact hfresh h := by
    have hexit : exit = cf := h (.block kind cf exit) (by simp [leave])
    exact absurd (congrArg NightConf.ctx hexit) (hctx hfresh)

/-! ## Which call fails -/

theorem inTurn_refused {tasks : List (Task σ)} {s' : σ} {step : Step}
    (hturn : inTurn tasks s = (some (step, rv), s')) :
    ∃ call s0, (step, call) ∈ tasks ∧ (call s0).1 = some rv := by
  induction tasks generalizing s with
  | nil => cases hturn
  | cons task tasks ih =>
      obtain ⟨name, call⟩ := task
      rw [inTurn] at hturn
      split at hturn
      · obtain ⟨call', s0, hmem, hcall⟩ := ih hturn
        exact ⟨call', s0, List.mem_cons_of_mem _ hmem, hcall⟩
      · rename_i hcall
        cases hturn
        exact ⟨call, s, List.mem_cons_self, congrArg Prod.fst hcall⟩

/-- The calls of a list are those whose failure returns without `*cf = pcf`, or not; where
they are, the return is not `NIGHT_CONF_OK`. -/
def Uniform (unrestored : Bool) (tasks : List (Task σ)) : Prop :=
  ∀ task ∈ tasks, task.1.unrestored = unrestored ∧
    (unrestored = true → ∀ s, (task.2 s).1 ≠ some .ok)

theorem Uniform.append {unrestored : Bool} {tasks more : List (Task σ)}
    (htasks : Uniform unrestored tasks) (hmore : Uniform unrestored more) :
    Uniform unrestored (tasks ++ more) :=
  List.forall_mem_append.mpr ⟨htasks, hmore⟩

theorem Uniform.refused {unrestored : Bool} {tasks : List (Task σ)}
    (htasks : Uniform unrestored tasks) {s' : σ} {step : Step}
    (hturn : inTurn tasks s = (some (step, rv), s')) :
    step.unrestored = unrestored ∧ (unrestored = true → rv ≠ .ok) := by
  obtain ⟨call, s0, hmem, hcall⟩ := inTurn_refused hturn
  obtain ⟨hstep, hok⟩ := htasks _ hmem
  refine ⟨hstep, fun htrue heq => ?_⟩
  rw [heq] at hcall
  exact hok htrue s0 hcall

theorem unlessOk_ne_ok (call : σ → ℤ × σ) (s : σ) : (unlessOk call s).1 ≠ some .ok := by
  by_cases hzero : (call s).1 = 0
  · simp [unlessOk, hzero]
  · simp [unlessOk, hzero]

theorem createConfs_uniform (table : ℕ) : Uniform false (createConfs env table) := by
  intro task hmem
  obtain ⟨m, _, hm⟩ := List.mem_filterMap.mp hmem
  obtain ⟨call, _, rfl⟩ := Option.map_eq_some_iff.mp hm
  exact ⟨rfl, fun h => by cases h⟩

theorem initConfs_uniform (table : ℕ) : Uniform false (initConfs env table) := by
  intro task hmem
  obtain ⟨m, _, hm⟩ := List.mem_filterMap.mp hmem
  obtain ⟨call, _, rfl⟩ := Option.map_eq_some_iff.mp hm
  exact ⟨rfl, fun h => by cases h⟩

theorem createHttpConfs_uniform (ctx : HttpConfCtx) (cf : NightConf) :
    Uniform false (createHttpConfs env ctx cf) := by
  intro task hmem
  obtain ⟨m, _, hm⟩ := List.mem_flatMap.mp hmem
  rw [List.mem_append, List.mem_append] at hm
  rcases hm with hm | hm | hm
  all_goals
    rw [Option.mem_toList] at hm
    obtain ⟨call, _, rfl⟩ := Option.map_eq_some_iff.mp hm
    exact ⟨rfl, fun h => by cases h⟩

theorem preconfigurations_uniform (cf : NightConf) :
    Uniform true (preconfigurations env cf) := by
  intro task hmem
  obtain ⟨m, _, hm⟩ := List.mem_filterMap.mp hmem
  obtain ⟨call, _, rfl⟩ := Option.map_eq_some_iff.mp hm
  exact ⟨rfl, fun _ => unlessOk_ne_ok _⟩

theorem mainConfs_uniform (ctx : HttpConfCtx) (cmcf : ℕ) (cf : NightConf) :
    Uniform false (mainConfs env ctx cmcf cf) := by
  intro task hmem
  obtain ⟨m, _, hm⟩ := List.mem_flatMap.mp hmem
  obtain hm | hm := List.mem_append.mp hm
  · rw [Option.mem_toList] at hm
    obtain ⟨call, _, rfl⟩ := Option.map_eq_some_iff.mp hm
    exact ⟨rfl, fun h => by cases h⟩
  · rw [List.mem_singleton.mp hm]
    exact ⟨rfl, fun h => by cases h⟩

theorem locations_uniform (cmcf count : ℕ) (cf : NightConf) :
    Uniform true (locations env cmcf count cf) := by
  intro task hmem
  obtain ⟨server, _, hm⟩ := List.mem_flatMap.mp hmem
  obtain rfl | rfl := List.mem_pair.mp hm
  · exact ⟨rfl, fun _ => unlessOk_ne_ok _⟩
  · exact ⟨rfl, fun _ => unlessOk_ne_ok _⟩

theorem postconfigurations_uniform (cf : NightConf) :
    Uniform true (postconfigurations env cf) := by
  intro task hmem
  obtain ⟨m, _, hm⟩ := List.mem_filterMap.mp hmem
  obtain ⟨call, _, rfl⟩ := Option.map_eq_some_iff.mp hm
  exact ⟨rfl, fun _ => unlessOk_ne_ok _⟩

theorem configuration_uniform (cmcf count : ℕ) (cf : NightConf) :
    Uniform true (configuration env cmcf count cf) := by
  apply (locations_uniform cmcf count cf).append
  apply Uniform.append
  · intro task hmem
    obtain rfl | rfl := List.mem_pair.mp hmem
    · exact ⟨rfl, fun _ => unlessOk_ne_ok _⟩
    · exact ⟨rfl, fun _ => unlessOk_ne_ok _⟩
  · apply (postconfigurations_uniform cf).append
    intro task hmem
    rw [List.mem_singleton.mp hmem]
    exact ⟨rfl, fun _ => unlessOk_ne_ok _⟩

theorem serverSetup_uniform (cmcf : ℕ) (cf : NightConf) :
    Uniform false (serverSetup env cmcf cf) := by
  intro task hmem
  obtain rfl | rfl := List.mem_pair.mp hmem
  · exact ⟨rfl, fun h => by cases h⟩
  · exact ⟨rfl, fun h => by cases h⟩

/-! ## The handlers -/

theorem eventsParsed_kept {table : ℕ} {inner : NightConf} {parsed : Outcome σ}
    (hparsed : Kept env inner w parsed) : Kept env cf w (eventsParsed env table cf parsed) := by
  have hplain {rv : Rv} {s : σ} :
      Kept env cf w (leave .events cf rv cf (parsed.world.put s) parsed.log) := by
    have hkept : Kept env cf w
        (leave .events cf rv cf (parsed.world.put s) (parsed.log ++ refusals none)) :=
      hparsed.restored none (by simp)
    rw [refusals, List.append_nil] at hkept
    exact hkept
  unfold eventsParsed
  split
  · exact hplain
  · rcases hinit : inTurn (initConfs env table) parsed.world.state with ⟨_ | ⟨step, rv⟩, s⟩
    · exact hplain
    · have hstep := ((initConfs_uniform table).refused hinit).1
      exact hparsed.restored (some step) (by simpa using hstep)

theorem eventsBlock_kept {parse : Parser σ}
    (hparse : ∀ cf w out, parse cf w = some out → Kept env cf w out) {conf : ℕ}
    (hevents : nightEventsBlock env parse conf cf w = some out) : Kept env cf w out := by
  unfold nightEventsBlock at hevents
  by_cases hload : env.load conf w.state ≠ 0
  · rw [if_pos hload] at hevents
    cases hevents
    exact Kept.early none (by simp)
  rw [if_neg hload] at hevents
  rcases hctx : env.pcalloc cf 8 w.state with ⟨ctx, s1⟩
  simp only [hctx] at hevents
  by_cases hnull : ctx = 0
  · rw [if_pos hnull] at hevents
    cases hevents
    exact Kept.early (some .pcalloc) (by simp [Step.unrestored])
  rw [if_neg hnull] at hevents
  rcases htable : env.pcalloc cf (env.eventMaxModule * 8) s1 with ⟨table, s2⟩
  simp only [htable] at hevents
  by_cases hnull : table = 0
  · rw [if_pos hnull] at hevents
    cases hevents
    exact Kept.early (some .pcalloc) (by simp [Step.unrestored])
  rw [if_neg hnull] at hevents
  rcases hcreate : inTurn (createConfs env table) (env.store conf ctx (env.store ctx table s2))
    with ⟨_ | ⟨step, rv⟩, s3⟩
  · simp only [hcreate] at hevents
    obtain ⟨parsed, hparsed, hevents⟩ := Option.bind_eq_some_iff.mp hevents
    cases hevents
    exact eventsParsed_kept (hparse _ _ _ hparsed).of_put
  · simp only [hcreate] at hevents
    cases hevents
    exact Kept.early (some step) (by simpa using ((createConfs_uniform _).refused hcreate).1)

theorem allocations_address {conf : ℕ} {s s' : σ} {ctx : HttpConfCtx}
    (halloc : allocations env conf cf s = (some ctx, s')) (hfresh : Fresh env) :
    ctx.address ≠ cf.ctx := by
  unfold allocations at halloc
  extract_lets size at halloc
  have hanswer := hfresh cf 24 s
  rcases hctx : env.pcalloc cf 24 s with ⟨address, s1⟩
  simp only [hctx] at halloc hanswer
  by_cases hnull : address = 0
  · simp [hnull] at halloc
  rw [if_neg hnull] at halloc
  rcases hmain : env.pcalloc cf size (env.store conf address s1) with ⟨mainConf, s2⟩
  simp only [hmain] at halloc
  split at halloc
  · cases halloc
  rcases hsrv : env.pcalloc cf size (env.store address mainConf s2) with ⟨srvConf, s3⟩
  simp only [hsrv] at halloc
  split at halloc
  · cases halloc
  rcases hloc : env.pcalloc cf size (env.store (address + 8) srvConf s3) with ⟨locConf, s4⟩
  simp only [hloc] at halloc
  split at halloc
  · cases halloc
  cases halloc
  exact hanswer hnull

theorem httpParsed_kept {ctx : HttpConfCtx} {inner : NightConf} {parsed : Outcome σ}
    (hparsed : Kept env inner w parsed) (hconf : inner.confFile = cf.confFile)
    (hctx : Fresh env → inner.ctx ≠ cf.ctx) :
    Kept env cf w (httpParsed env ctx cf parsed) := by
  have hplain {rv : Rv} {s : σ} :
      Kept env cf w (leave .http cf rv cf (parsed.world.put s) parsed.log) := by
    have hkept : Kept env cf w
        (leave .http cf rv cf (parsed.world.put s) (parsed.log ++ refusals none)) :=
      hparsed.restored none (by simp)
    rw [refusals, List.append_nil] at hkept
    exact hkept
  unfold httpParsed
  split
  · exact hplain
  rename_i hok
  have hsame := hparsed.ok (not_not.mp hok)
  extract_lets cf' w' cmcf
  rcases hmain : inTurn (mainConfs env ctx cmcf cf') w'.state with ⟨_ | ⟨step, rv⟩, s⟩
  · dsimp only
    rcases hconfiguration : inTurn (configuration env cmcf (env.servers cmcf s) cf') s
      with ⟨_ | ⟨step, rv⟩, s'⟩
    · dsimp only
      rcases hsetup : inTurn (serverSetup env cmcf cf) s' with ⟨_ | ⟨step, rv⟩, s''⟩
      · exact hplain
      · have hstep := ((serverSetup_uniform cmcf cf).refused hsetup).1
        exact hparsed.restored (some step) (by simpa using hstep)
    · -- the context is still that of the block
      obtain ⟨hstep, hrv⟩ := (configuration_uniform cmcf _ cf').refused hconfiguration
      have hinner : cf' = inner := hsame
      rw [hinner]
      exact Kept.direct hconf hparsed.files hparsed.resources (hrv rfl) hparsed.parsers hstep hctx
  · have hstep := ((mainConfs_uniform ctx cmcf cf').refused hmain).1
    exact hparsed.restored (some step) (by simpa using hstep)

theorem httpBlock_kept {parse : Parser σ}
    (hparse : ∀ cf w out, parse cf w = some out → Kept env cf w out) {conf : ℕ}
    (hhttp : nightHttpBlock env parse conf cf w = some out) : Kept env cf w out := by
  unfold nightHttpBlock at hhttp
  by_cases hload : env.load conf w.state ≠ 0
  · rw [if_pos hload] at hhttp
    cases hhttp
    exact Kept.early none (by simp)
  rw [if_neg hload] at hhttp
  rcases halloc : allocations env conf cf w.state with ⟨_ | ctx, s1⟩
  · simp only [halloc] at hhttp
    cases hhttp
    exact Kept.early (some .pcalloc) (by simp [Step.unrestored])
  have hctx := allocations_address halloc
  simp only [halloc] at hhttp
  rcases hcreate : inTurn (createHttpConfs env ctx cf) s1 with ⟨_ | ⟨step, rv⟩, s2⟩
  · simp only [hcreate] at hhttp
    rcases hpre : inTurn (preconfigurations env { cf with ctx := ctx.address }) s2
      with ⟨_ | ⟨step, rv⟩, s3⟩
    · simp only [hpre] at hhttp
      obtain ⟨parsed, hparsed, hhttp⟩ := Option.bind_eq_some_iff.mp hhttp
      cases hhttp
      exact httpParsed_kept (hparse _ _ _ hparsed).of_put rfl hctx
    · simp only [hpre] at hhttp
      obtain ⟨hstep, hrv⟩ := (preconfigurations_uniform _).refused hpre
      cases hhttp
      have hkept : Kept env cf w (leave .http cf rv { cf with ctx := ctx.address } (w.put s3)
          ([] ++ [.refused step])) :=
        Kept.direct rfl rfl rfl (hrv rfl) (by simp) hstep hctx
      exact hkept
  · simp only [hcreate] at hhttp
    cases hhttp
    exact Kept.early (some step) (by simpa using ((createHttpConfs_uniform _ _).refused hcreate).1)

/-! ## The parser -/

theorem handler_kept {parse : Parser σ}
    (hparse : ∀ cf w out, parse cf w = some out → Kept env cf w out) {args : Args}
    {block : Bool} (hhandler : nightConfHandler env parse args block cf w = some out) :
    Kept env cf w out := by
  unfold nightConfHandler at hhandler
  split at hhandler
  · cases hhandler
    exact Kept.simple .error w.state
  · obtain ⟨returned, hset, hout⟩ := Option.bind_eq_some_iff.mp hhandler
    have hkept : Kept env cf w returned := by
      unfold callSet at hset
      split at hset
      · cases hset
        exact Kept.simple _ _
      · exact eventsBlock_kept hparse hset
      · exact httpBlock_kept hparse hset
    cases hout
    refine ⟨hkept.confFile, hkept.files, hkept.resources, fun hok => ?_, hkept.parsers,
      hkept.safe, hkept.exact⟩
    by_cases hrv : returned.rv = .ok
    · exact hkept.ok hrv
    · simp [hrv] at hok

/-- The code of the handler. -/
theorem handler_rv {parse : Parser σ} {args : Args} {block : Bool}
    (hhandler : nightConfHandler env parse args block cf w = some out) :
    out.rv = .ok ∨ out.rv = .error := by
  unfold nightConfHandler at hhandler
  split at hhandler
  · cases hhandler
    exact Or.inr rfl
  · obtain ⟨returned, _, hout⟩ := Option.bind_eq_some_iff.mp hhandler
    cases hout
    by_cases hrv : returned.rv = .ok
    · simp [hrv]
    · simp [hrv]

/-- The return of a parser without a file name adds nothing that matters. -/
theorem Kept.parsed (hkept : Kept env cf w out) :
    Kept env cf w { out with log := out.log ++ [.parsed cf.confFile out.cf.confFile] } where
  confFile := hkept.confFile
  files := hkept.files
  resources := by rw [resources_append, hkept.resources]; rfl
  ok := hkept.ok
  parsers := by
    refine List.forall_mem_append.mpr ⟨hkept.parsers, ?_⟩
    simp [Event.FileRestored, hkept.confFile]
  safe h := List.forall_mem_append.mpr
    ⟨hkept.safe (List.forall_mem_append.mp h).1, by simp [Event.Restored]⟩
  exact hfresh h := List.forall_mem_append.mpr
    ⟨hkept.exact hfresh (List.forall_mem_append.mp h).1, by simp [Event.Harmless]⟩

theorem parseBlock_kept {loop : ParseType → Parser σ}
    (hloop : ∀ type cf w out, loop type cf w = some out → Kept env cf w out)
    (hparse : parseBlock loop cf w = some out) : Kept env cf w out := by
  obtain ⟨returned, hreturned, hout⟩ := Option.bind_eq_some_iff.mp hparse
  cases hout
  exact (hloop _ _ _ _ hreturned).parsed

theorem parseLoop_kept {fuel : ℕ} {type : ParseType}
    (hloop : parseLoop env fuel type cf w = some out) : Kept env cf w out := by
  induction fuel generalizing type cf w out with
  | zero => cases hloop
  | succ fuel ih =>
      have hblock (cf : NightConf) (w : World σ) (out : Outcome σ)
          (hparse : parseBlock (parseLoop env fuel) cf w = some out) : Kept env cf w out :=
        parseBlock_kept (fun _ _ _ _ h => ih h) hparse
      rw [parseLoop] at hloop
      split at hloop
      · cases hloop
        exact Kept.simple _ _
      · cases hloop
        exact Kept.simple _ _
      · cases hloop
        exact Kept.simple _ _
      · split at hloop
        · cases hloop
          exact Kept.simple _ _
        · obtain ⟨handled, hhandled, hloop⟩ := Option.bind_eq_some_iff.mp hloop
          have hkept := (handler_kept hblock hhandled).of_put
          split at hloop
          · cases hloop
            exact hkept
          · rename_i herror
            obtain ⟨rest, hrest, hout⟩ := Option.bind_eq_some_iff.mp hloop
            cases hout
            exact hkept.append (ih hrest) ((handler_rv hhandled).resolve_right herror)

/-! ## A call with a file name -/

/-- What a call of the parser does to files, and when its block handlers put `*cf` back. -/
structure FileLaw (env : Env σ) (cf : NightConf) (out : Outcome σ) : Prop where
  confFile : out.cf.confFile = cf.confFile
  released : Released out.log
  parsers : ∀ event ∈ out.log, event.FileRestored
  safe : (∀ event ∈ out.log, event.Harmless) → ∀ event ∈ out.log, event.Restored
  exact : Fresh env → (∀ event ∈ out.log, event.Restored) → ∀ event ∈ out.log, event.Harmless

/-- The run of the main loop between what is opened and what is closed. -/
theorem finishFile_law {inner : NightConf} {w' : World σ} {fd start : ℕ}
    (hkept : Kept env inner w' out)
    (hfile : out.world.files out.cf.confFile = ⟨some fd, start⟩) :
    FileLaw env cf (finishFile env fd cf.confFile { out with
      log := .opened fd :: ((if start = 0 then [] else [.allocated start]) ++ out.log) }) := by
  have hlog : (finishFile env fd cf.confFile { out with
      log := .opened fd :: ((if start = 0 then [] else [.allocated start]) ++ out.log) }).log =
      Event.opened fd :: ((if start = 0 then [] else [Event.allocated start]) ++ out.log) ++
        ((if start ≠ 0 then [Event.freed start] else []) ++
          [Event.closed fd, Event.parsed cf.confFile cf.confFile]) := by
    simp only [finishFile, hfile]
  have hall (p : Event → Prop) (hopened : p (.opened fd)) (hallocated : p (.allocated start))
      (hfreed : p (.freed start)) (hclosed : p (.closed fd))
      (hparsed : p (.parsed cf.confFile cf.confFile)) :
      (∀ event ∈ (finishFile env fd cf.confFile { out with
        log := .opened fd :: ((if start = 0 then [] else [.allocated start]) ++ out.log) }).log,
          p event) ↔ ∀ event ∈ out.log, p event := by
    rw [hlog]
    by_cases hnull : start = 0
    · simp [hnull, or_imp, forall_and, hopened, hclosed, hparsed]
    · simp [hnull, or_imp, forall_and, hopened, hallocated, hfreed, hclosed, hparsed]
  refine ⟨rfl, ?_, ?_, ?_, ?_⟩
  · right
    by_cases hnull : start = 0
    · left
      refine ⟨fd, ?_⟩
      rw [hlog, if_pos hnull, if_neg (not_not.mpr hnull), resources_append]
      change Event.opened fd :: (ConfRestore.resources out.log ++ [Event.closed fd]) = _
      rw [hkept.resources, List.nil_append]
    · right
      refine ⟨fd, start, ?_⟩
      rw [hlog, if_neg hnull, if_pos hnull, resources_append]
      change Event.opened fd :: Event.allocated start ::
        (ConfRestore.resources out.log ++ [Event.freed start, Event.closed fd]) = _
      rw [hkept.resources, List.nil_append]
  · rw [hall Event.FileRestored trivial trivial trivial trivial rfl]
    exact hkept.parsers
  · rw [hall Event.Harmless trivial trivial trivial trivial trivial,
      hall Event.Restored trivial trivial trivial trivial trivial]
    exact hkept.safe
  · intro hfresh
    rw [hall Event.Harmless trivial trivial trivial trivial trivial,
      hall Event.Restored trivial trivial trivial trivial trivial]
    exact hkept.exact hfresh

theorem parseFile_law {fuel : ℕ} {filename : List Night.Bytes.Byte}
    (hparse : parseFile env (parseLoop env fuel) filename cf w = some out) :
    FileLaw env cf out := by
  unfold parseFile at hparse
  rcases hopen : env.openFile filename w.state with ⟨_ | fd, s⟩
  · simp only [hopen] at hparse
    cases hparse
    exact ⟨rfl, Or.inl rfl, by simp [Event.FileRestored], by simp [Event.Restored],
      by simp [Event.Harmless]⟩
  simp only [hopen] at hparse
  rcases hmalloc : env.malloc s with ⟨start, s'⟩
  simp only [hmalloc] at hparse
  obtain ⟨returned, hreturned, hout⟩ := Option.bind_eq_some_iff.mp hparse
  have hkept : Kept env { cf with confFile := env.frame s }
      ⟨Function.update w.files (env.frame s) ⟨some fd, start⟩, s'⟩ returned := by
    by_cases hnull : start = 0
    · rw [if_pos hnull] at hreturned
      cases hreturned
      exact Kept.simple .error s'
    · rw [if_neg hnull] at hreturned
      exact parseLoop_kept hreturned
  have hfile : returned.world.files returned.cf.confFile = ⟨some fd, start⟩ := by
    rw [hkept.files, hkept.confFile]
    exact Function.update_self ..
  cases hout
  exact finishFile_law hkept hfile

theorem nightConfParse_law {fuel : ℕ} {filename : Option (List Night.Bytes.Byte)}
    (hparse : nightConfParse env fuel filename cf w = some out) : FileLaw env cf out := by
  cases filename with
  | none =>
      have hkept := parseBlock_kept (fun _ _ _ _ h => parseLoop_kept h) hparse
      exact ⟨hkept.confFile, Or.inl hkept.resources, hkept.parsers, hkept.safe, hkept.exact⟩
  | some filename => exact parseFile_law hparse

/-- Everything is put back exactly when none of the calls between `cf->ctx = ctx` and
`*cf = pcf` that return directly fails. -/
theorem nightConfParse_lawful_iff (hfresh : Fresh env) {fuel : ℕ}
    {filename : Option (List Night.Bytes.Byte)}
    (hparse : nightConfParse env fuel filename cf w = some out) :
    Lawful cf out ↔ ∀ event ∈ out.log, event.Harmless := by
  have hlaw := nightConfParse_law hparse
  constructor
  · intro hlawful
    exact hlaw.exact hfresh hlawful.blocks
  · intro hharmless
    exact ⟨hlaw.confFile, hlaw.released, hlaw.parsers, hlaw.safe hharmless⟩

/-! ### One block in a file -/

/-- One module for `http`, whose `preconfiguration` answers `code`; every directive is the
block `http`, and the tokens are the state. -/
def oneModule (code : ℤ) : Env (List Token) where
  modules := [⟨nightHttpModule, 0, ⟨none, none⟩,
    ⟨some fun _ s => (code, s), none, none, none, none, none⟩⟩]
  load := fun _ _ => 0
  store := fun _ _ s => s
  pcalloc := fun cf _ s => (cf.ctx + 1, s)
  openFile := fun _ s => (some 3, s)
  malloc := fun s => (4096, s)
  free := fun _ s => s
  close := fun _ s => (true, s)
  frame := fun _ => 64
  readToken := fun _ s => (s.headD .fileDone, s.tail)
  find := fun _ _ _ _ => some (.http, 16)
  eventMaxModule := 0
  httpMaxModule := 1
  servers := fun _ _ => 0
  mergeServers := fun _ _ _ s => (.ok, s)
  initLocations := fun _ _ _ s => (0, s)
  initStaticLocationTrees := fun _ _ _ s => (0, s)
  initPhases := fun _ _ s => (0, s)
  initHeadersInHash := fun _ _ s => (0, s)
  initVars := fun _ s => (0, s)
  initPhaseHandlers := fun _ _ s => (0, s)
  optimizeServers := fun _ _ s => (0, s)
  coreCtxIndex := 0

theorem oneModule_fresh (code : ℤ) : Fresh (oneModule code) := by
  intro cf size s _
  exact Nat.succ_ne_self cf.ctx

/-- The `night_conf_t` of `night_init_cycle`. -/
def cycleConf : NightConf := ⟨0, 0, 0, 0, 0, 8, 0, 0, 0⟩

/-- The file `http {}`. -/
def httpFile : World (List Token) where
  files := fun _ => ⟨none, 0⟩
  state := [.directive ⟨[], []⟩ true, .blockDone]

/-- `cf` inside the parser of the file. -/
def fileConf : NightConf := { cycleConf with confFile := 64 }

/-- `cf` as `night_http_block` leaves it where `preconfiguration` fails. -/
def directConf : NightConf := { fileConf with ctx := 9 }

theorem nightConfParse_lawful_emptyBlock :
    ∃ out, nightConfParse (oneModule 0) 3 (some []) cycleConf httpFile = some out ∧
      Lawful cycleConf out := by
  have hlog : (nightConfParse (oneModule 0) 3 (some []) cycleConf httpFile).map (·.log) =
      some [.opened 3, .allocated 4096, .parsed 64 64, .block .http fileConf fileConf,
        .freed 4096, .closed 3, .parsed 0 0] := rfl
  obtain ⟨out, hparse, hout⟩ := Option.map_eq_some_iff.mp hlog
  refine ⟨out, hparse, (nightConfParse_lawful_iff (oneModule_fresh 0) hparse).mpr ?_⟩
  rw [hout]
  simp [Event.Harmless]

/-- Where `preconfiguration` fails, the caller of `night_http_block` gets back a `*cf` with
the context of the block. -/
theorem not_nightConfParse_lawful_preconfiguration :
    ¬ ∀ (env : Env (List Token)) (fuel : ℕ) (filename : Option (List Night.Bytes.Byte))
      (cf : NightConf) (w : World (List Token)) (out : Outcome (List Token)), Fresh env →
        nightConfParse env fuel filename cf w = some out → Lawful cf out := by
  intro hall
  have hlog : (nightConfParse (oneModule (-1)) 3 (some []) cycleConf httpFile).map (·.log) =
      some [.opened 3, .allocated 4096, .refused .preconfiguration,
        .block .http fileConf directConf, .freed 4096, .closed 3, .parsed 0 0] := rfl
  obtain ⟨out, hparse, hout⟩ := Option.map_eq_some_iff.mp hlog
  have hlawful := hall _ _ _ _ _ _ (oneModule_fresh (-1)) hparse
  have hrestored : directConf = fileConf :=
    hlawful.blocks (.block .http fileConf directConf) (by rw [hout]; decide)
  exact absurd hrestored (by decide)

end Night.ConfRestore
