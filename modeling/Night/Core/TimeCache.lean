import Night.Core.TimeText

/-!
# `night_time_init` and `night_time_update`

The time of the last reading is kept in a ring of slots, with its date as a string.  The
string is published by `night_time_update`, the time itself only by `night_time_init`.
-/

namespace Night.TimeCache

open Night.Bytes Night.Time

/-! ## The cache -/

/-- `NIGHT_TIME_SLOTS`. -/
def nightTimeSlots : ℕ := 64

/-- A `night_time_t`; its `gmtoff` is never assigned. -/
structure NightTime where
  sec : ℤ
  msec : ℤ
  deriving DecidableEq, Repr

/-- The variables of the file; a pointer into a ring is the number of its slot. -/
structure Cache where
  cachedTimes : ℕ → NightTime
  cachedTime : Option ℕ
  cachedTimeSlot : ℕ
  currentMsec : ℤ
  httpLen : ℕ
  httpData : Option ℕ
  cachedHttpTime : ℕ → List Byte

/-- The variables before `night_time_init`. -/
def Cache.zero : Cache where
  cachedTimes := fun _ => ⟨0, 0⟩
  cachedTime := none
  cachedTimeSlot := 0
  currentMsec := 0
  httpLen := 0
  httpData := none
  cachedHttpTime := fun _ => []

/-- What `gettimeofday` and `clock_gettime` give, seconds with microseconds and with
nanoseconds; `none` is a failure. -/
structure Reading where
  timeofday : Option (ℤ × ℤ)
  monotonic : Option (ℤ × ℤ)
  deriving DecidableEq, Repr

/-- `NIGHT_OK` and `NIGHT_ERROR`. -/
inductive Rc
  | ok
  | error
  deriving DecidableEq, Repr

/-- `night_monotonic_time`. -/
def nightMonotonicTime (reading : Reading) : ℤ :=
  match reading.monotonic with
  | none => -1
  | some (sec, nsec) => sec * 1000 + nsec.tdiv 1000000

/-- The date of a second, when it fits into the thirty bytes of a slot with its NUL. -/
def httpTime (sec : ℤ) : Option (List Byte) :=
  (nightHttpTime sec).filter fun text => text.length + 1 ≤ 30

/-- `night_time_update`; there is no result where the date is not defined. -/
def nightTimeUpdate (reading : Reading) (cache : Cache) : Option (Rc × Cache) :=
  match reading.timeofday with
  | none => some (.error, cache)
  | some (sec, usec) =>
    let msec := usec.tdiv 1000
    let cache := { cache with currentMsec := u64 (nightMonotonicTime reading) }
    if cache.currentMsec = u64 (-1) then some (.error, cache)
    else if (cache.cachedTimes cache.cachedTimeSlot).sec = sec then
      some (.ok, { cache with
        cachedTimes := Function.update cache.cachedTimes cache.cachedTimeSlot ⟨sec, msec⟩ })
    else
      let slot := if cache.cachedTimeSlot = nightTimeSlots - 1 then 0
        else cache.cachedTimeSlot + 1
      (httpTime sec).map fun text => (.ok, { cache with
        cachedTimeSlot := slot
        cachedTimes := Function.update cache.cachedTimes slot ⟨sec, msec⟩
        cachedHttpTime := Function.update cache.cachedHttpTime slot text
        httpData := some slot })

/-- What `night_time_init` assigns before the first update. -/
def Cache.prepare (cache : Cache) : Cache :=
  { cache with
    httpLen := (literal "Mon, 28 Sep 1970 06:00:00 GMT").length
    cachedTimeSlot := nightTimeSlots - 1 }

/-- `night_time_init`. -/
def nightTimeInit (reading : Reading) (cache : Cache) : Option (Rc × Cache) := do
  let (rc, cache) ← nightTimeUpdate reading cache.prepare
  match rc with
  | .error => some (.error, cache)
  | .ok => some (.ok, { cache with cachedTime := some 0 })

/-! ## What is published -/

/-- Both calls of the system succeed. -/
def Succeeds (reading : Reading) (sec msec : ℤ) : Prop :=
  ∃ usec, reading.timeofday = some (sec, usec) ∧ msec = usec.tdiv 1000 ∧
    u64 (nightMonotonicTime reading) ≠ u64 (-1)

/-- What is published is the time of a reading and the date of its second. -/
def Published (cache : Cache) (sec msec : ℤ) : Prop :=
  (∃ slot, cache.cachedTime = some slot ∧ cache.cachedTimes slot = ⟨sec, msec⟩) ∧
    ∃ slot, cache.httpData = some slot ∧ nightHttpTime sec = some (cache.cachedHttpTime slot)

/-- Every successful update of a run leaves its reading published. -/
def Follows : Cache → List Reading → Prop
  | _, [] => True
  | cache, reading :: readings =>
    ∃ rc cache', nightTimeUpdate reading cache = some (rc, cache') ∧
      (rc = .ok → ∀ sec msec, Succeeds reading sec msec → Published cache' sec msec) ∧
      Follows cache' readings

/-- The same from `night_time_init` on, which has to succeed. -/
def Kept (first : Reading) (readings : List Reading) : Prop :=
  ∃ rc cache, nightTimeInit first .zero = some (rc, cache) ∧
    (rc = .ok → (∀ sec msec, Succeeds first sec msec → Published cache sec msec) ∧
      Follows cache readings)

/-! ## One update -/

/-- The slot behind another one. -/
def nextSlot (slot : ℕ) : ℕ := if slot = nightTimeSlots - 1 then 0 else slot + 1

theorem Succeeds.unique {reading : Reading} {sec msec sec' msec' : ℤ}
    (hfirst : Succeeds reading sec msec) (hsecond : Succeeds reading sec' msec') :
    sec = sec' ∧ msec = msec' := by
  obtain ⟨usec, htime, rfl, -⟩ := hfirst
  obtain ⟨usec', htime', rfl, -⟩ := hsecond
  rw [htime] at htime'
  obtain ⟨rfl, rfl⟩ := Prod.mk.inj (Option.some.inj htime')
  exact ⟨rfl, rfl⟩

theorem nightTimeUpdate_failed {reading : Reading} (hfails : ∀ sec msec, ¬ Succeeds reading sec msec)
    (cache : Cache) :
    ∃ current, nightTimeUpdate reading cache = some (.error, { cache with currentMsec := current }) := by
  unfold nightTimeUpdate
  cases htime : reading.timeofday with
  | none => exact ⟨cache.currentMsec, rfl⟩
  | some time =>
    obtain ⟨sec, usec⟩ := time
    have herror : u64 (nightMonotonicTime reading) = u64 (-1) := by
      by_contra hne
      exact hfails sec _ ⟨usec, htime, rfl, hne⟩
    dsimp only
    rw [if_pos herror]
    exact ⟨_, rfl⟩

/-- In the second of the current slot only the milliseconds change. -/
theorem nightTimeUpdate_same {reading : Reading} {sec msec : ℤ}
    (hsucceeds : Succeeds reading sec msec) {cache : Cache}
    (hsame : (cache.cachedTimes cache.cachedTimeSlot).sec = sec) :
    ∃ current, nightTimeUpdate reading cache = some (.ok, { cache with
      currentMsec := current
      cachedTimes := Function.update cache.cachedTimes cache.cachedTimeSlot ⟨sec, msec⟩ }) := by
  obtain ⟨usec, htime, rfl, hne⟩ := hsucceeds
  unfold nightTimeUpdate
  rw [htime]
  dsimp only
  rw [if_neg hne, if_pos hsame]
  exact ⟨_, rfl⟩

/-- For another second the next slot is filled, and its string is published. -/
theorem nightTimeUpdate_other {reading : Reading} {sec msec : ℤ}
    (hsucceeds : Succeeds reading sec msec) {cache : Cache}
    (hother : (cache.cachedTimes cache.cachedTimeSlot).sec ≠ sec) :
    ∃ current, nightTimeUpdate reading cache = (httpTime sec).map fun text => (.ok, { cache with
      currentMsec := current
      cachedTimeSlot := nextSlot cache.cachedTimeSlot
      cachedTimes :=
        Function.update cache.cachedTimes (nextSlot cache.cachedTimeSlot) ⟨sec, msec⟩
      cachedHttpTime :=
        Function.update cache.cachedHttpTime (nextSlot cache.cachedTimeSlot) text
      httpData := some (nextSlot cache.cachedTimeSlot) }) := by
  obtain ⟨usec, htime, rfl, hne⟩ := hsucceeds
  unfold nightTimeUpdate
  rw [htime]
  dsimp only
  rw [if_neg hne, if_neg hother]
  exact ⟨_, rfl⟩

theorem nightHttpTime_of_httpTime {sec : ℤ} {text : List Byte} (htext : httpTime sec = some text) :
    nightHttpTime sec = some text :=
  (Option.filter_eq_some_iff.mp htext).1

/-! ## The string and the ring -/

/-- The current slot has the time of the last reading, and the published string is its date. -/
structure Current (cache : Cache) (sec msec : ℤ) : Prop where
  time : cache.cachedTimes cache.cachedTimeSlot = ⟨sec, msec⟩
  data : cache.httpData = some cache.cachedTimeSlot
  text : nightHttpTime sec = some (cache.cachedHttpTime cache.cachedTimeSlot)

/-- A successful update leaves the current slot and the published string right. -/
theorem Current.update {reading : Reading} {cache cache' : Cache} {rc : Rc} {sec msec sec' msec' : ℤ}
    (hcurrent : Current cache sec msec) (hsucceeds : Succeeds reading sec' msec')
    (hupdate : nightTimeUpdate reading cache = some (rc, cache')) : Current cache' sec' msec' := by
  by_cases hsame : (cache.cachedTimes cache.cachedTimeSlot).sec = sec'
  · obtain ⟨current, heq⟩ := nightTimeUpdate_same hsucceeds hsame
    rw [heq] at hupdate
    obtain ⟨rfl, rfl⟩ := Prod.mk.inj (Option.some.inj hupdate)
    rw [hcurrent.time] at hsame
    subst hsame
    exact ⟨Function.update_self .., hcurrent.data, hcurrent.text⟩
  · obtain ⟨current, heq⟩ := nightTimeUpdate_other hsucceeds hsame
    rw [heq] at hupdate
    obtain ⟨text, htext, hpair⟩ := Option.map_eq_some_iff.mp hupdate
    obtain ⟨rfl, rfl⟩ := Prod.mk.inj hpair
    refine ⟨Function.update_self .., rfl, ?_⟩
    dsimp only
    rw [Function.update_self]
    exact nightHttpTime_of_httpTime htext

theorem Current.failed {reading : Reading} {cache cache' : Cache} {rc : Rc} {sec msec : ℤ}
    (hcurrent : Current cache sec msec) (hfails : ∀ sec msec, ¬ Succeeds reading sec msec)
    (hupdate : nightTimeUpdate reading cache = some (rc, cache')) : Current cache' sec msec := by
  obtain ⟨current, heq⟩ := nightTimeUpdate_failed hfails cache
  rw [heq] at hupdate
  obtain ⟨rfl, rfl⟩ := Prod.mk.inj (Option.some.inj hupdate)
  exact ⟨hcurrent.time, hcurrent.data, hcurrent.text⟩

/-- The updates of a run, whatever they return. -/
def runUpdates (cache : Cache) : List Reading → Option Cache
  | [] => some cache
  | reading :: readings => do
    let (_, cache) ← nightTimeUpdate reading cache
    runUpdates cache readings

theorem Current.run {cache cache' : Cache} {sec msec : ℤ} (hcurrent : Current cache sec msec)
    {readings : List Reading} (hrun : runUpdates cache readings = some cache') :
    ∃ sec msec, Current cache' sec msec := by
  induction readings generalizing cache sec msec with
  | nil =>
    obtain rfl := Option.some.inj hrun
    exact ⟨sec, msec, hcurrent⟩
  | cons reading readings ih =>
    obtain ⟨⟨rc, next⟩, hupdate, hrest⟩ := Option.bind_eq_some_iff.mp hrun
    by_cases hfails : ∀ sec msec, ¬ Succeeds reading sec msec
    · exact ih (hcurrent.failed hfails hupdate) hrest
    · push Not at hfails
      obtain ⟨sec', msec', hsucceeds⟩ := hfails
      exact ih (hcurrent.update hsucceeds hupdate) hrest

/-! ## The published time -/

/-- The second of the reading that `night_time_init` has taken. -/
structure Initial (cache : Cache) (sec : ℤ) : Prop where
  published : cache.cachedTime = some 0
  slot : cache.cachedTimeSlot = 0
  time : (cache.cachedTimes 0).sec = sec
  data : cache.httpData = some 0
  text : nightHttpTime sec = some (cache.cachedHttpTime 0)

theorem Initial.failed {cache : Cache} {sec : ℤ} (hinitial : Initial cache sec) (current : ℤ) :
    Initial { cache with currentMsec := current } sec :=
  ⟨hinitial.published, hinitial.slot, hinitial.time, hinitial.data, hinitial.text⟩

/-- As soon as the second changes the published time is that of an old reading. -/
theorem Initial.follows_iff {cache : Cache} {sec : ℤ} (hinitial : Initial cache sec)
    (readings : List Reading) :
    Follows cache readings ↔
      ∀ reading ∈ readings, ∀ sec' msec', Succeeds reading sec' msec' → sec' = sec := by
  induction readings generalizing cache with
  | nil => simp [Follows]
  | cons reading readings ih =>
    rw [Follows, List.forall_mem_cons]
    by_cases hfails : ∀ sec msec, ¬ Succeeds reading sec msec
    · obtain ⟨current, heq⟩ := nightTimeUpdate_failed hfails cache
      have hrest := ih (hinitial.failed current)
      constructor
      · rintro ⟨rc, cache', hupdate, -, hfollows⟩
        rw [heq] at hupdate
        obtain ⟨rfl, rfl⟩ := Prod.mk.inj (Option.some.inj hupdate)
        exact ⟨fun sec' msec' hsucceeds => absurd hsucceeds (hfails _ _), hrest.mp hfollows⟩
      · rintro ⟨-, hsteady⟩
        exact ⟨_, _, heq, by simp, hrest.mpr hsteady⟩
    push Not at hfails
    obtain ⟨sec', msec', hsucceeds⟩ := hfails
    have hslot : cache.cachedTimes cache.cachedTimeSlot = cache.cachedTimes 0 := by
      rw [hinitial.slot]
    by_cases hsame : sec' = sec
    · subst hsame
      obtain ⟨current, heq⟩ := @nightTimeUpdate_same _ _ _ hsucceeds cache (by
        rw [hslot, hinitial.time])
      rw [hinitial.slot] at heq
      have hkept : Initial { cache with
          currentMsec := current
          cachedTimeSlot := 0
          cachedTimes := Function.update cache.cachedTimes 0 ⟨sec', msec'⟩ } sec' :=
        ⟨hinitial.published, rfl, by simp, hinitial.data, hinitial.text⟩
      have hrest := ih hkept
      constructor
      · rintro ⟨rc, cache', hupdate, -, hfollows⟩
        rw [heq] at hupdate
        obtain ⟨rfl, rfl⟩ := Prod.mk.inj (Option.some.inj hupdate)
        refine ⟨?_, hrest.mp hfollows⟩
        intro sec'' msec'' hother
        exact (hother.unique hsucceeds).1
      · rintro ⟨-, hsteady⟩
        refine ⟨_, _, heq, ?_, hrest.mpr hsteady⟩
        intro _ sec'' msec'' hother
        obtain ⟨rfl, rfl⟩ := hother.unique hsucceeds
        exact ⟨⟨0, hkept.published, by simp⟩, ⟨0, hkept.data, hkept.text⟩⟩
    · apply iff_of_false
      · rintro ⟨rc, cache', hupdate, hpublished, -⟩
        obtain ⟨current, heq⟩ := @nightTimeUpdate_other _ _ _ hsucceeds cache (by
          rw [hslot, hinitial.time]
          exact fun heq => hsame heq.symm)
        rw [heq] at hupdate
        obtain ⟨text, -, hpair⟩ := Option.map_eq_some_iff.mp hupdate
        obtain ⟨rfl, rfl⟩ := Prod.mk.inj hpair
        obtain ⟨⟨slot, hcached, htime⟩, -⟩ := hpublished rfl sec' msec' hsucceeds
        -- the pointer is still that of the first slot
        have hzero : slot = 0 := Option.some.inj (hcached.symm.trans hinitial.published)
        subst hzero
        have hnext : nextSlot cache.cachedTimeSlot = 1 := by rw [hinitial.slot]; rfl
        dsimp only at htime
        rw [hnext, Function.update_of_ne (by decide)] at htime
        have hold := hinitial.time
        rw [htime] at hold
        exact hsame hold
      · rintro ⟨hsteady, -⟩
        exact hsame (hsteady sec' msec' hsucceeds)

/-! ## Every run -/

/-- The date of the first second is defined, and the second never changes. -/
def Steady (first : Reading) (readings : List Reading) : Prop :=
  ∀ sec msec, Succeeds first sec msec → (httpTime sec).isSome ∧
    ∀ reading ∈ readings, ∀ sec' msec', Succeeds reading sec' msec' → sec' = sec

theorem nightTimeInit_succeeds {reading : Reading} {sec msec : ℤ} (hpos : 1 ≤ sec)
    (hsucceeds : Succeeds reading sec msec) :
    (httpTime sec = none → nightTimeInit reading .zero = none) ∧
      ∀ text, httpTime sec = some text → ∃ cache, nightTimeInit reading .zero = some (.ok, cache) ∧
        Initial cache sec ∧ cache.cachedTimes 0 = ⟨sec, msec⟩ := by
  obtain ⟨current, heq⟩ := @nightTimeUpdate_other _ _ _ hsucceeds Cache.zero.prepare (by
    change (0 : ℤ) ≠ sec
    omega)
  have hnext : nextSlot Cache.zero.prepare.cachedTimeSlot = 0 := rfl
  rw [hnext] at heq
  constructor
  · intro hnone
    rw [nightTimeInit, heq, hnone]
    rfl
  · intro text htext
    rw [nightTimeInit, heq, htext]
    refine ⟨_, rfl, ⟨rfl, rfl, ?_, rfl, ?_⟩, ?_⟩
    · simp
    · simpa using nightHttpTime_of_httpTime htext
    · simp

/-- From `night_time_init` on, the published time is the latest one as long as the second stays
the first one, and no longer. -/
theorem kept_iff (first : Reading) (readings : List Reading)
    (hpos : ∀ reading ∈ first :: readings, ∀ sec usec, reading.timeofday = some (sec, usec) →
      1 ≤ sec) :
    Kept first readings ↔ Steady first readings := by
  by_cases hfails : ∀ sec msec, ¬ Succeeds first sec msec
  · obtain ⟨current, heq⟩ := nightTimeUpdate_failed hfails Cache.zero.prepare
    have hinit : nightTimeInit first .zero =
        some (.error, { Cache.zero.prepare with currentMsec := current }) := by
      rw [nightTimeInit, heq]
      rfl
    refine iff_of_true ⟨.error, _, hinit, by simp⟩ ?_
    intro sec msec hsucceeds
    exact absurd hsucceeds (hfails _ _)
  · push Not at hfails
    obtain ⟨sec, msec, hsucceeds⟩ := hfails
    have hsec : 1 ≤ sec := by
      obtain ⟨usec, htime, -⟩ := hsucceeds
      exact hpos first (List.mem_cons_self ..) sec usec htime
    obtain ⟨hnone, hsome⟩ := nightTimeInit_succeeds hsec hsucceeds
    cases htext : httpTime sec with
    | none =>
      apply iff_of_false
      · rintro ⟨rc, cache, hinit, -⟩
        rw [hnone htext] at hinit
        cases hinit
      · intro hsteady
        have hdefined := (hsteady sec msec hsucceeds).1
        rw [htext] at hdefined
        cases hdefined
    | some text =>
      obtain ⟨cache, hinit, hinitial, htime⟩ := hsome text htext
      have hfollows := hinitial.follows_iff readings
      constructor
      · rintro ⟨rc, cache', hinit', hkept⟩
        rw [hinit] at hinit'
        obtain ⟨rfl, rfl⟩ := Prod.mk.inj (Option.some.inj hinit')
        intro sec' msec' hother
        obtain ⟨rfl, rfl⟩ := hother.unique hsucceeds
        exact ⟨by rw [htext]; rfl, hfollows.mp (hkept rfl).2⟩
      · intro hsteady
        refine ⟨_, _, hinit, fun _ => ⟨?_, hfollows.mpr (hsteady sec msec hsucceeds).2⟩⟩
        intro sec' msec' hother
        obtain ⟨rfl, rfl⟩ := hother.unique hsucceeds
        exact ⟨⟨0, hinitial.published, htime⟩, ⟨0, hinitial.data, hinitial.text⟩⟩

/-- The same second all the time. -/
theorem kept_sameSecond : Kept ⟨some (1000, 0), some (5, 0)⟩ [⟨some (1000, 250000), some (5, 0)⟩] := by
  refine (kept_iff _ _ ?_).mpr ?_
  · intro reading hreading sec usec htime
    simp only [List.mem_cons, List.not_mem_nil, or_false] at hreading
    obtain rfl | rfl := hreading <;> cases htime <;> decide
  · rintro sec msec ⟨usec, htime, -⟩
    cases htime
    refine ⟨by decide, ?_⟩
    intro reading hreading sec' msec' hsucceeds
    obtain rfl := List.mem_singleton.mp hreading
    obtain ⟨usec', htime', -⟩ := hsucceeds
    cases htime'
    rfl

/-- A second later the published time is a second old. -/
theorem not_kept_nextSecond : ¬ ∀ (first : Reading) (readings : List Reading),
    (∀ reading ∈ first :: readings, ∀ sec usec, reading.timeofday = some (sec, usec) → 1 ≤ sec) →
      Kept first readings := by
  intro hall
  have hkept := hall ⟨some (1000, 0), some (5, 0)⟩ [⟨some (1001, 0), some (6, 0)⟩] (by
    intro reading hreading sec usec htime
    simp only [List.mem_cons, List.not_mem_nil, or_false] at hreading
    obtain rfl | rfl := hreading <;> cases htime <;> decide)
  have hfirst : Succeeds ⟨some (1000, 0), some (5, 0)⟩ 1000 0 := ⟨0, rfl, rfl, by decide⟩
  have hsecond : Succeeds ⟨some (1001, 0), some (6, 0)⟩ 1001 0 := ⟨0, rfl, rfl, by decide⟩
  obtain ⟨text, htext⟩ := Option.isSome_iff_exists.mp (show (httpTime 1000).isSome by decide)
  obtain ⟨cache, hinit, hinitial, -⟩ := (nightTimeInit_succeeds (by decide) hfirst).2 text htext
  obtain ⟨rc, cache', hinit', hrest⟩ := hkept
  rw [hinit] at hinit'
  obtain ⟨rfl, rfl⟩ := Prod.mk.inj (Option.some.inj hinit')
  have hsame := (hinitial.follows_iff _).mp (hrest rfl).2 _ (List.mem_singleton_self _) _ _ hsecond
  exact absurd hsame (by decide)

/-- In every run the string that is published, and the current slot of the ring, are those of
the latest successful reading. -/
theorem current_of_run {first reading : Reading} {readings : List Reading} {cache cache' cache'' : Cache}
    {rc : Rc} {sec msec : ℤ} (hpos : ∀ sec usec, first.timeofday = some (sec, usec) → 1 ≤ sec)
    (hinit : nightTimeInit first .zero = some (.ok, cache))
    (hrun : runUpdates cache readings = some cache')
    (hupdate : nightTimeUpdate reading cache' = some (rc, cache''))
    (hsucceeds : Succeeds reading sec msec) : Current cache'' sec msec := by
  by_cases hfails : ∀ sec msec, ¬ Succeeds first sec msec
  · obtain ⟨current, heq⟩ := nightTimeUpdate_failed hfails Cache.zero.prepare
    rw [nightTimeInit, heq] at hinit
    cases hinit
  · push Not at hfails
    obtain ⟨sec', msec', hfirst⟩ := hfails
    have hsec : 1 ≤ sec' := by
      obtain ⟨usec, htime, -⟩ := hfirst
      exact hpos sec' usec htime
    obtain ⟨hnone, hsome⟩ := nightTimeInit_succeeds hsec hfirst
    cases htext : httpTime sec' with
    | none =>
      rw [hnone htext] at hinit
      cases hinit
    | some text =>
      obtain ⟨cache₀, hinit₀, hinitial, htime⟩ := hsome text htext
      rw [hinit₀] at hinit
      obtain ⟨-, rfl⟩ := Prod.mk.inj (Option.some.inj hinit)
      have hcurrent : Current cache₀ sec' msec' :=
        ⟨hinitial.slot ▸ htime, hinitial.slot ▸ hinitial.data, hinitial.slot ▸ hinitial.text⟩
      obtain ⟨sec₁, msec₁, hcurrent'⟩ := hcurrent.run hrun
      exact hcurrent'.update hsucceeds hupdate

end Night.TimeCache
