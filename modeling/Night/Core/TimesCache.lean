import Night.Core.TimeCache
import Night.Core.Times

/-!
# `night_time_update` of the current tree

An update runs under a lock, and a signal handler may call it at every moment.  The machine
runs the calls in small steps; the topmost of them is the one that was called last.
`night_init_cycle` clears the seconds that are published when no update is running.
-/

namespace Night.TimesCache

open Night.Bytes Night.Time
open Night.TimeCache (nextSlot nightTimeSlots)

/-! ## The cache -/

/-- A `night_time_t`. -/
structure NightTime where
  sec : ℤ
  msec : ℤ
  gmtoff : ℤ
  deriving DecidableEq, Repr

/-- The variables of the file; a pointer into a ring is the number of its slot. -/
structure Cache where
  cachedTimes : ℕ → NightTime
  cachedHttpTimes : ℕ → List Byte
  cachedTime : ℕ
  httpData : Option ℕ
  httpLen : ℕ
  lock : Bool
  currentMsec : ℤ
  slot : ℕ
  gmtoff : ℤ

/-- The places in `night_time_update` and in `night_init_cycle`, with the locals in use. -/
inductive Frame
  /-- `night_time_update` is called -/
  | enter
  /-- the lock was free -/
  | tested
  /-- the lock was not free -/
  | refused
  /-- the lock is taken -/
  | locked
  /-- `gettimeofday` is done -/
  | read (sec msec : ℤ)
  /-- `night_current_msec` is set -/
  | timed (sec msec : ℤ)
  /-- the slot has the second -/
  | same (sec msec : ℤ)
  /-- the next slot is chosen -/
  | moved (sec msec : ℤ)
  /-- `tp->sec` is set -/
  | secStored (sec msec : ℤ)
  /-- `tp->msec` is set -/
  | stored (sec msec : ℤ)
  /-- the string is written -/
  | printed (sec msec : ℤ)
  /-- the offset of the time zone is set -/
  | offsetStored (sec msec : ℤ)
  /-- `night_cached_time` is set -/
  | timePublished (sec msec : ℤ)
  /-- all is written -/
  | finished (sec msec : ℤ)
  /-- the lock is given back -/
  | unlocked
  /-- `night_init_cycle` is about to clear the seconds -/
  | initCycle
  /-- it has read `night_cached_time` -/
  | loaded (tp : ℕ)
  deriving DecidableEq, Repr

/-- What the system calls of a step answer: `gettimeofday`, `clock_gettime` and `localtime`. -/
structure Answer where
  timeofday : ℤ × ℤ
  monotonic : ℤ × ℤ
  gmtoff : ℤ

/-- The variables, the calls in progress, the latest reading that was taken under the lock and
the number of times that the slot was advanced. -/
structure Machine where
  cache : Cache
  frames : List Frame
  latest : Option (ℤ × ℤ)
  advances : ℕ

/-- `night_monotonic_time`. -/
def nightMonotonicTime (answer : Answer) : ℤ :=
  (answer.monotonic.1 * 1000 + answer.monotonic.2.tdiv 1000000) % 2 ^ 64

def Cache.setTime (cache : Cache) (i : ℕ) (time : NightTime) : Cache :=
  { cache with cachedTimes := Function.update cache.cachedTimes i time }

/-- One step of the topmost call, with the frame it leaves (`none` when it returns). -/
def stepFrame (gmtime : ℤ → Tm) (answer : Answer) (machine : Machine) : Frame → Machine × Option Frame
  | .enter => (machine, if machine.cache.lock then some .refused else some .tested)
  | .tested =>
    if machine.cache.lock then (machine, some .refused)
    else ({ machine with cache := { machine.cache with lock := true } }, some .locked)
  | .refused => (machine, none)
  | .locked =>
    let sec := answer.timeofday.1
    let msec := answer.timeofday.2.tdiv 1000
    ({ machine with latest := some (sec, msec) }, some (.read sec msec))
  | .read sec msec =>
    ({ machine with cache := { machine.cache with currentMsec := nightMonotonicTime answer } },
      some (.timed sec msec))
  | .timed sec msec =>
    if (machine.cache.cachedTimes machine.cache.slot).sec = sec then (machine, some (.same sec msec))
    else
      ({ machine with
        cache := { machine.cache with slot := nextSlot machine.cache.slot }
        advances := machine.advances + 1 }, some (.moved sec msec))
  | .same sec msec =>
    let cache := machine.cache
    ({ machine with
      cache := cache.setTime cache.slot { cache.cachedTimes cache.slot with msec := msec } },
      some (.finished sec msec))
  | .moved sec msec =>
    let cache := machine.cache
    ({ machine with
      cache := cache.setTime cache.slot { cache.cachedTimes cache.slot with sec := sec } },
      some (.secStored sec msec))
  | .secStored sec msec =>
    let cache := machine.cache
    ({ machine with
      cache := cache.setTime cache.slot { cache.cachedTimes cache.slot with msec := msec } },
      some (.stored sec msec))
  | .stored sec msec =>
    let cache := machine.cache
    ({ machine with
      cache := { cache with
        cachedHttpTimes := Function.update cache.cachedHttpTimes cache.slot
          ((sprintfDate (gmtime sec)).getD []) } }, some (.printed sec msec))
  | .printed sec msec =>
    let cache := { machine.cache with gmtoff := answer.gmtoff.tdiv 60 }
    ({ machine with
      cache := cache.setTime cache.slot
        { cache.cachedTimes cache.slot with gmtoff := wrapInt cache.gmtoff } },
      some (.offsetStored sec msec))
  | .offsetStored sec msec =>
    ({ machine with cache := { machine.cache with cachedTime := machine.cache.slot } },
      some (.timePublished sec msec))
  | .timePublished sec msec =>
    ({ machine with cache := { machine.cache with httpData := some machine.cache.slot } },
      some (.finished sec msec))
  | .finished _ _ =>
    ({ machine with cache := { machine.cache with lock := false } }, some .unlocked)
  | .unlocked => (machine, none)
  | .initCycle => (machine, some (.loaded machine.cache.cachedTime))
  | .loaded tp =>
    let cache := machine.cache
    ({ machine with cache := cache.setTime tp { cache.cachedTimes tp with sec := 0 } }, none)

/-- What can happen: the topmost call goes on, `night_time_update` is called by the program or
by a signal handler, or the program comes to `night_init_cycle`. -/
inductive Step (gmtime : ℤ → Tm) : Machine → Machine → Prop
  | run {machine : Machine} {frame : Frame} {frames : List Frame} (answer : Answer)
      (hframes : machine.frames = frame :: frames) (hsec : 1 ≤ answer.timeofday.1) :
      Step gmtime machine
        { (stepFrame gmtime answer machine frame).1 with
          frames := (stepFrame gmtime answer machine frame).2.toList ++ frames }
  | call (machine : Machine) :
      Step gmtime machine { machine with frames := .enter :: machine.frames }
  | reset {machine : Machine} (hframes : machine.frames = []) :
      Step gmtime machine { machine with frames := [.initCycle] }

/-- `night_time_init` has set the length and the pointer and calls `night_time_update`. -/
def start : Machine where
  cache :=
    { cachedTimes := fun _ => ⟨0, 0, 0⟩
      cachedHttpTimes := fun _ => []
      cachedTime := 0
      httpData := none
      httpLen := (literal "Mon, 28 Sep 1970 06:00:00 GMT").length
      lock := false
      currentMsec := 0
      slot := 0
      gmtoff := 0 }
  frames := [.enter]
  latest := none
  advances := 0

/-! ## What is published -/

/-- The calls that have the lock. -/
def Frame.holds : Frame → Bool
  | .enter | .tested | .refused | .unlocked | .initCycle | .loaded _ => false
  | _ => true

/-- The frames of `night_init_cycle`. -/
def Frame.resets : Frame → Bool
  | .initCycle | .loaded _ => true
  | _ => false

/-- The string that is published is the date of a second. -/
def Dated (gmtime : ℤ → Tm) (cache : Cache) (sec : ℤ) : Prop :=
  cache.httpData = some cache.slot ∧
    sprintfDate (gmtime sec) = some (cache.cachedHttpTimes cache.slot)

/-- A reading is published, and so is the date of its second. -/
def Shown (gmtime : ℤ → Tm) (cache : Cache) (reading : ℤ × ℤ) : Prop :=
  ((cache.cachedTimes cache.cachedTime).sec = reading.1 ∧
    (cache.cachedTimes cache.cachedTime).msec = reading.2) ∧
    cache.cachedTime = cache.slot ∧ Dated gmtime cache reading.1

/-- Between two updates: the slot has the date of its second, if the second is not cleared. -/
def Settled (gmtime : ℤ → Tm) (cache : Cache) : Prop :=
  cache.cachedTime = cache.slot ∧ (cache.httpData = none ∨ cache.httpData = some cache.slot) ∧
    ((cache.cachedTimes cache.slot).sec ≠ 0 →
      Dated gmtime cache (cache.cachedTimes cache.slot).sec)

/-- What an update has done so far. -/
def Progress (gmtime : ℤ → Tm) (cache : Cache) (latest : Option (ℤ × ℤ)) : Frame → Prop
  | .locked => Settled gmtime cache
  | .read sec msec | .timed sec msec =>
    1 ≤ sec ∧ latest = some (sec, msec) ∧ Settled gmtime cache
  | .same sec msec =>
    1 ≤ sec ∧ latest = some (sec, msec) ∧ Settled gmtime cache ∧
      (cache.cachedTimes cache.slot).sec = sec
  | .moved sec msec => 1 ≤ sec ∧ latest = some (sec, msec) ∧ cache.httpData ≠ some cache.slot
  | .secStored sec msec =>
    1 ≤ sec ∧ latest = some (sec, msec) ∧ cache.httpData ≠ some cache.slot ∧
      (cache.cachedTimes cache.slot).sec = sec
  | .stored sec msec =>
    1 ≤ sec ∧ latest = some (sec, msec) ∧ cache.httpData ≠ some cache.slot ∧
      (cache.cachedTimes cache.slot).sec = sec ∧ (cache.cachedTimes cache.slot).msec = msec
  | .printed sec msec | .offsetStored sec msec =>
    1 ≤ sec ∧ latest = some (sec, msec) ∧ cache.httpData ≠ some cache.slot ∧
      (cache.cachedTimes cache.slot).sec = sec ∧ (cache.cachedTimes cache.slot).msec = msec ∧
      sprintfDate (gmtime sec) = some (cache.cachedHttpTimes cache.slot)
  | .timePublished sec msec =>
    1 ≤ sec ∧ latest = some (sec, msec) ∧ cache.httpData ≠ some cache.slot ∧
      (cache.cachedTimes cache.slot).sec = sec ∧ (cache.cachedTimes cache.slot).msec = msec ∧
      sprintfDate (gmtime sec) = some (cache.cachedHttpTimes cache.slot) ∧
      cache.cachedTime = cache.slot
  | .finished sec msec =>
    1 ≤ sec ∧ latest = some (sec, msec) ∧ Shown gmtime cache (sec, msec)
  | _ => True

/-- The calls behind the topmost one that has the lock wait below it, and those that came later
cannot take it. -/
inductive Calls (gmtime : ℤ → Tm) (machine : Machine) : Prop
  | free (hlock : machine.cache.lock = false)
      (hframes : ∀ frame ∈ machine.frames, frame.holds = false)
      (hsettled : Settled gmtime machine.cache)
      (hshown : .unlocked ∈ machine.frames →
        ∃ reading, machine.latest = some reading ∧ Shown gmtime machine.cache reading)
  | held (later : List Frame) (frame : Frame) (earlier : List Frame)
      (hlock : machine.cache.lock = true)
      (hframes : machine.frames = later ++ frame :: earlier)
      (hlater : ∀ frame ∈ later, frame = .enter ∨ frame = .refused)
      (hholds : frame.holds = true)
      (hearlier : ∀ frame ∈ earlier, frame.holds = false)
      (hprogress : Progress gmtime machine.cache machine.latest frame)

/-- The invariant of the machine; `night_init_cycle` has not been called by a handler. -/
structure Inv (gmtime : ℤ → Tm) (machine : Machine) : Prop where
  slot : machine.cache.slot < nightTimeSlots
  resets : ∀ frame ∈ machine.frames.dropLast, frame.resets = false
  calls : Calls gmtime machine

/-! ## One step -/

theorem nextSlot_lt {slot : ℕ} (hslot : slot < nightTimeSlots) : nextSlot slot < nightTimeSlots := by
  unfold nextSlot nightTimeSlots at *
  split_ifs <;> omega

theorem nextSlot_ne (slot : ℕ) : nextSlot slot ≠ slot := by
  unfold nextSlot nightTimeSlots
  split_ifs <;> omega

@[simp]
theorem setTime_self (cache : Cache) (i : ℕ) (time : NightTime) :
    (cache.setTime i time).cachedTimes i = time := Function.update_self ..

theorem setTime_other (cache : Cache) {i j : ℕ} (hne : j ≠ i) (time : NightTime) :
    (cache.setTime i time).cachedTimes j = cache.cachedTimes j := Function.update_of_ne hne ..

section Steps

variable {gmtime : ℤ → Tm}

theorem Shown.settled {cache : Cache} {reading : ℤ × ℤ} (hshown : Shown gmtime cache reading) :
    Settled gmtime cache := by
  obtain ⟨⟨hsec, -⟩, hslot, hdated⟩ := hshown
  rw [hslot] at hsec
  exact ⟨hslot, Or.inr hdated.1, fun _ => hsec ▸ hdated⟩

/-- What the call does that has the lock: it comes to its next place, or it gives the lock back
with its reading published. -/
theorem Progress.step (hvalid : ∀ t, (gmtime t).Valid) {machine : Machine} {frame : Frame}
    (hholds : frame.holds = true) (hlock : machine.cache.lock = true) (answer : Answer)
    (hsec : 1 ≤ answer.timeofday.1)
    (hprogress : Progress gmtime machine.cache machine.latest frame) :
    (∃ next, (stepFrame gmtime answer machine frame).2 = some next ∧ next.holds = true ∧
      (stepFrame gmtime answer machine frame).1.cache.lock = true ∧
      Progress gmtime (stepFrame gmtime answer machine frame).1.cache
        (stepFrame gmtime answer machine frame).1.latest next) ∨
    (stepFrame gmtime answer machine frame).2 = some .unlocked ∧
      (stepFrame gmtime answer machine frame).1.cache.lock = false ∧
      ∃ reading, (stepFrame gmtime answer machine frame).1.latest = some reading ∧
        Shown gmtime (stepFrame gmtime answer machine frame).1.cache reading := by
  cases frame with
  | enter | tested | refused | unlocked | initCycle | loaded => cases hholds
  | locked => exact Or.inl ⟨_, rfl, rfl, hlock, hsec, rfl, hprogress⟩
  | read sec msec => exact Or.inl ⟨_, rfl, rfl, hlock, hprogress⟩
  | timed sec msec =>
    obtain ⟨hpos, hlatest, hsettled⟩ := hprogress
    by_cases hsame : (machine.cache.cachedTimes machine.cache.slot).sec = sec
    · simp only [stepFrame, if_pos hsame]
      exact Or.inl ⟨_, rfl, rfl, hlock, hpos, hlatest, hsettled, hsame⟩
    · simp only [stepFrame, if_neg hsame]
      refine Or.inl ⟨_, rfl, rfl, hlock, hpos, hlatest, ?_⟩
      have hne := nextSlot_ne machine.cache.slot
      obtain hnone | hsome := hsettled.2.1
      · simp [hnone]
      · simp [hsome, hne.symm]
  | same sec msec =>
    obtain ⟨hpos, hlatest, ⟨hslot, -, hdated⟩, hsame⟩ := hprogress
    have hdated := hdated (by omega)
    rw [hsame] at hdated
    refine Or.inl ⟨_, rfl, rfl, hlock, hpos, hlatest, ⟨?_, ?_⟩, hslot, hdated⟩
    · change ((machine.cache.setTime _ _).cachedTimes machine.cache.cachedTime).sec = sec
      rw [hslot, setTime_self]
      exact hsame
    · change ((machine.cache.setTime _ _).cachedTimes machine.cache.cachedTime).msec = msec
      rw [hslot, setTime_self]
  | moved sec msec =>
    obtain ⟨hpos, hlatest, hdata⟩ := hprogress
    refine Or.inl ⟨_, rfl, rfl, hlock, hpos, hlatest, hdata, ?_⟩
    simp [stepFrame, Cache.setTime]
  | secStored sec msec =>
    obtain ⟨hpos, hlatest, hdata, hstored⟩ := hprogress
    refine Or.inl ⟨_, rfl, rfl, hlock, hpos, hlatest, hdata, ?_, ?_⟩
    · simp [stepFrame, Cache.setTime, hstored]
    · simp [stepFrame, Cache.setTime]
  | stored sec msec =>
    obtain ⟨hpos, hlatest, hdata, hstored, hmsec⟩ := hprogress
    obtain ⟨text, htext, -⟩ := length_sprintfDate (hvalid sec)
    refine Or.inl ⟨_, rfl, rfl, hlock, hpos, hlatest, hdata, hstored, hmsec, ?_⟩
    simp [stepFrame, htext]
  | printed sec msec =>
    obtain ⟨hpos, hlatest, hdata, hstored, hmsec, htext⟩ := hprogress
    refine Or.inl ⟨_, rfl, rfl, hlock, hpos, hlatest, hdata, ?_, ?_, htext⟩
    · simp [stepFrame, Cache.setTime, hstored]
    · simp [stepFrame, Cache.setTime, hmsec]
  | offsetStored sec msec =>
    obtain ⟨hpos, hlatest, hdata, hstored, hmsec, htext⟩ := hprogress
    exact Or.inl ⟨_, rfl, rfl, hlock, hpos, hlatest, hdata, hstored, hmsec, htext, rfl⟩
  | timePublished sec msec =>
    obtain ⟨hpos, hlatest, -, hstored, hmsec, htext, hslot⟩ := hprogress
    refine Or.inl ⟨_, rfl, rfl, hlock, hpos, hlatest, ⟨?_, ?_⟩, hslot, rfl, htext⟩
    · exact (congrArg (fun i => (machine.cache.cachedTimes i).sec) hslot).trans hstored
    · exact (congrArg (fun i => (machine.cache.cachedTimes i).msec) hslot).trans hmsec
  | finished sec msec =>
    obtain ⟨-, hlatest, hshown⟩ := hprogress
    exact Or.inr ⟨rfl, rfl, _, hlatest, hshown⟩

/-- A call without the lock changes nothing, or it takes the free lock, or it clears the
seconds of a slot. -/
theorem stepFrame_without {machine : Machine} {frame : Frame} (hholds : frame.holds = false)
    (answer : Answer) :
    ((stepFrame gmtime answer machine frame).1 = machine ∧
      ∀ next ∈ (stepFrame gmtime answer machine frame).2,
        next.holds = false ∧ next ≠ .unlocked ∧ next.resets = frame.resets) ∨
    (frame = .tested ∧ machine.cache.lock = false ∧
      (stepFrame gmtime answer machine frame).2 = some .locked ∧
      (stepFrame gmtime answer machine frame).1 =
        { machine with cache := { machine.cache with lock := true } }) ∨
    ∃ tp, frame = .loaded tp ∧ (stepFrame gmtime answer machine frame).2 = none ∧
      (stepFrame gmtime answer machine frame).1 = { machine with
        cache := machine.cache.setTime tp { machine.cache.cachedTimes tp with sec := 0 } } := by
  cases frame with
  | locked | read | timed | same | moved | secStored | stored | printed | offsetStored
    | timePublished | finished => cases hholds
  | enter =>
    left
    refine ⟨rfl, ?_⟩
    intro next hnext
    simp only [stepFrame] at hnext
    split_ifs at hnext
    · obtain rfl := Option.mem_some.mp hnext
      exact ⟨rfl, by decide, rfl⟩
    · obtain rfl := Option.mem_some.mp hnext
      exact ⟨rfl, by decide, rfl⟩
  | tested =>
    by_cases hlock : machine.cache.lock = true
    · left
      rw [show stepFrame gmtime answer machine .tested = (machine, some .refused) from if_pos hlock]
      refine ⟨rfl, ?_⟩
      intro next hnext
      obtain rfl := Option.mem_some.mp hnext
      exact ⟨rfl, by decide, rfl⟩
    · right
      left
      rw [show stepFrame gmtime answer machine .tested = ({ machine with
        cache := { machine.cache with lock := true } }, some .locked) from if_neg hlock]
      exact ⟨rfl, by simpa using hlock, rfl, rfl⟩
  | refused | unlocked => exact Or.inl ⟨rfl, by simp [stepFrame]⟩
  | initCycle =>
    left
    refine ⟨rfl, ?_⟩
    intro next hnext
    obtain rfl := Option.mem_some.mp hnext
    exact ⟨rfl, by simp, rfl⟩
  | loaded tp => exact Or.inr (Or.inr ⟨tp, rfl, rfl, rfl⟩)

theorem Settled.clear {cache : Cache} (hsettled : Settled gmtime cache) (tp : ℕ) :
    Settled gmtime (cache.setTime tp { cache.cachedTimes tp with sec := 0 }) := by
  obtain ⟨hslot, hdata, hdated⟩ := hsettled
  refine ⟨hslot, hdata, ?_⟩
  change ((cache.setTime _ _).cachedTimes cache.slot).sec ≠ 0 →
    Dated gmtime cache ((cache.setTime _ _).cachedTimes cache.slot).sec
  by_cases hself : cache.slot = tp
  · subst hself
    rw [setTime_self]
    intro hne
    exact absurd rfl hne
  · rw [setTime_other cache hself]
    exact hdated

theorem stepFrame_slot (answer : Answer) (machine : Machine) (frame : Frame) :
    ((stepFrame gmtime answer machine frame).1.cache.slot = machine.cache.slot ∧
      (stepFrame gmtime answer machine frame).1.advances = machine.advances) ∨
    (stepFrame gmtime answer machine frame).1.cache.slot = nextSlot machine.cache.slot ∧
      (stepFrame gmtime answer machine frame).1.advances = machine.advances + 1 := by
  cases frame with
  | tested =>
    simp only [stepFrame]
    split_ifs <;> exact Or.inl ⟨rfl, rfl⟩
  | timed sec msec =>
    simp only [stepFrame]
    split_ifs
    · exact Or.inl ⟨rfl, rfl⟩
    · exact Or.inr ⟨rfl, rfl⟩
  | _ => exact Or.inl ⟨rfl, rfl⟩

/-- A frame of an update is followed by one of an update. -/
theorem stepFrame_resets {answer : Answer} {machine : Machine} {frame next : Frame}
    (hresets : frame.resets = false)
    (hnext : (stepFrame gmtime answer machine frame).2 = some next) : next.resets = false := by
  cases frame <;> simp only [stepFrame] at hnext
  case initCycle | loaded => cases hresets
  case enter => split_ifs at hnext <;> (obtain rfl := Option.some.inj hnext; rfl)
  case tested => split_ifs at hnext <;> (obtain rfl := Option.some.inj hnext; rfl)
  case timed => split_ifs at hnext <;> (obtain rfl := Option.some.inj hnext; rfl)
  case refused | unlocked => cases hnext
  all_goals (obtain rfl := Option.some.inj hnext; rfl)

theorem Inv.step (hvalid : ∀ t, (gmtime t).Valid) {machine machine' : Machine}
    (hinv : Inv gmtime machine) (hstep : Step gmtime machine machine') : Inv gmtime machine' := by
  obtain ⟨hslot, hresets, hcalls⟩ := hinv
  cases hstep with
  | call =>
    refine ⟨hslot, ?_, ?_⟩
    · intro frame hframe
      dsimp only at hframe
      cases hframes : machine.frames with
      | nil =>
        rw [hframes] at hframe
        cases hframe
      | cons top frames =>
        rw [hframes, List.dropLast_cons_of_ne_nil (List.cons_ne_nil _ _), List.mem_cons,
          ← hframes] at hframe
        obtain rfl | hframe := hframe
        · rfl
        · exact hresets frame hframe
    · cases hcalls with
      | free hlock hframes hsettled hshown =>
        refine .free hlock ?_ hsettled ?_
        · intro frame hframe
          obtain rfl | hframe := List.mem_cons.mp hframe
          · rfl
          · exact hframes frame hframe
        · intro hunlocked
          exact hshown ((List.mem_cons.mp hunlocked).resolve_left (by decide))
      | held later frame earlier hlock hframes hlater hholds hearlier hprogress =>
        refine .held (.enter :: later) frame earlier hlock ?_ ?_ hholds hearlier hprogress
        · dsimp only
          rw [hframes, List.cons_append]
        · intro frame hframe
          obtain rfl | hframe := List.mem_cons.mp hframe
          · exact Or.inl rfl
          · exact hlater frame hframe
  | reset hframes =>
    refine ⟨hslot, by simp, ?_⟩
    cases hcalls with
    | free hlock hnone hsettled hshown =>
      refine .free hlock ?_ hsettled ?_
      · intro frame hframe
        obtain rfl := List.mem_singleton.mp hframe
        rfl
      · intro hunlocked
        exact absurd (List.mem_singleton.mp hunlocked) (by decide)
    | held later frame earlier hlock hheld =>
      rw [hframes] at hheld
      exact absurd hheld (by simp)
  | @run frame frames answer hframes hsec =>
    have hslot' : (stepFrame gmtime answer machine frame).1.cache.slot < nightTimeSlots := by
      obtain ⟨hsame, -⟩ | ⟨hnext, -⟩ := @stepFrame_slot gmtime answer machine frame
      · rwa [hsame]
      · rw [hnext]
        exact nextSlot_lt hslot
    have htop : frames ≠ [] → frame.resets = false := by
      intro hne
      apply hresets frame
      rw [hframes, List.dropLast_cons_of_ne_nil hne]
      exact List.mem_cons_self ..
    refine ⟨hslot', ?_, ?_⟩
    · by_cases hne : frames = []
      · subst hne
        cases (stepFrame gmtime answer machine frame).2 <;> simp
      · dsimp only
        rw [List.dropLast_append_of_ne_nil hne]
        intro frame' hframe'
        obtain hnext | hlater := List.mem_append.mp hframe'
        · exact stepFrame_resets (htop hne) (Option.mem_toList.mp hnext)
        · apply hresets frame'
          rw [hframes, List.dropLast_cons_of_ne_nil hne]
          exact List.mem_cons_of_mem _ hlater
    · cases hcalls with
      | free hlock hnone hsettled hshown =>
        rw [hframes] at hnone hshown
        obtain ⟨hholds, hrest⟩ := List.forall_mem_cons.mp hnone
        obtain ⟨hsame, hnext⟩ | ⟨-, -, hnext, hmachine⟩ | ⟨tp, rfl, hnext, hmachine⟩ :=
          @stepFrame_without gmtime machine _ hholds answer
        · rw [hsame]
          refine .free hlock ?_ hsettled ?_
          · intro frame' hframe'
            obtain htop' | hlater := List.mem_append.mp hframe'
            · exact (hnext frame' (Option.mem_toList.mp htop')).1
            · exact hrest frame' hlater
          · intro hunlocked
            obtain htop' | hlater := List.mem_append.mp hunlocked
            · exact absurd rfl (hnext _ (Option.mem_toList.mp htop')).2.1
            · exact hshown (List.mem_cons_of_mem _ hlater)
        · rw [hnext, hmachine]
          exact .held [] .locked frames rfl rfl (by simp) rfl hrest hsettled
        · -- the program itself is at work, so no handler is
          have hnil : frames = [] := by
            by_contra hne
            exact absurd (htop hne) (by simp [Frame.resets])
          rw [hnext, hmachine, hnil]
          exact .free hlock (by simp) (hsettled.clear tp) (by simp)
      | held later holder earlier hlock hheld hlater hholds hearlier hprogress =>
        rw [hframes] at hheld
        cases later with
        | nil =>
          obtain ⟨rfl, rfl⟩ := List.cons.inj hheld
          obtain ⟨next, hnext, hholds', hlock', hprogress'⟩ | ⟨hnext, hlock', hshown⟩ :=
            hprogress.step hvalid hholds hlock answer hsec
          · rw [hnext]
            exact .held [] next frames hlock' rfl (by simp) hholds' hearlier hprogress'
          · obtain ⟨reading, hlatest, hshown⟩ := hshown
            rw [hnext]
            refine .free hlock' ?_ hshown.settled (fun _ => ⟨reading, hlatest, hshown⟩)
            intro frame' hframe'
            obtain rfl | hframe' := List.mem_cons.mp hframe'
            · rfl
            · exact hearlier frame' hframe'
        | cons top later =>
          obtain ⟨rfl, rfl⟩ := List.cons.inj hheld
          obtain ⟨htop', hlater'⟩ := List.forall_mem_cons.mp hlater
          obtain rfl | rfl := htop'
          · -- the lock is taken
            simp only [stepFrame, if_pos hlock]
            refine .held (.refused :: later) holder earlier hlock rfl ?_ hholds hearlier hprogress
            exact List.forall_mem_cons.mpr ⟨Or.inr rfl, hlater'⟩
          · exact .held later holder earlier hlock rfl hlater' hholds hearlier hprogress

end Steps

/-! ## Every run -/

/-- The machine comes to another state. -/
def Steps (gmtime : ℤ → Tm) : Machine → Machine → Prop := Relation.ReflTransGen (Step gmtime)

section Runs

variable {gmtime : ℤ → Tm}

theorem inv_start : Inv gmtime start := by
  refine ⟨by decide, by simp [start], .free rfl ?_ ?_ ?_⟩
  · intro frame hframe
    obtain rfl := List.mem_singleton.mp hframe
    rfl
  · exact ⟨rfl, Or.inl rfl, fun hne => absurd rfl hne⟩
  · intro hunlocked
    exact absurd (List.mem_singleton.mp hunlocked) (by decide)

theorem Inv.run (hvalid : ∀ t, (gmtime t).Valid) {machine machine' : Machine}
    (hinv : Inv gmtime machine) (hsteps : Steps gmtime machine machine') : Inv gmtime machine' := by
  induction hsteps with
  | refl => exact hinv
  | tail _ hstep ih => exact ih.step hvalid hstep

/-- Strings are written while the slot they go to is not published. -/
theorem stepFrame_texts (answer : Answer) (machine : Machine) (frame : Frame) :
    (stepFrame gmtime answer machine frame).1.cache.cachedHttpTimes = machine.cache.cachedHttpTimes ∨
      ∃ sec msec, frame = .stored sec msec ∧
        ∀ i ≠ machine.cache.slot, (stepFrame gmtime answer machine frame).1.cache.cachedHttpTimes i =
          machine.cache.cachedHttpTimes i := by
  cases frame with
  | stored sec msec =>
    refine Or.inr ⟨sec, msec, rfl, ?_⟩
    intro i hne
    exact Function.update_of_ne hne ..
  | tested =>
    simp only [stepFrame]
    split_ifs <;> exact Or.inl rfl
  | timed sec msec =>
    simp only [stepFrame]
    split_ifs <;> exact Or.inl rfl
  | _ => exact Or.inl rfl

theorem stepFrame_data (answer : Answer) (machine : Machine) (frame : Frame) :
    (stepFrame gmtime answer machine frame).1.cache.httpData = machine.cache.httpData ∨
      (stepFrame gmtime answer machine frame).1.cache.httpData = some machine.cache.slot ∧
        (stepFrame gmtime answer machine frame).1.cache.slot = machine.cache.slot := by
  cases frame with
  | tested =>
    simp only [stepFrame]
    split_ifs <;> exact Or.inl rfl
  | timed sec msec =>
    simp only [stepFrame]
    split_ifs <;> exact Or.inl rfl
  | timePublished => exact Or.inr ⟨rfl, rfl⟩
  | _ => exact Or.inl rfl

theorem Inv.of_stored {machine : Machine} {sec msec : ℤ} {frames : List Frame}
    (hinv : Inv gmtime machine) (hframes : machine.frames = .stored sec msec :: frames) :
    machine.cache.httpData ≠ some machine.cache.slot := by
  cases hinv.calls with
  | free hlock hnone =>
    rw [hframes] at hnone
    exact absurd (hnone _ (List.mem_cons_self ..)) (by simp [Frame.holds])
  | held later holder earlier hlock hheld hlater hholds hearlier hprogress =>
    rw [hframes] at hheld
    cases later with
    | nil =>
      obtain ⟨rfl, -⟩ := List.cons.inj hheld
      exact hprogress.2.2.1
    | cons top later =>
      obtain ⟨rfl, -⟩ := List.cons.inj hheld
      obtain htop | htop := hlater _ (List.mem_cons_self ..)
      · cases htop
      · cases htop

theorem nextSlot_mod {slot : ℕ} (hslot : slot < nightTimeSlots) : nextSlot slot = (slot + 1) % 64 := by
  unfold nextSlot nightTimeSlots at *
  split_ifs <;> omega

/-- From the moment on that a string is published the slot goes round the ring. -/
theorem string_kept (hvalid : ∀ t, (gmtime t).Valid) {machine machine' : Machine} {i : ℕ}
    (hinv : Inv gmtime machine) (hdata : machine.cache.httpData = some i)
    (hslot : machine.cache.slot = i) (hsteps : Steps gmtime machine machine') :
    ∃ k, machine'.advances = machine.advances + k ∧ machine'.cache.slot = (i + k) % 64 ∧
      (k = 0 → machine'.cache.httpData = some i) ∧
      (k < 64 → machine'.cache.cachedHttpTimes i = machine.cache.cachedHttpTimes i) := by
  have hi : i < 64 := hslot ▸ hinv.slot
  induction hsteps with
  | refl => exact ⟨0, rfl, by omega, fun _ => hdata, fun _ => rfl⟩
  | @tail middle last hfirst hstep ih =>
    obtain ⟨k, hadvances, hring, hcurrent, htexts⟩ := ih
    have hmiddle := hinv.run hvalid hfirst
    cases hstep with
    | call => exact ⟨k, hadvances, hring, hcurrent, htexts⟩
    | reset => exact ⟨k, hadvances, hring, hcurrent, htexts⟩
    | @run frame frames answer hframes hsec =>
      have hstring : k < 64 →
          (stepFrame gmtime answer middle frame).1.cache.cachedHttpTimes i =
            machine.cache.cachedHttpTimes i := by
        intro hk
        rw [← htexts hk]
        obtain hsame | ⟨sec, msec, rfl, hother⟩ :=
          @stepFrame_texts gmtime answer middle frame
        · rw [hsame]
        · -- another slot is written, since this one is published
          have hunpublished := hmiddle.of_stored hframes
          apply hother
          rw [hring]
          rintro heq
          obtain rfl : k = 0 := by omega
          apply hunpublished
          rw [hcurrent rfl, hring, ← heq]
      obtain ⟨hsame, hadvances'⟩ | ⟨hnext, hadvances'⟩ :=
        @stepFrame_slot gmtime answer middle frame
      · refine ⟨k, hadvances'.trans hadvances, hsame.trans hring, ?_, hstring⟩
        intro hk
        obtain hdata' | ⟨hdata', -⟩ := @stepFrame_data gmtime answer middle frame
        · exact hdata'.trans (hcurrent hk)
        · subst hk
          rw [hdata', hring]
          congr 1
          omega
      · refine ⟨k + 1, by rw [hadvances', hadvances]; rfl, ?_, by simp, fun hk => hstring (by omega)⟩
        rw [hnext, nextSlot_mod hmiddle.slot, hring]
        omega

theorem Inv.shown {machine : Machine} {frames : List Frame} (hinv : Inv gmtime machine)
    (hframes : machine.frames = .unlocked :: frames) :
    machine.cache.lock = false ∧
      ∃ reading, machine.latest = some reading ∧ Shown gmtime machine.cache reading := by
  cases hinv.calls with
  | free hlock hnone hsettled hshown =>
    exact ⟨hlock, hshown (by rw [hframes]; exact List.mem_cons_self ..)⟩
  | held later holder earlier hlock hheld hlater hholds =>
    rw [hframes] at hheld
    cases later with
    | nil =>
      obtain ⟨rfl, -⟩ := List.cons.inj hheld
      cases hholds
    | cons top later =>
      obtain ⟨rfl, -⟩ := List.cons.inj hheld
      obtain htop | htop := hlater _ (List.mem_cons_self ..)
      · cases htop
      · cases htop

/-- A call that comes while the lock is held does nothing. -/
theorem Inv.nested {machine machine' : Machine} {frame : Frame} {frames : List Frame}
    (hinv : Inv gmtime machine) (hframes : machine.frames = frame :: frames)
    (hholder : ∃ holder ∈ frames, holder.holds = true) (hstep : Step gmtime machine machine') :
    machine'.cache = machine.cache ∧ machine'.latest = machine.latest := by
  obtain ⟨holder, hmem, hholds⟩ := hholder
  cases hstep with
  | call => exact ⟨rfl, rfl⟩
  | reset hnil =>
    rw [hnil] at hframes
    cases hframes
  | @run top frames' answer hframes' hsec =>
    rw [hframes] at hframes'
    obtain ⟨rfl, rfl⟩ := List.cons.inj hframes'
    cases hinv.calls with
    | free hlock hnone =>
      rw [hframes] at hnone
      have hfree := hnone holder (List.mem_cons_of_mem _ hmem)
      rw [hholds] at hfree
      cases hfree
    | held later holder' earlier hlock hheld hlater hholds' hearlier =>
      rw [hframes] at hheld
      cases later with
      | nil =>
        obtain ⟨rfl, rfl⟩ := List.cons.inj hheld
        rw [hearlier holder hmem] at hholds
        cases hholds
      | cons top later =>
        obtain ⟨rfl, -⟩ := List.cons.inj hheld
        obtain rfl | rfl := hlater _ (List.mem_cons_self ..)
        · exact ⟨rfl, rfl⟩
        · exact ⟨rfl, rfl⟩

end Runs

/-- In every run of the machine, wherever the handlers call `night_time_update` and the program
`night_init_cycle`:  a call that had the lock returns with the latest reading and its date
published and the lock free; a published string stays until the slot has been advanced 64 times;
a call that comes while the lock is held changes nothing; and without a call that has it the lock
is free. -/
theorem machine_lawful (gmtime : ℤ → Tm) (hvalid : ∀ t, (gmtime t).Valid) :
    ∀ machine, Steps gmtime start machine →
      (∀ frames, machine.frames = .unlocked :: frames → machine.cache.lock = false ∧
        ∃ reading, machine.latest = some reading ∧ Shown gmtime machine.cache reading) ∧
      (∀ i, machine.cache.httpData = some i → machine.cache.slot = i →
        ∀ machine', Steps gmtime machine machine' → machine'.advances < machine.advances + 64 →
          machine'.cache.cachedHttpTimes i = machine.cache.cachedHttpTimes i) ∧
      (∀ frame frames, machine.frames = frame :: frames →
        (∃ holder ∈ frames, holder.holds = true) → ∀ machine', Step gmtime machine machine' →
          machine'.cache = machine.cache ∧ machine'.latest = machine.latest) ∧
      ((∀ frame ∈ machine.frames, frame.holds = false) → machine.cache.lock = false) := by
  intro machine hsteps
  have hinv : Inv gmtime machine := inv_start.run hvalid hsteps
  refine ⟨fun frames hframes => hinv.shown hframes, ?_, ?_, ?_⟩
  · intro i hdata hslot machine' hlater hadvances
    obtain ⟨k, hk, -, -, htexts⟩ := string_kept hvalid hinv hdata hslot hlater
    exact htexts (by omega)
  · intro frame frames hframes hholder machine' hstep
    exact hinv.nested hframes hholder hstep
  · intro hnone
    cases hinv.calls with
    | free hlock => exact hlock
    | held later holder earlier hlock hheld hlater hholds =>
      have hfree := hnone holder (by rw [hheld]; simp)
      rw [hholds] at hfree
      cases hfree

/-- The topmost call goes on for some steps. -/
def goOn (gmtime : ℤ → Tm) (answer : Answer) : ℕ → Machine → Machine
  | 0, machine => machine
  | n + 1, machine =>
    match machine.frames with
    | [] => machine
    | frame :: frames => goOn gmtime answer n
        { (stepFrame gmtime answer machine frame).1 with
          frames := (stepFrame gmtime answer machine frame).2.toList ++ frames }

theorem steps_goOn (gmtime : ℤ → Tm) {answer : Answer} (hsec : 1 ≤ answer.timeofday.1) (n : ℕ)
    (machine : Machine) : Steps gmtime machine (goOn gmtime answer n machine) := by
  induction n generalizing machine with
  | zero => exact .refl
  | succ n ih =>
    rw [goOn]
    cases hframes : machine.frames with
    | nil => exact .refl
    | cons frame frames => exact .head (.run answer hframes hsec) (ih _)

/-- The dates of the calendar. -/
def calendarTm (t : ℤ) : Tm := tmOf (Calendar.Moment.next^[Times.clamp t] epoch)

/-- The first update, up to its return. -/
def firstUpdate : Machine := goOn calendarTm ⟨(1000, 250000), (5, 0), 0⟩ 12 start

theorem machine_lawful_firstUpdate : firstUpdate.frames = [.unlocked] ∧
    firstUpdate.cache.lock = false ∧
    (firstUpdate.cache.cachedTimes firstUpdate.cache.cachedTime).sec = 1000 := by
  have hframes : firstUpdate.frames = [.unlocked] := rfl
  have hlatest : firstUpdate.latest = some (1000, 250) := rfl
  have hsteps : Steps calendarTm start firstUpdate := steps_goOn calendarTm (by decide) 12 start
  obtain ⟨hlock, reading, hreading, hshown⟩ :=
    (machine_lawful calendarTm (fun t => Times.valid_tmOf t) firstUpdate hsteps).1 [] hframes
  rw [hlatest] at hreading
  obtain rfl := Option.some.inj hreading
  exact ⟨hframes, hlock, hshown.1.1⟩

end Night.TimesCache
