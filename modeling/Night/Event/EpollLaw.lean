import Night.Event.Epoll

/-!
# When the interest table mirrors the flags

Each call is looked at for one descriptor: where the table was right before, it is known
which call `epoll_ctl` gets, that it succeeds, and which mask is left.  The loops over
listening sockets and the runs follow.
-/

namespace Night.Epoll

variable {readMask mask other flags : Mask} {d d' : Descriptor}

/-! ## Masks -/

/-- An interest of read events: a part of what `night_epoll_del_event` leaves of them. -/
structure ReadMask (readMask : Mask) : Prop where
  nonzero : readMask ≠ 0#32
  part : contains (EPOLLIN ||| EPOLLRDHUP) readMask = true
  apart : EPOLLOUT &&& readMask = 0#32

theorem readMask_in : ReadMask EPOLLIN := ⟨by decide, by decide, by decide⟩

theorem readMask_rdhup : ReadMask (EPOLLIN ||| EPOLLRDHUP) := ⟨by decide, by decide, by decide⟩

theorem contains_iff : contains mask other = true ↔ mask &&& other = other := beq_iff_eq

theorem contains_or_left (hmask : contains mask other = true) (more : Mask) :
    contains (mask ||| more) other = true := by
  rw [contains_iff] at hmask ⊢
  rw [BitVec.and_or_distrib_right, hmask]
  ext i hi
  cases hbit : other[i] <;> simp [hbit]

/-- Bits that are apart from those that are looked for do not matter. -/
theorem contains_or_apart {more : Mask} (hapart : more &&& other = 0#32) :
    contains (mask ||| more) other = contains mask other := by
  unfold contains
  rw [BitVec.and_or_distrib_right, hapart, BitVec.or_zero]

theorem contains_nothing (hmask : ReadMask readMask) : contains 0#32 readMask = false := by
  unfold contains
  rw [BitVec.zero_and, beq_eq_false_iff_ne]
  exact hmask.nonzero.symm

theorem contains_out (hmask : ReadMask readMask) : contains EPOLLOUT readMask = false := by
  unfold contains
  rw [hmask.apart, beq_eq_false_iff_ne]
  exact hmask.nonzero.symm

/-! ## One descriptor -/

/-- The mask with which an event is added. -/
def addedMask (d : Descriptor) (side : Side) (flags : Mask) : Mask :=
  match side with
  | .read => (if d.write.active then EPOLLIN ||| EPOLLOUT else EPOLLIN) ||| flags
  | .write => (if d.read.active then EPOLLOUT ||| EPOLLIN else EPOLLOUT) ||| flags

theorem Mirrored.entry_eq_none (hright : Mirrored readMask d) (hread : d.read.active = false)
    (hwrite : d.write.active = false) : d.entry = none := by
  have hnot : ¬ d.entry.isSome = true := by
    rw [hright.registered, hread, hwrite]
    decide
  simpa using hnot

theorem Mirrored.exists_entry (hright : Mirrored readMask d)
    (hactive : d.read.active = true ∨ d.write.active = true) : ∃ entry, d.entry = some entry :=
  Option.isSome_iff_exists.mp (hright.registered.mpr hactive)

/-- An event that is not active is added: the guess of `ADD` or `MOD` is right. -/
theorem addEvent_eq (hright : Mirrored readMask d) {side : Side}
    (hinactive : (d.event side).active = false) (flags : Mask) :
    nightEpollAddEvent d side side.mask flags =
      (.ok, { d with entry := some ⟨addedMask d side flags, (d.event side).instance_⟩ }.setActive
        side true) := by
  cases side with
  | read =>
      cases hwrite : d.write.active with
      | false =>
          have hnone := hright.entry_eq_none hinactive hwrite
          simp [nightEpollAddEvent, Side.mask, hwrite, hnone, epollCtl, addedMask, nightReadEvent]
      | true =>
          obtain ⟨entry, hentry⟩ := hright.exists_entry (Or.inr hwrite)
          simp [nightEpollAddEvent, Side.mask, hwrite, hentry, epollCtl, addedMask, nightReadEvent]
  | write =>
      have hevent : EPOLLOUT ≠ nightReadEvent := by decide
      cases hread : d.read.active with
      | false =>
          have hnone := hright.entry_eq_none hread hinactive
          simp [nightEpollAddEvent, Side.mask, hread, hnone, epollCtl, addedMask, hevent,
            nightWriteEvent]
      | true =>
          obtain ⟨entry, hentry⟩ := hright.exists_entry (Or.inl hread)
          simp [nightEpollAddEvent, Side.mask, hread, hentry, epollCtl, addedMask, hevent,
            nightWriteEvent]

theorem addedMask_read (hmask : ReadMask readMask) (d : Descriptor) (flags : Mask) :
    contains (addedMask d .read flags) readMask = contains (EPOLLIN ||| flags) readMask := by
  cases hwrite : d.write.active with
  | false => simp [addedMask, hwrite]
  | true =>
      have hmove : EPOLLIN ||| EPOLLOUT ||| flags = EPOLLIN ||| flags ||| EPOLLOUT := by ac_rfl
      simp only [addedMask, hwrite, if_true]
      rw [hmove, contains_or_apart hmask.apart]

theorem addedMask_read_out (d : Descriptor) (flags : Mask) :
    contains (addedMask d .read flags) EPOLLOUT = (d.write.active || contains flags EPOLLOUT) := by
  cases hwrite : d.write.active with
  | false =>
      simp only [addedMask, hwrite, Bool.false_or, Bool.false_eq_true, if_false]
      rw [BitVec.or_comm, contains_or_apart (by decide)]
  | true =>
      simp only [addedMask, hwrite, Bool.true_or, if_true]
      exact contains_or_left (by decide) flags

theorem addedMask_write (hmask : ReadMask readMask) (d : Descriptor) (flags : Mask) :
    contains (addedMask d .write flags) readMask =
      contains (if d.read.active then EPOLLIN ||| flags else flags) readMask := by
  cases hread : d.read.active with
  | false =>
      simp only [addedMask, hread, Bool.false_eq_true, if_false]
      rw [BitVec.or_comm, contains_or_apart hmask.apart]
  | true =>
      have hmove : EPOLLOUT ||| EPOLLIN ||| flags = EPOLLIN ||| flags ||| EPOLLOUT := by ac_rfl
      simp only [addedMask, hread, if_true]
      rw [hmove, contains_or_apart hmask.apart]

theorem addedMask_write_out (d : Descriptor) (flags : Mask) :
    contains (addedMask d .write flags) EPOLLOUT = true := by
  apply contains_or_left
  cases d.read.active <;> decide

/-- What a read event that is added must be added with. -/
theorem addRead_mirrored_iff (hmask : ReadMask readMask) (d : Descriptor) (flags : Mask)
    (inst : Bool) :
    Mirrored readMask ({ d with entry := some ⟨addedMask d .read flags, inst⟩ }.setActive .read
        true) ↔
      contains (EPOLLIN ||| flags) readMask = true ∧
        (contains flags EPOLLOUT = true → d.write.active = true) := by
  have hread := addedMask_read hmask d flags
  have hout := addedMask_read_out d flags
  constructor
  · intro hright
    refine ⟨hread.symm.trans (hright.read.mpr rfl), fun hflags => hright.write.mp ?_⟩
    change contains (addedMask d .read flags) EPOLLOUT = true
    rw [hout, hflags, Bool.or_true]
  · rintro ⟨hcontains, hflags⟩
    refine ⟨iff_of_true (hread.trans hcontains) rfl, ?_, iff_of_true rfl (Or.inl rfl)⟩
    change contains (addedMask d .read flags) EPOLLOUT = true ↔ d.write.active = true
    rw [hout, Bool.or_eq_true]
    exact ⟨fun h => h.elim id hflags, Or.inl⟩

theorem addWrite_mirrored_iff (hmask : ReadMask readMask) (d : Descriptor) (flags : Mask)
    (inst : Bool) :
    Mirrored readMask ({ d with entry := some ⟨addedMask d .write flags, inst⟩ }.setActive
        .write true) ↔
      (contains (if d.read.active then EPOLLIN ||| flags else flags) readMask = true ↔
        d.read.active = true) := by
  have hread := addedMask_write hmask d flags
  have hout := addedMask_write_out d flags
  constructor
  · intro hright
    rw [← hread]
    exact hright.read
  · intro hcontains
    rw [← hread] at hcontains
    exact ⟨hcontains, iff_of_true hout rfl, iff_of_true rfl (Or.inr rfl)⟩

/-- A descriptor that is not registered and has no active event. -/
theorem mirrored_none (hmask : ReadMask readMask) (hentry : d.entry = none)
    (hread : d.read.active = false) (hwrite : d.write.active = false) : Mirrored readMask d := by
  have hinterest : d.interest = 0#32 := by rw [Descriptor.interest, hentry]; rfl
  refine ⟨?_, ?_, ?_⟩
  · rw [hinterest, contains_nothing hmask, hread]
  · rw [hinterest, hwrite]
    decide
  · rw [hentry, hread, hwrite]
    decide

theorem delRead_mirrored (hmask : ReadMask readMask) (hright : Mirrored readMask d)
    {flags : Mask} (hflags : flags &&& nightCloseEvent = 0#32) :
    Mirrored readMask (nightEpollDelEvent d .read nightReadEvent flags).2 := by
  cases hwrite : d.write.active with
  | true =>
      obtain ⟨entry, hentry⟩ := hright.exists_entry (Or.inr hwrite)
      have hleft : (nightEpollDelEvent d .read nightReadEvent flags).2 =
          { d with entry := some ⟨EPOLLOUT, d.read.instance_⟩ }.setActive .read false := by
        simp [nightEpollDelEvent, hflags, hwrite, hentry, epollCtl, Descriptor.event]
      rw [hleft]
      refine ⟨?_, ?_, ?_⟩
      · exact iff_of_false (by simp [Descriptor.interest, Descriptor.setActive,
          contains_out hmask]) (by simp [Descriptor.setActive])
      · have hself : contains EPOLLOUT EPOLLOUT = true := by decide
        exact iff_of_true hself hwrite
      · exact iff_of_true rfl (Or.inr hwrite)
  | false =>
      cases hread : d.read.active with
      | true =>
          obtain ⟨entry, hentry⟩ := hright.exists_entry (Or.inl hread)
          have hleft : (nightEpollDelEvent d .read nightReadEvent flags).2 =
              { d with entry := none }.setActive .read false := by
            simp [nightEpollDelEvent, hflags, hwrite, hentry, epollCtl]
          rw [hleft]
          exact mirrored_none hmask rfl rfl hwrite
      | false =>
          have hentry := hright.entry_eq_none hread hwrite
          have hleft : (nightEpollDelEvent d .read nightReadEvent flags).2 = d := by
            simp [nightEpollDelEvent, hflags, hwrite, hentry, epollCtl]
          rw [hleft]
          exact hright

theorem delWrite_mirrored (hmask : ReadMask readMask) (hright : Mirrored readMask d)
    {flags : Mask} (hflags : flags &&& nightCloseEvent = 0#32) :
    Mirrored readMask (nightEpollDelEvent d .write nightWriteEvent flags).2 := by
  have hevent : nightWriteEvent ≠ nightReadEvent := by decide
  cases hread : d.read.active with
  | true =>
      obtain ⟨entry, hentry⟩ := hright.exists_entry (Or.inl hread)
      have hleft : (nightEpollDelEvent d .write nightWriteEvent flags).2 =
          { d with entry := some ⟨EPOLLIN ||| EPOLLRDHUP, d.write.instance_⟩ }.setActive
            .write false := by
        simp [nightEpollDelEvent, hflags, hread, hentry, epollCtl, Descriptor.event, hevent]
      rw [hleft]
      refine ⟨iff_of_true hmask.part hread, iff_of_false ?_ ?_, iff_of_true rfl (Or.inl hread)⟩
      · change ¬ contains (EPOLLIN ||| EPOLLRDHUP) EPOLLOUT = true
        decide
      · simp [Descriptor.setActive]
  | false =>
      cases hwrite : d.write.active with
      | true =>
          obtain ⟨entry, hentry⟩ := hright.exists_entry (Or.inr hwrite)
          have hleft : (nightEpollDelEvent d .write nightWriteEvent flags).2 =
              { d with entry := none }.setActive .write false := by
            simp [nightEpollDelEvent, hflags, hread, hentry, epollCtl, hevent]
          rw [hleft]
          exact mirrored_none hmask rfl hread rfl
      | false =>
          have hentry := hright.entry_eq_none hread hwrite
          have hleft : (nightEpollDelEvent d .write nightWriteEvent flags).2 = d := by
            simp [nightEpollDelEvent, hflags, hread, hentry, epollCtl, hevent]
          rw [hleft]
          exact hright

theorem delConn_mirrored (hmask : ReadMask readMask) (hright : Mirrored readMask d)
    {flags : Mask} (hflags : flags &&& nightCloseEvent = 0#32) :
    Mirrored readMask (nightEpollDelConn d flags).2 := by
  have hopen : ¬ flags &&& nightCloseEvent ≠ 0 := not_not_intro hflags
  unfold nightEpollDelConn
  simp only [if_neg hopen]
  cases hentry : d.entry with
  | none => exact hright
  | some entry => exact mirrored_none hmask rfl rfl rfl

/-! ## The loops over listening sockets -/

variable {s s' : State} {ds : Descriptors} {listening : List (Option ℕ)}

/-- Some descriptors are right. -/
def TableRight (readMask : Mask) (ds : Descriptors) : Prop :=
  ∀ fd d, ds fd = some d → Mirrored readMask d

theorem TableRight.update (hright : TableRight readMask ds) (fd : ℕ)
    (hd : Mirrored readMask d) : TableRight readMask (Function.update ds fd (some d)) := by
  intro fd' d' hd'
  by_cases hsame : fd' = fd
  · rw [hsame, Function.update_self] at hd'
    cases hd'
    exact hd
  · rw [Function.update_of_ne hsame] at hd'
    exact hright fd' d' hd'

/-- What the loop that disables leaves of a listening socket: the kernel is not told. -/
def disabled (d : Descriptor) : Descriptor := d.setActive .read false

theorem disabled_of_inactive (hread : d.read.active = false) : disabled d = d := by
  obtain ⟨⟨active, inst⟩, write, entry⟩ := d
  cases hread
  rfl

theorem disable_spec (listening : List (Option ℕ)) (ds : Descriptors) :
    ∃ ds', nightDisableAcceptEvents listening ds = (.ok, ds') ∧ ∀ fd,
      ds' fd = if some fd ∈ listening then (ds fd).map disabled else ds fd := by
  induction listening generalizing ds with
  | nil => exact ⟨ds, rfl, fun fd => by simp⟩
  | cons head listening ih =>
      cases head with
      | none =>
          obtain ⟨ds', hloop, hspec⟩ := ih ds
          exact ⟨ds', hloop, fun fd => by simp [hspec fd]⟩
      | some fd =>
          rw [nightDisableAcceptEvents]
          cases hd : ds fd with
          | none =>
              obtain ⟨ds', hloop, hspec⟩ := ih ds
              refine ⟨ds', hloop, fun fd' => ?_⟩
              rw [hspec fd']
              by_cases hsame : fd' = fd
              · simp [hsame, hd]
              · simp [hsame]
          | some d =>
              have hclose : nightEpollDelEvent d .read nightReadEvent nightCloseEvent =
                  (.ok, disabled d) := rfl
              cases hread : d.read.active with
              | false =>
                  obtain ⟨ds', hloop, hspec⟩ := ih ds
                  refine ⟨ds', by simpa [hread] using hloop, fun fd' => ?_⟩
                  rw [hspec fd']
                  by_cases hsame : fd' = fd
                  · simp [hsame, hd, disabled_of_inactive hread]
                  · simp [hsame]
              | true =>
                  obtain ⟨ds', hloop, hspec⟩ := ih (Function.update ds fd (some (disabled d)))
                  refine ⟨ds', by simpa [hread, hclose] using hloop, fun fd' => ?_⟩
                  rw [hspec fd']
                  by_cases hsame : fd' = fd
                  · rw [hsame, Function.update_self, hd]
                    have htwice : disabled (disabled d) = disabled d := rfl
                    simp [htwice]
                  · rw [Function.update_of_ne hsame]
                    simp [hsame]

/-- What the loop that enables leaves of a listening socket. -/
def enabled (d : Descriptor) : Descriptor :=
  if d.read.active then d
  else { d with entry := some ⟨addedMask d .read EPOLLET, d.read.instance_⟩ }.setActive .read true

theorem enabled_active (d : Descriptor) : (enabled d).read.active = true := by
  unfold enabled
  cases hread : d.read.active with
  | true => simpa using hread
  | false => rfl

/-- Where the table is right for the sockets that are to be added, each call succeeds. -/
theorem enable_spec (listening : List (Option ℕ)) (ds : Descriptors)
    (hright : ∀ fd d, ds fd = some d → d.read.active = false → Mirrored readMask d) :
    ∃ ds', nightEnableAcceptEvents listening ds = (.ok, ds') ∧ ∀ fd,
      ds' fd = if some fd ∈ listening then (ds fd).map enabled else ds fd := by
  induction listening generalizing ds with
  | nil => exact ⟨ds, rfl, fun fd => by simp⟩
  | cons head listening ih =>
      cases head with
      | none =>
          obtain ⟨ds', hloop, hspec⟩ := ih ds hright
          exact ⟨ds', hloop, fun fd => by simp [hspec fd]⟩
      | some fd =>
          rw [nightEnableAcceptEvents]
          cases hd : ds fd with
          | none =>
              obtain ⟨ds', hloop, hspec⟩ := ih ds hright
              refine ⟨ds', hloop, fun fd' => ?_⟩
              rw [hspec fd']
              by_cases hsame : fd' = fd
              · simp [hsame, hd]
              · simp [hsame]
          | some d =>
              cases hread : d.read.active with
              | true =>
                  obtain ⟨ds', hloop, hspec⟩ := ih ds hright
                  refine ⟨ds', by simpa [hread] using hloop, fun fd' => ?_⟩
                  rw [hspec fd']
                  by_cases hsame : fd' = fd
                  · have hsameDescriptor : enabled d = d := by simp [enabled, hread]
                    simp [hsame, hd, hsameDescriptor]
                  · simp [hsame]
              | false =>
                  have hadd : nightEpollAddEvent d .read nightReadEvent EPOLLET =
                      (.ok, enabled d) := by
                    have hinactive : (d.event .read).active = false := hread
                    have hadded := addEvent_eq (hright fd d hd hread) hinactive EPOLLET
                    simp only [enabled, hread, Bool.false_eq_true, if_false]
                    exact hadded
                  have hright' : ∀ fd' d',
                      Function.update ds fd (some (enabled d)) fd' = some d' →
                        d'.read.active = false → Mirrored readMask d' := by
                    intro fd' d' hd' hread'
                    by_cases hsame : fd' = fd
                    · rw [hsame, Function.update_self] at hd'
                      cases hd'
                      rw [enabled_active] at hread'
                      cases hread'
                    · rw [Function.update_of_ne hsame] at hd'
                      exact hright fd' d' hd' hread'
                  obtain ⟨ds', hloop, hspec⟩ :=
                    ih (Function.update ds fd (some (enabled d))) hright'
                  refine ⟨ds', by simpa [hread, hadd] using hloop, fun fd' => ?_⟩
                  rw [hspec fd']
                  by_cases hsame : fd' = fd
                  · rw [hsame, Function.update_self, hd]
                    have htwice : enabled (enabled d) = enabled d := by
                      rw [enabled, if_pos (enabled_active d)]
                    simp [htwice]
                  · rw [Function.update_of_ne hsame]
                    simp [hsame]

/-! ## Steps -/

/-- Listening sockets stay open. -/
def Listens (s : State) : Prop := ∀ fd, some fd ∈ s.listening → s.descriptors fd ≠ none

theorem put_mirrors_iff (hmirrors : Mirrors readMask s) (fd : ℕ) (d : Descriptor) :
    Mirrors readMask (s.put fd (some d)) ↔ Mirrored readMask d := by
  constructor
  · intro hput
    exact hput fd d (Function.update_self ..)
  · intro hd
    exact TableRight.update hmirrors fd hd

theorem right_iff_mirrors {act : Act} {rc : Rc} (hact : act ≠ .enable) :
    Right readMask act rc s ↔ Mirrors readMask s :=
  ⟨fun h => h.mirrors, fun h => ⟨h, fun heq => absurd heq hact⟩⟩

theorem addEvent_mirrors_iff (hmask : ReadMask readMask) (hmirrors : Mirrors readMask s)
    {fd : ℕ} (hd : s.descriptors fd = some d) {side : Side}
    (hinactive : (d.event side).active = false) (flags : Mask) :
    Mirrors readMask (s.put fd (some (nightEpollAddEvent d side side.mask flags).2)) ↔
      Meets readMask s (.addEvent fd side flags) := by
  rw [put_mirrors_iff hmirrors, addEvent_eq (hmirrors fd d hd) hinactive]
  have honly (holds : Descriptor → Prop) :
      holds d ↔ ∀ d', s.descriptors fd = some d' → holds d' := by
    rw [hd]
    exact ⟨fun h d' hd' => by cases hd'; exact h, fun h => h d rfl⟩
  cases side with
  | read =>
      exact (addRead_mirrored_iff hmask d flags _).trans (honly fun d =>
        contains (EPOLLIN ||| flags) readMask = true ∧
          (contains flags EPOLLOUT = true → d.write.active = true))
  | write =>
      exact (addWrite_mirrored_iff hmask d flags _).trans (honly fun d =>
        (contains (if d.read.active then EPOLLIN ||| flags else flags) readMask = true ↔
          d.read.active = true))

theorem disable_mirrors_iff (hmirrors : Mirrors readMask s)
    (hspec : ∀ fd, s'.descriptors fd =
      if some fd ∈ s.listening then (s.descriptors fd).map disabled else s.descriptors fd) :
    Mirrors readMask s' ↔ Meets readMask s .disable := by
  constructor
  · intro hright fd hfd d hd
    have hdisabled : s'.descriptors fd = some (disabled d) := by
      rw [hspec fd, if_pos hfd, hd]
      rfl
    -- the kernel still has the interest of the event
    by_contra hactive
    have hactive : d.read.active = true := by simpa using hactive
    have hkept : contains (disabled d).interest readMask = true :=
      (hmirrors fd d hd).read.mpr hactive
    have hcleared := (hright fd _ hdisabled).read.mp hkept
    cases hcleared
  · intro hidle fd d hd
    rw [hspec fd] at hd
    by_cases hfd : some fd ∈ s.listening
    · rw [if_pos hfd] at hd
      obtain ⟨d', hd', rfl⟩ := Option.map_eq_some_iff.mp hd
      rw [disabled_of_inactive (hidle fd hfd d' hd')]
      exact hmirrors fd d' hd'
    · rw [if_neg hfd] at hd
      exact hmirrors fd d hd

theorem enabled_mirrored_iff (hmask : ReadMask readMask) (hread : d.read.active = false) :
    Mirrored readMask (enabled d) ↔ contains (EPOLLIN ||| EPOLLET) readMask = true := by
  have hout : ¬ contains EPOLLET EPOLLOUT = true := by decide
  have henabled : enabled d =
      { d with entry := some ⟨addedMask d .read EPOLLET, d.read.instance_⟩ }.setActive .read
        true := by
    simp only [enabled, hread, Bool.false_eq_true, if_false]
  rw [henabled, addRead_mirrored_iff hmask]
  exact and_iff_left (fun h => absurd h hout)

theorem enable_mirrors_iff (hmask : ReadMask readMask) (hmirrors : Mirrors readMask s)
    (hspec : ∀ fd, s'.descriptors fd =
      if some fd ∈ s.listening then (s.descriptors fd).map enabled else s.descriptors fd) :
    Mirrors readMask s' ↔ Meets readMask s .enable := by
  constructor
  · intro hright
    by_cases hmasked : contains (EPOLLIN ||| EPOLLET) readMask = true
    · exact Or.inl hmasked
    · right
      intro fd hfd d hd
      have henabled : s'.descriptors fd = some (enabled d) := by
        rw [hspec fd, if_pos hfd, hd]
        rfl
      by_contra hinactive
      have hinactive : d.read.active = false := by simpa using hinactive
      exact hmasked ((enabled_mirrored_iff hmask hinactive).mp (hright fd _ henabled))
  · intro hmeets fd d hd
    rw [hspec fd] at hd
    by_cases hfd : some fd ∈ s.listening
    · rw [if_pos hfd] at hd
      obtain ⟨d', hd', rfl⟩ := Option.map_eq_some_iff.mp hd
      cases hread : d'.read.active with
      | true =>
          have hsame : enabled d' = d' := by simp [enabled, hread]
          rw [hsame]
          exact hmirrors fd d' hd'
      | false =>
          apply (enabled_mirrored_iff hmask hread).mpr
          apply hmeets.resolve_right
          intro hall
          rw [hall fd hfd d' hd'] at hread
          cases hread
    · rw [if_neg hfd] at hd
      exact hmirrors fd d hd

/-- A step from a right table is right exactly when its condition is met. -/
theorem step_right_iff (hmask : ReadMask readMask) (hmirrors : Mirrors readMask s)
    (hlistens : Listens s) {act : Act} {rc : Rc} (hstep : step s act = some (rc, s')) :
    Right readMask act rc s' ↔ Meets readMask s act := by
  cases act with
  | opens fd inst =>
      rw [right_iff_mirrors (by simp)]
      simp only [step] at hstep
      split at hstep
      · cases hstep
        rw [put_mirrors_iff hmirrors]
        exact iff_of_true (mirrored_none hmask rfl rfl rfl) trivial
      · cases hstep
  | closes fd =>
      rw [right_iff_mirrors (by simp)]
      simp only [step] at hstep
      split at hstep
      · cases hstep
      · split at hstep
        · cases hstep
        · cases hstep
          refine iff_of_true (fun fd' d' hd' => ?_) trivial
          change Function.update s.descriptors fd none fd' = some d' at hd'
          by_cases hsame : fd' = fd
          · rw [hsame, Function.update_self] at hd'
            cases hd'
          · rw [Function.update_of_ne hsame] at hd'
            exact hmirrors fd' d' hd'
  | addEvent fd side flags =>
      rw [right_iff_mirrors (by simp)]
      simp only [step] at hstep
      split at hstep
      · cases hstep
      · rename_i d hd
        split at hstep
        · cases hstep
        · rename_i hinactive
          cases hstep
          exact addEvent_mirrors_iff hmask hmirrors hd (by simpa using hinactive) flags
  | delEvent fd side flags =>
      rw [right_iff_mirrors (by simp)]
      simp only [step] at hstep
      split at hstep
      · cases hstep
      · rename_i d hd
        split at hstep
        · cases hstep
        · rename_i hflags
          cases hstep
          rw [put_mirrors_iff hmirrors]
          refine iff_of_true ?_ trivial
          have hflags : flags &&& nightCloseEvent = 0#32 := not_not.mp hflags
          cases side with
          | read => exact delRead_mirrored hmask (hmirrors fd d hd) hflags
          | write => exact delWrite_mirrored hmask (hmirrors fd d hd) hflags
  | delConn fd flags =>
      rw [right_iff_mirrors (by simp)]
      simp only [step] at hstep
      split at hstep
      · cases hstep
      · rename_i d hd
        split at hstep
        · cases hstep
        · rename_i hflags
          cases hstep
          rw [put_mirrors_iff hmirrors]
          exact iff_of_true (delConn_mirrored hmask (hmirrors fd d hd) (not_not.mp hflags)) trivial
  | disable =>
      rw [right_iff_mirrors (by simp)]
      obtain ⟨ds', hloop, hspec⟩ := disable_spec s.listening s.descriptors
      simp only [step, hloop] at hstep
      cases hstep
      exact disable_mirrors_iff hmirrors hspec
  | enable =>
      obtain ⟨ds', hloop, hspec⟩ := enable_spec s.listening s.descriptors
        (fun fd d hd _ => hmirrors fd d hd)
      simp only [step, hloop] at hstep
      cases hstep
      have hiff : Mirrors readMask { s with descriptors := ds' } ↔ Meets readMask s .enable :=
        enable_mirrors_iff hmask hmirrors hspec
      constructor
      · intro hright
        exact hiff.mp hright.mirrors
      · intro hmeets
        have hmirrors' := hiff.mpr hmeets
        refine ⟨hmirrors', fun _ => ⟨rfl, fun fd hfd => ?_⟩⟩
        obtain ⟨d, hd⟩ := Option.ne_none_iff_exists'.mp (hlistens fd hfd)
        have henabled : ds' fd = some (enabled d) := by
          rw [hspec fd, if_pos hfd, hd]
          rfl
        exact ⟨enabled d, henabled, enabled_active d,
          (hmirrors' fd _ henabled).registered.mpr (Or.inl (enabled_active d))⟩

theorem listens_put (hlistens : Listens s) (fd : ℕ) (d : Descriptor) :
    Listens (s.put fd (some d)) := by
  intro fd' hfd'
  change Function.update s.descriptors fd (some d) fd' ≠ none
  by_cases hsame : fd' = fd
  · rw [hsame, Function.update_self]
    simp
  · rw [Function.update_of_ne hsame]
    exact hlistens fd' hfd'

/-- A loop over the listening sockets closes none. -/
theorem listens_loop (hlistens : Listens s) {change : Descriptor → Descriptor}
    {ds' : Descriptors} (hspec : ∀ fd, ds' fd =
      if some fd ∈ s.listening then (s.descriptors fd).map change else s.descriptors fd) :
    Listens { s with descriptors := ds' } := by
  intro fd hfd
  change ds' fd ≠ none
  rw [hspec fd, if_pos hfd]
  simpa using hlistens fd hfd

theorem listens_step (hmirrors : Mirrors readMask s) (hlistens : Listens s) {act : Act}
    {rc : Rc} (hstep : step s act = some (rc, s')) : Listens s' := by
  cases act with
  | opens fd inst =>
      simp only [step] at hstep
      split at hstep
      · cases hstep
        exact listens_put hlistens fd _
      · cases hstep
  | closes fd =>
      simp only [step] at hstep
      split at hstep
      · cases hstep
      · split at hstep
        · cases hstep
        · rename_i hother
          cases hstep
          intro fd' hfd'
          change Function.update s.descriptors fd none fd' ≠ none
          have hne : fd' ≠ fd := fun hsame => hother (hsame ▸ hfd')
          rw [Function.update_of_ne hne]
          exact hlistens fd' hfd'
  | addEvent fd side flags | delEvent fd side flags | delConn fd flags =>
      simp only [step] at hstep
      split at hstep
      · cases hstep
      · split at hstep
        · cases hstep
        · cases hstep
          exact listens_put hlistens fd _
  | disable =>
      obtain ⟨ds', hloop, hspec⟩ := disable_spec s.listening s.descriptors
      simp only [step, hloop] at hstep
      cases hstep
      exact listens_loop hlistens hspec
  | enable =>
      obtain ⟨ds', hloop, hspec⟩ := enable_spec s.listening s.descriptors
        (fun fd d hd _ => hmirrors fd d hd)
      simp only [step, hloop] at hstep
      cases hstep
      exact listens_loop hlistens hspec

/-! ## Runs -/

theorem allRight_iff_allMeet (hmask : ReadMask readMask) (acts : List Act)
    (hmirrors : Mirrors readMask s) (hlistens : Listens s) :
    AllRight readMask acts s ↔ AllMeet readMask acts s := by
  induction acts generalizing s with
  | nil => exact Iff.rfl
  | cons act acts ih =>
      constructor
      · intro hall rc s' hstep
        obtain ⟨hright, hrest⟩ := hall rc s' hstep
        refine ⟨(step_right_iff hmask hmirrors hlistens hstep).mp hright, ?_⟩
        exact (ih hright.mirrors (listens_step hmirrors hlistens hstep)).mp hrest
      · intro hall rc s' hstep
        obtain ⟨hmeets, hrest⟩ := hall rc s' hstep
        have hright := (step_right_iff hmask hmirrors hlistens hstep).mpr hmeets
        refine ⟨hright, ?_⟩
        exact (ih hright.mirrors (listens_step hmirrors hlistens hstep)).mpr hrest

theorem mirrors_start (hmask : ReadMask readMask) (hstart : Start s) : Mirrors readMask s := by
  intro fd d hd
  obtain ⟨inst, rfl⟩ := hstart.fresh fd d hd
  exact mirrored_none hmask rfl rfl rfl

/-- Every run over any descriptors is right exactly when every step of it meets its condition:
`EPOLLRDHUP` is among the flags wherever a read event is added or is active, and no listening
socket has an active event when the events are disabled. -/
theorem run_allRight_iff (hstart : Start s) (acts : List Act) :
    AllRight (EPOLLIN ||| EPOLLRDHUP) acts s ↔ AllMeet (EPOLLIN ||| EPOLLRDHUP) acts s :=
  allRight_iff_allMeet readMask_rdhup acts (mirrors_start readMask_rdhup hstart) hstart.listening

/-- The same for a table that has `EPOLLIN` for a read event only. -/
theorem run_allRight_in_iff (hstart : Start s) (acts : List Act) :
    AllRight EPOLLIN acts s ↔ AllMeet EPOLLIN acts s :=
  allRight_iff_allMeet readMask_in acts (mirrors_start readMask_in hstart) hstart.listening

/-! ## Enabling behind disabling -/

/-- A socket that is registered but not active is added again, and that fails. -/
theorem enable_error {fd : ℕ} (hfd : some fd ∈ listening) (hd : ds fd = some d)
    (hread : d.read.active = false) (hwrite : d.write.active = false)
    (hentry : d.entry.isSome = true) : (nightEnableAcceptEvents listening ds).1 = .error := by
  have hfails : nightEpollAddEvent d .read nightReadEvent EPOLLET = (.error, d) := by
    obtain ⟨entry, hentry⟩ := Option.isSome_iff_exists.mp hentry
    simp [nightEpollAddEvent, hwrite, hentry, epollCtl]
  induction listening generalizing ds with
  | nil => cases hfd
  | cons head listening ih =>
      cases head with
      | none => exact ih ((List.mem_cons.mp hfd).resolve_left (by simp)) hd
      | some fd' =>
          rw [nightEnableAcceptEvents]
          by_cases hsame : fd' = fd
          · rw [hsame, hd]
            simp [hread, hfails]
          · have hrest : some fd ∈ listening :=
              (List.mem_cons.mp hfd).resolve_left fun heq => hsame (Option.some.inj heq).symm
            split
            · exact ih hrest hd
            · split
              · exact ih hrest hd
              · split
                · rfl
                · apply ih hrest
                  rw [Function.update_of_ne (fun heq => hsame heq.symm)]
                  exact hd

/-- After the events were disabled while one was active they are not enabled again. -/
theorem enable_after_disable_fails (hmirrors : Mirrors readMask s) {fd : ℕ}
    (hfd : some fd ∈ s.listening) (hd : s.descriptors fd = some d)
    (hread : d.read.active = true) (hwrite : d.write.active = false) :
    (nightEnableAcceptEvents s.listening
      (nightDisableAcceptEvents s.listening s.descriptors).2).1 = .error := by
  obtain ⟨ds', hloop, hspec⟩ := disable_spec s.listening s.descriptors
  have hdisabled : ds' fd = some (disabled d) := by
    rw [hspec fd, if_pos hfd, hd]
    rfl
  rw [hloop]
  exact enable_error hfd hdisabled rfl hwrite
    ((hmirrors fd d hd).registered.mpr (Or.inl hread))

/-! ### One listening socket -/

/-- The descriptor 3 is open and listens. -/
def oneListener : State where
  descriptors := fun fd => if fd = 3 then some (fresh false) else none
  listening := [some 3]

theorem start_oneListener : Start oneListener where
  fresh := by
    intro fd d hd
    change (if fd = 3 then some (fresh false) else none) = some d at hd
    split at hd
    · cases hd
      exact ⟨false, rfl⟩
    · cases hd
  listening := by
    intro fd hfd
    have hsame : fd = 3 := by simpa [oneListener] using hfd
    simp [hsame, oneListener]

theorem allMeet_cons {act : Act} {acts : List Act} {rc : Rc} (hstep : step s act = some (rc, s'))
    (hmeets : Meets readMask s act) (hrest : AllMeet readMask acts s') :
    AllMeet readMask (act :: acts) s := by
  intro rc' s'' hstep'
  rw [hstep] at hstep'
  cases hstep'
  exact ⟨hmeets, hrest⟩

/-- What holds of the descriptor 3 holds of every listening socket. -/
theorem forall_listening {holds : Descriptor → Prop} (hlistening : s.listening = [some 3])
    (hd : s.descriptors 3 = some d) (hholds : holds d) :
    ∀ fd, some fd ∈ s.listening → ∀ d, s.descriptors fd = some d → holds d := by
  intro fd hfd d' hd'
  obtain rfl : fd = 3 := by simpa [hlistening] using hfd
  rw [hd] at hd'
  cases hd'
  exact hholds

/-- The event of the listening socket is deleted, disabled, added and enabled again, and a
connection is opened, registered for both events, deleted and closed. -/
def listenerRun : List Act :=
  [.addEvent 3 .read EPOLLRDHUP, .delEvent 3 .read 0, .disable, .addEvent 3 .read EPOLLRDHUP,
    .enable, .opens 5 true, .addEvent 5 .write 0, .addEvent 5 .read EPOLLRDHUP,
    .delEvent 5 .write 0, .delConn 5 0, .closes 5]

theorem allMeet_listenerRun : AllMeet (EPOLLIN ||| EPOLLRDHUP) listenerRun oneListener := by
  have hadd {s : State} {fd : ℕ} :
      Meets (EPOLLIN ||| EPOLLRDHUP) s (.addEvent fd .read EPOLLRDHUP) :=
    fun d _ => ⟨by decide, fun hout => absurd hout (by decide)⟩
  refine allMeet_cons rfl hadd ?_
  refine allMeet_cons rfl ?_ ?_
  · trivial
  refine allMeet_cons rfl ?_ ?_
  · exact forall_listening rfl rfl rfl
  refine allMeet_cons rfl hadd ?_
  refine allMeet_cons rfl ?_ ?_
  · exact Or.inr (forall_listening rfl rfl rfl)
  refine allMeet_cons rfl ?_ ?_
  · trivial
  refine allMeet_cons rfl ?_ ?_
  · intro d hd
    cases hd
    decide
  refine allMeet_cons rfl hadd ?_
  refine allMeet_cons rfl ?_ ?_
  · trivial
  refine allMeet_cons rfl ?_ ?_
  · trivial
  refine allMeet_cons rfl ?_ ?_
  · trivial
  trivial

theorem run_allRight_listenerRun :
    AllRight (EPOLLIN ||| EPOLLRDHUP) listenerRun oneListener :=
  (run_allRight_iff start_oneListener listenerRun).mpr allMeet_listenerRun

/-- With the flag that every caller passes the interest is that of `EPOLLIN` alone. -/
theorem not_run_allRight_oneAdd :
    ¬ ∀ (s : State), Start s → ∀ acts, AllRight (EPOLLIN ||| EPOLLRDHUP) acts s := by
  intro hall
  have hmeets := (run_allRight_iff start_oneListener _).mp
    (hall oneListener start_oneListener [.addEvent 3 .read EPOLLET])
  have hstep : step oneListener (.addEvent 3 .read EPOLLET) =
      some (.ok, oneListener.put 3 (some (nightEpollAddEvent (fresh false) .read nightReadEvent
        EPOLLET).2)) := rfl
  have hcontains := ((hmeets _ _ hstep).1 (fresh false) rfl).1
  exact absurd hcontains (by decide)

end Night.Epoll
