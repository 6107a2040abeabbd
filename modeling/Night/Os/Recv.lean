import Mathlib.Data.Int.Order.Basic
import Night.Core.Bytes

/-!
# `night_unix_recv`

The answers of the kernel to `recv` and to `FIONREAD`, and what `errno` holds at the call, are
input.
-/

namespace Night.Recv

open Night.Bytes

/-! ## Model -/

inductive Errno where
  | again
  | intr
  | other (code : ℕ)
  deriving DecidableEq, Repr

/-- An answer to `recv`: there are bytes, of which it stores as many as were asked for, and
`nread` is what `night_socket_nread` finds behind them; or there is the end of the stream; or
it fails. -/
inductive Answer where
  | data (byte : Byte) (more : List Byte) (nread : Option ℤ)
  | ended
  | failed (errno : Errno)
  deriving DecidableEq, Repr

/-- The fields of `c->read` that are used. -/
structure Event where
  available : ℤ
  pendingEof : Bool
  ready : Bool
  eof : Bool
  error : Bool
  deriving DecidableEq, Repr

/-- What a call of `recv` did. -/
structure Call where
  stored : ℕ
  ended : Bool
  deriving DecidableEq, Repr

/-- What the function returns, and the calls of `recv` that it made. -/
structure Outcome where
  result : ℤ
  rev : Event
  calls : List Call
  deriving DecidableEq, Repr

def nightError : ℤ := -1
def nightAgain : ℤ := -2

def Outcome.after (call : Call) (outcome : Outcome) : Outcome :=
  { outcome with calls := call :: outcome.calls }

/-- The end of the function. -/
def finish (n : ℤ) (rev : Event) : Outcome where
  result := n
  rev := { rev with ready := false, error := rev.error || n == nightError }
  calls := []

/-- The test of `errno` at the end of the body, and the condition of the loop. -/
def testErrno (n : ℤ) (errno : Errno) (rev : Event) (next : Outcome) : Outcome :=
  match errno with
  | .intr => next
  | .again => finish nightAgain rev
  | .other _ => finish n rev

/-- `rev->available` after `n` bytes; the result is `none` where `night_socket_nread` fails. -/
def updateAvailable (size n : ℕ) (nread : Option ℤ) (rev : Event) : Option Event :=
  if 0 ≤ rev.available then
    if rev.available - n < 0 then some { rev with available := 0, ready := false }
    else some { rev with available := rev.available - n }
  else if n = size then nread.map fun available => { rev with available := available }
  else some rev

/-- The loop.  After the answers that are given there is nothing to read. -/
def recvLoop (size : ℕ) : List Answer → Errno → Event → Outcome
  | [], _, rev => (finish nightAgain rev).after ⟨0, false⟩
  | .ended :: _, _, rev => ⟨0, { rev with ready := false, eof := true }, [⟨0, true⟩]⟩
  | .failed errno :: answers, _, rev =>
      (testErrno nightError errno rev (recvLoop size answers errno rev)).after ⟨0, false⟩
  | .data _ more nread :: answers, errno, rev =>
      let n := min size (more.length + 1)
      if n = 0 then ⟨0, { rev with ready := false, eof := true }, [⟨0, false⟩]⟩
      else
        match updateAvailable size n nread rev with
        | none => (finish nightError rev).after ⟨n, false⟩
        | some rev =>
            if n < size then
              ⟨n, { rev with ready := rev.ready && rev.pendingEof, available := 0 }, [⟨n, false⟩]⟩
            else (testErrno n errno rev (recvLoop size answers errno rev)).after ⟨n, false⟩

def nightUnixRecv (size : ℕ) (answers : List Answer) (errno : Errno) (rev : Event) : Outcome :=
  if rev.available = 0 ∧ !rev.pendingEof then ⟨nightAgain, { rev with ready := false }, []⟩
  else recvLoop size answers errno rev

/-! ## What is returned -/

/-- A positive result is what the last call has stored, zero is the end of the stream,
`NIGHT_AGAIN` means that nothing was stored, and there is no call after one that stored. -/
structure Sound (outcome : Outcome) : Prop where
  stored : ∀ n : ℕ, 0 < n →
    (outcome.result = n ↔ ∃ call ∈ outcome.calls.getLast?, call.stored = n)
  ended : outcome.result = 0 → ∃ call ∈ outcome.calls.getLast?, call.ended = true
  again : outcome.result = nightAgain → ∀ call ∈ outcome.calls, call.stored = 0
  once : ∀ call ∈ outcome.calls.dropLast, call.stored = 0

/-- The first answer that is not an interrupted call is no data, or less than was asked for;
or it fills the buffer while `errno` is neither `EAGAIN` nor `EINTR`, and `FIONREAD` works
where it is needed. -/
def Settles (size : ℕ) (available : ℤ) : List Answer → Errno → Prop
  | .failed .intr :: answers, _ => Settles size available answers .intr
  | .data _ more nread :: _, errno =>
      more.length + 1 < size ∨
        (0 < size ∧ errno ≠ .again ∧ errno ≠ .intr ∧ (available < 0 → nread.isSome))
  | _, _ => True

theorem calls_ne_nil (size : ℕ) (answers : List Answer) (errno : Errno) (rev : Event) :
    (recvLoop size answers errno rev).calls ≠ [] := by
  cases answers with
  | nil => exact List.cons_ne_nil _ _
  | cons answer answers =>
      cases answer with
      | ended => exact List.cons_ne_nil _ _
      | failed errno' => exact List.cons_ne_nil _ _
      | data byte more nread =>
          rw [recvLoop]
          split
          · exact List.cons_ne_nil _ _
          · split
            · exact List.cons_ne_nil _ _
            · split
              · exact List.cons_ne_nil _ _
              · exact List.cons_ne_nil _ _

/-- A call before the others that stores nothing. -/
theorem sound_after_iff {outcome : Outcome} (hcalls : outcome.calls ≠ []) (stored : ℕ) :
    Sound (outcome.after ⟨stored, false⟩) ↔ stored = 0 ∧ Sound outcome := by
  have hlast : (outcome.after ⟨stored, false⟩).calls.getLast? = outcome.calls.getLast? :=
    List.getLast?_cons_of_ne_nil hcalls
  have hdrop : (outcome.after ⟨stored, false⟩).calls.dropLast =
      ⟨stored, false⟩ :: outcome.calls.dropLast := List.dropLast_cons_of_ne_nil hcalls
  constructor
  · intro h
    have honce := h.once
    rw [hdrop] at honce
    obtain ⟨hzero, hrest⟩ := List.forall_mem_cons.mp honce
    refine ⟨hzero, ⟨?_, ?_, ?_, hrest⟩⟩
    · rw [← hlast]
      exact h.stored
    · rw [← hlast]
      exact h.ended
    · intro hagain
      exact (List.forall_mem_cons.mp (h.again hagain)).2
  · rintro ⟨hzero, h⟩
    refine ⟨?_, ?_, ?_, ?_⟩
    · rw [hlast]
      exact h.stored
    · rw [hlast]
      exact h.ended
    · intro hagain
      exact List.forall_mem_cons.mpr ⟨hzero, h.again hagain⟩
    · rw [hdrop]
      exact List.forall_mem_cons.mpr ⟨hzero, h.once⟩

/-- One call. -/
theorem sound_single_iff (result : ℤ) (rev : Event) (call : Call) :
    Sound ⟨result, rev, [call]⟩ ↔
      (∀ n : ℕ, 0 < n → (result = n ↔ call.stored = n)) ∧ (result = 0 → call.ended = true) ∧
        (result = nightAgain → call.stored = 0) := by
  constructor
  · intro h
    refine ⟨?_, ?_, ?_⟩
    · intro n hn
      rw [h.stored n hn]
      simp
    · intro hzero
      obtain ⟨last, hlast, hended⟩ := h.ended hzero
      have hcall : call = last := Option.some.inj hlast
      rwa [hcall]
    · intro hagain
      exact h.again hagain call (List.mem_singleton_self call)
  · rintro ⟨hstored, hended, hagain⟩
    refine ⟨?_, ?_, ?_, nofun⟩
    · intro n hn
      change result = n ↔ _
      rw [hstored n hn]
      simp
    · intro hzero
      exact ⟨call, rfl, hended hzero⟩
    · intro hresult x hx
      rw [List.mem_singleton.mp hx]
      exact hagain hresult

/-- A call that fills the buffer, and what `errno` then decides. -/
theorem sound_testErrno_iff {stored : ℕ} (hstored : 0 < stored) (errno : Errno) (rev : Event)
    {next : Outcome} (hnext : next.calls ≠ []) :
    Sound ((testErrno stored errno rev next).after ⟨stored, false⟩) ↔
      errno ≠ .again ∧ errno ≠ .intr := by
  cases errno with
  | again =>
      refine iff_of_false ?_ fun hboth => hboth.1 rfl
      intro h
      exact absurd ((sound_single_iff _ _ _).mp h).2.2 fun hall => Nat.ne_of_gt hstored (hall rfl)
  | intr =>
      refine iff_of_false ?_ fun hboth => hboth.2 rfl
      intro h
      exact Nat.ne_of_gt hstored ((sound_after_iff hnext stored).mp h).1
  | other code =>
      refine iff_of_true ?_ ⟨nofun, nofun⟩
      apply (sound_single_iff _ _ _).mpr
      refine ⟨?_, ?_, ?_⟩
      · intro n _
        exact Int.natCast_inj
      · intro hzero
        change (stored : ℤ) = 0 at hzero
        omega
      · intro hagain
        change (stored : ℤ) = -2 at hagain
        omega

/-- The update fails where a full buffer needs `night_socket_nread` and that fails. -/
theorem updateAvailable_eq_none_iff (size n : ℕ) (nread : Option ℤ) (rev : Event) :
    updateAvailable size n nread rev = none ↔ rev.available < 0 ∧ n = size ∧ nread = none := by
  rw [updateAvailable]
  split
  · rename_i hknown
    refine iff_of_false ?_ fun h => absurd h.1 (not_lt.mpr hknown)
    split
    · exact Option.some_ne_none _
    · exact Option.some_ne_none _
  · rename_i hunknown
    rw [and_iff_right (not_le.mp hunknown)]
    split
    · rename_i hfull
      rw [Option.map_eq_none_iff, and_iff_right hfull]
    · rename_i hpart
      exact iff_of_false (Option.some_ne_none _) fun h => hpart h.1

/-- An answer with data that fills the buffer, or not. -/
theorem sound_data_iff {size : ℕ} (byte : Byte) (more : List Byte) (nread : Option ℤ)
    (answers : List Answer) (errno : Errno) (rev : Event) :
    Sound (recvLoop size (.data byte more nread :: answers) errno rev) ↔
      more.length + 1 < size ∨
        (0 < size ∧ errno ≠ .again ∧ errno ≠ .intr ∧ (rev.available < 0 → nread.isSome)) := by
  rw [recvLoop]
  split
  · rename_i hzero
    refine iff_of_false ?_ ?_
    · intro h
      exact absurd (((sound_single_iff _ _ _).mp h).2.1 rfl) Bool.false_ne_true
    · omega
  · rename_i hne
    have hpos : 0 < min size (more.length + 1) := Nat.pos_of_ne_zero hne
    by_cases hpart : more.length + 1 < size
    · have hn : min size (more.length + 1) = more.length + 1 :=
        Nat.min_eq_right (Nat.le_of_lt hpart)
      have hshort : ¬ more.length + 1 = size := Nat.ne_of_lt hpart
      obtain ⟨rev', hrev'⟩ :
          ∃ rev', updateAvailable size (more.length + 1) nread rev = some rev' := by
        rw [← Option.ne_none_iff_exists', ne_eq, updateAvailable_eq_none_iff]
        exact fun hnone => hshort hnone.2.1
      refine iff_of_true ?_ (Or.inl hpart)
      simp only [hn, hrev', if_pos hpart]
      apply (sound_single_iff _ _ _).mpr
      refine ⟨?_, ?_, ?_⟩
      · intro n _
        exact Int.natCast_inj
      · intro hzero
        omega
      · intro hagain
        rw [nightAgain] at hagain
        omega
    · have hn : min size (more.length + 1) = size := Nat.min_eq_left (Nat.not_lt.mp hpart)
      rw [hn] at hpos
      have hsize : ¬ size < size := Nat.lt_irrefl size
      rw [or_iff_right hpart, hn]
      cases hupdate : updateAvailable size size nread rev with
      | none =>
          obtain ⟨hnegative, -, hnone⟩ := (updateAvailable_eq_none_iff _ _ _ _).mp hupdate
          refine iff_of_false ?_ ?_
          · intro h
            have hstored := ((sound_single_iff _ _ _).mp h).1 size hpos
            have hresult : nightError = (size : ℤ) := hstored.mpr rfl
            rw [nightError] at hresult
            omega
          · rintro ⟨-, -, -, hsome⟩
            rw [hnone] at hsome
            exact absurd (hsome hnegative) (by decide)
      | some rev' =>
          have hnread : rev.available < 0 → nread.isSome = true := by
            intro hnegative
            rw [Option.isSome_iff_ne_none]
            intro hnone
            have hfails := (updateAvailable_eq_none_iff size size nread rev).mpr
              ⟨hnegative, rfl, hnone⟩
            rw [hupdate] at hfails
            cases hfails
          simp only [if_neg hsize]
          rw [sound_testErrno_iff hpos errno rev' (calls_ne_nil size answers errno rev')]
          constructor
          · rintro ⟨hagain, hintr⟩
            exact ⟨hpos, hagain, hintr, hnread⟩
          · rintro ⟨-, hagain, hintr, -⟩
            exact ⟨hagain, hintr⟩

theorem sound_recvLoop_iff (size : ℕ) (answers : List Answer) (errno : Errno) (rev : Event) :
    Sound (recvLoop size answers errno rev) ↔ Settles size rev.available answers errno := by
  have hfailed : ∀ n : ℤ, n < 0 → Sound ((finish n rev).after ⟨0, false⟩) := by
    intro n hn
    apply (sound_single_iff _ _ _).mpr
    refine ⟨?_, ?_, fun _ => rfl⟩
    · intro m hm
      change n = m ↔ 0 = m
      omega
    · intro hzero
      change n = 0 at hzero
      omega
  induction answers generalizing errno with
  | nil => exact iff_of_true (hfailed nightAgain (by decide)) trivial
  | cons answer answers ih =>
      cases answer with
      | ended =>
          refine iff_of_true ?_ trivial
          apply (sound_single_iff _ _ _).mpr
          refine ⟨?_, fun _ => rfl, fun _ => rfl⟩
          intro n hn
          change (0 : ℤ) = n ↔ 0 = n
          omega
      | failed errno' =>
          rw [recvLoop]
          cases errno' with
          | again => exact iff_of_true (hfailed nightAgain (by decide)) trivial
          | other code => exact iff_of_true (hfailed nightError (by decide)) trivial
          | intr =>
              rw [testErrno, sound_after_iff (calls_ne_nil size answers .intr rev) 0]
              exact (and_iff_right rfl).trans (ih .intr)
      | data byte more nread => exact sound_data_iff byte more nread answers errno rev

/-- The result says what was read just where the first answer that is not an interrupted call
does not fill the buffer, or does so with an `errno` that does not mislead. -/
theorem nightUnixRecv_sound_iff (size : ℕ) (answers : List Answer) (errno : Errno) (rev : Event) :
    Sound (nightUnixRecv size answers errno rev) ↔
      (rev.available = 0 ∧ rev.pendingEof = false) ∨ Settles size rev.available answers errno := by
  rw [nightUnixRecv]
  by_cases hnone : rev.available = 0 ∧ rev.pendingEof = false
  · have hbranch : rev.available = 0 ∧ (!rev.pendingEof) = true := by
      rw [hnone.2]
      exact ⟨hnone.1, rfl⟩
    rw [if_pos hbranch]
    refine iff_of_true ⟨?_, nofun, fun _ => nofun, nofun⟩ (Or.inl hnone)
    intro n hn
    change (-2 : ℤ) = n ↔ _
    refine iff_of_false (by omega) ?_
    rintro ⟨call, hcall, -⟩
    cases hcall
  · have hbranch : ¬ (rev.available = 0 ∧ (!rev.pendingEof) = true) := by
      rw [Bool.not_eq_true']
      exact hnone
    rw [if_neg hbranch, or_iff_right hnone]
    exact sound_recvLoop_iff size answers errno rev

/-- Four bytes for four that were asked for are lost where `errno` still is `EAGAIN`. -/
theorem not_sound_staleErrno :
    ¬ ∀ (size : ℕ) (answers : List Answer) (errno : Errno) (rev : Event),
      Sound (nightUnixRecv size answers errno rev) := by
  intro hall
  have h := hall 4 [.data 71 [69, 84, 32] (some 0)] .again ⟨-1, false, true, false, false⟩
  have hstored := h.again (by decide) ⟨4, false⟩ (by decide)
  cases hstored

end Night.Recv
