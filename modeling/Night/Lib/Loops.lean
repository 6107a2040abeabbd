import Mathlib.Data.List.Basic

/-!
# Loops with a bound on their rounds

A loop runs its body until that has a result, for a number of rounds at most.  More rounds do
not change a result, and a rank that falls in every round bounds the rounds.
-/

namespace Night.Loops

variable {State Result : Type*}

/-- A function that runs a body so often at most. -/
structure Loop (f : ℕ → State → Option Result) (body : State → Result ⊕ State) : Prop where
  zero : ∀ s, f 0 s = none
  succ : ∀ rounds s, f (rounds + 1) s = Sum.elim some (f rounds) (body s)

variable {f : ℕ → State → Option Result} {body : State → Result ⊕ State} {s : State}
  {result : Result} {rounds rounds' : ℕ}

theorem Loop.more (hloop : Loop f body) (hmore : rounds ≤ rounds') (hf : f rounds s = some result) :
    f rounds' s = some result := by
  induction rounds generalizing rounds' s with
  | zero =>
      rw [hloop.zero] at hf
      cases hf
  | succ rounds ih =>
      obtain ⟨rest, rfl⟩ : ∃ rest, rounds' = rest + 1 := ⟨rounds' - 1, by omega⟩
      rw [hloop.succ] at hf ⊢
      cases hbody : body s with
      | inl r =>
          rw [hbody] at hf
          exact hf
      | inr next =>
          rw [hbody] at hf
          exact ih (by omega) hf

/-- States have a rank, and a round leads to one of smaller rank or ends the loop. -/
def Falls (rank : ℕ → State → Prop) (body : State → Result ⊕ State) : Prop :=
  ∀ n s, rank n s → (∃ r, body s = .inl r) ∨ ∃ m next, m < n ∧ body s = .inr next ∧ rank m next

theorem Loop.ends (hloop : Loop f body) {rank : ℕ → State → Prop} (hfalls : Falls rank body)
    {n : ℕ} (hrank : rank n s) (hrounds : n < rounds) : ∃ r, f rounds s = some r := by
  induction rounds generalizing n s with
  | zero => cases hrounds
  | succ rounds ih =>
      rw [hloop.succ]
      obtain ⟨r, hbody⟩ | ⟨m, next, hless, hbody, hnext⟩ := hfalls n s hrank
      · rw [hbody]
        exact ⟨r, rfl⟩
      · rw [hbody]
        exact ih hnext (by omega)

end Night.Loops
