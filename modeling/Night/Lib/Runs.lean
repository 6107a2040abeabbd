import Mathlib.Data.List.Basic

/-!
# Runs of a system with allowed steps

A system takes steps under labels, and a step may be impossible.  Reached are the states at
the end of any number of allowed steps; what every allowed step keeps holds there.
-/

namespace Night.Runs

variable {State Label : Type*}

/-- The states that allowed steps lead to. -/
inductive Reached (step : State → Label → Option State) (allowed : State → Label → Prop)
    (start : State) : State → Prop where
  | start : Reached step allowed start start
  | step {s s' : State} {label : Label} (hreached : Reached step allowed start s)
      (hallowed : allowed s label) (hstep : step s label = some s') :
      Reached step allowed start s'

variable {step : State → Label → Option State} {allowed : State → Label → Prop}
  {start s s' : State}

/-- What holds in the beginning and is kept by allowed steps holds in every reached state. -/
theorem Reached.invariant {holds : State → Prop} (hstart : holds start)
    (hkeep : ∀ s label s', holds s → allowed s label → step s label = some s' → holds s')
    (hreached : Reached step allowed start s) : holds s := by
  induction hreached with
  | start => exact hstart
  | step _ hallowed hstep ih => exact hkeep _ _ _ ih hallowed hstep

theorem Reached.weaken {allowed' : State → Label → Prop} (hreached : Reached step allowed s s')
    (hallowed : ∀ s label, allowed s label → allowed' s label) :
    Reached step allowed' s s' := by
  induction hreached with
  | start => exact .start
  | step _ hlabel hstep ih => exact .step ih (hallowed _ _ hlabel) hstep

theorem Reached.trans {s'' : State} (hreached : Reached step allowed s s')
    (hmore : Reached step allowed s' s'') : Reached step allowed s s'' := by
  induction hmore with
  | start => exact hreached
  | step _ hallowed hstep ih => exact .step ih hallowed hstep

/-- Some steps one after the other. -/
def run (step : State → Label → Option State) : List Label → State → Option State
  | [], s => some s
  | label :: labels, s => (step s label).bind (run step labels)

/-- Steps that are allowed in every state lead from a reached state to a reached state. -/
theorem Reached.run {labels : List Label} (hfree : ∀ label ∈ labels, ∀ s, allowed s label)
    (hreached : Reached step allowed start s) (hrun : Runs.run step labels s = some s') :
    Reached step allowed start s' := by
  induction labels generalizing s with
  | nil =>
      cases hrun
      exact hreached
  | cons label labels ih =>
      obtain ⟨hlabel, hlabels⟩ := List.forall_mem_cons.mp hfree
      obtain ⟨middle, hstep, hrest⟩ := Option.bind_eq_some_iff.mp hrun
      exact ih hlabels (Reached.step hreached (hlabel s) hstep) hrest

end Night.Runs
