import Mathlib.Tactic
import Mathlib.Logic.Relation
/-!
# Runs of a transition system

A system is its initial states and its steps; a state is reachable when a
run of steps leads to it. `Reachable.invariant` is the rule every safety
result here is an instance of. `restrict` keeps the steps that meet a
condition on the state they are taken in, which is how a property that
holds only of some runs is stated of all their states.
-/

namespace Csos

/-- A transition system on the states `σ`, with labelled steps. -/
structure System (σ ι : Type*) where
  init : σ → Prop
  step : σ → ι → σ → Prop

namespace System

variable {σ ι : Type*} {M : System σ ι} {s s' : σ} {i : ι} {P : σ → Prop}

/-- The states a run leads to. -/
inductive Reachable (M : System σ ι) : σ → Prop
  | init {s : σ} (h : M.init s) : Reachable M s
  | step {s s' : σ} {i : ι} (h : Reachable M s) (hs : M.step s i s') : Reachable M s'

/-- **What holds initially and is kept by every step holds of every
reachable state.** -/
theorem Reachable.invariant (h : M.Reachable s) (hinit : ∀ s, M.init s → P s)
    (hstep : ∀ s i s', M.Reachable s → P s → M.step s i s' → P s') : P s := by
  induction h with
  | init h => exact hinit _ h
  | step hr hs ih => exact hstep _ _ _ hr ih hs

/-- The system with only the steps that meet `C`. -/
def restrict (M : System σ ι) (C : σ → ι → Prop) : System σ ι where
  init := M.init
  step s i s' := C s i ∧ M.step s i s'

/-- A run of the restricted system is a run. -/
theorem Reachable.of_restrict {C : σ → ι → Prop} (h : (M.restrict C).Reachable s) :
    M.Reachable s := by
  induction h with
  | init h => exact .init h
  | step _ hs ih => exact ih.step hs.2

/-- Takes the steps of a list in turn, with the step function `f`. -/
def run (f : σ → ι → Option σ) : σ → List ι → Option σ
  | s, [] => some s
  | s, i :: l => (f s i).bind (run f · l)

/-- What a step function leads to is reachable. -/
theorem Reachable.run {f : σ → ι → Option σ} (hf : ∀ s i s', f s i = some s' → M.step s i s')
    {l : List ι} (h : M.Reachable s) (hr : run f s l = some s') : M.Reachable s' := by
  induction l generalizing s with
  | nil =>
    cases hr
    exact h
  | cons i l ih =>
    obtain ⟨s₁, h1, h2⟩ := Option.bind_eq_some_iff.mp hr
    exact ih (h.step (hf _ _ _ h1)) h2

end System

end Csos
