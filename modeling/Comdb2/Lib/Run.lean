import Mathlib

/-!
# Runs of a step relation

A system is given by its initial states and a step relation.  `Reachable` is
the least set of states that holds the initial ones and is closed under the
step.  An invariant is proved once for the initial states and once for a single
step; `Reachable.invariant` then gives it along every run.  Systems whose step
is a function of an action are covered by `Reachable.of_foldl`: every state a
list of actions leads to is reachable.
-/

namespace Run

variable {σ α : Type*}

/-- The states a step relation reaches from the initial states. -/
inductive Reachable (init : σ → Prop) (step : σ → σ → Prop) : σ → Prop
  | init {s : σ} : init s → Reachable init step s
  | step {s s' : σ} : Reachable init step s → step s s' → Reachable init step s'

variable {init : σ → Prop} {step : σ → σ → Prop}

/-- The induction rule for invariants: true initially and kept by every step. -/
theorem Reachable.invariant {Inv : σ → Prop} (h0 : ∀ s, init s → Inv s)
    (h1 : ∀ s s', Inv s → step s s' → Inv s') {s : σ} (h : Reachable init step s) : Inv s := by
  induction h with
  | init hs => exact h0 _ hs
  | step _ hst ih => exact h1 _ _ ih hst

/-- A step function of an action, read as a step relation. -/
def stepOf (f : σ → α → σ) : σ → σ → Prop := fun s s' => ∃ a, f s a = s'

/-- Every state a list of actions leads to is reachable. -/
theorem Reachable.of_foldl {f : σ → α → σ} {s : σ} (hs : init s) :
    ∀ as : List α, Reachable init (stepOf f) (as.foldl f s) := by
  intro as
  induction as using List.reverseRecOn with
  | nil => exact .init hs
  | append_singleton as a ih =>
      rw [List.foldl_append, List.foldl_cons, List.foldl_nil]
      exact .step ih ⟨a, rfl⟩

end Run
