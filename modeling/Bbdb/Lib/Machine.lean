import Mathlib.Tactic.SplitIfs

/-!
# Machines

A machine is a partial transition function: in state `s` the action `a` leads
to `step s a`, or is not enabled. Several threads are one machine whose
actions name the thread that moves, so its runs are their interleavings.

`Reachable` gathers the states of the runs whose every action meets a condition in
the state where it is taken. `Reachable.invariant` is the rule for safety: what
holds at the start and is kept by every allowed action holds throughout.
-/

namespace Bbdb.Machine

variable {σ α : Type}

/-- The states of the runs from `s₀` whose actions all meet `cond`. -/
inductive Reachable (step : σ → α → Option σ) (cond : σ → α → Prop) (s₀ : σ) : σ → Prop
  | start : Reachable step cond s₀ s₀
  | step {s s' : σ} {a : α} : Reachable step cond s₀ s → cond s a → step s a = some s' →
      Reachable step cond s₀ s'

/-- No condition on the run. -/
def always (_ : σ) (_ : α) : Prop := True

instance (s : σ) (a : α) : Decidable (always s a) := isTrue trivial

/-- Take the actions in order, as long as they meet the condition. -/
def run (step : σ → α → Option σ) (cond : σ → α → Prop) [∀ s a, Decidable (cond s a)] :
    σ → List α → Option σ
  | s, [] => some s
  | s, a :: as => if cond s a then (step s a).bind (run step cond · as) else none

variable {step : σ → α → Option σ} {cond : σ → α → Prop} {s₀ s s' : σ}

/-- **The invariant rule.** -/
theorem Reachable.invariant {inv : σ → Prop} (h : Reachable step cond s₀ s) (hinit : inv s₀)
    (hstep : ∀ s a s', inv s → cond s a → step s a = some s' → inv s') : inv s := by
  induction h with
  | start => exact hinit
  | step _ hc hs ih => exact hstep _ _ _ ih hc hs

theorem Reachable.trans (h : Reachable step cond s₀ s) (h' : Reachable step cond s s') :
    Reachable step cond s₀ s' := by
  induction h' with
  | start => exact h
  | step _ hc hs ih => exact ih.step hc hs

variable [∀ s a, Decidable (cond s a)]

/-- A run that can be evaluated is a run. -/
theorem reach_of_run {as : List α} (h : run step cond s as = some s') :
    Reachable step cond s s' := by
  induction as generalizing s with
  | nil =>
      cases h
      exact .start
  | cons a as ih =>
      rw [run] at h
      split_ifs at h with hc
      obtain ⟨t, ht, h⟩ := Option.bind_eq_some_iff.mp h
      exact (Reachable.start.step hc ht).trans (ih h)

/-- A run that ends in a state where `p` holds. -/
theorem exists_reach_of_run (step : σ → α → Option σ) (cond : σ → α → Prop)
    [∀ s a, Decidable (cond s a)] (s₀ : σ) (as : List α) (p : σ → Bool)
    (h : (run step cond s₀ as).map p = some true) : ∃ s, Reachable step cond s₀ s ∧ p s = true := by
  obtain ⟨s, hs, hp⟩ := Option.map_eq_some_iff.mp h
  exact ⟨s, reach_of_run hs, hp⟩

end Bbdb.Machine
