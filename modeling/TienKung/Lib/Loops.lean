import Mathlib.Data.Option.Basic

/-!
# Loops

A loop is a partial step: there is none where its condition fails. `run` takes
an exact number of iterations, and a loop ends where it takes these and no
more. An invariant that counts the iterations shows that a loop ends, one that
always has a next iteration that it does not.
-/

namespace Loops

variable {σ : Type*}

def run (step : σ → Option σ) : Nat → σ → Option σ
  | 0, s => some s
  | n + 1, s => (step s).bind (run step n)

/-- The loop is over after exactly `n` iterations. -/
structure Ends (step : σ → Option σ) (n : Nat) (s s' : σ) : Prop where
  run : run step n s = some s'
  ended : step s' = none

section
variable {step : σ → Option σ} {s s' : σ}

theorem run_succ : run step (n + 1) s = (step s).bind (run step n) := rfl

/-- An invariant that counts the iterations. -/
theorem run_invariant {P : Nat → σ → Prop} (hs : P 0 s)
    (hstep : ∀ i < n, ∀ s, P i s → ∃ s', step s = some s' ∧ P (i + 1) s') :
    ∃ s', run step n s = some s' ∧ P n s' := by
  induction n generalizing s P with
  | zero => exact ⟨s, rfl, hs⟩
  | succ n ih =>
    obtain ⟨next, hnext, hP⟩ := hstep 0 (Nat.succ_pos n) s hs
    obtain ⟨last, hrun, hlast⟩ := ih (P := fun i => P (i + 1)) hP fun i hi s hP =>
      hstep (i + 1) (Nat.succ_lt_succ hi) s hP
    exact ⟨last, by rw [run_succ, hnext, Option.bind_some, hrun], hlast⟩

/-- A loop that can always go on does not end. -/
theorem not_ends {P : σ → Prop} (hs : P s) (hstep : ∀ s, P s → ∃ s', step s = some s' ∧ P s') :
    ¬ Ends step n s s' := by
  rintro ⟨hrun, hended⟩
  obtain ⟨last, hlast, hP⟩ := run_invariant (P := fun _ => P) hs fun _ _ s hP => hstep s hP
  obtain rfl := Option.some.inj (hlast.symm.trans hrun)
  obtain ⟨next, hnext, -⟩ := hstep last hP
  rw [hended] at hnext
  cases hnext

end

end Loops
