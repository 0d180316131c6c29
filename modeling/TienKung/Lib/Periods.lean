import TienKung.Lib.Mealy

/-!
# Periods of a trace

A trace is cut before each marked entry. A period is completed when the next
one starts; the last one of a trace stays open.
-/

namespace Periods

variable {σ ι α : Type*} {marked : α → Bool}

/-- The periods completed in a trace that continues the open period. -/
def completed (marked : α → Bool) (current : List α) : List α → List (List α)
  | [] => []
  | x :: rest =>
    if marked x then current :: completed marked [x] rest
    else completed marked (current ++ [x]) rest

/-- A machine that records one entry a step: what each step keeps of the open
period, and what holds of a period when the next step ends it. -/
theorem completed_of_step {step : Mealy.Step σ ι α} {Open : σ → List α → Prop}
    {Closed : List α → Prop}
    (hkeep : ∀ s i current, Open s current → ∃ x, (step s i).2 = [x] ∧
      (marked x = true → Closed current ∧ Open (step s i).1 [x]) ∧
      (marked x = false → Open (step s i).1 (current ++ [x])))
    (hs : Open s current) :
    ∀ p ∈ completed marked current (Mealy.emitted step s is), Closed p := by
  induction is generalizing s current with
  | nil => intro p hp; cases hp
  | cons i is ih =>
    obtain ⟨x, hx, hend, hgo⟩ := hkeep s i current hs
    rw [Mealy.emitted_cons, hx, List.singleton_append, completed]
    cases hm : marked x with
    | true =>
      rw [if_pos rfl]
      rintro p (_ | ⟨_, hp⟩)
      · exact (hend hm).1
      · exact ih (hend hm).2 p hp
    | false =>
      rw [if_neg Bool.false_ne_true]
      exact ih (hgo hm)

end Periods
