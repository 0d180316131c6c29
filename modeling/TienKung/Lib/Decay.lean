import TienKung.Lib.Mealy
import Mathlib.Algebra.Order.Archimedean.Basic

/-!
# Runs that decay

Where each step of a machine leaves at most the part `ρ` of a quantity, a run leaves at most the
power of `ρ` that its length says, and what is left becomes as small as is asked for.
-/

namespace Mealy

variable {σ ι ω K : Type*} {step : Step σ ι ω} {good : σ → ι → Prop} {P : σ → Prop}

/-- Where some steps leave exactly the part `ρ`, and the others everything. -/
theorem Along.scaled [Monoid K] {f : σ → K} {ρ : K} (p : ι → Prop) [DecidablePred p]
    (ha : Along step good s is) (hs : P s)
    (hstep : ∀ s i, P s → good s i →
      P (step s i).1 ∧ f (step s i).1 = if p i then ρ * f s else f s) :
    f (Mealy.final step s is) = ρ ^ is.countP p * f s := by
  induction is generalizing s with
  | nil => rw [final_nil, List.countP_nil, pow_zero, one_mul]
  | cons i is ih =>
    obtain ⟨hnext, hf⟩ := hstep s i hs ha.1
    rw [final_cons, ih ha.2 hnext, hf]
    by_cases hi : p i
    · rw [if_pos hi, List.countP_cons_of_pos (by simpa using hi), pow_succ, mul_assoc]
    · rw [if_neg hi, List.countP_cons_of_neg (by simpa using hi)]

section
variable [CommSemiring K] [LinearOrder K] [IsStrictOrderedRing K]

theorem Along.decay {f : σ → K} {ρ : K} (hρ : 0 ≤ ρ) (ha : Along step good s is) (hs : P s)
    (hstep : ∀ s i, P s → good s i → P (step s i).1 ∧ f (step s i).1 ≤ ρ * f s) :
    f (Mealy.final step s is) ≤ ρ ^ is.length * f s := by
  induction is generalizing s with
  | nil => rw [final_nil, List.length_nil, pow_zero, one_mul]
  | cons i is ih =>
    obtain ⟨hnext, hf⟩ := hstep s i hs ha.1
    calc f (Mealy.final step (step s i).1 is)
        ≤ ρ ^ is.length * f (step s i).1 := ih ha.2 hnext
      _ ≤ ρ ^ is.length * (ρ * f s) := mul_le_mul_of_nonneg_left hf (pow_nonneg hρ _)
      _ = ρ ^ (i :: is).length * f s := by rw [List.length_cons, pow_succ, mul_assoc]

end

section
variable [Field K] [LinearOrder K] [IsStrictOrderedRing K] [Archimedean K]

theorem exists_pow_mul_lt {ρ : K} (hρ : 0 ≤ ρ) (hρ' : ρ < 1) (c : K) {ε : K} (hε : 0 < ε) :
    ∃ n : ℕ, ∀ k ≥ n, ρ ^ k * c < ε := by
  rcases le_or_gt c 0 with hc | hc
  · exact ⟨0, fun k _ => (mul_nonpos_of_nonneg_of_nonpos (pow_nonneg hρ k) hc).trans_lt hε⟩
  · obtain ⟨n, hn⟩ := exists_pow_lt_of_lt_one (div_pos hε hc) hρ'
    refine ⟨n, fun k hk => (lt_div_iff₀ hc).mp ?_⟩
    exact (pow_le_pow_of_le_one hρ hρ'.le hk).trans_lt hn

end

end Mealy
