import TienKung.Lib.Mealy

/-!
# Threads over shared memory

A list of threads takes turns on a shared state. What a thread holds is counted
over the list, so that an invariant about "at most one of them" is a sum that
one thread's step changes at one place.
-/

namespace Threads

variable {σ τ : Type*}

/-- The `k`th thread takes a step; a step of no thread changes nothing. -/
def turn (step : σ → τ → σ × τ) (k : ℕ) (s : σ × List τ) : σ × List τ :=
  match s.2[k]? with
  | some t => ((step s.1 t).1, s.2.set k (step s.1 t).2)
  | none => s

section
variable {step : σ → τ → σ × τ} {s : σ} {ts : List τ} {t : τ} {k : ℕ}

theorem turn_some (h : ts[k]? = some t) :
    turn step k (s, ts) = ((step s t).1, ts.set k (step s t).2) := by
  simp only [turn, h]

theorem turn_none (h : ts[k]? = none) : turn step k (s, ts) = (s, ts) := by
  simp only [turn, h]

/-- A turn changes a count by what it changes for its own thread. -/
theorem countP_set (h : ts[k]? = some t) (p : τ → Bool) (t' : τ) :
    (ts.set k t').countP p + (p t).toNat = ts.countP p + (p t').toNat := by
  obtain ⟨hk, rfl⟩ := List.getElem?_eq_some_iff.mp h
  have hone : (p ts[k]).toNat ≤ ts.countP p := by
    cases hp : p ts[k] with
    | true => exact List.countP_pos_iff.mpr ⟨ts[k], List.getElem_mem hk, hp⟩
    | false => exact Nat.zero_le _
  have hite : ∀ b : Bool, (if b then 1 else 0) = b.toNat := by decide
  rw [List.countP_set hk, hite, hite]
  omega

theorem count_pos (h : ts[k]? = some t) {p : τ → Bool} (hp : p t = true) : 0 < ts.countP p :=
  List.countP_pos_iff.mpr ⟨t, List.mem_of_getElem? h, hp⟩

theorem forall_set {P : τ → Prop} (h : ∀ t ∈ ts, P t) (ht : P t') : ∀ t ∈ ts.set k t', P t := by
  intro t hm
  rcases List.mem_or_eq_of_mem_set hm with hm | rfl
  · exact h t hm
  · exact ht

end

end Threads
