import Mathlib.Data.List.Induction

/-!
# Loops that can fail

A loop over a list whose body may fail is a `foldlM` in `Except`. An invariant
that knows which elements are done carries over to the whole loop, and the loop
fails when some element makes the body fail.
-/

namespace Checked

variable {α : Type*} {β ε : Type v} {step : β → α → Except ε β}

@[simp] theorem ok_bind {γ : Type v} (a : γ) (f : γ → Except ε β) : (Except.ok a >>= f) = f a := rfl

@[simp] theorem error_bind {γ : Type v} (e : ε) (f : γ → Except ε β) :
    (Except.error e >>= f) = .error e := rfl

@[simp] theorem pure_eq (b : β) : (pure b : Except ε β) = .ok b := rfl

theorem bind_eq_ok {γ : Type v} {r : Except ε γ} {f : γ → Except ε β} {b : β} :
    (r >>= f) = .ok b ↔ ∃ a, r = .ok a ∧ f a = .ok b := by
  cases r with
  | ok a =>
    refine ⟨fun h => ⟨a, rfl, h⟩, ?_⟩
    rintro ⟨_, ⟨⟩, hf⟩
    exact hf
  | error e => exact ⟨nofun, nofun⟩

/-- What the body keeps for the elements done so far, the loop keeps for all. -/
theorem foldlM_ok (step : β → α → Except ε β) (xs : List α) (R : List α → β → Prop) (h0 : R [] b)
    (hstep : ∀ done x b, done ++ [x] <+: xs → R done b →
      ∃ b', step b x = .ok b' ∧ R (done ++ [x]) b') :
    ∃ b', xs.foldlM step b = .ok b' ∧ R xs b' := by
  induction xs using List.reverseRecOn with
  | nil => exact ⟨b, rfl, h0⟩
  | append_singleton xs x ih =>
    obtain ⟨b1, h1, hr1⟩ := ih fun done y b hp => hstep done y b (hp.trans (List.prefix_append _ _))
    obtain ⟨b2, h2, hr2⟩ := hstep xs x b1 (List.prefix_refl _) hr1
    refine ⟨b2, ?_, hr2⟩
    rw [List.foldlM_append, h1]
    exact bind_eq_ok.mpr ⟨b1, rfl, bind_eq_ok.mpr ⟨b2, h2, rfl⟩⟩

/-- The same for a loop that is known to succeed. -/
theorem foldlM_of_ok (step : β → α → Except ε β) (xs : List α) (R : List α → β → Prop) (h0 : R [] b)
    (hstep : ∀ done x b b', done ++ [x] <+: xs → R done b → step b x = .ok b' → R (done ++ [x]) b')
    (h : xs.foldlM step b = .ok b') : R xs b' := by
  induction xs using List.reverseRecOn generalizing b' with
  | nil =>
    cases h
    exact h0
  | append_singleton xs x ih =>
    rw [List.foldlM_append] at h
    obtain ⟨b1, hxs, hx⟩ := bind_eq_ok.mp h
    rw [List.foldlM_cons] at hx
    obtain ⟨b2, hx, hnil⟩ := bind_eq_ok.mp hx
    cases hnil
    refine hstep xs x b1 _ (List.prefix_refl _) (ih (fun done y b b' hp => ?_) hxs) hx
    exact hstep done y b b' (hp.trans (List.prefix_append _ _))

theorem foldlM_error (step : β → α → Except ε β) (xs : List α) (R : List α → β → Prop)
    (good : α → Prop) (h0 : R [] b)
    (hstep : ∀ done x b, done ++ [x] <+: xs → good x → R done b →
      ∃ b', step b x = .ok b' ∧ R (done ++ [x]) b')
    (herr : ∀ done x b, ¬ good x → R done b → ∃ e, step b x = .error e)
    (hbad : ∃ x ∈ xs, ¬ good x) :
    ∃ e, xs.foldlM step b = .error e := by
  induction xs using List.reverseRecOn with
  | nil => simp at hbad
  | append_singleton xs x ih =>
    have hpre : ∀ done y b, done ++ [y] <+: xs → good y → R done b →
        ∃ b', step b y = .ok b' ∧ R (done ++ [y]) b' :=
      fun done y b hp => hstep done y b (hp.trans (List.prefix_append _ _))
    rw [List.foldlM_append]
    by_cases hxs : ∃ y ∈ xs, ¬ good y
    · obtain ⟨e, he⟩ := ih hpre hxs
      exact ⟨e, by rw [he, error_bind]⟩
    · have hall : ∀ y ∈ xs, good y := fun y hy => by_contra fun hg => hxs ⟨y, hy, hg⟩
      have hx : ¬ good x := by
        obtain ⟨y, hy, hg⟩ := hbad
        rcases List.mem_append.mp hy with hy | hy
        · exact absurd (hall y hy) hg
        · rwa [List.mem_singleton.mp hy] at hg
      obtain ⟨b1, h1, hr1⟩ := foldlM_ok step xs R h0 fun done y b hp hr =>
        hpre done y b hp (hall y (hp.subset (by simp))) hr
      obtain ⟨e, he⟩ := herr xs x b1 hx hr1
      exact ⟨e, by rw [h1, ok_bind, List.foldlM_cons, he, error_bind]⟩

end Checked
