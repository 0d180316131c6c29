import Mathlib.Data.List.Basic

/-!
# Machines that emit

A machine takes one input at a time, moves to a next state and emits a list
of outputs. `final` and `emitted` are the state and the outputs of a whole
run. The rules below are what a proof about runs uses: a run splits where
its inputs split, an invariant of every step is an invariant of every run,
and a machine that another one simulates emits what the other emits.
-/

namespace Mealy

variable {σ τ ι κ ω : Type*}

abbrev Step (σ ι ω : Type*) := σ → ι → σ × List ω

def final (step : Step σ ι ω) (s : σ) : List ι → σ
  | [] => s
  | i :: rest => final step (step s i).1 rest

def emitted (step : Step σ ι ω) (s : σ) : List ι → List ω
  | [] => []
  | i :: rest => (step s i).2 ++ emitted step (step s i).1 rest

section
variable {step : Step σ ι ω}

@[simp] theorem final_nil : final step s [] = s := rfl
@[simp] theorem final_cons : final step s (i :: rest) = final step (step s i).1 rest := rfl
@[simp] theorem emitted_nil : emitted step s [] = [] := rfl
@[simp] theorem emitted_cons :
    emitted step s (i :: rest) = (step s i).2 ++ emitted step (step s i).1 rest := rfl

theorem final_append : final step s (is ++ js) = final step (final step s is) js := by
  induction is generalizing s with
  | nil => rfl
  | cons i is ih => exact ih

theorem emitted_append :
    emitted step s (is ++ js) = emitted step s is ++ emitted step (final step s is) js := by
  induction is generalizing s with
  | nil => rfl
  | cons i is ih => simp only [List.cons_append, emitted_cons, final_cons, ih, List.append_assoc]

theorem exists_first (h : emitted step s is ≠ []) :
    ∃ before i after, is = before ++ i :: after ∧ emitted step s before = [] ∧
      (step (final step s before) i).2 ≠ [] := by
  induction is generalizing s with
  | nil => exact absurd rfl h
  | cons i is ih =>
    by_cases hi : (step s i).2 = []
    · rw [emitted_cons, hi, List.nil_append] at h
      obtain ⟨before, j, after, rfl, hq, hj⟩ := ih h
      exact ⟨i :: before, j, after, rfl, by rw [emitted_cons, hi, hq]; rfl, hj⟩
    · exact ⟨[], i, is, rfl, rfl, hi⟩

/-- An output is emitted for one of the inputs, in the state that takes it. -/
theorem mem_emitted : o ∈ emitted step s is ↔
    ∃ before i after, is = before ++ i :: after ∧ o ∈ (step (final step s before) i).2 := by
  constructor
  · intro h
    induction is generalizing s with
    | nil => cases h
    | cons i is ih =>
      rcases List.mem_append.mp h with h | h
      · exact ⟨[], i, is, rfl, h⟩
      · obtain ⟨before, j, after, rfl, ho⟩ := ih h
        exact ⟨i :: before, j, after, rfl, ho⟩
  · rintro ⟨before, i, after, rfl, ho⟩
    rw [emitted_append, emitted_cons]
    exact List.mem_append_right _ (List.mem_append_left _ ho)

/-- A machine that shows each state it comes to shows its last one last. -/
theorem getLast?_emitted {f : σ → ω} (hstep : ∀ s i, (step s i).2 = [f (step s i).1])
    (hne : is ≠ []) : (emitted step s is).getLast? = some (f (final step s is)) := by
  rcases List.eq_nil_or_concat is with rfl | ⟨before, i, rfl⟩
  · exact absurd rfl hne
  · rw [List.concat_eq_append, emitted_append, final_append, emitted_cons, emitted_nil,
      List.append_nil, hstep, List.getLast?_concat]
    rfl

/-- Every input meets `good` in the state that takes it. -/
def Along (step : Step σ ι ω) (good : σ → ι → Prop) (s : σ) : List ι → Prop
  | [] => True
  | i :: rest => good s i ∧ Along step good (step s i).1 rest

@[simp] theorem along_nil : Along step good s [] := trivial

@[simp] theorem along_cons :
    Along step good s (i :: rest) ↔ good s i ∧ Along step good (step s i).1 rest := Iff.rfl

instance Along.decidable {good : σ → ι → Prop} [∀ s i, Decidable (good s i)] :
    (s : σ) → (is : List ι) → Decidable (Along step good s is)
  | _, [] => isTrue trivial
  | s, i :: rest =>
    let _ : Decidable (Along step good (step s i).1 rest) := Along.decidable (step s i).1 rest
    inferInstanceAs (Decidable (good s i ∧ Along step good (step s i).1 rest))

theorem along_of_forall (h : ∀ i ∈ is, ∀ s, good s i) : Along step good s is := by
  induction is generalizing s with
  | nil => trivial
  | cons i is ih => exact ⟨h i (by simp) s, ih fun j hj => h j (List.mem_cons_of_mem _ hj)⟩

theorem along_append : Along step good s (is ++ js) ↔
    Along step good s is ∧ Along step good (final step s is) js := by
  induction is generalizing s with
  | nil => simp
  | cons i is ih => simp only [List.cons_append, along_cons, ih, final_cons, and_assoc]

theorem Along.of_prefix (ha : Along step good s is) (hp : before <+: is) :
    Along step good s before := by
  obtain ⟨after, rfl⟩ := hp
  exact (along_append.mp ha).1

/-- Every input is good if it is after good ones. -/
theorem along_of_prefix (h : ∀ before i, before ++ [i] <+: is → Along step good s before →
    good (final step s before) i) : Along step good s is := by
  induction is generalizing s with
  | nil => trivial
  | cons i is ih =>
    have hfirst : good s i := h [] i ⟨is, rfl⟩ trivial
    refine ⟨hfirst, ih fun before j hp hbefore => ?_⟩
    exact h (i :: before) j (List.cons_prefix_cons.mpr ⟨rfl, hp⟩) ⟨hfirst, hbefore⟩

/-- What every good step preserves holds at the end of every good run. -/
theorem Along.final {P : σ → Prop} (ha : Along step good s is) (hs : P s)
    (hstep : ∀ s i, P s → good s i → P (step s i).1) : P (Mealy.final step s is) := by
  induction is generalizing s with
  | nil => exact hs
  | cons i is ih => exact ih ha.2 (hstep s i hs ha.1)

theorem Along.emitted {P : σ → Prop} {Q : ω → Prop} (ha : Along step good s is) (hs : P s)
    (hstep : ∀ s i, P s → good s i → P (step s i).1)
    (hout : ∀ s i, P s → good s i → ∀ o ∈ (step s i).2, Q o) :
    ∀ o ∈ Mealy.emitted step s is, Q o := by
  induction is generalizing s with
  | nil => intro o ho; cases ho
  | cons i is ih =>
    intro o ho
    rcases List.mem_append.mp ho with ho | ho
    · exact hout s i hs ha.1 o ho
    · exact ih ha.2 (hstep s i hs ha.1) o ho

/-- A measure that no step raises and some inputs lower is used up by enough of these. -/
theorem Along.countdown {P : σ → Prop} {f : σ → ℕ} {counts : ι → Bool}
    (ha : Along step good s is) (hs : P s)
    (hstep : ∀ s i, P s → good s i →
      P (step s i).1 ∧ f (step s i).1 ≤ f s - if counts i then 1 else 0) :
    P (Mealy.final step s is) ∧ f (Mealy.final step s is) ≤ f s - is.countP counts := by
  induction is generalizing s with
  | nil => exact ⟨hs, Nat.le_refl _⟩
  | cons i is ih =>
    obtain ⟨hnext, hf⟩ := hstep s i hs ha.1
    obtain ⟨hfinal, hrest⟩ := ih ha.2 hnext
    rw [List.countP_cons, Nat.add_comm, ← Nat.sub_sub]
    exact ⟨hfinal, Nat.le_trans hrest (Nat.sub_le_sub_right hf _)⟩

/-- Under an invariant, what makes one step good makes every step of a run good. -/
theorem Along.imp {P : σ → Prop} (ha : Along step good s is) (hs : P s)
    (hstep : ∀ s i, P s → good s i → P (step s i).1 ∧ good' s i) : Along step good' s is := by
  induction is generalizing s with
  | nil => trivial
  | cons i is ih =>
    obtain ⟨hnext, hgood⟩ := hstep s i hs ha.1
    exact ⟨hgood, ih ha.2 hnext⟩

theorem final_invariant {P : σ → Prop} (hs : P s) (hstep : ∀ s i, P s → P (step s i).1) :
    P (final step s is) := by
  have ha : Along step (fun _ _ => True) s is := along_of_forall fun _ _ _ => trivial
  exact ha.final hs fun s i h _ => hstep s i h

/-- A part of the state that each input overwrites or leaves alone is what the last input
that overwrites it made of it. -/
theorem final_last {P : σ → Prop} {f : σ → κ} {read : ι → Option κ} (hs : P s)
    (hstep : ∀ s i, P s → P (step s i).1 ∧ f (step s i).1 = (read i).getD (f s)) :
    f (final step s is) = ((is.filterMap read).getLast?).getD (f s) := by
  induction is generalizing s with
  | nil => rfl
  | cons i is ih =>
    obtain ⟨hnext, hf⟩ := hstep s i hs
    rw [final_cons, ih hnext, hf]
    cases hi : read i with
    | none => rw [List.filterMap_cons_none hi, Option.getD_none]
    | some a => rw [List.filterMap_cons_some hi, List.getLast?_cons, Option.getD_some, Option.getD_some]

theorem emitted_invariant {P : σ → Prop} {Q : ω → Prop} (hs : P s)
    (hstep : ∀ s i, P s → P (step s i).1 ∧ ∀ o ∈ (step s i).2, Q o) :
    ∀ o ∈ emitted step s is, Q o := by
  have ha : Along step (fun _ _ => True) s is := along_of_forall fun _ _ _ => trivial
  exact ha.emitted hs (fun s i h _ => (hstep s i h).1) fun s i h _ => (hstep s i h).2

end

-- ---------------------------------------------------------------------------
-- Simulation
-- ---------------------------------------------------------------------------

/-- The inputs a simulating machine takes: each concrete input is read in
the concrete state that takes it. -/
def translated (step : Step σ ι ω) (read : σ → ι → List κ) (s : σ) : List ι → List κ
  | [] => []
  | i :: rest => read s i ++ translated step read (step s i).1 rest

/-- The abstract machine follows every concrete step that keeps `P`, taking
the inputs `read` gives it and emitting the same. -/
structure Simulates (concrete : Step σ ι ω) (abstract : Step τ κ ω) (P : σ → Prop)
    (abs : σ → τ) (read : σ → ι → List κ) : Prop where
  keep : ∀ s i, P s → P (concrete s i).1
  state : ∀ s i, P s → final abstract (abs s) (read s i) = abs (concrete s i).1
  output : ∀ s i, P s → emitted abstract (abs s) (read s i) = (concrete s i).2

section
variable {concrete : Step σ ι ω} {abstract : Step τ κ ω} {P : σ → Prop} {abs : σ → τ}
  {read : σ → ι → List κ}

theorem translated_append : translated concrete read s (is ++ js) =
    translated concrete read s is ++ translated concrete read (final concrete s is) js := by
  induction is generalizing s with
  | nil => rfl
  | cons i is ih => simp only [List.cons_append, translated, ih, final_cons, List.append_assoc]

theorem translated_const {read : ι → List κ} :
    translated concrete (fun _ => read) s is = is.flatMap read := by
  induction is generalizing s with
  | nil => rfl
  | cons i is ih => rw [translated, ih, List.flatMap_cons]

theorem Simulates.final (h : Simulates concrete abstract P abs read) (hs : P s) :
    Mealy.final abstract (abs s) (translated concrete read s is) =
      abs (Mealy.final concrete s is) := by
  induction is generalizing s with
  | nil => rfl
  | cons i is ih => rw [translated, final_append, h.state s i hs, ih (h.keep s i hs), final_cons]

theorem Simulates.emitted (h : Simulates concrete abstract P abs read) (hs : P s) :
    Mealy.emitted abstract (abs s) (translated concrete read s is) =
      Mealy.emitted concrete s is := by
  induction is generalizing s with
  | nil => rfl
  | cons i is ih =>
    rw [translated, emitted_append, h.output s i hs, h.state s i hs, ih (h.keep s i hs), emitted_cons]

theorem Simulates.along (h : Simulates concrete abstract P abs read) (hs : P s)
    (ha : Along concrete good s is)
    (hgood : ∀ s i, P s → good s i → Along abstract good' (abs s) (read s i)) :
    Along abstract good' (abs s) (translated concrete read s is) := by
  induction is generalizing s with
  | nil => trivial
  | cons i is ih =>
    rw [translated, along_append, h.state s i hs]
    exact ⟨hgood s i hs ha.1, ih (h.keep s i hs) ha.2⟩

end

end Mealy
