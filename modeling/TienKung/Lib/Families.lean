import TienKung.Lib.Mealy
import Mathlib.Logic.Function.Basic

/-!
# Machines side by side

A family of machines takes inputs addressed to one of them at a time. What a
member goes through is a run of its own on the inputs addressed to it, whatever
the others do in between.
-/

namespace Mealy

variable {κ σ ι ω : Type*} [DecidableEq κ]

/-- The state of each member, and inputs and outputs with the member they are of. -/
def family (step : Step σ ι ω) : Step (κ → σ) (κ × ι) (κ × ω) := fun s i =>
  (Function.update s i.1 (step (s i.1) i.2).1, (step (s i.1) i.2).2.map (i.1, ·))

def ownOf {α : Type*} (k : κ) (xs : List (κ × α)) : List α :=
  xs.filterMap fun x => if x.1 = k then some x.2 else none

section
variable {α : Type*} {k : κ} {xs ys : List (κ × α)}

@[simp] theorem ownOf_nil : ownOf k ([] : List (κ × α)) = [] := rfl

@[simp] theorem ownOf_append : ownOf k (xs ++ ys) = ownOf k xs ++ ownOf k ys :=
  List.filterMap_append

theorem ownOf_cons_self (a : α) : ownOf k ((k, a) :: xs) = a :: ownOf k xs := by
  simp [ownOf]

theorem ownOf_cons_ne {j : κ} (h : j ≠ k) (a : α) : ownOf k ((j, a) :: xs) = ownOf k xs := by
  simp [ownOf, h]

theorem ownOf_map_self (as : List α) : ownOf k (as.map (k, ·)) = as := by
  simp [ownOf, List.filterMap_map]

theorem ownOf_map_ne {j : κ} (h : j ≠ k) (as : List α) : ownOf k (as.map (j, ·)) = [] := by
  simp [ownOf, h]

/-- Of a list that is made from another one, member by member. -/
theorem ownOf_map {β : Type*} (key : β → κ) (f : β → α) (bs : List β) :
    ownOf k (bs.map fun b => (key b, f b)) = (bs.filter (key · = k)).map f := by
  induction bs with
  | nil => rfl
  | cons b bs ih =>
    by_cases h : key b = k
    · rw [List.map_cons, h, ownOf_cons_self, ih, List.filter_cons_of_pos (by simpa using h),
        List.map_cons]
    · rw [List.map_cons, ownOf_cons_ne h, ih, List.filter_cons_of_neg (by simpa using h)]

theorem ownOf_flatMap {β : Type*} (f : β → List (κ × α)) (bs : List β) :
    ownOf k (bs.flatMap f) = bs.flatMap fun b => ownOf k (f b) := by
  induction bs with
  | nil => rfl
  | cons b bs ih => rw [List.flatMap_cons, ownOf_append, ih, List.flatMap_cons]

end

section
variable {step : Step σ ι ω} {s : κ → σ} {is : List (κ × ι)}

theorem family_step_self (k : κ) (i : ι) :
    (family step s (k, i)).1 k = (step (s k) i).1 ∧
      ownOf k (family step s (k, i)).2 = (step (s k) i).2 :=
  ⟨Function.update_self .., ownOf_map_self _⟩

theorem family_step_ne {j k : κ} (h : j ≠ k) (i : ι) :
    (family step s (j, i)).1 k = s k ∧ ownOf k (family step s (j, i)).2 = [] :=
  ⟨Function.update_of_ne (Ne.symm h) .., ownOf_map_ne h _⟩

theorem family_final (k : κ) : final (family step) s is k = final step (s k) (ownOf k is) := by
  induction is generalizing s with
  | nil => rfl
  | cons i is ih =>
    obtain ⟨j, i⟩ := i
    rw [final_cons, ih]
    by_cases h : j = k
    · subst h
      rw [ownOf_cons_self, final_cons, (family_step_self j i).1]
    · rw [ownOf_cons_ne h, (family_step_ne h i).1]

theorem family_emitted (k : κ) :
    ownOf k (emitted (family step) s is) = emitted step (s k) (ownOf k is) := by
  induction is generalizing s with
  | nil => rfl
  | cons i is ih =>
    obtain ⟨j, i⟩ := i
    rw [emitted_cons, ownOf_append, ih]
    by_cases h : j = k
    · subst h
      rw [ownOf_cons_self, emitted_cons, (family_step_self j i).1, (family_step_self j i).2]
    · rw [ownOf_cons_ne h, (family_step_ne h i).1, (family_step_ne h i).2, List.nil_append]

end

end Mealy
