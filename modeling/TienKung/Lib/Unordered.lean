import Mathlib.Order.Lattice

/-!
# Orders with an unordered element

A linear order with one more element, `none`, that compares false with every
element: floating-point numbers with their NaN. `maximum` is a running
`std::max` from a start value, which an unordered element never replaces.
-/

namespace Unordered

variable {α : Type*} [LinearOrder α]

def Lt : Option α → Option α → Prop
  | some x, some y => x < y
  | _, _ => False

instance : DecidableRel (Lt (α := α))
  | some x, some y => inferInstanceAs (Decidable (x < y))
  | some _, none => isFalse id
  | none, _ => isFalse id

/-- `std::max`. -/
def max (a b : Option α) : Option α := if Lt a b then b else a

def maximum (start : Option α) (xs : List (Option α)) : Option α := xs.foldl max start

@[simp] theorem maximum_nil (start : Option α) : maximum start [] = start := rfl

@[simp] theorem maximum_cons (start x : Option α) (xs : List (Option α)) :
    maximum start (x :: xs) = maximum (max start x) xs := rfl

theorem maximum_append (start : Option α) (xs ys : List (Option α)) :
    maximum start (xs ++ ys) = maximum (maximum start xs) ys := List.foldl_append

theorem max_some (x : α) (b : Option α) : ∃ y, max (some x) b = some y ∧ x ≤ y ∧
    (¬ Lt (some y) b) ∧ (y = x ∨ some y = b) := by
  by_cases h : Lt (some x) b
  · cases b with
    | none => exact absurd h id
    | some y => exact ⟨y, if_pos h, le_of_lt h, lt_irrefl y, .inr rfl⟩
  · exact ⟨x, if_neg h, le_rfl, h, .inl rfl⟩

/-- A running maximum is the start or an element, and bounds them all. -/
theorem maximum_spec (x : α) (xs : List (Option α)) : ∃ y, maximum (some x) xs = some y ∧ x ≤ y ∧
    (∀ b ∈ xs, ¬ Lt (some y) b) ∧ (y = x ∨ some y ∈ xs) := by
  induction xs generalizing x with
  | nil => exact ⟨x, rfl, le_rfl, by simp, .inl rfl⟩
  | cons b xs ih =>
    obtain ⟨y, hy, hxy, hb, hyb⟩ := max_some x b
    obtain ⟨z, hz, hyz, hall, hmem⟩ := ih y
    refine ⟨z, by rw [maximum_cons, hy, hz], hxy.trans hyz, ?_, ?_⟩
    · rintro c (_ | ⟨_, hc⟩)
      · cases b with
        | none => exact id
        | some w => exact fun h => hb (lt_of_le_of_lt hyz h)
      · exact hall c hc
    · rcases hmem with rfl | hmem
      · exact hyb.imp_right fun h => by simp [h]
      · exact .inr (List.mem_cons_of_mem _ hmem)

/-- Earlier elements make no difference to a running maximum exactly if none
exceeds what it is without them. -/
theorem maximum_maximum_eq_iff (x : α) (xs ys : List (Option α)) :
    maximum (maximum (some x) xs) ys = maximum (some x) ys ↔
      ∀ a ∈ xs, ¬ Lt (maximum (some x) ys) a := by
  obtain ⟨m, hm, hxm, hxs, hmem⟩ := maximum_spec x xs
  obtain ⟨y, hy, hxy, hys, hymem⟩ := maximum_spec x ys
  obtain ⟨z, hz, hmz, hzs, hzmem⟩ := maximum_spec m ys
  rw [hm, hy, hz, Option.some_inj]
  constructor
  · rintro rfl a ha
    cases a with
    | none => exact id
    | some a => exact fun h => hxs _ ha (lt_of_le_of_lt hmz h)
  · intro hall
    have hmy : m ≤ y := by
      rcases hmem with rfl | hmem
      · exact hxy
      · exact not_lt.mp (hall _ hmem)
    apply le_antisymm
    · rcases hzmem with rfl | hzmem
      · exact hmy
      · exact not_lt.mp (hys _ hzmem)
    · rcases hymem with rfl | hymem
      · exact hxm.trans hmz
      · exact not_lt.mp (hzs _ hymem)

end Unordered
