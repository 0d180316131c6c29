import TienKung.Lib.Mealy
import Mathlib.Algebra.Order.Group.Pointwise.Interval
import Mathlib.Algebra.Order.Group.Unbundled.Int
import Mathlib.Logic.Function.Iterate

/-!
# Pursuit of a target

A body reports where it is and is told where to go next. How it moves in between
is not known: it may stop anywhere on its way. While each setpoint lies between
the body and a target, the body stays on its side of the target and gets no
farther away from it. A body that arrives at each setpoint gets there if every
round takes some of the distance.
-/

namespace Pursuit

structure Body (α : Type*) where
  position : α
  setpoint : α
  deriving DecidableEq

def Body.rest (position : α) : Body α := ⟨position, position⟩

/-- The body reports where it has moved to, and is told where to go or nothing. -/
def step (control : α → Option α) : Mealy.Step (Body α) α α := fun s moved =>
  (⟨moved, (control moved).getD s.setpoint⟩, (control moved).toList)

-- ---------------------------------------------------------------------------
-- Bodies that stop on their way
-- ---------------------------------------------------------------------------

section
variable [Lattice α] {target moved : α} {s : Body α} {control : α → Option α}

/-- The body stops between the position last reported and the setpoint. -/
def Stops (s : Body α) (moved : α) : Prop := moved ∈ Set.uIcc s.position s.setpoint

/-- A controller that stays between the body and the target. -/
def Aims (control : α → Option α) (target : α) : Prop :=
  ∀ position, ∀ d ∈ control position, d ∈ Set.uIcc position target

/-- The setpoint lies between the body and the target, and the body between where it started and
the target. -/
structure OnWay (start target : α) (s : Body α) : Prop where
  setpoint : s.setpoint ∈ Set.uIcc s.position target
  position : s.position ∈ Set.uIcc start target

theorem OnWay.rest (start target : α) : OnWay start target (.rest start) where
  setpoint := Set.left_mem_uIcc
  position := Set.left_mem_uIcc

end

section
variable [LinearOrder α] {start target moved : α} {s : Body α} {control : α → Option α}

instance : Decidable (Stops s moved) :=
  inferInstanceAs (Decidable (s.position ⊓ s.setpoint ≤ moved ∧ moved ≤ s.position ⊔ s.setpoint))

theorem OnWay.moved_mem (h : OnWay start target s) (hm : Stops s moved) :
    moved ∈ Set.uIcc s.position target :=
  Set.uIcc_subset_uIcc_left h.setpoint hm

/-- What lies ahead of the body before it moves is still ahead of it afterwards. -/
theorem mem_uIcc_of_moved {position setpoint : α} (hs : setpoint ∈ Set.uIcc position target)
    (hm : moved ∈ Set.uIcc position setpoint) : setpoint ∈ Set.uIcc moved target := by
  rw [Set.mem_uIcc] at *
  grind

theorem OnWay.step (h : OnWay start target s) (ha : Aims control target) (hm : Stops s moved) :
    OnWay start target (step control s moved).1 where
  setpoint := by
    show (control moved).getD s.setpoint ∈ Set.uIcc moved target
    cases hc : control moved with
    | none => exact mem_uIcc_of_moved h.setpoint hm
    | some d => exact ha moved d hc
  position := Set.uIcc_subset_uIcc_right h.position (h.moved_mem hm)

end

-- ---------------------------------------------------------------------------
-- Steps along the integers
-- ---------------------------------------------------------------------------

section
variable {position target length : ℤ}

def stride (position target length : ℤ) : ℤ := position + (target - position).sign * length

theorem stride_inj (hne : target ≠ position) {length' : ℤ} :
    stride position target length = stride position target length' ↔ length = length' := by
  have hsign : (target - position).sign ≠ 0 := Int.sign_eq_zero_iff_zero.not.mpr (sub_ne_zero.mpr hne)
  rw [stride, stride, add_right_inj, mul_right_inj' hsign]

theorem stride_mem_iff (hne : target ≠ position) (h0 : 0 ≤ length) :
    stride position target length ∈ Set.uIcc position target ↔ length ≤ |target - position| := by
  rw [stride, Set.mem_uIcc]
  rcases lt_or_gt_of_ne hne with hlt | hgt
  · rw [Int.sign_eq_neg_one_of_neg (by omega), abs_of_neg (by omega)]
    omega
  · rw [Int.sign_eq_one_of_pos (by omega), abs_of_pos (by omega)]
    omega

/-- A step takes its length off the distance, if it is not longer than this. -/
theorem abs_sub_stride (hne : target ≠ position) (h : length ≤ |target - position|) :
    |target - stride position target length| = |target - position| - length := by
  have hrest : target - stride position target length =
      (target - position).sign * (|target - position| - length) := by
    rw [mul_sub, Int.sign_mul_abs, stride, sub_add_eq_sub_sub]
  rw [hrest, abs_mul, Int.abs_sign_of_ne_zero (sub_ne_zero.mpr hne), one_mul,
    abs_of_nonneg (sub_nonneg.mpr h)]

theorem abs_stride_sub (hne : target ≠ position) (h0 : 0 ≤ length) :
    |stride position target length - position| = length := by
  rw [stride, add_sub_cancel_left, abs_mul, Int.abs_sign_of_ne_zero (sub_ne_zero.mpr hne), one_mul,
    abs_of_nonneg h0]

end

-- ---------------------------------------------------------------------------
-- Bodies that arrive
-- ---------------------------------------------------------------------------

/-- A body that is at its setpoint in the next round. -/
def arrive (control : α → Option α) (position : α) : α := (control position).getD position

/-- What gets smaller as long as it is too large is small enough at some time. -/
theorem exists_iterate_le {next : α → α} {distance : α → ℤ} {tolerance : ℤ}
    (h : ∀ a, tolerance < distance a → distance (next a) < distance a) (a : α) :
    ∃ n, distance (next^[n] a) ≤ tolerance := by
  induction hd : (distance a - tolerance).toNat using Nat.strong_induction_on generalizing a with
  | h d ih =>
    by_cases hfar : tolerance < distance a
    · have hless : (distance (next a) - tolerance).toNat < d := by
        have := h a hfar
        omega
      obtain ⟨n, hn⟩ := ih _ hless (next a) rfl
      exact ⟨n + 1, hn⟩
    · exact ⟨0, not_lt.mp hfar⟩

end Pursuit
