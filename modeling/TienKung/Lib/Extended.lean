import Mathlib.Algebra.Order.Group.Defs

/-!
# Numbers with infinities and a NaN

An ordered group with two infinite elements and one that is not a number, as
floating-point formats have them. Comparisons with NaN are false, opposite
infinities have no sum, and clamping by two tests makes every element finite
except NaN.
-/

inductive Extended (α : Type*)
  | nan
  | negInf
  | fin (a : α)
  | posInf
  deriving DecidableEq

namespace Extended

variable {α : Type*}

def Lt [LT α] : Extended α → Extended α → Prop
  | .fin a, .fin b => a < b
  | .negInf, .fin _ | .negInf, .posInf | .fin _, .posInf => True
  | _, _ => False

instance [LT α] [DecidableLT α] : DecidableRel (Lt (α := α)) := fun x y => by
  cases x <;> cases y <;> unfold Lt <;> infer_instance

def add [Add α] : Extended α → Extended α → Extended α
  | .fin a, .fin b => .fin (a + b)
  | .nan, _ | _, .nan | .negInf, .posInf | .posInf, .negInf => .nan
  | .negInf, _ | _, .negInf => .negInf
  | .posInf, _ | _, .posInf => .posInf

/-- Two tests, of which NaN passes both. -/
def clamp [LT α] [DecidableLT α] (x : Extended α) (lo hi : α) : Extended α :=
  if Lt (.fin hi) x then .fin hi else if Lt x (.fin lo) then .fin lo else x

section
variable [LinearOrder α] {lo hi : α}

@[simp] theorem lt_fin {a b : α} : Lt (.fin a) (.fin b) ↔ a < b := Iff.rfl

@[simp] theorem clamp_nan : clamp .nan lo hi = .nan := rfl

theorem clamp_fin (a : α) :
    clamp (.fin a) lo hi = .fin (if hi < a then hi else if a < lo then lo else a) := by
  simp only [clamp, lt_fin]
  split_ifs <;> rfl

/-- What is not NaN is clamped to a number of the range. -/
theorem clamp_mem (h : lo ≤ hi) {x : Extended α} (hx : x ≠ .nan) :
    ∃ a, clamp x lo hi = .fin a ∧ lo ≤ a ∧ a ≤ hi := by
  cases x with
  | nan => exact absurd rfl hx
  | negInf => exact ⟨lo, rfl, le_rfl, h⟩
  | posInf => exact ⟨hi, rfl, h, le_rfl⟩
  | fin a =>
    rw [clamp_fin]
    refine ⟨_, rfl, ?_⟩
    split_ifs with hhigh hlow
    · exact ⟨h, le_rfl⟩
    · exact ⟨le_rfl, h⟩
    · exact ⟨not_lt.mp hlow, not_lt.mp hhigh⟩

end

end Extended
