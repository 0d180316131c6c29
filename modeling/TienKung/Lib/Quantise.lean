import Mathlib.Algebra.Order.Floor.Ring
import Mathlib.Tactic.Linarith

/-!
# Quantisation

A range divided into `n` equal steps: the step at or below a value, and the
value that a step stands for. A value of the range is less than one step above
the value of its step.
-/

namespace Quantise

variable {K : Type*} [Field K] [LinearOrder K] [IsStrictOrderedRing K] [FloorRing K]

def level (x lo hi : K) (n : Nat) : Int := ⌊(x - lo) * n / (hi - lo)⌋

def value (level : Int) (lo hi : K) (n : Nat) : K := level * (hi - lo) / n + lo

section
variable {x lo hi : K} {n : Nat}

theorem level_nonneg (hrange : lo < hi) (hx : lo ≤ x) : 0 ≤ level x lo hi n := by
  have hspan : 0 < hi - lo := sub_pos.mpr hrange
  have hoffset : 0 ≤ x - lo := sub_nonneg.mpr hx
  exact Int.floor_nonneg.mpr (div_nonneg (mul_nonneg hoffset n.cast_nonneg) hspan.le)

theorem level_le (hrange : lo < hi) (hx : x ≤ hi) : level x lo hi n ≤ n := by
  have hspan : 0 < hi - lo := sub_pos.mpr hrange
  have hle : (x - lo) * n / (hi - lo) ≤ n := by
    rw [div_le_iff₀ hspan, mul_comm (n : K)]
    exact mul_le_mul_of_nonneg_right (sub_le_sub_right hx lo) n.cast_nonneg
  exact_mod_cast (Int.floor_le _).trans hle

theorem value_level_le (hrange : lo < hi) (hn : 0 < n) : value (level x lo hi n) lo hi n ≤ x := by
  have hspan : 0 < hi - lo := sub_pos.mpr hrange
  have hn' : (0 : K) < n := Nat.cast_pos.mpr hn
  have hfloor := Int.floor_le ((x - lo) * n / (hi - lo))
  rw [le_div_iff₀ hspan] at hfloor
  have hstep : (level x lo hi n : K) * (hi - lo) / n ≤ x - lo := (div_le_iff₀ hn').mpr hfloor
  rw [value]
  linarith

theorem lt_value_level_add (hrange : lo < hi) (hn : 0 < n) :
    x < value (level x lo hi n) lo hi n + (hi - lo) / n := by
  have hspan : 0 < hi - lo := sub_pos.mpr hrange
  have hn' : (0 : K) < n := Nat.cast_pos.mpr hn
  have hfloor := Int.lt_floor_add_one ((x - lo) * n / (hi - lo))
  rw [div_lt_iff₀ hspan] at hfloor
  have hstep : x - lo < (level x lo hi n + 1 : K) * (hi - lo) / n := (lt_div_iff₀ hn').mpr hfloor
  rw [add_mul, one_mul, add_div] at hstep
  rw [value]
  linarith

theorem level_mono {y : K} (hrange : lo < hi) (h : x ≤ y) : level x lo hi n ≤ level y lo hi n := by
  have hspan : 0 < hi - lo := sub_pos.mpr hrange
  refine Int.floor_mono ((div_le_div_iff_of_pos_right hspan).mpr ?_)
  exact mul_le_mul_of_nonneg_right (sub_le_sub_right h lo) n.cast_nonneg

theorem level_lo (lo hi : K) (n : Nat) : level lo lo hi n = 0 := by
  rw [level, sub_self, zero_mul, zero_div, Int.floor_zero]

theorem level_hi (hrange : lo < hi) (n : Nat) : level hi lo hi n = n := by
  have hspan : hi - lo ≠ 0 := (sub_pos.mpr hrange).ne'
  rw [level, mul_div_cancel_left₀ (n : K) hspan, Int.floor_natCast]

/-- A level is that of its value. -/
theorem level_value (hrange : lo < hi) (hn : 0 < n) (l : Int) :
    level (value l lo hi n) lo hi n = l := by
  have hspan : hi - lo ≠ 0 := (sub_pos.mpr hrange).ne'
  have hn' : (n : K) ≠ 0 := Nat.cast_ne_zero.mpr hn.ne'
  rw [level, value, add_sub_cancel_right, div_mul_cancel₀ _ hn', mul_div_cancel_right₀ _ hspan,
    Int.floor_intCast]

theorem le_value {l : Int} (hrange : lo < hi) (h0 : 0 ≤ l) : lo ≤ value l lo hi n := by
  have hspan : 0 < hi - lo := sub_pos.mpr hrange
  have h0' : (0 : K) ≤ l := by exact_mod_cast h0
  exact le_add_of_nonneg_left (div_nonneg (mul_nonneg h0' hspan.le) n.cast_nonneg)

end

end Quantise
