import TienKung.Devices.MotorCommands
import TienKung.Lib.Quantise

/-!
# `float_to_uint` and `uint_to_float`

The two conversions of `math_ops.cpp` for any range and any number of bits, in
exact arithmetic: `int`s on one side, of which the fields of a frame are the
natural ones. Each undoes the other, one of them up to a step of the range.
-/

namespace TienKung

section
variable {x xMin xMax : ℚ} {bits : Nat}

theorem cast_levels (bits : Nat) : ((2 ^ bits - 1 : Nat) : ℚ) = 2 ^ bits - 1 := by
  rw [Nat.cast_sub (Nat.one_le_two_pow), Nat.cast_pow, Nat.cast_ofNat, Nat.cast_one]

theorem truncate_eq_level (hrange : xMin < xMax) (hx : xMin ≤ x) :
    truncate ((x - xMin) * (2 ^ bits - 1) / (xMax - xMin)) =
      Quantise.level x xMin xMax (2 ^ bits - 1) := by
  have hspan : 0 < xMax - xMin := sub_pos.mpr hrange
  have hoffset : 0 ≤ x - xMin := sub_nonneg.mpr hx
  rw [← cast_levels]
  exact truncate_of_nonneg (div_nonneg (mul_nonneg hoffset (Nat.cast_nonneg _)) hspan.le)

end

namespace MathOps

/-- `(1 << bits) - 1` -/
def levels (bits : Nat) : Int := (1 <<< bits : Nat) - 1

def floatToUint (x xMin xMax : ℚ) (bits : Nat) : Int :=
  let span := xMax - xMin
  let offset := xMin
  truncate ((x - offset) * levels bits / span)

def uintToFloat (xInt : Int) (xMin xMax : ℚ) (bits : Nat) : ℚ :=
  let span := xMax - xMin
  let offset := xMin
  xInt * span / levels bits + offset

theorem levels_eq (bits : Nat) : levels bits = (2 ^ bits - 1 : Nat) := by
  rw [levels, Nat.one_shiftLeft, Nat.cast_sub Nat.one_le_two_pow, Nat.cast_one]

/-- The fields of a frame. -/
theorem toNat_floatToUint (x xMin xMax : ℚ) (bits : Nat) :
    TienKung.floatToUint x xMin xMax bits = (floatToUint x xMin xMax bits).toNat := by
  have hlevels : (levels bits : ℚ) = 2 ^ bits - 1 := by
    rw [levels_eq, Int.cast_natCast, cast_levels]
  rw [floatToUint, hlevels]
  rfl

theorem uintToFloat_natCast (x : Nat) (xMin xMax : ℚ) (bits : Nat) :
    uintToFloat x xMin xMax bits = TienKung.uintToFloat x xMin xMax bits := by
  rw [uintToFloat, levels_eq, Int.cast_natCast, Int.cast_natCast, cast_levels]
  rfl

-- ---------------------------------------------------------------------------
-- Both ways
-- ---------------------------------------------------------------------------

section
variable {x xMin xMax : ℚ} {bits : Nat}

theorem floatToUint_eq_level (hrange : xMin < xMax) (hx : xMin ≤ x) :
    floatToUint x xMin xMax bits = Quantise.level x xMin xMax (2 ^ bits - 1) := by
  rw [floatToUint, levels_eq, Int.cast_natCast, cast_levels]
  exact truncate_eq_level hrange hx

theorem uintToFloat_eq_value (xInt : Int) :
    uintToFloat xInt xMin xMax bits = Quantise.value xInt xMin xMax (2 ^ bits - 1) := by
  rw [uintToFloat, levels_eq, Int.cast_natCast, Quantise.value]

end

/-- What the two conversions are to each other on a range. -/
structure Agree (xMin xMax : ℚ) (bits : Nat) : Prop where
  roundTrip : ∀ k : Int, 0 ≤ k → k ≤ 2 ^ bits - 1 →
    floatToUint (uintToFloat k xMin xMax bits) xMin xMax bits = k
  monotone : ∀ x y, xMin ≤ x → x ≤ y → y ≤ xMax →
    floatToUint x xMin xMax bits ≤ floatToUint y xMin xMax bits
  range : ∀ x, xMin ≤ x → x ≤ xMax →
    0 ≤ floatToUint x xMin xMax bits ∧ floatToUint x xMin xMax bits ≤ 2 ^ bits - 1
  low : floatToUint xMin xMin xMax bits = 0
  high : floatToUint xMax xMin xMax bits = 2 ^ bits - 1
  error : ∀ x, xMin ≤ x → x ≤ xMax →
    0 ≤ x - uintToFloat (floatToUint x xMin xMax bits) xMin xMax bits ∧
      x - uintToFloat (floatToUint x xMin xMax bits) xMin xMax bits < (xMax - xMin) / (2 ^ bits - 1)

theorem conversions_agree (xMin xMax : ℚ) (bits : Nat) (hbits : 1 ≤ bits ∧ bits ≤ 30)
    (hrange : xMin < xMax) : Agree xMin xMax bits := by
  have hlevels : 0 < 2 ^ bits - 1 := by
    have := Nat.one_lt_two_pow (Nat.one_le_iff_ne_zero.mp hbits.1)
    omega
  have hcast : ((2 ^ bits - 1 : Nat) : Int) = 2 ^ bits - 1 := by
    rw [Nat.cast_sub Nat.one_le_two_pow, Nat.cast_pow, Nat.cast_ofNat, Nat.cast_one]
  constructor
  case roundTrip =>
    intro k hk _
    rw [uintToFloat_eq_value, floatToUint_eq_level hrange (Quantise.le_value hrange hk),
      Quantise.level_value hrange hlevels]
  case monotone =>
    intro x y hx hxy _
    rw [floatToUint_eq_level hrange hx, floatToUint_eq_level hrange (hx.trans hxy)]
    exact Quantise.level_mono hrange hxy
  case range =>
    intro x hx hx'
    rw [floatToUint_eq_level hrange hx, ← hcast]
    exact ⟨Quantise.level_nonneg hrange hx, Quantise.level_le hrange hx'⟩
  case low => rw [floatToUint_eq_level hrange le_rfl, Quantise.level_lo]
  case high => rw [floatToUint_eq_level hrange hrange.le, Quantise.level_hi hrange, hcast]
  case error =>
    intro x hx _
    rw [floatToUint_eq_level hrange hx, uintToFloat_eq_value, ← cast_levels, sub_nonneg,
      sub_lt_iff_lt_add']
    exact ⟨Quantise.value_level_le hrange hlevels, Quantise.lt_value_level_add hrange hlevels⟩

theorem conversions_agree_position : Agree posMin posMax 16 :=
  conversions_agree posMin posMax 16 (by decide) pos_range

end MathOps

end TienKung
