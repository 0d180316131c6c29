import TienKung.Canopen.Driver
import TienKung.Devices.MotorCommands
import Mathlib.Algebra.Order.Field.Rat
import Mathlib.Algebra.Order.Group.Unbundled.Int
import Mathlib.Tactic.NormNum
import Mathlib.Tactic.Positivity

/-!
# The position loops of the two CANopen drivers

What the `Mode::POS` loops of `ZeroErrMotorDevice` and `EyouMotorDevice` have in
common: the target in pulses of the encoder, the pulses that the maximal speed
allows in one round, and a step that is cut off at a limit. Arithmetic is exact
up to the conversions of the source, and no `int` overflows.
-/

namespace TienKung

/-- The `double` 0.002, the time of a round. -/
def twoMs : ℚ := 1152921504606847 / 576460752303423488

def Driver.pulses (drv : Driver) (x : ℚ) : ℚ := x / pi * 180 / drv.trans2Deg

/-- `int data = targetPos / M_PI * 180 / Trans2Deg` -/
def Driver.data (drv : Driver) (targetPos : ℚ) : ℤ := truncate (drv.pulses targetPos)

/-- The pulses that `maxSpeed` allows in a round. -/
def Driver.allowed (drv : Driver) (maxSpeed : ℚ) : ℚ := drv.pulses maxSpeed * twoMs

/-- `dis / abs(dis)` -/
def direction (dis : ℤ) : ℤ := dis.tdiv |dis|

/-- `dis = (adis < limit ? adis : limit)` -/
def reach (adis : ℤ) (limit : ℚ) : ℤ := if adis < limit then adis else truncate limit

section
variable {adis : ℤ} {limit maxSpeed : ℚ}

theorem direction_eq_sign (dis : ℤ) : direction dis = dis.sign := by
  rw [direction, Int.abs_eq_natAbs, ← Int.sign_eq_tdiv_abs]

theorem reach_eq_min (h : 0 ≤ limit) : reach adis limit = min adis ⌊limit⌋ := by
  unfold reach
  split_ifs with hlt
  · exact (min_eq_left (Int.le_floor.mpr hlt.le)).symm
  · have hfloor : ⌊limit⌋ ≤ adis := by exact_mod_cast (Int.floor_le limit).trans (not_lt.mp hlt)
    rw [truncate_of_nonneg h, min_eq_right hfloor]

theorem reach_nonneg (h0 : 0 ≤ adis) (h : 0 ≤ limit) : 0 ≤ reach adis limit := by
  rw [reach_eq_min h]
  exact le_min h0 (Int.floor_nonneg.mpr h)

theorem reach_le (h : 0 ≤ limit) : reach adis limit ≤ adis := by
  rw [reach_eq_min h]
  exact min_le_left _ _

theorem reach_le_limit (h : 0 ≤ limit) : reach adis limit ≤ limit := by
  rw [reach_eq_min h]
  exact (Int.cast_le.mpr (min_le_right _ _)).trans (Int.floor_le limit)

theorem Driver.trans2Deg_pos (drv : Driver) : 0 < drv.trans2Deg := by
  cases drv <;> norm_num [Driver.trans2Deg]

theorem pi_pos : 0 < pi := by norm_num [pi]

theorem twoMs_pos : 0 < twoMs := by norm_num [twoMs]

theorem Driver.allowed_nonneg (drv : Driver) (h : 0 ≤ maxSpeed) : 0 ≤ drv.allowed maxSpeed := by
  have := drv.trans2Deg_pos
  have := pi_pos
  have := twoMs_pos
  unfold Driver.allowed Driver.pulses
  positivity

end

end TienKung
