import TienKung.Lib.Pursuit
import TienKung.Devices.PositionLoops
import Mathlib.Tactic.Linarith
import Mathlib.Tactic.Ring

/-!
# The steps of `EyouMotorDevice` in `Mode::POS`

A round steps `k` times the allowed pulses towards a target that is far, and is
to go over to the single step on the way in. The ratio of the distance to the
tolerance is a quotient of two `int`s, so that within the tolerance it is zero
and a step is not amplified; and a far step is cut to the distance before it is
amplified, not afterwards.
-/

namespace TienKung

structure EyouPos where
  targetPos : ℚ
  maxSpeed : ℚ

namespace EyouPos

def baseTolerance : ℤ := 500

def k : ℤ := 36

/-- The `float` 0.2. -/
def mv : ℚ := 13421773 / 67108864

def targetTolerance (maxSpeed : ℚ) : ℤ :=
  truncate ((baseTolerance * k.tdiv 4 : ℤ) * max 1 (maxSpeed / mv))

/-- `baselimit * 0.002` -/
def baseStep (maxSpeed : ℚ) : ℚ := Driver.eyou.allowed maxSpeed

def request (data : ℤ) (maxSpeed : ℚ) (receivePos : ℤ) : Option ℤ :=
  let dis := data - receivePos
  let m := direction dis
  let adis := |dis|
  if adis > baseTolerance then
    if adis < targetTolerance maxSpeed then
      let ratio := adis.tdiv (targetTolerance maxSpeed)
      let limit := baseStep maxSpeed * max 1 ((k : ℚ) * (ratio : ℤ))
      let dis := reach adis limit
      some (receivePos + m * dis)
    else
      let limit := baseStep maxSpeed
      let dis := reach adis limit
      some (receivePos + m * dis * k)
  else none

def runOnce (d : EyouPos) (receivePos : ℤ) : Option ℤ :=
  request (Driver.eyou.data d.targetPos) d.maxSpeed receivePos

-- ---------------------------------------------------------------------------
-- Steps
-- ---------------------------------------------------------------------------

def step (maxSpeed : ℚ) (adis : ℤ) : ℤ :=
  min adis ⌊baseStep maxSpeed⌋ * if adis < targetTolerance maxSpeed then 1 else k

section
variable {data receivePos adis : ℤ} {maxSpeed : ℚ}

theorem baseStep_nonneg (h : 0 ≤ maxSpeed) : 0 ≤ baseStep maxSpeed := Driver.eyou.allowed_nonneg h

theorem request_eq (h : 0 ≤ maxSpeed) : request data maxSpeed receivePos =
    if baseTolerance < |data - receivePos|
    then some (Pursuit.stride receivePos data (step maxSpeed |data - receivePos|))
    else none := by
  have hbase := baseStep_nonneg h
  unfold request
  simp only [direction_eq_sign, gt_iff_lt]
  split_ifs with hfar hnear
  · have hratio : (|data - receivePos|).tdiv (targetTolerance maxSpeed) = 0 :=
      Int.tdiv_eq_zero_of_lt (abs_nonneg _) hnear
    rw [hratio, Int.cast_zero, mul_zero, max_eq_left zero_le_one, mul_one, reach_eq_min hbase,
      step, if_pos hnear, mul_one, Pursuit.stride]
  · rw [reach_eq_min hbase, step, if_neg hnear, Pursuit.stride, mul_assoc]
  · rfl

theorem targetTolerance_eq (maxSpeed : ℚ) :
    targetTolerance maxSpeed = ⌊4500 * max 1 (maxSpeed / mv)⌋ := by
  have hbase : ((baseTolerance * k.tdiv 4 : ℤ) : ℚ) = 4500 := by decide +kernel
  rw [targetTolerance, hbase, truncate_of_nonneg (by positivity)]

theorem le_targetTolerance (maxSpeed : ℚ) : 4500 ≤ targetTolerance maxSpeed := by
  have := le_max_left 1 (maxSpeed / mv)
  rw [targetTolerance_eq, Int.le_floor, Int.cast_ofNat]
  linarith

theorem floor_baseStep_nonneg (h : 0 ≤ maxSpeed) : 0 ≤ ⌊baseStep maxSpeed⌋ :=
  Int.floor_nonneg.mpr (baseStep_nonneg h)

theorem step_nonneg (h : 0 ≤ maxSpeed) (h0 : 0 ≤ adis) : 0 ≤ step maxSpeed adis := by
  have hmin := le_min h0 (floor_baseStep_nonneg h)
  unfold step k
  split_ifs <;> omega

theorem step_le_iff (h : 0 ≤ maxSpeed) (h0 : 0 < adis) : step maxSpeed adis ≤ adis ↔
    adis < targetTolerance maxSpeed ∨ k * ⌊baseStep maxSpeed⌋ ≤ adis := by
  have := floor_baseStep_nonneg h
  unfold step k
  split_ifs with hnear <;> omega

end

-- ---------------------------------------------------------------------------
-- Steps beyond the target
-- ---------------------------------------------------------------------------

def remaining (d : EyouPos) (receivePos : ℤ) : ℤ :=
  |Driver.eyou.data d.targetPos - receivePos|

section
variable {d : EyouPos} {receivePos : ℤ}

theorem runOnce_eq (h : 0 ≤ d.maxSpeed) : d.runOnce receivePos =
    if baseTolerance < d.remaining receivePos
    then some (Pursuit.stride receivePos (Driver.eyou.data d.targetPos)
      (step d.maxSpeed (d.remaining receivePos)))
    else none :=
  request_eq h

/-- A round that sends nothing has the target near. -/
theorem sent_between_iff_step_le (hne : receivePos ≠ Driver.eyou.data d.targetPos)
    (h : 0 ≤ d.maxSpeed) :
    (∀ sent ∈ d.runOnce receivePos, sent ∈ Set.uIcc receivePos (Driver.eyou.data d.targetPos)) ↔
      step d.maxSpeed (d.remaining receivePos) ≤ d.remaining receivePos := by
  have hpos : 0 < d.remaining receivePos := abs_pos.mpr (sub_ne_zero.mpr hne.symm)
  rw [runOnce_eq h]
  by_cases hfar : baseTolerance < d.remaining receivePos
  · simp only [if_pos hfar, Option.mem_some_iff, forall_eq']
    exact Pursuit.stride_mem_iff hne.symm (step_nonneg h hpos.le)
  · have hnear : d.remaining receivePos < targetTolerance d.maxSpeed := by
      have := le_targetTolerance d.maxSpeed
      unfold baseTolerance at hfar
      omega
    rw [if_neg hfar]
    exact ⟨fun _ => (step_le_iff h hpos).mpr (.inl hnear), fun _ _ hsent => (by cases hsent)⟩

end

/-- What a round sends lies between the motor and the target exactly when the target is near, or
at least as far as the allowed pulses amplified. -/
theorem sent_between_iff (d : EyouPos) (receivePos : ℤ)
    (hne : receivePos ≠ Driver.eyou.data d.targetPos) (hs : 0 < d.maxSpeed) :
    (∀ sent ∈ d.runOnce receivePos, sent ∈ Set.uIcc receivePos (Driver.eyou.data d.targetPos)) ↔
      d.remaining receivePos < ⌊4500 * max 1 (d.maxSpeed / mv)⌋ ∨
      36 * ⌊Driver.eyou.allowed d.maxSpeed⌋ ≤ d.remaining receivePos := by
  have hpos : 0 < d.remaining receivePos := abs_pos.mpr (sub_ne_zero.mpr hne.symm)
  rw [sent_between_iff_step_le hne hs.le, step_le_iff hs.le hpos, targetTolerance_eq]
  rfl

theorem sent_between_iff_near : (EyouPos.mk (1 / 100) 1).runOnce 0 = some 2106 ∧
    2106 ∈ Set.uIcc 0 (Driver.eyou.data (1 / 100)) := by
  have hsent : (EyouPos.mk (1 / 100) 1).runOnce 0 = some 2106 := by decide +kernel
  exact ⟨hsent, (sent_between_iff ⟨1 / 100, 1⟩ 0 (by decide +kernel) (by norm_num)).mpr
    (.inl (by decide +kernel)) 2106 hsent⟩

/-- At one radian a second and 31603 pulses from its target, the motor is sent 75816 pulses away. -/
theorem sent_beyond_target :
    Driver.eyou.data (3 / 100) = 31603 ∧ (EyouPos.mk (3 / 100) 1).runOnce 0 = some 75816 ∧
      75816 ∉ Set.uIcc 0 (Driver.eyou.data (3 / 100)) := by
  have hdata : Driver.eyou.data (3 / 100) = 31603 := by decide +kernel
  refine ⟨hdata, by decide +kernel, ?_⟩
  rw [hdata, Set.mem_uIcc]
  omega

-- ---------------------------------------------------------------------------
-- The way in
-- ---------------------------------------------------------------------------

/-- The step whose amplification goes from 1 to `k` with the distance. -/
def ramp (maxSpeed : ℚ) (adis : ℤ) : ℤ :=
  truncate (min (adis : ℚ)
    (baseStep maxSpeed * max 1 ((k : ℚ) * ((adis : ℚ) / targetTolerance maxSpeed))))

/-- A round follows the ramp, and but for the rounding of a step before it is amplified, the ramp
ends where the far steps begin. -/
structure Ramps (maxSpeed : ℚ) (data receivePos : ℤ) : Prop where
  sent : request data maxSpeed receivePos =
    some (Pursuit.stride receivePos data (ramp maxSpeed |data - receivePos|))
  continuous : ∀ far ∈ request (receivePos + targetTolerance maxSpeed) maxSpeed receivePos,
    ∀ near ∈ request (receivePos + (targetTolerance maxSpeed - 1)) maxSpeed receivePos,
      |far - near| ≤ k

section
variable {data receivePos adis : ℤ} {maxSpeed : ℚ}

theorem baseStep_bounds (h : 0 ≤ maxSpeed) :
    2106 * maxSpeed ≤ baseStep maxSpeed ∧ baseStep maxSpeed ≤ 2107 * maxSpeed := by
  have hlinear : baseStep maxSpeed = baseStep 1 * maxSpeed := by
    simp only [baseStep, Driver.allowed, Driver.pulses]
    ring
  have hlow : 2106 ≤ baseStep 1 := by decide +kernel
  have hhigh : baseStep 1 ≤ 2107 := by decide +kernel
  rw [hlinear]
  exact ⟨mul_le_mul_of_nonneg_right hlow h, mul_le_mul_of_nonneg_right hhigh h⟩

theorem floor_baseStep_lt (h : 0 ≤ maxSpeed) : ⌊baseStep maxSpeed⌋ < targetTolerance maxSpeed := by
  have hspeed : maxSpeed ≤ max 1 (maxSpeed / mv) * mv := by
    rw [← div_le_iff₀ (by norm_num [mv])]
    exact le_max_right _ _
  have hone := le_max_left 1 (maxSpeed / mv)
  have hfloor := Int.lt_floor_add_one (4500 * max 1 (maxSpeed / mv))
  have hstep := (baseStep_bounds h).2
  rw [← targetTolerance_eq] at hfloor
  rw [Int.floor_lt]
  unfold mv at *
  linarith

theorem step_far (h : 0 ≤ maxSpeed) (hfar : targetTolerance maxSpeed ≤ adis) :
    step maxSpeed adis = ⌊baseStep maxSpeed⌋ * k := by
  have := floor_baseStep_lt h
  rw [step, if_neg (not_lt.mpr hfar), min_eq_right (by omega)]

theorem step_near (hle : ⌊baseStep maxSpeed⌋ ≤ adis) (hnear : adis < targetTolerance maxSpeed) :
    step maxSpeed adis = ⌊baseStep maxSpeed⌋ := by
  rw [step, if_pos hnear, min_eq_right hle, mul_one]

theorem request_ahead (h : 0 ≤ maxSpeed) (hbase : baseTolerance < adis) :
    request (receivePos + adis) maxSpeed receivePos = some (receivePos + step maxSpeed adis) := by
  have hpos : 0 < adis := by
    unfold baseTolerance at hbase
    omega
  rw [request_eq h, Pursuit.stride, add_sub_cancel_left, abs_of_pos hpos, if_pos hbase,
    Int.sign_eq_one_of_pos hpos, one_mul]

theorem jump_le_iff (h : 0 ≤ maxSpeed) :
    (∀ far ∈ request (receivePos + targetTolerance maxSpeed) maxSpeed receivePos,
      ∀ near ∈ request (receivePos + (targetTolerance maxSpeed - 1)) maxSpeed receivePos,
        |far - near| ≤ k) ↔ baseStep maxSpeed < 2 := by
  have htol := le_targetTolerance maxSpeed
  have hfloor := floor_baseStep_lt h
  have hnonneg := floor_baseStep_nonneg h
  have hbase : baseTolerance < targetTolerance maxSpeed - 1 := by
    unfold baseTolerance
    omega
  rw [request_ahead h (by omega), request_ahead h hbase, step_far h le_rfl,
    step_near (by omega) (by omega)]
  simp only [Option.mem_some_iff, forall_eq', add_sub_add_left_eq_sub]
  have hlt : baseStep maxSpeed < 2 ↔ ⌊baseStep maxSpeed⌋ < 2 := Int.floor_lt.symm
  rw [hlt, abs_of_nonneg (by unfold k; omega)]
  unfold k
  omega

theorem ramp_eq_min (h : 0 ≤ maxSpeed) (h0 : 0 ≤ adis) : ramp maxSpeed adis = min adis
    ⌊baseStep maxSpeed * max 1 ((k : ℚ) * ((adis : ℚ) / targetTolerance maxSpeed))⌋ := by
  have hbase := baseStep_nonneg h
  have h0' : (0 : ℚ) ≤ adis := Int.cast_nonneg h0
  rw [ramp, truncate_of_nonneg (by positivity), Int.floor_mono.map_min, Int.floor_intCast]

theorem targetTolerance_slow (hslow : baseStep maxSpeed < 2) (h : 0 ≤ maxSpeed) :
    targetTolerance maxSpeed = 4500 := by
  have hspeed : maxSpeed / mv ≤ 1 := by
    have := (baseStep_bounds h).1
    rw [div_le_one (by norm_num [mv])]
    unfold mv
    linarith
  rw [targetTolerance_eq, max_eq_left hspeed]
  norm_num

theorem step_eq_ramp_iff (h : 0 ≤ maxSpeed) (hslow : baseStep maxSpeed < 2)
    (hbase : baseTolerance < adis) (hnear : adis < targetTolerance maxSpeed) :
    step maxSpeed adis = ramp maxSpeed adis ↔
      36 * baseStep maxSpeed * adis < (⌊baseStep maxSpeed⌋ + 1) * 4500 := by
  have htol := targetTolerance_slow hslow h
  have hfloor : ⌊baseStep maxSpeed⌋ < 2 := Int.floor_lt.mpr hslow
  unfold baseTolerance at hbase
  rw [step_near (by omega) hnear, ramp_eq_min h (by omega), htol]
  have hamplified : baseStep maxSpeed * max 1 ((k : ℚ) * ((adis : ℚ) / (4500 : ℤ))) =
      max (baseStep maxSpeed) (36 * baseStep maxSpeed * adis / 4500) := by
    rw [mul_max_of_nonneg _ _ (baseStep_nonneg h), mul_one]
    congr 1
    simp only [k, Int.cast_ofNat]
    ring
  have hmono : ⌊baseStep maxSpeed⌋ ≤
      ⌊max (baseStep maxSpeed) (36 * baseStep maxSpeed * adis / 4500)⌋ :=
    Int.floor_le_floor (le_max_left _ _)
  -- The distance is no bound here, so only the ramp can make the two steps differ.
  calc _ ↔ ⌊max (baseStep maxSpeed) (36 * baseStep maxSpeed * adis / 4500)⌋ ≤
        ⌊baseStep maxSpeed⌋ := by rw [hamplified]; omega
    _ ↔ 36 * baseStep maxSpeed * adis / 4500 < ⌊baseStep maxSpeed⌋ + 1 := by
      rw [Int.floor_le_iff, max_lt_iff, and_iff_right (Int.lt_floor_add_one _)]
    _ ↔ _ := div_lt_iff₀ (by norm_num)

end

/-- Between the tolerances a round follows the ramp exactly at speeds below two pulses a round
and where the ramp has not made another pulse yet. -/
theorem ramps_iff (data receivePos : ℤ) (maxSpeed : ℚ) (hs : 0 < maxSpeed)
    (hbase : baseTolerance < |data - receivePos|)
    (hnear : |data - receivePos| < targetTolerance maxSpeed) :
    Ramps maxSpeed data receivePos ↔ Driver.eyou.allowed maxSpeed < 2 ∧
      36 * Driver.eyou.allowed maxSpeed * (|data - receivePos| : ℤ) <
        (⌊Driver.eyou.allowed maxSpeed⌋ + 1) * 4500 := by
  have hpos : 0 < |data - receivePos| := by
    unfold baseTolerance at hbase
    omega
  have hne : data ≠ receivePos := sub_ne_zero.mp (abs_pos.mp hpos)
  have hsent : request data maxSpeed receivePos =
        some (Pursuit.stride receivePos data (ramp maxSpeed |data - receivePos|)) ↔
      step maxSpeed |data - receivePos| = ramp maxSpeed |data - receivePos| := by
    rw [request_eq hs.le, if_pos hbase, Option.some_inj, Pursuit.stride_inj hne]
  constructor
  · intro h
    have hslow := (jump_le_iff hs.le).mp h.continuous
    exact ⟨hslow, (step_eq_ramp_iff hs.le hslow hbase hnear).mp (hsent.mp h.sent)⟩
  · rintro ⟨hslow, hramp⟩
    exact {
      sent := hsent.mpr ((step_eq_ramp_iff hs.le hslow hbase hnear).mpr hramp)
      continuous := (jump_le_iff hs.le).mpr hslow
    }

theorem ramps_iff_slow : Ramps (1 / 100000) 1000 0 :=
  (ramps_iff 1000 0 (1 / 100000) (by norm_num) (by decide) (by decide +kernel)).mpr
    ⟨by decide +kernel, by decide +kernel⟩

/-- At a hundredth of a radian a second and 1000 pulses from the target, the ramp makes 168 pulses
and the motor is sent 21, as it is up to the tolerance, where this becomes 756. -/
theorem ramp_is_flat :
    request 1000 (1 / 100) 0 = some 21 ∧ ramp (1 / 100) 1000 = 168 ∧
      request 4499 (1 / 100) 0 = some 21 ∧ request 4500 (1 / 100) 0 = some 756 ∧
      ¬ Ramps (1 / 100) 1000 0 := by
  have hsent : request 1000 (1 / 100) 0 = some 21 := by decide +kernel
  have hramp : Pursuit.stride 0 1000 (ramp (1 / 100) |1000 - 0|) = 168 := by decide +kernel
  refine ⟨hsent, by decide +kernel, by decide +kernel, by decide +kernel, fun h => ?_⟩
  have := h.sent
  rw [hsent, hramp] at this
  cases this

end EyouPos

end TienKung
