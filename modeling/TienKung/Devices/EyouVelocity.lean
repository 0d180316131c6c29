import TienKung.Lib.Past
import TienKung.Devices.PositionLoops
import Mathlib.Algebra.Order.Group.MinMax
import Mathlib.Data.Sign.Basic
import Mathlib.Tactic.Ring

/-!
# The velocities of `EyouMotorDevice` in `Mode::POS_2`

The host closes the position loop. A round asks `MotorController` for a velocity
and sends it to the drive, but only while the motor is off its target; on the
target it sends nothing, and the drive keeps the velocity it was last sent.
Arithmetic is exact up to the conversion to whole pulses a second, and no `int`
overflows. Left out is the traffic with the drive but for the velocities.
-/

namespace TienKung

-- ---------------------------------------------------------------------------
-- MotorController
-- ---------------------------------------------------------------------------

structure MotorController where
  currentPosition : ℚ := 0
  currentVelocity : ℚ := 0
  current : ℚ := 0
  maxVelocity : ℚ := 0
  targetPosition : ℚ := 0

namespace MotorController

def setTargetPositionAndMaxVelocity (c : MotorController) (position velocity : ℚ) :
    MotorController :=
  { c with targetPosition := position, maxVelocity := |velocity| }

/-- The `double` 0.1. -/
def kp : ℚ := 3602879701896397 / 36028797018963968

def update (c : MotorController) (currentPositionInput currentVelocityInput currentInput : ℚ) :
    MotorController × ℚ :=
  let c := { c with
    currentPosition := currentPositionInput
    currentVelocity := currentVelocityInput
    current := currentInput }
  let error := c.targetPosition - c.currentPosition
  let plannedVelocity :=
    if error > 0 then min c.maxVelocity (error * kp)
    else if error < 0 then max (-c.maxVelocity) (error * kp)
    else 0
  (c, plannedVelocity)

end MotorController

-- ---------------------------------------------------------------------------
-- The loop
-- ---------------------------------------------------------------------------

/-- A round of the loop: what it found, and the velocity it sent in pulses a second. -/
structure VelocityRound where
  position : ℚ
  controller : MotorController
  request : Option ℤ

namespace EyouVelocity

/-- The `double` 0.01. -/
def tolerance : ℚ := 5764607523034235 / 576460752303423488

/-- `ReceivePosDeg / 180 * M_PI` -/
def currentPosition (receivePos : ℤ) : ℚ := receivePos * Driver.eyou.trans2Deg / 180 * pi

/-- `ReceiveVel / 180 * M_PI`, where the division is one of `int`s. -/
def currentVelocity (receiveVel : ℤ) : ℚ := receiveVel.tdiv 180 * pi

inductive Call
  | setPos (position maxSpeed : ℚ)
  | round (receivePos receiveVel : ℤ)

def setPos (c : MotorController) (position maxSpeed : ℚ) : MotorController :=
  if maxSpeed ≤ 0 then c else c.setTargetPositionAndMaxVelocity position maxSpeed

/-- `current` stays 0 in the source. -/
def runOnce (c : MotorController) (receivePos receiveVel : ℤ) : MotorController × VelocityRound :=
  let position := currentPosition receivePos
  if |position - c.targetPosition| > tolerance then
    let (next, plannedVelocity) := c.update position (currentVelocity receiveVel) 0
    (next, ⟨position, c, some (truncate (Driver.eyou.pulses plannedVelocity))⟩)
  else (c, ⟨position, c, none⟩)

def step : Mealy.Step MotorController Call VelocityRound
  | c, .setPos position maxSpeed => (setPos c position maxSpeed, [])
  | c, .round receivePos receiveVel =>
    let (c, round) := runOnce c receivePos receiveVel
    (c, [round])

def start (c : MotorController) (initPosition : ℚ) : MotorController :=
  c.setTargetPositionAndMaxVelocity initPosition 0

-- ---------------------------------------------------------------------------
-- What is sent
-- ---------------------------------------------------------------------------

section
variable {c : MotorController} {position x : ℚ}

theorem pulses_mul (drv : Driver) (x y : ℚ) : drv.pulses (x * y) = x * drv.pulses y := by
  unfold Driver.pulses
  ring

theorem pulses_monotone (drv : Driver) : Monotone drv.pulses := by
  intro x y h
  have := drv.trans2Deg_pos
  have := pi_pos
  unfold Driver.pulses
  gcongr

theorem pulses_nonneg (drv : Driver) (h : 0 ≤ x) : 0 ≤ drv.pulses x := by
  have := drv.trans2Deg_pos
  have := pi_pos
  unfold Driver.pulses
  positivity

theorem truncate_sign_mul (s : SignType) (h : 0 ≤ x) :
    truncate ((s : ℚ) * x) = (s : ℤ) * ⌊x⌋ := by
  cases s with
  | zero => rw [SignType.zero_eq_zero, SignType.coe_zero, SignType.coe_zero, zero_mul, zero_mul]; rfl
  | neg => simp [truncate_neg, truncate_of_nonneg h]
  | pos => simp [truncate_of_nonneg h]

def speed (c : MotorController) (position : ℚ) : ℚ :=
  min c.maxVelocity (|c.targetPosition - position| * MotorController.kp)

theorem update_eq (velocity current : ℚ) : (c.update position velocity current).2 =
    (SignType.sign (c.targetPosition - position) : ℚ) * speed c position := by
  unfold MotorController.update speed
  dsimp only
  rcases lt_trichotomy (c.targetPosition - position) 0 with h | h | h
  · rw [if_neg (not_lt.mpr h.le), if_pos h, sign_neg h, abs_of_neg h, SignType.coe_neg_one,
      neg_one_mul, ← max_neg_neg, neg_mul, neg_neg]
  · rw [if_neg (by rw [h]; exact lt_irrefl 0), if_neg (by rw [h]; exact lt_irrefl 0), h, sign_zero,
      SignType.coe_zero, zero_mul]
  · rw [if_pos h, sign_pos h, abs_of_pos h, SignType.coe_one, one_mul]

end

end EyouVelocity

namespace VelocityRound

open EyouVelocity

def Near (r : VelocityRound) : Prop := |r.position - r.controller.targetPosition| ≤ tolerance

def allowed (r : VelocityRound) : ℚ := Driver.eyou.pulses r.controller.maxVelocity

def side (r : VelocityRound) : SignType := SignType.sign (r.controller.targetPosition - r.position)

def pace (r : VelocityRound) : ℤ := ⌊Driver.eyou.pulses (speed r.controller r.position)⌋

instance (r : VelocityRound) : Decidable r.Near := inferInstanceAs (Decidable (_ ≤ _))

structure Regular (r : VelocityRound) : Prop where
  maxVelocity : 0 ≤ r.controller.maxVelocity
  request : r.request = if r.Near then none else some (r.side * r.pace)

section
variable {r : VelocityRound}

theorem side_ne_zero (h : ¬ r.Near) : r.side ≠ 0 := by
  intro hzero
  rw [side, sign_eq_zero_iff, sub_eq_zero] at hzero
  rw [Near, hzero, sub_self, abs_zero] at h
  exact h (by norm_num [tolerance])

theorem one_le_distance (h : ¬ r.Near) :
    1 ≤ Driver.eyou.pulses (|r.controller.targetPosition - r.position| * MotorController.kp) := by
  have hfar : tolerance * MotorController.kp ≤
      |r.controller.targetPosition - r.position| * MotorController.kp := by
    rw [Near, not_le, abs_sub_comm] at h
    exact mul_le_mul_of_nonneg_right h.le (by norm_num [MotorController.kp])
  have hone : 1 ≤ Driver.eyou.pulses (tolerance * MotorController.kp) := by decide +kernel
  exact hone.trans (pulses_monotone _ hfar)

theorem pace_eq (r : VelocityRound) : r.pace = min ⌊r.allowed⌋
    ⌊Driver.eyou.pulses (|r.controller.targetPosition - r.position| * MotorController.kp)⌋ := by
  rw [pace, speed, (pulses_monotone _).map_min, Int.floor_mono.map_min, allowed]

theorem pace_nonneg (h : 0 ≤ r.controller.maxVelocity) (hfar : ¬ r.Near) : 0 ≤ r.pace := by
  rw [pace_eq]
  exact le_min (Int.floor_nonneg.mpr (pulses_nonneg _ h))
    (zero_le_one.trans (Int.le_floor.mpr (by exact_mod_cast one_le_distance hfar)))

theorem pace_le (r : VelocityRound) : r.pace ≤ r.allowed := by
  rw [pace_eq]
  exact (Int.cast_le.mpr (min_le_left _ _)).trans (Int.floor_le _)

theorem pace_pos_iff (hfar : ¬ r.Near) : 0 < r.pace ↔ 1 ≤ r.allowed := by
  have hdistance : 0 < ⌊Driver.eyou.pulses
      (|r.controller.targetPosition - r.position| * MotorController.kp)⌋ :=
    Int.floor_pos.mpr (one_le_distance hfar)
  rw [pace_eq, lt_min_iff, Int.floor_pos]
  exact and_iff_left hdistance

theorem Regular.isSome_request (h : r.Regular) : r.request.isSome ↔ ¬ r.Near := by
  rw [h.request]
  split_ifs with hnear <;> simp [hnear]

theorem Regular.of_mem_request (h : r.Regular) {v : ℤ} (hv : v ∈ r.request) :
    ¬ r.Near ∧ v = r.side * r.pace := by
  rw [h.request] at hv
  split_ifs at hv with hnear
  · cases hv
  · exact ⟨hnear, (Option.mem_some_iff.mp hv).symm⟩

-- ---------------------------------------------------------------------------
-- Safe rounds
-- ---------------------------------------------------------------------------

def lastRequest (past : List VelocityRound) : Option ℤ := (past.filterMap request).getLast?

/-- A round after others. A velocity of less than a pulse a second is sent as none. -/
structure Safe (past : List VelocityRound) (r : VelocityRound) : Prop where
  magnitude : ∀ v ∈ r.request, |(v : ℚ)| ≤ r.allowed
  direction : ∀ v ∈ r.request, v.sign = if r.allowed < 1 then 0 else (r.side : ℤ)
  stopped : r.Near → ∀ v ∈ lastRequest (past ++ [r]), v = 0

/-- The last round off the target had less than a pulse a second allowed. -/
def Slowed (past : List VelocityRound) (r : VelocityRound) : Prop :=
  r.Near → ∀ away after, Past.Latest (fun r => ¬ r.Near) away after past → away.allowed < 1

/-- No allowance for velocities of less than a pulse a second: each shows the side. -/
def Directed (r : VelocityRound) : Prop := ∀ v ∈ r.request, v.sign = (r.side : ℤ)

def Brisk (r : VelocityRound) : Prop := ¬ r.Near → 1 ≤ r.allowed

theorem Regular.magnitude (h : r.Regular) : ∀ v ∈ r.request, |(v : ℚ)| ≤ r.allowed := by
  intro v hv
  obtain ⟨hfar, rfl⟩ := h.of_mem_request hv
  have hpace : |(r.side : ℤ) * r.pace| = r.pace := by
    have hside := side_ne_zero hfar
    have hone : |(r.side : ℤ)| = 1 := by cases hs : r.side <;> simp_all
    rw [abs_mul, hone, one_mul, abs_of_nonneg (pace_nonneg h.maxVelocity hfar)]
  rw [← Int.cast_abs, hpace]
  exact pace_le r

theorem Regular.direction (h : r.Regular) :
    ∀ v ∈ r.request, v.sign = if r.allowed < 1 then 0 else (r.side : ℤ) := by
  intro v hv
  obtain ⟨hfar, rfl⟩ := h.of_mem_request hv
  have hnonneg := pace_nonneg h.maxVelocity hfar
  have hpos := pace_pos_iff hfar
  split_ifs with hslow
  · have hzero : r.pace = 0 := le_antisymm (not_lt.mp (hpos.not.mpr (not_le.mpr hslow))) hnonneg
    rw [hzero, mul_zero, Int.sign_zero]
  · rw [Int.sign_mul, Int.sign_eq_one_of_pos (hpos.mpr (not_lt.mp hslow)), mul_one]
    cases r.side <;> rfl

theorem Regular.request_eq_zero_iff (h : r.Regular) {v : ℤ} (hv : v ∈ r.request) :
    v = 0 ↔ r.allowed < 1 := by
  have hdirection := h.direction v hv
  have hside : (r.side : ℤ) ≠ 0 := by
    have hne := side_ne_zero (h.of_mem_request hv).1
    cases hs : r.side <;> simp_all
  rw [← Int.sign_eq_zero_iff_zero, hdirection]
  split_ifs with hslow <;> simp [hslow, hside]

theorem Regular.directed_iff (h : r.Regular) : r.Directed ↔ r.Brisk := by
  constructor
  · intro hdirected hfar
    obtain ⟨v, hv⟩ := Option.isSome_iff_exists.mp (h.isSome_request.mpr hfar)
    by_contra hslow
    have hside : (r.side : ℤ) = 0 := by
      rw [← hdirected v hv, (h.request_eq_zero_iff hv).mpr (not_le.mp hslow), Int.sign_zero]
    exact side_ne_zero hfar (by cases hs : r.side <;> simp_all)
  · intro hbrisk v hv
    rw [h.direction v hv, if_neg (not_lt.mpr (hbrisk (h.of_mem_request hv).1))]

/-- After rounds that are regular, on the target, the drive was last sent no velocity exactly when
the last round off it had too little allowed. -/
theorem Regular.stopped_iff {past : List VelocityRound} (hpast : ∀ r ∈ past, r.Regular)
    (h : r.Regular) (hnear : r.Near) : (∀ v ∈ lastRequest (past ++ [r]), v = 0) ↔
      ∀ away after, Past.Latest (fun r => ¬ r.Near) away after past → away.allowed < 1 := by
  have hnone : r.request = none := by rw [h.request, if_pos hnear]
  have hlast : lastRequest (past ++ [r]) = lastRequest past := by simp [lastRequest, hnone]
  have hlatest {away : VelocityRound} {after : List VelocityRound} :
      Past.Latest (fun r => r.request.isSome) away after past ↔
        Past.Latest (fun r => ¬ r.Near) away after past :=
    Past.latest_congr fun r hr => (hpast r hr).isSome_request
  rw [hlast]
  constructor
  · intro hzero away after haway
    have hsome := hlatest.mpr haway
    obtain ⟨v, hv⟩ := Option.isSome_iff_exists.mp hsome.holds
    have hsent : v ∈ lastRequest past := Past.getLast?_filterMap.mpr ⟨away, after, hsome, hv⟩
    exact ((hpast away haway.mem).request_eq_zero_iff hv).mp (hzero v hsent)
  · intro hslow v hv
    obtain ⟨away, after, hsome, hsent⟩ := Past.getLast?_filterMap.mp hv
    exact ((hpast away hsome.mem).request_eq_zero_iff hsent).mpr
      (hslow away after (hlatest.mp hsome))

theorem Regular.safe_iff {past : List VelocityRound} (hpast : ∀ r ∈ past, r.Regular)
    (h : r.Regular) : r.Safe past ↔ r.Slowed past :=
  ⟨fun hsafe hnear => (h.stopped_iff hpast hnear).mp (hsafe.stopped hnear),
    fun hslowed => ⟨h.magnitude, h.direction,
      fun hnear => (h.stopped_iff hpast hnear).mpr (hslowed hnear)⟩⟩

end

end VelocityRound

-- ---------------------------------------------------------------------------
-- Runs
-- ---------------------------------------------------------------------------

namespace EyouVelocity

open VelocityRound (Regular Safe Slowed)

section
variable {c : MotorController}

theorem setPos_maxVelocity (h : 0 ≤ c.maxVelocity) (position maxSpeed : ℚ) :
    0 ≤ (setPos c position maxSpeed).maxVelocity := by
  unfold setPos
  split_ifs
  · exact h
  · exact abs_nonneg maxSpeed

theorem runOnce_near {receivePos : ℤ}
    (h : |currentPosition receivePos - c.targetPosition| ≤ tolerance) (receiveVel : ℤ) :
    runOnce c receivePos receiveVel = (c, ⟨currentPosition receivePos, c, none⟩) :=
  if_neg (not_lt.mpr h)

theorem runOnce_far {receivePos : ℤ} (hmax : 0 ≤ c.maxVelocity)
    (h : ¬ |currentPosition receivePos - c.targetPosition| ≤ tolerance) (receiveVel : ℤ) :
    runOnce c receivePos receiveVel =
      ((c.update (currentPosition receivePos) (currentVelocity receiveVel) 0).1,
        ⟨currentPosition receivePos, c,
          some ((SignType.sign (c.targetPosition - currentPosition receivePos) : ℤ) *
            ⌊Driver.eyou.pulses (speed c (currentPosition receivePos))⌋)⟩) := by
  have hspeed : 0 ≤ speed c (currentPosition receivePos) :=
    le_min hmax (mul_nonneg (abs_nonneg _) (by norm_num [MotorController.kp]))
  rw [← truncate_sign_mul _ (pulses_nonneg .eyou hspeed), ← pulses_mul,
    ← update_eq (currentVelocity receiveVel) 0]
  exact if_pos (not_le.mp h)

theorem runOnce_regular (h : 0 ≤ c.maxVelocity) (receivePos receiveVel : ℤ) :
    (runOnce c receivePos receiveVel).2.Regular ∧
      0 ≤ (runOnce c receivePos receiveVel).1.maxVelocity := by
  by_cases hnear : |currentPosition receivePos - c.targetPosition| ≤ tolerance
  · rw [runOnce_near hnear]
    exact ⟨⟨h, (if_pos hnear).symm⟩, h⟩
  · rw [runOnce_far h hnear]
    exact ⟨⟨h, (if_neg hnear).symm⟩, h⟩

theorem emitted_regular (h : 0 ≤ c.maxVelocity) (calls : List Call) :
    ∀ r ∈ Mealy.emitted step c calls, r.Regular := by
  refine Mealy.emitted_invariant (P := fun c => 0 ≤ c.maxVelocity) h fun c call h => ?_
  cases call with
  | setPos position maxSpeed => exact ⟨setPos_maxVelocity h position maxSpeed, fun _ hr => nomatch hr⟩
  | round receivePos receiveVel =>
    obtain ⟨hregular, hnext⟩ := runOnce_regular h receivePos receiveVel
    refine ⟨hnext, fun r hr => ?_⟩
    rw [List.mem_singleton.mp hr]
    exact hregular

end

/-- What is sent is never too fast and never the wrong way; the motor is left moving on its target
exactly when it came there with a pulse a second or more allowed. That no velocity is cut to 0 asks
for as much in each round off the target. -/
theorem velocities_safe_iff (c : MotorController) (initPosition : ℚ) (calls : List Call) :
    let rounds := Mealy.emitted step (start c initPosition) calls
    (Past.Throughout Safe [] rounds ↔ Past.Throughout Slowed [] rounds) ∧
    (Past.Throughout (fun past r => r.Safe past ∧ r.Directed) [] rounds ↔
      Past.Throughout (fun past r => r.Slowed past ∧ r.Brisk) [] rounds) := by
  intro rounds
  have hstart : 0 ≤ (start c initPosition).maxVelocity := abs_nonneg 0
  have hregular : ∀ r ∈ rounds, r.Regular := emitted_regular hstart calls
  have hpast : ∀ r ∈ ([] : List VelocityRound), r.Regular := by simp
  refine ⟨?_, ?_⟩
  · exact Past.throughout_congr hpast hregular fun past r hpast hr => hr.safe_iff hpast
  · exact Past.throughout_congr hpast hregular fun past r hpast hr =>
      and_congr (hr.safe_iff hpast) hr.directed_iff

/-- Sent off at a tenth of a radian a second, the motor is a few pulses from its target and still
moves. -/
theorem left_moving : ¬ Past.Throughout Safe []
    (Mealy.emitted step (start {} 0) [.setPos 1 1, .round 0 0, .round 1053452 0]) := by
  rintro ⟨-, hsafe, -⟩
  have hzero : (105345 : ℤ) = 0 := hsafe.stopped (by decide +kernel) 105345 (by decide +kernel)
  exact absurd hzero (by decide)

end EyouVelocity

end TienKung
