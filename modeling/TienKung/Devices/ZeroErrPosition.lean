import TienKung.Lib.Pursuit
import TienKung.Devices.PositionLoops
import Mathlib.Tactic.Ring

/-!
# `ZeroErrMotorDevice` in `Mode::POS`

A round of the loop asks for a position at most `limit` pulses from the one last
received, towards the target. Wherever the motor stops on its way, it approaches
the target and does not cross it. `limit` is cut to whole pulses, so below one
pulse in a round the motor stays where it is.
-/

namespace TienKung

structure ZeroErrPos where
  targetPos : ℚ
  maxSpeed : ℚ
  zeroOffset : ℚ

namespace ZeroErrPos

def setPos (d : ZeroErrPos) (position maxSpeed : ℚ) : ZeroErrPos :=
  if maxSpeed ≤ 0 then d else { d with targetPos := position + d.zeroOffset, maxSpeed := maxSpeed }

def limit (maxSpeed : ℚ) : ℚ := Driver.zeroErr.allowed maxSpeed

/-- The position that a round sends to the drive, if it sends one. -/
def request (data : ℤ) (maxSpeed : ℚ) (receivePos : ℤ) : Option ℤ :=
  let dis := data - receivePos
  let adis := |dis|
  if adis > 5 ∧ maxSpeed > 0 then
    let m := direction dis
    let dis := reach adis (limit maxSpeed)
    some (receivePos + m * dis)
  else none

def runOnce (d : ZeroErrPos) (receivePos : ℤ) : Option ℤ :=
  request (Driver.zeroErr.data d.targetPos) d.maxSpeed receivePos

section
variable {data receivePos d : ℤ} {maxSpeed : ℚ}

theorem mem_request_iff : d ∈ request data maxSpeed receivePos ↔
    5 < |data - receivePos| ∧ 0 < maxSpeed ∧
      d = Pursuit.stride receivePos data (reach |data - receivePos| (limit maxSpeed)) := by
  simp only [request, direction_eq_sign, Pursuit.stride]
  split_ifs with h
  · rw [Option.mem_some_iff]
    exact ⟨fun he => ⟨h.1, h.2, he.symm⟩, fun he => he.2.2.symm⟩
  · exact ⟨fun he => (by cases he), fun he => absurd ⟨he.1, he.2.1⟩ h⟩

theorem limit_nonneg (h : 0 ≤ maxSpeed) : 0 ≤ limit maxSpeed := Driver.zeroErr.allowed_nonneg h

theorem ne_of_far (h : 5 < |data - receivePos|) : data ≠ receivePos := by
  rintro rfl
  simp at h

-- ---------------------------------------------------------------------------
-- A motor that stops anywhere on its way
-- ---------------------------------------------------------------------------

theorem request_aims (data : ℤ) (maxSpeed : ℚ) : Pursuit.Aims (request data maxSpeed) data := by
  intro receivePos d hd
  obtain ⟨hfar, hspeed, rfl⟩ := mem_request_iff.mp hd
  have hlimit := limit_nonneg hspeed.le
  exact (Pursuit.stride_mem_iff (ne_of_far hfar) (reach_nonneg (abs_nonneg _) hlimit)).mpr
    (reach_le hlimit)

theorem request_inLimit (hd : d ∈ request data maxSpeed receivePos) :
    |d - receivePos| ≤ limit maxSpeed := by
  obtain ⟨hfar, hspeed, rfl⟩ := mem_request_iff.mp hd
  have hlimit := limit_nonneg hspeed.le
  have hlength : |Pursuit.stride receivePos data (reach |data - receivePos| (limit maxSpeed)) -
      receivePos| = reach |data - receivePos| (limit maxSpeed) :=
    Pursuit.abs_stride_sub (ne_of_far hfar) (reach_nonneg (abs_nonneg _) hlimit)
  have hle : (reach |data - receivePos| (limit maxSpeed) : ℚ) ≤ limit maxSpeed :=
    reach_le_limit hlimit
  rw [← hlength] at hle
  exact_mod_cast hle

end

/-- What a round does that receives a position after the state `s`, in a run from `start`. -/
structure Approaches (start data : ℤ) (maxSpeed : ℚ) (s : Pursuit.Body ℤ) (receivePos : ℤ) :
    Prop where
  between : ∀ d ∈ request data maxSpeed receivePos, d ∈ Set.uIcc receivePos data
  inLimit : ∀ d ∈ request data maxSpeed receivePos, |d - receivePos| ≤ limit maxSpeed
  closer : |data - receivePos| ≤ |data - s.position|
  uncrossed : receivePos ∈ Set.uIcc start data

/-- Each round approaches the target if the motor always stops between the position last received
and the one last sent. Before the loop this is the position of `reqInitPosition`. -/
theorem position_run_approaches (data : ℤ) (maxSpeed : ℚ) (start : ℤ) (received : List ℤ)
    (h : Mealy.Along (Pursuit.step (request data maxSpeed)) Pursuit.Stops (.rest start) received) :
    Mealy.Along (Pursuit.step (request data maxSpeed)) (Approaches start data maxSpeed)
      (.rest start) received := by
  refine h.imp (Pursuit.OnWay.rest start data) fun s receivePos hs hstops => ?_
  have hnext := hs.step (request_aims data maxSpeed) hstops
  refine ⟨hnext, ?_⟩
  exact {
    between := request_aims data maxSpeed receivePos
    inLimit := fun _ hd => request_inLimit hd
    closer := Set.abs_sub_right_of_mem_uIcc (hs.moved_mem hstops)
    uncrossed := hnext.position
  }

/-- The limit is 166 pulses, and the motor never arrives. -/
theorem position_run_approaches_far :
    Mealy.Along (Pursuit.step (request 1000 1)) (Approaches 0 1000 1) (.rest 0) [0, 100, 250] :=
  position_run_approaches 1000 1 0 [0, 100, 250] (by decide +kernel)

-- ---------------------------------------------------------------------------
-- A motor that arrives
-- ---------------------------------------------------------------------------

/-- The position received after `n` rounds. -/
def positionAfter (d : ZeroErrPos) (start : ℤ) (n : Nat) : ℤ :=
  (Pursuit.arrive d.runOnce)^[n] start

def remaining (d : ZeroErrPos) (receivePos : ℤ) : ℤ :=
  |Driver.zeroErr.data d.targetPos - receivePos|

/-- The tolerance is reached, and every round outside it takes some of the distance. -/
structure Converges (d : ZeroErrPos) (start : ℤ) : Prop where
  arrives : ∃ n, d.remaining (d.positionAfter start n) ≤ 5
  closer : ∀ n, 5 < d.remaining (d.positionAfter start n) →
    d.remaining (d.positionAfter start (n + 1)) < d.remaining (d.positionAfter start n)

/-- The speed of one pulse in a round. -/
def minSpeed : ℚ := Driver.zeroErr.trans2Deg / 180 * pi / twoMs

section
variable {d : ZeroErrPos} {receivePos start : ℤ} {speed : ℚ}

theorem one_le_limit_iff : 1 ≤ limit speed ↔ minSpeed ≤ speed := by
  have htrans := Driver.zeroErr.trans2Deg_pos
  rw [limit, Driver.allowed, Driver.pulses, minSpeed, ← div_le_iff₀ twoMs_pos, le_div_iff₀ htrans,
    ← div_le_iff₀ (by norm_num : (0 : ℚ) < 180), le_div_iff₀ pi_pos]
  ring_nf

theorem arrive_near (h : d.remaining receivePos ≤ 5) :
    Pursuit.arrive d.runOnce receivePos = receivePos := by
  have hnone : d.runOnce receivePos = none :=
    if_neg fun hc => absurd hc.1 (not_lt.mpr h)
  rw [Pursuit.arrive, hnone, Option.getD_none]

theorem remaining_arrive (hs : 0 < d.maxSpeed) (hfar : 5 < d.remaining receivePos) :
    d.remaining (Pursuit.arrive d.runOnce receivePos) =
      d.remaining receivePos - min (d.remaining receivePos) ⌊limit d.maxSpeed⌋ := by
  have hlimit := limit_nonneg hs.le
  have hsent := mem_request_iff.mpr ⟨hfar, hs, rfl⟩
  rw [Pursuit.arrive, runOnce, Option.mem_def.mp hsent, Option.getD_some, remaining,
    Pursuit.abs_sub_stride (ne_of_far hfar) (reach_le hlimit), reach_eq_min hlimit]
  rfl

theorem closer_iff (hs : 0 < d.maxSpeed) (hfar : 5 < d.remaining receivePos) :
    d.remaining (Pursuit.arrive d.runOnce receivePos) < d.remaining receivePos ↔
      minSpeed ≤ d.maxSpeed := by
  have hfloor : 1 ≤ limit d.maxSpeed ↔ 1 ≤ ⌊limit d.maxSpeed⌋ := by
    rw [Int.le_floor, Int.cast_one]
  rw [remaining_arrive hs hfar, ← one_le_limit_iff, hfloor]
  omega

theorem Converges.of_near (h : d.remaining start ≤ 5) : d.Converges start := by
  have hfixed (n : Nat) : d.positionAfter start n = start :=
    Function.iterate_fixed (arrive_near h) n
  refine ⟨⟨0, h⟩, fun n hfar => ?_⟩
  rw [hfixed] at hfar
  exact absurd h (not_le.mpr hfar)

theorem Converges.of_fast (hs : 0 < d.maxSpeed) (h : minSpeed ≤ d.maxSpeed) (start : ℤ) :
    d.Converges start := by
  have hcloser (r : ℤ) (hfar : 5 < d.remaining r) :
      d.remaining (Pursuit.arrive d.runOnce r) < d.remaining r := (closer_iff hs hfar).mpr h
  constructor
  · exact Pursuit.exists_iterate_le hcloser start
  · intro n hfar
    rw [positionAfter, Function.iterate_succ_apply']
    exact hcloser _ hfar

theorem converges_iff (hs : 0 < d.maxSpeed) :
    d.Converges start ↔ d.remaining start ≤ 5 ∨ minSpeed ≤ d.maxSpeed := by
  constructor
  · intro h
    by_cases hfar : 5 < d.remaining start
    · exact .inr ((closer_iff hs hfar).mp (h.closer 0 hfar))
    · exact .inl (not_lt.mp hfar)
  · rintro (hnear | hfast)
    · exact .of_near hnear
    · exact .of_fast hs hfast start

end

/-- A motor that arrives at every position it is sent to reaches the tolerance exactly when it
starts there or its speed makes a pulse in a round. -/
theorem position_converges_iff (d : ZeroErrPos) (position maxSpeed : ℚ) (h : 0 < maxSpeed)
    (start : ℤ) : (d.setPos position maxSpeed).Converges start ↔
      |Driver.zeroErr.data (position + d.zeroOffset) - start| ≤ 5 ∨ minSpeed ≤ maxSpeed := by
  have hset : d.setPos position maxSpeed = ⟨position + d.zeroOffset, maxSpeed, d.zeroOffset⟩ :=
    if_neg (not_le.mpr h)
  rw [hset]
  exact converges_iff h

theorem position_converges_iff_one : ((ZeroErrPos.mk 0 0 0).setPos 1 1).Converges 0 :=
  (position_converges_iff ⟨0, 0, 0⟩ 1 1 (by norm_num) 0).mpr (.inr (by decide +kernel))

/-- At a thousandth of a radian a second the motor is sent to where it is. -/
theorem slow_motor_stays :
    ((ZeroErrPos.mk 0 0 0).setPos 1 (1 / 1000)).runOnce 0 = some 0 ∧
      ¬ ((ZeroErrPos.mk 0 0 0).setPos 1 (1 / 1000)).Converges 0 := by
  have hstays : ((ZeroErrPos.mk 0 0 0).setPos 1 (1 / 1000)).runOnce 0 = some 0 := by decide +kernel
  refine ⟨hstays, fun h => ?_⟩
  have hfar : 5 < ((ZeroErrPos.mk 0 0 0).setPos 1 (1 / 1000)).remaining 0 := by decide +kernel
  have hcloser := h.closer 0 hfar
  rw [positionAfter, positionAfter, Function.iterate_succ_apply', Function.iterate_zero_apply,
    Pursuit.arrive, hstays] at hcloser
  exact lt_irrefl _ hcloser

end ZeroErrPos

end TienKung
