import TienKung.Devices.PositionFrame
import Mathlib.Tactic.Ring

/-!
# Relative moves

`OnStatus` keeps the position in the encoder's frame and reports it less the
zero offset; `SetMotorPosition` adds the offset to what it is given.
`SetMotorDistance` gives it the position that was kept, so the offset is added
to a position that it was never taken from.
-/

namespace TienKung

-- ---------------------------------------------------------------------------
-- Commands
-- ---------------------------------------------------------------------------

/-- What a position frame says, before the position is rounded to a `float`; in degrees. -/
structure PositionCommand where
  pos : ℚ
  spd : UInt16
  cur : UInt16
  deriving DecidableEq

def commandTo (target speed current : ℚ) : PositionCommand :=
  ⟨target / pi * 180, tenths16 speed, tenths16 current⟩

def MotorConfig.encode (c : MotorConfig) (cmd : PositionCommand) : DeviceMessage :=
  c.packPosition (floatBits cmd.pos) cmd.spd cmd.cur

/-- `SetMotorPosition`, up to the packing. -/
def MotorConfig.positionCommand (c : MotorConfig) (position speed current : ℚ) : PositionCommand :=
  commandTo (c.target position) speed current

/-- `SetMotorDistance`, up to the packing. -/
def MotorDevice.distanceCommand (d : MotorDevice) (distance speed current : ℚ) : PositionCommand :=
  d.positionCommand (d.position + distance) speed current

def MotorConfig.status? (c : MotorConfig) : MotorCall → Option DeviceMessage
  | .onResponse msg => if msg.id ≠ 0 ∧ msg.id = c.motorId.toUInt32 then some msg else none
  | _ => none

/-- The last status frame of the motor among the calls. -/
def MotorConfig.lastStatus (c : MotorConfig) (calls : List MotorCall) : Option DeviceMessage :=
  (calls.filterMap c.status?).getLast?

/-- The frame put on the queue goes to the encoder's position in `msg` plus the distance,
and to where the position that `msg` made `funcOnStatus` report, plus the distance, goes. -/
structure QueuedMotor.MovesFrom (q : QueuedMotor) (msg : DeviceMessage)
    (distance speed current : ℚ) : Prop where
  queued : (q.step (.command (.setMotorDistance distance speed current))).2 =
    [.put (q.encode (q.distanceCommand distance speed current))]
  encoder : q.distanceCommand distance speed current =
    commandTo (clamp ((q.decode msg).position + distance) posMin posMax) speed current
  user : q.distanceCommand distance speed current =
    q.positionCommand ((q.report msg).position + distance) speed current

-- ---------------------------------------------------------------------------
-- The position that is kept
-- ---------------------------------------------------------------------------

theorem QueuedMotor.step_config (q : QueuedMotor) (call : MotorCall) :
    (q.step call).1.toMotorConfig = q.toMotorConfig := by
  cases call with
  | command cmd => rfl
  | onRequest => exact congrArg MotorDevice.toMotorConfig q.onRequest_device
  | onResponse msg => exact MotorDevice.onResponse_config q.toMotorDevice msg

theorem MotorConfig.event_eq_status {c : MotorConfig} {msg : DeviceMessage} {r : MotorReport} :
    c.event msg = .status r ↔ (msg.id ≠ 0 ∧ msg.id = c.motorId.toUInt32) ∧ c.report msg = r := by
  unfold event
  by_cases h0 : msg.id = 0
  · simp [h0]
  · by_cases hid : msg.id = c.motorId.toUInt32
    · rw [if_pos h0, if_pos hid, MotorEvent.status.injEq, and_iff_right ⟨h0, hid⟩]
    · rw [if_pos h0, if_neg hid]
      exact ⟨nofun, fun h => absurd h.1.2 hid⟩

theorem MotorDevice.onResponse_position (d : MotorDevice) (msg : DeviceMessage) :
    (d.onResponse msg).1.position = if msg.id ≠ 0 ∧ msg.id = d.motorId.toUInt32
      then (d.decode msg).position else d.position := by
  cases he : d.event msg with
  | status r => rw [onResponse, he, if_pos (MotorConfig.event_eq_status.mp he).1, onStatus]
  | _ =>
    rw [onResponse, he, if_neg]
    intro h
    have hstatus := MotorConfig.event_eq_status.mpr ⟨h, rfl⟩
    rw [he] at hstatus
    cases hstatus

theorem QueuedMotor.step_position (q : QueuedMotor) (call : MotorCall) :
    (q.step call).1.position =
      ((q.status? call).map fun msg => (q.decode msg).position).getD q.position := by
  cases call with
  | command cmd => rfl
  | onRequest => exact congrArg MotorDevice.position q.onRequest_device
  | onResponse msg =>
    show (q.toMotorDevice.onResponse msg).1.position = _
    rw [MotorDevice.onResponse_position, MotorConfig.status?]
    split_ifs <;> rfl

theorem QueuedMotor.final_position (q : QueuedMotor) (calls : List MotorCall) :
    (Mealy.final step q calls).toMotorConfig = q.toMotorConfig ∧
      (Mealy.final step q calls).position =
        ((q.lastStatus calls).map fun msg => (q.decode msg).position).getD q.position := by
  have hstep (s : QueuedMotor) (call : MotorCall) (h : s.toMotorConfig = q.toMotorConfig) :
      (step s call).1.toMotorConfig = q.toMotorConfig ∧ (step s call).1.position =
        ((q.status? call).map fun msg => (q.decode msg).position).getD s.position :=
    ⟨(s.step_config call).trans h, h ▸ s.step_position call⟩
  constructor
  · exact Mealy.final_invariant (P := fun s : QueuedMotor => s.toMotorConfig = q.toMotorConfig) rfl
      fun s call h => (hstep s call h).1
  · have hlast : (Mealy.final step q calls).position = _ :=
      Mealy.final_last (P := fun s : QueuedMotor => s.toMotorConfig = q.toMotorConfig)
        (f := fun s : QueuedMotor => s.position) rfl hstep
    rw [hlast, MotorConfig.lastStatus, ← List.getLast?_map, List.map_filterMap]

-- ---------------------------------------------------------------------------
-- Offsets
-- ---------------------------------------------------------------------------

theorem clamp_add_eq_iff {lo hi : ℚ} (h : lo < hi) (x offset : ℚ) :
    clamp (x + offset) lo hi = clamp x lo hi ↔
      offset = 0 ∨ (hi ≤ x ∧ hi ≤ x + offset) ∨ (x ≤ lo ∧ x + offset ≤ lo) := by
  unfold clamp
  constructor
  · grind
  · rintro (rfl | ⟨hx, hy⟩ | ⟨hx, hy⟩)
    · rw [add_zero]
    · grind
    · grind

theorem MotorConfig.target_eq_clamp (c : MotorConfig) (position : ℚ) :
    c.target position = clamp (position + c.zeroOffset) posMin posMax := by
  have hrange := pos_range
  unfold target clamp
  grind

theorem commandTo_inj {target target' : ℚ} (speed current : ℚ) :
    commandTo target speed current = commandTo target' speed current ↔ target = target' := by
  have hpi : pi ≠ 0 := by decide +kernel
  simp [commandTo, hpi]

/-- A distance is from the last position heard, in the frame of the user, only where the zero
offset does not show. -/
theorem distance_from_last_status_iff (d : MotorDevice) (calls : List MotorCall)
    (msg : DeviceMessage) (hlast : d.lastStatus calls = some msg) (distance speed current : ℚ) :
    (Mealy.final QueuedMotor.step (.create d) calls).MovesFrom msg distance speed current ↔
      d.zeroOffset = 0 ∨
      (posMax ≤ (d.decode msg).position + distance ∧
        posMax ≤ (d.decode msg).position + distance + d.zeroOffset) ∨
      ((d.decode msg).position + distance ≤ posMin ∧
        (d.decode msg).position + distance + d.zeroOffset ≤ posMin) := by
  obtain ⟨hconfig, hposition⟩ := (QueuedMotor.create d).final_position calls
  generalize Mealy.final QueuedMotor.step (.create d) calls = q at hconfig hposition
  have hd : (QueuedMotor.create d).toMotorConfig = d.toMotorConfig := rfl
  rw [hd] at hconfig hposition
  rw [hlast, Option.map_some, Option.getD_some] at hposition
  have hcommand : q.distanceCommand distance speed current =
      commandTo (clamp ((d.decode msg).position + distance + d.zeroOffset) posMin posMax) speed
        current := by
    rw [MotorDevice.distanceCommand, MotorConfig.positionCommand, MotorConfig.target_eq_clamp,
      hconfig, hposition]
  have huser : q.positionCommand ((q.report msg).position + distance) speed current =
      commandTo (clamp ((d.decode msg).position + distance) posMin posMax) speed current := by
    rw [MotorConfig.positionCommand, MotorConfig.target_eq_clamp, hconfig, MotorConfig.report]
    congr 2
    ring
  rw [← clamp_add_eq_iff pos_range, ← commandTo_inj speed current, ← hcommand]
  constructor
  · intro h
    rw [h.encoder, hconfig]
  · intro h
    refine ⟨rfl, ?_, ?_⟩
    · rw [h, hconfig]
    · rw [h, huser]

def midStatus : DeviceMessage := ⟨1, 0, 8, #v[0, 0x80, 0, 0, 0, 0, 0, 0]⟩

/-- A motor with a zero offset goes to the limit when told to move beyond it. -/
theorem distance_from_last_status_iff_limit :
    (Mealy.final QueuedMotor.step (.create ⟨⟨1, .s4310, 1 / 2⟩, 0, 0, 0, 0⟩)
      [.onResponse midStatus]).MovesFrom midStatus 100 1 1 :=
  (distance_from_last_status_iff ⟨⟨1, .s4310, 1 / 2⟩, 0, 0, 0, 0⟩ [.onResponse midStatus] midStatus
    (by decide) 100 1 1).mpr (.inr (.inl ⟨by decide +kernel, by decide +kernel⟩))

theorem distance_moves_by_offset :
    ¬ (Mealy.final QueuedMotor.step (.create ⟨⟨1, .s4310, 1 / 2⟩, 0, 0, 0, 0⟩)
      [.onResponse midStatus]).MovesFrom midStatus 0 1 1 := by
  intro h
  have hcommand := h.encoder
  revert hcommand
  decide +kernel

end TienKung
