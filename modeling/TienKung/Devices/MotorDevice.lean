import TienKung.Devices.StatusManager
import TienKung.Soem.Message
import Mathlib.Data.Rat.Defs

/-!
# `MotorDevice`: responses

`OnResponse` sorts the frame of a motor's slot by its id: none came, the
motor's own, another one. A frame of its own is decoded by `OnStatus` and
reported; an empty slot is a miss; a foreign frame is neither. Arithmetic is
exact.
-/

namespace TienKung

-- ---------------------------------------------------------------------------
-- Configuration and state
-- ---------------------------------------------------------------------------

/-- `MotorDevice::Type`, an `enum class` over `int`: the configuration casts any
integer to it. -/
inductive MotorType
  | s4310 | m8112 | l10020 | h13715
  | other (value : Int)
  deriving DecidableEq

def MotorType.ofInt : Int → MotorType
  | 1 => .s4310
  | 2 => .m8112
  | 3 => .l10020
  | 4 => .h13715
  | value => .other value

structure MotorConfig where
  motorId : UInt16
  type : MotorType
  zeroOffset : ℚ := 0
  deriving DecidableEq

/-- The last decoded status; `ready` is with the manager's device object. -/
structure MotorDevice extends MotorConfig where
  position : ℚ
  speed : ℚ
  current : ℚ
  temperature : ℚ
  deriving DecidableEq

-- ---------------------------------------------------------------------------
-- Decoding
-- ---------------------------------------------------------------------------

def posMin : ℚ := -25 / 2
def posMax : ℚ := 25 / 2
def spdMin : ℚ := -18
def spdMax : ℚ := 18

/-- `CUR_MAX_*`; the minimum of each type is its negative. A type without a
case has none. -/
def MotorType.curMax? : MotorType → Option ℚ
  | .s4310 => some 30
  | .m8112 => some 60
  | .l10020 => some 70
  | .h13715 => some 220
  | .other _ => none

def uintToFloat (x : Nat) (xMin xMax : ℚ) (bits : Nat) : ℚ :=
  x * (xMax - xMin) / (2 ^ bits - 1) + xMin

/-- What `OnStatus` stores: position in the encoder's frame, speed, current and
temperature. -/
def MotorConfig.decode (c : MotorConfig) (msg : DeviceMessage) : MotorReport :=
  let posInt := (msg.data.get 1).toNat <<< 8 ||| (msg.data.get 2).toNat
  let spdInt := (msg.data.get 3).toNat <<< 4 ||| ((msg.data.get 4).toNat &&& 0xF0) >>> 4
  let curInt := ((msg.data.get 4).toNat &&& 0x0F) <<< 8 ||| (msg.data.get 5).toNat
  { position := uintToFloat posInt posMin posMax 16
    speed := uintToFloat spdInt spdMin spdMax 12
    current := match c.type.curMax? with
      | some curMax => uintToFloat curInt (-curMax) curMax 12
      | none => 0
    temperature := (((msg.data.get 6).toNat : Int) - 50).tdiv 2 }

def MotorConfig.report (c : MotorConfig) (msg : DeviceMessage) : MotorReport :=
  { c.decode msg with position := (c.decode msg).position - c.zeroOffset }

inductive MotorEvent
  | status (report : MotorReport)
  | miss
  | none
  deriving DecidableEq

def MotorConfig.event (c : MotorConfig) (msg : DeviceMessage) : MotorEvent :=
  if msg.id ≠ 0 then
    if msg.id = c.motorId.toUInt32 then .status (c.report msg) else .none
  else .miss

def MotorDevice.onStatus (d : MotorDevice) (msg : DeviceMessage) : MotorDevice :=
  let r := d.decode msg
  { d with
    position := r.position, speed := r.speed, current := r.current, temperature := r.temperature }

def MotorDevice.onResponse (d : MotorDevice) (msg : DeviceMessage) : MotorDevice × MotorEvent :=
  match d.event msg with
  | .status r => (d.onStatus msg, .status r)
  | e => (d, e)

@[simp] theorem MotorDevice.onResponse_event (d : MotorDevice) (msg : DeviceMessage) :
    (d.onResponse msg).2 = d.event msg := by
  unfold onResponse; split <;> simp_all

@[simp] theorem MotorDevice.onResponse_config (d : MotorDevice) (msg : DeviceMessage) :
    (d.onResponse msg).1.toMotorConfig = d.toMotorConfig := by
  unfold onResponse; split <;> rfl

/-- The frame says something about the motor: it is missing or the motor's own. -/
def MotorConfig.Hears (c : MotorConfig) (msg : DeviceMessage) : Prop :=
  msg.id = 0 ∨ msg.id = c.motorId.toUInt32

instance (c : MotorConfig) (msg : DeviceMessage) : Decidable (c.Hears msg) := by
  unfold MotorConfig.Hears; infer_instance

theorem MotorConfig.event_eq_none {c : MotorConfig} {msg : DeviceMessage} :
    c.event msg = .none ↔ ¬ c.Hears msg := by
  unfold event Hears
  by_cases h0 : msg.id = 0
  · simp [h0]
  · by_cases hid : msg.id = c.motorId.toUInt32 <;> simp_all

-- ---------------------------------------------------------------------------
-- The motors of a bus and their manager
-- ---------------------------------------------------------------------------

structure MotorSpec extends MotorConfig where
  name : Int
  deriving DecidableEq

structure MotorBus where
  motors : List MotorDevice
  manager : Manager motorDeviceManager

/-- The motors after registration. Their last status is not initialised:
`garbage` is what its fields hold. -/
def MotorBus.create (garbage : MotorReport) (specs : List MotorSpec) : MotorBus where
  motors := specs.map fun s =>
    ⟨s.toMotorConfig, garbage.position, garbage.speed, garbage.current, garbage.temperature⟩
  manager := .create (specs.map MotorSpec.name)

/-- `OnStatus` becomes ready before it reports. -/
def MotorEvent.callbacks (i : Nat) : MotorEvent → List (Manager.Callback motorDeviceManager)
  | .status r => [.setReady i, .status i r]
  | .miss => [.miss i ()]
  | .none => []

/-- `OnResponse` of the motor at position `i` of the registration order, with
the messages it makes the manager publish. -/
def MotorBus.onResponse : Mealy.Step MotorBus (Nat × DeviceMessage) (List MotorStatus) :=
  fun b (i, msg) =>
    match b.motors[i]? with
    | some d =>
      let (d, event) := d.onResponse msg
      ({ motors := b.motors.set i d
         manager := Mealy.final Manager.callback b.manager (event.callbacks i) },
        Mealy.emitted Manager.callback b.manager (event.callbacks i))
    | none => (b, [])

abbrev Cycle (n : Nat) := Vector DeviceMessage n

def Cycle.visits (c : Cycle n) : List (Nat × DeviceMessage) :=
  c.toList.zipIdx.map fun p => (p.2, p.1)

end TienKung
