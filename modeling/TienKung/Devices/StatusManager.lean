import TienKung.Lib.Flags
import TienKung.Lib.Mealy
import Mathlib.Data.Rat.Defs

/-!
# The four status aggregators

`MotorDeviceManager`, `ZeroErrMotorDevMgr`, `EyouMotorDevMgr` and
`TsinghuaHandDeviceManager` are one class written four times. `NewDevice`
creates a device whose callbacks capture the manager and the device's name,
`CheckAndSendStatus` publishes the message being built when every device has
become ready once and every flag of `statusReady` is up. A `ManagerKind` holds
what the four differ in: the key type of the device map, the device's report,
the message entry built from it, and whether there is a miss callback.

Floating-point values are rationals, without rounding.
-/

namespace TienKung

-- ---------------------------------------------------------------------------
-- Messages
-- ---------------------------------------------------------------------------

structure MotorStatus where
  name : UInt16
  pos : ℚ
  speed : ℚ
  current : ℚ
  temperature : ℚ
  deriving DecidableEq

structure TsHandStatus where
  name : Int32
  rotationAngle : UInt16
  bendAngle : List UInt16
  deriving DecidableEq

/-- What `MotorDevice` passes to `funcOnStatus`. -/
structure MotorReport where
  position : ℚ
  speed : ℚ
  current : ℚ
  temperature : ℚ
  deriving DecidableEq

/-- What the two CANopen drivers pass to `funcOnStatus`. -/
structure MotorStatusMessage where
  pos : ℚ := 0
  vel : ℚ := 0
  cur : ℚ := 0
  deriving DecidableEq

structure FingerStatusMessage where
  thumbRotation : UInt32
  thumbBend : UInt32
  foreBend : UInt32
  middleBend : UInt32
  ringBend : UInt32
  littleBend : UInt32
  deriving DecidableEq

-- ---------------------------------------------------------------------------
-- Kinds of manager
-- ---------------------------------------------------------------------------

structure ManagerKind where
  Key : Type
  [decEqKey : DecidableEq Key]
  key : Int → Key
  Report : Type
  Entry : Type
  entry : Int → Report → Entry
  /-- The `name` field of an entry, and the value a device's name takes there. -/
  Name : Type
  [decEqName : DecidableEq Name]
  nameOf : Entry → Name
  wireName : Int → Name
  nameOf_entry : ∀ name report, nameOf (entry name report) = wireName name
  /-- The arguments of the miss callback; empty where there is none. -/
  Miss : Type

attribute [instance] ManagerKind.decEqKey ManagerKind.decEqName

abbrev motorDeviceManager : ManagerKind where
  Key := UInt16
  key := UInt16.ofInt
  Report := MotorReport
  Entry := MotorStatus
  entry name r := ⟨UInt16.ofInt name, r.position, r.speed, r.current, r.temperature⟩
  Name := UInt16
  nameOf := MotorStatus.name
  wireName := UInt16.ofInt
  nameOf_entry _ _ := rfl
  Miss := Unit

/-- The two CANopen managers leave the temperature at its default. -/
abbrev canopenMotorDevMgr : ManagerKind where
  Key := UInt16
  key := UInt16.ofInt
  Report := MotorStatusMessage
  Entry := MotorStatus
  entry name r := ⟨UInt16.ofInt name, r.pos, r.vel, r.cur, 0⟩
  Name := UInt16
  nameOf := MotorStatus.name
  wireName := UInt16.ofInt
  nameOf_entry _ _ := rfl
  Miss := Empty

abbrev zeroErrMotorDevMgr : ManagerKind := canopenMotorDevMgr

abbrev eyouMotorDevMgr : ManagerKind := canopenMotorDevMgr

abbrev tsinghuaHandDeviceManager : ManagerKind where
  Key := Int
  key := id
  Report := FingerStatusMessage
  Entry := TsHandStatus
  entry name r := ⟨Int32.ofInt name, r.thumbRotation.toUInt16, [r.thumbBend.toUInt16,
    r.foreBend.toUInt16, r.middleBend.toUInt16, r.ringBend.toUInt16, r.littleBend.toUInt16]⟩
  Name := Int32
  nameOf := TsHandStatus.name
  wireName := Int32.ofInt
  nameOf_entry _ _ := rfl
  Miss := Empty

inductive Aggregator
  | motorDeviceManager | zeroErrMotorDevMgr | eyouMotorDevMgr | tsinghuaHandDeviceManager
  deriving DecidableEq

abbrev Aggregator.kind : Aggregator → ManagerKind
  | .motorDeviceManager => TienKung.motorDeviceManager
  | .zeroErrMotorDevMgr => TienKung.zeroErrMotorDevMgr
  | .eyouMotorDevMgr => TienKung.eyouMotorDevMgr
  | .tsinghuaHandDeviceManager => TienKung.tsinghuaHandDeviceManager

-- ---------------------------------------------------------------------------
-- The manager
-- ---------------------------------------------------------------------------

/-- A device object as its manager sees it: the name its callbacks captured,
and `SoemDevice::ready`. -/
structure ManagedDevice where
  name : Int
  ready : Bool
  deriving DecidableEq

structure Manager (K : ManagerKind) where
  /-- The device objects, in the order `NewDevice` made them. -/
  devs : List ManagedDevice
  /-- `mapByName` (`devs` in the hand manager): keys to device objects. -/
  mapByName : List (K.Key × Nat)
  statusReady : Flags Int
  msgStatus : List K.Entry
  ready : Bool

namespace Manager

variable {K : ManagerKind}

def init : Manager K := ⟨[], [], .empty, [], false⟩

/-- `unordered_map::insert` keeps the entry a key already has. -/
def newDevice (m : Manager K) (name : Int) : Manager K :=
  { m with
    devs := m.devs ++ [⟨name, false⟩]
    mapByName := if K.key name ∈ m.mapByName.map Prod.fst then m.mapByName
      else m.mapByName ++ [(K.key name, m.devs.length)]
    statusReady := m.statusReady.set name false }

def create (names : List Int) : Manager K := names.foldl newDevice init

def deviceReady (m : Manager K) (i : Nat) : Bool := (m.devs[i]?).any ManagedDevice.ready

def isReady (m : Manager K) : Manager K × Bool :=
  if m.ready then (m, true)
  else
    let readyAllDevices := m.mapByName.all fun e => m.deviceReady e.2
    ({ m with ready := readyAllDevices }, readyAllDevices)

/-- The second component lists the calls of `funcOnStatusReady`. -/
def checkAndSendStatus (m : Manager K) : Manager K × List (List K.Entry) :=
  let (m, ready) := m.isReady
  if ready then
    if m.statusReady.all then
      ({ m with statusReady := m.statusReady.clear, msgStatus := [] }, [m.msgStatus])
    else (m, [])
  else (m, [])

/-- The closure `NewDevice` passes as `funcOnStatus`. -/
def onStatus (m : Manager K) (name : Int) (report : K.Report) : Manager K × List (List K.Entry) :=
  checkAndSendStatus { m with
    msgStatus := m.msgStatus ++ [K.entry name report]
    statusReady := m.statusReady.set name true }

/-- The closure `MotorDeviceManager::NewDevice` passes as `funcOnMiss`. -/
def onMiss (m : Manager K) (name : Int) : Manager K × List (List K.Entry) :=
  checkAndSendStatus { m with statusReady := m.statusReady.set name true }

def setReady (m : Manager K) (i : Nat) : Manager K :=
  { m with devs := m.devs.modify i fun d => { d with ready := true } }

/-- What a device object does to its manager. A device is named by its
position in the order of `NewDevice`. -/
inductive Callback (K : ManagerKind)
  | setReady (dev : Nat)
  | status (dev : Nat) (report : K.Report)
  | miss (dev : Nat) (why : K.Miss)

def callback (m : Manager K) : Callback K → Manager K × List (List K.Entry)
  | .setReady i => (m.setReady i, [])
  | .status i report =>
    match m.devs[i]? with
    | some d => m.onStatus d.name report
    | none => (m, [])
  | .miss i _ =>
    match m.devs[i]? with
    | some d => m.onMiss d.name
    | none => (m, [])

def published (K : ManagerKind) (names : List Int) (cbs : List (Callback K)) :
    List (List K.Entry) := Mealy.emitted callback (create names) cbs

def after (K : ManagerKind) (names : List Int) (cbs : List (Callback K)) : Manager K :=
  Mealy.final callback (create names) cbs

def Callback.entry? (names : List Int) : Callback K → Option K.Entry
  | .status i report => names[i]?.map fun name => K.entry name report
  | _ => none

def Callback.flag? (names : List Int) : Callback K → Option Int
  | .status i _ | .miss i _ => names[i]?
  | .setReady _ => none

def received (names : List Int) (cbs : List (Callback K)) : List K.Entry :=
  cbs.filterMap (Callback.entry? names)

end Manager

end TienKung
