import TienKung.Devices.XsensImu

/-!
# The two sensors behind a filter

`RmImuDevice` and `XsensImuHRDevice` get a gyro frame on their first passage and
an acceleration frame on their second one, and filter the two when the
acceleration has come. The first class knows its frames by literal ids and the
second by passage; their flags are crossed: flag 0, the one a miss on the second
passage takes down, is that of the gyro in the first class and that of the
acceleration in the second.

Arithmetic is exact. The filters are arbitrary functions.
-/

namespace TienKung

-- ---------------------------------------------------------------------------
-- Filtering
-- ---------------------------------------------------------------------------

/-- `ubt_hw::ImuData` -/
structure FilteredData where
  stamp : Int
  seq : UInt64
  orientation : Vector ℚ 4
  angularVel : Vector ℚ 3
  linearAccel : Vector ℚ 3
  rpy : Vector ℚ 3
  deriving DecidableEq

/-- `filterUpdate` on the filters of an object and what is read from them. -/
structure ImuFilters (F : Type) where
  filterUpdate : F → (time : Int) → (gyro accel : Vector ℚ 3) → F
  getOrientation : F → Vector ℚ 4
  avF : F → Vector ℚ 3
  laF : F → Vector ℚ 3
  quatToRPY : Vector ℚ 4 → Vector ℚ 3

/-- What the base class `RmImu` keeps. -/
structure RmImu (F : Type) where
  av : Vector ℚ 3
  la : Vector ℚ 3
  filters : F
  data : FilteredData

variable {F : Type} (f : ImuFilters F)

namespace RmImu

def updateGyr (imu : RmImu F) (gyr : Vector ℚ 3) : RmImu F := { imu with av := gyr }

def updateAcc (imu : RmImu F) (stamp : Int) (acc : Vector ℚ 3) : RmImu F :=
  let filters := f.filterUpdate imu.filters stamp imu.av acc
  { imu with
    la := acc
    filters
    data :=
      { stamp
        seq := imu.data.seq + 1
        orientation := f.getOrientation filters
        angularVel := f.avF filters
        linearAccel := f.laF filters
        rpy := f.quatToRPY (f.getOrientation filters) } }

def int16At (msg : DeviceMessage) (i : Fin 7) : ℚ :=
  ((msg.data.get i.succ).toUInt16 <<< 8 ||| (msg.data.get i.castSucc).toUInt16).toInt16.toInt

/-- The three axes of a packet, at bytes 0, 2 and 4. -/
def axes (read : Fin 7 → ℚ) (scale : ℚ) : Vector ℚ 3 :=
  .ofFn fun i => read ⟨2 * i.val, by omega⟩ * scale

def gyroOf (msg : DeviceMessage) : Vector ℚ 3 := axes (int16At msg) (10652644 / 10000000000)
def accelOf (msg : DeviceMessage) : Vector ℚ 3 := axes (int16At msg) (17944335 / 10000000000)

def readStatus (imu : RmImu F) (now : Int) (msg : DeviceMessage) : RmImu F :=
  let imu := if msg.id = 5 then imu.updateGyr (gyroOf msg) else imu
  if msg.id = 6 then imu.updateAcc f now (accelOf msg) else imu

end RmImu

-- ---------------------------------------------------------------------------
-- Devices
-- ---------------------------------------------------------------------------

inductive ImuClass
  | rmImu | xsensHR
  deriving DecidableEq

structure ImuConfig where
  passage1 : Int
  id1 : UInt16
  passage2 : Int
  id2 : UInt16
  passages_ne : passage1 ≠ passage2
  ids_ne : id1 ≠ id2

structure ImuDevice (F : Type) where
  /-- `readyMsg[0]` and `readyMsg[1]` -/
  readyMsg : Bool × Bool
  imu : RmImu F
  count : Nat
  ready : Bool

namespace ImuDevice

/-- The constructor; it leaves the base class uninitialised but for its data. -/
def create (filters : F) (av la : Vector ℚ 3) : ImuDevice F :=
  ⟨(false, false), ⟨av, la, filters, 0, 0, .replicate 4 0, .replicate 3 0, .replicate 3 0,
    .replicate 3 0⟩, 0, false⟩

variable (cfg : ImuConfig)

def sendActiveRequest (passage : Int) (msg : DeviceMessage) : DeviceMessage :=
  { msg with
    rtr := 0, id := (if passage = cfg.passage1 then cfg.id1 else cfg.id2).toUInt32, dlc := 0 }

def onRequest (d : ImuDevice F) (passage : Int) (msg : DeviceMessage) :
    ImuDevice F × DeviceMessage :=
  if d.count < initTimes then ({ d with count := d.count + 1 }, sendActiveRequest cfg passage msg)
  else (d, msg)

def abandon (d : ImuDevice F) (passage : Int) : ImuDevice F :=
  if passage ≠ cfg.passage1 then { d with readyMsg := (false, d.readyMsg.2) } else d

end ImuDevice

def RmImuDevice.receive (cfg : ImuConfig) (d : ImuDevice F) (now : Int) (msg : DeviceMessage) :
    ImuDevice F :=
  let d := { d with imu := d.imu.readStatus f now msg }
  if msg.id = cfg.id2.toUInt32 then { d with readyMsg := (d.readyMsg.1, true) }
  else if msg.id = cfg.id1.toUInt32 then { d with readyMsg := (true, d.readyMsg.2) }
  else d

namespace XsensImuHRDevice

def gyroOf (msg : DeviceMessage) : Vector ℚ 3 := RmImu.axes (getInt16 msg) (20 / 10000)
def accelOf (msg : DeviceMessage) : Vector ℚ 3 := RmImu.axes (getInt16 msg) (39 / 10000)

def receive (cfg : ImuConfig) (d : ImuDevice F) (passage now : Int) (msg : DeviceMessage) :
    ImuDevice F :=
  if passage = cfg.passage1 then
    { d with imu := d.imu.updateGyr (gyroOf msg), readyMsg := (d.readyMsg.1, true) }
  else if passage = cfg.passage2 then
    { d with imu := d.imu.updateAcc f now (accelOf msg), readyMsg := (true, d.readyMsg.2) }
  else d

end XsensImuHRDevice

namespace ImuDevice

variable (kind : ImuClass) (cfg : ImuConfig)

def publish (d : ImuDevice F) : ImuDevice F × List FilteredData :=
  if d.readyMsg.1 ∧ d.readyMsg.2 then
    ({ d with ready := true, readyMsg := (false, false) }, [d.imu.data])
  else (d, [])

def onResponse (d : ImuDevice F) (passage now : Int) (msg : DeviceMessage) :
    ImuDevice F × List FilteredData :=
  if msg.id = 0 then (d.abandon cfg passage, [])
  else if initTimes ≤ d.count then
    match kind with
    | .rmImu => (RmImuDevice.receive f cfg d now msg).publish
    | .xsensHR => (XsensImuHRDevice.receive f cfg d passage now msg).publish
  else (d, [])

end ImuDevice

-- ---------------------------------------------------------------------------
-- Bus cycles
-- ---------------------------------------------------------------------------

/-- What the two passages deliver, a frame or a miss, and when they are read. -/
structure ImuCycle where
  first : Option DeviceMessage
  second : Option DeviceMessage
  time1 : Int
  time2 : Int

def delivered (id : UInt16) : Option DeviceMessage → DeviceMessage
  | some frame => { frame with id := id.toUInt32 }
  | none => .zero

def ImuCycle.gyro (c : ImuCycle) (cfg : ImuConfig) : DeviceMessage := delivered cfg.id1 c.first

def ImuCycle.accel (c : ImuCycle) (cfg : ImuConfig) : DeviceMessage := delivered cfg.id2 c.second

namespace ImuDevice

def requests (cfg : ImuConfig) (d : ImuDevice F) : ImuDevice F :=
  ((d.onRequest cfg cfg.passage1 .zero).1.onRequest cfg cfg.passage2 .zero).1

def responses (kind : ImuClass) (cfg : ImuConfig) (d : ImuDevice F) (c : ImuCycle) :
    ImuDevice F × List FilteredData :=
  let (d, out1) := d.onResponse f kind cfg cfg.passage1 c.time1 (c.gyro cfg)
  let (d, out2) := d.onResponse f kind cfg cfg.passage2 c.time2 (c.accel cfg)
  (d, out1 ++ out2)

def cycle (kind : ImuClass) (cfg : ImuConfig) :
    Mealy.Step (ImuDevice F) ImuCycle FilteredData := fun d c =>
  (d.requests cfg).responses f kind cfg c

end ImuDevice

end TienKung
