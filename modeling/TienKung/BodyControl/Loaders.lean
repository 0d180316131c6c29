import TienKung.Soem.Bounds

/-!
# What the loaders register

`onInit` reads the configuration files and registers every device it finds with
the master, under the slave and the passages of its mapping. The managers take
the slave as a `uint16_t`, the sensors and the power board as an `int`; nobody
checks either, nor the passages, nor the length of `slave_mode`.

A row of a mapping is the list of its columns. The columns that hold reals are
not registered, so any integer stands for them.
-/

namespace TienKung

-- ---------------------------------------------------------------------------
-- Configuration
-- ---------------------------------------------------------------------------

/-- `imu_mapping` and `xhr_imu_mapping`; a key may be missing. -/
structure ImuMapping where
  slave : Option Int
  id1 : Option Int
  id2 : Option Int
  id3 : Option Int

structure XsensImuMapping where
  slave : Option Int
  id1 : Option Int
  id2 : Option Int
  id3 : Option Int
  id4 : Option Int

structure PowerMapping where
  slave : Option Int
  passage : Option Int
  id : Option Int

structure Config where
  slaveMode : Option (List Int) := none
  imuMapping : Option ImuMapping := none
  xsensImuMapping : Option XsensImuMapping := none
  xhrImuMapping : Option ImuMapping := none
  motorsMapping : Option (List (List Int)) := none
  sriMapping : Option (List (List Int)) := none
  powerMapping : Option PowerMapping := none
  handMapping : Option (List (List Int)) := none
  zeMotorsMapping : Option (List (List Int)) := none
  eyMotorsMapping : Option (List (List Int)) := none

/-- `vecSlaveMode` after `LoadEthercatParam`. -/
def Config.vecSlaveMode (c : Config) : List Mode := (c.slaveMode.getD []).map Mode.ofInt

-- ---------------------------------------------------------------------------
-- Registration
-- ---------------------------------------------------------------------------

structure Registry where
  devices : List RegisteredDevice := []
  made : Nat := 0

def Registry.registerDevice (r : Registry) (slave : Int) (passages : List Int)
    (mode : Mode := .standard) : Registry where
  devices := r.devices ++ passages.map fun passage => ⟨slave, passage, r.made, mode⟩
  made := r.made + 1

/-- The `uint16_t slave` of the managers. -/
def toUint16 (slave : Int) : Int := (UInt16.ofInt slave).toNat

def Registry.loadRows (newDevice : Registry → List Int → Registry) (rows : Option (List (List Int)))
    (r : Registry) : Registry := (rows.getD []).foldl newDevice r

/-- The two sensors with an `imu_mapping`; `id3` must be there but is not used. -/
def Registry.loadImu (mapping : Option ImuMapping) (r : Registry) : Registry :=
  match mapping with
  | some ⟨some slave, some id1, some id2, some _⟩ => r.registerDevice slave [id1, id2]
  | _ => r

def loadRmImu (c : Config) : Registry → Registry := Registry.loadImu c.imuMapping

def loadXsensImu (c : Config) (r : Registry) : Registry :=
  match c.xsensImuMapping with
  | some ⟨some slave, some id1, some id2, some id3, some id4⟩ =>
    r.registerDevice slave [id1, id2, id3, id4]
  | _ => r

def loadXsensHrImu (c : Config) : Registry → Registry := Registry.loadImu c.xhrImuMapping

def loadMotors (c : Config) : Registry → Registry :=
  Registry.loadRows (fun r row =>
    match row with
    | [_name, slave, passage, _id, _type] => r.registerDevice (toUint16 slave) [passage]
    | [_name, slave, passage, _id, _type, _offset] => r.registerDevice (toUint16 slave) [passage]
    | _ => r) c.motorsMapping

def loadSriSensor (c : Config) : Registry → Registry :=
  Registry.loadRows (fun r row =>
    match row with
    | [_name, slave, _idCmd, passageCmd, _id0, passage0, _id1, passage1, _id2, passage2] =>
      r.registerDevice slave [passageCmd, passage0, passage1, passage2]
    | _ => r) c.sriMapping

def loadPowerBoard (c : Config) (r : Registry) : Registry :=
  match c.powerMapping with
  | some ⟨some slave, some passage, some _⟩ => r.registerDevice slave [passage]
  | _ => r

def loadTsinghuaHand (c : Config) : Registry → Registry :=
  Registry.loadRows (fun r row =>
    match row with
    | [_name, slave, passage, _id] => r.registerDevice (toUint16 slave) [passage] .extended
    | _ => r) c.handMapping

def loadZeroErrorMotors (c : Config) : Registry → Registry :=
  Registry.loadRows (fun r row =>
    match row with
    | [_name, slave, passageReq, passageResp, _id, _mode, _type, _kt] =>
      r.registerDevice (toUint16 slave) [passageReq, passageResp]
    | [_name, slave, passageReq, passageResp, _id, _mode, _type, _kt, _offset] =>
      r.registerDevice (toUint16 slave) [passageReq, passageResp]
    | _ => r) c.zeMotorsMapping

def loadEyouMotors (c : Config) : Registry → Registry :=
  Registry.loadRows (fun r row =>
    match row with
    | [_name, slave, passageReq, passageResp, _id] =>
      r.registerDevice (toUint16 slave) [passageReq, passageResp]
    | _ => r) c.eyMotorsMapping

def Config.registrations (c : Config) : List RegisteredDevice :=
  let r : Registry := {}
  let r := loadRmImu c r
  let r := loadXsensImu c r
  let r := loadXsensHrImu c r
  let r := loadMotors c r
  let r := loadSriSensor c r
  let r := loadPowerBoard c r
  let r := loadTsinghuaHand c r
  let r := loadZeroErrorMotors c r
  let r := loadEyouMotors c r
  r.devices

-- ---------------------------------------------------------------------------
-- Which configurations are safe
-- ---------------------------------------------------------------------------

def Config.bus {σ : Type} (c : Config) (world : σ) : Bus σ :=
  ⟨.init c.registrations c.vecSlaveMode, world, []⟩

/-- A configured robot stays within its arrays in every cycle of every run
exactly when its registrations and the number of slaves are in bounds. -/
theorem config_run_ok_iff {σ : Type} (code : DeviceCode σ) (world : σ) (config : Config)
    (ecSlavecount : Nat) :
    (∀ inputs, ∃ logs, run code ecSlavecount (config.bus world) inputs = .ok logs) ↔
      RunInBounds config.registrations config.vecSlaveMode ecSlavecount :=
  run_ok_iff code world config.registrations config.vecSlaveMode ecSlavecount

/-- A motor on passage 7 is loaded and registered; its first request indexes
`dev[6]`. -/
theorem not_config_run_ok :
    ¬ ∀ (code : DeviceCode Unit) (config : Config) (ecSlavecount : Nat)
      (inputs : List (Nat → SlaveMessage)),
      ∃ logs, run code ecSlavecount (config.bus ()) inputs = .ok logs := by
  intro h
  obtain ⟨logs, hrun⟩ := h ⟨fun w _ _ msg => (w, msg), fun w _ _ msg => (w, msg)⟩
    { slaveMode := some [0], motorsMapping := some [[1, 0, 7, 1, 1]] } 1 [fun _ => .zero]
  cases hrun

end TienKung
