import TienKung.Soem.Message

/-!
# `SoemMaster`

Devices are registered under a slave and a passage, and each cycle collects
their requests, writes one frame to each slave found on the bus, reads one back
and hands the responses out. Every array access of the two cycle functions is
checked here: an index outside its bounds ends the run in `OutOfBounds`, where
the source goes on undefined.

A device is what its two virtual functions do to the world and to the slot they
are given.
-/

namespace TienKung

-- ---------------------------------------------------------------------------
-- State
-- ---------------------------------------------------------------------------

/-- `SoemMaster::Mode`, an `enum class` over `int`: the configuration casts any
integer to it. -/
inductive Mode
  | standard | extended | timeSharing
  | other (value : Int)
  deriving DecidableEq

def Mode.ofInt : Int → Mode
  | 0 => .standard
  | 1 => .extended
  | 2 => .timeSharing
  | value => .other value

structure RegisteredDevice where
  slave : Int
  passage : Int
  /-- The device object. -/
  dev : Nat
  mode : Mode
  deriving DecidableEq

abbrev slaveNumber : Nat := 6

structure SoemMaster where
  devices : List RegisteredDevice
  vecCurTsMode : List Mode
  slaveModes : List Mode
  reqBuff : Vector SlaveMessage slaveNumber
  respBuff : Vector SlaveMessage slaveNumber

/-- The master after `Init`, with the devices registered before or after. -/
def SoemMaster.init (devices : List RegisteredDevice) (slaveModes : List Mode) : SoemMaster where
  devices := devices
  vecCurTsMode := .replicate slaveModes.length .standard
  slaveModes := slaveModes
  reqBuff := .replicate _ .zero
  respBuff := .replicate _ .zero

inductive Buffer
  | slaveModes | vecCurTsMode | reqBuff | respBuff | dev
  deriving DecidableEq

structure OutOfBounds where
  buffer : Buffer
  index : Int
  deriving DecidableEq

/-- `OnRequest` and `OnResponse` of the device objects, which read and write
the slot they are given. -/
structure DeviceCode (σ : Type) where
  onRequest : σ → (dev : Nat) → (passage : Int) → DeviceMessage → σ × DeviceMessage
  onResponse : σ → (dev : Nat) → (passage : Int) → DeviceMessage → σ × DeviceMessage

inductive BusEvent
  | request (rd : RegisteredDevice)
  | response (rd : RegisteredDevice)
  | write (slave : Nat) (frame : SlaveMessage)
  deriving DecidableEq

structure Bus (σ : Type) where
  master : SoemMaster
  world : σ
  log : List BusEvent

variable {σ : Type}

-- ---------------------------------------------------------------------------
-- Accesses
-- ---------------------------------------------------------------------------

def inArray (i : Int) (h : 0 ≤ i ∧ i < (size : Nat)) : Fin size := ⟨i.toNat, by omega⟩

@[simp] theorem inArray_val (i : Int) (h : 0 ≤ i ∧ i < (size : Nat)) :
    (inArray i h).val = i.toNat := rfl

def index (buffer : Buffer) (size : Nat) (i : Int) : Except OutOfBounds (Fin size) :=
  if h : 0 ≤ i ∧ i < size then .ok (inArray i h) else .error ⟨buffer, i⟩

def SoemMaster.slaveMode (m : SoemMaster) (slave : Int) : Except OutOfBounds Mode := do
  return m.slaveModes[← index .slaveModes m.slaveModes.length slave]

def SoemMaster.curTsMode (m : SoemMaster) (slave : Int) : Except OutOfBounds Mode := do
  return m.vecCurTsMode[← index .vecCurTsMode m.vecCurTsMode.length slave]

/-- The mode test of the two device loops. -/
def SoemMaster.serves (m : SoemMaster) (rd : RegisteredDevice) : Except OutOfBounds Bool := do
  match ← m.slaveMode rd.slave with
  | .standard | .extended => return (← m.slaveMode rd.slave) = rd.mode
  | .timeSharing => return (← m.curTsMode rd.slave) = rd.mode
  | .other _ => return false

def visit (serve : Bus σ → RegisteredDevice → Except OutOfBounds (Bus σ)) (b : Bus σ)
    (rd : RegisteredDevice) : Except OutOfBounds (Bus σ) := do
  if ← b.master.serves rd then serve b rd else return b

-- ---------------------------------------------------------------------------
-- Requests
-- ---------------------------------------------------------------------------

/-- `reqBuff[slave].dev[passage - 1]` handed to `OnRequest`. -/
def request (code : DeviceCode σ) (b : Bus σ) (rd : RegisteredDevice) :
    Except OutOfBounds (Bus σ) := do
  let slave ← index .reqBuff slaveNumber rd.slave
  let slot ← index .dev 6 (rd.passage - 1)
  let slotMsg := (b.master.reqBuff.get slave).dev.get slot
  let (world, msg) := code.onRequest b.world rd.dev rd.passage slotMsg
  return { b with
    master := { b.master with reqBuff := writeSlot b.master.reqBuff slave slot msg }
    world := world
    log := b.log ++ [.request rd] }

def setCanIde (b : Bus σ) (slave : Nat) : Except OutOfBounds (Bus σ) := do
  let slave ← index .reqBuff slaveNumber slave
  let frame := { b.master.reqBuff.get slave with canIde := 1 }
  return { b with master := { b.master with reqBuff := Cells.put b.master.reqBuff slave frame } }

def markFrame (b : Bus σ) (slave : Nat) : Except OutOfBounds (Bus σ) := do
  match ← b.master.slaveMode slave with
  | .extended => setCanIde b slave
  | .timeSharing =>
    if (← b.master.curTsMode slave) = .extended then setCanIde b slave else return b
  | _ => return b

def writeFrame (b : Bus σ) (slave : Nat) : Except OutOfBounds (Bus σ) := do
  let b ← markFrame b slave
  let i ← index .reqBuff slaveNumber slave
  return { b with log := b.log ++ [.write slave (b.master.reqBuff.get i)] }

def getRequestFromDevices (code : DeviceCode σ) (ecSlavecount : Nat) (b : Bus σ) :
    Except OutOfBounds (Bus σ) := do
  let b := { b with master := { b.master with reqBuff := .replicate _ .zero } }
  let b ← b.master.devices.foldlM (visit (request code)) b
  (List.range ecSlavecount).foldlM writeFrame b

-- ---------------------------------------------------------------------------
-- Responses
-- ---------------------------------------------------------------------------

def readFrame (inputs : Nat → SlaveMessage) (b : Bus σ) (slave : Nat) :
    Except OutOfBounds (Bus σ) := do
  let i ← index .respBuff slaveNumber slave
  return { b with
    master := { b.master with respBuff := Cells.put b.master.respBuff i (inputs slave) } }

/-- `respBuff[slave].dev[passage - 1]` handed to `OnResponse`. -/
def response (code : DeviceCode σ) (b : Bus σ) (rd : RegisteredDevice) :
    Except OutOfBounds (Bus σ) := do
  let slave ← index .respBuff slaveNumber rd.slave
  let slot ← index .dev 6 (rd.passage - 1)
  let slotMsg := (b.master.respBuff.get slave).dev.get slot
  let (world, msg) := code.onResponse b.world rd.dev rd.passage slotMsg
  return { b with
    master := { b.master with respBuff := writeSlot b.master.respBuff slave slot msg }
    world := world
    log := b.log ++ [.response rd] }

def toggle (b : Bus σ) (slave : Nat) : Except OutOfBounds (Bus σ) := do
  if (← b.master.slaveMode slave) = .timeSharing then
    let cur ← b.master.curTsMode slave
    let next := if cur = .standard then Mode.extended else .standard
    return { b with
      master := { b.master with vecCurTsMode := b.master.vecCurTsMode.set slave next } }
  else return b

def sendResponseToDevices (code : DeviceCode σ) (ecSlavecount : Nat) (inputs : Nat → SlaveMessage)
    (b : Bus σ) : Except OutOfBounds (Bus σ) := do
  let b := { b with master := { b.master with respBuff := .replicate _ .zero } }
  let b ← (List.range ecSlavecount).foldlM (readFrame inputs) b
  let b ← b.master.devices.foldlM (visit (response code)) b
  (List.range ecSlavecount).foldlM toggle b

-- ---------------------------------------------------------------------------
-- Cycles
-- ---------------------------------------------------------------------------

def runCycle (code : DeviceCode σ) (ecSlavecount : Nat) (inputs : Nat → SlaveMessage) (b : Bus σ) :
    Except OutOfBounds (Bus σ) := do
  let b ← getRequestFromDevices code ecSlavecount { b with log := [] }
  sendResponseToDevices code ecSlavecount inputs b

def run (code : DeviceCode σ) (ecSlavecount : Nat) (b : Bus σ) :
    List (Nat → SlaveMessage) → Except OutOfBounds (List (List BusEvent))
  | [] => return []
  | inputs :: rest => do
    let b ← runCycle code ecSlavecount inputs b
    return b.log :: (← run code ecSlavecount b rest)

end TienKung
