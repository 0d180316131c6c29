import TienKung.Lib.Mealy
import TienKung.Soem.Message

/-!
# The Xsens sensors

`xsens_mode1::XsensImuDevice` and `xsens_mode2::XsensImuDevice` assemble a sample
from three or four packets, one for each passage, and keep a flag for each
packet that has come. A miss on a later passage takes down all flags but the
last; a miss on the first passage, which the comment in the source is about,
takes down none.

Arithmetic is exact. `quatToRPY2` is a parameter of mode 1.
-/

namespace TienKung

inductive XsensMode
  | mode1 | mode2
  deriving DecidableEq

def XsensMode.packets : XsensMode → Nat
  | .mode1 => 3
  | .mode2 => 4

structure ImuData where
  orientation : Vector ℚ 4
  angularVel : Vector ℚ 3
  linearAccel : Vector ℚ 3
  rpy : Vector ℚ 3
  deriving DecidableEq

/-- Mode 1 has three passages, ids and flags; it leaves the fourth alone. -/
structure XsensImu where
  passages : Vector Int 4
  ids : Vector UInt16 4
  data : ImuData
  readyMsg : Vector Bool 4
  count : Nat
  ready : Bool

def initTimes : Nat := 100

/-- The constructor; it leaves the sample uninitialised. -/
def XsensImu.create (garbage : ImuData) (passages : Vector Int 4) (ids : Vector UInt16 4) :
    XsensImu :=
  ⟨passages, ids, garbage, .replicate 4 false, 0, false⟩

/-- `XsensImuDevice`, the class that is configured, hands its base the ids as
passages and the passages as ids. -/
def XsensImu.createBase (garbage : ImuData) (passages : Vector Int 4) (ids : Vector UInt16 4) :
    XsensImu :=
  create garbage (ids.map fun id => (id.toNat : Int)) (passages.map UInt16.ofInt)

/-- The configuration gives both the same values, so the exchange does no harm. -/
theorem XsensImu.createBase_eq {garbage : ImuData} {passages : Vector Int 4}
    (h : ∀ i : Fin 4, 0 ≤ passages.get i ∧ passages.get i < 65536) :
    createBase garbage passages (passages.map UInt16.ofInt) =
      create garbage passages (passages.map UInt16.ofInt) := by
  have hp : (passages.map UInt16.ofInt).map (fun id => (id.toNat : Int)) = passages := by
    ext i hi
    have hrange : 0 ≤ passages[i] ∧ passages[i] < 65536 := h ⟨i, hi⟩
    simp only [Vector.getElem_map, UInt16.ofInt, UInt16.toNat_ofNat']
    omega
  rw [createBase, hp]

-- ---------------------------------------------------------------------------
-- Packets
-- ---------------------------------------------------------------------------

def getInt16 (msg : DeviceMessage) (i : Fin 7) : ℚ :=
  (msg.data[i.val].toUInt16 <<< 8 ||| msg.data[i.val + 1].toUInt16).toInt16.toInt

def orientationOf (msg : DeviceMessage) : Vector ℚ 4 :=
  #v[getInt16 msg 2, getInt16 msg 4, getInt16 msg 6, getInt16 msg 0].map (· * (3019 / 100000000))

def angularVelOf (msg : DeviceMessage) : Vector ℚ 3 :=
  #v[getInt16 msg 0, getInt16 msg 2, getInt16 msg 4].map (· * (20 / 10000))

def linearAccelOf (msg : DeviceMessage) : Vector ℚ 3 :=
  #v[getInt16 msg 0, getInt16 msg 2, getInt16 msg 4].map (· * (39 / 10000))

def rpyOf (msg : DeviceMessage) : Vector ℚ 3 :=
  #v[getInt16 msg 0, getInt16 msg 2, getInt16 msg 4].map (· * (78 / 10000) * pi / 180)

def ImuData.store (data : ImuData) (msg : DeviceMessage) : Fin 4 → ImuData
  | 0 => { data with orientation := orientationOf msg }
  | 1 => { data with angularVel := angularVelOf msg }
  | 2 => { data with linearAccel := linearAccelOf msg }
  | 3 => { data with rpy := rpyOf msg }

-- ---------------------------------------------------------------------------
-- Requests and responses
-- ---------------------------------------------------------------------------

namespace XsensImu

variable (mode : XsensMode) (quatToRPY2 : Vector ℚ 4 → Vector ℚ 3)

def packet? (d : XsensImu) (passage : Int) : Option (Fin 4) :=
  [0, 1, 2, 3].find? fun i : Fin 4 => i < mode.packets ∧ passage = d.passages.get i

def sendActiveRequest (d : XsensImu) (passage : Int) (msg : DeviceMessage) : DeviceMessage :=
  match d.packet? mode passage with
  | some i => { msg with rtr := 0, id := (d.ids.get i).toUInt32, dlc := 0 }
  | none => msg

def onRequest (d : XsensImu) (passage : Int) (msg : DeviceMessage) : XsensImu × DeviceMessage :=
  if d.count < initTimes then ({ d with count := d.count + 1 }, d.sendActiveRequest mode passage msg)
  else (d, msg)

/-- All flags but the last go down. The test of the source whether one is up
decides on a log line only. -/
def abandon (d : XsensImu) : XsensImu :=
  { d with readyMsg := .ofFn fun i => if i.val + 1 < mode.packets then false else d.readyMsg.get i }

def Complete (d : XsensImu) : Prop := ∀ i : Fin 4, i < mode.packets → d.readyMsg.get i = true

instance (d : XsensImu) : Decidable (d.Complete mode) := by unfold Complete; infer_instance

def sample (d : XsensImu) : ImuData :=
  match mode with
  | .mode1 => { d.data with rpy := quatToRPY2 d.data.orientation }
  | .mode2 => d.data

def publish (d : XsensImu) : XsensImu × List ImuData :=
  if d.Complete mode then
    ({ d with data := d.sample mode quatToRPY2, ready := true, readyMsg := .replicate 4 false },
      [d.sample mode quatToRPY2])
  else (d, [])

def receive (d : XsensImu) (passage : Int) (msg : DeviceMessage) : XsensImu :=
  match d.packet? mode passage with
  | some i => { d with data := d.data.store msg i, readyMsg := Cells.put d.readyMsg i true }
  | none => d

def onResponse : Mealy.Step XsensImu (Int × DeviceMessage) ImuData := fun d (passage, msg) =>
  if msg.id = 0 then
    if passage ≠ d.passages.get 0 then (d.abandon mode, []) else (d, [])
  else if initTimes ≤ d.count then (d.receive mode passage msg).publish mode quatToRPY2
  else (d, [])

-- ---------------------------------------------------------------------------
-- Bus cycles
-- ---------------------------------------------------------------------------

def requests (d : XsensImu) : XsensImu :=
  [0, 1, 2, 3].foldl (fun d (i : Fin 4) => (d.onRequest mode (d.passages.get i) .zero).1) d

def visits (passages : Vector Int 4) (resp : Vector DeviceMessage 4) : List (Int × DeviceMessage) :=
  [0, 1, 2, 3].map fun i : Fin 4 => (passages.get i, resp.get i)

/-- A bus cycle: the requests of the four passages, then their responses. -/
def cycle : Mealy.Step XsensImu (Vector DeviceMessage 4) ImuData := fun d resp =>
  (Mealy.final (onResponse mode quatToRPY2) (d.requests mode) (visits d.passages resp),
    Mealy.emitted (onResponse mode quatToRPY2) (d.requests mode) (visits d.passages resp))

end XsensImu

end TienKung
