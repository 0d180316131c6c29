import TienKung.Lib.Cells
import TienKung.Soem.Message

/-!
# `SriSensorDevice`

A sample of six floats comes in three frames, one for each data passage. The
flags go down when a sample is handed out; a miss takes none down. The floats
are copied from the frames and stand here as their bits.
-/

namespace TienKung

structure SriSensorDevice where
  idCmd : UInt16
  passageCmd : Int
  idData : Vector UInt16 3
  passageData : Vector Int 3
  /-- `fx`, `fy`, `fz`, `mx`, `my` and `mz`. -/
  forces : Vector UInt32 6
  readyMsg : Vector Bool 3
  count : Nat
  ready : Bool

namespace SriSensorDevice

def initTimes : Nat := 5

/-- The constructor; it leaves the sample uninitialised. -/
def create (garbage : Vector UInt32 6) (idCmd : UInt16) (passageCmd : Int)
    (idData : Vector UInt16 3) (passageData : Vector Int 3) : SriSensorDevice :=
  ⟨idCmd, passageCmd, idData, passageData, garbage, .replicate 3 false, 0, false⟩

/-- The data passage with this number; the first where the configuration has a
number twice. -/
def part? (d : SriSensorDevice) (passage : Int) : Option (Fin 3) :=
  (List.finRange 3).find? fun i => passage = d.passageData.get i

def startRealTime (d : SriSensorDevice) (passage : Int) (msg : DeviceMessage) : DeviceMessage :=
  if passage = d.passageCmd then
    { msg with
      rtr := 0, id := d.idCmd.toUInt32, dlc := 3
      data := Cells.put (Cells.put (Cells.put msg.data 0 0x8A) 1 0x00) 2 0x05 }
  else
    match d.part? passage with
    | some i => { msg with rtr := 0, id := (d.idData.get i).toUInt32, dlc := 0 }
    | none => msg

def onRequest (d : SriSensorDevice) (passage : Int) (msg : DeviceMessage) :
    SriSensorDevice × DeviceMessage :=
  if d.count < initTimes then ({ d with count := d.count + 1 }, d.startRealTime passage msg)
  else (d, msg)

/-- `memcpy` of four bytes into a float, by its bits. -/
def floatAt (msg : DeviceMessage) (i : Fin 5) : UInt32 :=
  msg.data[i.val].toUInt32 ||| msg.data[i.val + 1].toUInt32 <<< 8 |||
    msg.data[i.val + 2].toUInt32 <<< 16 ||| msg.data[i.val + 3].toUInt32 <<< 24

def store (d : SriSensorDevice) (msg : DeviceMessage) (i : Fin 3) : SriSensorDevice :=
  { d with
    forces := Cells.put (Cells.put d.forces ⟨2 * i, by omega⟩ (floatAt msg 0))
      ⟨2 * i + 1, by omega⟩ (floatAt msg 4)
    readyMsg := Cells.put d.readyMsg i true }

def receive (d : SriSensorDevice) (passage : Int) (msg : DeviceMessage) : SriSensorDevice :=
  match d.part? passage with
  | some i => d.store msg i
  | none => d

def Complete (d : SriSensorDevice) : Prop := ∀ i : Fin 3, d.readyMsg.get i = true

instance (d : SriSensorDevice) : Decidable d.Complete := by unfold Complete; infer_instance

def publish (d : SriSensorDevice) : SriSensorDevice × List (Vector UInt32 6) :=
  if d.Complete then
    ({ d with ready := true, readyMsg := .replicate 3 false }, [d.forces])
  else (d, [])

def onResponse (d : SriSensorDevice) (passage : Int) (msg : DeviceMessage) :
    SriSensorDevice × List (Vector UInt32 6) :=
  if msg.id ≠ 0 ∧ initTimes ≤ d.count then (d.receive passage msg).publish else (d, [])

end SriSensorDevice

end TienKung
