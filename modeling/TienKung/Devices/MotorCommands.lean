import TienKung.Devices.MotorDevice
import TienKung.Lib.Fifo
import TienKung.Util.LockFreeQueue
import Mathlib.Data.Rat.Floor

/-!
# `MotorDevice`: commands

Each command packs a frame and queues it. `OnRequest` takes the next frame, or
writes the last one again, so the motor hears its last command in every cycle.
Arithmetic is exact up to the conversions of the source and the products that it
cuts to `uint16_t`, which are rounded to a `float` first.
-/

namespace TienKung

-- ---------------------------------------------------------------------------
-- Conversions
-- ---------------------------------------------------------------------------

/-- Conversion to an integer type, towards zero. -/
def truncate (x : ℚ) : Int := x.num.tdiv x.den

theorem truncate_of_nonneg (h : 0 ≤ x) : truncate x = ⌊x⌋ := by
  rw [truncate, Rat.floor_def', Int.tdiv_eq_ediv_of_nonneg (Rat.num_nonneg.mpr h)]

theorem truncate_neg (x : ℚ) : truncate (-x) = -truncate x := by
  rw [truncate, truncate, Rat.num_neg_eq_neg_num, Rat.den_neg_eq_den, Int.neg_tdiv]

theorem truncate_mem {a b : Int} {x : ℚ} (ha : a ≤ 0) (hb : 0 ≤ b) (hax : a ≤ x) (hxb : x ≤ b) :
    a ≤ truncate x ∧ truncate x ≤ b := by
  rcases le_total 0 x with hx | hx
  · rw [truncate_of_nonneg hx]
    exact ⟨ha.trans (Int.floor_nonneg.mpr hx), Int.floor_le_iff.mpr (hxb.trans_lt (lt_add_one _))⟩
  · have hneg : truncate x = -⌊-x⌋ := by
      rw [← truncate_of_nonneg (neg_nonneg.mpr hx), truncate_neg, neg_neg]
    have hnonneg : 0 ≤ ⌊-x⌋ := Int.floor_nonneg.mpr (neg_nonneg.mpr hx)
    have hfloor : ⌊-x⌋ ≤ -a := by
      have := (Int.floor_le (-x)).trans (neg_le_neg hax)
      exact_mod_cast this
    rw [hneg]
    omega

/-- To the nearest integer, ties to even. -/
def roundEven (x : ℚ) : Int :=
  let low := x.floor
  let rest := x - low
  if rest < 1 / 2 ∨ rest = 1 / 2 ∧ low % 2 = 0 then low else low + 1

/-- The greatest `k` with `2 ^ k` not above a positive `x`. -/
def log2 (x : ℚ) : Int :=
  let k := (x.num.natAbs.log2 : Int) - x.den.log2
  if (2 : ℚ) ^ k ≤ x then k else k - 1

/-- The bits of the nearest `float`, which `rv_type_convert` reads. -/
def floatBits (x : ℚ) : UInt32 :=
  if x = 0 then 0
  else
    let size := if x < 0 then -x else x
    let exponent := max (log2 size) (-126)
    let mantissa := roundEven (size / (2 : ℚ) ^ (exponent - 23))
    let bits := (exponent + 126) * 0x800000 + mantissa
    UInt32.ofInt (min bits 0x7F800000) ||| (if x < 0 then 0x80000000 else 0)

example : floatBits 1 = 0x3F800000 ∧ floatBits (-25 / 2) = 0xC1480000 ∧
    floatBits (1 / 10) = 0x3DCCCCCD := by decide +kernel

/-- `rv_type_convert.buf[i]`. -/
def floatByte (x : ℚ) (i : Nat) : Nat := (floatBits x).toNat >>> (8 * i) % 256

def floatToUint (x xMin xMax : ℚ) (bits : Nat) : Nat :=
  (truncate ((x - xMin) * (2 ^ bits - 1) / (xMax - xMin))).toNat

/-- The nearest `float`, of what is in the range of `float`. -/
def roundFloat (x : ℚ) : ℚ :=
  let size := if x < 0 then -x else x
  let unit := (2 : ℚ) ^ (max (log2 size) (-126) - 23)
  let nearest := roundEven (size / unit) * unit
  if x < 0 then -nearest else nearest

/-- `uint16_t(x * 10)`, where the product is a `float`. -/
def tenths (x : ℚ) : Nat := (UInt16.ofInt (truncate (roundFloat (x * 10)))).toNat

-- `0.7f` is below seven tenths, and ten times it is seven
example : tenths (11744051 / 2 ^ 24) = 7 := by decide +kernel

-- ---------------------------------------------------------------------------
-- Frames
-- ---------------------------------------------------------------------------

def kpMin : ℚ := 0
def kpMax : ℚ := 1500
def kdMin : ℚ := 0
def kdMax : ℚ := 50

theorem kp_range : kpMin < kpMax := by decide +kernel
theorem kd_range : kdMin < kdMax := by decide +kernel
theorem pos_range : posMin < posMax := by decide +kernel
theorem spd_range : spdMin < spdMax := by decide +kernel

/-- `TOR_MAX_*`; the minimum of each type is its negative, and zero where there
is no case. -/
def MotorType.torMax : MotorType → ℚ
  | .s4310 => 30
  | .m8112 => 90
  | .l10020 => 150
  | .h13715 => 320
  | .other _ => 0

def clamp (x xMin xMax : ℚ) : ℚ := if x > xMax then xMax else if x < xMin then xMin else x

theorem clamp_mem (h : lo ≤ hi) (x : ℚ) : lo ≤ clamp x lo hi ∧ clamp x lo hi ≤ hi := by
  unfold clamp
  split_ifs with hhigh hlow
  · exact ⟨h, le_rfl⟩
  · exact ⟨le_rfl, h⟩
  · exact ⟨not_lt.mp hlow, not_lt.mp hhigh⟩

def bytes (xs : Vector Nat 8) : Vector UInt8 8 := xs.map UInt8.ofNat

def MotorConfig.speedFrame (c : MotorConfig) (speed current : ℚ) : DeviceMessage where
  rtr := 0
  id := c.motorId.toUInt32
  dlc := 7
  data :=
    let cur := tenths current
    bytes #v[0x41, floatByte speed 3, floatByte speed 2, floatByte speed 1, floatByte speed 0,
      cur >>> 8, cur &&& 0xff, 0]

def MotorConfig.positionFrame (c : MotorConfig) (position speed current : ℚ) : DeviceMessage where
  rtr := 0
  id := c.motorId.toUInt32
  dlc := 8
  data :=
    let oPos := position + c.zeroOffset
    let oPos := if oPos ≥ posMax then posMax else if oPos ≤ posMin then posMin else oPos
    let cur := tenths current
    let spd := tenths speed
    let buf := floatByte (oPos / pi * 180)
    bytes #v[0x20 ||| buf 3 >>> 3, buf 3 <<< 5 ||| buf 2 >>> 3, buf 2 <<< 5 ||| buf 1 >>> 3,
      buf 1 <<< 5 ||| buf 0 >>> 3, buf 0 <<< 5 ||| spd >>> 10, (spd &&& 0x3FC) >>> 2,
      (spd &&& 0x03) <<< 6 ||| cur >>> 6, (cur &&& 0x3F) <<< 2 ||| 0x01]

def MotorConfig.ctrlFrame (c : MotorConfig) (kp kd position speed torque : ℚ) :
    DeviceMessage where
  rtr := 0
  id := c.motorId.toUInt32
  dlc := 8
  data :=
    let torMax := c.type.torMax
    let kpInt := floatToUint (clamp kp kpMin kpMax) kpMin kpMax 12
    let kdInt := floatToUint (clamp kd kdMin kdMax) kdMin kdMax 9
    let posInt := floatToUint (clamp (position + c.zeroOffset) posMin posMax) posMin posMax 16
    let spdInt := floatToUint (clamp speed spdMin spdMax) spdMin spdMax 12
    let torInt := floatToUint (clamp torque (-torMax) torMax) (-torMax) torMax 12
    bytes #v[kpInt >>> 7, (kpInt &&& 0x7F) <<< 1 ||| (kdInt &&& 0x100) >>> 8, kdInt &&& 0xFF,
      posInt >>> 8, posInt &&& 0xFF, spdInt >>> 4, (spdInt &&& 0x0F) <<< 4 ||| torInt >>> 8,
      torInt &&& 0xff]

-- ---------------------------------------------------------------------------
-- The device and its queue
-- ---------------------------------------------------------------------------

structure QueuedMotor extends MotorDevice where
  reqBuff : DeviceMessage
  reqQueue : LockFreeQueue DeviceMessage
  deriving DecidableEq

def QueuedMotor.push (d : QueuedMotor) (frame : DeviceMessage) : QueuedMotor :=
  { d with reqQueue := d.reqQueue.push frame }

inductive MotorCommand
  | setMotorSpeed (speed current : ℚ)
  | setMotorPosition (position speed current : ℚ)
  | setMotorDistance (distance speed current : ℚ)
  | sendMotorCtrlCmd (kp kd position speed torque : ℚ)
  deriving DecidableEq

/-- The frame of a command; a distance is from the last position heard. -/
def MotorDevice.frame (d : MotorDevice) : MotorCommand → DeviceMessage
  | .setMotorSpeed speed current => d.speedFrame speed current
  | .setMotorPosition position speed current => d.positionFrame position speed current
  | .setMotorDistance distance speed current =>
    d.positionFrame (d.position + distance) speed current
  | .sendMotorCtrlCmd kp kd position speed torque => d.ctrlFrame kp kd position speed torque

/-- The constructor; the status fields are not initialised. -/
def QueuedMotor.create (d : MotorDevice) : QueuedMotor :=
  QueuedMotor.push { d with reqBuff := .zero, reqQueue := .new } (d.frame (.setMotorSpeed 0 1))

def QueuedMotor.onRequest (d : QueuedMotor) : QueuedMotor × DeviceMessage :=
  if d.reqQueue.empty then (d, d.reqBuff)
  else match d.reqQueue.pop with
    | some (buff, reqQueue) => ({ d with reqBuff := buff, reqQueue }, buff)
    | none => (d, d.reqBuff)

inductive MotorCall
  | command (cmd : MotorCommand)
  | onRequest
  | onResponse (msg : DeviceMessage)
  deriving DecidableEq

/-- A call puts a frame on the queue or writes one to the slot. -/
def QueuedMotor.step : Mealy.Step QueuedMotor MotorCall (Fifo.Io DeviceMessage DeviceMessage) :=
  fun d e =>
  match e with
  | .command cmd => (d.push (d.frame cmd), [.put (d.frame cmd)])
  | .onRequest => (d.onRequest.1, [.get d.onRequest.2])
  | .onResponse msg => ({ d with toMotorDevice := (d.toMotorDevice.onResponse msg).1 }, [])

-- ---------------------------------------------------------------------------
-- What the motor hears
-- ---------------------------------------------------------------------------

theorem QueuedMotor.onRequest_of_nil {d : QueuedMotor} (h : d.reqQueue.toList = []) :
    d.onRequest = (d, d.reqBuff) := by
  simp only [onRequest, LockFreeQueue.pop_of_nil h, ite_self]

theorem QueuedMotor.onRequest_of_cons {d : QueuedMotor} {frame : DeviceMessage}
    {rest : List DeviceMessage} (h : d.reqQueue.toList = frame :: rest) :
    ∃ q, d.onRequest = ({ d with reqBuff := frame, reqQueue := q }, frame) ∧ q.toList = rest := by
  obtain ⟨q, hpop, hq⟩ := LockFreeQueue.pop_of_cons h
  have hne : d.reqQueue.empty = false := by
    have := d.reqQueue.pop_isSome
    rw [hpop] at this
    simpa using this
  exact ⟨q, by simp [onRequest, hne, hpop], hq⟩

theorem QueuedMotor.onRequest_device (d : QueuedMotor) :
    d.onRequest.1.toMotorDevice = d.toMotorDevice := by
  unfold onRequest
  split
  case isTrue => rfl
  case isFalse => split <;> rfl

def QueuedMotor.hold (d : QueuedMotor) : Fifo.Hold DeviceMessage :=
  ⟨d.reqQueue.toList, d.reqBuff⟩

def QueuedMotor.read (d : QueuedMotor) : MotorCall → List (Option DeviceMessage)
  | .command cmd => [some (d.frame cmd)]
  | .onRequest => [none]
  | .onResponse _ => []

theorem QueuedMotor.simulates :
    Mealy.Simulates QueuedMotor.step Fifo.Hold.step (fun _ => True) hold read where
  keep _ _ _ := trivial
  state d e _ := by
    cases e with
    | command cmd => rfl
    | onRequest =>
      cases hq : d.reqQueue.toList with
      | nil => simp [read, hold, step, onRequest_of_nil hq, Fifo.Hold.step, hq]
      | cons frame rest =>
        obtain ⟨q, hreq, hrest⟩ := onRequest_of_cons hq
        simp [read, hold, step, hreq, Fifo.Hold.step, hq, hrest]
    | onResponse msg => rfl
  output d e _ := by
    cases e with
    | command cmd => rfl
    | onRequest =>
      cases hq : d.reqQueue.toList with
      | nil => simp [read, hold, step, onRequest_of_nil hq, Fifo.Hold.step, hq]
      | cons frame rest =>
        obtain ⟨q, hreq, -⟩ := onRequest_of_cons hq
        simp [read, hold, step, hreq, Fifo.Hold.step, hq]
    | onResponse msg => rfl

/-- What is written to the slot goes through the command frames, from the
zero-speed frame of the constructor on, and repeats one only while no other is
queued. -/
theorem written_stutter (d : MotorDevice) (es : List MotorCall) :
    let trace := Mealy.emitted QueuedMotor.step (.create d) es
    Fifo.Stutter (d.speedFrame 0 1 :: Fifo.puts trace) 0 (Fifo.putBefore 1 trace)
      (Fifo.gets trace) := by
  intro trace
  have htrace : Mealy.emitted Fifo.Hold.step (QueuedMotor.create d).hold
      (Mealy.translated QueuedMotor.step QueuedMotor.read (.create d) es) = trace :=
    QueuedMotor.simulates.emitted trivial
  have := Fifo.Hold.stutter [] (QueuedMotor.create d).hold
    (Mealy.translated QueuedMotor.step QueuedMotor.read (.create d) es) nofun nofun
  rwa [htrace] at this

end TienKung
