import TienKung.Lib.Mealy
import TienKung.Lib.Rotations

/-!
# The complementary filter

`ubt_hw::ComplementaryFilter` follows the orientation of the sensor. The gyro
turns the quaternion of the last sample, the accelerometer says where down is,
and part of the difference is taken back. While the sensor is still the gyro's
offset is learnt.

Arithmetic is exact, over any ordered field; what `<cmath>` computes is a
parameter. The state is the inverse of the orientation.
-/

namespace TienKung

open Rotations Quaternion

/-- The functions of `<cmath>` that the filters call. -/
structure Cmath (K : Type*) where
  sqrt : K → K
  acos : K → K
  sin : K → K
  tan : K → K

variable {K : Type*} [Field K] [LinearOrder K]

-- ---------------------------------------------------------------------------
-- Vectors and quaternions
-- ---------------------------------------------------------------------------

def normalizeVector (m : Cmath K) (v : Vec K) : Vec K :=
  let norm := m.sqrt (v.x * v.x + v.y * v.y + v.z * v.z)
  ⟨v.x / norm, v.y / norm, v.z / norm⟩

def normalizeQuaternion (m : Cmath K) (q : ℍ[K]) : ℍ[K] :=
  let norm := m.sqrt (q.re * q.re + q.imI * q.imI + q.imJ * q.imJ + q.imK * q.imK)
  ⟨q.re / norm, q.imI / norm, q.imJ / norm, q.imK / norm⟩

/-- Assumes that the quaternion is normalised. -/
def invertQuaternion (q : ℍ[K]) : ℍ[K] := ⟨q.re, -q.imI, -q.imJ, -q.imK⟩

def scaleQuaternion (m : Cmath K) (gain : K) (dq : ℍ[K]) : ℍ[K] :=
  normalizeQuaternion m
    (if dq.re < 0 then
      let angle := m.acos dq.re
      let A := m.sin (angle * (1 - gain)) / m.sin angle
      let B := m.sin (angle * gain) / m.sin angle
      ⟨A + B * dq.re, B * dq.imI, B * dq.imJ, B * dq.imK⟩
    else ⟨1 - gain + gain * dq.re, gain * dq.imI, gain * dq.imJ, gain * dq.imK⟩)

def quaternionMultiplication (p q : ℍ[K]) : ℍ[K] :=
  ⟨p.re * q.re - p.imI * q.imI - p.imJ * q.imJ - p.imK * q.imK,
    p.re * q.imI + p.imI * q.re + p.imJ * q.imK - p.imK * q.imJ,
    p.re * q.imJ - p.imI * q.imK + p.imJ * q.re + p.imK * q.imI,
    p.re * q.imK + p.imI * q.imJ - p.imJ * q.imI + p.imK * q.re⟩

def rotateVectorByQuaternion (v : Vec K) (q : ℍ[K]) : Vec K :=
  ⟨(q.re * q.re + q.imI * q.imI - q.imJ * q.imJ - q.imK * q.imK) * v.x +
      2 * (q.imI * q.imJ - q.re * q.imK) * v.y + 2 * (q.imI * q.imK + q.re * q.imJ) * v.z,
    2 * (q.imI * q.imJ + q.re * q.imK) * v.x +
      (q.re * q.re - q.imI * q.imI + q.imJ * q.imJ - q.imK * q.imK) * v.y +
      2 * (q.imJ * q.imK - q.re * q.imI) * v.z,
    2 * (q.imI * q.imK - q.re * q.imJ) * v.x + 2 * (q.imJ * q.imK + q.re * q.imI) * v.y +
      (q.re * q.re - q.imI * q.imI - q.imJ * q.imJ + q.imK * q.imK) * v.z⟩

-- ---------------------------------------------------------------------------
-- The filter
-- ---------------------------------------------------------------------------

structure ComplementaryFilter (K : Type*) [Field K] where
  gainAcc : K
  gainMag : K
  biasAlpha : K
  doBiasEstimation : Bool
  doAdaptiveGain : Bool
  initialized : Bool
  steadyState : Bool
  /-- `q0_` to `q3_` -/
  q : ℍ[K]
  wPrev : Vec K
  wBias : Vec K

namespace ComplementaryFilter

def kGravity : K := 981 / 100
def kAngularVelocityThreshold : K := 2 / 10
def kAccelerationThreshold : K := 1 / 10
def kDeltaAngularVelocityThreshold : K := 1 / 100

def new : ComplementaryFilter K where
  gainAcc := 1 / 100
  gainMag := 1 / 100
  biasAlpha := 1 / 100
  doBiasEstimation := true
  doAdaptiveGain := false
  initialized := false
  steadyState := false
  q := ⟨1, 0, 0, 0⟩
  wPrev := ⟨0, 0, 0⟩
  wBias := ⟨0, 0, 0⟩

def reset (f : ComplementaryFilter K) : ComplementaryFilter K :=
  { f with
    initialized := false, steadyState := false, q := ⟨1, 0, 0, 0⟩, wBias := ⟨0, 0, 0⟩
    wPrev := ⟨0, 0, 0⟩ }

def setGainAcc (f : ComplementaryFilter K) (gain : K) : ComplementaryFilter K × Bool :=
  if gain ≥ 0 ∧ gain ≤ 1 then ({ f with gainAcc := gain }, true) else (f, false)

def setGainMag (f : ComplementaryFilter K) (gain : K) : ComplementaryFilter K × Bool :=
  if gain ≥ 0 ∧ gain ≤ 1 then ({ f with gainMag := gain }, true) else (f, false)

def setBiasAlpha (f : ComplementaryFilter K) (biasAlpha : K) : ComplementaryFilter K × Bool :=
  if biasAlpha ≥ 0 ∧ biasAlpha ≤ 1 then ({ f with biasAlpha }, true) else (f, false)

def setOrientation (f : ComplementaryFilter K) (q : ℍ[K]) : ComplementaryFilter K :=
  { f with q := invertQuaternion q }

def getOrientation (f : ComplementaryFilter K) : ℍ[K] := invertQuaternion f.q

variable (m : Cmath K)

def checkState (f : ComplementaryFilter K) (a w : Vec K) : Bool :=
  let accMagnitude := m.sqrt (a.x * a.x + a.y * a.y + a.z * a.z)
  if |accMagnitude - kGravity| > kAccelerationThreshold then false
  else if |w.x - f.wPrev.x| > kDeltaAngularVelocityThreshold ∨
      |w.y - f.wPrev.y| > kDeltaAngularVelocityThreshold ∨
      |w.z - f.wPrev.z| > kDeltaAngularVelocityThreshold then false
  else if |w.x - f.wBias.x| > kAngularVelocityThreshold ∨
      |w.y - f.wBias.y| > kAngularVelocityThreshold ∨
      |w.z - f.wBias.z| > kAngularVelocityThreshold then false
  else true

/-- `bias += bias_alpha_ * (w - bias)` -/
def follow (α bias w : K) : K := bias + α * (w - bias)

def updateBiases (f : ComplementaryFilter K) (a w : Vec K) : ComplementaryFilter K :=
  let steadyState := f.checkState m a w
  { f with
    steadyState
    wBias :=
      if steadyState then
        ⟨follow f.biasAlpha f.wBias.x w.x, follow f.biasAlpha f.wBias.y w.y,
          follow f.biasAlpha f.wBias.z w.z⟩
      else f.wBias
    wPrev := w }

def getPrediction (f : ComplementaryFilter K) (w : Vec K) (dt : K) : ℍ[K] :=
  let wx := w.x - f.wBias.x
  let wy := w.y - f.wBias.y
  let wz := w.z - f.wBias.z
  let q := f.q
  normalizeQuaternion m
    ⟨q.re + 1 / 2 * dt * (wx * q.imI + wy * q.imJ + wz * q.imK),
      q.imI + 1 / 2 * dt * (-wx * q.re - wy * q.imK + wz * q.imJ),
      q.imJ + 1 / 2 * dt * (wx * q.imK - wy * q.re - wz * q.imI),
      q.imK + 1 / 2 * dt * (-wx * q.imJ + wy * q.imI - wz * q.re)⟩

/-- From the acceleration alone: any yaw. -/
def getMeasurement (a : Vec K) : ℍ[K] :=
  let a := normalizeVector m a
  if a.z ≥ 0 then
    let q0 := m.sqrt ((a.z + 1) * (1 / 2))
    ⟨q0, -a.y / (2 * q0), a.x / (2 * q0), 0⟩
  else
    let X := m.sqrt ((1 - a.z) * (1 / 2))
    ⟨-a.y / (2 * X), X, 0, a.x / (2 * X)⟩

/-- The turn about the upright axis that takes a magnetic reading `l` to the north. -/
def northward (l : Vec K) : ℍ[K] :=
  let gamma := l.x * l.x + l.y * l.y
  let beta := m.sqrt (gamma + l.x * m.sqrt gamma)
  ⟨beta / m.sqrt (2 * gamma), 0, 0, l.y / (m.sqrt 2 * beta)⟩

/-- `lx` and `ly`, the magnetic reading in the frame of `q`, whose `imK` is taken to be zero. -/
def horizontalField (q : ℍ[K]) (mag : Vec K) : Vec K :=
  ⟨(q.re * q.re + q.imI * q.imI - q.imJ * q.imJ) * mag.x + 2 * (q.imI * q.imJ) * mag.y -
      2 * (q.re * q.imJ) * mag.z,
    2 * (q.imI * q.imJ) * mag.x + (q.re * q.re - q.imI * q.imI + q.imJ * q.imJ) * mag.y +
      2 * (q.re * q.imI) * mag.z,
    0⟩

def getMeasurementMag (a mag : Vec K) : ℍ[K] :=
  let q := getMeasurement m a
  quaternionMultiplication q (northward m (horizontalField q mag))

def predictedGravity (a : Vec K) (p : ℍ[K]) : Vec K :=
  rotateVectorByQuaternion (normalizeVector m a) (invertQuaternion p)

def getAccCorrection (a : Vec K) (p : ℍ[K]) : ℍ[K] :=
  let g := predictedGravity m a p
  let dq0 := m.sqrt ((g.z + 1) * (1 / 2))
  ⟨dq0, -g.y / (2 * dq0), g.x / (2 * dq0), 0⟩

def getMagCorrection (mag : Vec K) (p : ℍ[K]) : ℍ[K] :=
  northward m (rotateVectorByQuaternion mag (invertQuaternion p))

/-- The cosine of half the angle between a vector and upright. -/
def halfCosine (v : Vec K) : K := m.sqrt ((v.z + 1) * (1 / 2))

def getAdaptiveGain (alpha : K) (a : Vec K) : K :=
  let aMag := m.sqrt (a.x * a.x + a.y * a.y + a.z * a.z)
  let error := |aMag - kGravity| / kGravity
  let error1 := 1 / 10
  let error2 := 2 / 10
  let slope := 1 / (error1 - error2)
  let b := 1 - slope * error1
  let factor := if error < error1 then 1 else if error < error2 then slope * error + b else 0
  factor * alpha

def turn (f : ComplementaryFilter K) (w : Vec K) (dt : K) : Vec K :=
  Vec.scale (-(1 / 2 * dt)) ⟨w.x - f.wBias.x, w.y - f.wBias.y, w.z - f.wBias.z⟩

def accGain (f : ComplementaryFilter K) (a : Vec K) : K :=
  if f.doAdaptiveGain then getAdaptiveGain m f.gainAcc a else f.gainAcc

def estimateBiases (f : ComplementaryFilter K) (a w : Vec K) : ComplementaryFilter K :=
  if f.doBiasEstimation then f.updateBiases m a w else f

def correctAcc (f : ComplementaryFilter K) (a : Vec K) (p : ℍ[K]) : ℍ[K] :=
  quaternionMultiplication p (scaleQuaternion m (f.accGain m a) (getAccCorrection m a p))

def update (f : ComplementaryFilter K) (a w : Vec K) (dt : K) : ComplementaryFilter K :=
  if f.initialized then
    let f := f.estimateBiases m a w
    let p := f.getPrediction m w dt
    { f with q := normalizeQuaternion m (f.correctAcc m a p) }
  else { f with q := getMeasurement m a, initialized := true }

def updateMag (f : ComplementaryFilter K) (a w mag : Vec K) (dt : K) : ComplementaryFilter K :=
  if f.initialized then
    let f := f.estimateBiases m a w
    let p := f.getPrediction m w dt
    let temp := f.correctAcc m a p
    let dq := scaleQuaternion m f.gainMag (getMagCorrection m mag temp)
    { f with q := normalizeQuaternion m (quaternionMultiplication temp dq) }
  else { f with q := getMeasurementMag m a mag, initialized := true }

-- ---------------------------------------------------------------------------
-- Runs
-- ---------------------------------------------------------------------------

end ComplementaryFilter

/-- The public functions that change a filter. -/
inductive FilterCall (K : Type*) [Field K]
  | setDoBiasEstimation (value : Bool)
  | setDoAdaptiveGain (value : Bool)
  | setGainAcc (gain : K)
  | setGainMag (gain : K)
  | setBiasAlpha (biasAlpha : K)
  | setOrientation (q : ℍ[K])
  | update (a w : Vec K) (dt : K)
  | updateMag (a w mag : Vec K) (dt : K)
  | reset

/-- A call, with the result of those that have one. -/
def ComplementaryFilter.step (m : Cmath K) :
    Mealy.Step (ComplementaryFilter K) (FilterCall K) Bool := fun f call =>
  match call with
  | .setDoBiasEstimation value => ({ f with doBiasEstimation := value }, [])
  | .setDoAdaptiveGain value => ({ f with doAdaptiveGain := value }, [])
  | .setGainAcc gain => ((f.setGainAcc gain).1, [(f.setGainAcc gain).2])
  | .setGainMag gain => ((f.setGainMag gain).1, [(f.setGainMag gain).2])
  | .setBiasAlpha biasAlpha => ((f.setBiasAlpha biasAlpha).1, [(f.setBiasAlpha biasAlpha).2])
  | .setOrientation q => (f.setOrientation q, [])
  | .update a w dt => (f.update m a w dt, [])
  | .updateMag a w mag dt => (f.updateMag m a w mag dt, [])
  | .reset => (f.reset, [])

end TienKung
