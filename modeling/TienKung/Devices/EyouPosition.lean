import TienKung.Lib.Checked
import TienKung.Lib.Doubles

/-!
# `EyouMotorDevice` in `Mode::POS`

`SetPos`, and one round of the loop of `Run` in C's arithmetic: an `int` that
does not fit, a `double` that fits no `int` and an `int` divided by zero are
faults. A `float` is taken as the `double` it is widened to, and `ReceivePos` as
one value in a round. Left out is the traffic with the drive but for the
position sent.
-/

namespace TienKung

structure EyouMotorDevice where
  targetPos : Float
  maxSpeed : Float

namespace EyouMotorDevice

def setPos (d : EyouMotorDevice) (position maxSpeed : Float) : EyouMotorDevice :=
  if maxSpeed ≤ 0 then d else { d with targetPos := position, maxSpeed := maxSpeed }

-- ---------------------------------------------------------------------------
-- Arithmetic
-- ---------------------------------------------------------------------------

inductive Fault
  | division
  | overflow
  | conversion
  deriving DecidableEq

def Fits (n : ℤ) : Prop := -2147483648 ≤ n ∧ n ≤ 2147483647

instance : DecidablePred Fits := fun _ => inferInstanceAs (Decidable (_ ∧ _))

def int (n : ℤ) : Except Fault ℤ := if Fits n then .ok n else .error .overflow

def toInt (x : Float) : Except Fault ℤ :=
  match Doubles.truncate x with
  | some n => if Fits n then .ok n else .error .conversion
  | none => .error .conversion

def div (a b : ℤ) : Except Fault ℤ := if b = 0 then .error .division else int (a.tdiv b)

def abs (n : ℤ) : Except Fault ℤ := int |n|

/-- `std::max` -/
def max (a b : Float) : Float := if a < b then b else a

-- ---------------------------------------------------------------------------
-- The loop
-- ---------------------------------------------------------------------------

/-- `M_PI` -/
def mPi : Float := 3.14159265358979323846

def encoderRes : ℤ := 101 * 65535

def trans2Deg : Float := 360 / Float.ofInt encoderRes

def baseTolerance : ℤ := 500

def k : ℤ := 36

/-- The `float` 0.2. -/
def mv : Float := 0.20000000298023224

/-- Radians to pulses of the encoder. -/
def pulses (x : Float) : Float := x / mPi * 180 / trans2Deg

def tolerance (maxSpeed : Float) : Float :=
  Float.ofInt (baseTolerance * (k / 4)) * max 1.0 (maxSpeed / mv)

/-- `adis < limit ? adis : limit`, converted to `int`. -/
def reach (adis : ℤ) (limit : Float) : Except Fault ℤ :=
  if Doubles.lt adis limit then .ok adis else toInt limit

/-- The position to send when the target is outside the base tolerance. -/
def approach (d : EyouMotorDevice) (receivePos m adis : ℤ) : Except Fault ℤ := do
  let baselimit := pulses d.maxSpeed
  let targetTolerance ← toInt (tolerance d.maxSpeed)
  if adis < targetTolerance then
    let ratio ← div adis targetTolerance
    let dis ← reach adis (baselimit * 0.002 * max 1.0 (Float.ofInt k * Float.ofInt ratio))
    let move ← int (m * dis)
    int (receivePos + move)
  else
    let dis ← reach adis (baselimit * 0.002)
    let move ← int (m * dis)
    let move ← int (move * k)
    int (receivePos + move)

/-- The position sent to the drive, if one is sent. -/
def runOnce (d : EyouMotorDevice) (receivePos : Int32) : Except Fault (Option ℤ) := do
  let data ← toInt (pulses d.targetPos)
  let dis ← int (data - receivePos.toInt)
  let adis ← abs dis
  let m ← div dis adis
  if baseTolerance < adis then
    let position ← d.approach receivePos.toInt m adis
    return some position
  else
    return none

-- ---------------------------------------------------------------------------
-- Rounds without a fault
-- ---------------------------------------------------------------------------

/-- `k` steps towards the target, and where they lead. -/
def StepFits (receivePos dis : ℤ) (limit : Float) : Prop :=
  ∀ step, reach |dis| limit = .ok step →
    Fits (dis.sign * step * k) ∧ Fits (receivePos + dis.sign * step * k)

/-- The target is a number of pulses other than the position and less than `2 ^ 31` away. If it is
outside the base tolerance, the maximal speed is a number and the tolerance fits; if it is outside
this one too, so do `k` steps. -/
def Faultless (d : EyouMotorDevice) (receivePos : Int32) : Prop :=
  ∃ data, toInt (pulses d.targetPos) = .ok data ∧ data ≠ receivePos.toInt ∧
    |data - receivePos.toInt| ≤ 2147483647 ∧
    (baseTolerance < |data - receivePos.toInt| → ¬ d.maxSpeed.isNaN ∧
      ∃ targetTolerance, toInt (tolerance d.maxSpeed) = .ok targetTolerance ∧
        (targetTolerance ≤ |data - receivePos.toInt| →
          StepFits receivePos.toInt (data - receivePos.toInt) (pulses d.maxSpeed * 0.002)))

section
variable {n r dis adis : ℤ} {x limit : Float} {d : EyouMotorDevice}

theorem int_eq_ok : int n = .ok r ↔ Fits n ∧ n = r := by
  unfold int
  by_cases h : Fits n
  · rw [if_pos h, Except.ok.injEq]
    exact ⟨fun he => ⟨h, he⟩, And.right⟩
  · rw [if_neg h]
    exact ⟨fun he => (by cases he), fun he => absurd he.1 h⟩

theorem toInt_eq_ok : toInt x = .ok n ↔ Doubles.truncate x = some n ∧ Fits n := by
  unfold toInt
  cases Doubles.truncate x with
  | none => simp
  | some n' =>
    simp only [Option.some_inj]
    by_cases h : Fits n'
    · rw [if_pos h, Except.ok.injEq]
      exact ⟨fun he => ⟨he, he ▸ h⟩, And.left⟩
    · rw [if_neg h]
      exact ⟨fun he => (by cases he), fun he => absurd (he.1 ▸ he.2) h⟩

theorem abs_eq_ok : abs dis = .ok adis ↔ |dis| ≤ 2147483647 ∧ |dis| = adis := by
  rw [abs, int_eq_ok, Fits]
  have := abs_nonneg dis
  constructor
  · rintro ⟨⟨-, hle⟩, he⟩
    exact ⟨hle, he⟩
  · rintro ⟨hle, he⟩
    exact ⟨⟨by omega, hle⟩, he⟩

theorem div_abs_eq_ok : div dis |dis| = .ok r ↔ dis ≠ 0 ∧ dis.sign = r := by
  unfold div
  by_cases h : dis = 0
  · simp [h]
  · have hsign : dis.tdiv |dis| = dis.sign := by
      rw [Int.abs_eq_natAbs, ← Int.sign_eq_tdiv_abs]
    have hfits : Fits dis.sign := by
      rcases Int.sign_trichotomy dis with hs | hs | hs <;> rw [hs] <;> decide
    rw [if_neg (abs_ne_zero.mpr h), hsign, int_eq_ok]
    exact ⟨fun he => ⟨h, he.2⟩, fun he => ⟨hfits, he.2⟩⟩

theorem runOnce_ok_iff_approach {receivePos : Int32} :
    (∃ position, d.runOnce receivePos = .ok position) ↔
      ∃ data, toInt (pulses d.targetPos) = .ok data ∧ data ≠ receivePos.toInt ∧
        |data - receivePos.toInt| ≤ 2147483647 ∧
        (baseTolerance < |data - receivePos.toInt| → ∃ position,
          d.approach receivePos.toInt (data - receivePos.toInt).sign |data - receivePos.toInt| =
            .ok position) := by
  simp only [runOnce, Checked.bind_eq_ok, int_eq_ok, abs_eq_ok]
  constructor
  · rintro ⟨position, data, hdata, dis, ⟨-, rfl⟩, adis, ⟨hle, rfl⟩, m, hm, h⟩
    obtain ⟨hne, rfl⟩ := div_abs_eq_ok.mp hm
    refine ⟨data, hdata, sub_ne_zero.mp hne, hle, fun hfar => ?_⟩
    rw [if_pos hfar] at h
    obtain ⟨position, hp, -⟩ := Checked.bind_eq_ok.mp h
    exact ⟨position, hp⟩
  · rintro ⟨data, hdata, hne, hle, h⟩
    have hdiv := div_abs_eq_ok.mpr ⟨sub_ne_zero.mpr hne, rfl⟩
    have hfits : Fits (data - receivePos.toInt) := by
      have := abs_le.mp hle
      exact ⟨by omega, by omega⟩
    by_cases hfar : baseTolerance < |data - receivePos.toInt|
    · obtain ⟨position, hp⟩ := h hfar
      refine ⟨some position, data, hdata, _, ⟨hfits, rfl⟩, _, ⟨hle, rfl⟩, _, hdiv, ?_⟩
      rw [if_pos hfar, hp]
      rfl
    · refine ⟨none, data, hdata, _, ⟨hfits, rfl⟩, _, ⟨hle, rfl⟩, _, hdiv, ?_⟩
      rw [if_neg hfar]
      rfl

theorem reach_of_nonNegative (hl : Doubles.nonNegative (Doubles.parts limit)) (h0 : 0 ≤ adis)
    (hle : adis ≤ 2147483647) : ∃ step, reach adis limit = .ok step ∧ 0 ≤ step ∧ step ≤ adis := by
  unfold reach
  by_cases h : Doubles.lt adis limit
  · rw [if_pos h]
    exact ⟨adis, rfl, h0, le_rfl⟩
  · rw [if_neg h]
    obtain ⟨t, ht, hpos, hta⟩ := Doubles.truncate_of_not_lt hl h0 h
    exact ⟨t, toInt_eq_ok.mpr ⟨ht, by omega, by omega⟩, hpos, hta⟩

theorem reach_isNaN (hl : limit.isNaN) : reach adis limit = .error .conversion := by
  rw [reach, Doubles.lt_isNaN hl, toInt, Doubles.truncate_isNaN hl]
  rfl

theorem pulses_nonNegative (hx : Doubles.nonNegative (Doubles.parts x)) :
    Doubles.nonNegative (Doubles.parts (pulses x)) := by
  have hpi : Doubles.positive (Doubles.parts mPi) := by decide +kernel
  have hdeg : Doubles.positive (Doubles.parts 180) := by decide +kernel
  have htrans : Doubles.positive (Doubles.parts trans2Deg) := by decide +kernel
  have hdegrees := Doubles.nonNegative_mul (Doubles.nonNegative_div hx hpi) hdeg
  exact Doubles.nonNegative_div hdegrees htrans

theorem pulses_isNaN (hx : x.isNaN) : (pulses x).isNaN :=
  Doubles.isNaN_div (Doubles.isNaN_mul (Doubles.isNaN_div hx _) _) _

theorem part_fits (h0 : 0 ≤ r) (hr : r ≤ |dis|) (hle : |dis| ≤ 2147483647) (hn : Fits n)
    (hdata : Fits (n + dis)) : Fits (dis.sign * r) ∧ Fits (n + dis.sign * r) := by
  unfold Fits at *
  rcases lt_trichotomy dis 0 with h | h | h
  · rw [Int.sign_eq_neg_one_of_neg h]
    rw [abs_of_neg h] at hr hle
    omega
  · subst h
    simp only [Int.sign_zero, zero_mul, add_zero] at *
    omega
  · rw [Int.sign_eq_one_of_pos h]
    rw [abs_of_pos h] at hr hle
    omega

theorem approach_isNaN (h : d.maxSpeed.isNaN)
    (hp : d.approach n r adis = .ok position) : False := by
  have hlimit := Doubles.isNaN_mul (pulses_isNaN h) 0.002
  simp only [approach, Checked.bind_eq_ok] at hp
  obtain ⟨tol, -, hp⟩ := hp
  split at hp
  · obtain ⟨ratio, -, hp⟩ := Checked.bind_eq_ok.mp hp
    obtain ⟨step, hs, -⟩ := Checked.bind_eq_ok.mp hp
    rw [reach_isNaN (Doubles.isNaN_mul hlimit _)] at hs
    cases hs
  · obtain ⟨step, hs, -⟩ := Checked.bind_eq_ok.mp hp
    rw [reach_isNaN hlimit] at hs
    cases hs

theorem approach_ok_iff (hs : Doubles.nonNegative (Doubles.parts d.maxSpeed))
    (hle : |dis| ≤ 2147483647) (hn : Fits n) (hdata : Fits (n + dis)) :
    (∃ position, d.approach n dis.sign |dis| = .ok position) ↔
      ∃ tol, toInt (tolerance d.maxSpeed) = .ok tol ∧
        (tol ≤ |dis| → StepFits n dis (pulses d.maxSpeed * 0.002)) := by
  have hsmall : Doubles.positive (Doubles.parts 0.002) := by decide +kernel
  have hlimit := Doubles.nonNegative_mul (pulses_nonNegative hs) hsmall
  obtain ⟨step, hstep, h0, hto⟩ := reach_of_nonNegative hlimit (abs_nonneg dis) hle
  have hfits := part_fits h0 hto hle hn hdata
  simp only [approach, Checked.bind_eq_ok]
  constructor
  · rintro ⟨position, tol, htol, hp⟩
    refine ⟨tol, htol, fun hfar step' hstep' => ?_⟩
    rw [if_neg (not_lt.mpr hfar)] at hp
    simp only [Checked.bind_eq_ok, int_eq_ok, hstep', Except.ok.injEq] at hp
    obtain ⟨_, rfl, _, ⟨-, rfl⟩, _, ⟨hk, rfl⟩, hsum, -⟩ := hp
    exact ⟨hk, hsum⟩
  · rintro ⟨tol, htol, hfar⟩
    by_cases hnear : |dis| < tol
    · -- Within the tolerance the ratio is 0, and a step is a part of the way.
      have hratio : div |dis| tol = .ok 0 := by
        have habs := abs_nonneg dis
        rw [div, if_neg (by omega), int_eq_ok, Int.tdiv_eq_zero_of_lt habs hnear]
        exact ⟨by decide, rfl⟩
      have hone : Doubles.positive (Doubles.parts (max 1.0 (Float.ofInt k * Float.ofInt 0))) := by
        decide +kernel
      obtain ⟨step', hstep', h0', hto'⟩ :=
        reach_of_nonNegative (Doubles.nonNegative_mul hlimit hone) (abs_nonneg dis) hle
      have hfits' := part_fits h0' hto' hle hn hdata
      refine ⟨n + dis.sign * step', tol, htol, ?_⟩
      rw [if_pos hnear, hratio]
      simp only [Checked.ok_bind, Checked.bind_eq_ok, int_eq_ok]
      exact ⟨step', hstep', _, ⟨hfits'.1, rfl⟩, hfits'.2, rfl⟩
    · obtain ⟨hk, hsum⟩ := hfar (not_lt.mp hnear) step hstep
      refine ⟨n + dis.sign * step * k, tol, htol, ?_⟩
      rw [if_neg hnear]
      simp only [Checked.bind_eq_ok, int_eq_ok]
      exact ⟨step, hstep, _, ⟨hfits.1, rfl⟩, _, ⟨hk, rfl⟩, hsum, rfl⟩

end

-- ---------------------------------------------------------------------------
-- What `SetPos` stores
-- ---------------------------------------------------------------------------

/-- Before the first `SetPos` the maximal speed is 0 and the target is the drive's. -/
def init (target : Float) : EyouMotorDevice := ⟨target, 0⟩

def setPosAll (d : EyouMotorDevice) (calls : List (Float × Float)) : EyouMotorDevice :=
  calls.foldl (fun d call => d.setPos call.1 call.2) d

/-- The maximal speed is not negative, or not a number. -/
def Stored (d : EyouMotorDevice) : Prop :=
  Doubles.nonNegative (Doubles.parts d.maxSpeed) ∨ d.maxSpeed.isNaN

theorem Stored.setPos {d : EyouMotorDevice} (h : d.Stored) (position maxSpeed : Float) :
    (d.setPos position maxSpeed).Stored := by
  unfold EyouMotorDevice.setPos
  by_cases hs : maxSpeed ≤ 0
  · rwa [if_pos hs]
  · rw [if_neg hs]
    exact Doubles.nonNegative_or_isNaN hs

theorem Stored.setPosAll {d : EyouMotorDevice} (h : d.Stored) (calls : List (Float × Float)) :
    (d.setPosAll calls).Stored := by
  induction calls generalizing d with
  | nil => exact h
  | cons call rest ih => exact ih (h.setPos call.1 call.2)

theorem Stored.runOnce_ok_iff {d : EyouMotorDevice} (h : d.Stored) (receivePos : Int32) :
    (∃ position, d.runOnce receivePos = .ok position) ↔ d.Faultless receivePos := by
  have hr : Fits receivePos.toInt :=
    ⟨receivePos.minValue_le_toInt, by have := receivePos.toInt_lt; omega⟩
  rw [runOnce_ok_iff_approach, Faultless]
  refine exists_congr fun data => and_congr_right fun hdata => and_congr_right fun _ =>
    and_congr_right fun hle => imp_congr_right fun _ => ?_
  have hfits : Fits (receivePos.toInt + (data - receivePos.toInt)) := by
    rw [add_sub_cancel]
    exact (toInt_eq_ok.mp hdata).2
  by_cases hnan : d.maxSpeed.isNaN
  · exact ⟨fun ⟨_, hp⟩ => (approach_isNaN hnan hp).elim, fun hc => absurd hnan hc.1⟩
  · rw [approach_ok_iff (h.resolve_right hnan) hle hr hfits]
    exact (and_iff_right hnan).symm

/-- From the initial target on, after any calls of `SetPos`, a round has no fault exactly when
`Faultless` holds. -/
theorem round_faultless_iff (target : Float) (calls : List (Float × Float)) (receivePos : Int32) :
    (∃ position, ((init target).setPosAll calls).runOnce receivePos = .ok position) ↔
      ((init target).setPosAll calls).Faultless receivePos := by
  have hzero : Doubles.nonNegative (Doubles.parts 0) := by decide +kernel
  have h0 : (init target).Stored := .inl hzero
  exact (h0.setPosAll calls).runOnce_ok_iff receivePos

/-- A motor that is on target divides by zero, and a fast one that is far from it goes past the
largest `int`. -/
theorem on_target_faults :
    ((init 0).setPosAll [(0, 1)]).runOnce 0 = .error .division ∧
    ((init 0).setPosAll [(2000, 30000)]).runOnce 0 = .error .overflow := by
  decide +kernel

end EyouMotorDevice

end TienKung
