import TienKung.Canopen.Driver
import TienKung.Devices.MotorCommands
import Mathlib.Algebra.Order.Field.Rat
import Mathlib.Tactic.NormNum
import Mathlib.Tactic.Ring

/-!
# `ZeroErrMotorDevice` in `Mode::FPHC`

The loop turns the last command and the last feedback into a current, divides it
by the rated current that a response has to bring, and narrows the quotient to
an `int16_t`. It waits for no response and bounds nothing. Commands, responses
and rounds of the loop come in any order; arithmetic is exact.
-/

namespace TienKung

open Sdo (Ins Message)

-- ---------------------------------------------------------------------------
-- The loop
-- ---------------------------------------------------------------------------

structure Fphc where
  kp : ℚ := 0
  kd : ℚ := 0
  position : ℚ := 0
  speed : ℚ := 0
  torque : ℚ := 0
  deriving DecidableEq

structure ZeroErrFphc extends Fphc where
  motor : CanopenMotor
  kt : ℚ

namespace ZeroErrFphc

def start (zeroOffset kt : ℚ) : ZeroErrFphc where
  motor := { mode := .fphc, zeroOffset }
  kt := kt

def setFphc (d : ZeroErrFphc) (cmd : Fphc) : ZeroErrFphc :=
  { d with toFphc := { cmd with position := cmd.position + d.motor.zeroOffset } }

def current (d : ZeroErrFphc) : ℚ :=
  (d.kp * (d.position - d.motor.receivePosDeg / 180 * pi) +
    d.kd * (d.speed - d.motor.receiveVelDeg / 180 * pi) + d.torque) * d.kt * 10000

structure TorqueRequest where
  dividend : ℚ
  divisor : Int
  deriving DecidableEq

def request (d : ZeroErrFphc) : TorqueRequest :=
  ⟨d.current * 10000, d.motor.ratedCurrent.toInt⟩

inductive Event
  | setFphc (cmd : Fphc)
  | response (uninit : UInt32) (msg : DeviceMessage)
  | iterate

def step : Mealy.Step ZeroErrFphc Event TorqueRequest := fun d e =>
  match e with
  | .setFphc cmd => (d.setFphc cmd, [])
  | .response uninit msg => ({ d with motor := (d.motor.onResponse .zeroErr uninit msg).1 }, [])
  | .iterate => (d, [d.request])

/-- `current * 10000 / RatedCurrent`. -/
def TorqueRequest.quotient (req : TorqueRequest) : ℚ := req.dividend / req.divisor

/-- `int16_t(data)`. -/
def TorqueRequest.data (req : TorqueRequest) : Int16 := Int16.ofInt (truncate req.quotient)

/-- The division is one, and the conversion keeps its quotient but for the fraction. -/
structure TorqueRequest.InRange (req : TorqueRequest) : Prop where
  divisor : req.divisor ≠ 0
  low : -32768 ≤ req.quotient
  high : req.quotient ≤ 32767
  data : req.data.toInt = truncate req.quotient

-- ---------------------------------------------------------------------------
-- What the loop has been given
-- ---------------------------------------------------------------------------

def stored? (label : Ins) : Event → Option Int32
  | .response uninit msg => if CanopenMotor.Takes label msg
      then some (Message.ofBytes uninit msg.id msg.data).data.toInt32 else none
  | _ => none

/-- The last value stored under a label, zero before the first. -/
def lastStored (label : Ins) (past : List Event) : Int :=
  ((past.filterMap (stored? label)).getLast?.getD 0).toInt

def command? (zeroOffset : ℚ) : Event → Option Fphc
  | .setFphc cmd => some { cmd with position := cmd.position + zeroOffset }
  | _ => none

def lastCommand (zeroOffset : ℚ) (past : List Event) : Fphc :=
  (past.filterMap (command? zeroOffset)).getLast?.getD {}

def radians (pulses : Int) : ℚ := pulses * Driver.zeroErr.trans2Deg / 180 * pi

def torqueAsked (zeroOffset : ℚ) (past : List Event) : ℚ :=
  let cmd := lastCommand zeroOffset past
  cmd.kp * (cmd.position - radians (lastStored .actualPositionValue past)) +
    cmd.kd * (cmd.speed - radians (lastStored .actualVelocity past)) + cmd.torque

/-- A rated current has been heard, and it can carry what is asked for. -/
def Bounded (zeroOffset kt : ℚ) (past : List Event) : Prop :=
  let rated : ℚ := lastStored .motorRatedCurrent past
  rated ≠ 0 ∧ min (-32768 * rated) (32767 * rated) ≤ torqueAsked zeroOffset past * kt * 10 ^ 8 ∧
    torqueAsked zeroOffset past * kt * 10 ^ 8 ≤ max (-32768 * rated) (32767 * rated)

section
variable (zeroOffset kt : ℚ) (past : List Event)

theorem final_stored {α : Type*} {f : CanopenMotor → α} {g : Int32 → α} {label : Ins}
    (hl : label ∈ Driver.zeroErr.labels)
    (hflags : ∀ (d : CanopenMotor) statusReady ready, f { d with statusReady, ready } = f d)
    (hother : ∀ (d : CanopenMotor) other data, other ≠ label →
      f (d.store .zeroErr other data) = f d)
    (hstore : ∀ (d : CanopenMotor) data, f (d.store .zeroErr label data) = g data.toInt32)
    (h0 : f (start zeroOffset kt).motor = g 0) :
    f (Mealy.final step (start zeroOffset kt) past).motor =
      g ((past.filterMap (stored? label)).getLast?.getD 0) := by
  have hstep (d : ZeroErrFphc) (e : Event) :
      f (step d e).1.motor = ((stored? label e).map g).getD (f d.motor) := by
    cases e with
    | setFphc cmd => rfl
    | response uninit msg =>
      have hmember : f (d.motor.onResponse .zeroErr uninit msg).1 = _ :=
        CanopenMotor.onResponse_member hl hflags hother uninit
      show f (d.motor.onResponse .zeroErr uninit msg).1 = _
      rw [hmember, hstore, stored?]
      split_ifs <;> rfl
    | iterate => rfl
  have hlast : f (Mealy.final step (start zeroOffset kt) past).motor = _ :=
    Mealy.final_last (P := fun _ => True) (f := fun d : ZeroErrFphc => f d.motor) trivial
      fun d e _ => ⟨trivial, hstep d e⟩
  rw [hlast, h0, ← List.map_filterMap, List.getLast?_map, Option.getD_map]

theorem final_ratedCurrent :
    (Mealy.final step (start zeroOffset kt) past).motor.ratedCurrent.toInt =
      lastStored .motorRatedCurrent past :=
  congrArg Int32.toInt (final_stored zeroOffset kt past (f := CanopenMotor.ratedCurrent) (g := id)
    (by decide) (fun _ _ _ => rfl) (fun _ other _ h => by cases other <;> first | rfl | exact absurd rfl h)
    (fun _ _ => rfl) rfl)

theorem final_receivePosDeg :
    (Mealy.final step (start zeroOffset kt) past).motor.receivePosDeg =
      lastStored .actualPositionValue past * Driver.zeroErr.trans2Deg :=
  final_stored zeroOffset kt past (f := CanopenMotor.receivePosDeg)
    (g := fun n => n.toInt * Driver.zeroErr.trans2Deg) (by decide) (fun _ _ _ => rfl)
    (fun _ other _ h => by cases other <;> first | rfl | exact absurd rfl h) (fun _ _ => rfl)
    (zero_mul _).symm

theorem final_receiveVelDeg :
    (Mealy.final step (start zeroOffset kt) past).motor.receiveVelDeg =
      lastStored .actualVelocity past * Driver.zeroErr.trans2Deg :=
  final_stored zeroOffset kt past (f := CanopenMotor.receiveVelDeg)
    (g := fun n => n.toInt * Driver.zeroErr.trans2Deg) (by decide) (fun _ _ _ => rfl)
    (fun _ other _ h => by cases other <;> first | rfl | exact absurd rfl h) (fun _ _ => rfl)
    (zero_mul _).symm

theorem step_config (d : ZeroErrFphc) (e : Event) :
    (step d e).1.motor.zeroOffset = d.motor.zeroOffset ∧ (step d e).1.kt = d.kt := by
  cases e with
  | setFphc cmd => exact ⟨rfl, rfl⟩
  | response uninit msg =>
    have hlabel : Ins.statusWord ∈ Driver.zeroErr.labels := by decide
    have hstore (d : CanopenMotor) (other : Ins) (data : UInt32) :
        (d.store .zeroErr other data).zeroOffset = d.zeroOffset := by cases other <;> rfl
    have hmember : (d.motor.onResponse .zeroErr uninit msg).1.zeroOffset = _ :=
      CanopenMotor.onResponse_member (f := CanopenMotor.zeroOffset) hlabel (fun _ _ _ => rfl)
        (fun d other data _ => hstore d other data) uninit
    rw [hstore, ite_self] at hmember
    exact ⟨hmember, rfl⟩
  | iterate => exact ⟨rfl, rfl⟩

theorem final_config :
    (Mealy.final step (start zeroOffset kt) past).motor.zeroOffset = zeroOffset ∧
      (Mealy.final step (start zeroOffset kt) past).kt = kt :=
  Mealy.final_invariant (P := fun d : ZeroErrFphc => d.motor.zeroOffset = zeroOffset ∧ d.kt = kt)
    ⟨rfl, rfl⟩ fun d e h => ⟨(step_config d e).1.trans h.1, (step_config d e).2.trans h.2⟩

theorem final_command :
    (Mealy.final step (start zeroOffset kt) past).toFphc = lastCommand zeroOffset past := by
  refine Mealy.final_last (P := fun d : ZeroErrFphc => d.motor.zeroOffset = zeroOffset)
    (f := toFphc) rfl fun d e h => ⟨(step_config d e).1.trans h, ?_⟩
  cases e with
  | setFphc cmd => rw [← h]; rfl
  | response uninit msg => rfl
  | iterate => rfl

theorem final_request : (Mealy.final step (start zeroOffset kt) past).request =
    ⟨torqueAsked zeroOffset past * kt * 10 ^ 8, lastStored .motorRatedCurrent past⟩ := by
  rw [request, current, final_ratedCurrent, final_receivePosDeg, final_receiveVelDeg,
    (final_config zeroOffset kt past).2, final_command]
  simp only [torqueAsked, radians]
  congr 1
  ring

end

-- ---------------------------------------------------------------------------
-- Requests in range
-- ---------------------------------------------------------------------------

theorem div_between_iff {a b r : ℚ} (hab : a ≤ b) (hr : r ≠ 0) (x : ℚ) :
    (a ≤ x / r ∧ x / r ≤ b) ↔ min (a * r) (b * r) ≤ x ∧ x ≤ max (a * r) (b * r) := by
  rcases lt_or_gt_of_ne hr with hneg | hpos
  · have hle : b * r ≤ a * r := mul_le_mul_of_nonpos_right hab hneg.le
    rw [le_div_iff_of_neg hneg, div_le_iff_of_neg hneg, min_eq_right hle, max_eq_left hle, and_comm]
  · have hle : a * r ≤ b * r := mul_le_mul_of_nonneg_right hab hpos.le
    rw [le_div_iff₀ hpos, div_le_iff₀ hpos, min_eq_left hle, max_eq_right hle]

theorem TorqueRequest.inRange_iff {req : TorqueRequest} :
    req.InRange ↔ req.divisor ≠ 0 ∧ -32768 ≤ req.quotient ∧ req.quotient ≤ 32767 := by
  constructor
  · intro h
    exact ⟨h.divisor, h.low, h.high⟩
  · rintro ⟨hdivisor, hlow, hhigh⟩
    have hmem : -32768 ≤ truncate req.quotient ∧ truncate req.quotient ≤ 32767 :=
      truncate_mem (by decide) (by decide) (by exact_mod_cast hlow) (by exact_mod_cast hhigh)
    exact ⟨hdivisor, hlow, hhigh, Int16.toInt_ofInt_of_le hmem.1 (by omega)⟩

theorem request_inRange_iff (zeroOffset kt : ℚ) (past : List Event) :
    (Mealy.final step (start zeroOffset kt) past).request.InRange ↔ Bounded zeroOffset kt past := by
  rw [final_request, TorqueRequest.inRange_iff, TorqueRequest.quotient, Bounded,
    ← Int.cast_ne_zero (α := ℚ)]
  exact and_congr_right fun hr => div_between_iff (by norm_num) hr _

/-- The torque requests of a run are in range exactly when, before each round of the loop, a rated
current has been heard that can carry the torque asked for. -/
theorem torque_requests_inRange_iff (zeroOffset kt : ℚ) (events : List Event) :
    (∀ req ∈ Mealy.emitted step (start zeroOffset kt) events, req.InRange) ↔
      ∀ past rest, events = past ++ .iterate :: rest → Bounded zeroOffset kt past := by
  constructor
  · rintro h past rest rfl
    refine (request_inRange_iff zeroOffset kt past).mp (h _ ?_)
    exact Mealy.mem_emitted.mpr ⟨past, .iterate, rest, rfl, List.mem_singleton_self _⟩
  · intro h req hreq
    obtain ⟨past, e, rest, heq, hmem⟩ := Mealy.mem_emitted.mp hreq
    cases e with
    | setFphc cmd => cases hmem
    | response uninit msg => cases hmem
    | iterate =>
      rw [List.mem_singleton.mp hmem]
      exact (request_inRange_iff zeroOffset kt past).mpr (h past rest heq)

/-- The answers that let `Run` reach the loop: switched off, the torque mode, enabled. -/
def startUp : List Event :=
  [.response 0 ⟨0x581, 0, 8, #v[0x4B, 0x41, 0x60, 0, 0x21, 0, 0, 0]⟩,
    .response 0 ⟨0x581, 0, 8, #v[0x4F, 0x61, 0x60, 0, 0x0A, 0, 0, 0]⟩,
    .response 0 ⟨0x581, 0, 8, #v[0x4B, 0x41, 0x60, 0, 0x37, 0, 0, 0]⟩]

/-- The first round divides by zero if the rated current is late; and with one of 1000 a torque of 1
is narrowed to a negative number. -/
theorem torque_request_wraps :
    (∃ req ∈ Mealy.emitted step (start 0 1) (startUp ++ [.iterate]),
      req.divisor = 0 ∧ ¬ req.InRange) ∧
    ∃ req ∈ Mealy.emitted step (start 0 1) (startUp ++
        [.response 0 ⟨0x581, 0, 8, #v[0x43, 0x75, 0x60, 0, 0xE8, 0x03, 0, 0]⟩,
          .setFphc { torque := 1 }, .iterate]),
      req.quotient = 100000 ∧ req.data = -31072 ∧ ¬ req.InRange := by
  constructor
  · exact ⟨⟨0, 0⟩, by decide +kernel, rfl, fun h => h.divisor rfl⟩
  · have hquotient : (TorqueRequest.mk 100000000 1000).quotient = 100000 := by decide +kernel
    refine ⟨⟨100000000, 1000⟩, by decide +kernel, hquotient, by decide +kernel, fun h => ?_⟩
    have hhigh := h.high
    rw [hquotient] at hhigh
    exact absurd hhigh (by norm_num)

end ZeroErrFphc

end TienKung
