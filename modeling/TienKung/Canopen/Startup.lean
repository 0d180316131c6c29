import TienKung.Canopen.Driver
import TienKung.Lib.Mealy

/-!
# Start-up in position mode

The start-up thread disables the motor, switches it to cyclic position mode and
then enables it. It waits by sleeping, so a bus cycle, an answer of the drive or
a loss may come between any two of its steps, and the frames in flight may
overtake one another. `DriverMode` and `ReceivePos` come from two independent
responses: the loop ends on the first, whether or not the second ever came.

The model keeps what the thread put on the queue (`pushed`) and what
`OnResponse` was given (`received`), both from the beginning.
-/

namespace TienKung

open Sdo (Ins Message)

-- ---------------------------------------------------------------------------
-- State
-- ---------------------------------------------------------------------------

/-- What the thread does next: `DisableMotor`, the loop that sets the mode, and
the beginning of `EnableMotor`. -/
inductive Pc
  | testDriverEnable | pushClearErrors | pushDisableMotor | pushGetMotorEnableState
  | testDriverMode | pushSetMotorMode | pushGetPosition | buildInitPosition
  | pushInitPosition (receivePos : Int32) | pushGetMaxSpeed | pushGetMotorMode
  | enableMotor
  deriving DecidableEq

structure Startup where
  pc : Pc
  motor : CanopenMotor
  reqQueue : List DeviceMessage
  /-- Requests on their way to the drive, and responses on their way back. -/
  requests : List DeviceMessage
  responses : List DeviceMessage
  pushed : List Message
  received : List DeviceMessage

def Startup.start (zeroOffset : ℚ) : Startup :=
  ⟨.testDriverEnable, { mode := .pos, zeroOffset := zeroOffset }, [], [], [], [], []⟩

-- ---------------------------------------------------------------------------
-- Steps
-- ---------------------------------------------------------------------------

def Startup.pendRequest (s : Startup) (req : Message) (next : Pc) : Startup :=
  { s with pc := next, reqQueue := s.reqQueue ++ [req.frame], pushed := s.pushed ++ [req] }

def csPosition : UInt32 := 0x08

def Startup.thread (drv : Driver) (id : UInt16) (s : Startup) : Startup :=
  let id := id.toUInt32
  match s.pc with
  | .testDriverEnable =>
    { s with pc := if s.motor.driverEnable ≠ 0 then .pushClearErrors else .testDriverMode }
  | .pushClearErrors => s.pendRequest (Sdo.reqWriteConrolWord id 0x80) .pushDisableMotor
  | .pushDisableMotor => s.pendRequest (Sdo.reqWriteConrolWord id 0x06) .pushGetMotorEnableState
  | .pushGetMotorEnableState => s.pendRequest (Sdo.readRequest .statusWord id) .testDriverEnable
  | .testDriverMode =>
    { s with
      pc := if s.motor.driverMode.toUInt32 ≠ csPosition then .pushSetMotorMode else .enableMotor }
  | .pushSetMotorMode => s.pendRequest (Sdo.reqWriteModesOfOperation id csPosition) .pushGetPosition
  | .pushGetPosition => s.pendRequest (Sdo.readRequest .actualPositionValue id) .buildInitPosition
  | .buildInitPosition => { s with pc := .pushInitPosition s.motor.receivePos }
  | .pushInitPosition receivePos =>
    s.pendRequest (Sdo.reqWriteTargetPosition id receivePos.toUInt32)
      (match drv with
        | .zeroErr => .pushGetMotorMode
        | .eyou => .pushGetMaxSpeed)
  | .pushGetMaxSpeed => s.pendRequest (Sdo.readRequest .maxProfileVelocity id 0x01) .pushGetMotorMode
  | .pushGetMotorMode => s.pendRequest (Sdo.readRequest .modesOfOperationDisplay id) .testDriverMode
  | .enableMotor => s

/-- What a drive may answer: a read response or an abort to a read, an
acknowledge or an abort to a write, for the object that was asked for. -/
def Answers (id : UInt16) (request response : DeviceMessage) : Prop :=
  response.id = Sdo.toResponseCanId id.toUInt32 ∧ response.dlc = 8 ∧
    response.data.get 1 = request.data.get 1 ∧ response.data.get 2 = request.data.get 2 ∧
    response.data.get 3 = request.data.get 3 ∧
    response.data.get 0 ∈ (if request.data.get 0 = Sdo.reqRead then Sdo.respException :: Sdo.readResponses
      else [Sdo.respWriteNormal, Sdo.respException])

instance (id : UInt16) (request response : DeviceMessage) :
    Decidable (Answers id request response) := by
  unfold Answers; infer_instance

/-- A step of the thread, of the bus (`OnRequest` on the request passage,
`OnResponse` with a frame in flight), of the drive, or a loss. -/
inductive Action
  | thread
  | request
  | response (i : Nat)
  | answer (i : Nat) (frame : DeviceMessage)
  | loseRequest (i : Nat)
  | loseResponse (i : Nat)
  deriving DecidableEq

def Startup.step (drv : Driver) (uninit : UInt32) (id : UInt16) :
    Mealy.Step Startup Action MotorStatusMessage := fun s a =>
  match a with
  | .thread => (s.thread drv id, [])
  | .request =>
    match s.reqQueue with
    | [] => (s, [])
    | msg :: rest => ({ s with reqQueue := rest, requests := s.requests ++ [msg] }, [])
  | .response i =>
    match s.responses[i]? with
    | some msg =>
      let (motor, out) := s.motor.onResponse drv uninit msg
      ({ s with motor, responses := s.responses.eraseIdx i, received := s.received ++ [msg] }, out)
    | none => (s, [])
  | .answer i frame =>
    match s.requests[i]? with
    | some req =>
      if Answers id req frame then
        ({ s with requests := s.requests.eraseIdx i, responses := s.responses ++ [frame] }, [])
      else (s, [])
    | none => (s, [])
  | .loseRequest i => ({ s with requests := s.requests.eraseIdx i }, [])
  | .loseResponse i => ({ s with responses := s.responses.eraseIdx i }, [])

-- ---------------------------------------------------------------------------
-- Targets and reports
-- ---------------------------------------------------------------------------

def target? (req : Message) : Option UInt32 :=
  if req.type = Sdo.reqWrite4Bytes ∧ req.getIns = Ins.targetPosition.value then some req.data else none

def Startup.lastTarget (s : Startup) : Option UInt32 := (s.pushed.filterMap target?).getLast?

/-- The message in a response frame; the fields used below do not depend on
what an unknown command byte leaves in `data`. -/
abbrev respOf (msg : DeviceMessage) : Message := .ofBytes 0 msg.id msg.data

abbrev IsPosition (msg : DeviceMessage) : Prop := CanopenMotor.Takes .actualPositionValue msg

def report? (msg : DeviceMessage) : Option UInt32 :=
  if IsPosition msg ∧ (respOf msg).type ∈ Sdo.readResponses then some (respOf msg).data else none

def Startup.reported (s : Startup) : List UInt32 := s.received.filterMap report?

/-- The last target position is one that the drive reported. -/
def TargetReported (s : Startup) : Prop := ∃ pos ∈ s.reported, s.lastTarget = some pos

instance (s : Startup) : Decidable (TargetReported s) := by unfold TargetReported; infer_instance

/-- A position response has been received, and no abort of a position read
after it. -/
def PositionHeard (s : Startup) : Prop :=
  ∃ msg ∈ (s.received.filter fun msg => IsPosition msg).getLast?, (report? msg).isSome

instance (s : Startup) : Decidable (PositionHeard s) := by unfold PositionHeard; infer_instance

/-- When the thread takes `ReceivePos` for the initial target, it has been heard. -/
def InitPositionHeard (s : Startup) (a : Action) : Prop :=
  a = .thread → s.pc = .buildInitPosition → PositionHeard s

instance (s : Startup) (a : Action) : Decidable (InitPositionHeard s a) := by
  unfold InitPositionHeard; infer_instance

end TienKung
