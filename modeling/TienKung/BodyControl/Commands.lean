import TienKung.BodyControl.NodeState
import TienKung.Devices.MotorCommands
import TienKung.Devices.TsinghuaHand

/-!
# Command handlers

Nine subscriptions, each a loop over the commands of a message: look the device
up by name, skip it where it is not ready, call its setter. An exception ends
the command, not the loop. The `Run` thread makes devices ready meanwhile, so a
handler is given the manager as it is at each command.

A read beyond the arrays of a hand command is undefined: the handler is then
`none`.
-/

namespace TienKung

-- ---------------------------------------------------------------------------
-- Messages
-- ---------------------------------------------------------------------------

structure MotorCtrl where
  name : UInt16
  kp : ℚ
  kd : ℚ
  pos : ℚ
  spd : ℚ
  tor : ℚ

structure SetMotorPosition where
  name : UInt16
  pos : ℚ
  spd : ℚ
  cur : ℚ

structure SetMotorDistance where
  name : UInt16
  distance : ℚ
  spd : ℚ
  cur : ℚ

structure SetMotorSpeed where
  name : UInt16
  spd : ℚ
  cur : ℚ

structure SetTsHandPosition where
  name : Int32
  rotationAngle : UInt16
  bendAngle : List UInt16

structure SetTsHandCtrlItem where
  vel : UInt16
  startAngle : UInt16
  maxAngle : UInt16

structure SetTsHandCtrl where
  name : Int32
  rotation : SetTsHandCtrlItem
  bend : List SetTsHandCtrlItem
  threshold : List UInt16

inductive ZeroErrCommand
  | setFphc (kp kd position speed torque : ℚ)
  | setPos (position maxSpeed : ℚ)
  deriving DecidableEq

inductive EyouCommand
  | setPos (position maxSpeed : ℚ)
  deriving DecidableEq

def setPosOf (cmd : SetTsHandPosition) : Option HandCommand := do
  let bend (i : Nat) : Option FingerMotion := do return ⟨⟨1, (← cmd.bendAngle[i]?).toUInt8⟩⟩
  return .setPos
    { thumb := { toFingerMotion := ← bend 0, rotation := ⟨1, cmd.rotationAngle.toUInt8⟩ }
      fore := ← bend 1
      middle := ← bend 2
      ring := ← bend 3
      little := ← bend 4 }

def motionCtrlOf (item : SetTsHandCtrlItem) : MotionCtrl :=
  ⟨1, item.vel.toUInt8, item.startAngle.toUInt8, item.maxAngle.toUInt8⟩

def setMotionCtrlOf (cmd : SetTsHandCtrl) : Option HandCommand := do
  let finger (i : Nat) : Option FingerMotionCtrl := do
    return ⟨motionCtrlOf (← cmd.bend[i]?), ← cmd.threshold[i]?⟩
  return .setMotionCtrl
    { thumb := { toFingerMotionCtrl := ← finger 0, rotation := motionCtrlOf cmd.rotation }
      fore := ← finger 1
      middle := ← finger 2
      ring := ← finger 3
      little := ← finger 4 }

-- ---------------------------------------------------------------------------
-- The loop
-- ---------------------------------------------------------------------------

structure OutOfRange where
  name : Int

variable {K : ManagerKind} {Cmd Call : Type}

def Manager.getDevice (m : Manager K) (name : Int) : Except OutOfRange Nat :=
  match m.mapByName.lookup (K.key name) with
  | some dev => .ok dev
  | none => .error ⟨name⟩

/-- The `try` block: the setter calls it makes. -/
def tryCommand (m : Manager K) (name : Int) (call : Option Call) :
    Except OutOfRange (Option (List (Nat × Call))) := do
  let dev ← m.getDevice name
  if m.deviceReady dev then return call.map fun call => [(dev, call)] else return some []

def catchCommand (m : Manager K) (name : Int) (call : Option Call) : Option (List (Nat × Call)) :=
  match tryCommand m name call with
  | .ok calls => calls
  | .error _ => some []

/-- The rest of the loop, from the `k`th command on. -/
def handleFrom (m : Nat → Manager K) (name : Cmd → Int) (call : Cmd → Option Call) (k : Nat) :
    List Cmd → Option (List (Nat × Call))
  | [] => some []
  | cmd :: cmds => do
    let calls ← catchCommand (m k) (name cmd) (call cmd)
    return calls ++ (← handleFrom m name call (k + 1) cmds)

def handle (nodeState : UInt16) (m : Nat → Manager K) (name : Cmd → Int) (call : Cmd → Option Call)
    (cmds : List Cmd) : Option (List (Nat × Call)) :=
  if nodeState ≠ nodeStateRunning then some [] else handleFrom m name call 0 cmds

def onCmdMotorCtrlMsg (nodeState : UInt16) (mdm : Nat → Manager motorDeviceManager) :
    List MotorCtrl → Option (List (Nat × MotorCommand)) :=
  handle nodeState mdm (fun cmd => cmd.name.toNat) fun cmd =>
    some (.sendMotorCtrlCmd cmd.kp cmd.kd cmd.pos cmd.spd cmd.tor)

def onCmdSetMotorPosition (nodeState : UInt16) (mdm : Nat → Manager motorDeviceManager) :
    List SetMotorPosition → Option (List (Nat × MotorCommand)) :=
  handle nodeState mdm (fun cmd => cmd.name.toNat) fun cmd =>
    some (.setMotorPosition cmd.pos cmd.spd cmd.cur)

def onCmdSetMotorDistance (nodeState : UInt16) (mdm : Nat → Manager motorDeviceManager) :
    List SetMotorDistance → Option (List (Nat × MotorCommand)) :=
  handle nodeState mdm (fun cmd => cmd.name.toNat) fun cmd =>
    some (.setMotorDistance cmd.distance cmd.spd cmd.cur)

def onCmdSetMotorSpeed (nodeState : UInt16) (mdm : Nat → Manager motorDeviceManager) :
    List SetMotorSpeed → Option (List (Nat × MotorCommand)) :=
  handle nodeState mdm (fun cmd => cmd.name.toNat) fun cmd =>
    some (.setMotorSpeed cmd.spd cmd.cur)

def onCmdSetZeMotorFphc (nodeState : UInt16) (zMgr : Nat → Manager zeroErrMotorDevMgr) :
    List MotorCtrl → Option (List (Nat × ZeroErrCommand)) :=
  handle nodeState zMgr (fun cmd => cmd.name.toNat) fun cmd =>
    some (.setFphc cmd.kp cmd.kd cmd.pos cmd.spd cmd.tor)

def onCmdSetZeMotorPosition (nodeState : UInt16) (zMgr : Nat → Manager zeroErrMotorDevMgr) :
    List SetMotorPosition → Option (List (Nat × ZeroErrCommand)) :=
  handle nodeState zMgr (fun cmd => cmd.name.toNat) fun cmd => some (.setPos cmd.pos cmd.spd)

def onCmdSetEyouMotorPosition (nodeState : UInt16) (eyouMotorMgr : Nat → Manager eyouMotorDevMgr) :
    List SetMotorPosition → Option (List (Nat × EyouCommand)) :=
  handle nodeState eyouMotorMgr (fun cmd => cmd.name.toNat) fun cmd =>
    some (.setPos cmd.pos cmd.spd)

def onCmdSetSetTsHandPosition (nodeState : UInt16)
    (tsHandMgr : Nat → Manager tsinghuaHandDeviceManager) :
    List SetTsHandPosition → Option (List (Nat × HandCommand)) :=
  handle nodeState tsHandMgr (fun cmd => cmd.name.toInt) setPosOf

def onCmdSetSetTsHandCtrl (nodeState : UInt16)
    (tsHandMgr : Nat → Manager tsinghuaHandDeviceManager) :
    List SetTsHandCtrl → Option (List (Nat × HandCommand)) :=
  handle nodeState tsHandMgr (fun cmd => cmd.name.toInt) setMotionCtrlOf

-- ---------------------------------------------------------------------------
-- Which commands arrive
-- ---------------------------------------------------------------------------

/-- The setter call that a command should make. -/
def expectedCall (m : Manager K) (name : Int) (call : Call) : Option (Nat × Call) := do
  let dev ← m.mapByName.lookup (K.key name)
  if m.deviceReady dev then some (dev, call) else none

/-- The handler reaches nobody unless the node runs; then it calls the setter of
each device that is registered and ready, once for each command and in order. -/
structure Obeys (nodeState : UInt16) (m : Nat → Manager K) (name : Cmd → Int)
    (WellFormed : Cmd → Prop) (call : Cmd → Option Call)
    (handler : List Cmd → Option (List (Nat × Call))) : Prop where
  defined : ∀ cmd, WellFormed cmd → (call cmd).isSome
  idle : nodeState ≠ nodeStateRunning → ∀ cmds, handler cmds = some []
  running : nodeState = nodeStateRunning → ∀ cmds, (∀ cmd ∈ cmds, WellFormed cmd) →
    handler cmds = some ((cmds.zipIdx.filterMap fun p =>
      (call p.1).bind (expectedCall (m p.2) (name p.1))))

theorem catchCommand_some (m : Manager K) (name : Int) (call : Call) :
    catchCommand m name (some call) = some (expectedCall m name call).toList := by
  unfold catchCommand tryCommand Manager.getDevice expectedCall
  cases m.mapByName.lookup (K.key name) with
  | none => rfl
  | some dev => cases hr : m.deviceReady dev <;> simp [hr, bind, Except.bind, pure, Except.pure]

theorem handleFrom_eq (m : Nat → Manager K) (name : Cmd → Int) {call : Cmd → Option Call}
    (cmds : List Cmd) (k : Nat) (hcall : ∀ cmd ∈ cmds, (call cmd).isSome) :
    handleFrom m name call k cmds = some ((cmds.zipIdx k).filterMap fun p =>
      (call p.1).bind (expectedCall (m p.2) (name p.1))) := by
  induction cmds generalizing k with
  | nil => rfl
  | cons cmd cmds ih =>
    obtain ⟨c, hc⟩ := Option.isSome_iff_exists.mp (hcall cmd List.mem_cons_self)
    have hrest := ih (k + 1) fun cmd hm => hcall cmd (List.mem_cons_of_mem _ hm)
    rw [handleFrom, hrest, hc, catchCommand_some, List.zipIdx_cons, List.filterMap_cons]
    simp only [hc, Option.bind_some, Option.bind_eq_bind, Option.pure_def]
    cases expectedCall (m k) (name cmd) c <;> rfl

theorem handle_obeys (nodeState : UInt16) (m : Nat → Manager K) (name : Cmd → Int)
    {WellFormed : Cmd → Prop} {call : Cmd → Option Call}
    (hcall : ∀ cmd, WellFormed cmd → (call cmd).isSome) :
    Obeys nodeState m name WellFormed call (handle nodeState m name call) where
  defined := hcall
  idle hn cmds := by rw [handle, if_pos hn]
  running hn cmds hwell := by
    rw [handle, if_neg (not_not_intro hn)]
    exact handleFrom_eq m name cmds 0 fun cmd hm => hcall cmd (hwell cmd hm)

theorem getElem?_of_lt {α : Type} {xs : List α} (hlen : 5 ≤ xs.length) (hi : i < 5) :
    ∃ x, xs[i]? = some x :=
  ⟨_, List.getElem?_eq_getElem (Nat.lt_of_lt_of_le hi hlen)⟩

theorem setPosOf_isSome (cmd : SetTsHandPosition) (h : 5 ≤ cmd.bendAngle.length) :
    (setPosOf cmd).isSome := by
  obtain ⟨x0, h0⟩ := getElem?_of_lt h (i := 0) (by decide)
  obtain ⟨x1, h1⟩ := getElem?_of_lt h (i := 1) (by decide)
  obtain ⟨x2, h2⟩ := getElem?_of_lt h (i := 2) (by decide)
  obtain ⟨x3, h3⟩ := getElem?_of_lt h (i := 3) (by decide)
  obtain ⟨x4, h4⟩ := getElem?_of_lt h (i := 4) (by decide)
  simp [setPosOf, h0, h1, h2, h3, h4]

theorem setMotionCtrlOf_isSome (cmd : SetTsHandCtrl)
    (h : 5 ≤ cmd.bend.length ∧ 5 ≤ cmd.threshold.length) : (setMotionCtrlOf cmd).isSome := by
  obtain ⟨hbend, hthreshold⟩ := h
  have hfinger : ∀ i < 5, ∃ x y, cmd.bend[i]? = some x ∧ cmd.threshold[i]? = some y := by
    intro i hi
    obtain ⟨x, hx⟩ := getElem?_of_lt hbend hi
    obtain ⟨y, hy⟩ := getElem?_of_lt hthreshold hi
    exact ⟨x, y, hx, hy⟩
  obtain ⟨x0, y0, h0, k0⟩ := hfinger 0 (by decide)
  obtain ⟨x1, y1, h1, k1⟩ := hfinger 1 (by decide)
  obtain ⟨x2, y2, h2, k2⟩ := hfinger 2 (by decide)
  obtain ⟨x3, y3, h3, k3⟩ := hfinger 3 (by decide)
  obtain ⟨x4, y4, h4, k4⟩ := hfinger 4 (by decide)
  simp [setMotionCtrlOf, h0, h1, h2, h3, h4, k0, k1, k2, k3, k4]

section
variable (nodeState : UInt16) (mdm : Nat → Manager motorDeviceManager)
  (zMgr : Nat → Manager zeroErrMotorDevMgr) (eyouMotorMgr : Nat → Manager eyouMotorDevMgr)
  (tsHandMgr : Nat → Manager tsinghuaHandDeviceManager)

/-- All nine handlers obey, for the same reason. -/
theorem handlers_obey :
    Obeys nodeState mdm (fun cmd => cmd.name.toNat) (fun _ => True)
        (fun cmd => some (.sendMotorCtrlCmd cmd.kp cmd.kd cmd.pos cmd.spd cmd.tor))
        (onCmdMotorCtrlMsg nodeState mdm) ∧
      Obeys nodeState mdm (fun cmd => cmd.name.toNat) (fun _ => True)
        (fun cmd => some (.setMotorPosition cmd.pos cmd.spd cmd.cur))
        (onCmdSetMotorPosition nodeState mdm) ∧
      Obeys nodeState mdm (fun cmd => cmd.name.toNat) (fun _ => True)
        (fun cmd => some (.setMotorDistance cmd.distance cmd.spd cmd.cur))
        (onCmdSetMotorDistance nodeState mdm) ∧
      Obeys nodeState mdm (fun cmd => cmd.name.toNat) (fun _ => True)
        (fun cmd => some (.setMotorSpeed cmd.spd cmd.cur)) (onCmdSetMotorSpeed nodeState mdm) ∧
      Obeys nodeState zMgr (fun cmd => cmd.name.toNat) (fun _ => True)
        (fun cmd => some (.setFphc cmd.kp cmd.kd cmd.pos cmd.spd cmd.tor))
        (onCmdSetZeMotorFphc nodeState zMgr) ∧
      Obeys nodeState zMgr (fun cmd => cmd.name.toNat) (fun _ => True)
        (fun cmd => some (.setPos cmd.pos cmd.spd)) (onCmdSetZeMotorPosition nodeState zMgr) ∧
      Obeys nodeState eyouMotorMgr (fun cmd => cmd.name.toNat) (fun _ => True)
        (fun cmd => some (.setPos cmd.pos cmd.spd))
        (onCmdSetEyouMotorPosition nodeState eyouMotorMgr) ∧
      Obeys nodeState tsHandMgr (fun cmd => cmd.name.toInt) (fun cmd => 5 ≤ cmd.bendAngle.length)
        setPosOf (onCmdSetSetTsHandPosition nodeState tsHandMgr) ∧
      Obeys nodeState tsHandMgr (fun cmd => cmd.name.toInt)
        (fun cmd => 5 ≤ cmd.bend.length ∧ 5 ≤ cmd.threshold.length) setMotionCtrlOf
        (onCmdSetSetTsHandCtrl nodeState tsHandMgr) :=
  have hdefined {Cmd Call : Type} (call : Cmd → Call) (cmd : Cmd) (_ : True) :
      (some (call cmd)).isSome = true := rfl
  ⟨handle_obeys _ _ _ (hdefined _), handle_obeys _ _ _ (hdefined _),
    handle_obeys _ _ _ (hdefined _), handle_obeys _ _ _ (hdefined _),
    handle_obeys _ _ _ (hdefined _), handle_obeys _ _ _ (hdefined _),
    handle_obeys _ _ _ (hdefined _), handle_obeys _ _ _ setPosOf_isSome,
    handle_obeys _ _ _ setMotionCtrlOf_isSome⟩

end

end TienKung
