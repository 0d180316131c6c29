import TienKung.BodyControl.Commands
import Mathlib.Data.List.ReduceOption

/-!
# What a hand command keeps of its message

The arrays of a message have any length and their entries are 16 bits wide; the
handlers index them without a check and narrow angles and velocities to bytes.
-/

namespace TienKung

variable {K : ManagerKind} {Cmd Call : Type}

-- ---------------------------------------------------------------------------
-- Values
-- ---------------------------------------------------------------------------

def SetTsHandPosition.angles (cmd : SetTsHandPosition) : List Nat :=
  (cmd.rotationAngle :: cmd.bendAngle.take 5).map UInt16.toNat

def FingerSetPositionCmd.angles (cmd : FingerSetPositionCmd) : List Nat :=
  [cmd.thumb.rotation.angle, cmd.thumb.bend.angle, cmd.fore.bend.angle, cmd.middle.bend.angle,
    cmd.ring.bend.angle, cmd.little.bend.angle].map UInt8.toNat

/-- The call carries the commanded angles. -/
def SetTsHandPosition.Carried (cmd : SetTsHandPosition) : HandCommand → Prop
  | .setPos call => call.angles = cmd.angles
  | _ => False

def SetTsHandCtrlItem.values (item : SetTsHandCtrlItem) : List Nat :=
  [item.vel.toNat, item.startAngle.toNat, item.maxAngle.toNat]

def MotionCtrl.values (item : MotionCtrl) : List Nat :=
  [item.vel.toNat, item.startAngle.toNat, item.maxAngle.toNat]

def SetTsHandCtrl.items (cmd : SetTsHandCtrl) : List (List Nat) :=
  (cmd.rotation :: cmd.bend.take 5).map SetTsHandCtrlItem.values

def FingerMotionCtrlCmd.items (cmd : FingerMotionCtrlCmd) : List (List Nat) :=
  [cmd.thumb.rotation, cmd.thumb.bend, cmd.fore.bend, cmd.middle.bend, cmd.ring.bend,
    cmd.little.bend].map MotionCtrl.values

def FingerMotionCtrlCmd.thresholds (cmd : FingerMotionCtrlCmd) : List UInt16 :=
  [cmd.thumb.threshold, cmd.fore.threshold, cmd.middle.threshold, cmd.ring.threshold,
    cmd.little.threshold]

/-- The call carries the commanded velocities, angles and thresholds. -/
def SetTsHandCtrl.Carried (cmd : SetTsHandCtrl) : HandCommand → Prop
  | .setMotionCtrl call => call.items = cmd.items ∧ call.thresholds = cmd.threshold.take 5
  | _ => False

/-- Five fingers, and values that a byte holds. -/
def SetTsHandPosition.Fits (cmd : SetTsHandPosition) : Prop :=
  5 ≤ cmd.bendAngle.length ∧ ∀ v ∈ cmd.angles, v < 256

def SetTsHandCtrl.Fits (cmd : SetTsHandCtrl) : Prop :=
  5 ≤ cmd.bend.length ∧ 5 ≤ cmd.threshold.length ∧ ∀ v ∈ cmd.items.flatten, v < 256

theorem toNat_toUInt8_eq_iff (v : UInt16) : v.toUInt8.toNat = v.toNat ↔ v.toNat < 256 := by
  rw [UInt16.toNat_toUInt8]
  omega

theorem exists_five {α : Type} {xs : List α} (h : 5 ≤ xs.length) :
    ∃ a b c d e rest, xs = a :: b :: c :: d :: e :: rest := by
  match xs, h with
  | a :: b :: c :: d :: e :: rest, _ => exact ⟨a, b, c, d, e, rest, rfl⟩

theorem lt_length_of_getElem? {α : Type} {xs : List α} {x : α} (h : xs[i]? = some x) :
    i < xs.length :=
  (List.getElem?_eq_some_iff.mp h).1

theorem setPosOf_length {cmd : SetTsHandPosition} (h : setPosOf cmd = some call) :
    5 ≤ cmd.bendAngle.length := by
  simp only [setPosOf, Option.pure_def, Option.bind_eq_bind,
    Option.bind_eq_some_iff] at h
  grind [lt_length_of_getElem?]

theorem setMotionCtrlOf_length {cmd : SetTsHandCtrl} (h : setMotionCtrlOf cmd = some call) :
    5 ≤ cmd.bend.length ∧ 5 ≤ cmd.threshold.length := by
  simp only [setMotionCtrlOf, Option.pure_def, Option.bind_eq_bind,
    Option.bind_eq_some_iff] at h
  grind [lt_length_of_getElem?]

theorem setPosOf_carried_iff (cmd : SetTsHandPosition) :
    (∃ call, setPosOf cmd = some call ∧ cmd.Carried call) ↔ cmd.Fits := by
  constructor
  · rintro ⟨call, hcall, hcarried⟩
    have hlen := setPosOf_length hcall
    obtain ⟨name, rotation, bend⟩ := cmd
    obtain ⟨a, b, c, d, e, rest, rfl⟩ := exists_five hlen
    obtain rfl : _ = call := Option.some.inj hcall
    refine ⟨hlen, ?_⟩
    simpa [SetTsHandPosition.Carried, FingerSetPositionCmd.angles, SetTsHandPosition.angles,
      toNat_toUInt8_eq_iff] using hcarried
  · rintro ⟨hlen, hfits⟩
    obtain ⟨name, rotation, bend⟩ := cmd
    obtain ⟨a, b, c, d, e, rest, rfl⟩ := exists_five hlen
    refine ⟨_, rfl, ?_⟩
    simpa [SetTsHandPosition.Carried, FingerSetPositionCmd.angles, SetTsHandPosition.angles,
      toNat_toUInt8_eq_iff] using hfits

theorem setMotionCtrlOf_carried_iff (cmd : SetTsHandCtrl) :
    (∃ call, setMotionCtrlOf cmd = some call ∧ cmd.Carried call) ↔ cmd.Fits := by
  constructor
  · rintro ⟨call, hcall, hcarried⟩
    have hlen := setMotionCtrlOf_length hcall
    obtain ⟨name, rotation, bend, threshold⟩ := cmd
    obtain ⟨a, b, c, d, e, rest, rfl⟩ := exists_five hlen.1
    obtain ⟨ta, tb, tc, td, te, trest, rfl⟩ := exists_five hlen.2
    obtain rfl : _ = call := Option.some.inj hcall
    refine ⟨hlen.1, hlen.2, ?_⟩
    simpa [SetTsHandCtrl.Carried, FingerMotionCtrlCmd.items, FingerMotionCtrlCmd.thresholds,
      SetTsHandCtrl.items, SetTsHandCtrlItem.values, MotionCtrl.values, motionCtrlOf,
      toNat_toUInt8_eq_iff, and_assoc] using hcarried
  · rintro ⟨hbend, hthreshold, hfits⟩
    obtain ⟨name, rotation, bend, threshold⟩ := cmd
    obtain ⟨a, b, c, d, e, rest, rfl⟩ := exists_five hbend
    obtain ⟨ta, tb, tc, td, te, trest, rfl⟩ := exists_five hthreshold
    refine ⟨_, rfl, ?_⟩
    simpa [SetTsHandCtrl.Carried, FingerMotionCtrlCmd.items, FingerMotionCtrlCmd.thresholds,
      SetTsHandCtrl.items, SetTsHandCtrlItem.values, MotionCtrl.values, motionCtrlOf,
      toNat_toUInt8_eq_iff, and_assoc] using hfits

-- ---------------------------------------------------------------------------
-- The loop
-- ---------------------------------------------------------------------------

/-- The device is registered and ready. -/
def Manager.HasReady (m : Manager K) (name : Int) : Prop :=
  ∃ dev, m.mapByName.lookup (K.key name) = some dev ∧ m.deviceReady dev = true

/-- The command is rejected, or its call carries what it says; `none` is an outcome of
neither kind, a read beyond an array. -/
def CommandOutcome (m : Manager K) (name : Int) (call : Option Call) (Carried : Call → Prop)
    (outcome : Option (Nat × Call)) : Prop :=
  catchCommand m name call = some outcome.toList ∧ ∀ c ∈ outcome, Carried c.2

/-- The handler gets through the message, and each command has its outcome. -/
def Processed (nodeState : UInt16) (m : Nat → Manager K) (name : Cmd → Int)
    (call : Cmd → Option Call) (Carried : Cmd → Call → Prop)
    (handler : List Cmd → Option (List (Nat × Call))) (cmds : List Cmd) : Prop :=
  nodeState = nodeStateRunning → ∃ outcomes : List (Option (Nat × Call)),
    handler cmds = some outcomes.reduceOption ∧
      List.Forall₂ (fun p => CommandOutcome (m p.2) (name p.1) (call p.1) (Carried p.1))
        cmds.zipIdx outcomes

theorem exists_commandOutcome_iff (m : Manager K) (name : Int) (call : Option Call)
    (Carried : Call → Prop) :
    (∃ outcome, CommandOutcome m name call Carried outcome) ↔
      (m.HasReady name → ∃ c, call = some c ∧ Carried c) := by
  unfold CommandOutcome
  by_cases h : m.HasReady name
  · obtain ⟨dev, hdev, hready⟩ := h
    have hcatch : catchCommand m name call = call.map fun c => [(dev, c)] := by
      simp [catchCommand, tryCommand, Manager.getDevice, hdev, hready, bind, Except.bind, pure,
        Except.pure]
    rw [hcatch]
    constructor
    · rintro ⟨outcome, hcall, hcarried⟩ -
      obtain ⟨c, rfl, hc⟩ := Option.map_eq_some_iff.mp hcall
      cases outcome with
      | none => simp at hc
      | some o =>
        obtain rfl : (dev, c) = o := (List.cons.inj hc).1
        exact ⟨c, rfl, hcarried _ rfl⟩
    · intro h
      obtain ⟨c, rfl, hc⟩ := h ⟨dev, hdev, hready⟩
      exact ⟨some (dev, c), rfl, fun o ho => Option.some.inj ho ▸ hc⟩
  · have hcatch : catchCommand m name call = some [] := by
      unfold catchCommand tryCommand Manager.getDevice
      cases hdev : m.mapByName.lookup (K.key name) with
      | none => rfl
      | some dev =>
        have hready : ¬ m.deviceReady dev = true := fun hr => h ⟨dev, hdev, hr⟩
        simp [hready, bind, Except.bind, pure, Except.pure]
    exact ⟨fun _ hr => absurd hr h, fun _ => ⟨none, hcatch, fun c hc => nomatch hc⟩⟩

theorem handleFrom_of_outcomes {m : Nat → Manager K} {name : Cmd → Int} {call : Cmd → Option Call}
    {Carried : Cmd → Call → Prop} {cmds : List Cmd} {outcomes : List (Option (Nat × Call))}
    (h : List.Forall₂ (fun p => CommandOutcome (m p.2) (name p.1) (call p.1) (Carried p.1))
      (cmds.zipIdx k) outcomes) :
    handleFrom m name call k cmds = some outcomes.reduceOption := by
  induction cmds generalizing k outcomes with
  | nil =>
    cases h
    rfl
  | cons cmd cmds ih =>
    rw [List.zipIdx_cons] at h
    cases h with
    | @cons _ outcome _ _ hfirst hrest =>
      rw [handleFrom, hfirst.1, ih hrest]
      cases outcome with
      | none => rw [List.reduceOption_cons_of_none]; rfl
      | some o => rw [List.reduceOption_cons_of_some]; rfl

theorem exists_forall₂_iff {α β : Type} {R : α → β → Prop} {xs : List α} :
    (∃ ys, List.Forall₂ R xs ys) ↔ ∀ x ∈ xs, ∃ y, R x y := by
  induction xs with
  | nil => simp
  | cons x xs ih =>
    rw [List.forall_mem_cons, ← ih]
    constructor
    · rintro ⟨_, _ | ⟨hx, hxs⟩⟩
      exact ⟨⟨_, hx⟩, _, hxs⟩
    · rintro ⟨⟨y, hy⟩, ys, hys⟩
      exact ⟨y :: ys, .cons hy hys⟩

/-- What is asked of a message: each command for a device that is there and ready fits. -/
def AllFit (nodeState : UInt16) (m : Nat → Manager K) (name : Cmd → Int) (Fits : Cmd → Prop)
    (cmds : List Cmd) : Prop :=
  nodeState = nodeStateRunning → ∀ p ∈ cmds.zipIdx, (m p.2).HasReady (name p.1) → Fits p.1

theorem handle_processed_iff (nodeState : UInt16) (m : Nat → Manager K) (name : Cmd → Int)
    {call : Cmd → Option Call} {Carried : Cmd → Call → Prop} {Fits : Cmd → Prop}
    (hfits : ∀ cmd, (∃ c, call cmd = some c ∧ Carried cmd c) ↔ Fits cmd) (cmds : List Cmd) :
    Processed nodeState m name call Carried (handle nodeState m name call) cmds ↔
      AllFit nodeState m name Fits cmds := by
  unfold Processed AllFit
  refine imp_congr_right fun hn => ?_
  have houtcomes : (∀ p ∈ cmds.zipIdx, (m p.2).HasReady (name p.1) → Fits p.1) ↔
      ∃ outcomes, List.Forall₂
        (fun p => CommandOutcome (m p.2) (name p.1) (call p.1) (Carried p.1)) cmds.zipIdx
        outcomes := by
    simp only [exists_forall₂_iff, exists_commandOutcome_iff, hfits]
  rw [houtcomes, handle, if_neg (not_not_intro hn)]
  exact exists_congr fun outcomes => ⟨And.right, fun h => ⟨handleFrom_of_outcomes h, h⟩⟩

section
variable (nodeState : UInt16) (tsHandMgr : Nat → Manager tsinghuaHandDeviceManager)

/-- Both handlers get through a message, each command rejected or enqueued with exactly its
values, where the commands that reach a hand have five fingers and values of a byte. -/
theorem hand_commands_processed_iff :
    (∀ cmds, Processed nodeState tsHandMgr (fun cmd => cmd.name.toInt) setPosOf
        SetTsHandPosition.Carried (onCmdSetSetTsHandPosition nodeState tsHandMgr) cmds ↔
      AllFit nodeState tsHandMgr (fun cmd => cmd.name.toInt) SetTsHandPosition.Fits cmds) ∧
    ∀ cmds, Processed nodeState tsHandMgr (fun cmd => cmd.name.toInt) setMotionCtrlOf
        SetTsHandCtrl.Carried (onCmdSetSetTsHandCtrl nodeState tsHandMgr) cmds ↔
      AllFit nodeState tsHandMgr (fun cmd => cmd.name.toInt) SetTsHandCtrl.Fits cmds :=
  ⟨handle_processed_iff nodeState tsHandMgr _ setPosOf_carried_iff,
    handle_processed_iff nodeState tsHandMgr _ setMotionCtrlOf_carried_iff⟩

end

/-- An angle of 300 is sent as 44, and a message with no bend angles is read beyond its end. -/
theorem not_hand_position_processed :
    let tsHandMgr : Nat → Manager tsinghuaHandDeviceManager := fun _ =>
      .after tsinghuaHandDeviceManager [1] [.setReady 0]
    ¬ Processed nodeStateRunning tsHandMgr (fun cmd => cmd.name.toInt) setPosOf
        SetTsHandPosition.Carried (onCmdSetSetTsHandPosition nodeStateRunning tsHandMgr)
        [⟨1, 300, [0, 0, 0, 0, 0]⟩] ∧
      onCmdSetSetTsHandPosition nodeStateRunning tsHandMgr [⟨1, 0, []⟩] = none := by
  intro tsHandMgr
  refine ⟨fun h => ?_, by decide⟩
  have hall := (handle_processed_iff _ _ _ setPosOf_carried_iff _).mp h
  have hfits := hall rfl (⟨1, 300, [0, 0, 0, 0, 0]⟩, 0) List.mem_cons_self ⟨0, by decide, by decide⟩
  exact absurd (hfits.2 300 (by decide)) (by decide)

end TienKung
