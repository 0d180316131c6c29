import TienKung.Devices.MotorDistance
import TienKung.Soem.PrivateLines

/-!
# From a command to the wire

A motor among other objects on the bus. The frames written carry, in its slots,
the frames of its commands in order, and no other's: each is on the wire before
the next, stays there while no other is queued, and waits for as many cycles as
there were frames before it at most.
-/

namespace TienKung

variable {δ κ : Type}

-- ---------------------------------------------------------------------------
-- Motors among other objects
-- ---------------------------------------------------------------------------

def withMotors (others : ObjectCode δ κ) : ObjectCode (QueuedMotor ⊕ δ) (MotorCommand ⊕ κ) where
  command
    | .inl d, .inl cmd => .inl (d.push (d.frame cmd))
    | .inr d, .inr cmd => .inr (others.command d cmd)
    | d, _ => d
  onRequest
    | .inl d, _, _ => (.inl d.onRequest.1, d.onRequest.2)
    | .inr d, passage, slot => ((others.onRequest d passage slot).map .inr id)
  onResponse
    | .inl d, _, slot => (.inl { d with toMotorDevice := (d.toMotorDevice.onResponse slot).1 }, slot)
    | .inr d, passage, slot => ((others.onResponse d passage slot).map .inr id)

def motorCall? : DeviceCall (MotorCommand ⊕ κ) → Option MotorCall
  | .command (.inl cmd) => some (.command cmd)
  | .command (.inr _) => none
  | .onRequest _ _ => some .onRequest
  | .onResponse _ slot => some (.onResponse slot)

def MotorCall.response? : MotorCall → Option DeviceMessage
  | .onResponse msg => some msg
  | _ => none

theorem gets_append (trace trace' : List (Fifo.Io DeviceMessage DeviceMessage)) :
    Fifo.gets (trace ++ trace') = Fifo.gets trace ++ Fifo.gets trace' := by
  induction trace with
  | nil => rfl
  | cons x trace ih =>
    cases x with
    | put frame => exact ih
    | get frame => exact congrArg _ ih

/-- A motor among the others is the motor by itself. -/
theorem withMotors_step (others : ObjectCode δ κ) (d : QueuedMotor)
    (call : DeviceCall (MotorCommand ⊕ κ)) :
    ((withMotors others).step (.inl d) call).1 =
        .inl (Mealy.final QueuedMotor.step d (motorCall? call).toList) ∧
      ((withMotors others).step (.inl d) call).2 =
        Fifo.gets (Mealy.emitted QueuedMotor.step d (motorCall? call).toList) := by
  cases call with
  | command cmd => cases cmd <;> exact ⟨rfl, rfl⟩
  | onRequest passage slot => exact ⟨rfl, rfl⟩
  | onResponse passage slot => exact ⟨rfl, rfl⟩

theorem withMotors_run (others : ObjectCode δ κ) (d : QueuedMotor)
    (calls : List (DeviceCall (MotorCommand ⊕ κ))) :
    Mealy.emitted (withMotors others).step (.inl d) calls =
      Fifo.gets (Mealy.emitted QueuedMotor.step d (calls.filterMap motorCall?)) := by
  induction calls generalizing d with
  | nil => rfl
  | cons call calls ih =>
    obtain ⟨hstate, hout⟩ := withMotors_step others d call
    have hcons : (call :: calls).filterMap motorCall? =
        (motorCall? call).toList ++ calls.filterMap motorCall? := by
      cases h : motorCall? call <;> simp [h]
    rw [Mealy.emitted_cons, hstate, hout, ih, hcons, Mealy.emitted_append, gets_append]

def DeviceCall.response? {κ : Type} : DeviceCall κ → Option DeviceMessage
  | .onResponse _ slot => some slot
  | _ => none

theorem responses_motorCalls (calls : List (DeviceCall (MotorCommand ⊕ κ))) :
    (calls.filterMap motorCall?).filterMap MotorCall.response? =
      (calls.filter (·.command?.isNone)).filterMap DeviceCall.response? := by
  induction calls with
  | nil => rfl
  | cons call calls ih =>
    cases call with
    | command cmd => cases cmd <;> exact ih
    | onRequest passage slot => exact ih
    | onResponse passage slot => exact congrArg _ ih

theorem responses_ownCycle (count : Nat) (served : List RegisteredDevice)
    (inputs : Nat → SlaveMessage) :
    (ownCycle (κ := κ) count served inputs).filterMap DeviceCall.response? =
      served.map (slotOf count inputs) := by
  rw [ownCycle, List.filterMap_append, List.filterMap_map, List.filterMap_map]
  have hrequests : served.filterMap (DeviceCall.response? ∘ fun rd : RegisteredDevice =>
      (.onRequest rd.passage .zero : DeviceCall κ)) = [] :=
    List.filterMap_eq_nil_iff.mpr fun _ _ => rfl
  have hresponses : served.filterMap (DeviceCall.response? ∘ fun rd : RegisteredDevice =>
      (.onResponse rd.passage (slotOf count inputs rd) : DeviceCall κ)) =
      served.map (slotOf count inputs) := by
    rw [← List.filterMap_eq_map]
    rfl
  rw [hrequests, hresponses, List.nil_append]

-- ---------------------------------------------------------------------------
-- The frames of a motor
-- ---------------------------------------------------------------------------

theorem MotorDevice.frame_id (d : MotorDevice) (cmd : MotorCommand) :
    (d.frame cmd).id = d.motorId.toUInt32 := by
  cases cmd <;> rfl

/-- The frames of the commands, each as the motor makes it when the command comes. -/
def MotorDevice.framesOf : MotorDevice → List MotorCall → List DeviceMessage
  | _, [] => []
  | d, .command cmd :: calls => d.frame cmd :: d.framesOf calls
  | d, .onRequest :: calls => d.framesOf calls
  | d, .onResponse msg :: calls => (d.onResponse msg).1.framesOf calls

/-- How many frames there are at each request, `n` at the first call. -/
def framesBefore (n : Nat) : List MotorCall → List Nat
  | [] => []
  | .command _ :: calls => framesBefore (n + 1) calls
  | .onRequest :: calls => n :: framesBefore n calls
  | .onResponse _ :: calls => framesBefore n calls

theorem MotorDevice.framesOf_id (d : MotorDevice) (calls : List MotorCall) :
    ∀ frame ∈ d.framesOf calls, frame.id = d.motorId.toUInt32 := by
  induction calls generalizing d with
  | nil => exact fun frame hframe => (List.not_mem_nil hframe).elim
  | cons call calls ih =>
    cases call with
    | command cmd => exact List.forall_mem_cons.mpr ⟨d.frame_id cmd, ih d⟩
    | onRequest => exact ih d
    | onResponse msg =>
      intro frame hframe
      rw [ih (d.onResponse msg).1 frame hframe, d.onResponse_config msg]

theorem puts_eq_framesOf (q : QueuedMotor) (calls : List MotorCall) :
    Fifo.puts (Mealy.emitted QueuedMotor.step q calls) = q.toMotorDevice.framesOf calls := by
  induction calls generalizing q with
  | nil => rfl
  | cons call calls ih =>
    cases call with
    | command cmd => exact congrArg _ (ih _)
    | onRequest => exact (ih q.onRequest.1).trans (by rw [q.onRequest_device]; rfl)
    | onResponse msg => exact ih _

theorem putBefore_eq_framesBefore (n : Nat) (q : QueuedMotor) (calls : List MotorCall) :
    Fifo.putBefore n (Mealy.emitted QueuedMotor.step q calls) = framesBefore n calls := by
  induction calls generalizing n q with
  | nil => rfl
  | cons call calls ih =>
    cases call with
    | command cmd => exact ih (n + 1) _
    | onRequest => exact congrArg _ (ih n _)
    | onResponse msg => exact ih n _

-- ---------------------------------------------------------------------------
-- Runs
-- ---------------------------------------------------------------------------

/-- With `calls` a motor hears `heard` and puts `wire` on the wire. -/
structure Commanded (d : MotorDevice) (calls : List MotorCall) (heard wire : List DeviceMessage) :
    Prop where
  heard : calls.filterMap MotorCall.response? = heard
  stutter : Fifo.Stutter (d.speedFrame 0 1 :: d.framesOf calls) 0 (framesBefore 1 calls) wire
  own : ∀ msg ∈ wire, msg.id = d.motorId.toUInt32
  soon : ∀ i j n, (framesBefore 1 calls)[i]? = some n → j < n → i + j < wire.length →
    ∃ msg ∈ wire.take (i + j + 1), (d.speedFrame 0 1 :: d.framesOf calls)[j]? = some msg

theorem commanded (d : MotorDevice) (calls : List MotorCall) :
    Commanded d calls (calls.filterMap MotorCall.response?)
      (Fifo.gets (Mealy.emitted QueuedMotor.step (.create d) calls)) := by
  set trace := Mealy.emitted QueuedMotor.step (.create d) calls with htrace
  have hputs : Fifo.puts trace = d.framesOf calls := puts_eq_framesOf (.create d) calls
  have hbefore : Fifo.putBefore 1 trace = framesBefore 1 calls :=
    putBefore_eq_framesBefore 1 (.create d) calls
  have hstutter : Fifo.Stutter (d.speedFrame 0 1 :: Fifo.puts trace) 0 (Fifo.putBefore 1 trace)
      (Fifo.gets trace) := by
    have hhold := Fifo.Hold.stutter [] (QueuedMotor.create d).hold
      (Mealy.translated QueuedMotor.step QueuedMotor.read (.create d) calls) nofun nofun
    rwa [QueuedMotor.simulates.emitted trivial] at hhold
  rw [hputs, hbefore] at hstutter
  refine ⟨rfl, hstutter, fun msg hmsg => ?_, fun i j n hi hj hlen => ?_⟩
  · rcases List.mem_cons.mp (hstutter.mem hmsg) with rfl | hframe
    · rfl
    · exact d.framesOf_id calls msg hframe
  · exact hstutter.reaches (hbefore ▸ Fifo.pairwise_putBefore 1 trace) hi hj (Nat.zero_le j) hlen

/-- The calls of a motor in a run of cycles. -/
def motorCalls (dev count : Nat) (registrations : List RegisteredDevice) (slaveModes : List Mode)
    (coming : List (List (Nat × (MotorCommand ⊕ κ)))) (inputs : List (Nat → SlaveMessage)) :
    List MotorCall :=
  (callsOf dev (runCalls count registrations slaveModes coming inputs)).filterMap motorCall?

/-- In every run with in-range registrations that are apart, the slots of a motor on the bus carry
the frames of the commands that come for it, whatever the other objects do. -/
theorem commands_reach_slots (others : ObjectCode δ κ)
    (w : Station (Nat → QueuedMotor ⊕ δ) (Nat × (MotorCommand ⊕ κ)))
    (registrations : List RegisteredDevice) (slaveModes : List Mode) (count : Nat)
    (inputs : List (Nat → SlaveMessage)) (hmodes : count ≤ slaveModes.length)
    (hslaves : count ≤ slaveNumber)
    (hreg : ∀ rd ∈ registrations, (0 ≤ rd.slave ∧ rd.slave < slaveModes.length) ∧
      rd.slave < slaveNumber ∧ 1 ≤ rd.passage ∧ rd.passage ≤ 6)
    (hapart : registrations.Pairwise Apart) (dev : Nat) (d : MotorDevice)
    (hmotor : w.state dev = .inl (.create d))
    (hfound : ∀ rd ∈ registeredAs dev registrations, rd.slave.toNat < count) :
    let code := stationCode (objectsCode (withMotors others))
    let served (k : Nat) := servedOf slaveModes (fun _ => k) (registeredAs dev registrations)
    ∃ logs, run code count ⟨.init registrations slaveModes, w, []⟩ inputs = .ok logs ∧
      Commanded d (motorCalls dev count registrations slaveModes w.coming inputs)
        (inputs.zipIdx.flatMap fun i => (served i.2).map (slotOf count i.1))
        (logs.zipIdx.flatMap fun log => (served log.2).map (slotSent log.1)) := by
  intro code served
  obtain ⟨logs, b, busCalls, hrun, -, hruns⟩ := run_follows
    (c := objectsCode (withMotors others)) (b := ⟨.init registrations slaveModes, w, []⟩) inputs
    (SoemMaster.init_inPhase registrations slaveModes) (cycles_inBounds hmodes hslaves hreg) hapart
  have hcalls : runCalls count registrations slaveModes w.coming inputs = busCalls := by
    rw [runCalls, ← hruns.cycles, ← hruns.arrived]
  have hline := hruns.lineOf dev hfound
  rw [motorCalls, hcalls]
  generalize callsOf dev busCalls = calls at hline
  have hheard : (calls.filterMap motorCall?).filterMap MotorCall.response? =
      inputs.zipIdx.flatMap fun i => (served i.2).map (slotOf count i.1) := by
    rw [responses_motorCalls, hline.cycles, List.filterMap_flatMap]
    simp only [responses_ownCycle]
    rfl
  have hwire : Fifo.gets (Mealy.emitted QueuedMotor.step (.create d) (calls.filterMap motorCall?)) =
      logs.zipIdx.flatMap fun log => (served log.2).map (slotSent log.1) := by
    rw [← withMotors_run others, ← hline.slots, hmotor]
  refine ⟨logs, hrun, ?_⟩
  rw [← hheard, ← hwire]
  exact commanded d _

/-- A motor beside another object on one slave is given a command in the first cycle, after it has
been asked; its frame is on the wire by the third. -/
theorem commands_reach_slots_of_two :
    let others : ObjectCode Unit Unit :=
      ⟨fun d _ => d, fun d _ slot => (d, slot), fun d _ slot => (d, slot)⟩
    let d : MotorDevice := ⟨⟨1, .s4310, 0⟩, 0, 0, 0, 0⟩
    let cmd : MotorCommand := .setMotorSpeed 1 1
    let w : Station (Nat → QueuedMotor ⊕ Unit) (Nat × (MotorCommand ⊕ Unit)) :=
      ⟨fun dev => if dev = 0 then .inl (.create d) else .inr (), [[], [], [(0, .inl cmd)]]⟩
    let registrations : List RegisteredDevice := [⟨0, 1, 0, .standard⟩, ⟨0, 2, 1, .standard⟩]
    ∃ logs, run (stationCode (objectsCode (withMotors others))) 1
        ⟨.init registrations [.standard], w, []⟩ (List.replicate 3 fun _ => .zero) = .ok logs ∧
      ∃ log ∈ logs, slotSent log ⟨0, 1, 0, .standard⟩ = d.frame cmd := by
  intro others d cmd w registrations
  obtain ⟨logs, hrun, hcommanded⟩ := commands_reach_slots others w registrations
    [.standard] 1 (List.replicate 3 fun _ => .zero) (by decide) (by decide) (by decide) (by decide) 0
    d rfl (by decide)
  obtain ⟨msg, hmsg, hframe⟩ := hcommanded.soon 1 1 2 (by decide +kernel) (by decide)
    (by rw [hcommanded.stutter.length_eq]; decide +kernel)
  have hcmd : some (d.frame cmd) = some msg := hframe
  obtain ⟨log, hlog, hslot⟩ := List.mem_flatMap.mp (List.mem_of_mem_take hmsg)
  obtain ⟨rd, hrd, hsent⟩ := List.mem_map.mp hslot
  obtain rfl : rd = ⟨0, 1, 0, .standard⟩ := List.mem_singleton.mp hrd
  exact ⟨logs, hrun, log.1, List.fst_mem_of_mem_zipIdx hlog, hsent.trans (Option.some_inj.mp hcmd).symm⟩

end TienKung
