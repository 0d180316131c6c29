import TienKung.Soem.BusRuns

/-!
# What a device sees of the bus

Objects that keep to themselves do not meet on a bus where no two registrations
share a slot: what one of them goes through in a run is a run of its own, on the
commands for it and on its slots of the frames read back, and its slots of the
frames written carry what it answers.
-/

namespace TienKung

-- ---------------------------------------------------------------------------
-- Objects that keep to themselves
-- ---------------------------------------------------------------------------

inductive DeviceCall (κ : Type)
  | command (cmd : κ)
  | onRequest (passage : Int) (slot : DeviceMessage)
  | onResponse (passage : Int) (slot : DeviceMessage)
  deriving DecidableEq

structure ObjectCode (δ κ : Type) where
  command : δ → κ → δ
  onRequest : δ → (passage : Int) → DeviceMessage → δ × DeviceMessage
  onResponse : δ → (passage : Int) → DeviceMessage → δ × DeviceMessage

variable {δ κ : Type}

/-- One object by itself, with what it puts in the slots of its requests. -/
def ObjectCode.step (c : ObjectCode δ κ) : Mealy.Step δ (DeviceCall κ) DeviceMessage :=
  fun d call =>
  match call with
  | .command cmd => (c.command d cmd, [])
  | .onRequest passage slot => ((c.onRequest d passage slot).1, [(c.onRequest d passage slot).2])
  | .onResponse passage slot => ((c.onResponse d passage slot).1, [])

def objectsCode (c : ObjectCode δ κ) : WorldCode (Nat → δ) (Nat × κ) where
  command objects cmd := Function.update objects cmd.1 (c.command (objects cmd.1) cmd.2)
  onRequest objects dev passage slot :=
    let (d, msg) := c.onRequest (objects dev) passage slot
    (Function.update objects dev d, msg)
  onResponse objects dev passage slot :=
    let (d, msg) := c.onResponse (objects dev) passage slot
    (Function.update objects dev d, msg)

def BusCall.address : BusCall (Nat × κ) → Nat × DeviceCall κ
  | .command cmd => (cmd.1, .command cmd.2)
  | .onRequest dev passage slot => (dev, .onRequest passage slot)
  | .onResponse dev passage slot => (dev, .onResponse passage slot)

def callsOf (dev : Nat) (calls : List (BusCall (Nat × κ))) : List (DeviceCall κ) :=
  Mealy.ownOf dev (calls.map BusCall.address)

def DeviceCall.command? : DeviceCall κ → Option κ
  | .command cmd => some cmd
  | _ => none

section
variable {c : ObjectCode δ κ} {objects : Nat → δ} {calls : List (BusCall (Nat × κ))} {dev : Nat}

theorem objectsCode_step (c : ObjectCode δ κ) (objects : Nat → δ) (call : BusCall (Nat × κ)) :
    (objectsCode c).step objects call = Mealy.family c.step objects call.address := by
  cases call <;> rfl

theorem objectsCode_run : Mealy.final (objectsCode c).step objects calls =
      Mealy.final (Mealy.family c.step) objects (calls.map BusCall.address) ∧
    Mealy.emitted (objectsCode c).step objects calls =
      Mealy.emitted (Mealy.family c.step) objects (calls.map BusCall.address) := by
  induction calls generalizing objects with
  | nil => exact ⟨rfl, rfl⟩
  | cons call calls ih =>
    rw [List.map_cons, Mealy.final_cons, Mealy.final_cons, Mealy.emitted_cons, Mealy.emitted_cons,
      objectsCode_step]
    exact ⟨ih.1, congrArg _ ih.2⟩

theorem callsOf_cons (call : BusCall (Nat × κ)) : callsOf dev (call :: calls) =
    if call.address.1 = dev then call.address.2 :: callsOf dev calls else callsOf dev calls := by
  rw [callsOf, List.map_cons]
  split
  case isTrue h =>
    rw [← h]
    exact Mealy.ownOf_cons_self _
  case isFalse h => exact Mealy.ownOf_cons_ne h _

theorem commandsOf_callsOf : (callsOf dev calls).filterMap DeviceCall.command? =
    Mealy.ownOf dev (commandsOf calls) := by
  induction calls with
  | nil => rfl
  | cons call calls ih =>
    rw [callsOf_cons]
    cases call with
    | command cmd =>
      have hcons : commandsOf (.command cmd :: calls) = cmd :: commandsOf calls := rfl
      by_cases h : cmd.1 = dev
      · subst h
        rw [hcons, Mealy.ownOf_cons_self, ← ih]
        exact congrArg _ (if_pos rfl)
      · rw [hcons, Mealy.ownOf_cons_ne h, ← ih]
        exact congrArg _ (if_neg h)
    | onRequest d passage slot =>
      refine Eq.trans ?_ ih
      split <;> rfl
    | onResponse d passage slot =>
      refine Eq.trans ?_ ih
      split <;> rfl

theorem cycleCalls_callsOf : (callsOf dev calls).filter (·.command?.isNone) =
    callsOf dev (cycleCalls calls) := by
  induction calls with
  | nil => rfl
  | cons call calls ih =>
    rw [callsOf_cons]
    cases call with
    | command cmd =>
      refine Eq.trans ?_ ih
      split <;> rfl
    | onRequest d passage slot =>
      have hcons : cycleCalls (.onRequest d passage slot :: calls) =
        .onRequest d passage slot :: cycleCalls calls := rfl
      rw [hcons, callsOf_cons, ← ih]
      split <;> rfl
    | onResponse d passage slot =>
      have hcons : cycleCalls (.onResponse d passage slot :: calls) =
        .onResponse d passage slot :: cycleCalls calls := rfl
      rw [hcons, callsOf_cons, ← ih]
      split <;> rfl

end

-- ---------------------------------------------------------------------------
-- Runs
-- ---------------------------------------------------------------------------

variable {devices : List RegisteredDevice} {slaveModes : List Mode} {count : Nat}

def ownCycle (count : Nat) (served : List RegisteredDevice) (inputs : Nat → SlaveMessage) :
    List (DeviceCall κ) :=
  (served.map fun rd => .onRequest rd.passage .zero) ++
    served.map fun rd => .onResponse rd.passage (slotOf count inputs rd)

theorem callsOf_cycleOf {phase : Nat → Nat} (dev : Nat) (inputs : Nat → SlaveMessage) :
    callsOf (κ := κ) dev (cycleOf count (servedOf slaveModes phase devices) inputs) =
      ownCycle count (servedOf slaveModes phase (registeredAs dev devices)) inputs := by
  rw [callsOf, cycleOf, List.map_append, List.map_map, List.map_map, Mealy.ownOf_append]
  exact congrArg₂ _ (ownOf_served dev _) (ownOf_served dev _)

/-- What one object goes through in a run from `w` to `w'`; `served` are its registrations that
are served in each cycle. -/
structure LineOf (c : ObjectCode δ κ) (count : Nat) (served : Nat → List RegisteredDevice)
    (dev : Nat) (w w' : Station (Nat → δ) (Nat × κ)) (inputs : List (Nat → SlaveMessage))
    (logs : List (List BusEvent)) (calls : List (DeviceCall κ)) : Prop where
  object : w'.state dev = Mealy.final c.step (w.state dev) calls
  commands : calls.filterMap DeviceCall.command? ++ Mealy.ownOf dev w'.coming.flatten =
    Mealy.ownOf dev w.coming.flatten
  cycles : calls.filter (·.command?.isNone) =
    inputs.zipIdx.flatMap fun i => ownCycle count (served i.2) i.1
  slots : Mealy.emitted c.step (w.state dev) calls =
    logs.zipIdx.flatMap fun log => (served log.2).map (slotSent log.1)

theorem Station.Runs.lineOf {c : ObjectCode δ κ} {w w' : Station (Nat → δ) (Nat × κ)}
    {calls : List (BusCall (Nat × κ))} (dev : Nat)
    (h : Station.Runs (objectsCode c) count devices
      (fun k => servedOf slaveModes ((advance count)^[k] fun _ => 0)) w w' inputs logs calls)
    (hfound : ∀ rd ∈ registeredAs dev devices, rd.slave.toNat < count) :
    LineOf c count (fun k => servedOf slaveModes (fun _ => k) (registeredAs dev devices)) dev w w'
      inputs logs (callsOf dev calls) where
  object := by rw [h.state, objectsCode_run.1, Mealy.family_final, callsOf]
  commands := by rw [commandsOf_callsOf, ← Mealy.ownOf_append, h.coming]
  cycles := by
    rw [cycleCalls_callsOf, h.cycles, callsOf, List.map_flatMap, Mealy.ownOf_flatMap]
    refine List.flatMap_congr fun i _ => ?_
    rw [← servedOf_iterate i.2 hfound]
    exact callsOf_cycleOf dev i.1
  slots := by
    rw [callsOf, ← Mealy.family_emitted, ← objectsCode_run.2, h.slots dev hfound]
    refine List.flatMap_congr fun log _ => ?_
    rw [servedOf_iterate log.2 hfound]

/-- With in-range registrations that are apart, every object on the bus has a line of its own in
every run, whatever the others do and whenever commands come. -/
theorem private_lines (c : ObjectCode δ κ) (w : Station (Nat → δ) (Nat × κ))
    (registrations : List RegisteredDevice) (slaveModes : List Mode) (count : Nat)
    (inputs : List (Nat → SlaveMessage)) (hmodes : count ≤ slaveModes.length)
    (hslaves : count ≤ slaveNumber)
    (hreg : ∀ rd ∈ registrations, (0 ≤ rd.slave ∧ rd.slave < slaveModes.length) ∧
      rd.slave < slaveNumber ∧ 1 ≤ rd.passage ∧ rd.passage ≤ 6)
    (hapart : registrations.Pairwise Apart) :
    let code := stationCode (objectsCode c)
    ∃ logs b, run code count ⟨.init registrations slaveModes, w, []⟩ inputs = .ok logs ∧
      runBus code count ⟨.init registrations slaveModes, w, []⟩ inputs = .ok b ∧
      ∀ dev, (∀ rd ∈ registeredAs dev registrations, rd.slave.toNat < count) →
        ∃ calls, LineOf c count
          (fun k => servedOf slaveModes (fun _ => k) (registeredAs dev registrations))
          dev w b.world inputs logs calls := by
  intro code
  obtain ⟨logs, b, calls, hrun, hbus, hruns⟩ := run_follows (c := objectsCode c)
    (b := ⟨.init registrations slaveModes, w, []⟩) inputs
    (SoemMaster.init_inPhase registrations slaveModes) (cycles_inBounds hmodes hslaves hreg) hapart
  exact ⟨logs, b, hrun, hbus, fun dev hfound => ⟨callsOf dev calls, hruns.lineOf dev hfound⟩⟩

/-- Two counters share a slot of a time-sharing slave; the second one is given a command before the
first cycle and asked in the second. -/
theorem private_lines_of_counters :
    let c : ObjectCode UInt32 UInt32 :=
      ⟨fun d cmd => d + cmd, fun d _ slot => (d + 1, { slot with id := d }), fun d _ slot => (d, slot)⟩
    let w : Station (Nat → UInt32) (Nat × UInt32) := ⟨fun _ => 5, [[(1, 7)]]⟩
    let registrations : List RegisteredDevice := [⟨0, 1, 0, .standard⟩, ⟨0, 1, 1, .extended⟩]
    ∃ logs b, ∃ calls : List (DeviceCall UInt32),
      run (stationCode (objectsCode c)) 1 ⟨.init registrations [.timeSharing], w, []⟩
        (List.replicate 2 fun _ => .zero) = .ok logs ∧
      runBus (stationCode (objectsCode c)) 1 ⟨.init registrations [.timeSharing], w, []⟩
        (List.replicate 2 fun _ => .zero) = .ok b ∧
      calls.filter (·.command?.isNone) = [.onRequest 1 .zero, .onResponse 1 .zero] ∧
      b.world.state 1 = Mealy.final c.step 5 calls := by
  intro c w registrations
  obtain ⟨logs, b, hrun, hbus, hall⟩ := private_lines c w registrations [.timeSharing] 1
    (List.replicate 2 fun _ => .zero) (by decide) (by decide) (by decide) (by decide)
  obtain ⟨calls, hline⟩ := hall 1 (by decide)
  exact ⟨logs, b, calls, hrun, hbus, hline.cycles.trans (by decide +kernel), hline.object⟩

end TienKung
