import TienKung.Devices.MotorCycles
import TienKung.Soem.BusRuns

/-!
# From the wire to the queue

The motors of a `MotorDeviceManager` among other objects on the bus. What their
slots of the frames read back hold for them is queued for publication, each
status once and in order, but for those of the message that is being built.
-/

namespace TienKung

variable {σ κ : Type} {specs : List MotorSpec}

-- ---------------------------------------------------------------------------
-- Motors and their manager among other objects
-- ---------------------------------------------------------------------------

/-- The motors are the first objects; `rest` is for the others, and for the commands. -/
structure MotorPlant (σ : Type) where
  bus : MotorBus
  /-- The messages pushed for publication. -/
  msgQueue : List (List MotorStatus)
  rest : σ

def plantCode (motors : Nat) (others : WorldCode σ κ) : WorldCode (MotorPlant σ) κ where
  command p cmd := { p with rest := others.command p.rest cmd }
  onRequest p dev passage slot :=
    let (rest, msg) := others.onRequest p.rest dev passage slot
    ({ p with rest }, msg)
  onResponse p dev passage slot :=
    if dev < motors then
      let (bus, msgs) := p.bus.onResponse (dev, slot)
      ({ p with bus, msgQueue := p.msgQueue ++ msgs }, slot)
    else
      let (rest, msg) := others.onResponse p.rest dev passage slot
      ({ p with rest }, msg)

def BusCall.visit? (motors : Nat) : BusCall κ → Option Visit
  | .onResponse dev _ slot => if dev < motors then some (dev, slot) else none
  | _ => none

theorem plantCode_step (motors : Nat) (others : WorldCode σ κ) (p : MotorPlant σ)
    (call : BusCall κ) :
    let p' := ((plantCode motors others).step p call).1
    p'.bus = Mealy.final MotorBus.onResponse p.bus (call.visit? motors).toList ∧
      p'.msgQueue =
        p.msgQueue ++ Mealy.emitted MotorBus.onResponse p.bus (call.visit? motors).toList := by
  cases call with
  | command cmd => exact ⟨rfl, (List.append_nil _).symm⟩
  | onRequest dev passage slot => exact ⟨rfl, (List.append_nil _).symm⟩
  | onResponse dev passage slot =>
    by_cases h : dev < motors
    · simp [WorldCode.step, plantCode, BusCall.visit?, h]
    · simp [WorldCode.step, plantCode, BusCall.visit?, h]

theorem plantCode_run (motors : Nat) (others : WorldCode σ κ) (p : MotorPlant σ)
    (calls : List (BusCall κ)) :
    let p' := Mealy.final (plantCode motors others).step p calls
    p'.bus = Mealy.final MotorBus.onResponse p.bus (calls.filterMap (BusCall.visit? motors)) ∧
      p'.msgQueue = p.msgQueue ++
        Mealy.emitted MotorBus.onResponse p.bus (calls.filterMap (BusCall.visit? motors)) := by
  induction calls generalizing p with
  | nil => exact ⟨rfl, (List.append_nil _).symm⟩
  | cons call calls ih =>
    obtain ⟨hbus, hqueue⟩ := plantCode_step motors others p call
    have hcons : (call :: calls).filterMap (BusCall.visit? motors) =
        (call.visit? motors).toList ++ calls.filterMap (BusCall.visit? motors) := by
      cases h : call.visit? motors <;> simp [h]
    obtain ⟨hbus', hqueue'⟩ := ih ((plantCode motors others).step p call).1
    rw [Mealy.final_cons]
    refine ⟨?_, ?_⟩
    · rw [hbus', hbus, hcons, Mealy.final_append]
    · rw [hqueue', hqueue, hbus, hcons, Mealy.emitted_append, List.append_assoc]

theorem visits_cycleCalls {motors : Nat} (calls : List (BusCall κ)) :
    (cycleCalls calls).filterMap (BusCall.visit? motors) =
      calls.filterMap (BusCall.visit? motors) := by
  induction calls with
  | nil => rfl
  | cons call calls ih =>
    cases call with
    | command cmd => exact ih
    | onRequest dev passage slot => exact ih
    | onResponse dev passage slot =>
      have hcons : cycleCalls (.onResponse dev passage slot :: calls) =
        .onResponse dev passage slot :: cycleCalls calls := rfl
      rw [hcons, List.filterMap_cons, List.filterMap_cons, ih]

-- ---------------------------------------------------------------------------
-- Statuses
-- ---------------------------------------------------------------------------

theorem MotorBus.statuses_kept (garbage : MotorReport) (specs : List MotorSpec) (vs : List Visit) :
    (Mealy.emitted onResponse (create garbage specs) vs).flatten ++
      (Mealy.final onResponse (create garbage specs) vs).manager.msgStatus = statuses specs vs := by
  have hkept := (create_configured garbage specs).conserve (Manager.create_registered (names specs))
    vs
  have hstart : (create garbage specs).manager.msgStatus = [] := (Manager.create_start _).2
  rwa [hstart, List.nil_append] at hkept

/-- What a frame read back holds for a motor. -/
def statusIn (specs : List MotorSpec) (count : Nat) (inputs : Nat → SlaveMessage)
    (rd : RegisteredDevice) : Option MotorStatus :=
  specs[rd.dev]?.bind fun s => s.entry? (slotOf count inputs rd)

def motorsOf (motors : Nat) (registrations : List RegisteredDevice) : List RegisteredDevice :=
  registrations.filter (·.dev < motors)

theorem statuses_cycleOf {slaveModes : List Mode} {phase : Nat → Nat} {count : Nat}
    (registrations : List RegisteredDevice) (inputs : Nat → SlaveMessage) :
    statuses specs ((cycleOf (κ := κ) count (servedOf slaveModes phase registrations) inputs).filterMap
        (BusCall.visit? specs.length)) =
      (servedOf slaveModes phase (motorsOf specs.length registrations)).filterMap
        (statusIn specs count inputs) := by
  have hserved : servedOf slaveModes phase (motorsOf specs.length registrations) =
      (servedOf slaveModes phase registrations).filter (·.dev < specs.length) := List.filter_comm ..
  rw [hserved]
  generalize servedOf slaveModes phase registrations = served
  have hrequests : (served.map fun rd => (.onRequest rd.dev rd.passage .zero : BusCall κ)).filterMap
      (BusCall.visit? specs.length) = [] := by
    rw [List.filterMap_map]
    exact List.filterMap_eq_nil_iff.mpr fun _ _ => rfl
  rw [cycleOf, List.filterMap_append, hrequests, List.nil_append, statuses, List.filterMap_map,
    List.filterMap_filterMap, List.filterMap_filter]
  refine List.filterMap_congr fun rd _ => ?_
  by_cases h : rd.dev < specs.length <;> simp [BusCall.visit?, h, statusIn]

/-- In every run with in-range registrations that are apart, the messages queued and the one that is
being built hold the statuses that came on the wire for the motors, in order, each once. -/
theorem statuses_reach_queue (others : WorldCode σ κ) (w : Station (MotorPlant σ) κ)
    (registrations : List RegisteredDevice) (slaveModes : List Mode) (count : Nat)
    (inputs : List (Nat → SlaveMessage)) (hmodes : count ≤ slaveModes.length)
    (hslaves : count ≤ slaveNumber)
    (hreg : ∀ rd ∈ registrations, (0 ≤ rd.slave ∧ rd.slave < slaveModes.length) ∧
      rd.slave < slaveNumber ∧ 1 ≤ rd.passage ∧ rd.passage ≤ 6)
    (hapart : registrations.Pairwise Apart) (garbage : MotorReport) (specs : List MotorSpec)
    (hbus : w.state.bus = .create garbage specs) (hqueue : w.state.msgQueue = [])
    (hfound : ∀ rd ∈ motorsOf specs.length registrations, rd.slave.toNat < count) :
    let code := stationCode (plantCode specs.length others)
    ∃ logs, ∃ b : StationBus (MotorPlant σ) κ,
      run code count ⟨.init registrations slaveModes, w, []⟩ inputs = .ok logs ∧
      runBus code count ⟨.init registrations slaveModes, w, []⟩ inputs = .ok b ∧
      b.world.state.msgQueue.flatten ++ b.world.state.bus.manager.msgStatus =
        inputs.zipIdx.flatMap fun i =>
          (servedOf slaveModes (fun _ => i.2) (motorsOf specs.length registrations)).filterMap
            (statusIn specs count i.1) := by
  intro code
  obtain ⟨logs, b, calls, hrun, hlast, hruns⟩ := run_follows (c := plantCode specs.length others)
    (b := ⟨.init registrations slaveModes, w, []⟩) inputs
    (SoemMaster.init_inPhase registrations slaveModes) (cycles_inBounds hmodes hslaves hreg) hapart
  refine ⟨logs, b, hrun, hlast, ?_⟩
  obtain ⟨hfinal, hqueued⟩ := plantCode_run specs.length others w.state calls
  rw [← hruns.state] at hfinal hqueued
  rw [hqueued, hfinal, hqueue, hbus, List.nil_append, MotorBus.statuses_kept, ← visits_cycleCalls,
    hruns.cycles, List.filterMap_flatMap, statuses, List.filterMap_flatMap]
  refine List.flatMap_congr fun i _ => ?_
  rw [← servedOf_iterate i.2 hfound]
  exact statuses_cycleOf registrations i.1

/-- Of two motors the second hears nothing: the message waits for it, with what the first said. -/
theorem statuses_reach_queue_of_two :
    let others : WorldCode Unit Unit :=
      ⟨⟨fun s _ _ slot => (s, slot), fun s _ _ slot => (s, slot)⟩, fun s _ => s⟩
    let specs : List MotorSpec := [⟨⟨1, .s4310, 0⟩, 11⟩, ⟨⟨2, .s4310, 0⟩, 12⟩]
    let registrations : List RegisteredDevice := [⟨0, 1, 0, .standard⟩, ⟨0, 2, 1, .standard⟩]
    let w : Station (MotorPlant Unit) Unit := ⟨⟨.create ⟨0, 0, 0, 0⟩ specs, [], ()⟩, []⟩
    let input := imageOf ⟨1, 0, 8, #v[0, 1, 0, 0, 0, 0, 0, 0]⟩
    ∃ logs, ∃ b : StationBus (MotorPlant Unit) Unit,
      run (stationCode (plantCode 2 others)) 1 ⟨.init registrations [.standard], w, []⟩
        [input, input] = .ok logs ∧
      runBus (stationCode (plantCode 2 others)) 1 ⟨.init registrations [.standard], w, []⟩
        [input, input] = .ok b ∧
      (b.world.state.msgQueue.flatten ++ b.world.state.bus.manager.msgStatus).map MotorStatus.name =
        [11, 11] := by
  intro others specs registrations w input
  obtain ⟨logs, b, hrun, hbus, hkept⟩ := statuses_reach_queue others w registrations [.standard] 1
    [input, input] (by decide) (by decide) (by decide) (by decide) ⟨0, 0, 0, 0⟩ specs rfl rfl
    (by decide)
  refine ⟨logs, b, hrun, hbus, ?_⟩
  rw [hkept]
  decide +kernel

end TienKung
