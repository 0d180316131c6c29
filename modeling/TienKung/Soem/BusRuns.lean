import TienKung.Lib.Families
import TienKung.Soem.Stations

/-!
# Runs as sequences of calls

The loops of a cycle over registrations that are apart: each device that is
served is asked once with an empty slot and answered once with its slot of the
frame read back, and the frames written carry what they put in their slots. By
induction this is so in every cycle of a run.
-/

namespace TienKung

variable {σ κ : Type} {c : WorldCode σ κ} {devices done : List RegisteredDevice}
  {slaveModes : List Mode} {phase : Nat → Nat} {count : Nat} {rd : RegisteredDevice}

def servedOf (slaveModes : List Mode) (phase : Nat → Nat) (devices : List RegisteredDevice) :
    List RegisteredDevice :=
  devices.filter fun rd => Served slaveModes phase rd

theorem servedOf_append_of_served (h : Served slaveModes phase rd) :
    servedOf slaveModes phase (done ++ [rd]) = servedOf slaveModes phase done ++ [rd] := by
  simp [servedOf, h]

theorem servedOf_append_of_not (h : ¬ Served slaveModes phase rd) :
    servedOf slaveModes phase (done ++ [rd]) = servedOf slaveModes phase done := by
  simp [servedOf, h]

theorem mem_servedOf : rd ∈ servedOf slaveModes phase devices ↔
    rd ∈ devices ∧ Served slaveModes phase rd := by simp [servedOf]

theorem apart_of_pairwise (h : devices.Pairwise Apart) (hp : done ++ [rd] <+: devices) :
    ∀ a ∈ done, Apart a rd := fun a ha =>
  (List.pairwise_append.mp (h.sublist hp.sublist)).2.2 a ha rd (List.mem_singleton_self rd)

-- ---------------------------------------------------------------------------
-- Requests
-- ---------------------------------------------------------------------------

theorem request_spec (code : DeviceCode σ) (b : Bus σ) {slave : Fin slaveNumber} {slot : Fin 6}
    (hslave : rd.slave = slave) (hpassage : rd.passage = slot + 1) :
    let r := code.onRequest b.world rd.dev rd.passage ((b.master.reqBuff.get slave).dev.get slot)
    request code b rd = .ok { b with
      master := { b.master with reqBuff := writeSlot b.master.reqBuff slave slot r.2 }
      world := r.1
      log := b.log ++ [.request rd] } := by
  have hidx : index .reqBuff slaveNumber rd.slave = .ok slave := by
    rw [index_ok _ (by omega)]
    exact congrArg _ (Fin.ext (by simp [hslave]))
  have hslot : index .dev 6 (rd.passage - 1) = .ok slot := by
    rw [index_ok (n := 6) _ (by omega)]
    exact congrArg _ (Fin.ext (by simp [hpassage]))
  rw [request, hidx, Checked.ok_bind, hslot]
  rfl

theorem response_spec (code : DeviceCode σ) (b : Bus σ) {slave : Fin slaveNumber} {slot : Fin 6}
    (hslave : rd.slave = slave) (hpassage : rd.passage = slot + 1) :
    let r := code.onResponse b.world rd.dev rd.passage ((b.master.respBuff.get slave).dev.get slot)
    response code b rd = .ok { b with
      master := { b.master with respBuff := writeSlot b.master.respBuff slave slot r.2 }
      world := r.1
      log := b.log ++ [.response rd] } := by
  have hidx : index .respBuff slaveNumber rd.slave = .ok slave := by
    rw [index_ok _ (by omega)]
    exact congrArg _ (Fin.ext (by simp [hslave]))
  have hslot : index .dev 6 (rd.passage - 1) = .ok slot := by
    rw [index_ok (n := 6) _ (by omega)]
    exact congrArg _ (Fin.ext (by simp [hpassage]))
  rw [response, hidx, Checked.ok_bind, hslot]
  rfl

/-- What the request loop has done for the devices `done`. -/
structure Station.Asked (c : WorldCode σ κ) (devices : List RegisteredDevice)
    (slaveModes : List Mode) (phase : Nat → Nat) (w : Station σ κ) (done : List RegisteredDevice)
    (b : StationBus σ κ) : Prop where
  requested : Requested devices slaveModes phase done b
  calls : ∃ calls, Station.Follows c w b.world calls ((servedOf slaveModes phase done).map fun rd =>
      (rd.dev, slotIn b.master.reqBuff rd)) ∧
    cycleCalls calls = (servedOf slaveModes phase done).map fun rd =>
      .onRequest rd.dev rd.passage .zero

theorem slots_append {buff : Vector SlaveMessage slaveNumber} {slave : Fin slaveNumber}
    {slot : Fin 6} (msg : DeviceMessage) (hslave : rd.slave = slave)
    (hpassage : rd.passage = slot + 1) (hb : ∀ a ∈ done, InBounds slaveModes phase a)
    (hapart : ∀ a ∈ done, Apart a rd) (hs : Served slaveModes phase rd) :
    ((servedOf slaveModes phase (done ++ [rd])).map fun a =>
        (a.dev, slotIn (writeSlot buff slave slot msg) a)) =
      ((servedOf slaveModes phase done).map fun a => (a.dev, slotIn buff a)) ++ [(rd.dev, msg)] := by
  have hnew : slotIn (writeSlot buff slave slot msg) rd = msg := by
    rw [slotIn_eq _ hslave hpassage, writeSlot, Cells.get_put_self, Cells.get_put_self]
  rw [servedOf_append_of_served hs, List.map_append, List.map_singleton, hnew]
  refine congrArg (· ++ _) (List.map_congr_left fun a ha => congrArg _ ?_)
  obtain ⟨hmem, has⟩ := mem_servedOf.mp ha
  exact slotIn_writeSlot_of_apart _ hslave hpassage (hb a hmem) (hapart a hmem) has hs

theorem Station.Asked.visit {w : Station σ κ} {b : StationBus σ κ}
    (h : Station.Asked c devices slaveModes phase w done b)
    (hb : ∀ a ∈ done ++ [rd], InBounds slaveModes phase a) (hapart : ∀ a ∈ done, Apart a rd) :
    ∃ b', visit (request (stationCode c)) b rd = .ok b' ∧
      Station.Asked c devices slaveModes phase w (done ++ [rd]) b' := by
  have hrd : InBounds slaveModes phase rd := hb rd (by simp)
  obtain ⟨b', hvisit, hrequested⟩ : ∃ b', TienKung.visit (request (stationCode c)) b rd = .ok b' ∧
      Requested devices slaveModes phase (done ++ [rd]) b' := h.requested.visit hrd
  refine ⟨b', hvisit, hrequested, ?_⟩
  obtain ⟨calls, hfollows, hcycle⟩ := h.calls
  by_cases hs : Served slaveModes phase rd
  case neg =>
    rw [visit_skip h.requested.inPhase hrd hs] at hvisit
    cases hvisit
    rw [servedOf_append_of_not hs]
    exact ⟨calls, hfollows, hcycle⟩
  case pos =>
    obtain ⟨slave, slot, hslave, hpassage⟩ := exists_slot ⟨hrd.1.1, (hrd.2 hs).1⟩ (hrd.2 hs).2
    have hzero : (b.master.reqBuff.get slave).dev.get slot = .zero := by
      refine h.requested.zero slave slot fun a ha has hsame hpass => ?_
      exact (hapart a ha).slot_ne has hs (hsame.trans hslave.symm) (hpass.trans hpassage.symm)
    rw [visit_serve h.requested.inPhase hrd hs, request_spec _ _ hslave hpassage, hzero] at hvisit
    cases hvisit
    obtain ⟨cmds, hrequest⟩ := follows_onRequest c b.world rd.dev rd.passage .zero
    refine ⟨calls ++ (cmds.map .command ++ [.onRequest rd.dev rd.passage .zero]), ?_, ?_⟩
    · rw [slots_append _ hslave hpassage (fun a ha => hb a (by simp [ha])) hapart hs]
      exact hfollows.trans hrequest
    · rw [cycleCalls_append, cycleCalls_append, cycleCalls_map_command, hcycle,
        servedOf_append_of_served hs, List.map_append]
      rfl

-- ---------------------------------------------------------------------------
-- Responses
-- ---------------------------------------------------------------------------

/-- The image that the first loop of `SendResponseToDevices` has read from the slaves `done`. -/
structure Imaged (start : Bus σ) (inputs : Nat → SlaveMessage) (done : List Nat)
    (b : Bus σ) : Prop where
  world : b.world = start.world
  respBuff : ∀ i : Fin slaveNumber,
    b.master.respBuff.get i = if i.val ∈ done then inputs i else .zero

theorem Imaged.readFrame {start b b' : Bus σ} {inputs : Nat → SlaveMessage}
    {read : List Nat} {slave : Nat} (h : Imaged start inputs read b)
    (hok : readFrame inputs b slave = .ok b') : Imaged start inputs (read ++ [slave]) b' := by
  obtain ⟨i, hi, hok⟩ := Checked.bind_eq_ok.mp hok
  have hslave : slave = i.val := Int.ofNat.inj (index_eq_ok hi)
  cases hok
  refine ⟨h.world, fun j => ?_⟩
  by_cases hij : i = j
  · subst hij
    simp [hslave]
  · have hne : j.val ≠ slave := fun he => hij (Fin.ext (hslave.symm.trans he.symm))
    rw [Cells.get_put_ne hij, h.respBuff j]
    simp [hne]

theorem Imaged.slot {start b : Bus σ} {inputs : Nat → SlaveMessage}
    (h : Imaged start inputs (List.range count) b) (hslave : 0 ≤ rd.slave ∧ rd.slave < slaveNumber)
    (hpassage : 1 ≤ rd.passage ∧ rd.passage ≤ 6) :
    slotIn b.master.respBuff rd = slotOf count inputs rd := by
  obtain ⟨slave, slot, hs, hp⟩ := exists_slot hslave hpassage
  have hslot : (rd.passage - 1).toNat = slot.val := by omega
  rw [slotIn_eq _ hs hp, h.respBuff, slotOf, hs, Int.toNat_natCast, hslot]
  simp only [List.mem_range]
  split
  · rw [Vector.getElem?_eq_getElem slot.isLt]
    rfl
  · exact Cells.get_replicate _ slot

/-- What the response loop has done for the devices `done`. -/
structure Station.Answered (c : WorldCode σ κ) (devices : List RegisteredDevice)
    (slaveModes : List Mode) (phase : Nat → Nat) (start : StationBus σ κ)
    (done : List RegisteredDevice) (b : StationBus σ κ) : Prop where
  responded : Responded devices slaveModes phase start done b
  calls : ∃ calls, Station.Follows c start.world b.world calls [] ∧
    cycleCalls calls = (servedOf slaveModes phase done).map fun rd =>
      .onResponse rd.dev rd.passage (slotIn start.master.respBuff rd)
  rest : ∀ a, InBounds slaveModes phase a → Served slaveModes phase a → (∀ d ∈ done, Apart d a) →
    slotIn b.master.respBuff a = slotIn start.master.respBuff a

theorem Station.Answered.visit {start b : StationBus σ κ}
    (h : Station.Answered c devices slaveModes phase start done b)
    (hrd : InBounds slaveModes phase rd) (hapart : ∀ a ∈ done, Apart a rd) :
    ∃ b', visit (response (stationCode c)) b rd = .ok b' ∧
      Station.Answered c devices slaveModes phase start (done ++ [rd]) b' := by
  obtain ⟨b', hvisit, hresponded⟩ : ∃ b', TienKung.visit (response (stationCode c)) b rd = .ok b' ∧
      Responded devices slaveModes phase start (done ++ [rd]) b' := h.responded.visit hrd
  refine ⟨b', hvisit, ?_⟩
  obtain ⟨calls, hfollows, hcycle⟩ := h.calls
  by_cases hs : Served slaveModes phase rd
  case neg =>
    rw [visit_skip h.responded.inPhase hrd hs] at hvisit
    cases hvisit
    refine ⟨hresponded, ?_, fun a ha has hd => ?_⟩
    · rw [servedOf_append_of_not hs]
      exact ⟨calls, hfollows, hcycle⟩
    · exact h.rest a ha has fun d hmem => hd d (List.mem_append_left _ hmem)
  case pos =>
    obtain ⟨slave, slot, hslave, hpassage⟩ := exists_slot ⟨hrd.1.1, (hrd.2 hs).1⟩ (hrd.2 hs).2
    have hread : (b.master.respBuff.get slave).dev.get slot = slotIn start.master.respBuff rd := by
      rw [← slotIn_eq _ hslave hpassage, h.rest rd hrd hs hapart]
    rw [visit_serve h.responded.inPhase hrd hs, response_spec _ _ hslave hpassage, hread] at hvisit
    cases hvisit
    obtain ⟨cmds, hresponse⟩ := follows_onResponse c b.world rd.dev rd.passage
      (slotIn start.master.respBuff rd)
    refine ⟨hresponded, ⟨_, hfollows.trans hresponse, ?_⟩, fun a ha has hd => ?_⟩
    · rw [cycleCalls_append, cycleCalls_append, cycleCalls_map_command, hcycle,
        servedOf_append_of_served hs, List.map_append]
      rfl
    · have hsym : Apart a rd := (hd rd (by simp)).symm
      rw [← h.rest a ha has fun d hmem => hd d (List.mem_append_left _ hmem)]
      exact slotIn_writeSlot_of_apart _ hslave hpassage ha hsym has hs

-- ---------------------------------------------------------------------------
-- Cycles
-- ---------------------------------------------------------------------------

/-- The calls of a cycle that are its own. -/
def cycleOf (count : Nat) (served : List RegisteredDevice) (inputs : Nat → SlaveMessage) :
    List (BusCall κ) :=
  (served.map fun rd => .onRequest rd.dev rd.passage .zero) ++
    served.map fun rd => .onResponse rd.dev rd.passage (slotOf count inputs rd)

theorem getRequest_asked {b : StationBus σ κ} (h : InPhase devices slaveModes phase b.master)
    (hb : CycleInBounds devices slaveModes phase count) (hapart : devices.Pairwise Apart) :
    ∃ mid b', Station.Asked c devices slaveModes phase b.world devices mid ∧
      getRequestFromDevices (stationCode c) count { b with log := [] } = .ok b' ∧
      Written devices slaveModes phase mid (List.range count) b' ∧ b'.world = mid.world := by
  have hempty : Station.Asked c devices slaveModes phase b.world []
      { b with log := [], master := { b.master with reqBuff := .replicate _ .zero } } := by
    refine ⟨⟨⟨h.1, h.2, h.3⟩, rfl, ?_, ?_⟩, [], Station.Follows.refl c b.world, rfl⟩
    · exact fun s => by simp [SlaveMessage.zero]
    · exact fun s p _ => by simp [SlaveMessage.zero]
  obtain ⟨mid, hloop, hasked⟩ := Checked.foldlM_ok (visit (request (stationCode c))) devices
    (Station.Asked c devices slaveModes phase b.world) hempty
    fun done rd b hp hr => hr.visit (fun a ha => hb.devices a (hp.subset ha))
      (apart_of_pairwise hapart hp)
  obtain ⟨b', hwrites, hwritten, hworld⟩ := Checked.foldlM_ok writeFrame (List.range count)
    (fun written b' => Written devices slaveModes phase mid written b' ∧ b'.world = mid.world)
    ⟨⟨hasked.requested.inPhase, by simp, fun _ _ => rfl⟩, rfl⟩
    fun done s b' hp hr => by
      have hs := range_step hp
      have hmodes := hb.modes
      have hslaves := hb.slaves
      obtain ⟨b'', hok, hw⟩ := hr.1.writeFrame (by omega) (by omega) hs.2
      exact ⟨b'', hok, hw, (world_writeFrame hok).trans hr.2⟩
  refine ⟨mid, b', hasked, ?_, hwritten, hworld⟩
  rw [← h.devices_eq] at hloop
  simp only [getRequestFromDevices, hloop, Checked.ok_bind, hwrites]

theorem sendResponse_answered {b : StationBus σ κ} (inputs : Nat → SlaveMessage)
    (h : InPhase devices slaveModes phase b.master)
    (hb : CycleInBounds devices slaveModes phase count) (hapart : devices.Pairwise Apart) :
    ∃ b' calls, sendResponseToDevices (stationCode c) count inputs b = .ok b' ∧
      InPhase devices slaveModes (advance count phase) b'.master ∧
      b'.log = b.log ++ (devices.filter fun rd => Served slaveModes phase rd).map .response ∧
      Station.Follows c b.world b'.world calls [] ∧
      cycleCalls calls = (servedOf slaveModes phase devices).map fun rd =>
        .onResponse rd.dev rd.passage (slotOf count inputs rd) := by
  obtain ⟨b1, hreads, hinPhase, hlog, himage⟩ := Checked.foldlM_ok (readFrame inputs)
    (List.range count)
    (fun read b' => InPhase devices slaveModes phase b'.master ∧ b'.log = b.log ∧
      Imaged b inputs read b')
    (b := { b with master := { b.master with respBuff := .replicate _ .zero } })
    ⟨⟨h.1, h.2, h.3⟩, rfl, rfl, fun i => by simp⟩
    fun done s b' hp hr => by
      have hs := (range_step hp).1
      have hslaves := hb.slaves
      have hok : readFrame inputs b' s = .ok { b' with
          master := { b'.master with
            respBuff := Cells.put b'.master.respBuff (inArray s (by omega)) (inputs s) } } := by
        rw [readFrame, index_ok _ (by omega)]
        rfl
      exact ⟨_, hok, ⟨hr.1.1, hr.1.2, hr.1.3⟩, hr.2.1, hr.2.2.readFrame hok⟩
  obtain ⟨b2, hresponses, hanswered⟩ := Checked.foldlM_ok (visit (response (stationCode c))) devices
    (Station.Answered c devices slaveModes phase b1)
    ⟨⟨hinPhase, by simp⟩, ⟨[], Station.Follows.refl c b1.world, rfl⟩, fun _ _ _ _ => rfl⟩
    fun done rd b hp hr => hr.visit (hb.devices rd (prefix_mem hp)) (apart_of_pairwise hapart hp)
  obtain ⟨b3, htoggles, htoggled, hworld⟩ := Checked.foldlM_ok toggle (List.range count)
    (fun toggled b' => Toggled devices slaveModes phase b2 toggled b' ∧ b'.world = b2.world)
    ⟨⟨by simpa using hanswered.responded.inPhase, rfl⟩, rfl⟩
    fun done s b' hp hr => by
      have hmodes := hb.modes
      obtain ⟨b'', hok, ht⟩ := hr.1.toggle (by have := (range_step hp).1; omega) (range_step hp).2
      exact ⟨b'', hok, ht, (world_toggle hok).trans hr.2⟩
  obtain ⟨calls, hcalls, hcycle⟩ := hanswered.calls
  refine ⟨b3, calls, ?_, htoggled.inPhase, ?_, ?_, ?_⟩
  · rw [sendResponseToDevices, hreads, Checked.ok_bind, hinPhase.devices_eq, hresponses,
      Checked.ok_bind, htoggles]
  · rw [htoggled.log, hanswered.responded.log, hlog]
  · rwa [hworld, ← himage.world]
  · rw [hcycle]
    refine List.map_congr_left fun rd hrd => ?_
    obtain ⟨hmem, hs⟩ := mem_servedOf.mp hrd
    have hin := hb.devices rd hmem
    rw [himage.slot ⟨hin.1.1, (hin.2 hs).1⟩ (hin.2 hs).2]

theorem runCycle_spec {b : StationBus σ κ} (inputs : Nat → SlaveMessage)
    (h : InPhase devices slaveModes phase b.master)
    (hb : CycleInBounds devices slaveModes phase count) (hapart : devices.Pairwise Apart) :
    ∃ b' buff calls, runCycle (stationCode c) count inputs b = .ok b' ∧
      InPhase devices slaveModes (advance count phase) b'.master ∧
      b'.log = CycleLog devices slaveModes phase count buff ∧
      Station.Follows c b.world b'.world calls ((servedOf slaveModes phase devices).map fun rd =>
        (rd.dev, slotIn buff rd)) ∧
      cycleCalls calls = cycleOf count (servedOf slaveModes phase devices) inputs := by
  obtain ⟨mid, b1, hasked, hget, hwritten, hworld⟩ := getRequest_asked (c := c) h hb hapart
  obtain ⟨b2, calls', hsend, hinPhase, hlog, hcalls', hcycle'⟩ :=
    sendResponse_answered (c := c) inputs hwritten.inPhase hb hapart
  obtain ⟨calls, hcalls, hcycle⟩ := hasked.calls
  refine ⟨b2, mid.master.reqBuff, calls ++ calls', ?_, hinPhase, ?_, ?_, ?_⟩
  · rw [runCycle, hget, Checked.ok_bind, hsend]
  · rw [hlog, hwritten.log, hasked.requested.log, CycleLog]
  · rw [hworld] at hcalls'
    simpa using hcalls.trans hcalls'
  · rw [cycleCalls_append, hcycle, hcycle', cycleOf]

-- ---------------------------------------------------------------------------
-- Runs
-- ---------------------------------------------------------------------------

/-- The bus after the cycles that `run` logs. -/
def runBus (code : DeviceCode σ) (ecSlavecount : Nat) (b : Bus σ)
    (inputs : List (Nat → SlaveMessage)) : Except OutOfBounds (Bus σ) :=
  inputs.foldlM (fun b i => runCycle code ecSlavecount i b) b

/-- What the frame written to its slave in a cycle carries for a device. -/
def slotSent (log : List BusEvent) (rd : RegisteredDevice) : DeviceMessage :=
  ((writesTo rd.slave.toNat log).head?.getD .zero).slot rd

theorem slotSent_cycleLog (buff : Vector SlaveMessage slaveNumber) (h : rd.slave.toNat < count) :
    slotSent (CycleLog devices slaveModes phase count buff) rd = slotIn buff rd := by
  rw [slotSent, CycleLog.writesTo buff h, List.head?_cons, Option.getD_some, slotIn, sentFrame]
  split <;> rfl

/-- Those of the registrations that are of one object. -/
def registeredAs (dev : Nat) (registrations : List RegisteredDevice) : List RegisteredDevice :=
  registrations.filter (·.dev = dev)

theorem servedOf_registeredAs (dev : Nat) : servedOf slaveModes phase (registeredAs dev devices) =
    (servedOf slaveModes phase devices).filter (·.dev = dev) := List.filter_comm ..

theorem ownOf_served {α : Type} (dev : Nat) (f : RegisteredDevice → α) :
    Mealy.ownOf dev ((servedOf slaveModes phase devices).map fun rd => (rd.dev, f rd)) =
      (servedOf slaveModes phase (registeredAs dev devices)).map f := by
  rw [Mealy.ownOf_map, servedOf_registeredAs]

theorem zipIdx_flatMap_cons {α β : Type} (f : α × Nat → List β) (a : α) (as : List α) :
    (a :: as).zipIdx.flatMap f = f (a, 0) ++ as.zipIdx.flatMap fun i => f (i.1, i.2 + 1) := by
  rw [List.zipIdx_cons, List.flatMap_cons, List.zipIdx_succ, List.flatMap_map]

/-- A run of cycles from `w` to `w'`, as the objects see it; `served` are the registrations that are
served in each cycle. -/
structure Station.Runs (c : WorldCode σ κ) (count : Nat) (devices : List RegisteredDevice)
    (served : Nat → List RegisteredDevice → List RegisteredDevice) (w w' : Station σ κ)
    (inputs : List (Nat → SlaveMessage)) (logs : List (List BusEvent)) (calls : List (BusCall κ)) :
    Prop where
  state : w'.state = Mealy.final c.step w.state calls
  arrived : calls = arrivals w.coming (cycleCalls calls)
  coming : commandsOf calls ++ w'.coming.flatten = w.coming.flatten
  cycles : cycleCalls calls = inputs.zipIdx.flatMap fun i => cycleOf count (served i.2 devices) i.1
  slots : ∀ dev, (∀ rd ∈ registeredAs dev devices, rd.slave.toNat < count) →
    Mealy.ownOf dev (Mealy.emitted c.step w.state calls) = logs.zipIdx.flatMap fun log =>
      (served log.2 (registeredAs dev devices)).map (slotSent log.1)

/-- The calls of a run from the start, with the commands that come. -/
def runCalls (count : Nat) (registrations : List RegisteredDevice) (slaveModes : List Mode)
    (coming : List (List κ)) (inputs : List (Nat → SlaveMessage)) : List (BusCall κ) :=
  arrivals coming (inputs.zipIdx.flatMap fun i =>
    cycleOf count (servedOf slaveModes ((advance count)^[i.2] fun _ => 0) registrations) i.1)

theorem run_follows {b : StationBus σ κ} (inputs : List (Nat → SlaveMessage))
    (h : InPhase devices slaveModes phase b.master)
    (hb : ∀ k, CycleInBounds devices slaveModes ((advance count)^[k] phase) count)
    (hapart : devices.Pairwise Apart) :
    ∃ logs b' calls, run (stationCode c) count b inputs = .ok logs ∧
      runBus (stationCode c) count b inputs = .ok b' ∧
      Station.Runs c count devices (fun k => servedOf slaveModes ((advance count)^[k] phase))
        b.world b'.world inputs logs calls := by
  induction inputs generalizing b phase with
  | nil => exact ⟨[], b, [], rfl, rfl, rfl, rfl, rfl, rfl, fun _ _ => rfl⟩
  | cons i inputs ih =>
    obtain ⟨b1, buff, calls, hcycle, hphase, hlog, hfollows, hpart⟩ :=
      runCycle_spec (c := c) i h (hb 0) hapart
    obtain ⟨logs, b', calls', hrun, hbus, hruns⟩ := ih hphase fun k => hb (k + 1)
    refine ⟨b1.log :: logs, b', calls ++ calls', ?_, ?_, ?_, ?_, ?_, ?_, fun dev hfound => ?_⟩
    · rw [run, hcycle, Checked.ok_bind, hrun]
      rfl
    · rw [runBus, List.foldlM_cons, hcycle, Checked.ok_bind]
      exact hbus
    · rw [hruns.state, hfollows.state, Mealy.final_append]
    · rw [cycleCalls_append, arrivals_append, ← hfollows.coming, ← hfollows.arrived, ← hruns.arrived]
    · rw [commandsOf_append, List.append_assoc, hruns.coming, hfollows.commands]
    · rw [cycleCalls_append, hpart, hruns.cycles, zipIdx_flatMap_cons]
      rfl
    · rw [Mealy.emitted_append, Mealy.ownOf_append, ← hfollows.state, hruns.slots dev hfound,
        ← hfollows.answers, ownOf_served, zipIdx_flatMap_cons]
      refine congrArg (· ++ _) (List.map_congr_left fun rd hrd => ?_)
      rw [hlog, slotSent_cycleLog buff (hfound rd (mem_servedOf.mp hrd).1)]

theorem servedOf_iterate (k : Nat) (h : ∀ rd ∈ devices, rd.slave.toNat < count) :
    servedOf slaveModes ((advance count)^[k] fun _ => 0) devices =
      servedOf slaveModes (fun _ => k) devices := by
  refine List.filter_congr fun rd hrd => ?_
  simp only [Served, servedMode, advance_iterate (h rd hrd), Nat.zero_add]

theorem cycles_inBounds (hmodes : count ≤ slaveModes.length) (hslaves : count ≤ slaveNumber)
    (hreg : ∀ rd ∈ devices, (0 ≤ rd.slave ∧ rd.slave < slaveModes.length) ∧
      rd.slave < slaveNumber ∧ 1 ≤ rd.passage ∧ rd.passage ≤ 6) (k : Nat) :
    CycleInBounds devices slaveModes ((advance count)^[k] fun _ => 0) count :=
  ⟨hmodes, hslaves, fun rd hrd => ⟨(hreg rd hrd).1, fun _ => (hreg rd hrd).2⟩⟩

end TienKung
