import TienKung.Soem.Service
import Mathlib.Data.List.Nodup
import Mathlib.Logic.Function.Iterate

/-!
# Runs of `SoemMaster` cycles

In every cycle of every run, a slave serves one mode, which its own mode and
the number of the cycle fix: its frame carries `can_ide` for that mode, exactly
its devices of that mode are asked and answered, and the other slots are zero.
This holds for in-range registrations, where no access leaves its array.
-/

namespace TienKung

variable {σ : Type} {devices : List RegisteredDevice} {slaveModes : List Mode} {phase : Nat → Nat}
  {count : Nat}

-- ---------------------------------------------------------------------------
-- One cycle
-- ---------------------------------------------------------------------------

structure CycleInBounds (devices : List RegisteredDevice) (slaveModes : List Mode)
    (phase : Nat → Nat) (count : Nat) : Prop where
  modes : count ≤ slaveModes.length
  slaves : count ≤ slaveNumber
  devices : ∀ rd ∈ devices, InBounds slaveModes phase rd

/-- The slaves found on the bus are toggled once a cycle. -/
def advance (count : Nat) (phase : Nat → Nat) (s : Nat) : Nat :=
  phase s + if s ∈ List.range count then 1 else 0

/-- What happens in a cycle, given what the devices put in `reqBuff`. -/
def CycleLog (devices : List RegisteredDevice) (slaveModes : List Mode) (phase : Nat → Nat)
    (count : Nat) (buff : Vector SlaveMessage slaveNumber) : List BusEvent :=
  (devices.filter fun rd => Served slaveModes phase rd).map .request ++
    (List.range count).map (fun s => .write s (sentFrame slaveModes phase buff s)) ++
    (devices.filter fun rd => Served slaveModes phase rd).map .response

theorem range_step {n : Nat} {done : List Nat} {s : Nat} (h : done ++ [s] <+: List.range n) :
    s < n ∧ s ∉ done := by
  refine ⟨List.mem_range.mp (h.subset (by simp)), fun hs => ?_⟩
  have hnodup := h.sublist.nodup List.nodup_range
  exact (List.nodup_append.mp hnodup).2.2 s hs s (by simp) rfl

theorem prefix_mem {done xs : List α} (h : done ++ [x] <+: xs) : x ∈ xs := h.subset (by simp)

theorem requestLoop_ok (code : DeviceCode σ) {b : Bus σ}
    (h : InPhase devices slaveModes phase b.master) (hlog : b.log = [])
    (hb : ∀ rd ∈ devices, InBounds slaveModes phase rd) :
    ∃ b', devices.foldlM (visit (request code))
        { b with master := { b.master with reqBuff := .replicate _ .zero } } = .ok b' ∧
      Requested devices slaveModes phase devices b' := by
  refine Checked.foldlM_ok _ _ _ ?_ fun done rd b hp hr => hr.visit (hb rd (prefix_mem hp))
  exact ⟨⟨h.1, h.2, h.3⟩, by simp [hlog], fun s => by simp [SlaveMessage.zero],
    fun s p _ => by simp [SlaveMessage.zero]⟩

theorem getRequestFromDevices_ok (code : DeviceCode σ) {b : Bus σ}
    (h : InPhase devices slaveModes phase b.master) (hlog : b.log = [])
    (hb : CycleInBounds devices slaveModes phase count) :
    ∃ mid b', Requested devices slaveModes phase devices mid ∧
      getRequestFromDevices code count b = .ok b' ∧
      Written devices slaveModes phase mid (List.range count) b' := by
  obtain ⟨mid, hloop, hreq⟩ := requestLoop_ok code h hlog hb.devices
  obtain ⟨b', hwrite, hwritten⟩ := Checked.foldlM_ok writeFrame (List.range count)
    (Written devices slaveModes phase mid) ⟨hreq.inPhase, by simp, fun _ _ => rfl⟩
    fun done s b hp hr => hr.writeFrame (by have := (range_step hp).1; have := hb.modes; omega)
      (by have := (range_step hp).1; have := hb.slaves; omega) (range_step hp).2
  refine ⟨mid, b', hreq, ?_, hwritten⟩
  rw [← h.devices_eq] at hloop
  simp only [getRequestFromDevices, hloop, Checked.ok_bind, hwrite]

theorem sendResponseToDevices_ok (code : DeviceCode σ) {b : Bus σ} (inputs : Nat → SlaveMessage)
    (h : InPhase devices slaveModes phase b.master)
    (hb : CycleInBounds devices slaveModes phase count) :
    ∃ b', sendResponseToDevices code count inputs b = .ok b' ∧
      InPhase devices slaveModes (advance count phase) b'.master ∧
      b'.log = b.log ++ (devices.filter fun rd => Served slaveModes phase rd).map .response := by
  obtain ⟨b1, hread, hp1, hl1⟩ := Checked.foldlM_ok (readFrame inputs) (List.range count)
    (fun _ b' => InPhase devices slaveModes phase b'.master ∧ b'.log = b.log)
    (b := { b with master := { b.master with respBuff := .replicate _ .zero } })
    ⟨⟨h.1, h.2, h.3⟩, rfl⟩
    fun done s b' hp hr => by
      have hs := (range_step hp).1
      have hslaves := hb.slaves
      rw [readFrame, index_ok _ (by omega)]
      exact ⟨_, rfl, ⟨hr.1.1, hr.1.2, hr.1.3⟩, hr.2⟩
  obtain ⟨b2, hresp, hp2, hl2⟩ := Checked.foldlM_ok (visit (response code)) devices
    (Responded devices slaveModes phase b1) ⟨hp1, by simp⟩
    fun done rd b hp hr => hr.visit (hb.devices rd (prefix_mem hp))
  obtain ⟨b3, htog, hp3, hl3⟩ := Checked.foldlM_ok toggle (List.range count)
    (Toggled devices slaveModes phase b2) ⟨by simpa using hp2, rfl⟩
    fun done s b hp hr => hr.toggle (by have := (range_step hp).1; have := hb.modes; omega)
      (range_step hp).2
  refine ⟨b3, ?_, hp3, by rw [hl3, hl2, hl1]⟩
  rw [sendResponseToDevices, hread, Checked.ok_bind, hp1.devices_eq, hresp, Checked.ok_bind, htog]

def CleanSlots (devices : List RegisteredDevice) (slaveModes : List Mode) (phase : Nat → Nat)
    (buff : Vector SlaveMessage slaveNumber) : Prop :=
  ∀ (s : Fin slaveNumber) (p : Fin 6),
    (∀ rd ∈ devices, Served slaveModes phase rd → rd.slave = s → rd.passage ≠ p + 1) →
      (buff.get s).dev.get p = .zero

theorem runCycle_ok (code : DeviceCode σ) {b : Bus σ} (inputs : Nat → SlaveMessage)
    (h : InPhase devices slaveModes phase b.master)
    (hb : CycleInBounds devices slaveModes phase count) :
    ∃ b' buff, runCycle code count inputs b = .ok b' ∧
      InPhase devices slaveModes (advance count phase) b'.master ∧
      b'.log = CycleLog devices slaveModes phase count buff ∧
      CleanSlots devices slaveModes phase buff ∧
      ∀ s : Fin slaveNumber, (buff.get s).canIde = 0 := by
  obtain ⟨mid, b1, hreq, hget, hwritten⟩ :=
    getRequestFromDevices_ok code (b := { b with log := [] }) h rfl hb
  obtain ⟨b2, hsend, hp, hl⟩ :=
    sendResponseToDevices_ok code inputs hwritten.inPhase hb
  refine ⟨b2, mid.master.reqBuff, ?_, hp, ?_, hreq.zero, hreq.canIde⟩
  · rw [runCycle, hget, Checked.ok_bind, hsend]
  · rw [hl, hwritten.log, hreq.log, CycleLog]

-- ---------------------------------------------------------------------------
-- One slave in one cycle
-- ---------------------------------------------------------------------------

def requestsTo (s : Nat) (log : List BusEvent) : List RegisteredDevice :=
  log.filterMap fun
    | .request rd => if rd.slave = s then some rd else none
    | _ => none

def responsesTo (s : Nat) (log : List BusEvent) : List RegisteredDevice :=
  log.filterMap fun
    | .response rd => if rd.slave = s then some rd else none
    | _ => none

def writesTo (s : Nat) (log : List BusEvent) : List SlaveMessage :=
  log.filterMap fun
    | .write t frame => if t = s then some frame else none
    | _ => none

def registeredWith (registrations : List RegisteredDevice) (s : Nat) (mode : Option Mode) :
    List RegisteredDevice :=
  registrations.filter fun rd => rd.slave = s ∧ mode = some rd.mode

structure SlaveCycle (registrations : List RegisteredDevice) (s : Nat) (mode : Option Mode)
    (log : List BusEvent) : Prop where
  requests : requestsTo s log = registeredWith registrations s mode
  responses : responsesTo s log = registeredWith registrations s mode
  frame : ∃ frame, writesTo s log = [frame] ∧
    (frame.canIde = 1 ↔ mode = some .extended) ∧ (frame.canIde = 0 ↔ mode ≠ some .extended) ∧
    (∀ p : Fin 6, (∀ rd ∈ registeredWith registrations s mode, rd.passage ≠ p + 1) →
      frame.dev.get p = .zero) ∧
    ∀ rd ∈ requestsTo s log, (rd.mode = .standard → frame.canIde = 0) ∧
      (rd.mode = .extended → frame.canIde = 1)

theorem served_of_slave {s : Nat} {rd : RegisteredDevice} (h : rd.slave = s) :
    Served slaveModes phase rd ↔ servedMode slaveModes phase s = some rd.mode := by
  simp [Served, h]

theorem filter_served (s : Nat) :
    (devices.filter fun rd => Served slaveModes phase rd).filter
        (fun rd : RegisteredDevice => rd.slave = (s : Int)) =
      registeredWith devices s (servedMode slaveModes phase s) := by
  rw [List.filter_filter, registeredWith]
  refine List.filter_congr fun rd _ => ?_
  by_cases h : rd.slave = s
  · simp [h, served_of_slave h]
  · simp [h]

theorem filterMap_guard {p : α → Prop} [DecidablePred p] (f : α → β) (l : List α) :
    l.filterMap (fun x => if p x then some (f x) else none) = (l.filter p).map f := by
  induction l with
  | nil => rfl
  | cons x l ih => by_cases h : p x <;> simp [h, ih]

theorem filterMap_none (l : List α) : l.filterMap (fun _ => (none : Option β)) = [] := by
  simp

theorem CycleLog.requestsTo (buff : Vector SlaveMessage slaveNumber) (s : Nat) :
    requestsTo s (CycleLog devices slaveModes phase count buff) =
      registeredWith devices s (servedMode slaveModes phase s) := by
  simp only [TienKung.requestsTo, CycleLog, List.filterMap_append, List.filterMap_map,
    Function.comp_def, filterMap_none, filterMap_guard, List.append_nil, List.map_id_fun', id]
  exact filter_served s

theorem CycleLog.responsesTo (buff : Vector SlaveMessage slaveNumber) (s : Nat) :
    responsesTo s (CycleLog devices slaveModes phase count buff) =
      registeredWith devices s (servedMode slaveModes phase s) := by
  simp only [TienKung.responsesTo, CycleLog, List.filterMap_append, List.filterMap_map,
    Function.comp_def, filterMap_none, filterMap_guard, List.nil_append, List.map_id_fun', id]
  exact filter_served s

theorem CycleLog.writesTo (buff : Vector SlaveMessage slaveNumber) {s : Nat} (hs : s < count) :
    writesTo s (CycleLog devices slaveModes phase count buff) =
      [sentFrame slaveModes phase buff s] := by
  simp only [TienKung.writesTo, CycleLog, List.filterMap_append, List.filterMap_map,
    Function.comp_def, filterMap_none, filterMap_guard, List.nil_append, List.append_nil]
  rw [List.filter_eq, List.count_eq_one_of_mem List.nodup_range (List.mem_range.mpr hs)]
  rfl

theorem CycleLog.slaveCycle {buff : Vector SlaveMessage slaveNumber}
    (hclean : CleanSlots devices slaveModes phase buff)
    (hide : ∀ s : Fin slaveNumber, (buff.get s).canIde = 0) {s : Nat} (hs : s < count)
    (hn : s < slaveNumber) :
    SlaveCycle devices s (servedMode slaveModes phase s)
      (CycleLog devices slaveModes phase count buff) := by
  have hbuff : buff[s]?.getD .zero = buff.get ⟨s, hn⟩ := by
    rw [Vector.getElem?_eq_getElem hn]
    rfl
  have hframe : (sentFrame slaveModes phase buff s).canIde =
      if servedMode slaveModes phase s = some .extended then 1 else 0 := by
    by_cases h : servedMode slaveModes phase s = some .extended
    · simp [sentFrame, h]
    · simp [sentFrame, h, hbuff, hide]
  have hdev : (sentFrame slaveModes phase buff s).dev = (buff.get ⟨s, hn⟩).dev := by
    by_cases h : servedMode slaveModes phase s = some .extended <;> simp [sentFrame, h, hbuff]
  refine ⟨CycleLog.requestsTo buff s, CycleLog.responsesTo buff s,
    sentFrame slaveModes phase buff s, CycleLog.writesTo buff hs, ?_, ?_, ?_, ?_⟩
  · rw [hframe]; split <;> simp_all
  · rw [hframe]; split <;> simp_all
  · intro p hfree
    simp only [hdev]
    refine hclean ⟨s, hn⟩ p fun rd hrd hserved hslave => hfree rd ?_
    rw [registeredWith, List.mem_filter]
    exact ⟨hrd, by simpa [hslave] using (served_of_slave hslave).mp hserved⟩
  · intro rd hrd
    rw [CycleLog.requestsTo, registeredWith, List.mem_filter] at hrd
    have hmode : servedMode slaveModes phase s = some rd.mode := by
      simpa using (of_decide_eq_true hrd.2).2
    rw [hframe, hmode]
    exact ⟨fun h => by simp [h], fun h => by simp [h]⟩

-- ---------------------------------------------------------------------------
-- Runs
-- ---------------------------------------------------------------------------

theorem run_ok (code : DeviceCode σ) {b : Bus σ} (inputs : List (Nat → SlaveMessage))
    (h : InPhase devices slaveModes phase b.master)
    (hb : ∀ k, CycleInBounds devices slaveModes ((advance count)^[k] phase) count) :
    ∃ logs, run code count b inputs = .ok logs ∧ logs.length = inputs.length ∧
      ∀ (k : Nat) log, logs[k]? = some log → ∀ s < count,
        SlaveCycle devices s (servedMode slaveModes ((advance count)^[k] phase) s) log := by
  induction inputs generalizing b phase with
  | nil => exact ⟨[], rfl, rfl, by simp⟩
  | cons input inputs ih =>
    obtain ⟨b', buff, hcycle, hphase, hlog, hclean, hide⟩ :=
      runCycle_ok code input h (hb 0)
    obtain ⟨logs, hrun, hlen, hall⟩ := ih hphase fun k => hb (k + 1)
    refine ⟨b'.log :: logs, ?_, by simp [hlen], ?_⟩
    · rw [run, hcycle, Checked.ok_bind, hrun]; rfl
    · intro k log hk s hs
      cases k with
      | zero =>
        rw [List.getElem?_cons_zero, Option.some_inj] at hk
        rw [← hk, hlog]
        exact CycleLog.slaveCycle hclean hide hs (by have := (hb 0).slaves; omega)
      | succ k => exact hall k log (by simpa using hk) s hs

theorem advance_iterate {s : Nat} (hs : s < count) (k : Nat) :
    ((advance count)^[k] phase) s = phase s + k := by
  induction k generalizing phase with
  | zero => rfl
  | succ k ih => rw [Function.iterate_succ_apply, ih]; simp [advance, hs]; omega

/-- For in-range registrations, every slave on the bus serves one mode in each
cycle: its own when that is standard or extended, the alternation from standard
when it is time-sharing. -/
theorem cycles_follow_modes (code : DeviceCode σ) (world : σ)
    (registrations : List RegisteredDevice) (slaveModes : List Mode) (count : Nat)
    (inputs : List (Nat → SlaveMessage)) (hmodes : count ≤ slaveModes.length)
    (hslaves : count ≤ slaveNumber)
    (hreg : ∀ rd ∈ registrations, (0 ≤ rd.slave ∧ rd.slave < slaveModes.length) ∧
      rd.slave < slaveNumber ∧ 1 ≤ rd.passage ∧ rd.passage ≤ 6) :
    ∃ logs, run code count ⟨.init registrations slaveModes, world, []⟩ inputs = .ok logs ∧
      logs.length = inputs.length ∧
      ∀ (k : Nat) log, logs[k]? = some log → ∀ (s : Nat) (_ : s < count),
        SlaveCycle registrations s (effectiveMode slaveModes[s] k) log := by
  obtain ⟨logs, hrun, hlen, hall⟩ := run_ok code inputs
    (b := ⟨.init registrations slaveModes, world, []⟩)
    (SoemMaster.init_inPhase registrations slaveModes)
    fun _ => ⟨hmodes, hslaves, fun rd hrd => ⟨(hreg rd hrd).1, fun _ => (hreg rd hrd).2⟩⟩
  refine ⟨logs, hrun, hlen, fun k log hk s hs => ?_⟩
  have hcycle := hall k log hk s hs
  have hmode : servedMode slaveModes ((advance count)^[k] fun _ => 0) s =
      effectiveMode slaveModes[s] k := by
    have hlt : s < slaveModes.length := by omega
    simp [servedMode, advance_iterate hs, hlt]
  rwa [hmode] at hcycle

/-- A standard slave and a time-sharing one with a device of each mode: the
second cycle asks the extended device only. -/
theorem cycles_follow_modes_time_sharing :
    let code : DeviceCode Unit := ⟨fun w dev _ msg => (w, { msg with id := dev.toUInt32 }),
      fun w _ _ msg => (w, msg)⟩
    let registrations : List RegisteredDevice :=
      [⟨0, 1, 0, .standard⟩, ⟨1, 2, 1, .standard⟩, ⟨1, 3, 2, .extended⟩]
    ∃ logs, run code 2 ⟨.init registrations [.standard, .timeSharing], (), []⟩
        (List.replicate 3 fun _ => .zero) = .ok logs ∧
      ∀ log, logs[1]? = some log → requestsTo 1 log = [⟨1, 3, 2, .extended⟩] := by
  intro code registrations
  obtain ⟨logs, hrun, -, hall⟩ := cycles_follow_modes code () registrations
    [.standard, .timeSharing] 2 (List.replicate 3 fun _ => .zero) (by decide) (by decide) (by decide)
  exact ⟨logs, hrun, fun log hlog => (hall 1 log hlog 1 (by decide)).requests.trans (by decide)⟩

end TienKung
