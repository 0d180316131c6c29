import TienKung.Devices.MotorCycles
import TienKung.Devices.MotorDistance
import TienKung.Devices.PowerTiming

/-!
# Hot motors and the beep

Each message that the motor manager publishes sets the beep of the power board:
on when some motor has got hot, off else. The temperatures are those of the last
statuses, and as nothing is published before each motor has reported, none is
looked at that was never read.
-/

namespace TienKung

open Manager (Callback)
open Past (LastPrefix lastPrefix_concat)

variable {garbage : MotorReport} {specs : List MotorSpec} {topLimit : ℚ}

-- ---------------------------------------------------------------------------
-- The callback
-- ---------------------------------------------------------------------------

def MotorDevice.isTemperatureHigh (d : MotorDevice) (topLimit : ℚ) : Bool :=
  d.temperature ≥ topLimit

def MotorBus.isTemperatureHigh (b : MotorBus) (topLimit : ℚ) : Bool :=
  b.manager.mapByName.any fun dev => (b.motors[dev.2]?).any (·.isTemperatureHigh topLimit)

/-- `mdm`, `msgQueue` as far as it is the motors', and `power`, which the configuration may lack. -/
structure MotorsAndPower where
  mdm : MotorBus
  msgQueue : List (List MotorStatus)
  power : Option PowerBoardDevice

/-- What `LoadMotors` passes to `SetOnStatusReady`. -/
def onStatusReady (topLimit : ℚ) (s : MotorsAndPower) (msg : List MotorStatus) : MotorsAndPower :=
  { s with
    msgQueue := s.msgQueue ++ [msg]
    power := s.power.map fun power =>
      (power.step (if s.mdm.isTemperatureHigh topLimit then .enableBeep else .disableBeep)).1 }

inductive BodyCall
  | motor (v : Visit)
  | onRequest (now : Int) (msg : DeviceMessage)
  | onResponse (msg : DeviceMessage)

/-- The calls of the motors and of the power board, with the frames for the board. -/
def bodyStep (topLimit : ℚ) : Mealy.Step MotorsAndPower BodyCall DeviceMessage := fun s call =>
  match call with
  | .motor v =>
    let (mdm, msgs) := s.mdm.onResponse v
    (msgs.foldl (onStatusReady topLimit) { s with mdm }, [])
  | .onRequest now msg =>
    match s.power with
    | some power =>
      ({ s with power := some (power.onRequest now msg).1 }, [(power.onRequest now msg).2])
    | none => (s, [])
  | .onResponse msg => ({ s with power := s.power.map fun power => (power.onResponse msg).1 }, [])

def visitsOf (calls : List BodyCall) : List Visit :=
  calls.filterMap fun
    | .motor v => some v
    | _ => none

-- ---------------------------------------------------------------------------
-- Reports
-- ---------------------------------------------------------------------------

def MotorSpec.report? (s : MotorSpec) (msg : DeviceMessage) : Option MotorReport :=
  match s.event msg with
  | .status r => some r
  | _ => none

/-- What a visit brings of the motor at position `i`. -/
def reportOf (specs : List MotorSpec) (i : Nat) (v : Visit) : Option MotorReport :=
  if v.1 = i then specs[i]?.bind (·.report? v.2) else none

def lastReport (specs : List MotorSpec) (i : Nat) (vs : List Visit) : Option MotorReport :=
  (vs.filterMap (reportOf specs i)).getLast?

/-- The motors that `mapByName` knows: of two with one key it keeps the first. -/
def mapped (specs : List MotorSpec) : List Nat :=
  (Manager.create (K := motorDeviceManager) (names specs)).mapByName.map Prod.snd

def Reported (specs : List MotorSpec) (vs : List Visit) (i : Nat) : Prop :=
  (lastReport specs i vs).isSome

theorem lastReport_concat (i : Nat) (vs : List Visit) (v : Visit) :
    lastReport specs i (vs ++ [v]) = (reportOf specs i v).or (lastReport specs i vs) := by
  rw [lastReport, List.filterMap_append, List.getLast?_append]
  cases hv : reportOf specs i v <;> simp [lastReport, hv]

theorem Reported.concat {vs : List Visit} {i : Nat} (h : Reported specs vs i) (v : Visit) :
    Reported specs (vs ++ [v]) i := by
  rw [Reported, lastReport_concat]
  cases reportOf specs i v
  · exact h
  · rfl

theorem specs_of_reported {vs : List Visit} {i : Nat} (h : Reported specs vs i) :
    ∃ s, specs[i]? = some s := by
  cases hs : specs[i]? with
  | some s => exact ⟨s, rfl⟩
  | none =>
    have hreport : reportOf specs i = fun _ => none := by
      funext v
      simp [reportOf, hs]
    simp [Reported, lastReport, hreport] at h

theorem MotorDevice.temperature_onResponse (d : MotorDevice) (s : MotorSpec)
    (hs : d.toMotorConfig = s.toMotorConfig) (msg : DeviceMessage) :
    (d.onResponse msg).1.temperature =
      ((s.report? msg).map MotorReport.temperature).getD d.temperature := by
  rw [MotorSpec.report?, ← hs]
  cases he : d.event msg with
  | status r =>
    have hr := (MotorConfig.event_eq_status.mp he).2
    simp only [onResponse, he, onStatus, Option.map_some, Option.getD_some]
    rw [← hr]
    rfl
  | miss => simp [onResponse, he]
  | none => simp [onResponse, he]

theorem MotorBus.temperature_onResponse {b : MotorBus} (h : b.Configured specs) (i : Nat)
    (v : Visit) :
    ((b.onResponse v).1.motors[i]?).map MotorDevice.temperature = (b.motors[i]?).map fun d =>
      ((reportOf specs i v).map MotorReport.temperature).getD d.temperature := by
  obtain ⟨j, msg⟩ := v
  have hc := h.config j
  cases hj : b.motors[j]? with
  | none =>
    have hs : specs[j]? = none := by simpa [hj] using hc.symm
    have hreport : reportOf specs i (j, msg) = none := by
      rw [reportOf]
      split
      case isTrue hij =>
        rw [← hij, hs]
        rfl
      case isFalse => rfl
    simp [MotorBus.onResponse, hj, hreport]
  | some d =>
    rw [hj] at hc
    obtain ⟨s, hs, hsd⟩ := Option.map_eq_some_iff.mp hc.symm
    obtain ⟨hlt, hget⟩ := List.getElem?_eq_some_iff.mp hj
    simp only [MotorBus.onResponse, hj]
    by_cases hij : j = i
    · subst hij
      rw [List.getElem?_set_self hlt, hj, Option.map_some, Option.map_some,
        MotorDevice.temperature_onResponse d s hsd.symm, reportOf, if_pos rfl, hs]
      rfl
    · rw [List.getElem?_set_ne hij, reportOf, if_neg hij]
      simp

theorem MotorBus.temperature_final (garbage : MotorReport) (specs : List MotorSpec) (vs : List Visit)
    (i : Nat) :
    ((Mealy.final onResponse (create garbage specs) vs).motors[i]?).map MotorDevice.temperature =
      specs[i]?.map fun _ =>
        ((lastReport specs i vs).map MotorReport.temperature).getD garbage.temperature := by
  induction vs using List.reverseRecOn with
  | nil => simp [create, lastReport, Function.comp_def]
  | append_singleton vs v ih =>
    have hc : (Mealy.final onResponse (create garbage specs) vs).Configured specs :=
      Mealy.final_invariant (create_configured garbage specs) fun _ v h => h.onResponse v
    rw [Mealy.final_append, Mealy.final_cons, Mealy.final_nil,
      MotorBus.temperature_onResponse hc i v, lastReport_concat]
    cases hreport : reportOf specs i v with
    | none => simpa using ih
    | some r =>
      have hsome := congrArg (Option.map fun _ => r.temperature) ih
      simpa [Option.map_map, Function.comp_def] using hsome

-- ---------------------------------------------------------------------------
-- Readiness
-- ---------------------------------------------------------------------------

/-- Who is ready satisfies `P`, and once the manager is, everyone in its map does. -/
structure Manager.Vouched {K : ManagerKind} (P : Nat → Prop) (m : Manager K) : Prop where
  devices : ∀ i, m.deviceReady i = true → P i
  all : m.ready = true → ∀ dev ∈ m.mapByName, P dev.2

section
variable {K : ManagerKind} {P : Nat → Prop} {m : Manager K}

namespace Manager

@[simp] theorem mapByName_isReady (m : Manager K) : m.isReady.1.mapByName = m.mapByName := by
  rw [isReady_fst]

@[simp] theorem mapByName_checkAndSendStatus (m : Manager K) :
    m.checkAndSendStatus.1.mapByName = m.mapByName := by
  simp only [checkAndSendStatus]
  split_ifs <;> simp

@[simp] theorem mapByName_callback (m : Manager K) (cb : Callback K) :
    (m.callback cb).1.mapByName = m.mapByName := by
  cases cb with
  | setReady i => rfl
  | status i report =>
    simp only [callback]
    split
    · exact mapByName_checkAndSendStatus _
    · rfl
  | miss i why =>
    simp only [callback]
    split
    · exact mapByName_checkAndSendStatus _
    · rfl

theorem mapByName_final (m : Manager K) (cbs : List (Callback K)) :
    (Mealy.final callback m cbs).mapByName = m.mapByName :=
  Mealy.final_invariant (P := fun m' : Manager K => m'.mapByName = m.mapByName) rfl
    fun m' cb h => (mapByName_callback m' cb).trans h

theorem Vouched.isReady (h : m.Vouched P) : m.isReady.1.Vouched P := by
  rw [isReady_fst]
  refine ⟨h.devices, fun hready dev hdev => ?_⟩
  rw [Manager.isReady] at hready
  split_ifs at hready with hlatched
  · exact h.all hlatched dev hdev
  · exact h.devices dev.2 (List.all_eq_true.mp hready dev hdev)

theorem Vouched.checkAndSendStatus (h : m.Vouched P) : m.checkAndSendStatus.1.Vouched P := by
  have hready := h.isReady
  simp only [Manager.checkAndSendStatus]
  split_ifs
  · exact ⟨hready.devices, hready.all⟩
  · exact hready
  · exact hready

theorem deviceReady_setReady (m : Manager K) (i j : Nat) :
    (m.setReady i).deviceReady j = true → j = i ∨ m.deviceReady j = true := by
  intro h
  by_cases hij : i = j
  · exact .inl hij.symm
  · refine .inr ?_
    simpa [deviceReady, setReady, List.getElem?_modify, hij] using h

theorem Vouched.callback (h : m.Vouched P) {cb : Callback K} (hcb : ∀ i, cb = .setReady i → P i) :
    (m.callback cb).1.Vouched P := by
  cases cb with
  | setReady i =>
    refine ⟨fun j hj => ?_, h.all⟩
    rcases deviceReady_setReady m i j hj with rfl | hj
    · exact hcb j rfl
    · exact h.devices j hj
  | status i report =>
    simp only [Manager.callback]
    split
    · exact Vouched.checkAndSendStatus ⟨h.devices, h.all⟩
    · exact h
  | miss i why =>
    simp only [Manager.callback]
    split
    · exact Vouched.checkAndSendStatus ⟨h.devices, h.all⟩
    · exact h

theorem Vouched.imp {Q : Nat → Prop} (h : m.Vouched P) (himp : ∀ i, P i → Q i) : m.Vouched Q :=
  ⟨fun i hi => himp i (h.devices i hi), fun hready dev hdev => himp dev.2 (h.all hready dev hdev)⟩

theorem Vouched.final (h : m.Vouched P) {cbs : List (Callback K)}
    (hcbs : ∀ cb ∈ cbs, ∀ i, cb = .setReady i → P i) :
    (Mealy.final Manager.callback m cbs).Vouched P := by
  have halong : Mealy.Along Manager.callback (fun _ cb => ∀ i, cb = .setReady i → P i) m cbs :=
    Mealy.along_of_forall fun cb hcb _ => hcbs cb hcb
  exact halong.final h fun _ _ h hcb => h.callback hcb

theorem create_vouched (names : List Int) : (create names : Manager K).Vouched P := by
  have hnone : (∀ dev ∈ (create names : Manager K).devs, dev.ready = false) ∧
      (create names : Manager K).ready = false := by
    induction names using List.reverseRecOn with
    | nil => exact ⟨List.forall_mem_nil _, rfl⟩
    | append_singleton names name ih =>
      rw [create_append]
      refine ⟨fun dev hdev => ?_, ih.2⟩
      rcases List.mem_append.mp hdev with hdev | hdev
      · exact ih.1 dev hdev
      · rw [List.mem_singleton.mp hdev]
  refine ⟨fun i hi => ?_, fun hready => ?_⟩
  · obtain ⟨dev, hdev, hready⟩ := (Option.any_eq_true ..).mp hi
    rw [hnone.1 dev (List.mem_of_getElem? hdev)] at hready
    cases hready
  · rw [hnone.2] at hready
    cases hready

end Manager

end

theorem setReady_mem_callbacks {v : Visit} {i : Nat}
    (h : Callback.setReady i ∈ visitCallbacks specs v) : (reportOf specs i v).isSome := by
  obtain ⟨j, msg⟩ := v
  rw [visitCallbacks] at h
  cases hs : specs[j]? with
  | none => simp [hs] at h
  | some s =>
    cases he : s.event msg with
    | none => simp [hs, he, MotorEvent.callbacks] at h
    | miss => simp [hs, he, MotorEvent.callbacks] at h
    | status r =>
      obtain rfl : i = j := by simpa [hs, he, MotorEvent.callbacks] using h
      simp [reportOf, MotorSpec.report?, hs, he]

/-- The bus after `vs`, in so far as its readiness is about reports. -/
structure MotorBus.After (specs : List MotorSpec) (vs : List Visit) (b : MotorBus) : Prop where
  configured : b.Configured specs
  vouched : b.manager.Vouched (Reported specs vs)
  mapByName : b.manager.mapByName.map Prod.snd = mapped specs

namespace MotorBus

theorem After.onResponse {vs : List Visit} {b : MotorBus} (h : b.After specs vs) (v : Visit) :
    (b.onResponse v).1.After specs (vs ++ [v]) := by
  have hcallbacks := (onResponse_callbacks h.configured v).1
  refine ⟨h.configured.onResponse v, ?_, ?_⟩
  · rw [← hcallbacks]
    refine (h.vouched.imp fun i hi => hi.concat v).final ?_
    rintro cb hcb i rfl
    rw [Reported, lastReport_concat, Option.isSome_or, setReady_mem_callbacks hcb]
    rfl
  · rw [← hcallbacks, ← h.mapByName, Manager.mapByName_final]

theorem after_final (garbage : MotorReport) (specs : List MotorSpec) (vs : List Visit) :
    (Mealy.final onResponse (create garbage specs) vs).After specs vs := by
  induction vs using List.reverseRecOn with
  | nil => exact ⟨create_configured garbage specs, Manager.create_vouched _, rfl⟩
  | append_singleton vs v ih =>
    rw [Mealy.final_append]
    exact ih.onResponse v

theorem After.reported {vs : List Visit} {b : MotorBus} (h : b.After specs vs) (v : Visit)
    (hsent : (b.onResponse v).2 ≠ []) : ∀ i ∈ mapped specs, Reported specs (vs ++ [v]) i := by
  intro i hi
  obtain ⟨hstate, hout⟩ := onResponse_callbacks h.configured v
  rw [← hout] at hsent
  have hready := (visit_publish hsent).1.ready
  rw [hstate] at hready
  have hnext := h.onResponse v
  rw [← hnext.mapByName] at hi
  obtain ⟨dev, hdev, rfl⟩ := List.mem_map.mp hi
  exact hnext.vouched.all hready dev hdev

end MotorBus

-- ---------------------------------------------------------------------------
-- Publications
-- ---------------------------------------------------------------------------

def Overheated (specs : List MotorSpec) (topLimit : ℚ) (vs : List Visit) : Prop :=
  ∃ i ∈ mapped specs, ∃ r ∈ lastReport specs i vs, topLimit ≤ r.temperature

/-- The last of these visits makes the manager publish. -/
def Publishes (garbage : MotorReport) (specs : List MotorSpec) (vs : List Visit) : Prop :=
  ∃ before v, vs = before ++ [v] ∧
    ((Mealy.final MotorBus.onResponse (.create garbage specs) before).onResponse v).2 ≠ []

theorem publishes_concat {vs : List Visit} {v : Visit} : Publishes garbage specs (vs ++ [v]) ↔
    ((Mealy.final MotorBus.onResponse (.create garbage specs) vs).onResponse v).2 ≠ [] := by
  constructor
  · rintro ⟨before, w, heq, hsent⟩
    obtain ⟨rfl, hlast⟩ := List.append_inj' heq rfl
    rwa [List.singleton_inj.mp hlast]
  · exact fun hsent => ⟨vs, v, rfl, hsent⟩

/-- At a publication the manager looks at the last reports, and at nothing else. -/
theorem isTemperatureHigh_iff (garbage : MotorReport) (topLimit : ℚ) {vs : List Visit}
    (hreported : ∀ i ∈ mapped specs, Reported specs vs i) :
    (Mealy.final MotorBus.onResponse (.create garbage specs) vs).isTemperatureHigh topLimit = true ↔
      Overheated specs topLimit vs := by
  have hafter := MotorBus.after_final garbage specs vs
  have htemp := MotorBus.temperature_final garbage specs vs
  generalize Mealy.final MotorBus.onResponse (.create garbage specs) vs = b at hafter htemp
  have hone : ∀ i ∈ mapped specs, ((b.motors[i]?).any (·.isTemperatureHigh topLimit) = true ↔
      ∃ r ∈ lastReport specs i vs, topLimit ≤ r.temperature) := by
    intro i hi
    obtain ⟨r, hr⟩ := Option.isSome_iff_exists.mp (hreported i hi)
    obtain ⟨s, hs⟩ := specs_of_reported (hreported i hi)
    have hi := htemp i
    rw [hs, hr] at hi
    obtain ⟨d, hd, hdr⟩ := Option.map_eq_some_iff.mp hi
    simp [hd, hr, MotorDevice.isTemperatureHigh, hdr]
  rw [MotorBus.isTemperatureHigh, List.any_eq_true, Overheated, ← hafter.mapByName]
  rw [← hafter.mapByName] at hone
  constructor
  · rintro ⟨dev, hdev, hhigh⟩
    have hmem := List.mem_map_of_mem (f := Prod.snd) hdev
    exact ⟨dev.2, hmem, (hone dev.2 hmem).mp hhigh⟩
  · rintro ⟨i, hi, hhigh⟩
    obtain ⟨dev, hdev, rfl⟩ := List.mem_map.mp hi
    exact ⟨dev, hdev, (hone dev.2 hi).mpr hhigh⟩

-- ---------------------------------------------------------------------------
-- The board
-- ---------------------------------------------------------------------------

/-- The last message went out with a motor hot. -/
def Alarmed (garbage : MotorReport) (specs : List MotorSpec) (topLimit : ℚ) (vs : List Visit) :
    Prop :=
  ∃ last, LastPrefix (Publishes garbage specs) last vs ∧ Overheated specs topLimit last

theorem alarmed_concat {vs : List Visit} {v : Visit} :
    Alarmed garbage specs topLimit (vs ++ [v]) ↔
      Publishes garbage specs (vs ++ [v]) ∧ Overheated specs topLimit (vs ++ [v]) ∨
        ¬ Publishes garbage specs (vs ++ [v]) ∧ Alarmed garbage specs topLimit vs := by
  by_cases hp : Publishes garbage specs (vs ++ [v]) <;> simp [Alarmed, lastPrefix_concat, hp]

theorem isBeeping_onRequest (d : PowerBoardDevice) (now : Int) (msg : DeviceMessage) :
    (d.onRequest now msg).1.isBeeping = d.isBeeping := by
  rw [PowerBoardDevice.onRequest, request_eq]
  simp only [PowerBoardDevice.beep]
  split_ifs <;> exact isBeeping_restart now

theorem isBeeping_onResponse (d : PowerBoardDevice) (msg : DeviceMessage) :
    (d.onResponse msg).1.isBeeping = d.isBeeping := by
  simp only [PowerBoardDevice.onResponse]
  split_ifs <;> rfl

theorem beeps_iff {d : PowerBoardDevice} (h : IsReqId d.mgr.reqId) (now : Int) (msg : DeviceMessage) :
    (d.onRequest now msg).2.data.get 0 = 0x8F ↔
      d.isBeeping = true ∧ ¬ (d.restart now).Due now ∧ now - d.lastBeepTime ≥ 100000000 := by
  have hreq := isReqId_ne_beep (isReqId_restart h now)
  have hon := isBeeping_restart (d := d) now
  have hbeepTime := lastBeepTime_restart (d := d) now
  rw [PowerBoardDevice.onRequest, request_eq, ← hon, ← hbeepTime]
  generalize d.restart now = r at hreq
  simp only [Cells.get_put_self, PowerBoardDevice.beep]
  by_cases hdue : r.Due now
  · simp [hdue, hdue.1, hreq]
  · by_cases hbeep : r.isBeeping = true ∧ now - r.lastBeepTime ≥ 100000000
    · simp [hdue, hbeep]
    · simp only [hdue, if_false, true_and, if_neg hbeep, not_false_eq_true]
      exact iff_of_false (by decide) hbeep

/-- Motors and board after some calls. -/
structure MotorsAndPower.After (garbage : MotorReport) (specs : List MotorSpec) (topLimit : ℚ)
    (vs : List Visit) (board : PowerBoardDevice) (s : MotorsAndPower) : Prop where
  mdm : s.mdm = Mealy.final MotorBus.onResponse (.create garbage specs) vs
  power : s.power = some board
  isReqId : IsReqId board.mgr.reqId
  isBeeping : board.isBeeping = true ↔ Alarmed garbage specs topLimit vs

theorem MotorsAndPower.After.motor {vs : List Visit} {board : PowerBoardDevice} {s : MotorsAndPower}
    (h : s.After garbage specs topLimit vs board) (v : Visit) :
    ∃ board', (bodyStep topLimit s (.motor v)).1.After garbage specs topLimit (vs ++ [v]) board' := by
  have hmdm : (s.mdm.onResponse v).1 =
      Mealy.final MotorBus.onResponse (.create garbage specs) (vs ++ [v]) := by
    rw [Mealy.final_append, h.mdm]
    rfl
  have hafter := MotorBus.after_final garbage specs vs
  by_cases hsent : (s.mdm.onResponse v).2 = []
  · have hquiet : ¬ Publishes garbage specs (vs ++ [v]) := by
      rw [publishes_concat, ← h.mdm]
      exact not_not.mpr hsent
    refine ⟨board, ?_⟩
    simp only [bodyStep, hsent, List.foldl_nil]
    exact ⟨hmdm, h.power, h.isReqId, h.isBeeping.trans (by simp [alarmed_concat, hquiet])⟩
  · have hpublishes : Publishes garbage specs (vs ++ [v]) := by
      rw [publishes_concat, ← h.mdm]
      exact hsent
    have hhigh := isTemperatureHigh_iff garbage topLimit
      (hafter.reported v (h.mdm ▸ hsent))
    rw [← hmdm] at hhigh
    obtain ⟨hstate, hout⟩ := MotorBus.onResponse_callbacks hafter.configured v
    rw [← h.mdm] at hout
    obtain ⟨-, msg, hmsg⟩ := visit_publish (hout.symm ▸ hsent)
    rw [hout] at hmsg
    simp only [bodyStep, hmsg, List.foldl_cons, List.foldl_nil, onStatusReady, h.power,
      Option.map_some]
    refine ⟨_, hmdm, rfl, isReqId_step h.isReqId _, ?_⟩
    rw [alarmed_concat, ← hhigh]
    by_cases hot : (s.mdm.onResponse v).1.isTemperatureHigh topLimit = true <;>
      simp [hot, hpublishes, PowerBoardDevice.step]

theorem after_bodyStep {vs : List Visit} {board : PowerBoardDevice} {s : MotorsAndPower}
    (h : s.After garbage specs topLimit vs board) (call : BodyCall) :
    ∃ board', (bodyStep topLimit s call).1.After garbage specs topLimit (vs ++ visitsOf [call])
      board' := by
  cases call with
  | motor v => exact h.motor v
  | onRequest now msg =>
    refine ⟨(board.onRequest now msg).1, ?_⟩
    simp only [bodyStep, h.power, visitsOf, List.filterMap_cons, List.filterMap_nil, List.append_nil]
    exact ⟨h.mdm, rfl, isReqId_step h.isReqId (.onRequest now msg),
      (isBeeping_onRequest board now msg).symm ▸ h.isBeeping⟩
  | onResponse msg =>
    refine ⟨(board.onResponse msg).1, ?_⟩
    simp only [bodyStep, h.power, visitsOf, List.filterMap_cons, List.filterMap_nil, List.append_nil]
    exact ⟨h.mdm, rfl, isReqId_step h.isReqId (.onResponse msg),
      (isBeeping_onResponse board msg).symm ▸ h.isBeeping⟩

theorem after_calls (garbage : MotorReport) (specs : List MotorSpec) (topLimit : ℚ) (id : UInt16)
    (uninit : UInt8) (calls : List BodyCall) :
    ∃ board, (Mealy.final (bodyStep topLimit)
      ⟨.create garbage specs, [], some (.create id uninit)⟩ calls).After garbage specs topLimit
        (visitsOf calls) board := by
  induction calls using List.reverseRecOn with
  | nil =>
    refine ⟨.create id uninit, rfl, rfl, .inl rfl, ?_⟩
    simp only [PowerBoardDevice.create, Bool.false_eq_true, false_iff]
    rintro ⟨last, hlast, -⟩
    obtain ⟨before, v, heq, -⟩ := hlast.holds
    have hnil := List.prefix_nil.mp hlast.isPrefix
    simp [hnil] at heq
  | append_singleton calls call ih =>
    obtain ⟨board, h⟩ := ih
    rw [Mealy.final_append, visitsOf, List.filterMap_append]
    exact after_bodyStep h call

/-- The board is told to beep exactly when some motor was hot by the reports that the last
message went out with, and neither a request nor the beep before is in the way. -/
theorem beeps_when_hot (garbage : MotorReport) (specs : List MotorSpec) (topLimit : ℚ) (id : UInt16)
    (uninit : UInt8) (calls : List BodyCall) (now : Int) (msg : DeviceMessage) :
    ∃ board, (Mealy.final (bodyStep topLimit) ⟨.create garbage specs, [], some (.create id uninit)⟩
        calls).power = some board ∧
      ((board.onRequest now msg).2.data.get 0 = 0x8F ↔
        (∃ last, LastPrefix (Publishes garbage specs) last (visitsOf calls) ∧
          Overheated specs topLimit last) ∧
        ¬ (board.restart now).Due now ∧ now - board.lastBeepTime ≥ 100000000) := by
  obtain ⟨board, h⟩ := after_calls garbage specs topLimit id uninit calls
  exact ⟨board, h.power, (beeps_iff h.isReqId now msg).trans (and_congr_left' h.isBeeping)⟩

end TienKung
