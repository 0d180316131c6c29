import TienKung.Canopen.Driver
import TienKung.Devices.FilteredImu
import TienKung.Devices.MotorDevice
import TienKung.Devices.PowerBoard
import TienKung.Devices.SriSensor
import TienKung.Devices.TsinghuaHand
import TienKung.Soem.Master

/-!
# The device objects behind `SoemDevice`

One type of all device objects, with the dispatch of `OnResponse`, and for each
of them the slots that its `OnResponse` does nothing with. `OnRequest` and what
other threads do between two calls is left open.
-/

namespace TienKung

-- ---------------------------------------------------------------------------
-- Objects
-- ---------------------------------------------------------------------------

inductive DeviceObject (F : Type)
  | motor (d : MotorDevice) (ready : Bool)
  | canopen (drv : Driver) (passageResp : Int) (d : CanopenMotor)
  | hand (d : TsinghuaHandDevice) (ready : Bool)
  | sri (d : SriSensorDevice)
  | xsens (mode : XsensMode) (d : XsensImu)
  | filtered (kind : ImuClass) (cfg : ImuConfig) (d : ImuDevice F)
  | powerBoard (d : PowerBoardDevice)

/-- What an object hands to its `funcOnStatus` or `funcOnMessage`. -/
inductive DeviceReport
  | motor (report : MotorReport)
  | canopen (status : MotorStatusMessage)
  | hand (status : FingerStatusMessage)
  | sri (forces : Vector UInt32 6)
  | xsens (data : ImuData)
  | filtered (data : FilteredData)
  | powerBoard (mgr : PowerMgr)

/-- What the objects use beside their slot. -/
structure Surroundings (ε F : Type) where
  /-- `OnRequest` of an object, and what has happened to it since the last call. -/
  onRequest : ε → DeviceObject F → (passage : Int) → DeviceMessage →
    ε × DeviceObject F × DeviceMessage
  now : ε → ε × Int
  uninit : ε → UInt32
  quatToRPY2 : Vector ℚ 4 → Vector ℚ 3
  filters : ImuFilters F

variable {ε F : Type} (out : Surroundings ε F)

namespace DeviceObject

def onResponse (env : ε) (o : DeviceObject F) (passage : Int) (msg : DeviceMessage) :
    DeviceObject F × List DeviceReport :=
  match o with
  | motor d ready =>
    match d.onResponse msg with
    | (d, .status report) => (motor d true, [.motor report])
    | (d, _) => (motor d ready, [])
  | canopen drv passageResp d =>
    if passage = passageResp then
      let (d, statuses) := d.onResponse drv (out.uninit env) msg
      (canopen drv passageResp d, statuses.map .canopen)
    else (o, [])
  | hand d ready =>
    match d.onResponse msg with
    | some status => (hand d true, [.hand status])
    | none => (hand d ready, [])
  | sri d =>
    let (d, samples) := d.onResponse passage msg
    (sri d, samples.map .sri)
  | xsens mode d =>
    let (d, samples) := d.onResponse mode out.quatToRPY2 (passage, msg)
    (xsens mode d, samples.map .xsens)
  | filtered kind cfg d =>
    let (d, samples) := d.onResponse out.filters kind cfg passage (out.now env).2 msg
    (filtered kind cfg d, samples.map .filtered)
  | powerBoard d =>
    let (d, events) := d.onResponse msg
    (powerBoard d, events.filterMap fun
      | .status mgr => some (.powerBoard mgr)
      | _ => none)

end DeviceObject

/-- One call of `OnResponse`. -/
structure Effect (F : Type) where
  before : DeviceObject F
  after : DeviceObject F
  reports : List DeviceReport

/-- The call reports nothing and leaves the object as it was. -/
def Effect.Silent (e : Effect F) : Prop := e.after = e.before ∧ e.reports = []

structure World (ε F : Type) where
  env : ε
  objects : Nat → DeviceObject F
  effects : List (Effect F)

/-- No object writes to the slot of its response. -/
def objectCode : DeviceCode (World ε F) where
  onRequest w dev passage slot :=
    let (env, o, msg) := out.onRequest w.env (w.objects dev) passage slot
    ({ w with env, objects := fun i => if i = dev then o else w.objects i }, msg)
  onResponse w dev passage slot :=
    let (o, reports) := (w.objects dev).onResponse out w.env passage slot
    ({ env := (out.now w.env).1
       objects := fun i => if i = dev then o else w.objects i
       effects := w.effects ++ [⟨w.objects dev, o, reports⟩] }, slot)

-- ---------------------------------------------------------------------------
-- Slots that are ignored
-- ---------------------------------------------------------------------------

def MotorDevice.Ignores (d : MotorDevice) (msg : DeviceMessage) : Prop :=
  msg.id = 0 ∨ msg.id ≠ d.motorId.toUInt32

/-- No frame, a short one, or one of an object the driver does not store while
there is nothing to publish. -/
def CanopenMotor.Passes (drv : Driver) (d : CanopenMotor) (msg : DeviceMessage) : Prop :=
  msg.id = 0 ∨ msg.dlc < 8 ∨
    drv.label? (.ofBytes 0 msg.id msg.data) = none ∧ ¬ d.Complete drv

def TsinghuaHandDevice.Ignores (d : TsinghuaHandDevice) (msg : DeviceMessage) : Prop :=
  msg.id = 0 ∨ (FrameId.ofWord msg.id).id ≠ d.id ∨ (FrameId.ofWord msg.id).cmd ≠ 0xF1

def SriSensorDevice.Ignores (d : SriSensorDevice) (passage : Int) (msg : DeviceMessage) : Prop :=
  msg.id = 0 ∨ d.count < initTimes ∨ d.part? passage = none ∧ ¬ d.Complete

/-- A miss that takes down no flag, a frame of the activation phase, or one on a
passage that is not the sensor's. -/
def XsensImu.Ignores (mode : XsensMode) (d : XsensImu) (passage : Int) (msg : DeviceMessage) :
    Prop :=
  if msg.id = 0 then
    passage = d.passages.get 0 ∨ ∀ i : Fin 4, i.val + 1 < mode.packets → d.readyMsg.get i = false
  else d.count < initTimes ∨ d.packet? mode passage = none ∧ ¬ d.Complete mode

def ImuDevice.Ignores (kind : ImuClass) (cfg : ImuConfig) (d : ImuDevice F) (passage : Int)
    (msg : DeviceMessage) : Prop :=
  if msg.id = 0 then passage = cfg.passage1 ∨ d.readyMsg.1 = false
  else d.count < initTimes ∨
    (match kind with
      | .rmImu => msg.id ≠ 5 ∧ msg.id ≠ 6 ∧ msg.id ≠ cfg.id1.toUInt32 ∧ msg.id ≠ cfg.id2.toUInt32
      | .xsensHR => passage ≠ cfg.passage1 ∧ passage ≠ cfg.passage2) ∧
    ¬ (d.readyMsg.1 ∧ d.readyMsg.2)

/-- No package, or one that is not awaited and whose bit, if it has one, is up
already while there is nothing to publish. -/
def PowerBoardDevice.Ignores (d : PowerBoardDevice) (msg : DeviceMessage) : Prop :=
  msg.id = 0 ∨ d.mgr.Drops msg.data ∧ ¬ d.mgr.IsReady

def DeviceObject.Ignores (o : DeviceObject F) (passage : Int) (msg : DeviceMessage) : Prop :=
  match o with
  | motor d _ => d.Ignores msg
  | canopen drv passageResp d => passage ≠ passageResp ∨ d.Passes drv msg
  | hand d _ => d.Ignores msg
  | sri d => d.Ignores passage msg
  | xsens mode d => d.Ignores mode passage msg
  | filtered kind cfg d => d.Ignores kind cfg passage msg
  | powerBoard d => d.Ignores msg

section
variable {out}

theorem MotorDevice.onResponse_of_ignores {d : MotorDevice} {msg : DeviceMessage}
    (h : d.Ignores msg) :
    ∃ event, d.onResponse msg = (d, event) ∧ ∀ report, event ≠ .status report := by
  have hevent : ∀ report, d.event msg ≠ .status report := by
    intro report
    rw [MotorConfig.event]
    rcases h with h0 | hid
    · simp [h0]
    · split_ifs <;> nofun
  refine ⟨d.event msg, ?_, hevent⟩
  rw [MotorDevice.onResponse]
  split
  · rename_i report hr
    exact absurd hr (hevent report)
  · rfl

theorem CanopenMotor.onResponse_of_passes {drv : Driver} {d : CanopenMotor} {msg : DeviceMessage}
    (h : d.Passes drv msg) (uninit : UInt32) : d.onResponse drv uninit msg = (d, []) := by
  rw [CanopenMotor.onResponse]
  split_ifs with hid
  · rw [getInfo]
    split_ifs with hdlc
    · rfl
    · rcases h with h0 | hshort | ⟨hlabel, hcomplete⟩
      · exact absurd h0 hid
      · exact absurd hshort hdlc
      · have hnone : drv.label? (.ofBytes uninit msg.id msg.data) = none := hlabel
        rw [dispatch, hnone]
        exact publish_hold hcomplete
  · rfl

theorem TsinghuaHandDevice.onResponse_of_ignores {d : TsinghuaHandDevice} {msg : DeviceMessage}
    (h : d.Ignores msg) : d.onResponse msg = none := by
  refine if_neg ?_
  rintro ⟨hid, hfid, hcmd⟩
  rcases h with h | h | h
  · exact hid h
  · exact h hfid
  · exact h hcmd

theorem SriSensorDevice.onResponse_of_ignores {d : SriSensorDevice} {passage : Int}
    {msg : DeviceMessage} (h : d.Ignores passage msg) : d.onResponse passage msg = (d, []) := by
  rw [onResponse]
  split_ifs with htaken
  · rcases h with h | h | ⟨hpart, hcomplete⟩
    · exact absurd h htaken.1
    · exact absurd htaken.2 (Nat.not_le.mpr h)
    · rw [receive, hpart]
      exact if_neg hcomplete
  · rfl

theorem XsensImu.abandon_of_down {mode : XsensMode} {d : XsensImu}
    (h : ∀ i : Fin 4, i.val + 1 < mode.packets → d.readyMsg.get i = false) :
    d.abandon mode = d := by
  have hsame : (Vector.ofFn fun i : Fin 4 =>
      if i.val + 1 < mode.packets then false else d.readyMsg.get i) = d.readyMsg := by
    ext i hi
    rw [Vector.getElem_ofFn]
    split_ifs with hlt
    · exact (h ⟨i, hi⟩ hlt).symm
    · rfl
  rw [abandon, hsame]

theorem XsensImu.onResponse_of_ignores {mode : XsensMode} {d : XsensImu} {passage : Int}
    {msg : DeviceMessage} (h : d.Ignores mode passage msg)
    (quatToRPY2 : Vector ℚ 4 → Vector ℚ 3) :
    d.onResponse mode quatToRPY2 (passage, msg) = (d, []) := by
  rw [Ignores] at h
  simp only [onResponse]
  split_ifs at h ⊢ with hid hpassage hcount
  · rw [abandon_of_down (h.resolve_left hpassage)]
  · rfl
  · rcases h with h | ⟨hpacket, hcomplete⟩
    · exact absurd hcount (Nat.not_le.mpr h)
    · rw [receive, hpacket]
      exact if_neg hcomplete
  · rfl

theorem ImuDevice.onResponse_of_ignores {kind : ImuClass} {cfg : ImuConfig} {d : ImuDevice F}
    {passage : Int} {msg : DeviceMessage} (h : d.Ignores kind cfg passage msg)
    (f : ImuFilters F) (now : Int) :
    d.onResponse f kind cfg passage now msg = (d, []) := by
  unfold ImuDevice.Ignores at h
  unfold ImuDevice.onResponse
  split_ifs at h ⊢ with hid hcount
  · have hsame : d.abandon cfg passage = d := by
      rw [abandon]
      split_ifs with hpassage
      · obtain ⟨⟨gyro, accel⟩, imu, count, ready⟩ := d
        obtain rfl : gyro = false := h.resolve_left hpassage
        rfl
      · rfl
    rw [hsame]
  · rcases h with h | ⟨hframe, hdown⟩
    · exact absurd hcount (Nat.not_le.mpr h)
    · cases kind with
      | rmImu =>
        obtain ⟨h5, h6, h1, h2⟩ := hframe
        have hreceive : RmImuDevice.receive f cfg d now msg = d := by
          simp only [RmImuDevice.receive, RmImu.readStatus, if_neg h5, if_neg h6, if_neg h1,
            if_neg h2]
        simp only [hreceive]
        exact if_neg hdown
      | xsensHR =>
        have hreceive : XsensImuHRDevice.receive f cfg d passage now msg = d := by
          rw [XsensImuHRDevice.receive, if_neg hframe.1, if_neg hframe.2]
        simp only [hreceive]
        exact if_neg hdown
  · rfl

theorem PowerMgr.setReady_of_up {m : PowerMgr} {ins : UInt8}
    (h : ins > 14 ∨ m.readyBits.getLsbD (ins - 1).toNat = true) : m.setReady ins = m := by
  rw [setReady]
  split_ifs with hle
  · have hup := h.resolve_left (UInt8.not_lt.mpr hle)
    have hsame : m.readyBits ||| BitVec.twoPow 14 (ins - 1).toNat = m.readyBits := by
      ext i hi
      simp only [BitVec.getElem_or, BitVec.getElem_twoPow, Bool.or_eq_left_iff_imp,
        decide_eq_true_eq]
      rintro rfl
      rwa [BitVec.getLsbD_eq_getElem] at hup
    rw [hsame]
  · rfl

theorem PowerMgr.parseCanPackage_of_dropped {m : PowerMgr} {data : Vector UInt8 8}
    (h : m.Drops data) : m.parseCanPackage data = (m, []) := by
  rw [parseCanPackage]
  by_cases h0 : data[0] = 0
  · simp [h0]
  · obtain ⟨hout, hup⟩ := h.resolve_left h0
    simp [h0, setReady_of_up hup, hout]

theorem PowerBoardDevice.onResponse_of_ignores {d : PowerBoardDevice} {msg : DeviceMessage}
    (h : d.Ignores msg) :
    ∃ events, d.onResponse msg = (d, events) ∧ ∀ mgr, .status mgr ∉ events := by
  rw [onResponse]
  split_ifs with hid
  · obtain ⟨hdrop, hready⟩ := h.resolve_left hid
    simp only [PowerMgr.parseCanPackage_of_dropped hdrop, if_neg hready]
    exact ⟨[.manager d.mgr], rfl, by simp⟩
  · exact ⟨[], rfl, by simp⟩

theorem DeviceObject.onResponse_of_ignores {o : DeviceObject F} {passage : Int}
    {msg : DeviceMessage} (h : o.Ignores passage msg) (env : ε) :
    o.onResponse out env passage msg = (o, []) := by
  cases o with
  | motor d ready =>
    obtain ⟨event, heq, hevent⟩ := MotorDevice.onResponse_of_ignores (d := d) h
    cases event with
    | status report => exact absurd rfl (hevent report)
    | miss => simp only [onResponse, heq]
    | none => simp only [onResponse, heq]
  | canopen drv passageResp d =>
    simp only [onResponse]
    split_ifs with hp
    · rw [CanopenMotor.onResponse_of_passes (h.resolve_left (not_not_intro hp))]
      rfl
    · rfl
  | hand d ready =>
    simp only [onResponse, TsinghuaHandDevice.onResponse_of_ignores (d := d) h]
  | sri d =>
    simp only [onResponse, SriSensorDevice.onResponse_of_ignores (d := d) h]
    rfl
  | xsens mode d =>
    simp only [onResponse, XsensImu.onResponse_of_ignores (d := d) h]
    rfl
  | filtered kind cfg d =>
    simp only [onResponse, ImuDevice.onResponse_of_ignores (d := d) h]
    rfl
  | powerBoard d =>
    obtain ⟨events, heq, hstatus⟩ := PowerBoardDevice.onResponse_of_ignores (d := d) h
    simp only [onResponse, heq, Prod.mk.injEq, List.filterMap_eq_nil_iff, true_and]
    intro event hm
    cases event with
    | status mgr => exact absurd hm (hstatus mgr)
    | _ => rfl

end

end TienKung
