import TienKung.Canopen.Sdo
import TienKung.Devices.StatusManager

/-!
# The response handler of the two CANopen drivers

`ZeroErrMotorDevice::GetInfo` and `EyouMotorDevice::GetInfo` are one function
written twice: a frame's object picks the cached value it overwrites, and once
the flags that the mode needs are up a status goes out. The command byte is
parsed and never looked at, so an abort or an acknowledge overwrites the cache
like a read response; `getInfo_untouched_iff` says when a frame does nothing.

Arithmetic on reals is exact, with the double nearest to π for `M_PI`. Where an
integer conversion of the source overflows, the model wraps.
-/

namespace TienKung

open Sdo (Ins Message)

-- ---------------------------------------------------------------------------
-- State
-- ---------------------------------------------------------------------------

inductive Driver
  | zeroErr | eyou
  deriving DecidableEq

/-- The drivers' `Mode`, an `enum class` over `int`; ZeroErr has no `POS_2`. -/
inductive MotorMode
  | pos | fphc | pos2
  | other (value : Int)
  deriving DecidableEq

/-- The members `GetInfo` reads and writes. ZeroErr has no `maxSpeedSetting`,
Eyou no `zeroOffset`. -/
structure CanopenMotor where
  mode : MotorMode
  zeroOffset : ℚ := 0
  driverEnable : Int32 := 3
  driverMode : Int32 := 0
  receivePos : Int32 := 0
  receiveVel : Int32 := 0
  ratedCurrent : Int32 := 0
  receiveCurrent : Int32 := 0
  receivePosDeg : ℚ := 0
  receiveVelDeg : ℚ := 0
  signedCurrent : Int16 := 0
  statusReady : Vector Bool 3 := .replicate 3 false
  maxSpeedSetting : Int32 := 0
  ready : Bool := false
  deriving DecidableEq

def Driver.trans2Deg : Driver → ℚ
  | .zeroErr => 360 / 524288
  | .eyou => 360 / (101 * 65535)

def Driver.enableOf (drv : Driver) (key : UInt32) : Option Int32 :=
  match drv with
  | .zeroErr => if key = 0x37 then some 1 else if key = 0x21 then some 0
    else if key = 0x08 then some 4 else none
  | .eyou => if key = 0x37 then some 1 else if key = 0x31 then some 0 else none

/-- The case labels of the switch that store something. -/
def Driver.labels (drv : Driver) : List Ins :=
  [.actualVelocity, .actualPositionValue, .motorRatedCurrent, .motorActualCurrent, .statusWord,
    .modesOfOperationDisplay] ++
  match drv with
  | .zeroErr => []
  | .eyou => [.maxProfileVelocity]

def Driver.label? (drv : Driver) (resp : Message) : Option Ins :=
  drv.labels.find? fun ins => ins.value = resp.getIns

-- ---------------------------------------------------------------------------
-- GetInfo
-- ---------------------------------------------------------------------------

/-- `ReceiveCurrent * RatedCurrent / 10000.0` as a `short`. -/
def signedCurrentOf (receiveCurrent ratedCurrent : Int32) : Int16 :=
  Int16.ofInt ((receiveCurrent * ratedCurrent).toInt.tdiv 10000)

def CanopenMotor.store (drv : Driver) (d : CanopenMotor) (label : Ins) (data : UInt32) :
    CanopenMotor :=
  let value := data.toInt32
  match label with
  | .actualVelocity => { d with
      receiveVel := value
      receiveVelDeg := value.toInt * drv.trans2Deg
      statusReady := d.statusReady.set 0 true }
  | .actualPositionValue => { d with
      receivePos := value
      receivePosDeg := value.toInt * drv.trans2Deg
      statusReady := d.statusReady.set 1 true }
  | .motorRatedCurrent => { d with ratedCurrent := value }
  | .motorActualCurrent => { d with
      receiveCurrent := value
      signedCurrent := signedCurrentOf value d.ratedCurrent
      statusReady := d.statusReady.set 2 true }
  | .statusWord => { d with driverEnable := (drv.enableOf (data &&& 0xFF)).getD d.driverEnable }
  | .modesOfOperationDisplay => { d with driverMode := value }
  | .maxProfileVelocity => { d with maxSpeedSetting := value }
  | _ => d

def CanopenMotor.dispatch (drv : Driver) (d : CanopenMotor) (resp : Message) : CanopenMotor :=
  match drv.label? resp with
  | some label => d.store drv label resp.data
  | none => d

/-- The flags a mode waits for before it publishes; `none` where it never does. -/
def MotorMode.awaited (drv : Driver) : MotorMode → Option (List (Fin 3))
  | .fphc => some [0, 1, 2]
  | .pos => some [1]
  | .pos2 => match drv with
    | .zeroErr => none
    | .eyou => some [0, 1]
  | .other _ => none

def CanopenMotor.Complete (drv : Driver) (d : CanopenMotor) : Prop :=
  ∃ flags ∈ d.mode.awaited drv, ∀ i ∈ flags, d.statusReady[i] = true

instance (drv : Driver) (d : CanopenMotor) : Decidable (d.Complete drv) := by
  unfold CanopenMotor.Complete; infer_instance

/-- The second half of `GetInfo`, with the calls of `funcOnStatus`. -/
def CanopenMotor.publish (drv : Driver) (d : CanopenMotor) :
    CanopenMotor × List MotorStatusMessage :=
  if d.Complete drv then
    let pos := d.receivePosDeg / 180 * pi - d.zeroOffset
    let vel := d.receiveVelDeg / 180 * pi
    match d.mode with
    | .fphc => ({ d with statusReady := .replicate 3 false, ready := true },
        [⟨pos, vel, d.signedCurrent.toInt / 1000⟩])
    | .pos => ({ d with statusReady := d.statusReady.set 1 false }, [⟨pos, 0, 0⟩])
    | .pos2 => ({ d with statusReady := (d.statusReady.set 0 false).set 1 false }, [⟨pos, vel, 0⟩])
    | .other _ => (d, [])
  else (d, [])

def CanopenMotor.getInfo (drv : Driver) (uninit : UInt32) (d : CanopenMotor) (msg : DeviceMessage) :
    CanopenMotor × List MotorStatusMessage :=
  if msg.dlc < 8 then (d, [])
  else (d.dispatch drv (.ofBytes uninit msg.id msg.data)).publish drv

/-- `OnResponse` on the response passage. -/
def CanopenMotor.onResponse (drv : Driver) (uninit : UInt32) (d : CanopenMotor) (msg : DeviceMessage) :
    CanopenMotor × List MotorStatusMessage :=
  if msg.id ≠ 0 then d.getInfo drv uninit msg else (d, [])

def ZeroErrMotorDevice.getInfo := CanopenMotor.getInfo .zeroErr

def EyouMotorDevice.getInfo := CanopenMotor.getInfo .eyou

-- ---------------------------------------------------------------------------
-- What a response stores
-- ---------------------------------------------------------------------------

section
variable {drv : Driver} {d : CanopenMotor} {msg : DeviceMessage}

theorem Driver.label?_some {label : Ins} {resp : Message} (h : drv.label? resp = some label) :
    label.value = resp.getIns := by
  have := List.find?_some (p := fun ins : Ins => decide (ins.value = resp.getIns)) h
  simpa using this

theorem Driver.label?_eq_some {label : Ins} (hl : label ∈ drv.labels) (resp : Message) :
    drv.label? resp = some label ↔ resp.getIns = label.value := by
  constructor
  · exact fun h => (label?_some h).symm
  · intro h
    cases hf : drv.label? resp with
    | none =>
      have := List.find?_eq_none.mp hf label hl
      simp [h] at this
    | some found => rw [Ins.value_injective ((label?_some hf).trans h)]

theorem CanopenMotor.publish_fst (drv : Driver) (d : CanopenMotor) :
    ∃ statusReady ready, (d.publish drv).1 = { d with statusReady, ready } := by
  unfold publish
  split
  · split <;> exact ⟨_, _, rfl⟩
  · exact ⟨_, _, rfl⟩

/-- Whether a response frame reaches the switch under a label. -/
def CanopenMotor.Takes (label : Ins) (msg : DeviceMessage) : Prop :=
  msg.id ≠ 0 ∧ ¬ msg.dlc < 8 ∧ (Message.ofBytes 0 msg.id msg.data).getIns = label.value

instance (label : Ins) (msg : DeviceMessage) : Decidable (CanopenMotor.Takes label msg) := by
  unfold CanopenMotor.Takes; infer_instance

theorem CanopenMotor.onResponse_member {f : CanopenMotor → α} {label : Ins}
    (hl : label ∈ drv.labels)
    (hflags : ∀ (d : CanopenMotor) statusReady ready, f { d with statusReady, ready } = f d)
    (hother : ∀ (d : CanopenMotor) other data, other ≠ label → f (d.store drv other data) = f d)
    (uninit : UInt32) :
    f (d.onResponse drv uninit msg).1 = if Takes label msg
      then f (d.store drv label (Message.ofBytes uninit msg.id msg.data).data) else f d := by
  have hins : (Message.ofBytes uninit msg.id msg.data).getIns =
      (Message.ofBytes 0 msg.id msg.data).getIns := rfl
  by_cases hid : msg.id = 0
  · simp [onResponse, Takes, hid]
  by_cases hdlc : msg.dlc < 8
  · simp [onResponse, getInfo, Takes, hdlc]
  obtain ⟨statusReady, ready, hpublish⟩ :=
    publish_fst drv (d.dispatch drv (.ofBytes uninit msg.id msg.data))
  have hdispatch : f (d.onResponse drv uninit msg).1 =
      f (d.dispatch drv (.ofBytes uninit msg.id msg.data)) := by
    rw [onResponse, if_pos hid, getInfo, if_neg hdlc, hpublish, hflags]
  rw [hdispatch, dispatch]
  simp only [Takes, hid, hdlc, ← hins, not_false_iff, true_and, ne_eq]
  cases h : drv.label? (.ofBytes uninit msg.id msg.data) with
  | none =>
    rw [if_neg]
    intro hlabel
    rw [(Driver.label?_eq_some hl _).mpr hlabel] at h
    cases h
  | some found =>
    by_cases hf : found = label
    · subst hf
      rw [if_pos (Driver.label?_some h).symm]
    · rw [if_neg, hother _ _ _ hf]
      intro hlabel
      rw [(Driver.label?_eq_some hl _).mpr hlabel] at h
      exact hf (Option.some.inj h).symm

theorem CanopenMotor.onResponse_receivePos (uninit : UInt32) :
    (d.onResponse drv uninit msg).1.receivePos = if Takes .actualPositionValue msg
      then (Message.ofBytes uninit msg.id msg.data).data.toInt32 else d.receivePos :=
  onResponse_member (f := receivePos) (by simp [Driver.labels]) (fun _ _ _ => rfl)
    (fun _ other _ h => by cases other <;> first | rfl | exact absurd rfl h) uninit

theorem CanopenMotor.onResponse_driverMode (uninit : UInt32) :
    (d.onResponse drv uninit msg).1.driverMode = if Takes .modesOfOperationDisplay msg
      then (Message.ofBytes uninit msg.id msg.data).data.toInt32 else d.driverMode :=
  onResponse_member (f := driverMode) (by simp [Driver.labels]) (fun _ _ _ => rfl)
    (fun _ other _ h => by cases other <;> first | rfl | exact absurd rfl h) uninit

end

-- ---------------------------------------------------------------------------
-- What a response leaves alone
-- ---------------------------------------------------------------------------

structure CanopenMotor.SameCache (d d' : CanopenMotor) : Prop where
  receivePos : d'.receivePos = d.receivePos
  receiveVel : d'.receiveVel = d.receiveVel
  receiveCurrent : d'.receiveCurrent = d.receiveCurrent
  ratedCurrent : d'.ratedCurrent = d.ratedCurrent
  driverEnable : d'.driverEnable = d.driverEnable
  driverMode : d'.driverMode = d.driverMode
  maxSpeedSetting : d'.maxSpeedSetting = d.maxSpeedSetting
  statusReady : d'.statusReady = d.statusReady

/-- Storing `data` under a label changes nothing: the value is cached already,
and its flag is up. -/
def CanopenMotor.Cached (drv : Driver) (d : CanopenMotor) (label : Ins) (data : UInt32) : Prop :=
  match label with
  | .actualVelocity => d.receiveVel = data.toInt32 ∧ d.statusReady[0] = true
  | .actualPositionValue => d.receivePos = data.toInt32 ∧ d.statusReady[1] = true
  | .motorRatedCurrent => d.ratedCurrent = data.toInt32
  | .motorActualCurrent => d.receiveCurrent = data.toInt32 ∧ d.statusReady[2] = true
  | .statusWord => ∀ enable ∈ drv.enableOf (data &&& 0xFF), d.driverEnable = enable
  | .modesOfOperationDisplay => d.driverMode = data.toInt32
  | .maxProfileVelocity => d.maxSpeedSetting = data.toInt32
  | _ => True

/-- The frame is no response for `GetInfo`, or it finds nothing to publish and
either no object the driver stores or what is cached already. -/
def CanopenMotor.Ignores (drv : Driver) (uninit : UInt32) (d : CanopenMotor) (msg : DeviceMessage) :
    Prop :=
  msg.dlc < 8 ∨ ¬ d.Complete drv ∧
    ∀ label ∈ drv.label? (.ofBytes uninit msg.id msg.data),
      d.Cached drv label (Message.ofBytes uninit msg.id msg.data).data

section
variable {drv : Driver} {d : CanopenMotor}

theorem set_eq_self {v : Vector Bool n} {i : Nat} (h : i < n) :
    v.set i true = v ↔ v[i] = true := by
  constructor
  · intro he
    rw [← he]
    exact Vector.getElem_set_self h
  · intro he
    ext j hj
    by_cases hij : i = j
    · subst hij; simp [he]
    · simp [Vector.getElem_set_ne, hij]

theorem CanopenMotor.sameCache_store_iff (label : Ins) (data : UInt32) :
    d.SameCache (d.store drv label data) ↔ d.Cached drv label data := by
  cases label with
  | actualVelocity =>
    refine ⟨fun h => ⟨h.receiveVel.symm, (set_eq_self (by decide)).mp h.statusReady⟩, ?_⟩
    rintro ⟨hv, hf⟩
    exact ⟨rfl, hv.symm, rfl, rfl, rfl, rfl, rfl, (set_eq_self (by decide)).mpr hf⟩
  | actualPositionValue =>
    refine ⟨fun h => ⟨h.receivePos.symm, (set_eq_self (by decide)).mp h.statusReady⟩, ?_⟩
    rintro ⟨hv, hf⟩
    exact ⟨hv.symm, rfl, rfl, rfl, rfl, rfl, rfl, (set_eq_self (by decide)).mpr hf⟩
  | motorActualCurrent =>
    refine ⟨fun h => ⟨h.receiveCurrent.symm, (set_eq_self (by decide)).mp h.statusReady⟩, ?_⟩
    rintro ⟨hv, hf⟩
    exact ⟨rfl, rfl, hv.symm, rfl, rfl, rfl, rfl, (set_eq_self (by decide)).mpr hf⟩
  | motorRatedCurrent =>
    exact ⟨fun h => h.ratedCurrent.symm, fun h => ⟨rfl, rfl, rfl, h.symm, rfl, rfl, rfl, rfl⟩⟩
  | modesOfOperationDisplay =>
    exact ⟨fun h => h.driverMode.symm, fun h => ⟨rfl, rfl, rfl, rfl, rfl, h.symm, rfl, rfl⟩⟩
  | maxProfileVelocity =>
    exact ⟨fun h => h.maxSpeedSetting.symm, fun h => ⟨rfl, rfl, rfl, rfl, rfl, rfl, h.symm, rfl⟩⟩
  | statusWord =>
    have hkey : (∀ enable ∈ drv.enableOf (data &&& 0xFF), d.driverEnable = enable) ↔
        (drv.enableOf (data &&& 0xFF)).getD d.driverEnable = d.driverEnable := by
      cases drv.enableOf (data &&& 0xFF) <;> simp [eq_comm]
    exact ⟨fun h => hkey.mpr h.driverEnable, fun h => ⟨rfl, rfl, rfl, rfl, hkey.mp h, rfl, rfl, rfl⟩⟩
  | conrolWord => exact ⟨fun _ => trivial, fun _ => ⟨rfl, rfl, rfl, rfl, rfl, rfl, rfl, rfl⟩⟩
  | modesOfOperation => exact ⟨fun _ => trivial, fun _ => ⟨rfl, rfl, rfl, rfl, rfl, rfl, rfl, rfl⟩⟩
  | targetPosition => exact ⟨fun _ => trivial, fun _ => ⟨rfl, rfl, rfl, rfl, rfl, rfl, rfl, rfl⟩⟩

theorem CanopenMotor.sameCache_dispatch_iff (resp : Message) :
    d.SameCache (d.dispatch drv resp) ↔ ∀ label ∈ drv.label? resp, d.Cached drv label resp.data := by
  unfold dispatch
  cases drv.label? resp with
  | none => simpa using (⟨rfl, rfl, rfl, rfl, rfl, rfl, rfl, rfl⟩ : d.SameCache d)
  | some label => simpa using sameCache_store_iff label resp.data

@[simp] theorem CanopenMotor.dispatch_mode (resp : Message) : (d.dispatch drv resp).mode = d.mode := by
  unfold dispatch
  split
  · rename_i label _; cases label <;> rfl
  · rfl

theorem CanopenMotor.publish_nil_iff : (d.publish drv).2 = [] ↔ ¬ d.Complete drv := by
  by_cases hc : d.Complete drv
  · simp only [publish, hc, if_true, not_true, iff_false]
    cases hm : d.mode with
    | other v =>
      obtain ⟨flags, hf, -⟩ := hc
      simp [hm, MotorMode.awaited] at hf
    | _ => exact List.cons_ne_nil _ _
  · simp [publish, hc]

theorem CanopenMotor.publish_hold (h : ¬ d.Complete drv) : d.publish drv = (d, []) := if_neg h

/-- A frame, whatever its command byte, leaves the cache and the flags alone
and publishes nothing exactly when `Ignores` holds. -/
theorem getInfo_untouched_iff (drv : Driver) (uninit : UInt32) (d : CanopenMotor)
    (msg : DeviceMessage) :
    d.SameCache (d.getInfo drv uninit msg).1 ∧ (d.getInfo drv uninit msg).2 = [] ↔
      d.Ignores drv uninit msg := by
  unfold CanopenMotor.getInfo CanopenMotor.Ignores
  by_cases hdlc : msg.dlc < 8
  · simpa [hdlc] using (⟨rfl, rfl, rfl, rfl, rfl, rfl, rfl, rfl⟩ : d.SameCache d)
  · simp only [hdlc, if_false, false_or, CanopenMotor.publish_nil_iff,
      ← CanopenMotor.sameCache_dispatch_iff]
    generalize Message.ofBytes uninit msg.id msg.data = resp
    have hcomplete : d.SameCache (d.dispatch drv resp) →
        ((d.dispatch drv resp).Complete drv ↔ d.Complete drv) := by
      intro h
      simp only [CanopenMotor.Complete, CanopenMotor.dispatch_mode, h.statusReady]
    constructor
    · rintro ⟨hsame, hno⟩
      rw [CanopenMotor.publish_hold hno] at hsame
      exact ⟨fun hc => hno ((hcomplete hsame).mpr hc), hsame⟩
    · rintro ⟨hno, hsame⟩
      have hno' := fun hc => hno ((hcomplete hsame).mp hc)
      rw [CanopenMotor.publish_hold hno']
      exact ⟨hsame, hno'⟩

end

/-- A full frame that is no read response leaves the cache and the flags alone
and publishes nothing. -/
def OnlyReadResponses (drv : Driver) : Prop :=
  ∀ (uninit : UInt32) (d : CanopenMotor) (msg : DeviceMessage), msg.dlc = 8 →
    msg.data.get 0 ∉ Sdo.readResponses →
    d.SameCache (d.getInfo drv uninit msg).1 ∧ (d.getInfo drv uninit msg).2 = []

/-- An abort of the position read overwrites the position with the abort code
and publishes it. -/
theorem not_getInfo_untouched : ¬ OnlyReadResponses .zeroErr ∧ ¬ OnlyReadResponses .eyou := by
  have habort (drv : Driver) : ¬ OnlyReadResponses drv := by
    intro h
    have hsame := (h 0 { mode := .pos } ⟨0x581, 0, 8, #v[0x80, 0x64, 0x60, 0, 0, 0, 0x02, 0x06]⟩ rfl
      (by decide)).1.receivePos
    revert hsame
    cases drv <;> decide +kernel
  exact ⟨habort .zeroErr, habort .eyou⟩

end TienKung
