import Mathlib.Data.Rat.Defs
import Mathlib.Data.List.FinRange
import Mathlib.Logic.Function.Basic
import TienKung.Lib.Cells
import TienKung.Lib.Past
import TienKung.Soem.Message

/-!
# The power board

The board is polled one instruction after the other and answers with a package
for each. `ParseCanPackage` raises the bit of a package before it looks whether
this is the answer it waits for, and drops the package if it is not.

Arithmetic on reals is exact, with the float nearest to 0.1 for `0.1f`.
-/

namespace TienKung

open Past (Since Throughout)

-- ---------------------------------------------------------------------------
-- Values
-- ---------------------------------------------------------------------------

inductive PbIns
  | getWaistTemp | getArmATemp | getArmBTemp | getLegATemp | getLegBTemp
  | getArmACurr | getArmBCurr | getLegACurr | getLegBCurr | getWaistCurr | getHeadCurr
  | getBatteryInfo | getVersionInfo | getPowerBoardStatus
  deriving DecidableEq

namespace PbIns

def value : PbIns → UInt8
  | getWaistTemp => 0x01
  | getArmATemp => 0x02
  | getArmBTemp => 0x03
  | getLegATemp => 0x04
  | getLegBTemp => 0x05
  | getArmACurr => 0x06
  | getArmBCurr => 0x07
  | getLegACurr => 0x08
  | getLegBCurr => 0x09
  | getWaistCurr => 0x0A
  | getHeadCurr => 0x0B
  | getBatteryInfo => 0x0C
  | getVersionInfo => 0x0D
  | getPowerBoardStatus => 0x0E

def all : List PbIns :=
  [getWaistTemp, getArmATemp, getArmBTemp, getLegATemp, getLegBTemp, getArmACurr, getArmBCurr,
    getLegACurr, getLegBCurr, getWaistCurr, getHeadCurr, getBatteryInfo, getVersionInfo,
    getPowerBoardStatus]

def ofByte? (ins : UInt8) : Option PbIns := all.find? fun item => item.value = ins

end PbIns

/-- What `update` is given: six bytes, as its callers always pass. -/
abbrev PbData := Vector UInt8 6

def pbData (data : Vector UInt8 8) : PbData := .ofFn fun i => data.get ⟨i + 1, by omega⟩

def pbTenths (hi lo : UInt8) : ℚ :=
  (hi.toUInt16 <<< 8 ||| lo.toUInt16).toInt16.toInt * (13421773 / 134217728)

structure PowerStatus where
  max : ℚ := 0
  min : ℚ := 0
  value : ℚ := 0

def PowerStatus.update (_ : PowerStatus) (data : PbData) : PowerStatus :=
  ⟨pbTenths data[0] data[1], pbTenths data[2] data[3], pbTenths data[4] data[5]⟩

structure BatteryInfomation where
  voltage : ℚ := 0
  power : ℚ := 0
  current : ℚ := 0

def BatteryInfomation.update (_ : BatteryInfomation) (data : PbData) : BatteryInfomation :=
  ⟨pbTenths data[0] data[1], pbTenths data[2] data[3], pbTenths data[4] data[5]⟩

def bigEndian (a b c d : UInt8) : UInt32 :=
  a.toUInt32 <<< 24 ||| b.toUInt32 <<< 16 ||| c.toUInt32 <<< 8 ||| d.toUInt32

structure PowerVersionInfo where
  hardwareVersion : UInt32 := 0
  softwareVersion : UInt32 := 0

/-- The cast to `uint16_t` leaves nothing of the hardware version. -/
def PowerVersionInfo.update (_ : PowerVersionInfo) (data : PbData) : PowerVersionInfo where
  softwareVersion := bigEndian data[0] data[1] data[2] data[3]
  hardwareVersion := (data[4].toUInt32 <<< 24 ||| data[5].toUInt32 <<< 16).toUInt16.toUInt32

structure PowerBoardStatus where
  workTime : UInt32 := 0
  isEstop : Bool := false
  isRemoteEstop : Bool := false
  isPowerOn : Bool := false
  isUpdate : Bool := false

def PowerBoardStatus.update (s : PowerBoardStatus) (data : PbData) : PowerBoardStatus :=
  let isEstop := data[4] &&& 0x01 != 0
  let isRemoteEstop := data[4] &&& 0x02 != 0
  let isPowerOn := data[4] &&& 0x04 != 0
  { workTime := bigEndian data[0] data[1] data[2] data[3]
    isEstop, isRemoteEstop, isPowerOn
    isUpdate := s.isUpdate || isEstop != s.isEstop || isRemoteEstop != s.isRemoteEstop ||
      isPowerOn != s.isPowerOn }

def PowerBoardStatus.clearStatue (s : PowerBoardStatus) : PowerBoardStatus :=
  { s with isUpdate := false }

/-- The class of the object behind an instruction. -/
abbrev CanData : PbIns → Type
  | .getBatteryInfo => BatteryInfomation
  | .getVersionInfo => PowerVersionInfo
  | .getPowerBoardStatus => PowerBoardStatus
  | _ => PowerStatus

def CanData.init : (ins : PbIns) → CanData ins
  | .getBatteryInfo => ({} : BatteryInfomation)
  | .getVersionInfo => ({} : PowerVersionInfo)
  | .getPowerBoardStatus => ({} : PowerBoardStatus)
  | .getWaistTemp | .getArmATemp | .getArmBTemp | .getLegATemp | .getLegBTemp | .getArmACurr
  | .getArmBCurr | .getLegACurr | .getLegBCurr | .getWaistCurr | .getHeadCurr =>
    ({} : PowerStatus)

def CanData.update : (ins : PbIns) → CanData ins → PbData → CanData ins
  | .getBatteryInfo => BatteryInfomation.update
  | .getVersionInfo => PowerVersionInfo.update
  | .getPowerBoardStatus => PowerBoardStatus.update
  | .getWaistTemp | .getArmATemp | .getArmBTemp | .getLegATemp | .getLegBTemp | .getArmACurr
  | .getArmBCurr | .getLegACurr | .getLegBCurr | .getWaistCurr | .getHeadCurr =>
    PowerStatus.update

-- ---------------------------------------------------------------------------
-- The manager
-- ---------------------------------------------------------------------------

structure PowerMgr where
  reqId : UInt8
  readyBits : BitVec 14
  cmds : (ins : PbIns) → CanData ins

/-- What a run shows of the board: what it sends, which objects it updates, the
manager after each change and each time it hands it to `funcOnStatus`. -/
inductive PowerEvent
  | sent (msg : DeviceMessage)
  | updated (ins : PbIns)
  | cleared
  | manager (mgr : PowerMgr)
  | status (mgr : PowerMgr)

namespace PowerMgr

def create : PowerMgr := ⟨0, 0, CanData.init⟩

def updateReqId (m : PowerMgr) (id : UInt8) : PowerMgr := { m with reqId := id }

def Outstanding (m : PowerMgr) (ins : UInt8) : Prop := ins = m.reqId &&& 0x0F

instance (m : PowerMgr) (ins : UInt8) : Decidable (m.Outstanding ins) :=
  inferInstanceAs (Decidable (_ = _))

def setReady (m : PowerMgr) (ins : UInt8) : PowerMgr :=
  if ins ≤ 14 then { m with readyBits := m.readyBits ||| BitVec.twoPow 14 (ins - 1).toNat } else m

/-- A package that changes nothing: it is empty, or is not awaited and has no bit
or has it up. -/
def Drops (m : PowerMgr) (data : Vector UInt8 8) : Prop :=
  data[0] = 0 ∨ ¬ m.Outstanding data[0] ∧
    (data[0] > 14 ∨ m.readyBits.getLsbD (data[0] - 1).toNat = true)

def nextReqId (ins : UInt8) : UInt8 := if ins + 1 > 0x0E then 0 else (ins + 1) ||| 0x80

def parseCanPackage (m : PowerMgr) (data : Vector UInt8 8) : PowerMgr × List PowerEvent :=
  let ins := data[0]
  if ins = 0 then (m, [])
  else
    let m := m.setReady ins
    if ¬ m.Outstanding ins then (m, [])
    else
      match PbIns.ofByte? ins with
      | none => (m, [])
      | some item =>
        ({ m with
            cmds := Function.update m.cmds item (CanData.update item (m.cmds item) (pbData data))
            reqId := nextReqId ins },
          [.updated item])

/-- `readyBits.count()` -/
def count (bits : BitVec 14) : Nat := (List.finRange 14).countP fun i => bits.getLsbD i

def IsReady (m : PowerMgr) : Prop :=
  count m.readyBits = 14 ∨ (m.cmds .getPowerBoardStatus).isUpdate = true

instance (m : PowerMgr) : Decidable m.IsReady := inferInstanceAs (Decidable (_ ∨ _))

def clearReady (m : PowerMgr) : PowerMgr :=
  { m with
    readyBits := 0
    cmds := Function.update m.cmds .getPowerBoardStatus
      (PowerBoardStatus.clearStatue (m.cmds .getPowerBoardStatus)) }

end PowerMgr

-- ---------------------------------------------------------------------------
-- The device
-- ---------------------------------------------------------------------------

/-- Times are nanoseconds since the epoch. -/
structure PowerBoardDevice where
  id : UInt16
  mgr : PowerMgr
  isBeeping : Bool
  lastRequestTime : Int
  lastBeepTime : Int
  lastReqId : UInt8
  lastReqTime : Int
  ready : Bool

inductive PowerCall
  | onRequest (now : Int) (msg : DeviceMessage)
  | onResponse (msg : DeviceMessage)
  | enableBeep
  | disableBeep

namespace PowerBoardDevice

/-- The constructor leaves `last_req_id_` uninitialised. -/
def create (id : UInt16) (garbage : UInt8) : PowerBoardDevice :=
  ⟨id, .create, false, 0, 0, garbage, 0, false⟩

/-- A poll starts every second. -/
def restart (d : PowerBoardDevice) (now : Int) : PowerBoardDevice :=
  if now - d.lastRequestTime ≥ 1000000000 then
    { d with lastRequestTime := now, mgr := d.mgr.updateReqId (0x80 ||| PbIns.getWaistTemp.value) }
  else d

/-- The outstanding request goes out when it is new and every 10 ms. -/
def request (d : PowerBoardDevice) (now : Int) : PowerBoardDevice × UInt8 :=
  if d.lastReqId ≠ d.mgr.reqId ∨ now - d.lastReqTime ≥ 10000000 then
    ({ d with
        lastReqId := d.mgr.reqId
        lastReqTime := if d.mgr.reqId ≠ 0 then now else d.lastReqTime }, d.mgr.reqId)
  else (d, 0)

def beep (d : PowerBoardDevice) (now : Int) (ins : UInt8) : PowerBoardDevice × UInt8 :=
  if ins = 0 ∧ d.isBeeping ∧ now - d.lastBeepTime ≥ 100000000 then
    ({ d with lastBeepTime := now }, 0x8F)
  else (d, ins)

def onRequest (d : PowerBoardDevice) (now : Int) (msg : DeviceMessage) :
    PowerBoardDevice × DeviceMessage :=
  let d := d.restart now
  let (d, ins) := d.request now
  let (d, ins) := d.beep now ins
  (d, { id := d.id.toUInt32, rtr := 0, dlc := if ins ≠ 0 then 1 else 0,
        data := Cells.put msg.data 0 ins })

def onResponse (d : PowerBoardDevice) (msg : DeviceMessage) :
    PowerBoardDevice × List PowerEvent :=
  if msg.id ≠ 0 then
    let (mgr, updated) := d.mgr.parseCanPackage msg.data
    if mgr.IsReady then
      ({ d with mgr := mgr.clearReady, ready := true },
        updated ++ [.manager mgr, .status mgr, .cleared, .manager mgr.clearReady])
    else ({ d with mgr }, updated ++ [.manager mgr])
  else (d, [])

def step : Mealy.Step PowerBoardDevice PowerCall PowerEvent := fun d call =>
  match call with
  | .onRequest now msg =>
    ((d.onRequest now msg).1, [.sent (d.onRequest now msg).2, .manager (d.onRequest now msg).1.mgr])
  | .onResponse msg => d.onResponse msg
  | .enableBeep => ({ d with isBeeping := true }, [])
  | .disableBeep => ({ d with isBeeping := false }, [])

end PowerBoardDevice

-- ---------------------------------------------------------------------------
-- Packages
-- ---------------------------------------------------------------------------

namespace PbIns

variable {item item' : PbIns} {ins : UInt8}

/-- The position of an instruction in `readyBits`. -/
def bit (item : PbIns) : Nat := (item.value - 1).toNat

theorem bit_lt (item : PbIns) : item.bit < 14 := by cases item <;> decide

theorem toNat_value (item : PbIns) : item.value.toNat = item.bit + 1 := by cases item <;> rfl

theorem ofByte?_value (item : PbIns) : ofByte? item.value = some item := by cases item <;> rfl

theorem bit_injective (h : item.bit = item'.bit) : item = item' := by
  have hvalue : item.value = item'.value := by
    apply UInt8.toNat_inj.mp
    rw [toNat_value, toNat_value, h]
  exact Option.some.inj (by rw [← ofByte?_value item, hvalue, ofByte?_value])

theorem value_of_ofByte? (h : ofByte? ins = some item) : item.value = ins := by
  simpa using List.find?_some h

theorem range_of_ofByte?_none (h : ofByte? ins = none) : ins = 0 ∨ 14 < ins := by
  have hne : ∀ item ∈ all, item.value ≠ ins := by simpa [ofByte?] using h
  simp only [all, List.forall_mem_cons, value] at hne
  grind

end PbIns

namespace PowerMgr

variable {m : PowerMgr} {item : PbIns}

theorem getLsbD_setReady (item' : PbIns) :
    (m.setReady item.value).readyBits.getLsbD item'.bit = true ↔
      m.readyBits.getLsbD item'.bit = true ∨ item = item' := by
  have hle : item.value ≤ 14 := by
    rw [UInt8.le_iff_toNat_le, item.toNat_value]
    exact item.bit_lt
  rw [setReady, if_pos hle]
  simp only [BitVec.getLsbD_or, BitVec.getLsbD_twoPow, Bool.or_eq_true, Bool.and_eq_true,
    decide_eq_true_eq]
  refine or_congr_right ⟨fun h => PbIns.bit_injective h.2, ?_⟩
  rintro rfl
  exact ⟨item.bit_lt, rfl⟩

/-- What a package does: nothing, or it raises the bit of its item, which it
updates if it is the answer that is outstanding. -/
theorem parseCanPackage_cases (m : PowerMgr) (data : Vector UInt8 8) :
    ((∀ item : PbIns, data[0] ≠ item.value) ∧
      (m.parseCanPackage data).1.readyBits = m.readyBits ∧ (m.parseCanPackage data).2 = []) ∨
    ∃ item : PbIns, data[0] = item.value ∧
      (m.parseCanPackage data).1.readyBits = (m.setReady item.value).readyBits ∧
      (m.parseCanPackage data).2 =
        if m.Outstanding item.value then [.updated item] else [] := by
  cases hitem : PbIns.ofByte? data[0] with
  | none =>
    refine .inl ⟨fun item he => ?_, ?_⟩
    · rw [he, PbIns.ofByte?_value] at hitem
      cases hitem
    · rcases PbIns.range_of_ofByte?_none hitem with h0 | hgt
      · simp [parseCanPackage, h0]
      · have hset : m.setReady data[0] = m := if_neg (UInt8.not_le.mpr hgt)
        have hne : data[0] ≠ 0 := by
          intro h0
          rw [h0] at hgt
          exact absurd hgt (by decide)
        simp only [parseCanPackage, if_neg hne, hset, hitem]
        split_ifs <;> exact ⟨rfl, rfl⟩
  | some item =>
    have hdata := PbIns.value_of_ofByte? hitem
    have hne : item.value ≠ 0 := by cases item <;> decide
    have hout : (m.setReady item.value).Outstanding item.value ↔ m.Outstanding item.value := by
      rw [setReady]
      split_ifs <;> rfl
    refine .inr ⟨item, hdata.symm, ?_⟩
    rw [← hdata] at hitem
    simp only [parseCanPackage, ← hdata, if_neg hne, hitem, hout]
    by_cases h : m.Outstanding item.value <;> simp [h]

theorem getLsbD_of_count {bits : BitVec 14} (h : count bits = 14) (item : PbIns) :
    bits.getLsbD item.bit = true := by
  have hlength : count bits = (List.finRange 14).length := h.trans List.length_finRange.symm
  have hall : ∀ i ∈ List.finRange 14, bits.getLsbD i = true := List.countP_eq_length.mp hlength
  exact hall ⟨item.bit, item.bit_lt⟩ (List.mem_finRange _)

end PowerMgr

-- ---------------------------------------------------------------------------
-- What a bit should say
-- ---------------------------------------------------------------------------

/-- Bits that are up belong to items updated since the last `ClearReady`. -/
def Refreshed (past : List PowerEvent) (bits : BitVec 14) : Prop :=
  ∀ item : PbIns, bits.getLsbD item.bit = true → Since (.updated item) .cleared past

/-- In every state the bits tell the truth, and what is published because all of
them are up has been updated since the last time. -/
def Accurate (past : List PowerEvent) : PowerEvent → Prop
  | .manager m => Refreshed past m.readyBits
  | .status m => PowerMgr.count m.readyBits = 14 →
    ∀ item : PbIns, Since (.updated item) .cleared past
  | _ => True

/-- A package of the board is the answer that is outstanding, or its item has
been updated since the last `ClearReady`. -/
def Accounted : PowerBoardDevice × List PowerEvent → PowerCall → Prop
  | (d, past), .onResponse msg => msg.id ≠ 0 → ∀ item : PbIns, msg.data[0] = item.value →
    d.mgr.Outstanding item.value ∨ Since (.updated item) .cleared past
  | _, _ => True

section
variable {past : List PowerEvent} {m : PowerMgr} {d : PowerBoardDevice}

theorem Refreshed.concat {bits : BitVec 14} (h : Refreshed past bits) (hne : e ≠ .cleared) :
    Refreshed (past ++ [e]) bits :=
  fun item hbit => (h item hbit).concat hne

theorem refreshed_zero (past : List PowerEvent) : Refreshed past 0 := by
  intro item hbit
  simp at hbit

theorem throughout_parse (past : List PowerEvent) (m : PowerMgr) (data : Vector UInt8 8) :
    Throughout Accurate past (m.parseCanPackage data).2 := by
  rcases m.parseCanPackage_cases data with ⟨-, -, hout⟩ | ⟨item, -, -, hout⟩
  · simp [hout]
  · rw [hout]
    split_ifs <;> simp [Accurate]

theorem refreshed_parse_iff (h : Refreshed past m.readyBits) (data : Vector UInt8 8) :
    Refreshed (past ++ (m.parseCanPackage data).2) (m.parseCanPackage data).1.readyBits ↔
      ∀ item : PbIns, data[0] = item.value →
        m.Outstanding item.value ∨ Since (.updated item) .cleared past := by
  rcases m.parseCanPackage_cases data with ⟨hnone, hbits, hout⟩ | ⟨item, hdata, hbits, hout⟩
  · rw [hbits, hout, List.append_nil]
    exact ⟨fun _ item hitem => absurd hitem (hnone item), fun _ => h⟩
  · rw [hbits, hout]
    by_cases hans : m.Outstanding item.value
    · rw [if_pos hans]
      constructor
      · intro _ item' hitem
        rw [← hitem, hdata]
        exact .inl hans
      · intro _ item' hbit
        rcases (PowerMgr.getLsbD_setReady item').mp hbit with hold | rfl
        · exact (h item' hold).concat (by simp)
        · exact Past.since_concat.mpr (.inl rfl)
    · rw [if_neg hans, List.append_nil]
      constructor
      · intro hset item' hitem
        have hbit : (m.setReady item'.value).readyBits.getLsbD item'.bit = true :=
          (PowerMgr.getLsbD_setReady item').mpr (.inr rfl)
        rw [← hitem, hdata] at hbit
        exact .inr (hset item' hbit)
      · intro hacc item' hbit
        rcases (PowerMgr.getLsbD_setReady item').mp hbit with hold | rfl
        · exact h item' hold
        · exact (hacc item hdata).resolve_left hans

theorem throughout_onResponse_iff (h : Refreshed past d.mgr.readyBits) (msg : DeviceMessage) :
    Throughout Accurate past (d.onResponse msg).2 ↔ Accounted (d, past) (.onResponse msg) := by
  by_cases hid : msg.id = 0
  · simp [PowerBoardDevice.onResponse, Accounted, hid]
  have hparse := throughout_parse past d.mgr msg.data
  rw [Accounted, ← refreshed_parse_iff h msg.data]
  simp only [PowerBoardDevice.onResponse, ne_eq, hid, not_false_eq_true, if_true, forall_const]
  split_ifs
  · simp only [Past.throughout_append, Past.throughout_cons, Past.throughout_nil, and_true,
      hparse, true_and]
    refine ⟨fun hall => hall.1, fun hset => ⟨hset, fun hcount item => ?_, trivial, ?_⟩⟩
    · exact (hset item (PowerMgr.getLsbD_of_count hcount item)).concat (by simp)
    · exact refreshed_zero _
  · simp only [Past.throughout_append, Past.throughout_cons, Past.throughout_nil, and_true,
      hparse, true_and]
    rfl

theorem refreshed_onResponse (h : Refreshed past d.mgr.readyBits) (msg : DeviceMessage)
    (hacc : Accounted (d, past) (.onResponse msg)) :
    Refreshed (past ++ (d.onResponse msg).2) (d.onResponse msg).1.mgr.readyBits := by
  by_cases hid : msg.id = 0
  · simpa [PowerBoardDevice.onResponse, hid] using h
  have hset := (refreshed_parse_iff h msg.data).mpr (hacc hid)
  simp only [PowerBoardDevice.onResponse, ne_eq, hid, not_false_eq_true, if_true]
  split_ifs
  · exact refreshed_zero _
  · rw [← List.append_assoc]
    exact hset.concat (by simp)

@[simp] theorem readyBits_onRequest (now : Int) (msg : DeviceMessage) :
    (d.onRequest now msg).1.mgr.readyBits = d.mgr.readyBits := by
  simp only [PowerBoardDevice.onRequest, PowerBoardDevice.restart, PowerBoardDevice.request,
    PowerBoardDevice.beep]
  split_ifs <;> rfl

end

/-- The bits tell the truth in the runs whose packages are all accounted for. -/
theorem powerBoard_accurate_iff (id : UInt16) (garbage : UInt8) (calls : List PowerCall) :
    Throughout Accurate [] (Mealy.emitted PowerBoardDevice.step (.create id garbage) calls) ↔
      Mealy.Along (Past.recorded PowerBoardDevice.step) Accounted
        (.create id garbage, []) calls := by
  refine Past.throughout_iff_along (P := fun d past => Refreshed past d.mgr.readyBits)
    (refreshed_zero []) (fun d past call h => ?_) (fun d past call h hacc => ?_)
  · cases call with
    | onRequest now msg =>
      have hkept := h.concat (e := .sent (d.onRequest now msg).2) (by simp)
      simpa [PowerBoardDevice.step, Accounted, Accurate] using hkept
    | onResponse msg => exact throughout_onResponse_iff h msg
    | enableBeep => simp [PowerBoardDevice.step, Accounted]
    | disableBeep => simp [PowerBoardDevice.step, Accounted]
  · cases call with
    | onRequest now msg =>
      have hkept := (h.concat (e := .sent (d.onRequest now msg).2) (by simp)).concat
        (e := .manager (d.onRequest now msg).1.mgr) (by simp)
      simpa [PowerBoardDevice.step] using hkept
    | onResponse msg => exact refreshed_onResponse h msg hacc
    | enableBeep => simpa [PowerBoardDevice.step] using h
    | disableBeep => simpa [PowerBoardDevice.step] using h

/-- The poll has begun with the first instruction, and the package of the second comes: its bit goes
up, its value stays what it was. -/
theorem powerBoard_unsolicited : ¬ ∀ (id : UInt16) (garbage : UInt8) (calls : List PowerCall),
    Throughout Accurate []
      (Mealy.emitted PowerBoardDevice.step (.create id garbage) calls) := by
  intro h
  let polling := (PowerBoardDevice.create 0x1F 0).onRequest 1000000000 .zero
  have hrun := h 0x1F 0 [.onRequest 1000000000 .zero,
    .onResponse ⟨0x1F, 0, 7, #v[2, 0, 0, 0, 0, 0, 0, 0]⟩]
  rw [Mealy.emitted_cons, Mealy.emitted_cons, Mealy.emitted_nil, List.append_nil] at hrun
  have hacc : Accounted (polling.1, [.sent polling.2, .manager polling.1.mgr]) _ :=
    (throughout_onResponse_iff (refreshed_zero _) _).mp (Past.throughout_append.mp hrun).2
  rcases hacc (by decide) .getArmATemp rfl with hout | ⟨before, after, heq, -⟩
  · exact absurd hout (by decide)
  · have hmem : PowerEvent.updated .getArmATemp ∈
        [PowerEvent.sent polling.2, .manager polling.1.mgr] := by
      rw [heq]
      exact List.mem_append_right _ List.mem_cons_self
    simp at hmem

end TienKung
