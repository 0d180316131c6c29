import TienKung.Devices.PowerBoard

/-!
# When the power board is asked, and when it beeps

`OnRequest` writes one byte: the request, when it is new or 10 ms old, and
otherwise a beep, 100 ms after the last one. What it remembers of earlier calls
is the request id that the last call saw, and when the last request and the last
beep went out.
-/

namespace TienKung

open Past (Latest Throughout)

-- ---------------------------------------------------------------------------
-- OnRequest
-- ---------------------------------------------------------------------------

namespace PowerBoardDevice

/-- `OnRequest`, write by write. -/
def writeRequest (d : PowerBoardDevice) (now : Int) (msg : DeviceMessage) :
    PowerBoardDevice × DeviceMessage :=
  let msg := { msg with id := d.id.toUInt32, rtr := 0, dlc := 0, data := Cells.put msg.data 0 0 }
  let d := d.restart now
  let reqId := d.mgr.reqId
  let (d, msg) :=
    if d.lastReqId ≠ reqId ∨ now - d.lastReqTime ≥ 10000000 then
      let d := { d with lastReqId := reqId }
      let msg := { msg with data := Cells.put msg.data 0 reqId }
      if msg.data.get 0 ≠ 0 then ({ d with lastReqTime := now }, { msg with dlc := 1 })
      else (d, msg)
    else (d, msg)
  if msg.data.get 0 = 0 then
    if d.isBeeping ∧ now - d.lastBeepTime ≥ 100000000 then
      ({ d with lastBeepTime := now }, { msg with data := Cells.put msg.data 0 0x8F, dlc := 1 })
    else (d, msg)
  else (d, msg)

def Due (d : PowerBoardDevice) (now : Int) : Prop :=
  d.mgr.reqId ≠ 0 ∧ (d.lastReqId ≠ d.mgr.reqId ∨ now - d.lastReqTime ≥ 10000000)

instance (d : PowerBoardDevice) (now : Int) : Decidable (d.Due now) :=
  inferInstanceAs (Decidable (_ ∧ _))

end PowerBoardDevice

-- ---------------------------------------------------------------------------
-- One call
-- ---------------------------------------------------------------------------

section
variable {d : PowerBoardDevice}

open PowerBoardDevice (restart request beep)

@[simp] theorem isBeeping_restart (now : Int) : (d.restart now).isBeeping = d.isBeeping := by
  rw [restart]
  split_ifs <;> rfl

@[simp] theorem lastReqId_restart (now : Int) : (d.restart now).lastReqId = d.lastReqId := by
  rw [restart]
  split_ifs <;> rfl

@[simp] theorem lastReqTime_restart (now : Int) : (d.restart now).lastReqTime = d.lastReqTime := by
  rw [restart]
  split_ifs <;> rfl

@[simp] theorem lastBeepTime_restart (now : Int) :
    (d.restart now).lastBeepTime = d.lastBeepTime := by
  rw [restart]
  split_ifs <;> rfl

theorem writeRequest_eq (d : PowerBoardDevice) (now : Int) (msg : DeviceMessage) :
    d.writeRequest now msg = d.onRequest now msg := by
  have hid : d.id = (d.restart now).id := by
    rw [restart]
    split_ifs <;> rfl
  simp only [PowerBoardDevice.writeRequest, PowerBoardDevice.onRequest, hid]
  generalize d.restart now = r
  rw [request]
  by_cases hsend : r.lastReqId ≠ r.mgr.reqId ∨ now - r.lastReqTime ≥ 10000000
  · rw [if_pos hsend, if_pos hsend]
    by_cases hzero : r.mgr.reqId = 0
    · by_cases hbeep : r.isBeeping = true ∧ now - r.lastBeepTime ≥ 100000000 <;>
        simp [beep, hzero, hbeep]
    · simp [beep, hzero]
  · rw [if_neg hsend, if_neg hsend]
    by_cases hbeep : r.isBeeping = true ∧ now - r.lastBeepTime ≥ 100000000 <;> simp [beep, hbeep]

theorem request_eq (d : PowerBoardDevice) (now : Int) :
    d.request now = if d.Due now
      then ({ d with lastReqId := d.mgr.reqId, lastReqTime := now }, d.mgr.reqId)
      else ({ d with lastReqId := d.mgr.reqId }, 0) := by
  rw [request]
  by_cases hsend : d.lastReqId ≠ d.mgr.reqId ∨ now - d.lastReqTime ≥ 10000000
  · by_cases hzero : d.mgr.reqId = 0
    · rw [if_pos hsend, if_neg fun hdue : d.Due now => hdue.1 hzero, hzero]
      rfl
    · have hdue : d.Due now := ⟨hzero, hsend⟩
      rw [if_pos hsend, if_pos hzero, if_pos hdue]
  · have hsame : d.lastReqId = d.mgr.reqId := not_not.mp fun hne => hsend (.inl hne)
    rw [if_neg hsend, if_neg fun hdue : d.Due now => hsend hdue.2, ← hsame]

/-- What a call of `OnRequest` writes: the request that is due, a beep, or nothing. -/
inductive RequestWritten (d : PowerBoardDevice) (now : Int) (d' : PowerBoardDevice) (code dlc : UInt8) :
    Prop
  | request (due : (d.restart now).Due now) (hcode : code = (d.restart now).mgr.reqId)
      (hdlc : dlc = 1) (hreq : d'.lastReqTime = now) (hbeep : d'.lastBeepTime = d.lastBeepTime)
  | beep (notDue : ¬ (d.restart now).Due now) (on : d.isBeeping = true)
      (gap : now - d.lastBeepTime ≥ 100000000) (hcode : code = 0x8F) (hdlc : dlc = 1)
      (hreq : d'.lastReqTime = d.lastReqTime) (hbeep : d'.lastBeepTime = now)
  | nothing (notDue : ¬ (d.restart now).Due now) (hcode : code = 0) (hdlc : dlc = 0)
      (hreq : d'.lastReqTime = d.lastReqTime) (hbeep : d'.lastBeepTime = d.lastBeepTime)

theorem onRequest_written (d : PowerBoardDevice) (now : Int) (msg : DeviceMessage) :
    RequestWritten d now (d.onRequest now msg).1 ((d.onRequest now msg).2.data.get 0)
      (d.onRequest now msg).2.dlc := by
  have hon := isBeeping_restart (d := d) now
  have hreqTime := lastReqTime_restart (d := d) now
  have hbeepTime := lastBeepTime_restart (d := d) now
  rw [PowerBoardDevice.onRequest, request_eq]
  generalize hr : d.restart now = r at hon hreqTime hbeepTime
  by_cases hdue : r.Due now
  · rw [if_pos hdue]
    have hbeep : ¬ (r.mgr.reqId = 0 ∧ r.isBeeping = true ∧ now - r.lastBeepTime ≥ 100000000) :=
      fun h => hdue.1 h.1
    simp only [beep, if_neg hbeep, Cells.get_put_self, if_pos hdue.1]
    exact .request (hr ▸ hdue) (by rw [hr]) rfl rfl hbeepTime
  · rw [if_neg hdue]
    by_cases hbeep : r.isBeeping = true ∧ now - r.lastBeepTime ≥ 100000000
    · simp only [beep, true_and, if_pos hbeep, Cells.get_put_self]
      exact .beep (hr ▸ hdue) (hon ▸ hbeep.1) (hbeepTime ▸ hbeep.2) rfl rfl hreqTime rfl
    · simp only [beep, true_and, if_neg hbeep, Cells.get_put_self]
      exact .nothing (hr ▸ hdue) rfl rfl hreqTime hbeepTime

theorem lastReqId_onRequest (d : PowerBoardDevice) (now : Int) (msg : DeviceMessage) :
    (d.onRequest now msg).1.lastReqId = (d.restart now).mgr.reqId := by
  rw [PowerBoardDevice.onRequest, request_eq]
  simp only [beep]
  split_ifs <;> rfl

theorem mgr_onRequest (d : PowerBoardDevice) (now : Int) (msg : DeviceMessage) :
    (d.onRequest now msg).1.mgr = (d.restart now).mgr := by
  rw [PowerBoardDevice.onRequest, request_eq]
  simp only [beep]
  split_ifs <;> rfl

-- ---------------------------------------------------------------------------
-- Request ids
-- ---------------------------------------------------------------------------

/-- No request, or one of the fourteen. -/
def IsReqId (id : UInt8) : Prop := id = 0 ∨ 0x81 ≤ id ∧ id ≤ 0x8E

instance (id : UInt8) : Decidable (IsReqId id) := inferInstanceAs (Decidable (_ ∨ _ ∧ _))

theorem reqId_parse (m : PowerMgr) (data : Vector UInt8 8) :
    (m.parseCanPackage data).1.reqId = ((PbIns.ofByte? (data.get 0)).elim m.reqId fun item =>
      if m.Outstanding item.value then PowerMgr.nextReqId item.value else m.reqId) := by
  have hget : data[0] = data.get 0 := rfl
  have hset : (m.setReady (data.get 0)).reqId = m.reqId := by
    rw [PowerMgr.setReady]
    split_ifs <;> rfl
  have hout : (m.setReady (data.get 0)).Outstanding (data.get 0) ↔ m.Outstanding (data.get 0) := by
    rw [PowerMgr.Outstanding, hset]
    rfl
  simp only [PowerMgr.parseCanPackage, hget, hout]
  cases hitem : PbIns.ofByte? (data.get 0) with
  | none => split_ifs <;> simp [hset]
  | some item =>
    have hvalue := PbIns.value_of_ofByte? hitem
    have hne : data.get 0 ≠ 0 := by
      rw [← hvalue]
      cases item <;> decide
    rw [if_neg hne, Option.elim_some, hvalue]
    split_ifs with h
    · rfl
    · exact hset

theorem isReqId_next (item : PbIns) : IsReqId (PowerMgr.nextReqId item.value) := by
  cases item <;> decide

theorem isReqId_restart (h : IsReqId d.mgr.reqId) (now : Int) :
    IsReqId (d.restart now).mgr.reqId := by
  have hfirst : IsReqId (0x80 ||| PbIns.getWaistTemp.value) := by decide
  rw [restart]
  split_ifs
  · exact hfirst
  · exact h

theorem reqId_onResponse (d : PowerBoardDevice) (msg : DeviceMessage) :
    (d.onResponse msg).1.mgr.reqId =
      if msg.id ≠ 0 then (d.mgr.parseCanPackage msg.data).1.reqId else d.mgr.reqId := by
  simp only [PowerBoardDevice.onResponse]
  split_ifs <;> rfl

theorem isReqId_step (h : IsReqId d.mgr.reqId) (call : PowerCall) :
    IsReqId (d.step call).1.mgr.reqId := by
  cases call with
  | onRequest now msg =>
    rw [PowerBoardDevice.step, mgr_onRequest]
    exact isReqId_restart h now
  | onResponse msg =>
    rw [PowerBoardDevice.step, reqId_onResponse, reqId_parse]
    cases PbIns.ofByte? (msg.data.get 0) with
    | none => simpa using h
    | some item =>
      simp only [Option.elim_some]
      split_ifs
      · exact isReqId_next item
      · exact h
      · exact h
  | enableBeep => exact h
  | disableBeep => exact h

end

-- ---------------------------------------------------------------------------
-- The log of the calls
-- ---------------------------------------------------------------------------

/-- A call of `OnRequest`: when it was, what it wrote, the request id and the beep
flag it saw and whether a request was due. -/
structure RequestRecord where
  now : Int
  msg : DeviceMessage
  reqId : UInt8
  isBeeping : Bool
  due : Bool

namespace RequestRecord

def code (e : RequestRecord) : UInt8 := e.msg.data.get 0

def IsBeep (e : RequestRecord) : Prop := e.code = 0x8F

def IsRequest (e : RequestRecord) : Prop := e.code ≠ 0 ∧ e.code ≠ 0x8F

end RequestRecord

def PowerBoardDevice.record (d : PowerBoardDevice) (now : Int) (msg : DeviceMessage) :
    RequestRecord where
  now := now
  msg := (d.writeRequest now msg).2
  reqId := (d.restart now).mgr.reqId
  isBeeping := d.isBeeping
  due := (d.restart now).Due now

def PowerBoardDevice.logged : Mealy.Step PowerBoardDevice PowerCall RequestRecord := fun d call =>
  ((d.step call).1, match call with
    | .onRequest now msg => [d.record now msg]
    | _ => [])

/-- A call keeps to the rules of the protocol, in view of the calls before it. -/
structure WellTimed (past : List RequestRecord) (e : RequestRecord) : Prop where
  dlc : e.msg.dlc = 1 ∧ e.code ≠ 0 ∨ e.msg.dlc = 0 ∧ e.code = 0
  code : e.code = 0 ∨ e.code = e.reqId ∨ e.code = 0x8F
  reqId : IsReqId e.reqId
  beep : e.IsBeep → e.isBeeping = true ∧ e.due = false ∧
    ∀ b after, Latest RequestRecord.IsBeep b after past → e.now - b.now ≥ 100000000
  repeated : e.IsRequest → ∀ r after, Latest RequestRecord.IsRequest r after past →
    r.code = e.code → e.now - r.now < 10000000 → ∃ between ∈ after, between.reqId ≠ e.reqId

/-- What the device remembers of the calls before. -/
structure Remembers (d : PowerBoardDevice) (past : List RequestRecord) : Prop where
  reqId : IsReqId d.mgr.reqId
  seen : ∀ e ∈ past.getLast?, d.lastReqId = e.reqId
  beep : ∀ b after, Latest RequestRecord.IsBeep b after past → d.lastBeepTime = b.now
  request : ∀ r after, Latest RequestRecord.IsRequest r after past →
    d.lastReqTime = r.now ∧ r.code = r.reqId

section
variable {d : PowerBoardDevice} {past : List RequestRecord}

theorem isReqId_ne_beep {id : UInt8} (h : IsReqId id) : id ≠ 0x8F := by
  rintro rfl
  exact absurd h (by decide)

theorem exists_other {r : RequestRecord} {after : List RequestRecord} {id : UInt8}
    (hlatest : Latest RequestRecord.IsRequest r after past) (hr : r.reqId = id)
    (hlast : ∀ e ∈ past.getLast?, e.reqId ≠ id) : ∃ between ∈ after, between.reqId ≠ id := by
  obtain ⟨before, rfl⟩ := hlatest.split
  cases hafter : after.getLast? with
  | none =>
    rw [List.getLast?_eq_none_iff.mp hafter] at hlast
    exact absurd hr (hlast r (by simp))
  | some last =>
    refine ⟨last, List.mem_of_getLast? hafter, hlast last ?_⟩
    rw [List.getLast?_append_cons, List.getLast?_cons, hafter]
    rfl

theorem record_written (d : PowerBoardDevice) (now : Int) (msg : DeviceMessage) :
    RequestWritten d now (d.onRequest now msg).1 (d.record now msg).code (d.record now msg).msg.dlc := by
  have h := onRequest_written d now msg
  rwa [← writeRequest_eq] at h ⊢

theorem Remembers.wellTimed (h : Remembers d past) (now : Int) (msg : DeviceMessage) :
    WellTimed past (d.record now msg) := by
  have hreq : IsReqId (d.record now msg).reqId := isReqId_restart h.reqId now
  cases record_written d now msg with
  | request hdue hcode hdlc _ _ =>
    have hbeep : (d.record now msg).code ≠ 0x8F := hcode ▸ isReqId_ne_beep hreq
    refine ⟨.inl ⟨hdlc, hcode ▸ hdue.1⟩, .inr (.inl hcode), hreq, fun hb => absurd hb hbeep, ?_⟩
    intro _ r after hlatest hsame hsoon
    obtain ⟨htime, hr⟩ := h.request r after hlatest
    -- the request was due because its id is not the last one seen
    have hnew : d.lastReqId ≠ (d.record now msg).reqId := by
      rcases hdue.2 with hne | hold
      · rwa [lastReqId_restart] at hne
      · rw [lastReqTime_restart, htime] at hold
        exact absurd hold (not_le.mpr hsoon)
    refine exists_other hlatest (hr.symm.trans (hsame.trans hcode)) fun e he => ?_
    rw [← h.seen e he]
    exact hnew
  | beep hdue hon hgap hcode hdlc _ _ =>
    refine ⟨.inl ⟨hdlc, by rw [hcode]; decide⟩, .inr (.inr hcode), hreq, fun _ => ?_, ?_⟩
    · refine ⟨hon, decide_eq_false hdue, fun b after hlatest => ?_⟩
      rw [← h.beep b after hlatest]
      exact hgap
    · exact fun hr => absurd hcode hr.2
  | nothing hdue hcode hdlc _ _ =>
    refine ⟨.inr ⟨hdlc, hcode⟩, .inl hcode, hreq, fun hb => ?_, fun hr => absurd hcode hr.1⟩
    exact absurd (hcode.symm.trans hb) (by decide)

theorem Remembers.concat (h : Remembers d past) (now : Int) (msg : DeviceMessage) :
    Remembers (d.onRequest now msg).1 (past ++ [d.record now msg]) := by
  have hreq : IsReqId (d.record now msg).reqId := isReqId_restart h.reqId now
  refine ⟨by rwa [mgr_onRequest], fun e he => ?_, fun b after hlatest => ?_,
    fun r after hlatest => ?_⟩
  · rw [List.getLast?_concat] at he
    rw [lastReqId_onRequest, ← Option.some.inj he]
    rfl
  · rcases Past.latest_concat.mp hlatest with ⟨hb, rfl, -⟩ | ⟨hnot, rest, -, hlatest⟩
    · cases record_written d now msg with
      | request hdue hcode _ _ _ => exact absurd (hcode.symm.trans hb) (isReqId_ne_beep hreq)
      | beep _ _ _ _ _ _ hbeep => exact hbeep
      | nothing _ hcode _ _ _ => exact absurd (hcode.symm.trans hb) (by decide)
    · rw [← h.beep b rest hlatest]
      cases record_written d now msg with
      | request _ _ _ _ hbeep => exact hbeep
      | beep _ _ _ hcode _ _ _ => exact absurd hcode hnot
      | nothing _ _ _ _ hbeep => exact hbeep
  · rcases Past.latest_concat.mp hlatest with ⟨hr, rfl, -⟩ | ⟨hnot, rest, -, hlatest⟩
    · cases record_written d now msg with
      | request _ hcode _ htime _ => exact ⟨htime, hcode⟩
      | beep _ _ _ hcode _ _ _ => exact absurd hcode hr.2
      | nothing _ hcode _ _ _ => exact absurd hcode hr.1
    · obtain ⟨htime, hcode⟩ := h.request r rest hlatest
      refine ⟨?_, hcode⟩
      rw [← htime]
      cases record_written d now msg with
      | request hdue hcode _ _ _ =>
        exact absurd ⟨hcode ▸ hdue.1, hcode ▸ isReqId_ne_beep hreq⟩ hnot
      | beep _ _ _ _ _ htime _ => exact htime
      | nothing _ _ _ htime _ => exact htime

theorem Remembers.of_same {d' : PowerBoardDevice} (h : Remembers d past)
    (hreq : IsReqId d'.mgr.reqId) (hseen : d'.lastReqId = d.lastReqId)
    (hbeep : d'.lastBeepTime = d.lastBeepTime) (htime : d'.lastReqTime = d.lastReqTime) :
    Remembers d' past where
  reqId := hreq
  seen e he := hseen.trans (h.seen e he)
  beep b after hlatest := hbeep.trans (h.beep b after hlatest)
  request r after hlatest := (h.request r after hlatest).imp_left htime.trans

theorem Remembers.logged (h : Remembers d past) (call : PowerCall) :
    Throughout WellTimed past (d.logged call).2 ∧
      Remembers (d.logged call).1 (past ++ (d.logged call).2) := by
  cases call with
  | onRequest now msg => exact ⟨⟨h.wellTimed now msg, trivial⟩, h.concat now msg⟩
  | onResponse msg =>
    refine ⟨trivial, ?_⟩
    simp only [PowerBoardDevice.logged, List.append_nil]
    refine h.of_same (isReqId_step h.reqId (.onResponse msg)) ?_ ?_ ?_ <;>
      simp only [PowerBoardDevice.step, PowerBoardDevice.onResponse] <;> split_ifs <;> rfl
  | enableBeep =>
    simp only [PowerBoardDevice.logged, List.append_nil]
    exact ⟨trivial, h.of_same h.reqId rfl rfl rfl⟩
  | disableBeep =>
    simp only [PowerBoardDevice.logged, List.append_nil]
    exact ⟨trivial, h.of_same h.reqId rfl rfl rfl⟩

theorem remembers_create (id : UInt16) (garbage : UInt8) :
    Remembers (.create id garbage) [] where
  reqId := .inl rfl
  seen _ he := nomatch he
  beep _ _ hlatest := absurd hlatest Past.not_latest_nil
  request _ _ hlatest := absurd hlatest Past.not_latest_nil

end

/-- Every call of `OnRequest` keeps to the rules, whatever the clock shows, the
board answers and `last_req_id_` holds at first. -/
theorem powerBoard_wellTimed (id : UInt16) (garbage : UInt8) (calls : List PowerCall) :
    Throughout WellTimed [] (Mealy.emitted PowerBoardDevice.logged (.create id garbage) calls) ∧
      IsReqId (Mealy.final PowerBoardDevice.step (.create id garbage) calls).mgr.reqId := by
  constructor
  · exact Past.throughout_of_invariant (P := Remembers) (remembers_create id garbage)
      fun d past call h => h.logged call
  · exact Mealy.final_invariant (P := fun d : PowerBoardDevice => IsReqId d.mgr.reqId) (.inl rfl)
      fun d call h => isReqId_step h call

end TienKung
