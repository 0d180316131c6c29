import TienKung.Devices.PowerTiming
import Mathlib.Data.List.Infix

/-!
# How far a poll gets

A poll is a list of items. The first one is asked for until the board answers
it; then comes the next. Every second the poll starts again from the beginning,
however far it got.
-/

namespace TienKung

-- ---------------------------------------------------------------------------
-- A poll
-- ---------------------------------------------------------------------------

abbrev Poll := List PbIns

namespace Poll

def reqId : Poll → UInt8
  | [] => 0
  | item :: _ => 0x80 ||| item.value

def onResponse (poll : Poll) (msg : DeviceMessage) : Poll :=
  match poll with
  | [] => []
  | item :: rest => if msg.id ≠ 0 ∧ msg.data.get 0 = item.value then rest else poll

def step (poll : Poll) : PowerCall → Poll
  | .onResponse msg => poll.onResponse msg
  | _ => poll

/-- `OnRequest` is called at a time when only the status is left to be answered. -/
def Reaches (poll : Poll) (calls : List PowerCall) : Prop :=
  ∃ before now msg after, calls = before ++ .onRequest now msg :: after ∧
    before.foldl step poll = [.getPowerBoardStatus]

end Poll

/-- `OnRequest` would start the poll again. -/
def PowerBoardDevice.Restarts (d : PowerBoardDevice) (now : Int) : Prop :=
  now - d.lastRequestTime ≥ 1000000000

instance (d : PowerBoardDevice) (now : Int) : Decidable (d.Restarts now) :=
  inferInstanceAs (Decidable (_ ≥ _))

def PowerBoardDevice.KeepsPoll (d : PowerBoardDevice) : PowerCall → Prop
  | .onRequest now _ => ¬ d.Restarts now
  | _ => True

instance (d : PowerBoardDevice) : (call : PowerCall) → Decidable (d.KeepsPoll call)
  | .onRequest now _ => inferInstanceAs (Decidable (¬ d.Restarts now))
  | .onResponse _ | .enableBeep | .disableBeep => isTrue trivial

/-- The request for the status, which has the emergency stops, is among what was sent. -/
def StatusRequested (events : List PowerEvent) : Prop :=
  ∃ msg, .sent msg ∈ events ∧ msg.data.get 0 = Poll.reqId [.getPowerBoardStatus]

-- ---------------------------------------------------------------------------
-- The device follows the poll
-- ---------------------------------------------------------------------------

structure Follows (d : PowerBoardDevice) (poll : Poll) : Prop where
  suffix : poll <:+ PbIns.all
  reqId : d.mgr.reqId = poll.reqId

namespace PbIns

theorem value_injective {item item' : PbIns} (h : item.value = item'.value) : item = item' :=
  Option.some.inj (by rw [← ofByte?_value item, h, ofByte?_value])

theorem reqId_low (item : PbIns) : (0x80 ||| item.value) &&& 0x0F = item.value := by
  cases item <;> decide

end PbIns

theorem outstanding_iff {m : PowerMgr} {poll : Poll} (h : m.reqId = poll.reqId) (item : PbIns) :
    m.Outstanding item.value ↔ poll.head? = some item := by
  rw [PowerMgr.Outstanding, h]
  cases poll with
  | nil =>
    refine iff_of_false ?_ (by simp)
    cases item <;> decide
  | cons first rest =>
    rw [Poll.reqId, PbIns.reqId_low, List.head?_cons, Option.some.injEq]
    exact ⟨fun heq => (PbIns.value_injective heq).symm, fun heq => heq ▸ rfl⟩

theorem nextReqId_tail : ∀ poll ∈ PbIns.all.tails, ∀ item ∈ poll.head?,
    PowerMgr.nextReqId item.value = Poll.reqId poll.tail := by
  decide

/-- A package moves the manager and the poll on together. -/
theorem reqId_parse_poll {m : PowerMgr} {poll : Poll} (hsuffix : poll <:+ PbIns.all)
    (h : m.reqId = poll.reqId) (msg : DeviceMessage) (hid : msg.id ≠ 0) :
    (m.parseCanPackage msg.data).1.reqId = (poll.onResponse msg).reqId := by
  rw [reqId_parse]
  cases poll with
  | nil =>
    have hnone (item : PbIns) : ¬ m.Outstanding item.value := by simp [outstanding_iff h]
    cases PbIns.ofByte? (msg.data.get 0) with
    | none => exact h
    | some item =>
      rw [Option.elim_some, if_neg (hnone item)]
      exact h
  | cons first rest =>
    have hnext : PowerMgr.nextReqId first.value = Poll.reqId rest :=
      nextReqId_tail _ ((List.mem_tails _ _).mpr hsuffix) first rfl
    by_cases hfirst : msg.data.get 0 = first.value
    · have hout : m.Outstanding first.value := (outstanding_iff h first).mpr rfl
      rw [hfirst, PbIns.ofByte?_value, Option.elim_some, if_pos hout, hnext, Poll.onResponse,
        if_pos ⟨hid, hfirst⟩]
    · rw [Poll.onResponse, if_neg fun hboth => hfirst hboth.2, ← h]
      cases hitem : PbIns.ofByte? (msg.data.get 0) with
      | none => rfl
      | some item =>
        have hout : ¬ m.Outstanding item.value := by
          intro hout
          obtain rfl : first = item := Option.some.inj ((outstanding_iff h item).mp hout)
          exact hfirst (PbIns.value_of_ofByte? hitem).symm
        rw [Option.elim_some, if_neg hout]

section
variable {d : PowerBoardDevice} {poll : Poll}

theorem suffix_onResponse (h : poll <:+ PbIns.all) (msg : DeviceMessage) :
    poll.onResponse msg <:+ PbIns.all := by
  cases poll with
  | nil => exact h
  | cons first rest =>
    rw [Poll.onResponse]
    split_ifs
    · exact (List.suffix_cons first rest).trans h
    · exact h

theorem restart_of_keeps {now : Int} (h : ¬ d.Restarts now) : d.restart now = d := if_neg h

theorem Follows.step (h : Follows d poll) {call : PowerCall} (hkeep : d.KeepsPoll call) :
    Follows (d.step call).1 (poll.step call) := by
  cases call with
  | onRequest now msg =>
    refine ⟨h.suffix, ?_⟩
    rw [PowerBoardDevice.step, mgr_onRequest, restart_of_keeps hkeep]
    exact h.reqId
  | onResponse msg =>
    refine ⟨suffix_onResponse h.suffix msg, ?_⟩
    rw [PowerBoardDevice.step, reqId_onResponse, Poll.step]
    by_cases hid : msg.id = 0
    · have hsame : poll.onResponse msg = poll := by
        cases poll with
        | nil => rfl
        | cons first rest => rw [Poll.onResponse, if_neg fun hboth => hboth.1 hid]
      rw [if_neg (not_not_intro hid), hsame]
      exact h.reqId
    · rw [if_pos hid]
      exact reqId_parse_poll h.suffix h.reqId msg hid
  | enableBeep => exact ⟨h.suffix, h.reqId⟩
  | disableBeep => exact ⟨h.suffix, h.reqId⟩

/-- A board that does not answer leaves the poll where it is. -/
theorem foldl_step_silent {calls : List PowerCall}
    (h : ∀ call ∈ calls, ∀ msg, call ≠ .onResponse msg) : calls.foldl Poll.step poll = poll := by
  induction calls with
  | nil => rfl
  | cons call calls ih =>
    have hcall : poll.step call = poll := by
      cases call with
      | onResponse msg => exact absurd rfl (h _ List.mem_cons_self msg)
      | onRequest now msg => rfl
      | enableBeep => rfl
      | disableBeep => rfl
    rw [List.foldl_cons, hcall]
    exact ih fun call hmem => h call (List.mem_cons_of_mem _ hmem)

theorem reaches_nil : ¬ poll.Reaches [] := by
  rintro ⟨before, now, msg, after, heq, -⟩
  simp at heq

theorem reaches_onRequest (now : Int) (msg : DeviceMessage) (calls : List PowerCall) :
    poll.Reaches (.onRequest now msg :: calls) ↔
      poll = [.getPowerBoardStatus] ∨ poll.Reaches calls := by
  constructor
  · rintro ⟨before, now', msg', after, heq, hpoll⟩
    cases before with
    | nil => exact .inl hpoll
    | cons call before =>
      obtain ⟨rfl, rfl⟩ := List.cons.inj heq
      exact .inr ⟨before, now', msg', after, rfl, hpoll⟩
  · rintro (hpoll | ⟨before, now', msg', after, rfl, hpoll⟩)
    · exact ⟨[], now, msg, calls, rfl, hpoll⟩
    · exact ⟨.onRequest now msg :: before, now', msg', after, rfl, hpoll⟩

theorem reaches_cons {call : PowerCall} (hcall : ∀ now msg, call ≠ .onRequest now msg)
    (calls : List PowerCall) : poll.Reaches (call :: calls) ↔ (poll.step call).Reaches calls := by
  constructor
  · rintro ⟨before, now, msg, after, heq, hpoll⟩
    cases before with
    | nil => exact absurd (List.cons.inj heq).1 (hcall now msg)
    | cons first before =>
      obtain ⟨rfl, rfl⟩ := List.cons.inj heq
      exact ⟨before, now, msg, after, rfl, hpoll⟩
  · rintro ⟨before, now, msg, after, rfl, hpoll⟩
    exact ⟨call :: before, now, msg, after, rfl, hpoll⟩

theorem reqId_eq_status : ∀ poll ∈ PbIns.all.tails,
    Poll.reqId poll = Poll.reqId [.getPowerBoardStatus] → poll = [.getPowerBoardStatus] := by
  decide

theorem statusRequested_append {events events' : List PowerEvent} :
    StatusRequested (events ++ events') ↔ StatusRequested events ∨ StatusRequested events' := by
  simp only [StatusRequested, List.mem_append, or_and_right, exists_or]

theorem statusRequested_onRequest (now : Int) (msg : DeviceMessage) :
    StatusRequested (d.step (.onRequest now msg)).2 ↔
      (d.onRequest now msg).2.data.get 0 = Poll.reqId [.getPowerBoardStatus] := by
  simp [StatusRequested, PowerBoardDevice.step]

theorem not_statusRequested {call : PowerCall} (hcall : ∀ now msg, call ≠ .onRequest now msg) :
    ¬ StatusRequested (d.step call).2 := by
  rintro ⟨msg, hsent, -⟩
  cases call with
  | onRequest now msg => exact hcall now msg rfl
  | onResponse msg' =>
    have hparse : PowerEvent.sent msg ∉ (d.mgr.parseCanPackage msg'.data).2 := by
      rcases d.mgr.parseCanPackage_cases msg'.data with ⟨-, -, hout⟩ | ⟨item, -, -, hout⟩
      · simp [hout]
      · rw [hout]
        split_ifs <;> simp
    simp only [PowerBoardDevice.step, PowerBoardDevice.onResponse] at hsent
    split_ifs at hsent <;> simp [hparse] at hsent
  | enableBeep => cases hsent
  | disableBeep => cases hsent

theorem lastReqId_step {call : PowerCall} (hcall : ∀ now msg, call ≠ .onRequest now msg) :
    (d.step call).1.lastReqId = d.lastReqId := by
  cases call with
  | onRequest now msg => exact absurd rfl (hcall now msg)
  | onResponse msg =>
    simp only [PowerBoardDevice.step, PowerBoardDevice.onResponse]
    split_ifs <;> rfl
  | enableBeep => rfl
  | disableBeep => rfl

/-- The status is asked for when it is the last item left and was not seen before. -/
theorem onRequest_status_iff {now : Int} (hreq : (d.restart now).mgr.reqId = poll.reqId)
    (hsuffix : poll <:+ PbIns.all) (hseen : d.lastReqId ≠ Poll.reqId [.getPowerBoardStatus])
    (msg : DeviceMessage) :
    (d.onRequest now msg).2.data.get 0 = Poll.reqId [.getPowerBoardStatus] ↔
      poll = [.getPowerBoardStatus] := by
  have hpoll : poll.reqId = Poll.reqId [.getPowerBoardStatus] → poll = [.getPowerBoardStatus] :=
    reqId_eq_status poll ((List.mem_tails _ _).mpr hsuffix)
  have hdue : poll = [.getPowerBoardStatus] → (d.restart now).Due now := by
    rintro rfl
    refine ⟨by rw [hreq]; decide, .inl ?_⟩
    rwa [lastReqId_restart, hreq]
  cases onRequest_written d now msg with
  | request _ hcode _ _ _ =>
    rw [hcode, hreq]
    exact ⟨hpoll, fun heq => heq ▸ rfl⟩
  | beep hnot _ _ hcode _ _ _ =>
    rw [hcode]
    exact iff_of_false (by decide) fun heq => hnot (hdue heq)
  | nothing hnot hcode _ _ _ =>
    rw [hcode]
    exact iff_of_false (by decide) fun heq => hnot (hdue heq)

theorem Follows.statusRequested_iff (h : Follows d poll)
    (hseen : d.lastReqId ≠ Poll.reqId [.getPowerBoardStatus]) {calls : List PowerCall}
    (hkeep : Mealy.Along PowerBoardDevice.step PowerBoardDevice.KeepsPoll d calls) :
    StatusRequested (Mealy.emitted PowerBoardDevice.step d calls) ↔ poll.Reaches calls := by
  induction calls generalizing d poll with
  | nil => exact iff_of_false (fun h => by simp [StatusRequested] at h) reaches_nil
  | cons call calls ih =>
    obtain ⟨hkeep, hrest⟩ := hkeep
    have hnext := h.step hkeep
    rw [Mealy.emitted_cons, statusRequested_append]
    by_cases hcall : ∀ now msg, call ≠ .onRequest now msg
    · rw [reaches_cons hcall, ← ih hnext (by rwa [lastReqId_step hcall]) hrest]
      exact or_iff_right (not_statusRequested hcall)
    · simp only [not_forall, not_not] at hcall
      obtain ⟨now, msg, rfl⟩ := hcall
      have hreq : (d.restart now).mgr.reqId = poll.reqId := by
        rw [restart_of_keeps hkeep]
        exact h.reqId
      rw [reaches_onRequest, statusRequested_onRequest,
        onRequest_status_iff hreq h.suffix hseen msg]
      by_cases hpoll : poll = [.getPowerBoardStatus]
      · exact iff_of_true (.inl hpoll) (.inl hpoll)
      · refine or_congr_right (ih hnext ?_ hrest)
        rw [PowerBoardDevice.step, lastReqId_onRequest, hreq]
        exact fun heq => hpoll (reqId_eq_status poll ((List.mem_tails _ _).mpr h.suffix) heq)

theorem reqId_restart {now : Int} (h : d.Restarts now) :
    (d.restart now).mgr.reqId = Poll.reqId PbIns.all := by
  have hrestart : d.restart now = { d with
      lastRequestTime := now, mgr := d.mgr.updateReqId (0x80 ||| PbIns.getWaistTemp.value) } :=
    if_pos h
  rw [hrestart]
  rfl

theorem statusRequested_restart {now : Int} (h : d.Restarts now) (msg : DeviceMessage)
    {calls : List PowerCall}
    (hkeep : Mealy.Along PowerBoardDevice.step PowerBoardDevice.KeepsPoll
      (d.onRequest now msg).1 calls) :
    StatusRequested (Mealy.emitted PowerBoardDevice.step d (.onRequest now msg :: calls)) ↔
      Poll.Reaches PbIns.all calls := by
  have hreq := reqId_restart h
  have hfollows : Follows (d.onRequest now msg).1 PbIns.all :=
    ⟨List.suffix_refl _, by rw [mgr_onRequest, hreq]⟩
  have hseen : (d.onRequest now msg).1.lastReqId ≠ Poll.reqId [.getPowerBoardStatus] := by
    rw [lastReqId_onRequest, hreq]
    decide
  have hfirst : ¬ StatusRequested (d.step (.onRequest now msg)).2 := by
    rw [statusRequested_onRequest]
    cases onRequest_written d now msg with
    | request _ hcode _ _ _ =>
      rw [hcode, hreq]
      decide
    | beep _ _ _ hcode _ _ _ =>
      rw [hcode]
      decide
    | nothing _ hcode _ _ _ =>
      rw [hcode]
      decide
  rw [Mealy.emitted_cons, statusRequested_append, or_iff_right hfirst]
  exact hfollows.statusRequested_iff hseen hkeep

end

-- ---------------------------------------------------------------------------
-- Runs
-- ---------------------------------------------------------------------------

/-- Between two restarts of a run the status is asked for exactly when `OnRequest`
is called while the board has answered the thirteen items before it. -/
theorem powerBoard_statusRequested_iff (id : UInt16) (garbage : UInt8)
    (before between : List PowerCall) (now : Int) (msg : DeviceMessage)
    (hrestart : (Mealy.final PowerBoardDevice.step (.create id garbage) before).Restarts now)
    (hkeep : Mealy.Along PowerBoardDevice.step PowerBoardDevice.KeepsPoll
      (Mealy.final PowerBoardDevice.step (.create id garbage) (before ++ [.onRequest now msg]))
      between) :
    StatusRequested (Mealy.emitted PowerBoardDevice.step
        (Mealy.final PowerBoardDevice.step (.create id garbage) before)
        (.onRequest now msg :: between)) ↔
      Poll.Reaches PbIns.all between := by
  rw [Mealy.final_append] at hkeep
  exact statusRequested_restart hrestart msg hkeep

def requestTimes : List PowerCall → List Int :=
  List.filterMap fun call => match call with
    | .onRequest now _ => some now
    | _ => none

def FourteenApart (calls : List PowerCall) : Prop :=
  ∃ times : List Int, times.Sublist (requestTimes calls) ∧ times.length = 14 ∧
    times.IsChain fun t t' => t' - t ≥ 10000000

theorem powerBoard_statusRequested_answered :
    let answers := (PbIns.all.take 13).map fun item =>
      PowerCall.onResponse ⟨1, 0, 7, #v[item.value, 0, 0, 0, 0, 0, 0, 0]⟩
    StatusRequested (Mealy.emitted PowerBoardDevice.step (.create 1 0)
      (.onRequest 1000000000 .zero :: (answers ++ [.onRequest 1010000000 .zero]))) := by
  intro answers
  refine (powerBoard_statusRequested_iff 1 0 [] _ 1000000000 .zero ?_ ?_).mpr ?_
  · decide
  · decide +kernel
  · exact ⟨answers, 1010000000, .zero, [], rfl, by decide⟩

/-- Nothing is answered: the status is not asked for in a second of calls. -/
theorem powerBoard_status_starved : ¬ ∀ (id : UInt16) (garbage : UInt8)
    (before between : List PowerCall) (now now' : Int) (msg msg' : DeviceMessage),
    (requestTimes (before ++ .onRequest now msg :: (between ++ [.onRequest now' msg']))).Pairwise
      (· ≤ ·) →
    (Mealy.final PowerBoardDevice.step (.create id garbage) before).Restarts now →
    Mealy.Along PowerBoardDevice.step PowerBoardDevice.KeepsPoll
      (Mealy.final PowerBoardDevice.step (.create id garbage) (before ++ [.onRequest now msg]))
      between →
    (Mealy.final PowerBoardDevice.step (.create id garbage)
      (before ++ .onRequest now msg :: between)).Restarts now' →
    FourteenApart between →
    StatusRequested (Mealy.emitted PowerBoardDevice.step
      (Mealy.final PowerBoardDevice.step (.create id garbage) before)
      (.onRequest now msg :: between)) := by
  intro h
  let between := (List.range 14).map fun k : Nat =>
    PowerCall.onRequest (1010000000 + 10000000 * k) .zero
  have hkeep : Mealy.Along PowerBoardDevice.step PowerBoardDevice.KeepsPoll
      (PowerBoardDevice.onRequest (.create 1 0) 1000000000 .zero).1 between := by decide +kernel
  have hstatus := h 1 0 [] between 1000000000 2000000000 .zero .zero (by decide +kernel) (by decide)
    hkeep (by decide +kernel)
    ⟨requestTimes between, List.Sublist.refl _, by decide +kernel, by decide +kernel⟩
  obtain ⟨before, now, msg, after, heq, hpoll⟩ :=
    (statusRequested_restart (by decide) .zero hkeep).mp hstatus
  have hsilent : ∀ call ∈ before, ∀ msg, call ≠ .onResponse msg := by
    intro call hcall msg hresponse
    have hmem : call ∈ between := heq ▸ List.mem_append_left _ hcall
    obtain ⟨k, -, rfl⟩ := List.mem_map.mp hmem
    exact nomatch hresponse
  rw [foldl_step_silent hsilent] at hpoll
  exact absurd hpoll (by decide)

end TienKung
