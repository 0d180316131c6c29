import TienKung.Devices.PowerBoard

/-!
# The flags of the power board

A status package that is the answer outstanding overwrites the three flags. One
that changes a flag is published within the same `OnResponse`; nothing else is
but a full set of ready bits.
-/

namespace TienKung

-- ---------------------------------------------------------------------------
-- Flags
-- ---------------------------------------------------------------------------

structure SafetyFlags where
  estop : Bool := false
  remoteEstop : Bool := false
  powerOn : Bool := false
  deriving DecidableEq

def PowerBoardStatus.flags (s : PowerBoardStatus) : SafetyFlags :=
  ⟨s.isEstop, s.isRemoteEstop, s.isPowerOn⟩

def packageFlags (data : Vector UInt8 8) : SafetyFlags :=
  ⟨data.get 5 &&& 0x01 != 0, data.get 5 &&& 0x02 != 0, data.get 5 &&& 0x04 != 0⟩

def PowerMgr.status (m : PowerMgr) : PowerBoardStatus := m.cmds .getPowerBoardStatus

/-- A status package that is the answer outstanding. -/
def PowerBoardDevice.Accepts (d : PowerBoardDevice) (msg : DeviceMessage) : Prop :=
  msg.id ≠ 0 ∧ msg.data.get 0 = PbIns.getPowerBoardStatus.value ∧
    d.mgr.Outstanding PbIns.getPowerBoardStatus.value

instance (d : PowerBoardDevice) (msg : DeviceMessage) : Decidable (d.Accepts msg) :=
  inferInstanceAs (Decidable (_ ∧ _ ∧ _))

/-- The calls of `funcOnStatus`. -/
def published : List PowerEvent → List PowerMgr :=
  List.filterMap fun e => match e with
    | .status mgr => some mgr
    | _ => none

/-- The flags of the last status package a run accepted, `last` if there is none. -/
def lastAccepted (d : PowerBoardDevice) (last : SafetyFlags) : List PowerCall → SafetyFlags
  | [] => last
  | .onResponse msg :: calls =>
    lastAccepted (d.onResponse msg).1 (if d.Accepts msg then packageFlags msg.data else last) calls
  | call :: calls => lastAccepted (d.step call).1 last calls

/-- The call answers a changed flag with a publication, and publishes only for
that or for a full set of bits, both of which it takes down. -/
structure PublishesChanges (d : PowerBoardDevice) (call : PowerCall) : Prop where
  change : ∀ msg, call = .onResponse msg → d.Accepts msg →
    packageFlags msg.data ≠ d.mgr.status.flags →
    ∃ mgr, published (d.step call).2 = [mgr] ∧ mgr.status.flags = packageFlags msg.data
  cause : ∀ mgr ∈ published (d.step call).2, PowerMgr.count mgr.readyBits = 14 ∨
    ∃ msg, call = .onResponse msg ∧ d.Accepts msg ∧ packageFlags msg.data ≠ d.mgr.status.flags
  cleared : published (d.step call).2 ≠ [] →
    (d.step call).1.mgr.readyBits = 0 ∧ (d.step call).1.mgr.status.isUpdate = false

-- ---------------------------------------------------------------------------
-- A package
-- ---------------------------------------------------------------------------

section
variable {d : PowerBoardDevice} {m : PowerMgr} {msg : DeviceMessage}

theorem flags_update (s : PowerBoardStatus) (data : Vector UInt8 8) :
    (s.update (pbData data)).flags = packageFlags data := by
  simp [PowerBoardStatus.update, PowerBoardStatus.flags, packageFlags, pbData, Vector.get]

theorem isUpdate_update {s : PowerBoardStatus} (h : s.isUpdate = false) (data : Vector UInt8 8) :
    (s.update (pbData data)).isUpdate = true ↔ packageFlags data ≠ s.flags := by
  rw [← flags_update s data]
  simp only [PowerBoardStatus.update, PowerBoardStatus.flags, h, Bool.false_or, Bool.or_eq_true,
    bne_iff_ne, ne_eq, SafetyFlags.mk.injEq]
  tauto

@[simp] theorem status_setReady (m : PowerMgr) (ins : UInt8) :
    (m.setReady ins).status = m.status := by
  rw [PowerMgr.setReady]
  split_ifs <;> rfl

theorem outstanding_setReady (m : PowerMgr) (ins ins' : UInt8) :
    (m.setReady ins).Outstanding ins' ↔ m.Outstanding ins' := by
  rw [PowerMgr.setReady]
  split_ifs <;> rfl

theorem status_parse (m : PowerMgr) (data : Vector UInt8 8) :
    (m.parseCanPackage data).1.status =
      if data.get 0 = PbIns.getPowerBoardStatus.value ∧
        m.Outstanding PbIns.getPowerBoardStatus.value
      then m.status.update (pbData data) else m.status := by
  have hget : data[0] = data.get 0 := rfl
  rw [PowerMgr.parseCanPackage, hget]
  dsimp only
  by_cases h0 : data.get 0 = 0
  · rw [if_pos h0, if_neg fun h => absurd (h0.symm.trans h.1) (by decide)]
  rw [if_neg h0]
  by_cases hout : m.Outstanding (data.get 0)
  · rw [if_neg (not_not_intro ((outstanding_setReady m _ _).mpr hout))]
    cases hitem : PbIns.ofByte? (data.get 0) with
    | none =>
      rw [if_neg, status_setReady]
      rintro ⟨hvalue, -⟩
      rw [hvalue, PbIns.ofByte?_value] at hitem
      cases hitem
    | some item =>
      have hvalue := PbIns.value_of_ofByte? hitem
      by_cases hstatus : item = .getPowerBoardStatus
      · subst hstatus
        rw [← hvalue] at hout
        rw [if_pos ⟨hvalue.symm, hout⟩]
        simp only [PowerMgr.status, Function.update_self]
        exact congrArg (PowerBoardStatus.update · _) (status_setReady m _)
      · rw [if_neg fun h => hstatus (PbIns.bit_injective ?_)]
        · simp only [PowerMgr.status, Function.update_of_ne (Ne.symm hstatus)]
          exact status_setReady m _
        · rw [PbIns.bit, hvalue, h.1]
          rfl
  · rw [if_pos fun h => hout ((outstanding_setReady m _ _).mp h), status_setReady, if_neg]
    rintro ⟨hvalue, h⟩
    exact hout (hvalue ▸ h)

theorem published_parse (m : PowerMgr) (data : Vector UInt8 8) :
    published (m.parseCanPackage data).2 = [] := by
  rcases m.parseCanPackage_cases data with ⟨-, -, hout⟩ | ⟨item, -, -, hout⟩
  · rw [hout]; rfl
  · rw [hout]; split_ifs <;> rfl

theorem status_clearReady (m : PowerMgr) : m.clearReady.status = m.status.clearStatue := by
  simp [PowerMgr.clearReady, PowerMgr.status]

-- ---------------------------------------------------------------------------
-- A response
-- ---------------------------------------------------------------------------

theorem published_onResponse (d : PowerBoardDevice) (msg : DeviceMessage) :
    published (d.onResponse msg).2 =
      if msg.id ≠ 0 ∧ (d.mgr.parseCanPackage msg.data).1.IsReady
      then [(d.mgr.parseCanPackage msg.data).1] else [] := by
  have hnone := published_parse d.mgr msg.data
  rw [published] at hnone
  by_cases hid : msg.id = 0
  · simp [PowerBoardDevice.onResponse, hid, published]
  · simp only [PowerBoardDevice.onResponse, ne_eq, hid, not_false_eq_true, if_true, true_and]
    split_ifs <;> simp [published, List.filterMap_append, hnone]

theorem isReady_parse (h : d.mgr.status.isUpdate = false) (hid : msg.id ≠ 0) :
    (d.mgr.parseCanPackage msg.data).1.IsReady ↔
      PowerMgr.count (d.mgr.parseCanPackage msg.data).1.readyBits = 14 ∨
        d.Accepts msg ∧ packageFlags msg.data ≠ d.mgr.status.flags := by
  refine or_congr_right ?_
  have hstatus := status_parse d.mgr msg.data
  rw [PowerMgr.status] at hstatus
  by_cases hacc : d.Accepts msg
  · rw [hstatus, if_pos hacc.2, isUpdate_update h, and_iff_right hacc]
  · rw [hstatus, if_neg fun h' => hacc ⟨hid, h'⟩]
    simp [h, hacc]

theorem flags_parse (hid : msg.id ≠ 0) :
    (d.mgr.parseCanPackage msg.data).1.status.flags =
      if d.Accepts msg then packageFlags msg.data else d.mgr.status.flags := by
  rw [status_parse]
  by_cases hacc : d.Accepts msg
  · rw [if_pos hacc, if_pos hacc.2, flags_update]
  · rw [if_neg hacc, if_neg fun h' => hacc ⟨hid, h'⟩]

theorem status_onResponse (h : d.mgr.status.isUpdate = false) (msg : DeviceMessage) :
    (d.onResponse msg).1.mgr.status.flags =
        (if d.Accepts msg then packageFlags msg.data else d.mgr.status.flags) ∧
      (d.onResponse msg).1.mgr.status.isUpdate = false := by
  by_cases hid : msg.id = 0
  · have hacc : ¬ d.Accepts msg := fun hacc => hacc.1 hid
    simp [PowerBoardDevice.onResponse, hid, hacc, h]
  · have hflags := flags_parse (d := d) hid
    simp only [PowerBoardDevice.onResponse, ne_eq, hid, not_false_eq_true, if_true]
    split_ifs with hready hacc hacc
    all_goals simp only [hacc, if_true, if_false] at hflags
    · simp only [status_clearReady]
      exact ⟨hflags, rfl⟩
    · simp only [status_clearReady]
      exact ⟨hflags, rfl⟩
    all_goals refine ⟨hflags, ?_⟩
    all_goals exact Bool.eq_false_iff.mpr fun hup => hready (.inr hup)

theorem publishesChanges_onResponse (h : d.mgr.status.isUpdate = false) (msg : DeviceMessage) :
    PublishesChanges d (.onResponse msg) := by
  have hout := published_onResponse d msg
  have hstep : d.step (.onResponse msg) = d.onResponse msg := rfl
  constructor
  · intro msg' heq hacc hne
    cases heq
    have hready := (isReady_parse h hacc.1).mpr (.inr ⟨hacc, hne⟩)
    rw [hstep, hout, if_pos ⟨hacc.1, hready⟩]
    exact ⟨_, rfl, by rw [flags_parse hacc.1, if_pos hacc]⟩
  · intro mgr hm
    rw [hstep, hout] at hm
    split_ifs at hm with hready
    · cases List.mem_singleton.mp hm
      exact ((isReady_parse h hready.1).mp hready.2).imp_right fun hc => ⟨msg, rfl, hc⟩
    · cases hm
  · intro hne
    rw [hstep, hout] at hne
    split_ifs at hne with hready
    · simp only [hstep, PowerBoardDevice.onResponse, if_pos hready.1, if_pos hready.2,
        status_clearReady]
      exact ⟨rfl, rfl⟩
    · exact absurd rfl hne

@[simp] theorem status_onRequest (now : Int) (msg : DeviceMessage) :
    (d.onRequest now msg).1.mgr.status = d.mgr.status := by
  simp only [PowerBoardDevice.onRequest, PowerBoardDevice.restart, PowerBoardDevice.request,
    PowerBoardDevice.beep]
  split_ifs <;> rfl

theorem publishesChanges_of_silent {call : PowerCall} (hcall : ∀ msg, call ≠ .onResponse msg)
    (hout : published (d.step call).2 = []) : PublishesChanges d call where
  change msg heq := absurd heq (hcall msg)
  cause mgr hm := by rw [hout] at hm; cases hm
  cleared hne := absurd hout hne

end

-- ---------------------------------------------------------------------------
-- Runs
-- ---------------------------------------------------------------------------

theorem lastAccepted_final {d : PowerBoardDevice} (h : d.mgr.status.isUpdate = false)
    (calls : List PowerCall) :
    (Mealy.final PowerBoardDevice.step d calls).mgr.status.flags =
        lastAccepted d d.mgr.status.flags calls ∧
      (Mealy.final PowerBoardDevice.step d calls).mgr.status.isUpdate = false := by
  induction calls generalizing d with
  | nil => exact ⟨rfl, h⟩
  | cons call calls ih =>
    rw [Mealy.final_cons]
    cases call with
    | onRequest now msg =>
      have hsame : (d.step (.onRequest now msg)).1.mgr.status = d.mgr.status :=
        status_onRequest now msg
      have hrest := ih (d := (d.step (.onRequest now msg)).1) (by rw [hsame, h])
      rwa [hsame] at hrest
    | onResponse msg =>
      obtain ⟨hflags, hdown⟩ := status_onResponse h msg
      have hrest := ih hdown
      rwa [hflags] at hrest
    | enableBeep => exact ih (d := (d.step .enableBeep).1) h
    | disableBeep => exact ih (d := (d.step .disableBeep).1) h

/-- Between two calls the flags are those of the last accepted status package
and the change flag is down; a call publishes every change, and nothing else
but a full set of bits. -/
theorem powerBoard_publishes_changes (id : UInt16) (garbage : UInt8) (calls : List PowerCall) :
    let d := Mealy.final PowerBoardDevice.step (.create id garbage) calls
    d.mgr.status.flags = lastAccepted (.create id garbage) {} calls ∧
      d.mgr.status.isUpdate = false ∧ ∀ call, PublishesChanges d call := by
  intro d
  obtain ⟨hflags, hdown⟩ := lastAccepted_final (d := .create id garbage) rfl calls
  refine ⟨hflags, hdown, fun call => ?_⟩
  cases call with
  | onRequest now msg => exact publishesChanges_of_silent (fun _ h => nomatch h) rfl
  | onResponse msg => exact publishesChanges_onResponse hdown msg
  | enableBeep => exact publishesChanges_of_silent (fun _ h => nomatch h) rfl
  | disableBeep => exact publishesChanges_of_silent (fun _ h => nomatch h) rfl

end TienKung
