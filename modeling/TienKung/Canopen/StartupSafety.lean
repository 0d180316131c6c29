import TienKung.Canopen.Startup

/-!
# When enabling is safe

Whatever the interleaving and whatever is lost, if the thread takes `ReceivePos`
only after a position response, the target the drive finds when it is enabled is
a position it reported. Nothing in the code makes it so: the thread sleeps
100 ms and takes what is there.
-/

namespace TienKung

open Sdo (Ins Message)

variable {drv : Driver} {uninit : UInt32} {id : UInt16} {s s' : Startup}

-- ---------------------------------------------------------------------------
-- Invariant
-- ---------------------------------------------------------------------------

/-- The display of the mode has been neither asked for nor answered. -/
def Quiet (s : Startup) : Prop :=
  s.motor.driverMode = 0 ∧ ∀ msg ∈ s.reqQueue ++ s.requests ++ s.responses,
    (respOf msg).getIns ≠ Ins.modesOfOperationDisplay.value

def Phase (s : Startup) : Prop :=
  match s.pc with
  | .testDriverEnable | .pushClearErrors | .pushDisableMotor | .pushGetMotorEnableState => Quiet s
  | .testDriverMode => Quiet s ∨ TargetReported s
  | .pushSetMotorMode | .pushGetPosition | .buildInitPosition => True
  | .pushInitPosition receivePos => receivePos.toUInt32 ∈ s.reported
  | .pushGetMaxSpeed | .pushGetMotorMode | .enableMotor => TargetReported s

def PositionCached (s : Startup) : Prop :=
  ∀ msg ∈ (s.received.filter fun msg => IsPosition msg).getLast?, ∀ pos ∈ report? msg,
    s.motor.receivePos = pos.toInt32

structure Startup.Inv (s : Startup) : Prop where
  cached : PositionCached s
  phase : Phase s

theorem Startup.start_inv (zeroOffset : ℚ) : (start zeroOffset).Inv :=
  ⟨fun _ h => (by cases h), rfl, fun _ h => (by cases h)⟩

theorem report?_eq_some {msg : DeviceMessage} {pos : UInt32} : report? msg = some pos ↔
    IsPosition msg ∧ (respOf msg).type ∈ Sdo.readResponses ∧ (respOf msg).data = pos := by
  unfold report?
  split <;> simp_all

theorem PositionHeard.mem_reported (hh : PositionHeard s) (hc : PositionCached s) :
    s.motor.receivePos.toUInt32 ∈ s.reported := by
  obtain ⟨msg, hmsg, hsome⟩ := hh
  obtain ⟨pos, hpos⟩ := Option.isSome_iff_exists.mp hsome
  rw [hc msg hmsg pos hpos]
  exact List.mem_filterMap.mpr ⟨msg, List.mem_of_mem_filter (List.mem_of_getLast? hmsg), hpos⟩

-- ---------------------------------------------------------------------------
-- Steps of the bus and of the drive
-- ---------------------------------------------------------------------------

/-- What a step that is not the thread's can do. -/
structure Outside (s s' : Startup) : Prop where
  pc : s'.pc = s.pc
  pushed : s'.pushed = s.pushed
  reported : ∀ pos ∈ s.reported, pos ∈ s'.reported
  quiet : Quiet s → Quiet s'
  cached : PositionCached s → PositionCached s'

theorem Outside.refl (s : Startup) : Outside s s := ⟨rfl, rfl, fun _ h => h, id, id⟩

theorem Outside.of_frames (hpc : s'.pc = s.pc) (hp : s'.pushed = s.pushed)
    (hr : s'.received = s.received) (hm : s'.motor = s.motor)
    (hsub : Quiet s → ∀ msg ∈ s'.reqQueue ++ s'.requests ++ s'.responses,
      (respOf msg).getIns ≠ Ins.modesOfOperationDisplay.value) : Outside s s' := by
  refine ⟨hpc, hp, ?_, fun hq => ⟨hm ▸ hq.1, hsub hq⟩, ?_⟩
  · simp [Startup.reported, hr]
  · simp [PositionCached, hr, hm]

theorem Answers.getIns {req msg : DeviceMessage} (h : Answers id req msg) :
    (respOf msg).getIns = (respOf req).getIns := by
  obtain ⟨-, -, h1, h2, h3, -⟩ := h
  simp [Message.getIns, Message.ofBytes, h1, h2, h3]

theorem Outside.response {msg : DeviceMessage} {i : Nat} (hi : s.responses[i]? = some msg) :
    Outside s { s with
      motor := (s.motor.onResponse drv uninit msg).1
      responses := s.responses.eraseIdx i
      received := s.received ++ [msg] } := by
  have hmem := List.mem_of_getElem? hi
  refine ⟨rfl, rfl, fun pos hpos => ?_, fun hq => ⟨?_, fun m hm => ?_⟩, fun hc => ?_⟩
  · simp only [Startup.reported, List.filterMap_append, List.mem_append]
    exact .inl hpos
  · have hno : ¬ CanopenMotor.Takes .modesOfOperationDisplay msg := fun ht =>
      hq.2 msg (by simp [hmem]) ht.2.2
    rw [CanopenMotor.onResponse_driverMode, if_neg hno]
    exact hq.1
  · refine hq.2 m ?_
    rcases List.mem_append.mp hm with hm | hm
    · exact List.mem_append_left _ hm
    · exact List.mem_append_right _ (List.mem_of_mem_eraseIdx hm)
  · unfold PositionCached
    simp only [List.filter_append, CanopenMotor.onResponse_receivePos]
    by_cases hp : IsPosition msg
    · have hlast : ((s.received.filter fun msg => IsPosition msg) ++
          ([msg].filter fun msg => IsPosition msg)).getLast? = some msg := by simp [hp]
      rw [hlast, if_pos hp]
      intro m hm pos hpos
      cases hm
      obtain ⟨-, hread, rfl⟩ := report?_eq_some.mp hpos
      rw [Message.ofBytes_data_of_read hread]
    · rw [if_neg hp]
      have hnil : ([msg].filter fun msg => IsPosition msg) = [] := by simp [hp]
      rw [hnil, List.append_nil]
      exact hc

theorem Startup.step_outside {a : Action} (ha : a ≠ .thread) :
    Outside s (s.step drv uninit id a).1 := by
  cases a with
  | thread => exact absurd rfl ha
  | request =>
    cases hq : s.reqQueue with
    | nil => simpa [step, hq] using Outside.refl s
    | cons msg rest =>
      simp only [step, hq]
      refine .of_frames rfl rfl rfl rfl fun h m hm => h.2 m ?_
      simp only [hq, List.mem_append, List.mem_cons, List.not_mem_nil, or_false] at hm ⊢
      tauto
  | response i =>
    cases hi : s.responses[i]? with
    | none => simpa [step, hi] using Outside.refl s
    | some msg => simpa [step, hi] using Outside.response hi
  | answer i frame =>
    cases hi : s.requests[i]? with
    | none => simpa [step, hi] using Outside.refl s
    | some req =>
      by_cases hans : Answers id req frame
      · simp only [step, hi, hans, if_true]
        refine .of_frames rfl rfl rfl rfl fun h m hm => ?_
        simp only [List.mem_append, List.mem_singleton] at hm
        rcases hm with (hm | hm) | hm | rfl
        · exact h.2 m (by simp [hm])
        · exact h.2 m (by simp [List.mem_of_mem_eraseIdx hm])
        · exact h.2 m (by simp [hm])
        · rw [hans.getIns]
          exact h.2 req (by simp [List.mem_of_getElem? hi])
      · simpa [step, hi, hans] using Outside.refl s
  | loseRequest i =>
    refine .of_frames rfl rfl rfl rfl fun h m hm => h.2 m ?_
    simp only [step, List.mem_append] at hm ⊢
    exact hm.imp_left fun hm => hm.imp_right List.mem_of_mem_eraseIdx
  | loseResponse i =>
    refine .of_frames rfl rfl rfl rfl fun h m hm => h.2 m ?_
    simp only [step, List.mem_append] at hm ⊢
    exact hm.imp_right List.mem_of_mem_eraseIdx

theorem Outside.targetReported (h : Outside s s') (ht : TargetReported s) : TargetReported s' := by
  obtain ⟨pos, hpos, hlast⟩ := ht
  exact ⟨pos, h.reported pos hpos, by rw [← hlast, Startup.lastTarget, Startup.lastTarget, h.pushed]⟩

theorem Outside.phase (h : Outside s s') (hp : Phase s) : Phase s' := by
  unfold Phase at hp ⊢
  rw [h.pc]
  cases hpc : s.pc <;> simp only [hpc] at hp ⊢
  case testDriverEnable | pushClearErrors | pushDisableMotor | pushGetMotorEnableState =>
    exact h.quiet hp
  case testDriverMode => exact hp.imp h.quiet h.targetReported
  case pushInitPosition => exact h.reported _ hp
  case pushGetMaxSpeed | pushGetMotorMode | enableMotor => exact h.targetReported hp

-- ---------------------------------------------------------------------------
-- Steps of the thread
-- ---------------------------------------------------------------------------

theorem Quiet.pendRequest (h : Quiet s) {req : Message} (ins : Ins) (next : Pc)
    (hi : req.index = ins.index) (hsub : req.subIndex = 0) (hne : ins ≠ .modesOfOperationDisplay) :
    Quiet (s.pendRequest req next) := by
  have hreq : (respOf req.frame).getIns ≠ Ins.modesOfOperationDisplay.value := by
    rw [Message.frame_getIns hi hsub]
    exact fun he => hne (Ins.value_injective he)
  refine ⟨h.1, fun m hm => ?_⟩
  simp only [Startup.pendRequest, List.mem_append, List.mem_singleton] at hm
  rcases hm with ((hm | rfl) | hm) | hm
  · exact h.2 m (by simp [hm])
  · exact hreq
  · exact h.2 m (by simp [hm])
  · exact h.2 m (by simp [hm])

@[simp] theorem target?_write (idCob data : UInt32) :
    target? (Sdo.reqWriteTargetPosition idCob data) = some data :=
  if_pos ⟨rfl, Sdo.writeRequest_getIns _ _ _ _⟩

theorem TargetReported.pendRequest (h : TargetReported s) {req : Message} (next : Pc)
    (hreq : target? req = none) : TargetReported (s.pendRequest req next) := by
  obtain ⟨pos, hpos, hlast⟩ := h
  refine ⟨pos, hpos, ?_⟩
  rw [← hlast, Startup.lastTarget, Startup.lastTarget, Startup.pendRequest, List.filterMap_append]
  simp [hreq]

theorem Startup.thread_inv (h : s.Inv) (hheard : s.pc = .buildInitPosition → PositionHeard s) :
    (s.thread drv id).Inv := by
  have hphase := h.phase
  unfold Phase at hphase
  unfold thread
  cases hpc : s.pc <;> simp only [hpc] at hphase ⊢
  case testDriverEnable =>
    by_cases he : s.motor.driverEnable = 0
    · simp only [he, ne_eq, not_true, if_false]
      exact ⟨h.cached, .inl hphase⟩
    · simp only [he, ne_eq, not_false_eq_true, if_true]
      exact ⟨h.cached, hphase⟩
  case pushClearErrors | pushDisableMotor =>
    exact ⟨h.cached, hphase.pendRequest .conrolWord _ rfl rfl (by decide)⟩
  case pushGetMotorEnableState =>
    exact ⟨h.cached, hphase.pendRequest .statusWord _ rfl rfl (by decide)⟩
  case testDriverMode =>
    by_cases hm : s.motor.driverMode.toUInt32 = csPosition
    · -- the display has been answered, so a target has been set
      have ht : TargetReported s := hphase.resolve_left fun hq => by
        rw [hq.1] at hm
        exact absurd hm (by decide)
      simp only [hm, ne_eq, not_true, if_false]
      exact ⟨h.cached, ht⟩
    · simp only [hm, ne_eq, not_false_eq_true, if_true]
      exact ⟨h.cached, trivial⟩
  case pushSetMotorMode => exact ⟨h.cached, trivial⟩
  case pushGetPosition => exact ⟨h.cached, trivial⟩
  case buildInitPosition => exact ⟨h.cached, (hheard hpc).mem_reported h.cached⟩
  case pushInitPosition receivePos =>
    have ht : ∀ next, TargetReported
        (s.pendRequest (Sdo.reqWriteTargetPosition id.toUInt32 receivePos.toUInt32) next) := by
      intro next
      refine ⟨_, hphase, ?_⟩
      simp [lastTarget, pendRequest]
    cases drv <;> exact ⟨h.cached, ht _⟩
  case pushGetMaxSpeed => exact ⟨h.cached, hphase.pendRequest _ rfl⟩
  case pushGetMotorMode => exact ⟨h.cached, .inr (hphase.pendRequest _ rfl)⟩
  case enableMotor => exact h

theorem Startup.step_inv {a : Action} (h : s.Inv) (hheard : InitPositionHeard s a) :
    (s.step drv uninit id a).1.Inv := by
  by_cases ha : a = .thread
  · subst ha
    exact thread_inv h (hheard rfl)
  · have hout : Outside s (s.step drv uninit id a).1 := step_outside ha
    exact ⟨hout.cached h.cached, hout.phase h.phase⟩

-- ---------------------------------------------------------------------------
-- Runs
-- ---------------------------------------------------------------------------

/-- In every run in which the thread takes `ReceivePos` only when it has been
heard, the last target position on the queue when `EnableMotor` begins is one
that the drive reported. -/
theorem enabled_target_reported (drv : Driver) (uninit : UInt32) (id : UInt16) (zeroOffset : ℚ)
    (actions : List Action)
    (hheard : Mealy.Along (Startup.step drv uninit id) InitPositionHeard (.start zeroOffset) actions)
    (hpc : (Mealy.final (Startup.step drv uninit id) (.start zeroOffset) actions).pc = .enableMotor) :
    TargetReported (Mealy.final (Startup.step drv uninit id) (.start zeroOffset) actions) := by
  have hinv := hheard.final (Startup.start_inv zeroOffset) fun _ _ hs ha =>
    Startup.step_inv hs ha
  have hphase := hinv.phase
  unfold Phase at hphase
  rwa [hpc] at hphase

def responseFrame (type : UInt8) (index : UInt8) (value : UInt8) : DeviceMessage :=
  ⟨0x581, 0, 8, #v[type, index, 0x60, 0, value, 0, 0, 0]⟩

/-- `DisableMotor` in one round: the status read is answered with the key of a
disabled motor. -/
def disableRun (key : UInt8) : List Action :=
  [.thread, .thread, .thread, .thread, .request, .request, .request,
    .answer 2 (responseFrame Sdo.respRead2Bytes 0x41 key), .response 0, .thread]

/-- The mode is set and the position asked for; after `position` the loop goes on
to its end, where the display of the mode is answered. -/
def setModeRun (position : List Action) (rest display : Nat) : List Action :=
  [.thread, .thread, .thread, .request, .request] ++ position ++
    List.replicate rest .thread ++ List.replicate rest .request ++
    [.answer display (responseFrame Sdo.respRead1Byte 0x61 8), .response 0, .thread]

theorem enabled_target_reported_in_time :
    TargetReported (Mealy.final (Startup.step .zeroErr 0 1) (.start 0) (disableRun 0x21 ++
      setModeRun [.answer 3 (responseFrame Sdo.respRead4Bytes 0x64 77), .response 0] 3 4)) := by
  exact enabled_target_reported .zeroErr 0 1 0 _ (by decide +kernel) (by decide +kernel)

/-- Enabling never follows a target that the drive did not report. -/
def EnablesOnlyReported (drv : Driver) : Prop :=
  ∀ (uninit : UInt32) (id : UInt16) (zeroOffset : ℚ) (actions : List Action),
    (Mealy.final (Startup.step drv uninit id) (.start zeroOffset) actions).pc = .enableMotor →
    TargetReported (Mealy.final (Startup.step drv uninit id) (.start zeroOffset) actions)

/-- The position response is lost and the answer about the mode is not: the
drive is enabled with a target of zero, which it never reported. -/
theorem not_target_reported : ¬ EnablesOnlyReported .zeroErr ∧ ¬ EnablesOnlyReported .eyou := by
  constructor
  · intro h
    have ht := h 0 1 0 (disableRun 0x21 ++ setModeRun
      [.answer 3 (responseFrame Sdo.respRead4Bytes 0x64 77), .loseResponse 0] 3 4) (by decide +kernel)
    revert ht
    decide +kernel
  · intro h
    have ht := h 0 1 0 (disableRun 0x31 ++ setModeRun
      [.answer 3 (responseFrame Sdo.respRead4Bytes 0x64 77), .loseResponse 0] 4 5) (by decide +kernel)
    revert ht
    decide +kernel

end TienKung
