import TienKung.Devices.MotorDevice
import TienKung.Devices.StatusBarrier

/-!
# Bus cycles of a `MotorDeviceManager`

The motors of a bus are visited in registration order, once a cycle, and each
visit makes the callbacks its frame calls for. The first publication falls at
whichever visit completes the readiness condition, and from there on messages
follow the visits, not the cycles. A frame that is neither missing nor the
motor's own makes no callback, so whether a cycle publishes depends on who was
heard in it.
-/

namespace TienKung

open Manager (Callback Registered Fresh)

variable {specs : List MotorSpec}

-- ---------------------------------------------------------------------------
-- Visits
-- ---------------------------------------------------------------------------

abbrev Visit := Nat × DeviceMessage

abbrev names (specs : List MotorSpec) : List Int := specs.map MotorSpec.name

def visitCallbacks (specs : List MotorSpec) (v : Visit) : List (Callback motorDeviceManager) :=
  match specs[v.1]? with
  | some s => (s.event v.2).callbacks v.1
  | none => []

def MotorSpec.entry? (s : MotorSpec) (msg : DeviceMessage) : Option MotorStatus :=
  match s.event msg with
  | .status r => some (motorDeviceManager.entry s.name r)
  | _ => none

def statuses (specs : List MotorSpec) (vs : List Visit) : List MotorStatus :=
  vs.filterMap fun v => specs[v.1]?.bind fun s => s.entry? v.2

/-- The visit is of a motor, and its frame is missing or the motor's own. -/
def Heard (specs : List MotorSpec) (v : Visit) : Prop := ∃ s ∈ specs[v.1]?, s.Hears v.2

instance (specs : List MotorSpec) (v : Visit) : Decidable (Heard specs v) := by
  unfold Heard; infer_instance

/-- What a heard visit brings to the barrier once the gate is open. -/
def visitArrival (specs : List MotorSpec) (v : Visit) : Barrier.Arrival Int MotorStatus where
  member := (specs[v.1]?.map MotorSpec.name).getD 0
  item := specs[v.1]?.bind fun s => s.entry? v.2
  gate := true

theorem Heard.arrivals {v : Visit} (h : Heard specs v) :
    (visitCallbacks specs v).filterMap (Callback.arrival? (names specs)) = [visitArrival specs v] := by
  obtain ⟨s, hs, hh⟩ := h
  have hs := Option.mem_def.mp hs
  have hne : s.event v.2 ≠ .none := fun h => MotorConfig.event_eq_none.mp h hh
  cases he : s.event v.2 with
  | none => exact absurd he hne
  | status r =>
    simp [visitCallbacks, visitArrival, MotorSpec.entry?, MotorEvent.callbacks, Callback.arrival?,
      Callback.flag?, Callback.entry?, List.filterMap_cons, names, hs, he]
  | miss =>
    simp [visitCallbacks, visitArrival, MotorSpec.entry?, MotorEvent.callbacks, Callback.arrival?,
      Callback.flag?, Callback.entry?, names, hs, he]

theorem arrivals_of_heard {vs : List Visit} (h : ∀ v ∈ vs, Heard specs v) :
    (vs.flatMap (visitCallbacks specs)).filterMap (Callback.arrival? (names specs)) =
      vs.map (visitArrival specs) := by
  induction vs with
  | nil => rfl
  | cons v vs ih =>
    rw [List.flatMap_cons, List.filterMap_append, (h v (by simp)).arrivals,
      ih fun w hw => h w (List.mem_cons_of_mem _ hw), List.map_cons, List.singleton_append]

@[simp] theorem items_visitArrival (vs : List Visit) :
    Barrier.items (vs.map (visitArrival specs)) = statuses specs vs := by
  simp [Barrier.items, statuses, List.filterMap_map, Function.comp_def, visitArrival]

-- ---------------------------------------------------------------------------
-- The bus follows its manager
-- ---------------------------------------------------------------------------

def MotorBus.Configured (specs : List MotorSpec) (b : MotorBus) : Prop :=
  b.motors.map MotorDevice.toMotorConfig = specs.map MotorSpec.toMotorConfig

theorem MotorBus.create_configured (garbage : MotorReport) (specs : List MotorSpec) :
    (create garbage specs).Configured specs := by
  simp [Configured, create, Function.comp_def]

theorem MotorBus.Configured.config {b : MotorBus} (h : b.Configured specs) (i : Nat) :
    (b.motors[i]?).map MotorDevice.toMotorConfig = specs[i]?.map MotorSpec.toMotorConfig := by
  rw [← List.getElem?_map, ← List.getElem?_map, h]

theorem MotorBus.Configured.onResponse {b : MotorBus} (h : b.Configured specs) (v : Visit) :
    (b.onResponse v).1.Configured specs := by
  obtain ⟨i, msg⟩ := v
  cases hi : b.motors[i]? with
  | none => simpa [MotorBus.onResponse, hi] using h
  | some d =>
    simp only [MotorBus.onResponse, hi, Configured]
    rw [List.map_set, MotorDevice.onResponse_config, ← h]
    obtain ⟨hlt, hget⟩ := List.getElem?_eq_some_iff.mp hi
    apply List.ext_getElem?
    intro j
    by_cases hj : i = j
    · subst hj; simp [hlt, hget]
    · simp [List.getElem?_set_ne hj]

theorem MotorBus.onResponse_callbacks {b : MotorBus} (h : b.Configured specs) (v : Visit) :
    Mealy.final Manager.callback b.manager (visitCallbacks specs v) = (b.onResponse v).1.manager ∧
      Mealy.emitted Manager.callback b.manager (visitCallbacks specs v) = (b.onResponse v).2 := by
  obtain ⟨i, msg⟩ := v
  have hc := h.config i
  cases hi : b.motors[i]? with
  | none =>
    have hs : specs[i]? = none := by simpa [hi] using hc.symm
    simp [MotorBus.onResponse, visitCallbacks, hi, hs]
  | some d =>
    rw [hi] at hc
    obtain ⟨s, hs, hsd⟩ := Option.map_eq_some_iff.mp hc.symm
    simp [MotorBus.onResponse, visitCallbacks, hi, hs, hsd]

/-- A bus run is the run of its manager on the callbacks of the visits. -/
theorem MotorBus.simulates (specs : List MotorSpec) :
    Mealy.Simulates onResponse Manager.callback (Configured specs) MotorBus.manager
      fun _ => visitCallbacks specs :=
  ⟨fun _ v h => h.onResponse v, fun _ v h => (onResponse_callbacks h v).1,
    fun _ v h => (onResponse_callbacks h v).2⟩

theorem received_visit (specs : List MotorSpec) (v : Visit) :
    Manager.received (names specs) (visitCallbacks specs v) =
      (specs[v.1]?.bind fun s => s.entry? v.2).toList := by
  cases hs : specs[v.1]? with
  | none => simp [visitCallbacks, Manager.received, hs]
  | some s =>
    cases he : s.event v.2 with
    | status r =>
      simp [visitCallbacks, Manager.received, MotorEvent.callbacks, Manager.Callback.entry?,
        MotorSpec.entry?, List.filterMap_cons, names, hs, he]
    | miss =>
      simp [visitCallbacks, Manager.received, MotorEvent.callbacks, Manager.Callback.entry?,
        MotorSpec.entry?, hs, he]
    | none => simp [visitCallbacks, Manager.received, MotorEvent.callbacks, MotorSpec.entry?, hs, he]

theorem received_visits (vs : List Visit) :
    Manager.received (names specs) (vs.flatMap (visitCallbacks specs)) = statuses specs vs := by
  induction vs with
  | nil => rfl
  | cons v vs ih =>
    have hone := received_visit specs v
    rw [Manager.received] at ih hone
    rw [List.flatMap_cons, Manager.received, List.filterMap_append, ih, hone, statuses, statuses,
      List.filterMap_cons]
    cases (specs[v.1]?.bind fun s => s.entry? v.2) <;> rfl

/-- The messages and the one that is being built hold the statuses of the visits, after those that
were pending. -/
theorem MotorBus.Configured.conserve {b : MotorBus} (h : b.Configured specs)
    (hr : Registered (names specs) b.manager) (vs : List Visit) :
    (Mealy.emitted MotorBus.onResponse b vs).flatten ++
      (Mealy.final MotorBus.onResponse b vs).manager.msgStatus =
        b.manager.msgStatus ++ statuses specs vs := by
  have hkept := Manager.received_eq hr (vs.flatMap (visitCallbacks specs))
  rw [received_visits] at hkept
  rw [← (MotorBus.simulates specs).emitted h, ← (MotorBus.simulates specs).final h,
    Mealy.translated_const]
  exact hkept

theorem visit_publish {m : Manager motorDeviceManager} {v : Visit}
    (hp : Mealy.emitted Manager.callback m (visitCallbacks specs v) ≠ []) :
    Fresh (Mealy.final Manager.callback m (visitCallbacks specs v)) ∧
      ∃ msg, Mealy.emitted Manager.callback m (visitCallbacks specs v) = [msg] := by
  revert hp
  simp only [visitCallbacks]
  split
  · rename_i s hs
    cases s.event v.2 with
    | none => exact fun hp => absurd rfl hp
    | miss =>
      simp only [MotorEvent.callbacks, Mealy.emitted_cons, Mealy.emitted_nil, Mealy.final_cons,
        Mealy.final_nil, List.append_nil]
      exact Manager.callback_publish
    | status r =>
      have hset : (m.callback (.setReady v.1)).2 = [] := rfl
      simp only [MotorEvent.callbacks, Mealy.emitted_cons, Mealy.emitted_nil, Mealy.final_cons,
        Mealy.final_nil, List.append_nil, hset, List.nil_append]
      exact Manager.callback_publish
  · exact fun hp => absurd rfl hp

theorem MotorBus.Configured.final {b : MotorBus} (h : b.Configured specs) (vs : List Visit) :
    (Mealy.final MotorBus.onResponse b vs).Configured specs :=
  Mealy.final_invariant h fun _ v hc => hc.onResponse v

theorem MotorBus.Configured.registered_final {b : MotorBus} (h : b.Configured specs)
    (hr : Registered (names specs) b.manager) (vs : List Visit) :
    Registered (names specs) (Mealy.final MotorBus.onResponse b vs).manager := by
  rw [← (MotorBus.simulates specs).final h]
  exact Manager.registered_final hr _

theorem MotorBus.Configured.release {b : MotorBus} (h : b.Configured specs) {v : Visit}
    (hp : (b.onResponse v).2 ≠ []) :
    ∃ msg, (b.onResponse v).2 = [msg] ∧ (b.onResponse v).1.manager.msgStatus = [] := by
  obtain ⟨hmanager, hout⟩ := onResponse_callbacks h v
  rw [← hout] at hp ⊢
  obtain ⟨hfresh, msg, hmsg⟩ := visit_publish hp
  rw [hmanager] at hfresh
  exact ⟨msg, hmsg, congrArg Barrier.State.pending hfresh.start⟩

theorem MotorBus.specs_ne_nil {garbage : MotorReport} {vs : List Visit}
    (hsent : Mealy.emitted onResponse (create garbage specs) vs ≠ []) : specs ≠ [] := by
  rintro rfl
  have hnone : vs.flatMap (visitCallbacks []) = [] := by
    rw [List.flatMap_eq_nil_iff]; intro v _; rfl
  rw [← (simulates []).emitted (create_configured garbage []), Mealy.translated_const, hnone] at hsent
  exact hsent rfl

/-- A run that publishes has a first message. From the visit that triggers it
the manager runs on from a fresh state. -/
theorem MotorBus.first_publication {garbage : MotorReport} {vs : List Visit}
    (hsent : Mealy.emitted onResponse (create garbage specs) vs ≠ []) :
    ∃ before trigger after first m, vs = before ++ trigger :: after ∧
      Mealy.emitted onResponse (create garbage specs) before = [] ∧
      Registered (names specs) m ∧ Fresh m ∧
      Mealy.emitted onResponse (create garbage specs) vs =
        first :: Mealy.emitted Manager.callback m (after.flatMap (visitCallbacks specs)) ∧
      (Mealy.final onResponse (create garbage specs) vs).manager =
        Mealy.final Manager.callback m (after.flatMap (visitCallbacks specs)) := by
  obtain ⟨before, trigger, after, rfl, hquiet, hfirst⟩ := Mealy.exists_first hsent
  have hsim := simulates specs
  have hc0 := create_configured garbage specs
  have hc1 := hc0.final before
  have hr1 := hc0.registered_final (Manager.create_registered _) before
  have hstep := onResponse_callbacks hc1 trigger
  rw [← hstep.2] at hfirst
  obtain ⟨hfresh, first, hmsg⟩ := visit_publish hfirst
  have hc2 := hc1.onResponse trigger
  have hreg := Manager.registered_final hr1 (visitCallbacks specs trigger)
  refine ⟨before, trigger, after, first, _, rfl, hquiet, hreg, hfresh, ?_, ?_⟩
  · rw [Mealy.emitted_append, hquiet, Mealy.emitted_cons, ← hstep.2, hmsg, ← hsim.emitted hc2,
      Mealy.translated_const, hstep.1]
    rfl
  · rw [Mealy.final_append, Mealy.final_cons, ← hsim.final hc2, Mealy.translated_const, hstep.1]

end TienKung
