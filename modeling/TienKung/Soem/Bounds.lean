import TienKung.Soem.Cycles

/-!
# When a run stays within its arrays

Nothing between the configuration and the cycle functions checks a slave or a
passage. A run of any length stays within `slaveModes`, `vecCurTsMode`, the two
buffers and their `dev` arrays exactly when the conditions of `RunInBounds` hold
of what was registered and found on the bus.
-/

namespace TienKung

variable {σ : Type} {devices : List RegisteredDevice} {slaveModes : List Mode} {phase : Nat → Nat}
  {count : Nat}

/-- The slave serves the device's mode in some cycle. A time-sharing slave that
is not on the bus is never toggled. -/
def EverServed (slaveModes : List Mode) (count : Nat) (rd : RegisteredDevice) : Prop :=
  match slaveModes[rd.slave.toNat]? with
  | some .standard => rd.mode = .standard
  | some .extended => rd.mode = .extended
  | some .timeSharing => rd.mode = .standard ∨ rd.mode = .extended ∧ rd.slave.toNat < count
  | _ => False

instance (slaveModes : List Mode) (count : Nat) (rd : RegisteredDevice) :
    Decidable (EverServed slaveModes count rd) := by
  unfold EverServed; split <;> infer_instance

structure RunInBounds (registrations : List RegisteredDevice) (slaveModes : List Mode)
    (count : Nat) : Prop where
  modes : count ≤ slaveModes.length
  slaves : count ≤ slaveNumber
  known : ∀ rd ∈ registrations, 0 ≤ rd.slave ∧ rd.slave < slaveModes.length
  served : ∀ rd ∈ registrations, EverServed slaveModes count rd →
    rd.slave < slaveNumber ∧ 1 ≤ rd.passage ∧ rd.passage ≤ 6

theorem advance_iterate_start (s k : Nat) :
    ((advance count)^[k] fun _ => 0) s = if s < count then k else 0 := by
  by_cases hs : s < count
  · simp [advance_iterate hs, hs]
  · induction k with
    | zero => simp
    | succ k ih => rw [Function.iterate_succ_apply']; simp [advance, hs, ih]

theorem everServed_iff (rd : RegisteredDevice) : EverServed slaveModes count rd ↔
    ∃ k, Served slaveModes ((advance count)^[k] fun _ => 0) rd := by
  unfold EverServed Served servedMode
  cases hm : slaveModes[rd.slave.toNat]? with
  | none => simp
  | some mode =>
    simp only [Option.bind_some, advance_iterate_start]
    cases mode with
    | standard => simp [effectiveMode, eq_comm]
    | extended => simp [effectiveMode, eq_comm]
    | other v => simp [effectiveMode]
    | timeSharing =>
      simp only [effectiveMode, Option.some_inj]
      constructor
      · rintro (h | ⟨h, hs⟩)
        · exact ⟨0, by simp [h]⟩
        · exact ⟨1, by simp [h, hs]⟩
      · rintro ⟨k, hk⟩
        by_cases hs : rd.slave.toNat < count
        · rw [← hk]
          by_cases hp : k % 2 = 0 <;> simp [hs, hp]
        · exact .inl (by rw [← hk]; simp [hs])

theorem runInBounds_iff : RunInBounds devices slaveModes count ↔
    ∀ k, CycleInBounds devices slaveModes ((advance count)^[k] fun _ => 0) count := by
  constructor
  · intro h k
    exact ⟨h.modes, h.slaves, fun rd hrd => ⟨h.known rd hrd, fun hs =>
      h.served rd hrd ((everServed_iff rd).mpr ⟨k, hs⟩)⟩⟩
  · intro h
    refine ⟨(h 0).modes, (h 0).slaves, fun rd hrd => ((h 0).devices rd hrd).1, fun rd hrd hs => ?_⟩
    obtain ⟨k, hk⟩ := (everServed_iff rd).mp hs
    exact ((h k).devices rd hrd).2 hk

-- ---------------------------------------------------------------------------
-- Faults
-- ---------------------------------------------------------------------------

theorem getRequestFromDevices_error (code : DeviceCode σ) {b : Bus σ}
    (h : InPhase devices slaveModes phase b.master) (hlog : b.log = [])
    (hb : ¬ CycleInBounds devices slaveModes phase count) :
    ∃ e, getRequestFromDevices code count b = .error e := by
  have hloopOf := h.devices_eq
  by_cases hdev : ∀ rd ∈ devices, InBounds slaveModes phase rd
  · obtain ⟨mid, hloop, hreq⟩ := requestLoop_ok code h hlog hdev
    obtain ⟨e, he⟩ := Checked.foldlM_error writeFrame (List.range count)
      (Written devices slaveModes phase mid)
      (fun s => s < slaveModes.length ∧ s < slaveNumber) ⟨hreq.inPhase, by simp, fun _ _ => rfl⟩
      (fun done s b hp hg hr => hr.writeFrame hg.1 hg.2 (range_step hp).2)
      (fun done s b hg hr => writeFrame_error hr.inPhase hg) (by
        by_contra hno
        refine hb ⟨?_, ?_, hdev⟩
        · by_contra hlt
          exact hno ⟨slaveModes.length, List.mem_range.mpr (by omega), fun hg => absurd hg.1 (by omega)⟩
        · by_contra hlt
          exact hno ⟨slaveNumber, List.mem_range.mpr (by omega), fun hg => absurd hg.2 (by omega)⟩)
    refine ⟨e, ?_⟩
    rw [← hloopOf] at hloop
    simp only [getRequestFromDevices, hloop, Checked.ok_bind, he]
  · obtain ⟨e, he⟩ := Checked.foldlM_error (visit (request code)) devices
      (Requested devices slaveModes phase) (InBounds slaveModes phase)
      (b := { b with master := { b.master with reqBuff := .replicate _ .zero } })
      ⟨⟨h.1, h.2, h.3⟩, by simp [hlog], fun s => by simp [SlaveMessage.zero],
        fun s p _ => by simp [SlaveMessage.zero]⟩
      (fun done rd b hp hg hr => hr.visit hg)
      (fun done rd b hg hr => visit_request_error hr.inPhase hg)
      (by simpa using hdev)
    refine ⟨e, ?_⟩
    rw [← hloopOf] at he
    simp only [getRequestFromDevices, he, Checked.error_bind]

theorem runCycle_inBounds {code : DeviceCode σ} {b b' : Bus σ} {inputs : Nat → SlaveMessage}
    (h : InPhase devices slaveModes phase b.master) (hr : runCycle code count inputs b = .ok b') :
    CycleInBounds devices slaveModes phase count := by
  by_contra hb
  obtain ⟨e, he⟩ := getRequestFromDevices_error (b := { b with log := [] }) code h rfl hb
  rw [runCycle, he] at hr
  cases hr

theorem run_inBounds {code : DeviceCode σ} {b : Bus σ} {inputs : List (Nat → SlaveMessage)}
    (h : InPhase devices slaveModes phase b.master) (hr : run code count b inputs = .ok logs) :
    ∀ k < inputs.length, CycleInBounds devices slaveModes ((advance count)^[k] phase) count := by
  induction inputs generalizing b phase logs with
  | nil => intro k hk; cases hk
  | cons input inputs ih =>
    obtain ⟨b', hcycle, hrest⟩ := Checked.bind_eq_ok.mp hr
    obtain ⟨logs', hrun, -⟩ := Checked.bind_eq_ok.mp hrest
    have hin := runCycle_inBounds h hcycle
    obtain ⟨b'', _, hcycle', hphase, -⟩ := runCycle_ok code input h hin
    rw [hcycle] at hcycle'
    cases hcycle'
    intro k hk
    cases k with
    | zero => exact hin
    | succ k => exact ih hphase hrun k (by simpa using hk)

/-- No run faults exactly when what is registered and found is in bounds. -/
theorem run_ok_iff (code : DeviceCode σ) (world : σ) (registrations : List RegisteredDevice)
    (slaveModes : List Mode) (count : Nat) :
    (∀ inputs, ∃ logs, run code count ⟨.init registrations slaveModes, world, []⟩ inputs = .ok logs) ↔
      RunInBounds registrations slaveModes count := by
  have hstart := SoemMaster.init_inPhase registrations slaveModes
  rw [runInBounds_iff]
  constructor
  · intro h k
    obtain ⟨logs, hrun⟩ := h (List.replicate (k + 1) fun _ => .zero)
    exact run_inBounds hstart hrun k (by simp)
  · intro h inputs
    obtain ⟨logs, hrun, -⟩ := run_ok code inputs
      (b := ⟨.init registrations slaveModes, world, []⟩) hstart h
    exact ⟨logs, hrun⟩

end TienKung
