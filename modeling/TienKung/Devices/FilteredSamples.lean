import TienKung.Devices.FilteredImu

/-!
# Filtered samples and bus cycles

What the two sensors publish is computed from the two frames of the cycle as
long as no flag is left over that a later frame completes. A missed first frame
leaves the flag of the second up, and the next gyro frame then publishes what
the last acceleration gave; in the Xsens class a missed second frame leaves the
flag of the gyro up as well.
-/

namespace TienKung

open ImuDevice

-- ---------------------------------------------------------------------------
-- Frames of a cycle
-- ---------------------------------------------------------------------------

def ImuClass.gyroOf : ImuClass → DeviceMessage → Vector ℚ 3
  | .rmImu => RmImu.gyroOf
  | .xsensHR => XsensImuHRDevice.gyroOf

def ImuClass.accelOf : ImuClass → DeviceMessage → Vector ℚ 3
  | .rmImu => RmImu.accelOf
  | .xsensHR => XsensImuHRDevice.accelOf

variable {F : Type} (f : ImuFilters F) (kind : ImuClass) (cfg : ImuConfig)

/-- Computed from the two frames of the cycle, by the filters as they were
before it. -/
def Paired (imu : RmImu F) (c : ImuCycle) (data : FilteredData) : Prop :=
  (c.gyro cfg).id ≠ 0 ∧ (c.accel cfg).id ≠ 0 ∧
    data = ((imu.updateGyr (kind.gyroOf (c.gyro cfg))).updateAcc f c.time2
      (kind.accelOf (c.accel cfg))).data

instance (imu : RmImu F) (c : ImuCycle) (data : FilteredData) :
    Decidable (Paired f kind cfg imu c data) := by unfold Paired; infer_instance

/-- Every call of `funcOnMessage` in a run. -/
def AllPaired (d : ImuDevice F) (cycles : List ImuCycle) : Prop :=
  Mealy.Along (ImuDevice.cycle f kind cfg)
    (fun d c => ∀ data ∈ (ImuDevice.cycle f kind cfg d c).2, Paired f kind cfg d.imu c data)
    d cycles

instance (d : ImuDevice F) (cycles : List ImuCycle) :
    Decidable (AllPaired f kind cfg d cycles) := by unfold AllPaired; infer_instance

/-- The responses of a cycle that starts here are taken. -/
def Active (d : ImuDevice F) : Prop := initTimes ≤ (d.requests cfg).count

instance (d : ImuDevice F) : Decidable (Active cfg d) := inferInstanceAs (Decidable (_ ≤ _))

/-- No frame of the cycle completes a flag that an earlier cycle left up. The
first class has to know its frames as well. -/
def Undisturbed (readyMsg : Bool × Bool) (c : ImuCycle) : Prop :=
  match kind with
  | .rmImu => (c.gyro cfg).id ≠ 0 → (c.accel cfg).id ≠ 0 ∨ readyMsg.2 = true →
    cfg.id1 = 5 ∧ cfg.id2 = 6 ∧ readyMsg.2 = false
  | .xsensHR => ((c.gyro cfg).id ≠ 0 → readyMsg.1 = false) ∧
    ((c.gyro cfg).id = 0 → (c.accel cfg).id ≠ 0 → readyMsg.2 = false)

instance (readyMsg : Bool × Bool) (c : ImuCycle) :
    Decidable (Undisturbed kind cfg readyMsg c) :=
  match kind with
  | .rmImu => inferInstanceAs (Decidable (_ → _ → _ ∧ _ ∧ _))
  | .xsensHR => inferInstanceAs (Decidable ((_ → _) ∧ (_ → _ → _)))

/-- The frames are known: by passage, or by the literal ids. -/
def Recognised : Prop :=
  match kind with
  | .rmImu => cfg.id1 = 5 ∧ cfg.id2 = 6
  | .xsensHR => True

-- ---------------------------------------------------------------------------
-- Responses
-- ---------------------------------------------------------------------------

section
variable {f kind cfg} {d : ImuDevice F} {c : ImuCycle} {msg : DeviceMessage}

theorem imu_requests (cfg : ImuConfig) (d : ImuDevice F) :
    (d.requests cfg).imu = d.imu ∧ (d.requests cfg).readyMsg = d.readyMsg := by
  simp only [requests, onRequest]
  split_ifs <;> exact ⟨rfl, rfl⟩

theorem delivered_id {id : UInt16} {frame : Option DeviceMessage}
    (h : (delivered id frame).id ≠ 0) : (delivered id frame).id = id.toUInt32 := by
  cases frame with
  | none => exact absurd rfl h
  | some frame => rfl

theorem ids_ne : cfg.id1.toUInt32 ≠ cfg.id2.toUInt32 :=
  fun h => cfg.ids_ne (UInt16.toUInt32_inj.mp h)

theorem onResponse_miss_first (h : msg.id = 0) :
    d.onResponse f kind cfg cfg.passage1 now msg = (d, []) := by
  simp [onResponse, h, abandon]

theorem onResponse_miss_second (h : msg.id = 0) :
    d.onResponse f kind cfg cfg.passage2 now msg =
      ({ d with readyMsg := (false, d.readyMsg.2) }, []) := by
  simp [onResponse, h, abandon, cfg.passages_ne.symm]

theorem onResponse_inactive (hcount : ¬ initTimes ≤ d.count) (hdown : d.readyMsg = (false, false)) :
    d.onResponse f kind cfg passage now msg = (d, []) := by
  simp only [onResponse, if_neg hcount, abandon]
  split_ifs
  · obtain ⟨ready, imu, count, up⟩ := d
    obtain rfl : ready = (false, false) := hdown
    rfl
  · rfl
  · rfl

theorem publish_ready (h : d.readyMsg = (true, true)) :
    d.publish = ({ d with ready := true, readyMsg := (false, false) }, [d.imu.data]) := by
  simp [publish, h]

theorem publish_waiting (h : d.readyMsg.1 = false ∨ d.readyMsg.2 = false) :
    d.publish = (d, []) := by
  refine if_neg fun hboth => ?_
  rcases h with h | h
  · exact absurd (hboth.1.symm.trans h) (by decide)
  · exact absurd (hboth.2.symm.trans h) (by decide)

theorem onResponse_gyro_rm (hcount : initTimes ≤ d.count) (hid : (c.gyro cfg).id ≠ 0) :
    d.onResponse f .rmImu cfg cfg.passage1 now (c.gyro cfg) =
      publish { d with
        imu := d.imu.readStatus f now (c.gyro cfg), readyMsg := (true, d.readyMsg.2) } := by
  have hid1 : (c.gyro cfg).id = cfg.id1.toUInt32 := delivered_id hid
  have hne : (c.gyro cfg).id ≠ cfg.id2.toUInt32 := hid1 ▸ ids_ne
  simp only [onResponse, if_neg hid, if_pos hcount, RmImuDevice.receive, if_neg hne, if_pos hid1]

theorem onResponse_accel_rm (hcount : initTimes ≤ d.count) (hid : (c.accel cfg).id ≠ 0) :
    d.onResponse f .rmImu cfg cfg.passage2 now (c.accel cfg) =
      publish { d with
        imu := d.imu.readStatus f now (c.accel cfg), readyMsg := (d.readyMsg.1, true) } := by
  have hid2 : (c.accel cfg).id = cfg.id2.toUInt32 := delivered_id hid
  simp only [onResponse, if_neg hid, if_pos hcount, RmImuDevice.receive, if_pos hid2]

theorem onResponse_gyro_hr (hcount : initTimes ≤ d.count) (hid : msg.id ≠ 0) :
    d.onResponse f .xsensHR cfg cfg.passage1 now msg =
      publish { d with
        imu := d.imu.updateGyr (XsensImuHRDevice.gyroOf msg)
        readyMsg := (d.readyMsg.1, true) } := by
  simp [onResponse, hid, hcount, XsensImuHRDevice.receive]

theorem onResponse_accel_hr (hcount : initTimes ≤ d.count) (hid : msg.id ≠ 0) :
    d.onResponse f .xsensHR cfg cfg.passage2 now msg =
      publish { d with
        imu := d.imu.updateAcc f now (XsensImuHRDevice.accelOf msg)
        readyMsg := (true, d.readyMsg.2) } := by
  simp [onResponse, hid, hcount, XsensImuHRDevice.receive, cfg.passages_ne.symm]

-- ---------------------------------------------------------------------------
-- Cycles
-- ---------------------------------------------------------------------------

theorem responses_eq {s s' : ImuDevice F}
    (h1 : d.onResponse f kind cfg cfg.passage1 c.time1 (c.gyro cfg) = (s, out1))
    (h2 : s.onResponse f kind cfg cfg.passage2 c.time2 (c.accel cfg) = (s', out2)) :
    d.responses f kind cfg c = (s', out1 ++ out2) := by
  simp only [responses, h1, h2]

theorem readStatus_both (hid1 : cfg.id1 = 5) (hid2 : cfg.id2 = 6) (hg : (c.gyro cfg).id ≠ 0)
    (ha : (c.accel cfg).id ≠ 0) (imu : RmImu F) :
    (imu.readStatus f c.time1 (c.gyro cfg)).readStatus f c.time2 (c.accel cfg) =
      (imu.updateGyr (RmImu.gyroOf (c.gyro cfg))).updateAcc f c.time2
        (RmImu.accelOf (c.accel cfg)) := by
  have h5 : (c.gyro cfg).id = 5 := by
    rw [show (c.gyro cfg).id = cfg.id1.toUInt32 from delivered_id hg, hid1]
    rfl
  have h6 : (c.accel cfg).id = 6 := by
    rw [show (c.accel cfg).id = cfg.id2.toUInt32 from delivered_id ha, hid2]
    rfl
  simp only [RmImu.readStatus, h5, h6, show ¬ (5 : UInt32) = 6 by decide,
    show ¬ (6 : UInt32) = 5 by decide, if_true, if_false]

theorem responses_rm (hcount : initTimes ≤ d.count) (h0 : d.readyMsg.1 = false)
    (hu : Undisturbed .rmImu cfg d.readyMsg c) :
    (d.responses f .rmImu cfg c).1.readyMsg.1 = false ∧
      ∀ data ∈ (d.responses f .rmImu cfg c).2, Paired f .rmImu cfg d.imu c data := by
  by_cases hg : (c.gyro cfg).id = 0
  · by_cases ha : (c.accel cfg).id = 0
    · rw [responses_eq (onResponse_miss_first hg) (onResponse_miss_second ha)]
      exact ⟨rfl, nofun⟩
    · rw [responses_eq (onResponse_miss_first hg)
        ((onResponse_accel_rm hcount ha).trans (publish_waiting (.inl h0)))]
      exact ⟨h0, nofun⟩
  · have hleft : d.readyMsg.2 = false := by
      by_contra hup
      exact hup (hu hg (.inr (Bool.not_eq_false _ ▸ hup))).2.2
    have hgyro : d.onResponse f .rmImu cfg cfg.passage1 c.time1 (c.gyro cfg) = _ :=
      (onResponse_gyro_rm hcount hg).trans (publish_waiting (.inr hleft))
    by_cases ha : (c.accel cfg).id = 0
    · rw [responses_eq hgyro (onResponse_miss_second ha)]
      exact ⟨rfl, nofun⟩
    · obtain ⟨hid1, hid2, -⟩ := hu hg (.inl ha)
      rw [responses_eq hgyro ((onResponse_accel_rm (by exact hcount) ha).trans (publish_ready rfl))]
      refine ⟨rfl, fun data hd => ⟨hg, ha, ?_⟩⟩
      rw [List.mem_singleton.mp hd, readStatus_both hid1 hid2 hg ha]
      rfl

theorem responses_hr (hcount : initTimes ≤ d.count)
    (hu : Undisturbed .xsensHR cfg d.readyMsg c) :
    ∀ data ∈ (d.responses f .xsensHR cfg c).2, Paired f .xsensHR cfg d.imu c data := by
  obtain ⟨hacc, hgyr⟩ := hu
  by_cases hg : (c.gyro cfg).id = 0
  · by_cases ha : (c.accel cfg).id = 0
    · rw [responses_eq (onResponse_miss_first hg) (onResponse_miss_second ha)]
      exact nofun
    · have h1 : d.readyMsg.2 = false := hgyr hg ha
      rw [responses_eq (onResponse_miss_first hg)
        ((onResponse_accel_hr hcount ha).trans (publish_waiting (.inr h1)))]
      exact nofun
  · have h0 : d.readyMsg.1 = false := hacc hg
    have hgyro : d.onResponse f .xsensHR cfg cfg.passage1 c.time1 (c.gyro cfg) = _ :=
      (onResponse_gyro_hr hcount hg).trans (publish_waiting (.inl h0))
    by_cases ha : (c.accel cfg).id = 0
    · rw [responses_eq hgyro (onResponse_miss_second ha)]
      exact nofun
    · rw [responses_eq hgyro ((onResponse_accel_hr (by exact hcount) ha).trans (publish_ready rfl))]
      refine fun data hd => ⟨hg, ha, ?_⟩
      rw [List.mem_singleton.mp hd]
      rfl

theorem not_paired_stale (imu : RmImu F) : ¬ Paired f kind cfg imu c imu.data := by
  rintro ⟨-, -, h⟩
  have hseq : imu.data.seq = imu.data.seq + 1 := congrArg FilteredData.seq h
  grind

theorem mem_responses_of_first {s : ImuDevice F}
    (h1 : d.onResponse f kind cfg cfg.passage1 c.time1 (c.gyro cfg) = (s, [data])) :
    data ∈ (d.responses f kind cfg c).2 := by
  simp [responses, h1]

theorem undisturbed_rm (hcount : initTimes ≤ d.count) (hrec : Recognised .rmImu cfg)
    (hp : ∀ data ∈ (d.responses f .rmImu cfg c).2, Paired f .rmImu cfg d.imu c data) :
    Undisturbed .rmImu cfg d.readyMsg c := by
  intro hg _
  refine ⟨hrec.1, hrec.2, ?_⟩
  by_contra hup
  have hready : d.readyMsg.2 = true := by simpa using hup
  have hgyro : d.onResponse f .rmImu cfg cfg.passage1 c.time1 (c.gyro cfg) = _ :=
    (onResponse_gyro_rm hcount hg).trans (publish_ready (by rw [hready]))
  have h5 : (c.gyro cfg).id = 5 := by
    rw [show (c.gyro cfg).id = cfg.id1.toUInt32 from delivered_id hg, hrec.1]
    rfl
  have hsame : (d.imu.readStatus f c.time1 (c.gyro cfg)).data = d.imu.data := by
    simp only [RmImu.readStatus, h5, show ¬ (5 : UInt32) = 6 by decide, if_true, if_false]
    rfl
  have hpaired := hp _ (mem_responses_of_first hgyro)
  exact not_paired_stale d.imu (hsame ▸ hpaired)

theorem undisturbed_hr (hcount : initTimes ≤ d.count)
    (hp : ∀ data ∈ (d.responses f .xsensHR cfg c).2, Paired f .xsensHR cfg d.imu c data) :
    Undisturbed .xsensHR cfg d.readyMsg c := by
  refine ⟨fun hg => ?_, fun hg ha => ?_⟩
  · by_contra hup
    have hready : d.readyMsg.1 = true := by simpa using hup
    have hgyro : d.onResponse f .xsensHR cfg cfg.passage1 c.time1 (c.gyro cfg) = _ :=
      (onResponse_gyro_hr hcount hg).trans (publish_ready (by rw [hready]))
    exact not_paired_stale d.imu (hp _ (mem_responses_of_first hgyro))
  · by_contra hup
    have hready : d.readyMsg.2 = true := by simpa using hup
    have haccel : d.onResponse f .xsensHR cfg cfg.passage2 c.time2 (c.accel cfg) = _ :=
      (onResponse_accel_hr hcount ha).trans (publish_ready (by rw [hready]))
    rw [responses_eq (onResponse_miss_first hg) haccel] at hp
    exact (hp _ (List.mem_singleton.mpr rfl)).1 hg

-- ---------------------------------------------------------------------------
-- Runs
-- ---------------------------------------------------------------------------

/-- Between cycles. While the sensor is activated both flags are down. -/
structure Between (kind : ImuClass) (d : ImuDevice F) : Prop where
  activating : d.count < initTimes → d.readyMsg = (false, false)
  first : kind = .rmImu → d.readyMsg.1 = false

theorem count_onResponse :
    (d.onResponse f kind cfg passage now msg).1.count = d.count := by
  have hpublish : ∀ e : ImuDevice F, e.publish.1.count = e.count := by
    intro e
    rw [publish]
    split_ifs <;> rfl
  unfold onResponse
  split_ifs
  · rw [abandon]
    split_ifs <;> rfl
  · cases kind with
    | rmImu =>
      rw [hpublish, RmImuDevice.receive]
      split_ifs <;> rfl
    | xsensHR =>
      rw [hpublish, XsensImuHRDevice.receive]
      split_ifs <;> rfl
  · rfl

theorem count_responses : (d.responses f kind cfg c).1.count = d.count :=
  count_onResponse.trans count_onResponse

theorem count_requests_le : d.count ≤ (d.requests cfg).count := by
  simp only [requests, onRequest]
  split_ifs <;> simp only <;> omega

theorem Between.inactive (hb : Between kind d) (ha : ¬ Active cfg d) :
    Between kind (ImuDevice.cycle f kind cfg d c).1 ∧ (ImuDevice.cycle f kind cfg d c).2 = [] := by
  have hle : d.count ≤ (d.requests cfg).count := count_requests_le
  have hcount : ¬ initTimes ≤ (d.requests cfg).count := ha
  have hdown : (d.requests cfg).readyMsg = (false, false) :=
    (imu_requests cfg d).2.trans (hb.activating (by omega))
  have hout : ImuDevice.cycle f kind cfg d c = (d.requests cfg, []) :=
    responses_eq (onResponse_inactive hcount hdown) (onResponse_inactive hcount hdown)
  rw [hout]
  exact ⟨⟨fun _ => hdown, fun _ => by rw [hdown]⟩, rfl⟩

theorem Between.cycle (hb : Between kind d)
    (hu : Active cfg d → Undisturbed kind cfg d.readyMsg c) :
    Between kind (ImuDevice.cycle f kind cfg d c).1 ∧
      ∀ data ∈ (ImuDevice.cycle f kind cfg d c).2, Paired f kind cfg d.imu c data := by
  by_cases ha : Active cfg d
  · obtain ⟨himu, hflags⟩ := imu_requests cfg d
    have hundisturbed := hu ha
    rw [← hflags] at hundisturbed
    have hcount : initTimes ≤ (ImuDevice.cycle f kind cfg d c).1.count :=
      ha.trans_eq count_responses.symm
    have hactivated : (ImuDevice.cycle f kind cfg d c).1.count < initTimes →
        (ImuDevice.cycle f kind cfg d c).1.readyMsg = (false, false) :=
      fun hlt => absurd hcount (Nat.not_le.mpr hlt)
    rw [← himu]
    cases kind with
    | rmImu =>
      obtain ⟨hfirst, hpaired⟩ := responses_rm (f := f) ha (hflags ▸ hb.first rfl) hundisturbed
      exact ⟨⟨hactivated, fun _ => hfirst⟩, hpaired⟩
    | xsensHR => exact ⟨⟨hactivated, nofun⟩, responses_hr ha hundisturbed⟩
  · obtain ⟨hnext, hout⟩ := hb.inactive (f := f) (c := c) ha
    rw [hout]
    exact ⟨hnext, nofun⟩

theorem undisturbed_of_paired (hrec : Recognised kind cfg)
    (hp : ∀ data ∈ (ImuDevice.cycle f kind cfg d c).2, Paired f kind cfg d.imu c data)
    (ha : Active cfg d) : Undisturbed kind cfg d.readyMsg c := by
  obtain ⟨himu, hflags⟩ := imu_requests cfg d
  rw [← himu] at hp
  rw [← hflags]
  cases kind with
  | rmImu => exact undisturbed_rm ha hrec hp
  | xsensHR => exact undisturbed_hr ha hp

end

/-- What the two sensors publish, from the constructor on, is computed from the
two frames of the cycle when no cycle is disturbed, and, of frames that are
known, only then. -/
theorem filtered_samples_paired (filters : F) (av la : Vector ℚ 3) (cycles : List ImuCycle) :
    (Mealy.Along (ImuDevice.cycle f kind cfg)
        (fun d c => Active cfg d → Undisturbed kind cfg d.readyMsg c) (create filters av la) cycles →
      AllPaired f kind cfg (create filters av la) cycles) ∧
    (Recognised kind cfg → AllPaired f kind cfg (create filters av la) cycles →
      Mealy.Along (ImuDevice.cycle f kind cfg)
        (fun d c => Active cfg d → Undisturbed kind cfg d.readyMsg c)
        (create filters av la) cycles) := by
  have hstart : Between kind (create filters av la) := ⟨fun _ => rfl, fun _ => rfl⟩
  refine ⟨fun hu => hu.imp hstart fun d c hb hu => hb.cycle hu, fun hrec hp => ?_⟩
  refine hp.imp hstart fun d c hb hp => ?_
  have hu := undisturbed_of_paired hrec hp
  exact ⟨(hb.cycle (f := f) hu).1, hu⟩

def passThrough : ImuFilters (Vector ℚ 3 × Vector ℚ 3) :=
  ⟨fun _ _ gyro accel => (gyro, accel), fun _ => .replicate 4 0, Prod.fst, Prod.snd,
    fun _ => .replicate 3 0⟩

def onIds56 : ImuConfig := ⟨5, 5, 6, 6, by decide, by decide⟩

def passThroughDevice : ImuDevice (Vector ℚ 3 × Vector ℚ 3) :=
  create (.replicate 3 0, .replicate 3 0) (.replicate 3 0) (.replicate 3 0)

/-- The cycles without frames in which the requests of the activation are sent. -/
def silence : List ImuCycle := .replicate 50 ⟨none, none, 0, 0⟩

theorem filtered_samples_paired_after_activation :
    let cycles := silence ++ [⟨some .zero, none, 1, 2⟩, ⟨some .zero, some .zero, 3, 4⟩]
    (Mealy.emitted (ImuDevice.cycle passThrough .rmImu onIds56) passThroughDevice cycles).length = 1 ∧
      AllPaired passThrough .rmImu onIds56 passThroughDevice cycles :=
  ⟨by decide +kernel,
    (filtered_samples_paired passThrough .rmImu onIds56 _ _ _ _).1 (by decide +kernel)⟩

/-- An acceleration without its gyro, then a whole cycle; and, for the Xsens
class, a gyro without its acceleration, then the other way round. -/
theorem not_filtered_samples_paired :
    ¬ AllPaired passThrough .rmImu onIds56 passThroughDevice
      (silence ++ [⟨none, some .zero, 1, 2⟩, ⟨some .zero, some .zero, 3, 4⟩]) ∧
    ¬ AllPaired passThrough .xsensHR onIds56 passThroughDevice
      (silence ++ [⟨some .zero, none, 1, 2⟩, ⟨none, some .zero, 3, 4⟩]) :=
  ⟨by decide +kernel, by decide +kernel⟩

end TienKung
