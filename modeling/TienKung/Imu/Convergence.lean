import TienKung.Imu.Orientation
import TienKung.Lib.Decay

/-!
# What the filter converges to

A correction by the acceleration leaves a part of the tilt, of how far gravity
is predicted from upright, that depends on the gain alone. So at rest, where the
gyro measures its bias, the tilt dies out whatever the time between samples.

A gyro that measures one value has its offset learnt at the rate of the bias
gain if the estimate is near it, and never if not; and no bias ever leaves the
range of what the gyro has measured.
-/

namespace TienKung

open Rotations Quaternion

variable {K : Type*} [Field K] [LinearOrder K]

def FilterCall.gyro : FilterCall K → Option (Vec K)
  | .update _ w _ | .updateMag _ w _ _ => some w
  | _ => none

namespace ComplementaryFilter

section
variable {K : Type*} [Field K]

theorem sub_follow (α b w : K) : w - follow α b w = (1 - α) * (w - b) := by
  unfold follow
  ring

end

section
variable [IsStrictOrderedRing K]

/-- The most that is left of a tilt after a correction with gain `γ`. -/
def remaining (γ : K) : K := (1 - γ) * (1 - γ) / ((1 - γ) * (1 - γ) + γ * γ)

theorem remaining_nonneg (γ : K) : 0 ≤ remaining γ :=
  div_nonneg (mul_self_nonneg _) (lerp_weights_pos γ).le

theorem remaining_le_one (γ : K) : remaining γ ≤ 1 :=
  (div_le_one (lerp_weights_pos γ)).mpr (le_add_of_nonneg_right (mul_self_nonneg γ))

theorem remaining_lt_one {γ : K} (hγ : 0 < γ) : remaining γ < 1 := by
  rw [remaining, div_lt_one (lerp_weights_pos γ)]
  exact lt_add_of_pos_right _ (mul_self_pos.mpr hγ.ne')

end

/-- How far the filter has the acceleration from upright. -/
def accTilt (m : Cmath K) (a : Vec K) (f : ComplementaryFilter K) : K :=
  tilt (predictedGravity m a f.q)

section
variable {m : Cmath K} {f : ComplementaryFilter K} {a : Vec K} [IsStrictOrderedRing K]

theorem accTilt_nonneg (hm : m.Sound) (ha : a.normSq ≠ 0) (hf : Oriented f) :
    0 ≤ accTilt m a f := by
  have hunit := normSq_predictedGravity hm ha hf.unit
  exact sub_nonneg.mpr (z_bounds hunit).2

-- ---------------------------------------------------------------------------
-- Tilt
-- ---------------------------------------------------------------------------

/-- A correction takes the tilt back by what the gain says, exactly. -/
theorem tilt_correctAcc (hm : m.Sound) (hf : Oriented f) (ha : a.normSq ≠ 0) {p : ℍ[K]}
    (hp : normSq p = 1) (hz : (predictedGravity m a p).z ≠ -1) :
    tilt (predictedGravity m a (normalizeQuaternion m (f.correctAcc m a p))) =
      (1 - f.accGain m a) * (1 - f.accGain m a) * tilt (predictedGravity m a p) /
        normSq (lerp (f.accGain m a) (getAccCorrection m a p)) := by
  obtain ⟨hunit, hup, hre⟩ := getAccCorrection_spec hm ha hp hz
  have hgain := accGain_bounds (m := m) hf.gainAcc a
  have hcorrect := normSq_correctAcc hm hf ha hp hz
  rw [normalizeQuaternion_of_unit hm hcorrect]
  set γ := f.accGain m a
  set dq := getAccCorrection m a p
  have hpos : 0 < normSq (lerp γ dq) :=
    (lerp_weights_pos γ).trans_le (le_normSq_lerp hunit hre.le hgain.1 hgain.2)
  have hsq := hm.sqrt_mul_sqrt hpos.le
  have hgravity : predictedGravity m a (f.correctAcc m a p) =
      (rotate (star (lerp γ dq)) (predictedGravity m a p)).scale (normSq (lerp γ dq))⁻¹ := by
    rw [correctAcc, quaternionMultiplication_eq, scaleQuaternion_eq hre.le, normalizeQuaternion_eq,
      predictedGravity, rotateVectorByQuaternion_eq, invertQuaternion_eq, star_mul, rotate_mul,
      Quaternion.star_smul, rotate_smul, ← mul_inv, hsq, predictedGravity,
      rotateVectorByQuaternion_eq, invertQuaternion_eq]
  have hleft := tilt_lerp hunit hup γ
  rw [tilt, hgravity, Vec.scale, hleft]
  field_simp
  ring

theorem tilt_correctAcc_le (hm : m.Sound) (hf : Oriented f) (ha : a.normSq ≠ 0) {p : ℍ[K]}
    (hp : normSq p = 1) (hz : (predictedGravity m a p).z ≠ -1) 
    (hnonneg : 0 ≤ tilt (predictedGravity m a p)) :
    tilt (predictedGravity m a (normalizeQuaternion m (f.correctAcc m a p))) ≤
      remaining (f.accGain m a) * tilt (predictedGravity m a p) := by
  obtain ⟨hunit, -, hre⟩ := getAccCorrection_spec hm ha hp hz
  have hgain := accGain_bounds (m := m) hf.gainAcc a
  rw [tilt_correctAcc hm hf ha hp hz, remaining, div_mul_eq_mul_div]
  exact div_le_div_of_nonneg_left (mul_nonneg (mul_self_nonneg _) hnonneg) (lerp_weights_pos _)
    (le_normSq_lerp hunit hre.le hgain.1 hgain.2)

/-- What stays as it is at rest. -/
structure Still (m : Cmath K) (a w : Vec K) (γ : K) (f : ComplementaryFilter K) : Prop where
  oriented : Oriented f
  initialized : f.initialized = true
  bias : f.wBias = w
  gain : f.accGain m a = γ
  notDown : (predictedGravity m a f.q).z ≠ -1

theorem still_update (hm : m.Sound) (ha : a.normSq ≠ 0) (hf : Still m a w γ f) (dt : K) :
    Still m a w γ (f.update m a w dt) ∧
      accTilt m a (f.update m a w dt) ≤ remaining γ * accTilt m a f := by
  obtain ⟨hf, hinit, hw, hgain, hz⟩ := hf
  obtain ⟨steady, prev, heq⟩ := estimateBiases_of_still (m := m) f a hw
  have hstill : (f.estimateBiases m a w).getPrediction m w dt = f.q := by
    rw [heq]
    exact getPrediction_of_still hm ⟨hf.unit, hf.gainAcc, hf.gainMag, hf.biasAlpha⟩ hw dt
  have hupdate : f.update m a w dt =
      { f with
        steadyState := steady, wPrev := prev
        q := normalizeQuaternion m (f.correctAcc m a f.q) } := by
    refine (if_pos hinit).trans ?_
    simp only [hstill]
    rw [heq]
    rfl
  have htilt : accTilt m a (f.update m a w dt) ≤ remaining γ * accTilt m a f := by
    rw [hupdate, ← hgain]
    exact tilt_correctAcc_le hm hf ha hf.unit hz (accTilt_nonneg hm ha hf)
  have hdefined : Defined m f (.update a w dt) := ⟨ha, fun _ => by
    rw [hstill]
    exact hz⟩
  refine ⟨⟨oriented_update hm hf hdefined, ?_, ?_, ?_, fun hdown => ?_⟩, htilt⟩
  · rw [hupdate]
    exact hinit
  · rw [hupdate]
    exact hw
  · rw [hupdate]
    exact hgain
  · have hbelow : -1 < (predictedGravity m a f.q).z :=
      lt_of_le_of_ne (z_bounds (normSq_predictedGravity hm ha hf.unit)).1 (Ne.symm hz)
    have hless : remaining γ * accTilt m a f ≤ accTilt m a f :=
      mul_le_of_le_one_left (accTilt_nonneg hm ha hf) (remaining_le_one γ)
    unfold accTilt tilt at htilt hless
    linarith

/-- At rest the tilt dies out, however the samples are spaced. -/
theorem tilt_at_rest (hm : m.Sound) (ha : a.normSq ≠ 0) {w : Vec K} (hf : Still m a w γ f)
    (dts : List K) :
    Still m a w γ (Mealy.final (step m) f (dts.map (.update a w))) ∧
    accTilt m a (Mealy.final (step m) f (dts.map (.update a w))) ≤
      remaining γ ^ dts.length * accTilt m a f := by
  have hstep : ∀ g call, Still m a w γ g → (∃ dt, call = .update a w dt) →
      Still m a w γ (step m g call).1 ∧
        accTilt m a (step m g call).1 ≤ remaining γ * accTilt m a g := by
    rintro g _ hg ⟨dt, rfl⟩
    exact still_update hm ha hg dt
  have halong : Mealy.Along (step m) (fun _ call => ∃ dt, call = .update a w dt) f
      (dts.map (.update a w)) := by
    refine Mealy.along_of_forall fun call hcall _ => ?_
    obtain ⟨dt, -, rfl⟩ := List.mem_map.mp hcall
    exact ⟨dt, rfl⟩
  refine ⟨halong.final hf fun g call hg hc => (hstep g call hg hc).1, ?_⟩
  have hdecay := halong.decay (remaining_nonneg γ) hf hstep
  rwa [List.length_map] at hdecay

/-- What is left of the tilt, and that in the end it is nothing. -/
theorem tilt_vanishes [Archimedean K] (hm : m.Sound) (ha : a.normSq ≠ 0) {w : Vec K}
    (hf : Still m a w γ f) (hγ : 0 < γ) :
    let left (dts : List K) := accTilt m a (Mealy.final (step m) f (dts.map (.update a w)))
    remaining γ < 1 ∧ (∀ dts, left dts ≤ remaining γ ^ dts.length * accTilt m a f) ∧
      ∀ ε > 0, ∃ n, ∀ dts, n ≤ dts.length → left dts < ε := by
  intro left
  have hleft (dts : List K) : left dts ≤ remaining γ ^ dts.length * accTilt m a f :=
    (tilt_at_rest hm ha hf dts).2
  refine ⟨remaining_lt_one hγ, hleft, fun ε hε => ?_⟩
  obtain ⟨n, hn⟩ := Mealy.exists_pow_mul_lt (remaining_nonneg γ) (remaining_lt_one hγ)
    (accTilt m a f) hε
  exact ⟨n, fun dts hlen => (hleft dts).trans_lt (hn dts.length hlen)⟩

theorem still_of_level : Still Cmath.real (⟨1, 0, 0⟩ : Vec ℝ) ⟨0, 0, 0⟩ (1 / 100)
    { (new : ComplementaryFilter ℝ) with initialized := true } := by
  have hnew : Oriented (new : ComplementaryFilter ℝ) := oriented_new
  refine ⟨⟨hnew.unit, hnew.gainAcc, hnew.gainMag, hnew.biasAlpha⟩, rfl, rfl, rfl, ?_⟩
  have hz : (predictedGravity Cmath.real ⟨1, 0, 0⟩ ((spin 1 0 : ℍ[ℝ]))).z = 0 := by
    rw [predictedGravity, rotateVectorByQuaternion_eq, invertQuaternion_eq, rotate_def]
    simp [normalizeVector]
  show (predictedGravity Cmath.real ⟨1, 0, 0⟩ (spin 1 0 : ℍ[ℝ])).z ≠ -1
  rw [hz]
  norm_num

theorem tilt_vanishes_of_level :
    let left (dts : List ℝ) := accTilt Cmath.real ⟨1, 0, 0⟩
      (Mealy.final (step Cmath.real) { new with initialized := true }
        (dts.map (.update ⟨1, 0, 0⟩ ⟨0, 0, 0⟩)))
    ∃ n, ∀ dts, n ≤ dts.length → left dts < 1 / 1000 :=
  (tilt_vanishes Cmath.real_sound (by norm_num [Vec.normSq]) still_of_level (by norm_num)).2.2 _
    (by norm_num)

end

-- ---------------------------------------------------------------------------
-- Bias
-- ---------------------------------------------------------------------------

structure Near (r : K) (v w : Vec K) : Prop where
  x : |v.x - w.x| ≤ r
  y : |v.y - w.y| ≤ r
  z : |v.z - w.z| ≤ r

structure Within (lo hi v : Vec K) : Prop where
  x : lo.x ≤ v.x ∧ v.x ≤ hi.x
  y : lo.y ≤ v.y ∧ v.y ≤ hi.y
  z : lo.z ≤ v.z ∧ v.z ≤ hi.z

def AccSteady (m : Cmath K) (a : Vec K) : Prop :=
  |m.sqrt (a.x * a.x + a.y * a.y + a.z * a.z) - kGravity| ≤ kAccelerationThreshold

instance (m : Cmath K) (a : Vec K) : Decidable (AccSteady m a) :=
  inferInstanceAs (Decidable (_ ≤ _))

end ComplementaryFilter

def FilterCall.acc : FilterCall K → Option (Vec K)
  | .update a _ _ | .updateMag a _ _ _ => some a
  | _ => none

/-- A call with an acceleration that may be gravity alone. -/
def FilterCall.AccSteady (m : Cmath K) (call : FilterCall K) : Prop :=
  ∃ a ∈ call.acc, ComplementaryFilter.AccSteady m a

instance (m : Cmath K) (call : FilterCall K) : Decidable (call.AccSteady m) :=
  inferInstanceAs (Decidable (∃ a ∈ call.acc, ComplementaryFilter.AccSteady m a))

namespace ComplementaryFilter

/-- A gyro that measures `w` again and again, on a filter that estimates the bias with gain `α`. -/
structure Learning (w : Vec K) (α : K) (f : ComplementaryFilter K) : Prop where
  initialized : f.initialized = true
  doBiasEstimation : f.doBiasEstimation = true
  gain : f.biasAlpha = α
  prev : Near kDeltaAngularVelocityThreshold w f.wPrev

section
variable {m : Cmath K} {f : ComplementaryFilter K} {a : Vec K}

theorem checkState_of_learning {w : Vec K} {α : K} (hf : Learning w α f) :
    f.checkState m a w = true ↔ AccSteady m a ∧ Near kAngularVelocityThreshold w f.wBias := by
  have hprev : ¬(|w.x - f.wPrev.x| > kDeltaAngularVelocityThreshold ∨
      |w.y - f.wPrev.y| > kDeltaAngularVelocityThreshold ∨
      |w.z - f.wPrev.z| > kDeltaAngularVelocityThreshold) := by
    simp only [gt_iff_lt, not_or, not_lt]
    exact ⟨hf.prev.x, hf.prev.y, hf.prev.z⟩
  rw [checkState, if_neg hprev]
  split_ifs with hacc hbias
  · exact ⟨fun h => h.elim, fun h => absurd h.1 (not_le.mpr hacc)⟩
  · refine ⟨fun h => h.elim, fun h => ?_⟩
    rcases hbias with hx | hy | hz
    · exact absurd h.2.x (not_le.mpr hx)
    · exact absurd h.2.y (not_le.mpr hy)
    · exact absurd h.2.z (not_le.mpr hz)
  · simp only [gt_iff_lt, not_or, not_lt] at hbias
    exact ⟨fun _ => ⟨not_lt.mp hacc, hbias.1, hbias.2.1, hbias.2.2⟩, fun _ => rfl⟩

theorem step_of_learning {w : Vec K} {α : K} (hf : Learning w α f) {call : FilterCall K}
    (hcall : call.gyro = some w) :
    ∃ a q, call.acc = some a ∧ (step m f call).1 = { f.updateBiases m a w with q } := by
  cases call with
  | update a w dt =>
    obtain rfl := Option.some_inj.mp hcall
    rw [step, update, if_pos hf.initialized, estimateBiases, if_pos hf.doBiasEstimation]
    exact ⟨a, _, rfl, rfl⟩
  | updateMag a w mag dt =>
    obtain rfl := Option.some_inj.mp hcall
    rw [step, updateMag, if_pos hf.initialized, estimateBiases, if_pos hf.doBiasEstimation]
    exact ⟨a, _, rfl, rfl⟩
  | _ => cases hcall

theorem wBias_step_of_learning {w : Vec K} {α : K} (hf : Learning w α f) {call : FilterCall K}
    (hcall : call.gyro = some w) (hnear : Near kAngularVelocityThreshold w f.wBias) :
    (step m f call).1.wBias = if call.AccSteady m then
      ⟨follow α f.wBias.x w.x, follow α f.wBias.y w.y, follow α f.wBias.z w.z⟩ else f.wBias := by
  obtain ⟨a, q, hacc, hstep⟩ := step_of_learning (m := m) hf hcall
  have hsteady : f.checkState m a w = true ↔ call.AccSteady m := by
    rw [checkState_of_learning hf, FilterCall.AccSteady, hacc]
    simp [hnear]
  rw [hstep, updateBiases]
  simp only [hsteady, hf.gain]

theorem wBias_step_of_far {w : Vec K} {α : K} (hf : Learning w α f) {call : FilterCall K}
    (hcall : call.gyro = some w) (hfar : ¬ Near kAngularVelocityThreshold w f.wBias) :
    (step m f call).1.wBias = f.wBias := by
  obtain ⟨a, q, -, hstep⟩ := step_of_learning (m := m) hf hcall
  rw [hstep, updateBiases]
  exact if_neg fun hsteady => hfar ((checkState_of_learning hf).mp hsteady).2

variable [IsStrictOrderedRing K]

theorem follow_within {α lo hi b w : K} (hα : 0 ≤ α ∧ α ≤ 1) (hb : lo ≤ b ∧ b ≤ hi)
    (hw : lo ≤ w ∧ w ≤ hi) : lo ≤ follow α b w ∧ follow α b w ≤ hi := by
  have heq : follow α b w = (1 - α) * b + α * w := by
    unfold follow
    ring
  rw [heq]
  constructor
  · nlinarith [mul_nonneg (sub_nonneg.mpr hα.2) (sub_nonneg.mpr hb.1),
      mul_nonneg hα.1 (sub_nonneg.mpr hw.1)]
  · nlinarith [mul_nonneg (sub_nonneg.mpr hα.2) (sub_nonneg.mpr hb.2),
      mul_nonneg hα.1 (sub_nonneg.mpr hw.2)]

structure BiasWithin (lo hi : Vec K) (f : ComplementaryFilter K) : Prop where
  biasAlpha : 0 ≤ f.biasAlpha ∧ f.biasAlpha ≤ 1
  bias : Within lo hi f.wBias

theorem BiasWithin.estimateBiases {lo hi w : Vec K} (hf : BiasWithin lo hi f) (hw : Within lo hi w)
    (a : Vec K) : BiasWithin lo hi (f.estimateBiases m a w) := by
  obtain ⟨hα, hx, hy, hz⟩ := hf
  unfold ComplementaryFilter.estimateBiases updateBiases
  split
  · refine ⟨hα, ?_⟩
    dsimp only
    split
    · exact ⟨follow_within hα hx hw.x, follow_within hα hy hw.y, follow_within hα hz hw.z⟩
    · exact ⟨hx, hy, hz⟩
  · exact ⟨hα, hx, hy, hz⟩

theorem biasWithin_step {lo hi : Vec K} (hzero : Within lo hi ⟨0, 0, 0⟩)
    (hf : BiasWithin lo hi f) {call : FilterCall K} (hw : ∀ w ∈ call.gyro, Within lo hi w) :
    BiasWithin lo hi (step m f call).1 := by
  obtain ⟨hα, hbias⟩ := hf
  cases call with
  | setDoBiasEstimation value => exact ⟨hα, hbias⟩
  | setDoAdaptiveGain value => exact ⟨hα, hbias⟩
  | setGainAcc gain =>
    simp only [step, setGainAcc]
    split <;> exact ⟨hα, hbias⟩
  | setGainMag gain =>
    simp only [step, setGainMag]
    split <;> exact ⟨hα, hbias⟩
  | setBiasAlpha biasAlpha =>
    simp only [step, setBiasAlpha]
    split
    case isTrue hα' => exact ⟨hα', hbias⟩
    case isFalse => exact ⟨hα, hbias⟩
  | setOrientation q => exact ⟨hα, hbias⟩
  | update a w dt =>
    have hf' := BiasWithin.estimateBiases (m := m) ⟨hα, hbias⟩ (hw w rfl) a
    simp only [step, update]
    split
    · exact ⟨hf'.biasAlpha, hf'.bias⟩
    · exact ⟨hα, hbias⟩
  | updateMag a w mag dt =>
    have hf' := BiasWithin.estimateBiases (m := m) ⟨hα, hbias⟩ (hw w rfl) a
    simp only [step, updateMag]
    split
    · exact ⟨hf'.biasAlpha, hf'.bias⟩
    · exact ⟨hα, hbias⟩
  | reset => exact ⟨hα, hzero⟩

/-- The bias stays within the range of what the gyro has measured, and zero. -/
theorem bias_within {lo hi : Vec K} (hzero : Within lo hi ⟨0, 0, 0⟩) {calls : List (FilterCall K)}
    (hw : ∀ call ∈ calls, ∀ w ∈ call.gyro, Within lo hi w) :
    Within lo hi (Mealy.final (step m) new calls).wBias := by
  have halong : Mealy.Along (step m) (fun _ call => ∀ w ∈ call.gyro, Within lo hi w) new calls :=
    Mealy.along_of_forall fun call hcall _ => hw call hcall
  have hnew : BiasWithin lo hi (new : ComplementaryFilter K) := ⟨by norm_num [new], hzero⟩
  exact (halong.final hnew fun f call hf hcall => biasWithin_step hzero hf hcall).bias

theorem abs_sub_follow_le {α b w r : K} (hα : 0 ≤ α ∧ α ≤ 1) (h : |w - b| ≤ r) :
    |w - follow α b w| ≤ r := by
  rw [sub_follow, abs_mul, abs_of_nonneg (sub_nonneg.mpr hα.2)]
  exact (mul_le_of_le_one_left (abs_nonneg _) (sub_le_self 1 hα.1)).trans h

theorem learning_step {w : Vec K} {α : K} (hf : Learning w α f) {call : FilterCall K}
    (hcall : call.gyro = some w) : Learning w α (step m f call).1 := by
  obtain ⟨a, q, -, hstep⟩ := step_of_learning (m := m) hf hcall
  have hself : ∀ c : K, |c - c| ≤ kDeltaAngularVelocityThreshold := fun c => by
    rw [sub_self, abs_zero]
    norm_num [kDeltaAngularVelocityThreshold]
  rw [hstep]
  exact ⟨hf.initialized, hf.doBiasEstimation, hf.gain, hself w.x, hself w.y, hself w.z⟩

theorem near_step {w : Vec K} {α : K} (hα : 0 ≤ α ∧ α ≤ 1) (hf : Learning w α f)
    {call : FilterCall K} (hcall : call.gyro = some w)
    (hnear : Near kAngularVelocityThreshold w f.wBias) :
    Near kAngularVelocityThreshold w (step m f call).1.wBias := by
  rw [wBias_step_of_learning hf hcall hnear]
  split
  · exact ⟨abs_sub_follow_le hα hnear.x, abs_sub_follow_le hα hnear.y,
      abs_sub_follow_le hα hnear.z⟩
  · exact hnear

/-- The bias after calls in which the gyro measures `w`: an estimate near `w` goes to it with each
sample whose acceleration is steady, and another one stays for ever. -/
theorem bias_learnt {w : Vec K} {α : K} (hα : 0 ≤ α ∧ α ≤ 1) (hf : Learning w α f)
    {calls : List (FilterCall K)} (hcalls : ∀ call ∈ calls, call.gyro = some w) :
    let bias := (Mealy.final (step m) f calls).wBias
    let n := calls.countP (·.AccSteady m)
    (Near kAngularVelocityThreshold w f.wBias →
      w.x - bias.x = (1 - α) ^ n * (w.x - f.wBias.x) ∧
      w.y - bias.y = (1 - α) ^ n * (w.y - f.wBias.y) ∧
      w.z - bias.z = (1 - α) ^ n * (w.z - f.wBias.z)) ∧
    (¬ Near kAngularVelocityThreshold w f.wBias → bias = f.wBias) := by
  intro bias n
  have halong : Mealy.Along (step m) (fun _ call => call.gyro = some w) f calls :=
    Mealy.along_of_forall fun call hcall _ => hcalls call hcall
  refine ⟨fun hnear => ?_, fun hfar => ?_⟩
  · have haxis : ∀ axis : Vec K → K,
        (∀ g, Learning w α g → axis w - axis ⟨follow α g.wBias.x w.x, follow α g.wBias.y w.y,
          follow α g.wBias.z w.z⟩ = (1 - α) * (axis w - axis g.wBias)) →
        axis w - axis bias = (1 - α) ^ n * (axis w - axis f.wBias) := by
      intro axis hfollow
      refine halong.scaled (P := fun g => Learning w α g ∧ Near kAngularVelocityThreshold w g.wBias)
        (f := fun g : ComplementaryFilter K => axis w - axis g.wBias) (·.AccSteady m) ⟨hf, hnear⟩
        fun g call hg hcall => ⟨⟨learning_step hg.1 hcall, near_step hα hg.1 hcall hg.2⟩, ?_⟩
      rw [wBias_step_of_learning hg.1 hcall hg.2, apply_ite axis, ← hfollow g hg.1]
      split <;> rfl
    exact ⟨haxis Vec.x fun g _ => sub_follow α g.wBias.x w.x,
      haxis Vec.y fun g _ => sub_follow α g.wBias.y w.y,
      haxis Vec.z fun g _ => sub_follow α g.wBias.z w.z⟩
  · have hkept := halong.final (P := fun g => Learning w α g ∧ g.wBias = f.wBias) ⟨hf, rfl⟩
      fun g call hg hcall => ⟨learning_step hg.1 hcall,
        (wBias_step_of_far hg.1 hcall (hg.2 ▸ hfar)).trans hg.2⟩
    exact hkept.2

theorem bias_learnt_of_steady :
    let calls : List (FilterCall ℝ) := [.update ⟨0, 0, 981 / 100⟩ ⟨1 / 100, 0, 0⟩ (1 / 100),
      .update ⟨0, 0, 11⟩ ⟨1 / 100, 0, 0⟩ (1 / 100),
      .update ⟨0, 0, 981 / 100⟩ ⟨1 / 100, 0, 0⟩ (1 / 100)]
    let bias := (Mealy.final (step Cmath.real) { new with initialized := true } calls).wBias
    1 / 100 - bias.x = (1 - 1 / 100) ^ 2 * (1 / 100 - 0) := by
  intro calls bias
  have hsqrt : ∀ g : ℝ, 0 ≤ g → Real.sqrt (0 * 0 + 0 * 0 + g * g) = g := fun g hg => by
    rw [zero_mul, zero_add, zero_add, Real.sqrt_mul_self hg]
  have hsteady : AccSteady Cmath.real ⟨0, 0, 981 / 100⟩ := by
    show |Real.sqrt (0 * 0 + 0 * 0 + 981 / 100 * (981 / 100)) - kGravity| ≤ kAccelerationThreshold
    rw [hsqrt _ (by norm_num)]
    norm_num [kGravity, kAccelerationThreshold]
  have hpushed : ¬ AccSteady Cmath.real ⟨0, 0, 11⟩ := by
    show ¬ |Real.sqrt (0 * 0 + 0 * 0 + 11 * 11) - kGravity| ≤ kAccelerationThreshold
    rw [hsqrt _ (by norm_num)]
    norm_num [kGravity, kAccelerationThreshold, abs_of_pos]
  have hcount : calls.countP (·.AccSteady Cmath.real) = 2 := by
    simp [calls, FilterCall.AccSteady, FilterCall.acc, hsteady, hpushed]
  have hlearning : Learning (⟨1 / 100, 0, 0⟩ : Vec ℝ) (1 / 100)
      { (new : ComplementaryFilter ℝ) with initialized := true } := by
    refine ⟨rfl, rfl, rfl, ⟨?_, ?_, ?_⟩⟩ <;>
      norm_num [new, kDeltaAngularVelocityThreshold, abs_of_pos]
  have hnear : Near kAngularVelocityThreshold (⟨1 / 100, 0, 0⟩ : Vec ℝ) ⟨0, 0, 0⟩ := by
    refine ⟨?_, ?_, ?_⟩ <;> norm_num [kAngularVelocityThreshold, abs_of_pos]
  have hgyro : ∀ call ∈ calls, call.gyro = some ⟨1 / 100, 0, 0⟩ := by
    simp [calls, FilterCall.gyro]
  have hlearnt := ((bias_learnt (m := Cmath.real) (by norm_num) hlearning hgyro).1 hnear).1
  rwa [hcount] at hlearnt

end

end ComplementaryFilter

end TienKung
