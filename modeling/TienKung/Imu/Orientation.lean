import TienKung.Imu.ComplementaryFilter
import Mathlib.Analysis.SpecialFunctions.Trigonometric.Inverse

/-!
# The orientation of the filter

However it is set up and whatever it measures, a filter holds a quaternion of
length one. The first sample makes it one that has the measured acceleration
upright, and a magnetic field to the north.

A call is defined if it does not divide by zero: the acceleration is not zero,
what gravity is predicted to be is not upside down, and a magnetic field has a
horizontal part that does not point south. What is said here is about exact
arithmetic, with square roots that are exact.
-/

namespace TienKung

open Rotations Quaternion

variable {K : Type*} [Field K] [LinearOrder K]

structure Cmath.Sound (m : Cmath K) : Prop where
  sqrt_nonneg : 0 ≤ x → 0 ≤ m.sqrt x
  sqrt_mul_sqrt : 0 ≤ x → m.sqrt x * m.sqrt x = x

noncomputable def Cmath.real : Cmath ℝ := ⟨Real.sqrt, Real.arccos, Real.sin, Real.tan⟩

theorem Cmath.real_sound : Cmath.real.Sound :=
  ⟨fun _ => Real.sqrt_nonneg _, fun h => Real.mul_self_sqrt h⟩

namespace ComplementaryFilter

def HasNorth (m : Cmath K) (l : Vec K) : Prop := m.sqrt (l.x * l.x + l.y * l.y) + l.x ≠ 0

/-- The calls whose divisions are all by something else than zero; an orientation that is set is
of length one. -/
def Defined (m : Cmath K) (f : ComplementaryFilter K) : FilterCall K → Prop
  | .setOrientation q => normSq q = 1
  | .update a w dt => a.normSq ≠ 0 ∧
      (f.initialized → (predictedGravity m a ((f.estimateBiases m a w).getPrediction m w dt)).z ≠ -1)
  | .updateMag a w mag dt =>
    let f' := f.estimateBiases m a w
    let p := f'.getPrediction m w dt
    a.normSq ≠ 0 ∧
      (f.initialized → (predictedGravity m a p).z ≠ -1 ∧
        HasNorth m (rotateVectorByQuaternion mag (invertQuaternion (f'.correctAcc m a p)))) ∧
      (f.initialized = false → HasNorth m (horizontalField (getMeasurement m a) mag))
  | _ => True

/-- What every filter has. -/
structure Oriented (f : ComplementaryFilter K) : Prop where
  unit : normSq f.q = 1
  gainAcc : 0 ≤ f.gainAcc ∧ f.gainAcc ≤ 1
  gainMag : 0 ≤ f.gainMag ∧ f.gainMag ≤ 1
  biasAlpha : 0 ≤ f.biasAlpha ∧ f.biasAlpha ≤ 1

end ComplementaryFilter

-- ---------------------------------------------------------------------------
-- Vectors and quaternions
-- ---------------------------------------------------------------------------

section
variable {K : Type*} [Field K] {m : Cmath K}

theorem quaternionMultiplication_eq (p q : ℍ[K]) : quaternionMultiplication p q = p * q := by
  refine QuaternionAlgebra.ext ?_ ?_ ?_ ?_
  · exact (Quaternion.re_mul p q).symm
  · exact (Quaternion.imI_mul p q).symm
  · exact (Quaternion.imJ_mul p q).symm
  · exact (Quaternion.imK_mul p q).symm

theorem rotateVectorByQuaternion_eq (v : Vec K) (q : ℍ[K]) :
    rotateVectorByQuaternion v q = rotate q v := (rotate_def q v).symm

theorem invertQuaternion_eq (q : ℍ[K]) : invertQuaternion q = star q := by
  refine QuaternionAlgebra.ext ?_ ?_ ?_ ?_
  · exact (Quaternion.re_star q).symm
  · exact (Quaternion.imI_star q).symm
  · exact (Quaternion.imJ_star q).symm
  · exact (Quaternion.imK_star q).symm

theorem normalizeQuaternion_eq (q : ℍ[K]) :
    normalizeQuaternion m q = (m.sqrt (normSq q))⁻¹ • q := by
  have hnorm : q.re * q.re + q.imI * q.imI + q.imJ * q.imJ + q.imK * q.imK = normSq q := by
    rw [Quaternion.normSq_def']
    ring
  rw [normalizeQuaternion, hnorm]
  refine QuaternionAlgebra.ext ?_ ?_ ?_ ?_ <;> exact div_eq_inv_mul _ _

theorem normSq_identity : normSq (⟨1, 0, 0, 0⟩ : ℍ[K]) = 1 := by
  refine (normSq_spin 1 0).trans ?_
  norm_num

theorem normalizeVector_eq (v : Vec K) :
    normalizeVector m v = v.scale (m.sqrt v.normSq)⁻¹ := by
  simp only [normalizeVector, Vec.scale, Vec.normSq, div_eq_inv_mul]

end

section
variable {m : Cmath K}

theorem Cmath.Sound.sqrt_pos (hm : m.Sound) (hx : 0 < x) : 0 < m.sqrt x := by
  refine lt_of_le_of_ne (hm.sqrt_nonneg hx.le) fun hzero => ?_
  have hsq := hm.sqrt_mul_sqrt hx.le
  rw [← hzero, mul_zero] at hsq
  exact hx.ne hsq

variable [IsStrictOrderedRing K]

theorem Cmath.Sound.sqrt_eq (hm : m.Sound) (hy : 0 ≤ y) (hx : y * y = x) : m.sqrt x = y := by
  have hnonneg : 0 ≤ x := hx ▸ mul_self_nonneg y
  have hsq := hm.sqrt_mul_sqrt hnonneg
  exact (mul_self_inj (hm.sqrt_nonneg hnonneg) hy).mp (hsq.trans hx.symm)

theorem normSq_normalizeQuaternion (hm : m.Sound) {q : ℍ[K]} (hq : normSq q ≠ 0) :
    normSq (normalizeQuaternion m q) = 1 := by
  have hsq := hm.sqrt_mul_sqrt (Quaternion.normSq_nonneg (a := q))
  rw [normalizeQuaternion_eq, Quaternion.normSq_smul, inv_pow, sq, hsq, inv_mul_cancel₀ hq]

theorem normalizeQuaternion_of_unit (hm : m.Sound) {q : ℍ[K]} (hq : normSq q = 1) :
    normalizeQuaternion m q = q := by
  have hone : m.sqrt 1 = 1 := hm.sqrt_eq zero_le_one (mul_one 1)
  rw [normalizeQuaternion_eq, hq, hone, inv_one, one_smul]

theorem normSq_normalizeVector (hm : m.Sound) {v : Vec K} (hv : v.normSq ≠ 0) :
    (normalizeVector m v).normSq = 1 := by
  have hsq := hm.sqrt_mul_sqrt v.normSq_nonneg
  rw [normalizeVector_eq, Vec.normSq_scale, ← mul_inv, hsq, inv_mul_cancel₀ hv]

end

namespace ComplementaryFilter

section
variable {m : Cmath K} [IsStrictOrderedRing K] {f : ComplementaryFilter K}

-- ---------------------------------------------------------------------------
-- Updates
-- ---------------------------------------------------------------------------

theorem getPrediction_eq (f : ComplementaryFilter K) (w : Vec K) (dt : K) :
    f.getPrediction m w dt = normalizeQuaternion m ((1 + (f.turn w dt).toQuaternion) * f.q) := by
  refine congrArg (normalizeQuaternion m) (QuaternionAlgebra.ext ?_ ?_ ?_ ?_)
  · refine Eq.trans ?_ (Quaternion.re_mul _ _).symm
    simp [turn, Vec.scale]
    ring
  · refine Eq.trans ?_ (Quaternion.imI_mul _ _).symm
    simp [turn, Vec.scale]
    ring
  · refine Eq.trans ?_ (Quaternion.imJ_mul _ _).symm
    simp [turn, Vec.scale]
    ring
  · refine Eq.trans ?_ (Quaternion.imK_mul _ _).symm
    simp [turn, Vec.scale]
    ring

/-- The gyro turns the quaternion, and only lengthens it. -/
theorem normSq_getPrediction (hm : m.Sound) (hf : normSq f.q = 1) (w : Vec K) (dt : K) :
    normSq (f.getPrediction m w dt) = 1 := by
  have hlength : normSq ((1 + (f.turn w dt).toQuaternion) * f.q) = 1 + (f.turn w dt).normSq := by
    rw [map_mul, hf, mul_one, normSq_one_add]
  have hpos : 0 < 1 + (f.turn w dt).normSq := by
    have hnonneg := (f.turn w dt).normSq_nonneg
    linarith
  rw [getPrediction_eq]
  exact normSq_normalizeQuaternion hm (hlength ▸ hpos.ne')

theorem accGain_bounds (hgain : 0 ≤ f.gainAcc ∧ f.gainAcc ≤ 1) (a : Vec K) :
    0 ≤ f.accGain m a ∧ f.accGain m a ≤ 1 := by
  unfold accGain
  split
  · unfold getAdaptiveGain
    dsimp only
    generalize |m.sqrt (a.x * a.x + a.y * a.y + a.z * a.z) - kGravity| / kGravity = error
    set factor : K := if error < 1 / 10 then 1 else if error < 2 / 10 then
      1 / (1 / 10 - 2 / 10) * error + (1 - 1 / (1 / 10 - 2 / 10) * (1 / 10)) else 0 with hfactor
    have hbounds : 0 ≤ factor ∧ factor ≤ 1 := by
      have hslope : (1 / (1 / 10 - 2 / 10) : K) = -10 := by norm_num
      rw [hfactor, hslope]
      split_ifs with hlow hhigh
      · exact ⟨zero_le_one, le_rfl⟩
      · rw [not_lt] at hlow
        constructor <;> linarith
      · exact ⟨le_rfl, zero_le_one⟩
    exact ⟨mul_nonneg hbounds.1 hgain.1, mul_le_one₀ hbounds.2 hgain.1 hgain.2⟩
  · exact hgain

end

section
variable {m : Cmath K}

theorem scaleQuaternion_eq {dq : ℍ[K]} (hre : 0 ≤ dq.re) (γ : K) :
    scaleQuaternion m γ dq = normalizeQuaternion m (lerp γ dq) := by
  refine congrArg (normalizeQuaternion m) ((if_neg hre.not_gt).trans ?_)
  refine QuaternionAlgebra.ext ?_ ?_ ?_ ?_
  · simp [lerp]
  · simp [lerp]
  · simp [lerp]
  · simp [lerp]

end

section
variable {m : Cmath K} [IsStrictOrderedRing K] {f : ComplementaryFilter K}

theorem normSq_scaleQuaternion (hm : m.Sound) {dq : ℍ[K]} (hunit : normSq dq = 1)
    (hre : 0 ≤ dq.re) (hγ : 0 ≤ γ ∧ γ ≤ 1) : normSq (scaleQuaternion m γ dq) = 1 := by
  rw [scaleQuaternion_eq hre]
  have hpos := (lerp_weights_pos γ).trans_le (le_normSq_lerp hunit hre hγ.1 hγ.2)
  exact normSq_normalizeQuaternion hm hpos.ne'

-- ---------------------------------------------------------------------------
-- Corrections
-- ---------------------------------------------------------------------------

theorem normSq_predictedGravity (hm : m.Sound) {a : Vec K} (ha : a.normSq ≠ 0) {p : ℍ[K]}
    (hp : normSq p = 1) : (predictedGravity m a p).normSq = 1 := by
  rw [predictedGravity, rotateVectorByQuaternion_eq, invertQuaternion_eq,
    normSq_rotate_of_unit (by rw [Quaternion.normSq_star, hp]), normSq_normalizeVector hm ha]

theorem z_bounds {v : Vec K} (hv : v.normSq = 1) : -1 ≤ v.z ∧ v.z ≤ 1 := by
  have hz : v.z * v.z ≤ 1 := by
    rw [← hv, Vec.normSq]
    linarith [mul_self_nonneg v.x, mul_self_nonneg v.y]
  exact abs_le.mp (abs_le_one_iff_mul_self_le_one.mpr hz)

theorem halfCosine_pos (hm : m.Sound) {v : Vec K} (hz : -1 < v.z) : 0 < halfCosine m v :=
  hm.sqrt_pos (mul_pos (by linarith) (by norm_num))

theorem halfCosine_half (hm : m.Sound) {v : Vec K} (hz : -1 ≤ v.z) :
    2 * (halfCosine m v * halfCosine m v) = v.z + 1 := by
  rw [halfCosine, hm.sqrt_mul_sqrt (mul_nonneg (by linarith) (by norm_num))]
  ring

/-- A correction by the acceleration takes upright to where gravity was predicted. -/
theorem getAccCorrection_spec (hm : m.Sound) {a : Vec K} (ha : a.normSq ≠ 0) {p : ℍ[K]}
    (hp : normSq p = 1) (hz : (predictedGravity m a p).z ≠ -1) :
    normSq (getAccCorrection m a p) = 1 ∧
      rotate (getAccCorrection m a p) up = predictedGravity m a p ∧
      0 < (getAccCorrection m a p).re := by
  have hunit := normSq_predictedGravity hm ha hp
  have hlower := (z_bounds hunit).1
  have hpos := halfCosine_pos hm (lt_of_le_of_ne hlower hz.symm)
  have hhalf := halfCosine_half hm hlower
  have heq : getAccCorrection m a p =
      lift (halfCosine m (predictedGravity m a p)) (predictedGravity m a p) := (lift_eq _ _).symm
  rw [heq]
  exact ⟨normSq_lift hpos.ne' hhalf hunit, rotate_lift hpos.ne' hhalf hunit, hpos⟩

theorem HasNorth.pos (hm : m.Sound) {l : Vec K} (hl : HasNorth m l) :
    0 < m.sqrt (l.x * l.x + l.y * l.y) := by
  have hsides : 0 ≤ l.x * l.x + l.y * l.y := add_nonneg (mul_self_nonneg _) (mul_self_nonneg _)
  refine lt_of_le_of_ne (hm.sqrt_nonneg hsides) fun hzero => hl ?_
  have hsq := hm.sqrt_mul_sqrt hsides
  rw [← hzero, mul_zero] at hsq
  have hx : l.x = 0 := mul_self_eq_zero.mp (by linarith [mul_self_nonneg l.x, mul_self_nonneg l.y])
  rw [← hzero, hx, add_zero]

theorem northward_spec (hm : m.Sound) {l : Vec K} (hl : HasNorth m l) :
    normSq (northward m l) = 1 ∧ 0 ≤ (northward m l).re ∧
      rotate (northward m l) ⟨m.sqrt (l.x * l.x + l.y * l.y), 0, l.z⟩ = l := by
  obtain ⟨x, y, z⟩ := l
  have hsides : 0 ≤ x * x + y * y := add_nonneg (mul_self_nonneg x) (mul_self_nonneg y)
  set n := m.sqrt (x * x + y * y) with hn
  set t := m.sqrt 2 with ht
  set β := m.sqrt (x * x + y * y + x * n) with hβ
  have hnn : n * n = x * x + y * y := hm.sqrt_mul_sqrt hsides
  have htt : t * t = 2 := hm.sqrt_mul_sqrt zero_le_two
  have htpos : 0 < t := hm.sqrt_pos two_pos
  have hnonneg : 0 ≤ n := hm.sqrt_nonneg hsides
  have hbounds : -n ≤ x ∧ x ≤ n := by
    refine abs_le_of_sq_le_sq' ?_ hnonneg
    linarith [mul_self_nonneg y, sq x, sq n]
  have hsum : 0 < n + x := lt_of_le_of_ne (by linarith [hbounds.1]) (Ne.symm hl)
  have hpos : 0 < n := hl.pos hm
  have hbase : x * x + y * y + x * n = n * (n + x) := by
    rw [← hnn]
    ring
  have hββ : β * β = n * (n + x) := by
    rw [hβ, hbase, hm.sqrt_mul_sqrt (mul_pos hpos hsum).le]
  have hβpos : 0 < β := by
    rw [hβ, hbase]
    exact hm.sqrt_pos (mul_pos hpos hsum)
  have htwice : m.sqrt (2 * (x * x + y * y)) = t * n := by
    refine hm.sqrt_eq (mul_pos htpos hpos).le ?_
    rw [← hnn, mul_mul_mul_comm, htt]
  -- the squares of the two coefficients and their product are free of square roots
  have hre : 2 * n * (β / (t * n) * (β / (t * n))) = n + x := by
    field_simp
    rw [sq, sq, hββ, htt]
    ring
  have hk : 2 * n * (y / (t * β) * (y / (t * β))) = n - x := by
    field_simp
    rw [sq, sq, sq, hββ, htt]
    linear_combination (-2 * n) * hnn
  have hprod : 2 * n * (β / (t * n) * (y / (t * β))) = y := by
    field_simp
    rw [sq, htt]
  have hq : northward m ⟨x, y, z⟩ = spin (β / (t * n)) (y / (t * β)) := htwice ▸ rfl
  have hunit : β / (t * n) * (β / (t * n)) + y / (t * β) * (y / (t * β)) = 1 := by
    refine mul_left_cancel₀ (mul_pos two_pos hpos).ne' ?_
    linear_combination hre + hk
  rw [hq]
  refine ⟨(normSq_spin _ _).trans hunit, (div_pos hβpos (mul_pos htpos hpos)).le, ?_⟩
  rw [rotate_spin, Vec.mk.injEq]
  refine ⟨?_, ?_, ?_⟩
  · linear_combination 1 / 2 * hre - 1 / 2 * hk
  · linear_combination hprod
  · linear_combination z * hunit

end

-- ---------------------------------------------------------------------------
-- The first sample
-- ---------------------------------------------------------------------------

section
variable {m : Cmath K}

theorem getMeasurement_of_nonneg {a : Vec K} (hz : 0 ≤ (normalizeVector m a).z) :
    getMeasurement m a = lift (halfCosine m (normalizeVector m a)) (normalizeVector m a) :=
  (if_pos hz).trans (lift_eq _ _).symm

theorem getMeasurement_of_neg {a : Vec K} (hz : (normalizeVector m a).z < 0) :
    getMeasurement m a = lift (halfCosine m ((normalizeVector m a).scale (-1)))
      ((normalizeVector m a).scale (-1)) * halfTurn := by
  refine (if_neg hz.not_ge).trans ?_
  have hc : halfCosine m ((normalizeVector m a).scale (-1)) =
      m.sqrt ((1 - (normalizeVector m a).z) * (1 / 2)) := by
    rw [halfCosine, Vec.scale]
    congr 2
    ring
  rw [← hc]
  refine QuaternionAlgebra.ext ?_ ?_ ?_ ?_
  · refine Eq.trans ?_ (Quaternion.re_mul _ _).symm
    simp [Vec.scale, neg_div]
  · refine Eq.trans ?_ (Quaternion.imI_mul _ _).symm
    simp
  · refine Eq.trans ?_ (Quaternion.imJ_mul _ _).symm
    simp
  · refine Eq.trans ?_ (Quaternion.imK_mul _ _).symm
    simp [Vec.scale, neg_div]

/-- Where the acceleration is not upside down, the field is read in the frame of the measurement. -/
theorem horizontalField_eq {a : Vec K} (hz : 0 ≤ (normalizeVector m a).z) (mag : Vec K) :
    (rotate (star (getMeasurement m a)) mag).x = (horizontalField (getMeasurement m a) mag).x ∧
    (rotate (star (getMeasurement m a)) mag).y = (horizontalField (getMeasurement m a) mag).y := by
  rw [getMeasurement_of_nonneg hz, horizontalField, rotate_def]
  simp only [Quaternion.re_star, Quaternion.imI_star, Quaternion.imJ_star, Quaternion.imK_star,
    imK_lift]
  constructor <;> ring

end

section
variable {m : Cmath K} [IsStrictOrderedRing K] {f : ComplementaryFilter K}

theorem getMeasurement_spec (hm : m.Sound) {a : Vec K} (ha : a.normSq ≠ 0) :
    normSq (getMeasurement m a) = 1 ∧ rotate (getMeasurement m a) up = normalizeVector m a := by
  have hunit := normSq_normalizeVector hm ha
  by_cases hz : (normalizeVector m a).z ≥ 0
  · have hpos := halfCosine_pos hm (show -1 < (normalizeVector m a).z by linarith)
    have hhalf := halfCosine_half hm (show -1 ≤ (normalizeVector m a).z by linarith)
    rw [getMeasurement_of_nonneg hz]
    exact ⟨normSq_lift hpos.ne' hhalf hunit, rotate_lift hpos.ne' hhalf hunit⟩
  · rw [not_le] at hz
    set v := (normalizeVector m a).scale (-1) with hv
    have hvz : v.z = -(normalizeVector m a).z := neg_one_mul _
    have hvunit : v.normSq = 1 := by rw [hv, Vec.normSq_scale, hunit, neg_one_mul, neg_neg, one_mul]
    have hpos := halfCosine_pos hm (show -1 < v.z by linarith)
    have hhalf := halfCosine_half hm (show -1 ≤ v.z by linarith)
    rw [getMeasurement_of_neg hz, map_mul, normSq_halfTurn, mul_one, rotate_mul, rotate_halfTurn_up,
      rotate_scale, rotate_lift hpos.ne' hhalf hvunit]
    refine ⟨normSq_lift hpos.ne' hhalf hvunit, ?_⟩
    simp [hv, Vec.scale]

theorem getMeasurementMag_eq (a mag : Vec K) : getMeasurementMag m a mag =
    getMeasurement m a * northward m (horizontalField (getMeasurement m a) mag) :=
  quaternionMultiplication_eq _ _

theorem normSq_getMeasurementMag (hm : m.Sound) {a mag : Vec K} (ha : a.normSq ≠ 0)
    (hnorth : HasNorth m (horizontalField (getMeasurement m a) mag)) :
    normSq (getMeasurementMag m a mag) = 1 := by
  rw [getMeasurementMag_eq, map_mul, (getMeasurement_spec hm ha).1, (northward_spec hm hnorth).1,
    one_mul]

theorem rotate_northward_up (hm : m.Sound) {l : Vec K} (hl : HasNorth m l) :
    rotate (star (northward m l)) up = up := by
  have hunit : normSq (northward m l) = 1 := (northward_spec hm hl).1
  refine rotate_star_of_rotate hunit ?_
  rw [rotate_up, hunit]
  simp [northward, up]

theorem first_sample_upright (hm : m.Sound) {a : Vec K} (ha : a.normSq ≠ 0)
    (hf : f.initialized = false) (w : Vec K) (dt : K) :
    rotate (star (f.update m a w dt).q) (normalizeVector m a) = up := by
  obtain ⟨hunit, hup⟩ := getMeasurement_spec hm ha
  rw [update, hf]
  exact rotate_star_of_rotate hunit hup

theorem first_sample_north (hm : m.Sound) {a mag : Vec K} (ha : a.normSq ≠ 0)
    (hf : f.initialized = false) (hz : 0 ≤ a.z)
    (hnorth : HasNorth m (horizontalField (getMeasurement m a) mag)) (w : Vec K) (dt : K) :
    rotate (star (f.updateMag m a w mag dt).q) (normalizeVector m a) = up ∧
    0 < (rotate (star (f.updateMag m a w mag dt).q) mag).x ∧
    (rotate (star (f.updateMag m a w mag dt).q) mag).y = 0 := by
  obtain ⟨hunit, hup⟩ := getMeasurement_spec hm ha
  have hnonneg : 0 ≤ (normalizeVector m a).z := div_nonneg hz (hm.sqrt_nonneg a.normSq_nonneg)
  obtain ⟨hx, hy⟩ := horizontalField_eq (m := m) hnonneg mag
  -- a turn to the north does not depend on the vertical part of the field
  have hturn : northward m (horizontalField (getMeasurement m a) mag) =
      northward m (rotate (star (getMeasurement m a)) mag) := by
    rw [northward, northward, hx, hy]
  have hnorth' : HasNorth m (rotate (star (getMeasurement m a)) mag) := by
    rwa [HasNorth, hx, hy]
  obtain ⟨hspin, -, hfield⟩ := northward_spec hm hnorth'
  rw [updateMag, hf, if_neg Bool.false_ne_true, getMeasurementMag_eq, hturn, star_mul, rotate_mul,
    rotate_mul, rotate_star_of_rotate hunit hup]
  refine ⟨rotate_northward_up hm hnorth', ?_⟩
  rw [rotate_star_of_rotate hspin hfield]
  exact ⟨hnorth'.pos hm, rfl⟩

end

/-- A sensor that is tilted, in a field that it measures sideways. -/
theorem first_sample_north_of_tilted :
    let f := updateMag Cmath.real new ⟨24, 0, 7⟩ ⟨0, 0, 0⟩ ⟨0, 1, 0⟩ 0
    rotate (star f.q) (normalizeVector Cmath.real ⟨24, 0, 7⟩) = up ∧
      0 < (rotate (star f.q) ⟨0, 1, 0⟩).x ∧ (rotate (star f.q) ⟨0, 1, 0⟩).y = 0 := by
  have hacc : normalizeVector Cmath.real ⟨24, 0, 7⟩ = ⟨24 / 25, 0, 7 / 25⟩ := by
    have hnorm : Cmath.real.sqrt (24 * 24 + 0 * 0 + 7 * 7) = 25 :=
      Cmath.real_sound.sqrt_eq (by norm_num) (by norm_num)
    rw [normalizeVector, hnorm, zero_div]
  have hhalf : halfCosine Cmath.real ⟨24 / 25, 0, 7 / 25⟩ = 4 / 5 :=
    Cmath.real_sound.sqrt_eq (by norm_num) (by norm_num)
  have hfield : horizontalField (getMeasurement Cmath.real ⟨24, 0, 7⟩) ⟨0, 1, 0⟩ = ⟨0, 1, 0⟩ := by
    rw [getMeasurement_of_nonneg (by rw [hacc]; norm_num), hacc, hhalf, horizontalField, re_lift,
      imI_lift, imJ_lift]
    norm_num
  have hone : Cmath.real.sqrt (0 * 0 + 1 * 1) = 1 :=
    Cmath.real_sound.sqrt_eq zero_le_one (by norm_num)
  have hnorth : HasNorth Cmath.real
      (horizontalField (getMeasurement Cmath.real ⟨24, 0, 7⟩) ⟨0, 1, 0⟩) := by
    rw [hfield, HasNorth, hone]
    norm_num
  exact first_sample_north Cmath.real_sound (by norm_num [Vec.normSq]) rfl (by norm_num) hnorth _ _

-- ---------------------------------------------------------------------------
-- Runs
-- ---------------------------------------------------------------------------

section
variable {m : Cmath K} {f : ComplementaryFilter K}

theorem estimateBiases_eq (f : ComplementaryFilter K) (a w : Vec K) :
    ∃ steady bias prev, f.estimateBiases m a w =
      { f with steadyState := steady, wBias := bias, wPrev := prev } := by
  unfold estimateBiases
  split
  · exact ⟨_, _, _, rfl⟩
  · exact ⟨f.steadyState, f.wBias, f.wPrev, rfl⟩

theorem Oriented.estimateBiases (hf : Oriented f) (a w : Vec K) :
    Oriented (f.estimateBiases m a w) := by
  obtain ⟨steady, bias, prev, heq⟩ := estimateBiases_eq (m := m) f a w
  rw [heq]
  exact ⟨hf.unit, hf.gainAcc, hf.gainMag, hf.biasAlpha⟩

theorem estimateBiases_of_still (f : ComplementaryFilter K) (a : Vec K) {w : Vec K}
    (hw : f.wBias = w) :
    ∃ steady prev, f.estimateBiases m a w = { f with steadyState := steady, wPrev := prev } := by
  unfold estimateBiases updateBiases
  split
  · refine ⟨f.checkState m a w, w, ?_⟩
    subst hw
    simp [follow]
  · exact ⟨f.steadyState, f.wPrev, rfl⟩

variable [IsStrictOrderedRing K]

theorem getPrediction_of_still (hm : m.Sound) (hf : Oriented f) {w : Vec K} (hw : f.wBias = w)
    (dt : K) : f.getPrediction m w dt = f.q := by
  have hturn : 1 + (f.turn w dt).toQuaternion = 1 := by
    refine QuaternionAlgebra.ext ?_ ?_ ?_ ?_
    · simp
    · simp [turn, Vec.scale, hw]
    · simp [turn, Vec.scale, hw]
    · simp [turn, Vec.scale, hw]
  rw [getPrediction_eq, hturn, one_mul, normalizeQuaternion_of_unit hm hf.unit]

theorem normSq_correctAcc (hm : m.Sound) (hf : Oriented f) {a : Vec K} (ha : a.normSq ≠ 0)
    {p : ℍ[K]} (hp : normSq p = 1) (hz : (predictedGravity m a p).z ≠ -1) :
    normSq (f.correctAcc m a p) = 1 := by
  obtain ⟨hunit, -, hre⟩ := getAccCorrection_spec hm ha hp hz
  have hgain := accGain_bounds (m := m) hf.gainAcc a
  rw [correctAcc, quaternionMultiplication_eq, map_mul, hp, one_mul,
    normSq_scaleQuaternion hm hunit hre.le hgain]

theorem normSq_correctMag (hm : m.Sound) (hf : Oriented f) {mag : Vec K} {t : ℍ[K]}
    (ht : normSq t = 1)
    (hnorth : HasNorth m (rotateVectorByQuaternion mag (invertQuaternion t))) :
    normSq (normalizeQuaternion m (quaternionMultiplication t
      (scaleQuaternion m f.gainMag (getMagCorrection m mag t)))) = 1 := by
  obtain ⟨hunit, hre, -⟩ := northward_spec hm hnorth
  have hscale := normSq_scaleQuaternion hm hunit hre hf.gainMag
  refine normSq_normalizeQuaternion hm ?_
  rw [quaternionMultiplication_eq, map_mul, ht, one_mul, getMagCorrection, hscale]
  exact one_ne_zero

theorem oriented_update (hm : m.Sound) (hf : Oriented f) {a w : Vec K} {dt : K}
    (hd : Defined m f (.update a w dt)) : Oriented (f.update m a w dt) := by
  obtain ⟨ha, hd⟩ := hd
  unfold update
  split
  · rename_i hinit
    have hf' := hf.estimateBiases (m := m) a w
    have hp := normSq_getPrediction hm hf'.unit w dt
    have hcorrect := normSq_correctAcc hm hf' ha hp (hd hinit)
    refine ⟨normSq_normalizeQuaternion hm ?_, hf'.gainAcc, hf'.gainMag, hf'.biasAlpha⟩
    rw [hcorrect]
    exact one_ne_zero
  · exact ⟨(getMeasurement_spec hm ha).1, hf.gainAcc, hf.gainMag, hf.biasAlpha⟩

theorem oriented_updateMag (hm : m.Sound) (hf : Oriented f) {a w mag : Vec K} {dt : K}
    (hd : Defined m f (.updateMag a w mag dt)) : Oriented (f.updateMag m a w mag dt) := by
  obtain ⟨ha, hd, hfirst⟩ := hd
  unfold updateMag
  split
  · rename_i hinit
    obtain ⟨hz, hnorth⟩ := hd hinit
    have hf' := hf.estimateBiases (m := m) a w
    have hp := normSq_getPrediction hm hf'.unit w dt
    have hcorrect := normSq_correctAcc hm hf' ha hp hz
    exact ⟨normSq_correctMag hm hf' hcorrect hnorth, hf'.gainAcc, hf'.gainMag, hf'.biasAlpha⟩
  · rename_i hinit
    have hnorth := hfirst (Bool.eq_false_iff.mpr hinit)
    exact ⟨normSq_getMeasurementMag hm ha hnorth, hf.gainAcc, hf.gainMag, hf.biasAlpha⟩

theorem oriented_new : Oriented (new : ComplementaryFilter K) := by
  have hgain : (0 : K) ≤ 1 / 100 ∧ (1 / 100 : K) ≤ 1 := by norm_num
  exact ⟨normSq_identity, hgain, hgain, hgain⟩

theorem oriented_step (hm : m.Sound) (f : ComplementaryFilter K) (call : FilterCall K)
    (hf : Oriented f) (hd : Defined m f call) : Oriented (step m f call).1 := by
  obtain ⟨hunit, hacc, hmag, halpha⟩ := hf
  cases call with
  | setDoBiasEstimation value => exact ⟨hunit, hacc, hmag, halpha⟩
  | setDoAdaptiveGain value => exact ⟨hunit, hacc, hmag, halpha⟩
  | setGainAcc gain =>
    simp only [step, setGainAcc]
    split
    case isTrue hgain => exact ⟨hunit, hgain, hmag, halpha⟩
    case isFalse => exact ⟨hunit, hacc, hmag, halpha⟩
  | setGainMag gain =>
    simp only [step, setGainMag]
    split
    case isTrue hgain => exact ⟨hunit, hacc, hgain, halpha⟩
    case isFalse => exact ⟨hunit, hacc, hmag, halpha⟩
  | setBiasAlpha biasAlpha =>
    simp only [step, setBiasAlpha]
    split
    case isTrue hbias => exact ⟨hunit, hacc, hmag, hbias⟩
    case isFalse => exact ⟨hunit, hacc, hmag, halpha⟩
  | setOrientation q =>
    refine ⟨?_, hacc, hmag, halpha⟩
    rw [step, setOrientation, invertQuaternion_eq, Quaternion.normSq_star]
    exact hd
  | update a w dt => exact oriented_update hm ⟨hunit, hacc, hmag, halpha⟩ hd
  | updateMag a w mag dt => exact oriented_updateMag hm ⟨hunit, hacc, hmag, halpha⟩ hd
  | reset => exact ⟨normSq_identity, hacc, hmag, halpha⟩

/-- However it is set up and whatever is measured. -/
theorem oriented_run (hm : m.Sound) {calls : List (FilterCall K)}
    (hd : Mealy.Along (step m) (Defined m) new calls) :
    Oriented (Mealy.final (step m) new calls) :=
  hd.final oriented_new (oriented_step hm)

theorem oriented_run_of_two : Oriented (Mealy.final (step Cmath.real) new
    [.setDoAdaptiveGain true, .update ⟨1, 0, 0⟩ ⟨0, 0, 0⟩ 0,
      .update ⟨1, 0, 0⟩ ⟨0, 0, 0⟩ (1 / 100)]) := by
  have ha : (⟨1, 0, 0⟩ : Vec ℝ).normSq ≠ 0 := by norm_num [Vec.normSq]
  refine oriented_run Cmath.real_sound
    ⟨trivial, ⟨ha, fun h => absurd h Bool.false_ne_true⟩, ⟨ha, fun _ => ?_⟩, trivial⟩
  let first : ComplementaryFilter ℝ := { new with doAdaptiveGain := true }
  let f := first.update Cmath.real ⟨1, 0, 0⟩ ⟨0, 0, 0⟩ 0
  have hf : Oriented f := oriented_update Cmath.real_sound (f := first)
    ⟨oriented_new.unit, oriented_new.gainAcc, oriented_new.gainMag, oriented_new.biasAlpha⟩
    ⟨ha, fun h => absurd h Bool.false_ne_true⟩
  have hup : rotate (star f.q) (normalizeVector Cmath.real ⟨1, 0, 0⟩) = up :=
    first_sample_upright Cmath.real_sound ha rfl _ _
  let f' := f.estimateBiases Cmath.real ⟨1, 0, 0⟩ ⟨0, 0, 0⟩
  have hstill : f'.getPrediction Cmath.real ⟨0, 0, 0⟩ (1 / 100) = f.q := by
    obtain ⟨steady, prev, heq⟩ :=
      estimateBiases_of_still (m := Cmath.real) f ⟨1, 0, 0⟩ (w := ⟨0, 0, 0⟩) rfl
    rw [show f' = { f with steadyState := steady, wPrev := prev } from heq]
    exact getPrediction_of_still Cmath.real_sound
      ⟨hf.unit, hf.gainAcc, hf.gainMag, hf.biasAlpha⟩ rfl _
  show (predictedGravity Cmath.real ⟨1, 0, 0⟩
    (f'.getPrediction Cmath.real ⟨0, 0, 0⟩ (1 / 100))).z ≠ -1
  rw [hstill, predictedGravity, rotateVectorByQuaternion_eq, invertQuaternion_eq, hup, up]
  norm_num

end

end ComplementaryFilter

end TienKung
