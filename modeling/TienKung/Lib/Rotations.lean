import Mathlib.Algebra.Quaternion
import Mathlib.Tactic.FieldSimp
import Mathlib.Tactic.LinearCombination
import Mathlib.Tactic.Linarith

/-!
# Rotations by quaternions

A quaternion turns a vector by conjugation. What a correction by part of a
rotation does to the tilt of a vector, its distance from upright, is a matter of
norms: no angles are needed, and the square root only where a quaternion is
normalised.
-/

namespace Rotations

open Quaternion

structure Vec (K : Type*) where
  x : K
  y : K
  z : K
  deriving DecidableEq

section
variable {K : Type*} [CommRing K]

def Vec.normSq (v : Vec K) : K := v.x * v.x + v.y * v.y + v.z * v.z

def Vec.scale (r : K) (v : Vec K) : Vec K := ⟨r * v.x, r * v.y, r * v.z⟩

def Vec.toQuaternion (v : Vec K) : ℍ[K] := ⟨0, v.x, v.y, v.z⟩

def rotate (q : ℍ[K]) (v : Vec K) : Vec K :=
  let r := q * v.toQuaternion * star q
  ⟨r.imI, r.imJ, r.imK⟩

def up : Vec K := ⟨0, 0, 1⟩

/-- How far a vector of length one is from upright: twice the squared sine of half the angle. -/
def tilt (v : Vec K) : K := 1 - v.z

/-- The part `γ` of the way from the identity to `h`, not normalised. -/
def lerp (γ : K) (h : ℍ[K]) : ℍ[K] := (1 - γ) • 1 + γ • h

@[simp] theorem Vec.re_toQuaternion (v : Vec K) : v.toQuaternion.re = 0 := rfl
@[simp] theorem Vec.imI_toQuaternion (v : Vec K) : v.toQuaternion.imI = v.x := rfl
@[simp] theorem Vec.imJ_toQuaternion (v : Vec K) : v.toQuaternion.imJ = v.y := rfl
@[simp] theorem Vec.imK_toQuaternion (v : Vec K) : v.toQuaternion.imK = v.z := rfl

theorem Vec.toQuaternion_injective : Function.Injective (Vec.toQuaternion (K := K)) := by
  rintro ⟨x, y, z⟩ ⟨x', y', z'⟩ h
  have hx : x = x' := congrArg (fun q : ℍ[K] => q.imI) h
  have hy : y = y' := congrArg (fun q : ℍ[K] => q.imJ) h
  have hz : z = z' := congrArg (fun q : ℍ[K] => q.imK) h
  rw [hx, hy, hz]

theorem Vec.normSq_toQuaternion (v : Vec K) : Quaternion.normSq v.toQuaternion = v.normSq := by
  rw [Quaternion.normSq_def', Vec.normSq]
  simp only [re_toQuaternion, imI_toQuaternion, imJ_toQuaternion, imK_toQuaternion]
  ring

/-- The product of a rotation, coefficient by coefficient. -/
theorem rotate_def (q : ℍ[K]) (v : Vec K) : rotate q v =
    ⟨(q.re * q.re + q.imI * q.imI - q.imJ * q.imJ - q.imK * q.imK) * v.x +
        2 * (q.imI * q.imJ - q.re * q.imK) * v.y + 2 * (q.imI * q.imK + q.re * q.imJ) * v.z,
      2 * (q.imI * q.imJ + q.re * q.imK) * v.x +
        (q.re * q.re - q.imI * q.imI + q.imJ * q.imJ - q.imK * q.imK) * v.y +
        2 * (q.imJ * q.imK - q.re * q.imI) * v.z,
      2 * (q.imI * q.imK - q.re * q.imJ) * v.x + 2 * (q.imJ * q.imK + q.re * q.imI) * v.y +
        (q.re * q.re - q.imI * q.imI - q.imJ * q.imJ + q.imK * q.imK) * v.z⟩ := by
  simp only [rotate, Quaternion.imI_mul, Quaternion.imJ_mul, Quaternion.imK_mul,
    Quaternion.re_mul, Quaternion.re_star, Quaternion.imI_star, Quaternion.imJ_star,
    Quaternion.imK_star, Vec.re_toQuaternion, Vec.imI_toQuaternion, Vec.imJ_toQuaternion,
    Vec.imK_toQuaternion, Vec.mk.injEq]
  refine ⟨?_, ?_, ?_⟩ <;> ring

theorem Vec.normSq_scale (r : K) (v : Vec K) : (v.scale r).normSq = r * r * v.normSq := by
  simp only [Vec.normSq, Vec.scale]
  ring

theorem normSq_one_add (v : Vec K) : Quaternion.normSq (1 + v.toQuaternion) = 1 + v.normSq := by
  rw [Quaternion.normSq_def', Vec.normSq]
  simp only [Quaternion.re_add, Quaternion.imI_add, Quaternion.imJ_add, Quaternion.imK_add,
    Quaternion.re_one, Quaternion.imI_one, Quaternion.imJ_one, Quaternion.imK_one,
    Vec.re_toQuaternion, Vec.imI_toQuaternion, Vec.imJ_toQuaternion, Vec.imK_toQuaternion]
  ring

theorem toQuaternion_rotate (q : ℍ[K]) (v : Vec K) :
    (rotate q v).toQuaternion = q * v.toQuaternion * star q := by
  refine QuaternionAlgebra.ext ?_ rfl rfl rfl
  show (0 : K) = _
  simp only [Quaternion.imI_mul, Quaternion.imJ_mul, Quaternion.imK_mul, Quaternion.re_mul,
    Quaternion.re_star, Quaternion.imI_star, Quaternion.imJ_star, Quaternion.imK_star,
    Vec.re_toQuaternion, Vec.imI_toQuaternion, Vec.imJ_toQuaternion, Vec.imK_toQuaternion]
  ring

@[simp] theorem rotate_one (v : Vec K) : rotate 1 v = v := by
  apply Vec.toQuaternion_injective
  rw [toQuaternion_rotate, star_one, one_mul, mul_one]

theorem rotate_mul (p q : ℍ[K]) (v : Vec K) : rotate (p * q) v = rotate p (rotate q v) := by
  apply Vec.toQuaternion_injective
  rw [toQuaternion_rotate, toQuaternion_rotate, toQuaternion_rotate, star_mul]
  simp only [mul_assoc]

theorem normSq_rotate (q : ℍ[K]) (v : Vec K) :
    (rotate q v).normSq = Quaternion.normSq q ^ 2 * v.normSq := by
  rw [← Vec.normSq_toQuaternion, toQuaternion_rotate, map_mul, map_mul, Quaternion.normSq_star,
    Vec.normSq_toQuaternion]
  ring

theorem normSq_rotate_of_unit {q : ℍ[K]} (h : Quaternion.normSq q = 1) (v : Vec K) :
    (rotate q v).normSq = v.normSq := by
  rw [normSq_rotate, h, one_pow, one_mul]

theorem rotate_smul (r : K) (q : ℍ[K]) (v : Vec K) :
    rotate (r • q) v = (rotate q v).scale (r * r) := by
  simp only [rotate_def, Vec.scale, Quaternion.re_smul, Quaternion.imI_smul, Quaternion.imJ_smul,
    Quaternion.imK_smul, smul_eq_mul, Vec.mk.injEq]
  refine ⟨?_, ?_, ?_⟩ <;> ring

theorem rotate_scale (q : ℍ[K]) (r : K) (v : Vec K) :
    rotate q (v.scale r) = (rotate q v).scale r := by
  simp only [rotate_def, Vec.scale, Vec.mk.injEq]
  refine ⟨?_, ?_, ?_⟩ <;> ring

theorem rotate_star_rotate {q : ℍ[K]} (h : Quaternion.normSq q = 1) (v : Vec K) :
    rotate (star q) (rotate q v) = v := by
  rw [← rotate_mul, Quaternion.star_mul_self, h, Quaternion.coe_one, rotate_one]

theorem rotate_star_of_rotate {q : ℍ[K]} {v w : Vec K} (h : Quaternion.normSq q = 1)
    (hq : rotate q v = w) : rotate (star q) w = v := by rw [← hq, rotate_star_rotate h]

theorem rotate_up (q : ℍ[K]) : rotate q up = ⟨2 * (q.imI * q.imK + q.re * q.imJ),
    2 * (q.imJ * q.imK - q.re * q.imI),
    Quaternion.normSq q - 2 * (q.imI * q.imI + q.imJ * q.imJ)⟩ := by
  simp only [rotate_def, up, Quaternion.normSq_def', Vec.mk.injEq]
  refine ⟨?_, ?_, ?_⟩ <;> ring

theorem normSq_lerp (γ : K) (h : ℍ[K]) : Quaternion.normSq (lerp γ h) =
    (1 - γ) * (1 - γ) + 2 * γ * (1 - γ) * h.re + γ * γ * Quaternion.normSq h := by
  simp only [lerp, Quaternion.normSq_def', Quaternion.re_add, Quaternion.imI_add,
    Quaternion.imJ_add, Quaternion.imK_add, Quaternion.re_smul, Quaternion.imI_smul,
    Quaternion.imJ_smul, Quaternion.imK_smul, Quaternion.re_one, Quaternion.imI_one,
    Quaternion.imJ_one, Quaternion.imK_one, smul_eq_mul]
  ring

/-- The rotation about the upright axis by the angle whose half has cosine `c` and sine `s`. -/
def spin (c s : K) : ℍ[K] := ⟨c, 0, 0, s⟩

@[simp] theorem re_spin (c s : K) : (spin c s).re = c := rfl
@[simp] theorem imI_spin (c s : K) : (spin c s).imI = 0 := rfl
@[simp] theorem imJ_spin (c s : K) : (spin c s).imJ = 0 := rfl
@[simp] theorem imK_spin (c s : K) : (spin c s).imK = s := rfl

theorem normSq_spin (c s : K) : Quaternion.normSq (spin c s) = c * c + s * s := by
  rw [Quaternion.normSq_def', re_spin, imI_spin, imJ_spin, imK_spin]
  ring

theorem rotate_spin (c s : K) (v : Vec K) : rotate (spin c s) v =
    ⟨(c * c - s * s) * v.x - 2 * (c * s) * v.y, 2 * (c * s) * v.x + (c * c - s * s) * v.y,
      (c * c + s * s) * v.z⟩ := by
  simp only [rotate_def, re_spin, imI_spin, imJ_spin, imK_spin, Vec.mk.injEq]
  refine ⟨?_, ?_, ?_⟩ <;> ring

/-- Half a turn about the first axis. -/
def halfTurn : ℍ[K] := ⟨0, 1, 0, 0⟩

@[simp] theorem re_halfTurn : (halfTurn : ℍ[K]).re = 0 := rfl
@[simp] theorem imI_halfTurn : (halfTurn : ℍ[K]).imI = 1 := rfl
@[simp] theorem imJ_halfTurn : (halfTurn : ℍ[K]).imJ = 0 := rfl
@[simp] theorem imK_halfTurn : (halfTurn : ℍ[K]).imK = 0 := rfl

theorem normSq_halfTurn : Quaternion.normSq (halfTurn : ℍ[K]) = 1 := by
  simp [Quaternion.normSq_def']

theorem rotate_halfTurn_up : rotate halfTurn (up : Vec K) = up.scale (-1) := by
  rw [rotate_up, normSq_halfTurn]
  simp [up, Vec.scale]
  ring

/-- Going back part of the way by which `h` has turned the upright vector leaves the rest. -/
theorem tilt_lerp {h : ℍ[K]} {g : Vec K} (hunit : Quaternion.normSq h = 1) (hg : rotate h up = g)
    (γ : K) : (rotate (star (lerp γ h)) g).z =
      Quaternion.normSq (lerp γ h) - (1 - γ) * (1 - γ) * tilt g := by
  have hrest : star (lerp γ h) * h = (1 - γ) • h + γ • 1 := by
    rw [lerp, star_add, Quaternion.star_smul, Quaternion.star_smul, star_one, add_mul,
      smul_mul_assoc, smul_mul_assoc, one_mul, Quaternion.star_mul_self, hunit, Quaternion.coe_one]
  have htilt : tilt g = 2 * (h.imI * h.imI + h.imJ * h.imJ) := by
    rw [tilt, ← hg, rotate_up, hunit]
    ring
  have hnorm : Quaternion.normSq (star (lerp γ h) * h) = Quaternion.normSq (lerp γ h) := by
    rw [map_mul, Quaternion.normSq_star, hunit, mul_one]
  rw [← hg, ← rotate_mul, rotate_up, hnorm, hrest, hg, htilt]
  simp only [Quaternion.imI_add, Quaternion.imJ_add, Quaternion.imI_smul, Quaternion.imJ_smul,
    Quaternion.imI_one, Quaternion.imJ_one, smul_eq_mul]
  ring

end

section
variable {K : Type*} [Field K]

/-- The rotation without a turn about the upright axis that takes the upright vector to `g`; `c` is
the cosine of half its angle. -/
def lift (c : K) (g : Vec K) : ℍ[K] := ⟨c, -g.y / (c + c), g.x / (c + c), 0⟩

theorem lift_eq (c : K) (g : Vec K) : lift c g = ⟨c, -g.y / (2 * c), g.x / (2 * c), 0⟩ := by
  rw [two_mul]
  rfl

@[simp] theorem re_lift (c : K) (g : Vec K) : (lift c g).re = c := rfl
@[simp] theorem imI_lift (c : K) (g : Vec K) : (lift c g).imI = -g.y / (2 * c) := by
  rw [two_mul]
  rfl

@[simp] theorem imJ_lift (c : K) (g : Vec K) : (lift c g).imJ = g.x / (2 * c) := by
  rw [two_mul]
  rfl

@[simp] theorem imK_lift (c : K) (g : Vec K) : (lift c g).imK = 0 := rfl

section
variable {c : K} {g : Vec K}

theorem sides_of_half (hhalf : 2 * (c * c) = g.z + 1) (hg : g.normSq = 1) :
    g.x * g.x + g.y * g.y = 4 * (c * c) * (1 - c * c) := by
  have hz : g.z = 2 * (c * c) - 1 := by linear_combination -hhalf
  rw [Vec.normSq, hz] at hg
  linear_combination hg

variable [CharZero K]

theorem normSq_lift (hc : c ≠ 0) (hhalf : 2 * (c * c) = g.z + 1) (hg : g.normSq = 1) :
    Quaternion.normSq (lift c g) = 1 := by
  have hsides := sides_of_half hhalf hg
  rw [Quaternion.normSq_def']
  simp only [re_lift, imI_lift, imJ_lift, imK_lift]
  field_simp
  linear_combination hsides

theorem rotate_lift (hc : c ≠ 0) (hhalf : 2 * (c * c) = g.z + 1) (hg : g.normSq = 1) :
    rotate (lift c g) up = g := by
  have hsides := sides_of_half hhalf hg
  have hz : g.z = 2 * (c * c) - 1 := by linear_combination -hhalf
  rw [rotate_up, normSq_lift hc hhalf hg]
  simp only [re_lift, imI_lift, imJ_lift, imK_lift]
  obtain ⟨x, y, z⟩ := g
  simp only [Vec.mk.injEq] at hz hsides ⊢
  refine ⟨by field_simp; ring, by field_simp; ring, ?_⟩
  rw [hz]
  field_simp
  linear_combination -hsides

end

end

section
variable {K : Type*} [CommRing K] [LinearOrder K] [IsStrictOrderedRing K]

theorem Vec.normSq_nonneg (v : Vec K) : 0 ≤ v.normSq :=
  add_nonneg (add_nonneg (mul_self_nonneg v.x) (mul_self_nonneg v.y)) (mul_self_nonneg v.z)

/-- What is left after a correction does not vanish if it was less than half a turn. -/
theorem le_normSq_lerp {γ : K} {h : ℍ[K]} (hunit : Quaternion.normSq h = 1) (hre : 0 ≤ h.re)
    (hγ : 0 ≤ γ) (hγ' : γ ≤ 1) : (1 - γ) * (1 - γ) + γ * γ ≤ Quaternion.normSq (lerp γ h) := by
  have hpart : 0 ≤ 2 * γ * (1 - γ) * h.re :=
    mul_nonneg (mul_nonneg (mul_nonneg zero_le_two hγ) (sub_nonneg.mpr hγ')) hre
  rw [normSq_lerp, hunit]
  linarith

theorem lerp_weights_pos (γ : K) : 0 < (1 - γ) * (1 - γ) + γ * γ := by
  rcases eq_or_ne γ 0 with rfl | hγ
  · simp
  · exact add_pos_of_nonneg_of_pos (mul_self_nonneg _) (mul_self_pos.mpr hγ)

end

end Rotations
