import Mathlib.Algebra.CharP.Two
import Mathlib.Algebra.Field.ZMod
import Mathlib.Algebra.Polynomial.Div
import Mathlib.Tactic.LinearCombination

/-!
# Division of bit strings

A register of `w` bits divides a bit string by a polynomial over the field of
two elements. A bit is a shift, and a subtraction of the divisor where the bit
that leaves the register and the one that comes differ. A step is linear, so
that several bits can be taken at once from a table. What a string leaves in
the register is a remainder of polynomials.
-/

namespace Division

open Polynomial

variable {w : Nat}

/-- One bit; the leading term of the divisor is not in `poly`. -/
def step (poly reg : BitVec w) (bit : Bool) : BitVec w :=
  if reg.msb ^^ bit then reg <<< 1 ^^^ poly else reg <<< 1

def divide (poly reg : BitVec w) (bits : List Bool) : BitVec w := bits.foldl (step poly) reg

/-- The first `n` bits, the most significant one first. -/
def leading (x : BitVec w) (n : Nat) : List Bool := (List.range n).map x.getMsbD

section
variable {poly reg x y : BitVec w} {bits rest : List Bool} {bit : Bool} {n : Nat}

@[simp] theorem divide_nil : divide poly reg [] = reg := rfl

@[simp] theorem divide_cons :
    divide poly reg (bit :: bits) = divide poly (step poly reg bit) bits := rfl

theorem divide_append :
    divide poly reg (bits ++ rest) = divide poly (divide poly reg bits) rest :=
  List.foldl_append

@[simp] theorem length_leading (x : BitVec w) (n : Nat) : (leading x n).length = n := by
  simp [leading]

theorem leading_succ (x : BitVec w) (n : Nat) :
    leading x (n + 1) = leading x n ++ [x.getMsbD n] := by
  simp [leading, List.range_succ]

-- ---------------------------------------------------------------------------
-- Tables
-- ---------------------------------------------------------------------------

theorem step_eq (poly reg : BitVec w) (bit : Bool) :
    step poly reg bit = reg <<< 1 ^^^ if reg.msb ^^ bit then poly else 0#w := by
  unfold step
  split
  · rfl
  · exact (BitVec.xor_zero).symm

theorem ite_xor (a b : Bool) (x : BitVec w) :
    (if a ^^ b then x else 0#w) = (if a then x else 0#w) ^^^ if b then x else 0#w := by
  cases a <;> cases b <;> simp

theorem step_xor (poly x y : BitVec w) (bit : Bool) :
    step poly (x ^^^ y) bit = step poly x false ^^^ step poly y bit := by
  rw [step_eq, step_eq, step_eq, BitVec.msb_xor, BitVec.shiftLeft_xor_distrib, Bool.xor_false,
    Bool.xor_assoc, ite_xor]
  ac_rfl

/-- Registers are divided apart, one of them by zeros. -/
theorem divide_xor (poly x y : BitVec w) (bits : List Bool) : divide poly (x ^^^ y) bits =
    divide poly x (.replicate bits.length false) ^^^ divide poly y bits := by
  induction bits generalizing x y with
  | nil => rfl
  | cons bit bits ih =>
    rw [divide_cons, step_xor, ih]
    rfl

/-- A register's own bits cancel those that leave it. -/
theorem divide_leading (poly x : BitVec w) (n : Nat) : divide poly x (leading x n) = x <<< n := by
  induction n with
  | zero => exact (BitVec.shiftLeft_zero x).symm
  | succ n ih =>
    have hmsb : (x <<< n).msb = x.getMsbD n := by simp
    rw [leading_succ, divide_append, ih, divide_cons, divide_nil, step, hmsb, Bool.xor_self,
      if_neg Bool.false_ne_true, BitVec.shiftLeft_add]

/-- The bits that leave the register and those that come meet in `x`, which is divided by itself. -/
theorem divide_eq_xor (poly : BitVec w) (hbits : leading (x ^^^ reg) n = bits)
    (hx : x <<< n = 0#w) :
    divide poly reg bits = divide poly x (.replicate n false) ^^^ reg <<< n := by
  have hreg : reg = x ^^^ (x ^^^ reg) := by
    rw [← BitVec.xor_assoc, BitVec.xor_self, BitVec.zero_xor]
  calc divide poly reg bits
      = divide poly (x ^^^ (x ^^^ reg)) bits := by rw [← hreg]
    _ = divide poly x (.replicate n false) ^^^ divide poly (x ^^^ reg) bits := by
        rw [divide_xor, ← hbits, length_leading]
    _ = divide poly x (.replicate n false) ^^^ reg <<< n := by
        rw [← hbits, divide_leading, BitVec.shiftLeft_xor_distrib, hx, BitVec.zero_xor]

-- ---------------------------------------------------------------------------
-- Polynomials
-- ---------------------------------------------------------------------------

noncomputable def digit (bit : Bool) : (ZMod 2)[X] := if bit then 1 else 0

/-- Bit `i` is the coefficient of `X ^ i`. -/
noncomputable def toPoly (x : BitVec w) : (ZMod 2)[X] :=
  ∑ i ∈ Finset.range w, digit (x.getLsbD i) * X ^ i

/-- The first bit is the leading one. -/
noncomputable def ofBits : List Bool → (ZMod 2)[X]
  | [] => 0
  | bit :: bits => digit bit * X ^ bits.length + ofBits bits

noncomputable def divisor (poly : BitVec w) : (ZMod 2)[X] := X ^ w + toPoly poly

theorem digit_xor (a b : Bool) : digit (a ^^ b) = digit a + digit b := by
  cases a <;> cases b <;> simp [digit, CharTwo.add_self_eq_zero]

theorem coeff_digit_mul (bit : Bool) (n i : Nat) :
    (digit bit * X ^ n).coeff i = if i = n then if bit then 1 else 0 else 0 := by
  cases bit <;> simp [digit, coeff_X_pow]

theorem coeff_toPoly (x : BitVec w) (i : Nat) :
    (toPoly x).coeff i = if x.getLsbD i then 1 else 0 := by
  rw [toPoly, finsetSum_coeff, Finset.sum_congr rfl fun j _ => coeff_digit_mul _ j i,
    Finset.sum_ite_eq]
  split_ifs with hi hbit hbit
  · rfl
  · rfl
  · exact absurd (BitVec.lt_of_getLsbD hbit) (mt Finset.mem_range.mpr hi)
  · rfl

theorem degree_toPoly_lt (x : BitVec w) : (toPoly x).degree < w := by
  refine (degree_lt_iff_coeff_zero _ _).mpr fun i hi => ?_
  rw [coeff_toPoly, BitVec.getLsbD_of_ge x i hi, if_neg Bool.false_ne_true]

@[simp] theorem toPoly_zero : toPoly (0#w) = 0 := by
  ext i
  simp [coeff_toPoly]

theorem toPoly_xor (x y : BitVec w) : toPoly (x ^^^ y) = toPoly x + toPoly y := by
  ext i
  rw [coeff_add, coeff_toPoly, coeff_toPoly, coeff_toPoly, BitVec.getLsbD_xor]
  cases x.getLsbD i <;> cases y.getLsbD i <;> decide

/-- A bit that leaves the register is the coefficient of `X ^ w`. -/
theorem toPoly_shiftLeft_one (x : BitVec w) :
    toPoly (x <<< 1) = toPoly x * X + digit x.msb * X ^ w := by
  ext i
  rw [coeff_add, coeff_digit_mul, coeff_toPoly, BitVec.getLsbD_shiftLeft,
    BitVec.msb_eq_getLsbD_last]
  cases i with
  | zero =>
    have hempty (h : 0 = w) : x.getLsbD (w - 1) = false := BitVec.getLsbD_of_ge x _ (by omega)
    rw [coeff_mul_X_zero]
    split_ifs <;> simp_all
  | succ i =>
    rw [coeff_mul_X, coeff_toPoly, Nat.add_sub_cancel]
    rcases lt_trichotomy (i + 1) w with h | h | h
    · simp [h, h.ne]
    · subst h
      simp [CharTwo.add_self_eq_zero]
    · simp [h.ne', BitVec.getLsbD_of_ge x i (by omega), Nat.not_lt_of_lt h]

theorem monic_divisor (poly : BitVec w) : (divisor poly).Monic :=
  monic_X_pow_add (degree_toPoly_lt poly)

theorem degree_divisor (poly : BitVec w) : (divisor poly).degree = w :=
  (degree_add_eq_left_of_degree_lt (by simpa using degree_toPoly_lt poly)).trans (degree_X_pow w)

theorem toPoly_step (poly reg : BitVec w) (bit : Bool) : toPoly (step poly reg bit) =
    toPoly reg * X + digit bit * X ^ w + digit (reg.msb ^^ bit) * divisor poly := by
  have hmasked (c : Bool) : toPoly (if c then poly else 0#w) = digit c * toPoly poly := by
    cases c <;> simp [digit]
  have htwo : digit bit * X ^ w + digit bit * X ^ w = 0 := CharTwo.add_self_eq_zero _
  rw [step_eq, toPoly_xor, toPoly_shiftLeft_one, hmasked, divisor, digit_xor]
  linear_combination -htwo

/-- The register ends with the remainder of what it held, moved up, and the bits. -/
theorem toPoly_divide (poly reg : BitVec w) (bits : List Bool) : toPoly (divide poly reg bits) =
    (toPoly reg * X ^ bits.length + ofBits bits * X ^ w) %ₘ divisor poly := by
  induction bits generalizing reg with
  | nil =>
    have hdegree : (toPoly reg).degree < (divisor poly).degree :=
      (degree_toPoly_lt reg).trans_eq (degree_divisor poly).symm
    simp [ofBits, (modByMonic_eq_self_iff (monic_divisor poly)).mpr hdegree]
  | cons bit bits ih =>
    rw [divide_cons, ih, toPoly_step, ofBits, List.length_cons, pow_succ]
    refine modByMonic_eq_of_dvd_sub (monic_divisor poly)
      ⟨digit (reg.msb ^^ bit) * X ^ bits.length, ?_⟩
    ring

end

end Division
