import Mathlib.Tactic.Positivity

/-!
# Doubles as a program meets them

What a language with `int` and `double` does with the doubles of Lean: a
comparison of an integer with a double compares their values, and a conversion
truncates, where the double is a number. Products and quotients with positive
constants keep what is not a number, and keep the sign.
-/

namespace Doubles

open Float.Model (UnpackedFloat Format)
open Float.Model.UnpackedFloat

/-- What `x` is, written out. -/
def parts (x : Float) : UnpackedFloat := x.toModel.unpack

/-- The value rounded towards zero; none of an infinity or what is not a number. -/
def truncate (x : Float) : Option ℤ :=
  match parts x with
  | .zero _ => some 0
  | .finite s m e _ =>
    some (s.apply (if 0 ≤ e then m * 2 ^ e.toNat else (m / 2 ^ (-e).toNat : ℕ)))
  | _ => none

/-- `i < x`, no rounding before the comparison. -/
def lt (i : ℤ) (x : Float) : Bool :=
  match parts x with
  | .notANumber => false
  | .infinity s => s == .positive
  | .zero _ => i < 0
  | .finite s m e _ =>
    if 0 ≤ e then i < s.apply (m * 2 ^ e.toNat) else i * 2 ^ (-e).toNat < s.apply m

def positive : UnpackedFloat → Bool
  | .finite .positive .. => true
  | _ => false

def nonNegative : UnpackedFloat → Bool
  | .infinity .positive | .zero _ | .finite .positive .. => true
  | _ => false

-- ---------------------------------------------------------------------------
-- Packing
-- ---------------------------------------------------------------------------

theorem sign_pack {spec : Format} (s : Sign) (e : BitVec spec.exponentBits)
    (m : BitVec spec.mantissaBitsWithoutImplicit) :
    Sign.ofBitVec (unpackSign (packComponents spec s e m)) = s := by
  have hbit : unpackSign (packComponents spec s e m) = s.toBitVec := by
    ext i hi
    obtain rfl : i = 0 := by omega
    delta unpackSign packComponents
    simp [BitVec.getLsbD_append, BitVec.getLsbD_eq_getElem, BitVec.getElem_append]
  rw [hbit]
  cases s <;> rfl

/-- Where the exponent is not all ones, the number packed has the sign. -/
theorem nonNegative_unpack {spec : Format} {e : BitVec spec.exponentBits}
    (m : BitVec spec.mantissaBitsWithoutImplicit) (he : e ≠ -1#_) :
    nonNegative (unpack spec (packComponents spec .positive e m)) := by
  have hexponent : unpackExponent (packComponents spec .positive e m) ≠ -1#_ := by
    rwa [unpackExponent_packComponents]
  have hsign := sign_pack .positive e m
  generalize packComponents spec .positive e m = b at hexponent hsign
  delta unpack
  dsimp only
  rw [if_neg hexponent, hsign]
  by_cases hzero : unpackExponent b = 0#_
  · rw [if_pos hzero]
    by_cases hm : unpackMantissa b = 0#_
    · rw [dif_pos hm]
      rfl
    · rw [dif_neg hm]
      rfl
  · rw [if_neg hzero]
    rfl

theorem ne_allOnes {w : ℕ} (h : n + 1 < 2 ^ w) : BitVec.ofNat w n ≠ -1#w := by
  intro he
  have hn := congrArg BitVec.toNat he
  rw [BitVec.neg_one_eq_allOnes, BitVec.toNat_allOnes, BitVec.toNat_ofNat,
    Nat.mod_eq_of_lt (by omega)] at hn
  omega

theorem nonNegative_pack {u : UnpackedFloat} (h : nonNegative u) :
    nonNegative (Float.Model.pack u).unpack := by
  cases u with
  | notANumber => cases h
  | infinity s =>
    cases s with
    | negative => cases h
    | positive => rfl
  | zero s => cases s <;> rfl
  | finite s m e hm =>
    cases s with
    | negative => cases h
    | positive =>
      change nonNegative (unpack Format.binary64 (pack Format.binary64 (.finite .positive m e hm)))
      delta pack
      dsimp only
      split
      · rfl
      · split
        · exact nonNegative_unpack _ (ne_allOnes (by omega))
        · exact nonNegative_unpack _ (ne_allOnes (by decide))

theorem isNaN_pack {u : UnpackedFloat} (h : u.isNaN) : (Float.Model.pack u).unpack.isNaN := by
  cases u with
  | notANumber => rfl
  | _ => cases h

-- ---------------------------------------------------------------------------
-- Products and quotients
-- ---------------------------------------------------------------------------

theorem nonNegative_dite (m : ℕ) (e : ℤ) :
    nonNegative (if h : m = 0 then .zero .positive
      else .finite .positive m e (Nat.pos_of_ne_zero h)) := by
  by_cases h : m = 0
  · rw [dif_pos h]
    rfl
  · rw [dif_neg h]
    rfl

theorem nonNegative_round {spec : Format} (m : ℕ) (e : ℤ) (acc : Accuracy) :
    nonNegative (roundWithAccuracy spec .positive m e acc) :=
  nonNegative_dite _ _

theorem finite_of_positive {u : UnpackedFloat} (h : positive u) :
    ∃ m e hm, u = .finite .positive m e hm := by
  cases u with
  | finite s m e hm =>
    cases s with
    | positive => exact ⟨m, e, hm, rfl⟩
    | negative => cases h
  | _ => cases h

theorem nonNegative_cases {u : UnpackedFloat} (h : nonNegative u) : u = .infinity .positive ∨
    (∃ s, u = .zero s) ∨ ∃ m e hm, u = .finite .positive m e hm := by
  cases u with
  | notANumber => cases h
  | infinity s =>
    cases s with
    | positive => exact .inl rfl
    | negative => cases h
  | zero s => exact .inr (.inl ⟨s, rfl⟩)
  | finite s m e hm =>
    cases s with
    | positive => exact .inr (.inr ⟨m, e, hm, rfl⟩)
    | negative => cases h

section
variable {x c : Float}

theorem nonNegative_mul (hx : nonNegative (parts x)) (hc : positive (parts c)) :
    nonNegative (parts (x * c)) := by
  refine nonNegative_pack (u := UnpackedFloat.mul Format.binary64 (parts x) (parts c)) ?_
  obtain ⟨m, e, hm, hc⟩ := finite_of_positive hc
  rw [hc]
  rcases nonNegative_cases hx with hx | ⟨s, hx⟩ | ⟨m', e', hm', hx⟩ <;> rw [hx]
  · rfl
  · rfl
  · exact nonNegative_round (m' * m) (e' + e) .exact

theorem nonNegative_div (hx : nonNegative (parts x)) (hc : positive (parts c)) :
    nonNegative (parts (x / c)) := by
  refine nonNegative_pack (u := UnpackedFloat.div Format.binary64 (parts x) (parts c)) ?_
  obtain ⟨m, e, hm, hc⟩ := finite_of_positive hc
  rw [hc]
  rcases nonNegative_cases hx with hx | ⟨s, hx⟩ | ⟨m', e', hm', hx⟩ <;> rw [hx]
  · rfl
  · rfl
  · exact nonNegative_round _ _ _

theorem parts_of_isNaN (hx : x.isNaN) : parts x = .notANumber := by
  change (parts x).isNaN at hx
  cases hxp : parts x with
  | notANumber => rfl
  | _ => rw [hxp] at hx; cases hx

/-- What is not a number stays so. -/
theorem isNaN_mul (hx : x.isNaN) (c : Float) : (x * c).isNaN := by
  refine isNaN_pack (u := UnpackedFloat.mul Format.binary64 (parts x) (parts c)) ?_
  rw [parts_of_isNaN hx]
  rfl

theorem isNaN_div (hx : x.isNaN) (c : Float) : (x / c).isNaN := by
  refine isNaN_pack (u := UnpackedFloat.div Format.binary64 (parts x) (parts c)) ?_
  rw [parts_of_isNaN hx]
  rfl

theorem truncate_isNaN (hx : x.isNaN) : truncate x = none := by
  rw [truncate, parts_of_isNaN hx]

theorem lt_isNaN (hx : x.isNaN) (i : ℤ) : lt i x = false := by
  rw [lt, parts_of_isNaN hx]

/-- A number that is not negative and not above `i` becomes an integer up to `i`. -/
theorem truncate_of_not_lt (hx : nonNegative (parts x)) {i : ℤ} (hi : 0 ≤ i) (hlt : ¬ lt i x) :
    ∃ t, truncate x = some t ∧ 0 ≤ t ∧ t ≤ i := by
  rcases nonNegative_cases hx with hxp | ⟨s, hxp⟩ | ⟨m, e, hm, hxp⟩
  · rw [lt, hxp] at hlt
    exact absurd rfl hlt
  · exact ⟨0, by rw [truncate, hxp], le_rfl, hi⟩
  · have htruncate : truncate x =
        some (if 0 ≤ e then (m : ℤ) * 2 ^ e.toNat else (m / 2 ^ (-e).toNat : ℕ)) := by
      rw [truncate, hxp]
      rfl
    have hbelow : lt i x =
        if 0 ≤ e then decide (i < m * 2 ^ e.toNat) else decide (i * 2 ^ (-e).toNat < m) := by
      rw [lt, hxp]
      rfl
    rw [hbelow] at hlt
    refine ⟨_, htruncate, ?_⟩
    by_cases he : 0 ≤ e
    · rw [if_pos he, decide_eq_true_eq, not_lt] at hlt
      rw [if_pos he]
      exact ⟨by positivity, hlt⟩
    · rw [if_neg he, decide_eq_true_eq, not_lt] at hlt
      rw [if_neg he]
      refine ⟨Int.natCast_nonneg _, ?_⟩
      lift i to ℕ using hi
      have hnat : m ≤ i * 2 ^ (-e).toNat := by exact_mod_cast hlt
      have hdiv : m / 2 ^ (-e).toNat ≤ i := Nat.div_le_of_le_mul (Nat.mul_comm i _ ▸ hnat)
      exact Int.ofNat_le.mpr hdiv

/-- What is not at most zero is above it or not a number. -/
theorem nonNegative_or_isNaN (h : ¬ x ≤ 0) : nonNegative (parts x) ∨ x.isNaN := by
  replace h : ¬ (parts x).le (.zero .positive) = true := fun hle => h (decide_eq_true hle)
  change nonNegative (parts x) ∨ (parts x).isNaN
  cases hxp : parts x with
  | notANumber => exact .inr rfl
  | zero s => exact .inl rfl
  | infinity s =>
    cases s with
    | positive => exact .inl rfl
    | negative => rw [hxp] at h; exact absurd rfl h
  | finite s m e hm =>
    cases s with
    | positive => exact .inl rfl
    | negative => rw [hxp] at h; exact absurd rfl h

end

end Doubles
