import Mathlib.Data.Nat.Digits.Defs

/-!
# Little-endian words

The number a list of bytes stands for, and the low bytes of a number. Cutting a
number to `n` bytes and reading it back leaves it modulo `256 ^ n`.
-/

namespace Words

/-- The number a list of bytes stands for, least significant byte first. -/
def value (bytes : List UInt8) : Nat := Nat.ofDigits 256 (bytes.map UInt8.toNat)

/-- The `n` low bytes of a number. -/
def low : Nat → Nat → List UInt8
  | 0, _ => []
  | n + 1, x => UInt8.ofNat x :: low n (x / 256)

@[simp] theorem value_nil : value [] = 0 := rfl

@[simp] theorem value_cons (b : UInt8) (bytes : List UInt8) :
    value (b :: bytes) = b.toNat + 256 * value bytes := by
  simp [value, Nat.ofDigits_cons]

theorem value_lt (bytes : List UInt8) : value bytes < 256 ^ bytes.length := by
  have hdigits : ∀ x ∈ bytes.map UInt8.toNat, x < 256 := by
    intro x hx
    obtain ⟨b, -, rfl⟩ := List.mem_map.mp hx
    exact b.toNat_lt
  simpa [value] using Nat.ofDigits_lt_base_pow_length (by decide) hdigits

@[simp] theorem length_low (n x : Nat) : (low n x).length = n := by
  induction n generalizing x with
  | zero => rfl
  | succ n ih => simp [low, ih]

theorem value_low (n x : Nat) : value (low n x) = x % 256 ^ n := by
  induction n generalizing x with
  | zero => simp [low, Nat.mod_one]
  | succ n ih =>
    have hmod : x % 256 ^ (n + 1) = x % 256 + 256 * (x / 256 % 256 ^ n) := by
      rw [Nat.pow_succ, Nat.mul_comm, Nat.mod_mul]
    rw [low, value_cons, ih, UInt8.toNat_ofNat', hmod]

theorem or_two_pow_mul {lo n : Nat} (h : lo < 2 ^ n) (hi : Nat) :
    lo ||| 2 ^ n * hi = 2 ^ n * hi + lo := by
  rw [Nat.or_comm, Nat.two_pow_add_eq_or_of_lt h]

/-- One more byte below a word that has room for it. -/
theorem toNat_shiftLeft_or {w : UInt32} {b : UInt8} (hw : w.toNat < 2 ^ 24) :
    (w <<< 8 ||| b.toUInt32).toNat = b.toNat + 256 * w.toNat := by
  have hb := b.toNat_lt
  have hshift : w.toNat <<< 8 % 2 ^ 32 = 2 ^ 8 * w.toNat := by
    rw [Nat.shiftLeft_eq]
    omega
  calc (w <<< 8 ||| b.toUInt32).toNat
      = w.toNat <<< 8 % 2 ^ 32 ||| b.toNat := by
        rw [UInt32.toNat_or, UInt32.toNat_shiftLeft, UInt8.toNat_toUInt32]
        rfl
    _ = 2 ^ 8 * w.toNat ||| b.toNat := by rw [hshift]
    _ = 2 ^ 8 * w.toNat + b.toNat := by rw [← Nat.two_pow_add_eq_or_of_lt (by omega)]
    _ = b.toNat + 256 * w.toNat := by omega

end Words
