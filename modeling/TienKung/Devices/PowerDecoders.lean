import TienKung.Devices.PowerBoard
import Mathlib.Tactic.NormNum

/-!
# What the decoders of the power board keep

`PowerStatus` and `BatteryInfomation` keep their six bytes: three signed words
as tenths. `PowerVersionInfo` keeps four: it shifts the two bytes of the hardware
version out of the sixteen bits that it then takes.
-/

namespace TienKung

-- ---------------------------------------------------------------------------
-- Decoders
-- ---------------------------------------------------------------------------

inductive PowerDecoder
  | powerStatus | batteryInfomation | powerVersionInfo
  deriving DecidableEq

/-- What an object of the decoder's class stores. -/
abbrev PowerDecoder.Stored : PowerDecoder → Type
  | .powerStatus => PowerStatus
  | .batteryInfomation => BatteryInfomation
  | .powerVersionInfo => PowerVersionInfo

def PowerDecoder.update : (c : PowerDecoder) → c.Stored → PbData → c.Stored
  | .powerStatus => PowerStatus.update
  | .batteryInfomation => BatteryInfomation.update
  | .powerVersionInfo => PowerVersionInfo.update

/-- No other payload leaves the same fields, whatever they were before. -/
def PowerDecoder.Recovers (c : PowerDecoder) (data : PbData) : Prop :=
  ∀ (before before' : c.Stored) (data' : PbData),
    c.update before' data' = c.update before data → data' = data

-- ---------------------------------------------------------------------------
-- Words
-- ---------------------------------------------------------------------------

theorem toNat_word (hi lo : UInt8) :
    (hi.toUInt16 <<< 8 ||| lo.toUInt16).toNat = 2 ^ 8 * hi.toNat + lo.toNat := by
  have hhi := hi.toNat_lt
  have hlo := lo.toNat_lt
  simp only [UInt16.toNat_or, UInt16.toNat_shiftLeft, UInt8.toNat_toUInt16, Nat.shiftLeft_eq,
    UInt16.reduceToNat, Nat.reduceMod]
  rw [Nat.mod_eq_of_lt (by omega), Nat.mul_comm, ← Nat.two_pow_add_eq_or_of_lt hlo]

theorem pbTenths_inj {hi lo hi' lo' : UInt8} :
    pbTenths hi lo = pbTenths hi' lo' ↔ hi = hi' ∧ lo = lo' := by
  constructor
  · intro h
    have hscale : (13421773 / 134217728 : ℚ) ≠ 0 := by norm_num
    have hint := Int.cast_injective (mul_right_cancel₀ hscale h)
    have hword : hi.toUInt16 <<< 8 ||| lo.toUInt16 = hi'.toUInt16 <<< 8 ||| lo'.toUInt16 :=
      congrArg Int16.toUInt16 (Int16.toInt_inj.mp hint)
    have hnat := congrArg UInt16.toNat hword
    rw [toNat_word, toNat_word] at hnat
    have hlo := lo.toNat_lt
    have hlo' := lo'.toNat_lt
    exact ⟨UInt8.toNat_inj.mp (by omega), UInt8.toNat_inj.mp (by omega)⟩
  · rintro ⟨rfl, rfl⟩
    rfl

theorem bigEndian_toNat (a b c d : UInt8) : (bigEndian a b c d).toNat =
    2 ^ 24 * a.toNat + (2 ^ 16 * b.toNat + (2 ^ 8 * c.toNat + d.toNat)) := by
  have ha := a.toNat_lt
  have hb := b.toNat_lt
  have hc := c.toNat_lt
  have hd := d.toNat_lt
  simp only [bigEndian, UInt32.toNat_or, UInt32.toNat_shiftLeft, UInt8.toNat_toUInt32,
    Nat.shiftLeft_eq, UInt32.reduceToNat, Nat.reduceMod]
  rw [Nat.mod_eq_of_lt (by omega), Nat.mod_eq_of_lt (by omega), Nat.mod_eq_of_lt (by omega),
    Nat.mul_comm _ (2 ^ 24), Nat.mul_comm _ (2 ^ 16), Nat.mul_comm _ (2 ^ 8), Nat.or_assoc,
    Nat.or_assoc, ← Nat.two_pow_add_eq_or_of_lt hd,
    ← Nat.two_pow_add_eq_or_of_lt (i := 16) (by omega),
    ← Nat.two_pow_add_eq_or_of_lt (i := 24) (by omega)]

theorem bigEndian_inj {a b c d a' b' c' d' : UInt8} :
    bigEndian a b c d = bigEndian a' b' c' d' ↔ a = a' ∧ b = b' ∧ c = c' ∧ d = d' := by
  constructor
  · intro h
    have hnat := congrArg UInt32.toNat h
    rw [bigEndian_toNat, bigEndian_toNat] at hnat
    have hb := b.toNat_lt
    have hc := c.toNat_lt
    have hd := d.toNat_lt
    have hb' := b'.toNat_lt
    have hc' := c'.toNat_lt
    have hd' := d'.toNat_lt
    simp only [← UInt8.toNat_inj]
    omega
  · rintro ⟨rfl, rfl, rfl, rfl⟩
    rfl

/-- Nothing of the hardware version gets through. -/
theorem hardwareVersion_update (before : PowerVersionInfo) (data : PbData) :
    (before.update data).hardwareVersion = 0 := by
  have hlow : (data[4].toUInt32 <<< 24 ||| data[5].toUInt32 <<< 16).toNat % 2 ^ 16 = 0 := by
    simp only [UInt32.toNat_or, UInt32.toNat_shiftLeft, Nat.shiftLeft_eq, UInt32.reduceToNat,
      Nat.reduceMod, Nat.or_mod_two_pow]
    rw [Nat.or_eq_zero_iff]
    omega
  simp only [PowerVersionInfo.update]
  rw [← UInt32.toNat_inj, UInt16.toNat_toUInt32, UInt32.toNat_toUInt16, hlow]
  rfl

-- ---------------------------------------------------------------------------
-- Payloads
-- ---------------------------------------------------------------------------

theorem pbData_ext {data data' : PbData} (h0 : data.get 0 = data'.get 0)
    (h1 : data.get 1 = data'.get 1) (h2 : data.get 2 = data'.get 2) (h3 : data.get 3 = data'.get 3)
    (h4 : data.get 4 = data'.get 4) (h5 : data.get 5 = data'.get 5) : data = data' := by
  ext i hi
  match i, hi with
  | 0, _ => exact congrArg _ h0
  | 1, _ => exact congrArg _ h1
  | 2, _ => exact congrArg _ h2
  | 3, _ => exact congrArg _ h3
  | 4, _ => exact congrArg _ h4
  | 5, _ => exact congrArg _ h5

theorem pbTenths_words {data data' : PbData}
    (h0 : pbTenths (data'.get 0) (data'.get 1) = pbTenths (data.get 0) (data.get 1))
    (h1 : pbTenths (data'.get 2) (data'.get 3) = pbTenths (data.get 2) (data.get 3))
    (h2 : pbTenths (data'.get 4) (data'.get 5) = pbTenths (data.get 4) (data.get 5)) :
    data' = data := by
  rw [pbTenths_inj] at h0 h1 h2
  exact pbData_ext h0.1 h0.2 h1.1 h1.2 h2.1 h2.2

theorem version_eq_iff (before before' : PowerVersionInfo) (data data' : PbData) :
    before'.update data' = before.update data ↔
      data'.get 0 = data.get 0 ∧ data'.get 1 = data.get 1 ∧ data'.get 2 = data.get 2 ∧
        data'.get 3 = data.get 3 := by
  have h := hardwareVersion_update before data
  have h' := hardwareVersion_update before' data'
  rw [← bigEndian_inj]
  constructor
  · intro heq
    exact congrArg PowerVersionInfo.softwareVersion heq
  · intro hsoftware
    exact PowerVersionInfo.mk.injEq .. |>.mpr ⟨h'.trans h.symm, hsoftware⟩

/-- The payload can be rebuilt from what is stored, except by `PowerVersionInfo`. -/
theorem decoder_recovers_iff (c : PowerDecoder) (data : PbData) :
    c.Recovers data ↔ c = .powerStatus ∨ c = .batteryInfomation := by
  cases c with
  | powerStatus =>
    refine iff_of_true (fun before before' data' h => ?_) (.inl rfl)
    obtain ⟨hmax, hmin, hvalue⟩ := PowerStatus.mk.injEq .. |>.mp h
    exact pbTenths_words hmax hmin hvalue
  | batteryInfomation =>
    refine iff_of_true (fun before before' data' h => ?_) (.inr rfl)
    obtain ⟨hvoltage, hpower, hcurrent⟩ := BatteryInfomation.mk.injEq .. |>.mp h
    exact pbTenths_words hvoltage hpower hcurrent
  | powerVersionInfo =>
    refine iff_of_false (fun h => ?_) (by simp)
    -- another last byte, and the same version
    let other : UInt8 := data[5] + 1
    have hne : other ≠ data[5] := by simp [other]
    have hkeep (i : Fin 6) (hi : i ≠ 5) : (data.set 5 other).get i = data.get i :=
      Vector.getElem_set_ne (by decide) i.isLt fun h => hi (Fin.ext h.symm)
    have heq := (version_eq_iff {} {} data (data.set 5 other)).mpr
      ⟨hkeep 0 (by decide), hkeep 1 (by decide), hkeep 2 (by decide), hkeep 3 (by decide)⟩
    have hsame := h {} {} (data.set 5 other) heq
    exact hne (by simpa using congrArg (fun v : PbData => v[5]) hsame)

/-- Hardware versions 0 and 256. -/
theorem version_not_recovered :
    ¬ ∀ (c : PowerDecoder) (data : PbData), c.Recovers data := by
  intro h
  have hsame := h .powerVersionInfo #v[0, 0, 0, 1, 0, 0] {} {} #v[0, 0, 0, 1, 1, 0] rfl
  exact absurd hsame (by decide)

end TienKung
