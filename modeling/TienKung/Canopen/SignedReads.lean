import TienKung.Canopen.Codec

/-!
# Signed values

A drive answers a read in one to four bytes of two's complement. `Message` puts
the bytes together as an unsigned word, and `GetInfo` takes the word for an
`int`: with fewer than four bytes the sign is lost. The signed current is a
product of two `int`s, divided as a `double` and cut to a `short`.
-/

namespace TienKung

open Sdo (Ins Message Width word toNat_word)

-- ---------------------------------------------------------------------------
-- Answers
-- ---------------------------------------------------------------------------

inductive Measured
  | velocity | position | current
  deriving DecidableEq

def Measured.label : Measured → Ins
  | .velocity => .actualVelocity
  | .position => .actualPositionValue
  | .current => .motorActualCurrent

def Measured.cached : Measured → CanopenMotor → Int32
  | .velocity => CanopenMotor.receiveVel
  | .position => CanopenMotor.receivePos
  | .current => CanopenMotor.receiveCurrent

def Sdo.Width.Holds (w : Width) (v : Int) : Prop :=
  -2 ^ (8 * w.count - 1) ≤ v ∧ v < 2 ^ (8 * w.count - 1)

instance (w : Width) (v : Int) : Decidable (w.Holds v) := by
  unfold Sdo.Width.Holds; infer_instance

/-- The answer to a read: `RESP_READ_nBYTES`, the object, and `v` in two's complement. -/
structure Measured.Answer (q : Measured) (w : Width) (v : Int) (msg : DeviceMessage) : Prop where
  id : msg.id ≠ 0
  dlc : msg.dlc = 8
  type : msg.data.get 0 = w.respRead
  object : (Message.ofBytes 0 msg.id msg.data).getIns = q.label.value
  data : (Words.value ((msg.data.toList.drop 4).take w.count) : Int) = v % 2 ^ (8 * w.count)

/-- The cached value is the one that was sent, and no step of the signed current overflows. -/
structure Measured.Kept (q : Measured) (v : Int) (before after : CanopenMotor) : Prop where
  value : (q.cached after).toInt = v
  signed : q = .current → -2 ^ 31 ≤ v * before.ratedCurrent.toInt ∧
    v * before.ratedCurrent.toInt < 2 ^ 31 ∧
    after.signedCurrent.toInt = (v * before.ratedCurrent.toInt).tdiv 10000

-- ---------------------------------------------------------------------------
-- What is cached
-- ---------------------------------------------------------------------------

theorem dataBytes_toList (bytes : Vector UInt8 8) :
    bytes.toList.drop 4 = [bytes.get 4, bytes.get 5, bytes.get 6, bytes.get 7] := by
  obtain ⟨⟨xs⟩, hsize⟩ := bytes
  match xs, hsize with
  | [_, _, _, _, _, _, _, _], _ => rfl

section
variable {drv : Driver} {q : Measured} {w : Width} {v : Int} {msg : DeviceMessage}

theorem Sdo.Message.ofBytes_data (uninit idCan : UInt32) {bytes : Vector UInt8 8}
    (h : bytes.get 0 = w.respRead) :
    (ofBytes uninit idCan bytes).data = word ((bytes.toList.drop 4).take w.count) := by
  rw [dataBytes_toList]
  cases w <;> simp [ofBytes, h, Width.respRead, Width.count, respWriteNormal, respRead4Bytes,
    respRead3Bytes, respRead2Bytes, respRead1Byte]

theorem Measured.Answer.toNat_data (h : q.Answer w v msg) (uninit : UInt32) :
    ((Message.ofBytes uninit msg.id msg.data).data.toNat : Int) = v % 2 ^ (8 * w.count) := by
  have hw : w.count ≤ 4 := by cases w <;> decide
  rw [Message.ofBytes_data uninit msg.id h.type, toNat_word (by simp [hw]), h.data]

theorem Measured.Answer.toInt_data_iff (h : q.Answer w v msg) (hv : w.Holds v) (uninit : UInt32) :
    (Message.ofBytes uninit msg.id msg.data).data.toInt32.toInt = v ↔ w = .four ∨ 0 ≤ v := by
  have hword := h.toNat_data uninit
  generalize (Message.ofBytes uninit msg.id msg.data).data = data at hword
  have hint : data.toInt32.toInt = (data.toNat : Int).bmod (2 ^ 32) :=
    BitVec.toInt_eq_toNat_bmod data.toBitVec
  rw [hint, hword]
  obtain ⟨hlow, hhigh⟩ := hv
  cases w with
  | four =>
    have hsame : (v % 2 ^ 32).bmod (2 ^ 32) = v := by
      rw [show (2 ^ 32 : Int) = (2 ^ 32 : Nat) from rfl, Int.emod_bmod]
      exact Int.bmod_eq_of_le hlow hhigh
    exact iff_of_true hsame (.inl rfl)
  | _ =>
    simp only [Width.count, reduceCtorEq, false_or] at hlow hhigh ⊢
    rw [Int.bmod_eq_of_le] <;> omega

theorem Measured.Answer.takes (h : q.Answer w v msg) : CanopenMotor.Takes q.label msg := by
  refine ⟨h.id, ?_, h.object⟩
  rw [h.dlc]
  decide

theorem Measured.cached_onResponse (h : q.Answer w v msg) (uninit : UInt32) (d : CanopenMotor) :
    q.cached (d.onResponse drv uninit msg).1 =
      (Message.ofBytes uninit msg.id msg.data).data.toInt32 := by
  have hlabel : q.label ∈ drv.labels := by cases q <;> simp [Driver.labels, label]
  have hmember : q.cached (d.onResponse drv uninit msg).1 = _ :=
    CanopenMotor.onResponse_member (f := q.cached) hlabel (fun _ _ _ => by cases q <;> rfl)
      (fun _ other _ h => by cases q <;> cases other <;> first | rfl | exact absurd rfl h) uninit
  rw [hmember, if_pos h.takes]
  cases q <;> rfl

theorem Measured.signedCurrent_onResponse (h : Measured.current.Answer w v msg) (uninit : UInt32)
    (d : CanopenMotor) : (d.onResponse drv uninit msg).1.signedCurrent = signedCurrentOf
      (Message.ofBytes uninit msg.id msg.data).data.toInt32 d.ratedCurrent := by
  have hlabel : Ins.motorActualCurrent ∈ drv.labels := by simp [Driver.labels]
  have hmember : (d.onResponse drv uninit msg).1.signedCurrent = _ :=
    CanopenMotor.onResponse_member (f := fun d => d.signedCurrent) hlabel (fun _ _ _ => rfl)
      (fun _ other _ h => by cases other <;> first | rfl | exact absurd rfl h) uninit
  have htakes : CanopenMotor.Takes .motorActualCurrent msg := h.takes
  rw [hmember, if_pos htakes]
  rfl

end

-- ---------------------------------------------------------------------------
-- The signed current
-- ---------------------------------------------------------------------------

theorem signedCurrentOf_exact_iff (receiveCurrent ratedCurrent : Int32) :
    (-2 ^ 31 ≤ receiveCurrent.toInt * ratedCurrent.toInt ∧
      receiveCurrent.toInt * ratedCurrent.toInt < 2 ^ 31 ∧
      (signedCurrentOf receiveCurrent ratedCurrent).toInt =
        (receiveCurrent.toInt * ratedCurrent.toInt).tdiv 10000) ↔
    -327690000 < receiveCurrent.toInt * ratedCurrent.toInt ∧
      receiveCurrent.toInt * ratedCurrent.toInt < 327680000 := by
  have hproduct : (receiveCurrent * ratedCurrent).toInt =
      (receiveCurrent.toInt * ratedCurrent.toInt).bmod (2 ^ 32) := Int32.toInt_mul ..
  rw [signedCurrentOf, Int16.toInt_ofInt, hproduct]
  generalize receiveCurrent.toInt * ratedCurrent.toInt = p
  have hquotient : (-32768 ≤ p.tdiv 10000 ∧ p.tdiv 10000 < 32768) ↔
      -327690000 < p ∧ p < 327680000 := by
    rw [Int.tdiv_eq_ediv]
    have hsign : Int.sign 10000 = 1 := rfl
    split_ifs <;> omega
  rw [← hquotient]
  have hlow : -32768 ≤ (p.tdiv 10000).bmod Int16.size := Int.le_bmod (by decide)
  have hhigh : (p.tdiv 10000).bmod Int16.size < 32768 := Int.bmod_lt (by decide)
  constructor
  · rintro ⟨h0, h1, he⟩
    have hfits : p.bmod (2 ^ 32) = p := Int.bmod_eq_of_le h0 h1
    rw [hfits] at he
    rw [he] at hlow hhigh
    exact ⟨hlow, hhigh⟩
  · intro h
    obtain ⟨h0, h1⟩ := hquotient.mp h
    have hfits : p.bmod (2 ^ 32) = p := Int.bmod_eq_of_le (by omega) (by omega)
    refine ⟨by omega, by omega, ?_⟩
    rw [hfits]
    exact Int.bmod_eq_of_le h.1 h.2

/-- Every answer in the widths of the protocol reaches the cache with its sign if it has four bytes
or no sign, and as a current if the quotient with the rated one is a `short`. -/
theorem signed_read_iff (drv : Driver) (uninit : UInt32) (d : CanopenMotor) (q : Measured)
    (w : Width) (v : Int) (hv : w.Holds v) (msg : DeviceMessage) (h : q.Answer w v msg) :
    q.Kept v d (d.onResponse drv uninit msg).1 ↔ (w = .four ∨ 0 ≤ v) ∧
      (q = .current → -327690000 < v * d.ratedCurrent.toInt ∧
        v * d.ratedCurrent.toInt < 327680000) := by
  have hcached : q.cached (d.onResponse drv uninit msg).1 = _ := Measured.cached_onResponse h uninit d
  rw [← h.toInt_data_iff hv uninit]
  have hsigned (hvalue : (q.cached (d.onResponse drv uninit msg).1).toInt = v)
      (hq : q = .current) : (-2 ^ 31 ≤ v * d.ratedCurrent.toInt ∧
        v * d.ratedCurrent.toInt < 2 ^ 31 ∧
        (d.onResponse drv uninit msg).1.signedCurrent.toInt =
          (v * d.ratedCurrent.toInt).tdiv 10000) ↔
      -327690000 < v * d.ratedCurrent.toInt ∧ v * d.ratedCurrent.toInt < 327680000 := by
    subst hq
    rw [Measured.signedCurrent_onResponse h, ← hvalue, hcached]
    exact signedCurrentOf_exact_iff _ _
  rw [hcached] at hsigned
  constructor
  · rintro ⟨hvalue, hexact⟩
    rw [hcached] at hvalue
    exact ⟨hvalue, fun hq => (hsigned hvalue hq).mp (hexact hq)⟩
  · rintro ⟨hvalue, hbounds⟩
    exact ⟨hcached ▸ hvalue, fun hq => (hsigned hvalue hq).mpr (hbounds hq)⟩

theorem signed_read_iff_four_bytes :
    Measured.velocity.Kept (-1) { mode := .fphc } ((CanopenMotor.onResponse .eyou 0 { mode := .fphc }
      ⟨0x581, 0, 8, #v[0x43, 0x6C, 0x60, 0, 0xFF, 0xFF, 0xFF, 0xFF]⟩)).1 :=
  (signed_read_iff .eyou 0 { mode := .fphc } .velocity .four (-1) (by decide) _
    ⟨by decide, rfl, rfl, by decide, by decide⟩).mpr ⟨.inl rfl, nofun⟩

/-- A speed of -1 in two bytes is cached as 65535, and with a rated current of 10000 a current of
32768 is too large. -/
theorem sign_lost :
    (∃ msg, Measured.velocity.Answer .two (-1) msg ∧ ¬ Measured.velocity.Kept (-1) { mode := .fphc }
      (CanopenMotor.onResponse .zeroErr 0 { mode := .fphc } msg).1) ∧
    ∃ msg, Measured.current.Answer .four 32768 msg ∧
      ¬ Measured.current.Kept 32768 { mode := .fphc, ratedCurrent := 10000 }
        (CanopenMotor.onResponse .zeroErr 0 { mode := .fphc, ratedCurrent := 10000 } msg).1 := by
  constructor
  · refine ⟨⟨0x581, 0, 8, #v[0x4B, 0x6C, 0x60, 0, 0xFF, 0xFF, 0, 0]⟩,
      ⟨by decide, rfl, rfl, by decide, by decide⟩, fun h => ?_⟩
    have hvalue := h.value
    revert hvalue
    decide +kernel
  · refine ⟨⟨0x581, 0, 8, #v[0x43, 0x78, 0x60, 0, 0, 0x80, 0, 0]⟩,
      ⟨by decide, rfl, rfl, by decide, by decide⟩, fun h => ?_⟩
    have hsigned := h.signed
    revert hsigned
    decide +kernel

end TienKung
