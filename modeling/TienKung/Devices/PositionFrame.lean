import TienKung.Devices.MotorCommands
import TienKung.Lib.BitFields

/-!
# Position frames

`SetMotorPosition` packs a position, a speed and a current into eight bytes:
three bits of mode, 32 of a `float`, 15 of speed, 12 of current and two of
acknowledge. Speed and current are 16 bits wide when they are packed, and
nothing cuts them to their fields. `PositionFields.ofFrame_pack` says what the
frame holds for all of their values.
-/

namespace TienKung

-- ---------------------------------------------------------------------------
-- The frame
-- ---------------------------------------------------------------------------

/-- `buf[i]` of a bit pattern. -/
def bufByte (bits : UInt32) (i : Nat) : Nat := bits.toNat >>> (8 * i) % 256

def positionBytes (bits : UInt32) (spd cur : UInt16) : Vector Nat 8 :=
  let spd := spd.toNat
  let cur := cur.toNat
  let buf := bufByte bits
  #v[0x20 ||| buf 3 >>> 3, buf 3 <<< 5 ||| buf 2 >>> 3, buf 2 <<< 5 ||| buf 1 >>> 3,
    buf 1 <<< 5 ||| buf 0 >>> 3, buf 0 <<< 5 ||| spd >>> 10, (spd &&& 0x3FC) >>> 2,
    (spd &&& 0x03) <<< 6 ||| cur >>> 6, (cur &&& 0x3F) <<< 2 ||| 0x01]

def MotorConfig.packPosition (c : MotorConfig) (bits : UInt32) (spd cur : UInt16) :
    DeviceMessage where
  rtr := 0
  id := c.motorId.toUInt32
  dlc := 8
  data := bytes (positionBytes bits spd cur)

/-- `oPos`: the position in the encoder's frame, limited to what it can encode. -/
def MotorConfig.target (c : MotorConfig) (position : ℚ) : ℚ :=
  let oPos := position + c.zeroOffset
  if oPos ≥ posMax then posMax else if oPos ≤ posMin then posMin else oPos

/-- `uint16_t(x * 10)`, where the product is a `float`. -/
def tenths16 (x : ℚ) : UInt16 := UInt16.ofInt (truncate (roundFloat (x * 10)))

theorem MotorConfig.positionFrame_eq (c : MotorConfig) (position speed current : ℚ) :
    c.positionFrame position speed current =
      c.packPosition (floatBits (c.target position / pi * 180)) (tenths16 speed)
        (tenths16 current) := rfl

-- ---------------------------------------------------------------------------
-- Its fields
-- ---------------------------------------------------------------------------

structure PositionFields where
  mode : Nat
  position : Nat
  speed : Nat
  current : Nat
  acknowledge : Nat
  deriving DecidableEq

def PositionFields.layout : List Nat := [3, 32, 15, 12, 2]

def PositionFields.ofFrame (msg : DeviceMessage) : PositionFields :=
  let value := BitFields.unpack layout (BitFields.word msg.data.toList)
  ⟨value.getD 0 0, value.getD 1 0, value.getD 2 0, value.getD 3 0, value.getD 4 0⟩

theorem or_topBit_div_two (x : Nat) (spd : UInt16) : (x ||| spd.toNat >>> 15) / 2 = x / 2 := by
  have hs := spd.toNat_lt
  have hbit : spd.toNat >>> 15 / 2 = 0 := by
    rw [Nat.shiftRight_eq_div_pow]
    omega
  rw [Nat.or_div_two, hbit, Nat.or_zero]

theorem or_low_div_four (x t : Nat) (ht : t < 4) : (x ||| t) / 4 = x / 4 := by
  have hquarter (n : Nat) : n / 4 = n / 2 / 2 := by omega
  have hzero : t / 2 / 2 = 0 := by omega
  rw [hquarter, Nat.or_div_two, Nat.or_div_two, hzero, Nat.or_zero, ← hquarter]

theorem positionBytes_groups {bits : UInt32} {spd cur : UInt16} {pos speed : Nat}
    (hpos : pos = bits.toNat ||| spd.toNat >>> 15)
    (hspeed : speed = spd.toNat ||| cur.toNat >>> 12 % 4) :
    List.Forall₂ (fun x fs => BitFields.width fs = 8 ∧ x % 2 ^ 8 = BitFields.pack fs)
      (positionBytes bits spd cur).toList
      [[(3, 1), (5, pos / 2 ^ 27)], [(3, pos / 2 ^ 24), (5, pos / 2 ^ 19)],
        [(3, pos / 2 ^ 16), (5, pos / 2 ^ 11)], [(3, pos / 2 ^ 8), (5, pos / 2 ^ 3)],
        [(3, pos), (5, speed / 2 ^ 10)], [(8, speed / 2 ^ 2)],
        [(2, speed), (6, cur.toNat / 2 ^ 6)], [(6, cur.toNat), (2, 1)]] := by
  have hs := spd.toNat_lt
  have hc := cur.toNat_lt
  have hbuf (i : Nat) : bufByte bits i = bits.toNat / 2 ^ (8 * i) % 256 := by
    rw [bufByte, Nat.shiftRight_eq_div_pow]
  have hposHigh : pos / 2 = bits.toNat / 2 := hpos ▸ or_topBit_div_two bits.toNat spd
  have hspeedHigh : speed / 4 = spd.toNat / 4 :=
    hspeed ▸ or_low_div_four spd.toNat _ (Nat.mod_lt _ (by decide))
  refine .cons ⟨rfl, ?_⟩ (.cons ⟨rfl, ?_⟩ (.cons ⟨rfl, ?_⟩ (.cons ⟨rfl, ?_⟩ (.cons ⟨rfl, ?_⟩
    (.cons ⟨rfl, ?_⟩ (.cons ⟨rfl, ?_⟩ (.cons ⟨rfl, ?_⟩ .nil)))))))
  · have hmode : 0x20 = 1 <<< 5 := rfl
    rw [hmode, hbuf, Nat.shiftRight_eq_div_pow]
    apply BitFields.shift_or_of_lt 3 5 <;> omega
  · rw [hbuf, hbuf, Nat.shiftRight_eq_div_pow]
    apply BitFields.shift_or_of_lt 3 5 <;> omega
  · rw [hbuf, hbuf, Nat.shiftRight_eq_div_pow]
    apply BitFields.shift_or_of_lt 3 5 <;> omega
  · rw [hbuf, hbuf, Nat.shiftRight_eq_div_pow]
    apply BitFields.shift_or_of_lt 3 5 <;> omega
  · refine BitFields.shift_or 3 5 ?_ ?_
    · rw [hpos, ← Nat.shiftRight_add, Nat.or_mod_two_pow, Nat.or_mod_two_pow, hbuf]
      congr 1
      omega
    · rw [Nat.shiftRight_eq_div_pow]
      omega
  · have hbyte : (spd.toNat &&& 0x3FC) >>> 2 = spd.toNat / 2 ^ 2 % 2 ^ 8 := by
      rw [Nat.shiftRight_and_distrib, Nat.shiftRight_eq_div_pow]
      exact Nat.and_two_pow_sub_one_eq_mod _ 8
    rw [hbyte, BitFields.pack_singleton]
    omega
  · have hlow : spd.toNat &&& 0x03 = spd.toNat % 2 ^ 2 := Nat.and_two_pow_sub_one_eq_mod _ 2
    refine BitFields.shift_or 2 6 ?_ ?_
    · rw [hlow, hspeed, ← Nat.shiftRight_add, Nat.or_mod_two_pow, Nat.or_mod_two_pow, Nat.mod_mod,
        Nat.mod_mod]
    · rw [Nat.shiftRight_eq_div_pow]
  · have hlow : cur.toNat &&& 0x3F = cur.toNat % 2 ^ 6 := Nat.and_two_pow_sub_one_eq_mod _ 6
    rw [hlow]
    apply BitFields.shift_or_of_lt 6 2 <;> omega

/-- What the frame holds: the top bit of the speed goes into the position, and two bits of
the current go into the speed. -/
theorem PositionFields.ofFrame_pack (c : MotorConfig) (bits : UInt32) (spd cur : UInt16) :
    ofFrame (c.packPosition bits spd cur) = ⟨1, (bits.toNat ||| spd.toNat >>> 15) % 2 ^ 32,
      (spd.toNat ||| cur.toNat >>> 12 % 4) % 2 ^ 15, cur.toNat % 2 ^ 12, 1⟩ := by
  generalize hpos : bits.toNat ||| spd.toNat >>> 15 = pos
  generalize hspeed : spd.toNat ||| cur.toNat >>> 12 % 4 = speed
  have hpieces := BitFields.pack_pieces [([3], 1), ([5, 3, 5, 3, 5, 3, 5, 3], pos),
    ([5, 8, 2], speed), ([6, 6], cur.toNat), ([2], 1)]
  have hdata : (c.packPosition bits spd cur).data.toList =
      (positionBytes bits spd cur).toList.map UInt8.ofNat :=
    Vector.toList_map
  have hvalue : BitFields.unpack layout (BitFields.word (c.packPosition bits spd cur).data.toList) =
      [1, pos % 2 ^ 32, speed % 2 ^ 15, cur.toNat % 2 ^ 12, 1] := by
    rw [hdata]
    exact BitFields.unpack_word [(3, 1), (32, pos), (15, speed), (12, cur.toNat), (2, 1)]
      (positionBytes_groups hpos.symm hspeed.symm) (by simpa [BitFields.cut] using hpieces)
  rw [ofFrame, hvalue]
  rfl

/-- The mode, the position and the acknowledge are those written, and the speed is the one of
a frame without a current. -/
structure MotorConfig.PositionIntact (c : MotorConfig) (bits : UInt32) (spd cur : UInt16) :
    Prop where
  mode : (PositionFields.ofFrame (c.packPosition bits spd cur)).mode = 1
  position : (PositionFields.ofFrame (c.packPosition bits spd cur)).position = bits.toNat
  acknowledge : (PositionFields.ofFrame (c.packPosition bits spd cur)).acknowledge = 1
  speed : (PositionFields.ofFrame (c.packPosition bits spd cur)).speed =
    (PositionFields.ofFrame (c.packPosition bits spd 0)).speed

theorem or_topBit_eq_iff (bits : UInt32) (spd : UInt16) :
    (bits.toNat ||| spd.toNat >>> 15) % 2 ^ 32 = bits.toNat ↔
      spd.toNat < 2 ^ 15 ∨ bits.toNat % 2 = 1 := by
  have hs := spd.toNat_lt
  have hx := bits.toNat_lt
  rw [Nat.or_mod_two_pow, Nat.mod_eq_of_lt hx, Nat.shiftRight_eq_div_pow]
  by_cases hsmall : spd.toNat < 2 ^ 15
  · rw [Nat.div_eq_of_lt hsmall, Nat.zero_mod, Nat.or_zero]
    exact iff_of_true rfl (.inl hsmall)
  · have hone : spd.toNat / 2 ^ 15 % 2 ^ 32 = 1 := by omega
    have hdiv : (bits.toNat ||| 1) / 2 = bits.toNat / 2 := by rw [Nat.or_div_two, Nat.or_zero]
    have hmod : (bits.toNat ||| 1) % 2 = 1 := Nat.or_mod_two_eq_one.mpr (.inr rfl)
    rw [hone]
    omega

theorem or_low_eq_iff (spd t : Nat) (ht : t < 4) :
    (spd ||| t) % 2 ^ 15 = spd % 2 ^ 15 ↔ spd % 4 ||| t = spd % 4 := by
  have hlow : (spd ||| t) % 4 = spd % 4 ||| t := by
    have hmod := Nat.or_mod_two_pow (a := spd) (b := t) (n := 2)
    rwa [Nat.mod_eq_of_lt (a := t) ht] at hmod
  have hhigh := or_low_div_four spd t ht
  rw [← hlow]
  omega

/-- `SetMotorPosition` sends its arguments in the frame the model packs, and that frame is intact
exactly when neither the speed nor the current sets a bit of a field above its own. -/
theorem position_frame_intact_iff (c : MotorConfig) :
    (∀ position speed current, c.positionFrame position speed current =
      c.packPosition (floatBits (c.target position / pi * 180)) (tenths16 speed)
        (tenths16 current)) ∧
    ∀ bits spd cur, c.PositionIntact bits spd cur ↔
      (spd.toNat < 2 ^ 15 ∨ bits.toNat % 2 = 1) ∧
        spd.toNat % 4 ||| cur.toNat >>> 12 % 4 = spd.toNat % 4 := by
  refine ⟨c.positionFrame_eq, fun bits spd cur => ?_⟩
  have hnone : spd.toNat ||| (0 : UInt16).toNat >>> 12 % 4 = spd.toNat := Nat.or_zero _
  rw [← or_topBit_eq_iff, ← or_low_eq_iff _ _ (Nat.mod_lt _ (by decide))]
  constructor
  · intro h
    have hposition := h.position
    have hspeed := h.speed
    simp only [PositionFields.ofFrame_pack, hnone] at hposition hspeed
    exact ⟨hposition, hspeed⟩
  · rintro ⟨hposition, hspeed⟩
    constructor <;> simp only [PositionFields.ofFrame_pack, hnone, hposition, hspeed]

/-- A current of 409.6 A sets a bit of the speed, and a speed of 3276.8 one of the position. -/
theorem position_frame_spills :
    ¬ MotorConfig.PositionIntact ⟨1, .s4310, 0⟩ 0 (tenths16 0) (tenths16 (4096 / 10)) ∧
      ¬ MotorConfig.PositionIntact ⟨1, .s4310, 0⟩ 0 (tenths16 (32768 / 10)) (tenths16 0) := by
  constructor
  · intro h
    have hspeed := h.speed
    revert hspeed
    decide +kernel
  · intro h
    have hposition := h.position
    revert hposition
    decide +kernel

end TienKung
