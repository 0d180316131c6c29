import TienKung.Devices.MathOps
import TienKung.Lib.BitFields
import TienKung.Lib.Extended

/-!
# Control frames

`SendMotorCtrlCmd` clamps five numbers to their ranges, quantises them and packs
them after three bits of mode. On numbers, and with one of the four motor types,
each field is its own and less than a step below what it stands for. The
commands come unchecked from a message and the type from a file, so the calls of
`float_to_uint` are also looked at with infinities, NaN and any type.
-/

namespace TienKung

-- ---------------------------------------------------------------------------
-- The frame
-- ---------------------------------------------------------------------------

def ctrlBytes (kp kd pos spd tor : Nat) : Vector Nat 8 :=
  #v[kp >>> 7, (kp &&& 0x7F) <<< 1 ||| (kd &&& 0x100) >>> 8, kd &&& 0xFF, pos >>> 8, pos &&& 0xFF,
    spd >>> 4, (spd &&& 0x0F) <<< 4 ||| tor >>> 8, tor &&& 0xff]

def packCtrl (motorId : UInt16) (kp kd pos spd tor : Nat) : DeviceMessage where
  rtr := 0
  id := motorId.toUInt32
  dlc := 8
  data := bytes (ctrlBytes kp kd pos spd tor)

structure CtrlFields where
  mode : Nat
  kp : Nat
  kd : Nat
  position : Nat
  speed : Nat
  torque : Nat
  deriving DecidableEq

def CtrlFields.layout : List Nat := [3, 12, 9, 16, 12, 12]

def CtrlFields.ofFrame (msg : DeviceMessage) : CtrlFields :=
  let value := BitFields.unpack layout (BitFields.word msg.data.toList)
  ⟨value.getD 0 0, value.getD 1 0, value.getD 2 0, value.getD 3 0, value.getD 4 0, value.getD 5 0⟩

section
variable {kp kd pos spd tor : Nat}

theorem ctrlBytes_groups (hkp : kp < 2 ^ 12) (hkd : kd < 2 ^ 9) (htor : tor < 2 ^ 12) :
    List.Forall₂ (fun x fs => BitFields.width fs = 8 ∧ x % 2 ^ 8 = BitFields.pack fs)
      (ctrlBytes kp kd pos spd tor).toList
      [[(3, 0), (5, kp / 2 ^ 7)], [(7, kp), (1, kd / 2 ^ 8)], [(8, kd)], [(8, pos / 2 ^ 8)],
        [(8, pos)], [(8, spd / 2 ^ 4)], [(4, spd), (4, tor / 2 ^ 8)], [(8, tor)]] := by
  have hmask (x n : Nat) : x &&& (2 ^ n - 1) = x % 2 ^ n := Nat.and_two_pow_sub_one_eq_mod x n
  have hkd8 : (kd &&& 0x100) >>> 8 = kd / 2 ^ 8 := by
    rw [Nat.shiftRight_and_distrib, Nat.shiftRight_eq_div_pow]
    exact (hmask _ 1).trans (Nat.mod_eq_of_lt (by omega))
  refine .cons ⟨rfl, ?_⟩ (.cons ⟨rfl, ?_⟩ (.cons ⟨rfl, ?_⟩ (.cons ⟨rfl, ?_⟩ (.cons ⟨rfl, ?_⟩
    (.cons ⟨rfl, ?_⟩ (.cons ⟨rfl, ?_⟩ (.cons ⟨rfl, ?_⟩ .nil)))))))
  · have hmode : kp >>> 7 = 0 <<< 5 ||| kp >>> 7 := by rw [Nat.zero_shiftLeft, Nat.zero_or]
    rw [hmode, Nat.shiftRight_eq_div_pow]
    exact BitFields.shift_or_of_lt 3 5 (by omega) rfl rfl
  · rw [hkd8, show kp &&& 0x7F = _ from hmask kp 7]
    apply BitFields.shift_or_of_lt 7 1 <;> omega
  · rw [show kd &&& 0xFF = _ from hmask kd 8, BitFields.pack_singleton]
    omega
  · rw [Nat.shiftRight_eq_div_pow, BitFields.pack_singleton]
  · rw [show pos &&& 0xFF = _ from hmask pos 8, BitFields.pack_singleton]
    omega
  · rw [Nat.shiftRight_eq_div_pow, BitFields.pack_singleton]
  · rw [Nat.shiftRight_eq_div_pow, show spd &&& 0x0F = _ from hmask spd 4]
    apply BitFields.shift_or_of_lt 4 4 <;> omega
  · rw [show tor &&& 0xff = _ from hmask tor 8, BitFields.pack_singleton]
    omega

theorem CtrlFields.ofFrame_packCtrl (motorId : UInt16) (hkp : kp < 2 ^ 12) (hkd : kd < 2 ^ 9)
    (hpos : pos < 2 ^ 16) (hspd : spd < 2 ^ 12) (htor : tor < 2 ^ 12) :
    ofFrame (packCtrl motorId kp kd pos spd tor) = ⟨0, kp, kd, pos, spd, tor⟩ := by
  have hpieces := BitFields.pack_pieces [([3], 0), ([5, 7], kp), ([1, 8], kd), ([8, 8], pos),
    ([8, 4], spd), ([4, 8], tor)]
  have hdata : (packCtrl motorId kp kd pos spd tor).data.toList =
      (ctrlBytes kp kd pos spd tor).toList.map UInt8.ofNat :=
    Vector.toList_map
  have hvalue := BitFields.unpack_word
    [(3, 0), (12, kp), (9, kd), (16, pos), (12, spd), (12, tor)] (ctrlBytes_groups hkp hkd htor)
    (by simpa [BitFields.cut] using hpieces)
  rw [← hdata] at hvalue
  simp only [List.map_cons, List.map_nil, Nat.mod_eq_of_lt hkp, Nat.mod_eq_of_lt hkd,
    Nat.mod_eq_of_lt hpos, Nat.mod_eq_of_lt hspd, Nat.mod_eq_of_lt htor] at hvalue
  have hvalue : BitFields.unpack layout (BitFields.word
      (packCtrl motorId kp kd pos spd tor).data.toList) = [0, kp, kd, pos, spd, tor] := hvalue
  rw [ofFrame, hvalue]
  rfl

end

-- ---------------------------------------------------------------------------
-- Numbers
-- ---------------------------------------------------------------------------

/-- A field decodes to the commanded value, clamped to its range, or less than one step below. -/
def WithinStep (field : Nat) (x xMin xMax : ℚ) (bits : Nat) : Prop :=
  uintToFloat field xMin xMax bits ≤ clamp x xMin xMax ∧
    clamp x xMin xMax < uintToFloat field xMin xMax bits + (xMax - xMin) / (2 ^ bits - 1)

section
variable {x xMin xMax : ℚ} {bits : Nat}

theorem floatToUint_cast (hrange : xMin < xMax) (hx : xMin ≤ x) :
    (floatToUint x xMin xMax bits : Int) = Quantise.level x xMin xMax (2 ^ bits - 1) := by
  rw [MathOps.toNat_floatToUint, MathOps.floatToUint_eq_level hrange hx]
  exact Int.toNat_of_nonneg (Quantise.level_nonneg hrange hx)

theorem floatToUint_lt (hrange : xMin < xMax) (hx : xMin ≤ x ∧ x ≤ xMax) :
    floatToUint x xMin xMax bits < 2 ^ bits := by
  have hle := Quantise.level_le (n := 2 ^ bits - 1) hrange hx.2
  rw [← floatToUint_cast hrange hx.1] at hle
  have hpos := Nat.two_pow_pos bits
  omega

theorem uintToFloat_eq (n : Nat) :
    uintToFloat n xMin xMax bits = Quantise.value n xMin xMax (2 ^ bits - 1) := by
  rw [← MathOps.uintToFloat_natCast, MathOps.uintToFloat_eq_value]

theorem withinStep_floatToUint (hrange : xMin < xMax) (hbits : 0 < bits) (x : ℚ) :
    WithinStep (floatToUint (clamp x xMin xMax) xMin xMax bits) x xMin xMax bits := by
  have hmem := clamp_mem hrange.le x
  have hlevels : 0 < 2 ^ bits - 1 := by
    have := Nat.one_lt_two_pow hbits.ne'
    omega
  rw [WithinStep, uintToFloat_eq, floatToUint_cast hrange hmem.1, ← cast_levels]
  exact ⟨Quantise.value_level_le hrange hlevels, Quantise.lt_value_level_add hrange hlevels⟩

end

theorem MotorConfig.ctrlFrame_eq (c : MotorConfig) (kp kd position speed torque : ℚ) :
    c.ctrlFrame kp kd position speed torque = packCtrl c.motorId
      (floatToUint (clamp kp kpMin kpMax) kpMin kpMax 12)
      (floatToUint (clamp kd kdMin kdMax) kdMin kdMax 9)
      (floatToUint (clamp (position + c.zeroOffset) posMin posMax) posMin posMax 16)
      (floatToUint (clamp speed spdMin spdMax) spdMin spdMax 12)
      (floatToUint (clamp torque (-c.type.torMax) c.type.torMax) (-c.type.torMax) c.type.torMax 12) :=
  rfl

theorem MotorType.torMax_pos_iff (n : Int) : 0 < (ofInt n).torMax ↔ 1 ≤ n ∧ n ≤ 4 := by
  unfold ofInt
  split
  · exact iff_of_true (by decide +kernel) (by decide)
  · exact iff_of_true (by decide +kernel) (by decide)
  · exact iff_of_true (by decide +kernel) (by decide)
  · exact iff_of_true (by decide +kernel) (by decide)
  · refine iff_of_false (lt_irrefl _) ?_
    grind

theorem MotorType.torMax_nonneg (type : MotorType) : 0 ≤ type.torMax := by
  cases type with
  | other value => exact le_rfl
  | _ => decide +kernel

/-- On numbers the frame of a known motor type holds what was commanded, up to a step. -/
theorem ctrl_frame_decodes (motorId : UInt16) (n : Int) (hn : 1 ≤ n ∧ n ≤ 4)
    (zeroOffset kp kd position speed torque : ℚ) :
    let c : MotorConfig := ⟨motorId, .ofInt n, zeroOffset⟩
    let f := CtrlFields.ofFrame (c.ctrlFrame kp kd position speed torque)
    f.mode = 0 ∧ WithinStep f.kp kp kpMin kpMax 12 ∧ WithinStep f.kd kd kdMin kdMax 9 ∧
      WithinStep f.position (position + zeroOffset) posMin posMax 16 ∧
      WithinStep f.speed speed spdMin spdMax 12 ∧
      WithinStep f.torque torque (-c.type.torMax) c.type.torMax 12 ∧
      posMin ≤ uintToFloat f.position posMin posMax 16 ∧
      uintToFloat f.position posMin posMax 16 ≤ posMax := by
  intro c f
  have htor : -c.type.torMax < c.type.torMax := by
    have h0 : 0 < c.type.torMax := (MotorType.torMax_pos_iff n).mpr hn
    exact neg_lt_self h0
  have hposition : WithinStep _ (position + zeroOffset) posMin posMax 16 :=
    withinStep_floatToUint pos_range (by decide) _
  have hframe : f = CtrlFields.ofFrame (packCtrl motorId _ _ _ _ _) :=
    congrArg CtrlFields.ofFrame (c.ctrlFrame_eq kp kd position speed torque)
  have hf : f = ⟨0, _, _, _, _, _⟩ := hframe.trans (CtrlFields.ofFrame_packCtrl motorId
    (floatToUint_lt kp_range (clamp_mem kp_range.le kp))
    (floatToUint_lt kd_range (clamp_mem kd_range.le kd))
    (floatToUint_lt pos_range (clamp_mem pos_range.le (position + zeroOffset)))
    (floatToUint_lt spd_range (clamp_mem spd_range.le speed))
    (floatToUint_lt htor (clamp_mem htor.le torque)))
  clear hframe
  clear_value f
  subst hf
  refine ⟨rfl, withinStep_floatToUint kp_range (by decide) kp,
    withinStep_floatToUint kd_range (by decide) kd, hposition,
    withinStep_floatToUint spd_range (by decide) speed,
    withinStep_floatToUint htor (by decide) torque, ?_, hposition.1.trans (clamp_mem pos_range.le _).2⟩
  rw [uintToFloat_eq]
  exact Quantise.le_value pos_range (Int.natCast_nonneg _)

theorem ctrl_frame_decodes_h13715 :
    let c : MotorConfig := ⟨7, .ofInt 4, 1 / 2⟩
    let f := CtrlFields.ofFrame (c.ctrlFrame 100 2 (-13) 20 (-320))
    f.mode = 0 ∧ WithinStep f.kp 100 kpMin kpMax 12 ∧ WithinStep f.kd 2 kdMin kdMax 9 ∧
      WithinStep f.position (-13 + 1 / 2) posMin posMax 16 ∧
      WithinStep f.speed 20 spdMin spdMax 12 ∧
      WithinStep f.torque (-320) (-c.type.torMax) c.type.torMax 12 ∧
      posMin ≤ uintToFloat f.position posMin posMax 16 ∧
      uintToFloat f.position posMin posMax 16 ≤ posMax :=
  ctrl_frame_decodes 7 4 (by decide) (1 / 2) 100 2 (-13) 20 (-320)

-- ---------------------------------------------------------------------------
-- Unchecked values
-- ---------------------------------------------------------------------------

structure FloatToUint where
  x : Extended ℚ
  xMin : ℚ
  xMax : ℚ
  bits : Nat
  deriving DecidableEq

def FloatToUint.result? (call : FloatToUint) : Option Int :=
  match call.x with
  | .fin x =>
    if call.xMax - call.xMin = 0 then none
    else
      let n := truncate ((x - call.xMin) * (2 ^ call.bits - 1) / (call.xMax - call.xMin))
      if -2 ^ 31 ≤ n ∧ n < 2 ^ 31 then some n else none
  | _ => none

structure CtrlCalls where
  kp : FloatToUint
  kd : FloatToUint
  pos : FloatToUint
  spd : FloatToUint
  tor : FloatToUint

/-- The calls that `SendMotorCtrlCmd` makes, in their order. -/
def CtrlCalls.of (type : MotorType) (zeroOffset kp kd position speed torque : Extended ℚ) :
    CtrlCalls where
  kp := ⟨kp.clamp kpMin kpMax, kpMin, kpMax, 12⟩
  kd := ⟨kd.clamp kdMin kdMax, kdMin, kdMax, 9⟩
  pos := ⟨(position.add zeroOffset).clamp posMin posMax, posMin, posMax, 16⟩
  spd := ⟨speed.clamp spdMin spdMax, spdMin, spdMax, 12⟩
  tor := ⟨torque.clamp (-type.torMax) type.torMax, -type.torMax, type.torMax, 12⟩

def intBits (n : Int) : Nat := (n % 2 ^ 32).toNat

def CtrlCalls.frame? (calls : CtrlCalls) (motorId : UInt16) : Option DeviceMessage := do
  let kpInt ← calls.kp.result?
  let kdInt ← calls.kd.result?
  let posInt ← calls.pos.result?
  let spdInt ← calls.spd.result?
  let torInt ← calls.tor.result?
  return packCtrl motorId (intBits kpInt) (intBits kdInt) (intBits posInt) (intBits spdInt)
    (intBits torInt)

def FloatToUint.Proper (call : FloatToUint) : Prop :=
  call.xMax - call.xMin ≠ 0 ∧ ∃ x, call.x = .fin x ∧ call.xMin ≤ x ∧ x ≤ call.xMax

/-- Every call is proper, its result fits the field, and the frame holds the five results. -/
structure CtrlCalls.Safe (calls : CtrlCalls) (motorId : UInt16) : Prop where
  kp : calls.kp.Proper
  kd : calls.kd.Proper
  pos : calls.pos.Proper
  spd : calls.spd.Proper
  tor : calls.tor.Proper
  apart : ∃ kp kd pos spd tor : Nat, calls.kp.result? = some ↑kp ∧ kp ≤ 2 ^ 12 - 1 ∧
    calls.kd.result? = some ↑kd ∧ kd ≤ 2 ^ 9 - 1 ∧ calls.pos.result? = some ↑pos ∧
    pos ≤ 2 ^ 16 - 1 ∧ calls.spd.result? = some ↑spd ∧ spd ≤ 2 ^ 12 - 1 ∧
    calls.tor.result? = some ↑tor ∧ tor ≤ 2 ^ 12 - 1 ∧
    (calls.frame? motorId).map CtrlFields.ofFrame = some ⟨0, kp, kd, pos, spd, tor⟩

theorem FloatToUint.Proper.result {call : FloatToUint} (h : call.Proper)
    (hrange : call.xMin < call.xMax) (hbits : call.bits ≤ 31) :
    ∃ n : Nat, call.result? = some ↑n ∧ n < 2 ^ call.bits := by
  obtain ⟨hspan, x, hx, hmem⟩ := h
  have hlt : floatToUint x call.xMin call.xMax call.bits < 2 ^ call.bits :=
    floatToUint_lt hrange hmem
  have hcast : (floatToUint x call.xMin call.xMax call.bits : Int) = _ :=
    floatToUint_cast hrange hmem.1
  have hint : floatToUint x call.xMin call.xMax call.bits < 2 ^ 31 :=
    hlt.trans_le (Nat.pow_le_pow_right (by decide) hbits)
  refine ⟨floatToUint x call.xMin call.xMax call.bits, ?_, hlt⟩
  simp only [result?, hx, if_neg hspan, truncate_eq_level hrange hmem.1, ← hcast]
  rw [if_pos]
  omega

theorem proper_clamp_iff {x : Extended ℚ} {xMin xMax : ℚ} {bits : Nat} (hle : xMin ≤ xMax) :
    FloatToUint.Proper ⟨x.clamp xMin xMax, xMin, xMax, bits⟩ ↔ xMin < xMax ∧ x ≠ .nan := by
  constructor
  · rintro ⟨hspan, y, hy, -⟩
    refine ⟨lt_of_le_of_ne hle fun h => hspan (by rw [h, sub_self]), ?_⟩
    rintro rfl
    cases hy
  · rintro ⟨hlt, hx⟩
    obtain ⟨y, hy, hmem⟩ := Extended.clamp_mem hle hx
    exact ⟨(sub_pos.mpr hlt).ne', y, hy, hmem⟩

theorem clamped_result {x : Extended ℚ} {xMin xMax : ℚ} (hrange : xMin < xMax) (hx : x ≠ .nan)
    (bits : Nat) (hbits : bits ≤ 31) :
    FloatToUint.Proper ⟨x.clamp xMin xMax, xMin, xMax, bits⟩ ∧
      ∃ n : Nat, FloatToUint.result? ⟨x.clamp xMin xMax, xMin, xMax, bits⟩ = some ↑n ∧
        n < 2 ^ bits ∧ intBits n = n := by
  have hproper : FloatToUint.Proper ⟨x.clamp xMin xMax, xMin, xMax, bits⟩ :=
    (proper_clamp_iff hrange.le).mpr ⟨hrange, hx⟩
  obtain ⟨n, hresult, hlt⟩ := hproper.result hrange hbits
  have hint : n < 2 ^ 31 := hlt.trans_le (Nat.pow_le_pow_right (by decide) hbits)
  refine ⟨hproper, n, hresult, hlt, ?_⟩
  unfold intBits
  omega

/-- The calls of `SendMotorCtrlCmd` are safe exactly for the four types and without a NaN. -/
theorem ctrl_calls_safe_iff (motorId : UInt16) (n : Int)
    (zeroOffset kp kd position speed torque : Extended ℚ) :
    (CtrlCalls.of (.ofInt n) zeroOffset kp kd position speed torque).Safe motorId ↔
      (1 ≤ n ∧ n ≤ 4) ∧ kp ≠ .nan ∧ kd ≠ .nan ∧ position.add zeroOffset ≠ .nan ∧
        speed ≠ .nan ∧ torque ≠ .nan := by
  have hle : -(MotorType.ofInt n).torMax ≤ (MotorType.ofInt n).torMax :=
    neg_le_self (MotorType.ofInt n).torMax_nonneg
  have hlt : -(MotorType.ofInt n).torMax < (MotorType.ofInt n).torMax ↔ 1 ≤ n ∧ n ≤ 4 := by
    rw [neg_lt_self_iff, MotorType.torMax_pos_iff]
  constructor
  · intro h
    obtain ⟨hn, htorque⟩ := (proper_clamp_iff hle).mp h.tor
    exact ⟨hlt.mp hn, ((proper_clamp_iff kp_range.le).mp h.kp).2, ((proper_clamp_iff kd_range.le).mp h.kd).2,
      ((proper_clamp_iff pos_range.le).mp h.pos).2, ((proper_clamp_iff spd_range.le).mp h.spd).2, htorque⟩
  · rintro ⟨hn, hkp', hkd', hpos', hspd', htor'⟩
    obtain ⟨hkpp, kpInt, hkpr, hkpl, hkpi⟩ := clamped_result kp_range hkp' 12 (by decide)
    obtain ⟨hkdp, kdInt, hkdr, hkdl, hkdi⟩ := clamped_result kd_range hkd' 9 (by decide)
    obtain ⟨hposp, posInt, hposr, hposl, hposi⟩ := clamped_result pos_range hpos' 16 (by decide)
    obtain ⟨hspdp, spdInt, hspdr, hspdl, hspdi⟩ := clamped_result spd_range hspd' 12 (by decide)
    obtain ⟨htorp, torInt, htorr, htorl, htori⟩ :=
      clamped_result (hlt.mpr hn) htor' 12 (by decide)
    refine ⟨hkpp, hkdp, hposp, hspdp, htorp, kpInt, kdInt, posInt, spdInt, torInt, hkpr,
      Nat.le_sub_one_of_lt hkpl, hkdr, Nat.le_sub_one_of_lt hkdl, hposr, Nat.le_sub_one_of_lt hposl,
      hspdr, Nat.le_sub_one_of_lt hspdl, htorr, Nat.le_sub_one_of_lt htorl, ?_⟩
    have hframe : (CtrlCalls.of (.ofInt n) zeroOffset kp kd position speed torque).frame? motorId =
        some (packCtrl motorId kpInt kdInt posInt spdInt torInt) := by
      simp only [CtrlCalls.frame?, CtrlCalls.of, hkpr, hkdr, hposr, hspdr, htorr, hkpi, hkdi, hposi,
        hspdi, htori, Option.bind_eq_bind, Option.bind_some]
      rfl
    rw [hframe, Option.map_some, CtrlFields.ofFrame_packCtrl motorId hkpl hkdl hposl hspdl htorl]

/-- A NaN gain is quantised, and so is a torque to the range of a type that has none. -/
theorem ctrl_calls_unsafe :
    ¬ (CtrlCalls.of (.ofInt 1) (.fin 0) .nan (.fin 0) (.fin 0) (.fin 0) (.fin 0)).Safe 1 ∧
      ¬ (CtrlCalls.of (.ofInt 5) (.fin 0) (.fin 0) (.fin 0) (.fin 0) (.fin 0) (.fin 0)).Safe 1 := by
  constructor
  · intro h
    obtain ⟨-, x, hx, -⟩ := h.kp
    cases hx
  · intro h
    exact h.tor.1 (by decide +kernel)

end TienKung
