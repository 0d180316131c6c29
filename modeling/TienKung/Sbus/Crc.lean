import TienKung.Lib.Loops
import Mathlib.Algebra.Group.Nat.Defs
import Mathlib.Data.List.Nodup
import Mathlib.Logic.Function.Iterate
import Mathlib.Data.Vector.Defs

/-!
# The CRC template: the table

`CRC<TYPE>` keeps the parameters of a code and a table of 256 remainders, which
`crcInit` computes before a constructor returns. Arithmetic on `uint8_t` and
`uint16_t` is done in `int`, that on `uint32_t` in 32 bits; what is stored is
cut to `TYPE`. The counter of the table loop is a `TYPE` as well.
-/

namespace TienKung

-- ---------------------------------------------------------------------------
-- The template
-- ---------------------------------------------------------------------------

inductive CrcType
  | uint8 | uint16 | uint32
  deriving DecidableEq

/-- `m_width` -/
def CrcType.width : CrcType → Nat
  | .uint8 => 8
  | .uint16 => 16
  | .uint32 => 32

abbrev CrcType.Word (type : CrcType) := BitVec type.width

/-- `m_topbit` -/
def CrcType.topbit (type : CrcType) : BitVec 32 := 1#32 <<< (type.width - 1)

/-- The operand of an operation, as an `int` or an `unsigned int`. -/
def CrcType.promote {type : CrcType} (x : type.Word) : BitVec 32 := x.setWidth 32

def CrcType.convert (type : CrcType) (x : BitVec 32) : type.Word := x.setWidth type.width

structure CrcParams (type : CrcType) where
  polynomial : type.Word
  initialRemainder : type.Word
  finalXorValue : type.Word
  deriving DecidableEq

structure Crc (type : CrcType) extends CrcParams type where
  remainder : type.Word
  crcTable : Vector type.Word 256
  deriving DecidableEq

open CrcType (promote)

section
variable {type : CrcType}

theorem CrcType.width_bounds (type : CrcType) : 8 ≤ type.width ∧ type.width ≤ 32 := by
  cases type <;> decide

@[simp] theorem CrcType.convert_promote (x : type.Word) : type.convert (promote x) = x :=
  (BitVec.setWidth_setWidth_of_le x type.width_bounds.2).trans (BitVec.setWidth_eq x)

@[simp] theorem CrcType.convert_xor (x y : BitVec 32) :
    type.convert (x ^^^ y) = type.convert x ^^^ type.convert y := BitVec.setWidth_xor

@[simp] theorem CrcType.convert_shiftLeft (x : BitVec 32) (n : Nat) :
    type.convert (x <<< n) = type.convert x <<< n :=
  BitVec.setWidth_shiftLeft_of_le type.width_bounds.2

theorem CrcType.and_topbit (x : type.Word) : promote x &&& type.topbit ≠ 0 ↔ x.msb := by
  have hbounds := type.width_bounds
  have htop : BitVec.twoPow 32 (type.width - 1) ≠ 0#32 := by
    cases type <;> decide
  have hmsb : (promote x).getLsbD (type.width - 1) = x.msb := by
    rw [BitVec.msb_eq_getLsbD_last, promote, BitVec.getLsbD_setWidth,
      decide_eq_true (by omega), Bool.true_and]
  rw [topbit, ← BitVec.twoPow_eq, BitVec.and_twoPow, hmsb]
  cases x.msb <;> simp [htop]

end

-- ---------------------------------------------------------------------------
-- crcInit
-- ---------------------------------------------------------------------------

section
variable {type : CrcType}

def CrcParams.bit (p : CrcParams type) (remainder : type.Word) : type.Word :=
  if promote remainder &&& type.topbit ≠ 0 then
    type.convert ((promote remainder <<< 1) ^^^ promote p.polynomial)
  else type.convert (promote remainder <<< 1)

def CrcParams.entry (p : CrcParams type) (dividend : type.Word) : type.Word :=
  Nat.iterate p.bit 8 (type.convert (promote dividend <<< (type.width - 8)))

/-- The table loop, with the indices it has written to. -/
structure CrcFilling (type : CrcType) where
  crc : Crc type
  dividend : type.Word
  written : List Nat

def CrcFilling.step (s : CrcFilling type) : Option (CrcFilling type) :=
  if s.dividend.toNat < 256 then
    some {
      crc := { s.crc with
        crcTable := s.crc.crcTable.setIfInBounds s.dividend.toNat (s.crc.entry s.dividend) }
      dividend := s.dividend + 1
      written := s.written ++ [s.dividend.toNat] }
  else none

def Crc.filling (c : Crc type) : CrcFilling type := ⟨c, 0, []⟩

/-- `crcInit` returns and leaves `c'`. -/
def Crc.CrcInit (c c' : Crc type) : Prop :=
  ∃ n s, Loops.Ends CrcFilling.step n c.filling s ∧ s.crc = c'

/-- What the constructors and `build` do; `memory` is the object before. -/
def Crc.Build (memory : Crc type) (params : CrcParams type) (c : Crc type) : Prop :=
  { memory with toCrcParams := params }.CrcInit c

end

-- ---------------------------------------------------------------------------
-- The constructors
-- ---------------------------------------------------------------------------

/-- `CRC8::CRC8_TYPE`; a value can be cast to it that is none of the enumerators. -/
inductive Crc8Type
  | crc8 | autosar | cdma2000 | darc | dvbS2 | ebu | aes | gsmA | gsmB | iCode
  | itu | lte | maxim | opensafety | rohc | saeJ1850 | wcdma
  | other (value : Nat)
  deriving DecidableEq

def Crc8Type.params : Crc8Type → CrcParams .uint8
  | .crc8 => ⟨0x07, 0x00, 0x00⟩
  | .autosar => ⟨0x2f, 0xff, 0xff⟩
  | .cdma2000 => ⟨0x9b, 0xFF, 0x00⟩
  | .darc => ⟨0x39, 0x00, 0x00⟩
  | .dvbS2 => ⟨0xd5, 0x00, 0x00⟩
  | .ebu | .aes => ⟨0x1d, 0xFF, 0x00⟩
  | .gsmA => ⟨0x1d, 0x00, 0x00⟩
  | .gsmB => ⟨0x49, 0x00, 0xFF⟩
  | .iCode => ⟨0x1d, 0xFD, 0x00⟩
  | .itu => ⟨0x07, 0x00, 0x55⟩
  | .lte => ⟨0x9b, 0x00, 0x00⟩
  | .maxim => ⟨0x31, 0x00, 0x00⟩
  | .opensafety => ⟨0x2f, 0x00, 0x00⟩
  | .rohc => ⟨0x07, 0xff, 0x00⟩
  | .saeJ1850 => ⟨0x1d, 0xff, 0xff⟩
  | .wcdma => ⟨0x9b, 0x00, 0x00⟩
  | .other _ => ⟨0x07, 0x00, 0x00⟩

/-- `CRC16::CRC16_TYPE` -/
inductive Crc16Type
  | ccitt | kermit | ccittFalse | ibm | arc | lha | spiFujitsu
  | buypass | verifone | umts | cdma2000 | cms | dds110 | dectR
  | dectX | dnp | en13757 | genibus | epc | darc | iCode | gsm
  | lj1200 | maxim | mcrf4xx | opensafetyA | opensafetyB | profibus
  | iec61158_2 | riello | t10Dif | teledisk | tms37157 | usb
  | crcA | modbus | x25 | crcB | isoHdlc | ibmSdlc | xmodem
  | zmodem | acorn | lte
  | other (value : Nat)
  deriving DecidableEq

def Crc16Type.params : Crc16Type → CrcParams .uint16
  | .ccittFalse | .mcrf4xx => ⟨0x1021, 0xFFFF, 0x0000⟩
  | .ibm | .arc | .lha | .buypass | .verifone | .umts => ⟨0x8005, 0x0000, 0x0000⟩
  | .spiFujitsu => ⟨0x1021, 0x1d0f, 0x0000⟩
  | .ccitt | .kermit | .xmodem | .zmodem | .acorn | .lte => ⟨0x1021, 0x0000, 0x0000⟩
  | .cdma2000 => ⟨0xc867, 0xffff, 0x0000⟩
  | .cms | .modbus => ⟨0x8005, 0xffff, 0x0000⟩
  | .dds110 => ⟨0x8005, 0x800d, 0x0000⟩
  | .dectR => ⟨0x0589, 0x0000, 0x0001⟩
  | .dectX => ⟨0x0589, 0x0000, 0x0000⟩
  | .dnp | .en13757 => ⟨0x3d65, 0x0000, 0xffff⟩
  | .genibus | .epc | .darc | .iCode | .x25 | .crcB | .isoHdlc | .ibmSdlc =>
    ⟨0x1021, 0xffff, 0xffff⟩
  | .gsm => ⟨0x1021, 0x0000, 0xffff⟩
  | .lj1200 => ⟨0x6f63, 0x0000, 0x0000⟩
  | .maxim => ⟨0x8005, 0x0000, 0xffff⟩
  | .opensafetyA => ⟨0x5935, 0x0000, 0x0000⟩
  | .opensafetyB => ⟨0x755b, 0x0000, 0x0000⟩
  | .profibus | .iec61158_2 => ⟨0x1dcf, 0xffff, 0xffff⟩
  | .riello => ⟨0x1021, 0xb2aa, 0x0000⟩
  | .t10Dif => ⟨0x8bb7, 0x0000, 0x0000⟩
  | .teledisk => ⟨0xa097, 0x0000, 0x0000⟩
  | .tms37157 => ⟨0x1021, 0x89ec, 0x0000⟩
  | .usb => ⟨0x8005, 0xffff, 0xffff⟩
  | .crcA => ⟨0x1021, 0xc6c6, 0x0000⟩
  | .other _ => ⟨0x8005, 0x0000, 0x0000⟩

/-- `CRC32::CRC32_TYPE` -/
inductive Crc32Type
  | adccp | pkzip | crc32 | aal5 | dectB | bCrc32 | bzip2 | autosar
  | crc32c | crc32d | mpeg2 | posix | cksum | crc32q | jamcrc | xfer
  | other (value : Nat)
  deriving DecidableEq

def Crc32Type.params : Crc32Type → CrcParams .uint32
  | .adccp | .pkzip | .crc32 | .bzip2 | .aal5 | .dectB | .bCrc32 =>
    ⟨0x04c11db7, 0xFFFFFFFF, 0xFFFFFFFF⟩
  | .autosar => ⟨0xf4acfb13, 0xFFFFFFFF, 0xFFFFFFFF⟩
  | .crc32c => ⟨0x1edc6f41, 0xFFFFFFFF, 0xFFFFFFFF⟩
  | .crc32d => ⟨0xa833982b, 0xFFFFFFFF, 0xFFFFFFFF⟩
  | .mpeg2 | .jamcrc => ⟨0x04c11db7, 0xFFFFFFFF, 0x00000000⟩
  | .posix | .cksum => ⟨0x04c11db7, 0x00000000, 0xFFFFFFFF⟩
  | .crc32q => ⟨0x814141ab, 0x00000000, 0x00000000⟩
  | .xfer => ⟨0x000000af, 0x00000000, 0x00000000⟩
  | .other _ => ⟨0x04C11DB7, 0xFFFFFFFF, 0xFFFFFFFF⟩

inductive CrcConstructor
  | crc8 (type : Crc8Type)
  | crc8Of (params : CrcParams .uint8)
  | crc16 (type : Crc16Type)
  | crc16Of (params : CrcParams .uint16)
  | crc32 (type : Crc32Type)

def CrcConstructor.type : CrcConstructor → CrcType
  | .crc8 _ | .crc8Of _ => .uint8
  | .crc16 _ | .crc16Of _ => .uint16
  | .crc32 _ => .uint32

def CrcConstructor.params : (k : CrcConstructor) → CrcParams k.type
  | .crc8 type => type.params
  | .crc8Of params => params
  | .crc16 type => type.params
  | .crc16Of params => params
  | .crc32 type => type.params

def CrcConstructor.Returns (k : CrcConstructor) : Prop :=
  ∀ memory : Crc k.type, ∃ c, memory.Build k.params c

-- ---------------------------------------------------------------------------
-- The table loop
-- ---------------------------------------------------------------------------

section
variable {type : CrcType}

structure CrcFilling.At (c : Crc type) (i : Nat) (s : CrcFilling type) : Prop where
  dividend : s.dividend = BitVec.ofNat _ i
  written : s.written = List.range i
  params : s.crc.toCrcParams = c.toCrcParams
  table : ∀ j < i, s.crc.crcTable[j]? = some (c.entry (BitVec.ofNat _ j))

theorem CrcType.lt_two_pow_width (h : type ≠ .uint8) : 256 < 2 ^ type.width := by
  cases type with
  | uint8 => exact absurd rfl h
  | uint16 => decide
  | uint32 => decide

theorem CrcFilling.At.toNat_dividend {c : Crc type} {s : CrcFilling type} (hs : At c i s)
    (h : type ≠ .uint8) (hi : i ≤ 256) : s.dividend.toNat = i := by
  have hlt := CrcType.lt_two_pow_width h
  rw [hs.dividend, BitVec.toNat_ofNat, Nat.mod_eq_of_lt (by omega)]

theorem CrcFilling.At.step {c : Crc type} {s : CrcFilling type} (hs : At c i s)
    (h : type ≠ .uint8) (hi : i < 256) : ∃ s', CrcFilling.step s = some s' ∧ At c (i + 1) s' := by
  have hnat := hs.toNat_dividend h (Nat.le_of_lt hi)
  have hentry : s.crc.entry s.dividend = c.entry (BitVec.ofNat _ i) := by
    rw [hs.params, hs.dividend]
  refine ⟨_, if_pos (by rw [hnat]; exact hi), ?_, ?_, hs.params, fun j hj => ?_⟩
  · exact (congrArg (· + 1) hs.dividend).trans (BitVec.ofNat_add i 1).symm
  · rw [hs.written, hnat, List.range_succ]
  · rw [hnat, hentry, Vector.getElem?_setIfInBounds]
    split_ifs with hij
    · rw [← hij]
    · exact hs.table j (by omega)

/-- A `TYPE` of more than a byte counts to the end of the table. -/
theorem Crc.filling_ends (h : type ≠ .uint8) (c : Crc type) :
    ∃ s, Loops.Ends CrcFilling.step 256 c.filling s ∧ CrcFilling.At c 256 s := by
  have hstart : CrcFilling.At c 0 c.filling :=
    ⟨rfl, rfl, rfl, fun j hj => absurd hj (Nat.not_lt_zero j)⟩
  obtain ⟨s, hrun, hs⟩ := Loops.run_invariant hstart fun i hi s hs => hs.step h hi
  have hended : CrcFilling.step s = none :=
    if_neg ((hs.toNat_dividend h (Nat.le_refl 256)).symm ▸ Nat.lt_irrefl 256)
  exact ⟨s, ⟨hrun, hended⟩, hs⟩

/-- A byte is below 256 after 255 as well. -/
theorem Crc.filling_not_ends (c : Crc .uint8) : ¬ Loops.Ends CrcFilling.step n c.filling s :=
  Loops.not_ends (P := fun _ => True) trivial fun s _ => ⟨_, if_pos s.dividend.isLt, trivial⟩

theorem Crc.crcInit_returns_iff (c : Crc type) : (∃ c', c.CrcInit c') ↔ type ≠ .uint8 := by
  constructor
  · rintro ⟨c', n, s, hs, -⟩ rfl
    exact c.filling_not_ends hs
  · intro h
    obtain ⟨s, hs, -⟩ := c.filling_ends h
    exact ⟨s.crc, 256, s, hs, rfl⟩

/-- The loop ends after 256 iterations, which write to each entry of the table once and to nothing
else. -/
def Crc.FillsTable (c : Crc type) : Prop :=
  ∃ s, Loops.Ends CrcFilling.step 256 c.filling s ∧ (∀ i < 256, s.written.count i = 1) ∧
    ∀ i ∈ s.written, i < 256

theorem Crc.fillsTable_iff (c : Crc type) : c.FillsTable ↔ type ≠ .uint8 := by
  constructor
  · rintro ⟨s, hs, -⟩
    exact c.crcInit_returns_iff.mp ⟨s.crc, 256, s, hs, rfl⟩
  · intro h
    obtain ⟨s, hs, hat⟩ := c.filling_ends h
    refine ⟨s, hs, ?_, ?_⟩
    · intro i hi
      rw [hat.written]
      exact List.count_eq_one_of_mem List.nodup_range (List.mem_range.mpr hi)
    · intro i hi
      exact List.mem_range.mp (hat.written ▸ hi)

end

theorem CrcConstructor.returns_iff (k : CrcConstructor) : k.Returns ↔ k.type ≠ .uint8 := by
  constructor
  · intro h
    have memory : Crc k.type := ⟨k.params, 0, Vector.replicate 256 0⟩
    exact (Crc.crcInit_returns_iff _).mp (h memory)
  · intro h memory
    exact (Crc.crcInit_returns_iff _).mpr h

/-- `crcInit` fills the table of 16 and of 32 bits; the constructors of `CRC8` do not return. -/
theorem crcInit_fills_iff (type : CrcType) (c : Crc type) (k : CrcConstructor) :
    (c.FillsTable ↔ type ≠ .uint8) ∧ (k.Returns ↔ k.type ≠ .uint8) :=
  ⟨c.fillsTable_iff, k.returns_iff⟩

theorem crc8_not_returns :
    ¬ (⟨⟨0x07, 0x00, 0x00⟩, 0, .replicate 256 0⟩ : Crc .uint8).FillsTable ∧
    ¬ (CrcConstructor.crc8 .crc8).Returns :=
  ⟨fun h => (Crc.fillsTable_iff _).mp h rfl, fun h => (CrcConstructor.returns_iff _).mp h rfl⟩

end TienKung
