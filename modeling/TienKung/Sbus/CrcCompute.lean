import TienKung.Lib.Division
import TienKung.Lib.Mealy
import TienKung.Sbus.Crc

/-!
# The CRC template: messages

`crcCompute` takes a message, the `nBytes` bytes at a pointer, byte by byte
from the table, at once or in pieces. A step of the table is eight of the
division of the message by the polynomial.
-/

namespace TienKung

open CrcType (promote)
open Division (divide divisor leading ofBits toPoly)
open Polynomial (X)

section
variable {type : CrcType}

/-- `byte`; a `char` is signed, and extended like any operand. -/
def CrcType.index (remainder : type.Word) (char : Int8) : BitVec 8 :=
  (promote remainder >>> (type.width - 8) ^^^ char.toBitVec.signExtend 32).setWidth 8

/-- One iteration of both overloads. -/
def Crc.update (c : Crc type) (remainder : type.Word) (char : Int8) : type.Word :=
  let byte := CrcType.index remainder char
  type.convert (promote (c.crcTable.get ⟨byte.toNat, byte.isLt⟩) ^^^ promote remainder <<< 8)

def Crc.crcCompute (c : Crc type) (message : List Int8) : type.Word :=
  type.convert (promote (message.foldl c.update c.initialRemainder) ^^^ promote c.finalXorValue)

/-- The overload that keeps the remainder, with the result it returns. -/
def Crc.crcComputePiece : Mealy.Step (Crc type) (List Int8 × Bool) type.Word
  | c, (message, reinit) =>
    let remainder := message.foldl c.update (if reinit then c.initialRemainder else c.remainder)
    ({ c with remainder }, [type.convert (promote remainder ^^^ promote c.finalXorValue)])

def Crc.inPieces (first : List Int8) (rest : List (List Int8)) : List (List Int8 × Bool) :=
  (first, true) :: rest.map (·, false)

-- ---------------------------------------------------------------------------
-- Entries
-- ---------------------------------------------------------------------------

theorem CrcParams.bit_eq (p : CrcParams type) (remainder : type.Word) :
    p.bit remainder = Division.step p.polynomial remainder false := by
  unfold bit Division.step
  simp only [CrcType.and_topbit, CrcType.convert_xor, CrcType.convert_shiftLeft,
    CrcType.convert_promote, Bool.xor_false]

theorem CrcParams.entry_eq (p : CrcParams type) (dividend : type.Word) : p.entry dividend =
    divide p.polynomial (dividend <<< (type.width - 8)) (.replicate 8 false) := by
  have hbit : p.bit = fun remainder => Division.step p.polynomial remainder false :=
    funext p.bit_eq
  rw [entry, CrcType.convert_shiftLeft, CrcType.convert_promote, hbit]
  rfl

-- ---------------------------------------------------------------------------
-- Bytes
-- ---------------------------------------------------------------------------

/-- The index moved to the top of a remainder. -/
def CrcType.top (remainder : type.Word) (char : Int8) : type.Word :=
  (CrcType.index remainder char).setWidth type.width <<< (type.width - 8)

theorem CrcType.getMsbD_index (remainder : type.Word) (char : Int8) (hi : i < 8) :
    (index remainder char).getMsbD i = (remainder.getMsbD i ^^ char.toBitVec.getMsbD i) := by
  have hbounds := type.width_bounds
  have hsub : type.width - 8 + (7 - i) = type.width - 1 - i := by omega
  have hchar : (char.toBitVec.signExtend 32).getLsbD (7 - i) = char.toBitVec.getLsbD (7 - i) := by
    rw [BitVec.getLsbD_signExtend, decide_eq_true (by omega), Bool.true_and, if_pos (by omega)]
  have hremainder : (promote remainder >>> (type.width - 8)).getLsbD (7 - i) =
      remainder.getLsbD (type.width - 1 - i) := by
    rw [BitVec.getLsbD_ushiftRight, hsub, promote, BitVec.getLsbD_setWidth,
      decide_eq_true (by omega), Bool.true_and]
  simp only [BitVec.getMsbD_eq_getLsbD, hi, decide_true, Bool.true_and, index,
    BitVec.getLsbD_setWidth, BitVec.getLsbD_xor]
  rw [hchar, hremainder, decide_eq_true (by omega), decide_eq_true (by omega)]
  simp

theorem CrcType.leading_top (remainder : type.Word) (char : Int8) :
    leading (top remainder char ^^^ remainder) 8 = leading char.toBitVec 8 := by
  have hbounds := type.width_bounds
  refine List.map_congr_left fun i hi => ?_
  have hi := List.mem_range.mp hi
  have htop : (top remainder char).getMsbD i = (index remainder char).getMsbD i := by
    rw [top, BitVec.getMsbD_shiftLeft, BitVec.getMsbD_setWidth, decide_eq_true (by omega),
      Bool.true_and, show i + (type.width - 8) + 8 - type.width = i by omega]
  rw [BitVec.getMsbD_xor, htop, getMsbD_index remainder char hi]
  cases remainder.getMsbD i <;> simp

theorem CrcType.top_shiftLeft (remainder : type.Word) (char : Int8) :
    top remainder char <<< 8 = BitVec.ofNat _ 0 := by
  have hbounds := type.width_bounds
  rw [top, ← BitVec.shiftLeft_add]
  exact BitVec.shiftLeft_eq_zero (by omega)

/-- The object has the table of its parameters, which are `p`. -/
structure Crc.Tabled (p : CrcParams type) (c : Crc type) : Prop where
  params : c.toCrcParams = p
  table : ∀ j < 256, c.crcTable[j]? = some (p.entry (BitVec.ofNat _ j))

theorem Crc.Tabled.get {p : CrcParams type} {c : Crc type} (h : c.Tabled p) (byte : BitVec 8) :
    c.crcTable.get ⟨byte.toNat, byte.isLt⟩ = p.entry (byte.setWidth type.width) := by
  have htable := h.table byte.toNat byte.isLt
  rw [Vector.getElem?_eq_getElem byte.isLt, BitVec.ofNat_toNat] at htable
  exact Option.some.inj htable

theorem Crc.Tabled.update_eq {p : CrcParams type} {c : Crc type} (h : c.Tabled p)
    (remainder : type.Word) (char : Int8) :
    c.update remainder char = divide p.polynomial remainder (leading char.toBitVec 8) := by
  rw [update, Division.divide_eq_xor p.polynomial (CrcType.leading_top remainder char)
    (CrcType.top_shiftLeft remainder char), CrcType.convert_xor, CrcType.convert_promote,
    CrcType.convert_shiftLeft, CrcType.convert_promote, h.get, CrcParams.entry_eq]
  rfl

def messageBits (message : List Int8) : List Bool :=
  message.flatMap fun char => leading char.toBitVec 8

theorem Crc.Tabled.foldl_update {p : CrcParams type} {c : Crc type} (h : c.Tabled p)
    (remainder : type.Word) (message : List Int8) :
    message.foldl c.update remainder = divide p.polynomial remainder (messageBits message) := by
  induction message generalizing remainder with
  | nil => rfl
  | cons char message ih =>
    rw [List.foldl_cons, ih, h.update_eq, ← Division.divide_append]
    rfl

theorem Crc.Tabled.crcCompute_eq {p : CrcParams type} {c : Crc type} (h : c.Tabled p)
    (message : List Int8) : c.crcCompute message =
      divide p.polynomial p.initialRemainder (messageBits message) ^^^ p.finalXorValue := by
  rw [crcCompute, CrcType.convert_xor, CrcType.convert_promote, CrcType.convert_promote,
    h.foldl_update, h.params]

-- ---------------------------------------------------------------------------
-- Pieces
-- ---------------------------------------------------------------------------

theorem Crc.Tabled.piece {p : CrcParams type} {c : Crc type} (h : c.Tabled p)
    (piece : List Int8 × Bool) : (c.crcComputePiece piece).1.Tabled p :=
  ⟨h.params, h.table⟩

theorem Crc.crcComputePiece_result (c : Crc type) (piece : List Int8 × Bool) :
    (c.crcComputePiece piece).2 =
      [(c.crcComputePiece piece).1.remainder ^^^ (c.crcComputePiece piece).1.finalXorValue] := by
  show [type.convert _] = _
  rw [CrcType.convert_xor, CrcType.convert_promote, CrcType.convert_promote]
  rfl

theorem Crc.Tabled.final {p : CrcParams type} {c : Crc type} (h : c.Tabled p)
    (calls : List (List Int8 × Bool)) : (Mealy.final Crc.crcComputePiece c calls).Tabled p :=
  Mealy.final_invariant h fun _ piece hc => hc.piece piece

theorem Crc.Tabled.remainder_final {p : CrcParams type} {c : Crc type} (h : c.Tabled p)
    (pieces : List (List Int8)) :
    (Mealy.final Crc.crcComputePiece c (pieces.map (·, false))).remainder =
      divide p.polynomial c.remainder (messageBits pieces.flatten) := by
  induction pieces generalizing c with
  | nil => rfl
  | cons piece pieces ih =>
    have hnext : (c.crcComputePiece (piece, false)).1.remainder =
        divide p.polynomial c.remainder (messageBits piece) := h.foldl_update c.remainder piece
    rw [List.map_cons, Mealy.final_cons, ih (h.piece _), hnext, ← Division.divide_append,
      List.flatten_cons, messageBits, messageBits, messageBits, List.flatMap_append]

theorem Crc.Tabled.inPieces_eq {p : CrcParams type} {c : Crc type} (h : c.Tabled p)
    (first : List Int8) (rest : List (List Int8)) :
    (Mealy.emitted Crc.crcComputePiece c (Crc.inPieces first rest)).getLast? =
      some (divide p.polynomial p.initialRemainder (messageBits (first ++ rest.flatten)) ^^^
        p.finalXorValue) := by
  have hfirst : (c.crcComputePiece (first, true)).1.remainder =
      divide p.polynomial p.initialRemainder (messageBits first) := by
    rw [← h.params]
    exact (h.params ▸ h).foldl_update _ first
  have hne : inPieces first rest ≠ [] := List.cons_ne_nil _ _
  have hfinal := h.final (inPieces first rest)
  rw [Mealy.getLast?_emitted (f := fun c : Crc type => c.remainder ^^^ c.finalXorValue)
    Crc.crcComputePiece_result hne, hfinal.params,
    inPieces, Mealy.final_cons, (h.piece _).remainder_final, hfirst, ← Division.divide_append,
    messageBits, messageBits, messageBits, List.flatMap_append]

theorem length_messageBits (message : List Int8) :
    (messageBits message).length = 8 * message.length := by
  simp [messageBits, List.length_flatMap, Nat.mul_comm]

theorem Crc.exists_tabled (h : type ≠ .uint8) (memory : Crc type) (p : CrcParams type) :
    ∃ c, memory.Build p c ∧ c.Tabled p := by
  obtain ⟨s, hs, hat⟩ := Crc.filling_ends h { memory with toCrcParams := p }
  exact ⟨s.crc, ⟨256, s, hs, rfl⟩, hat.params, hat.table⟩

end

/-- What is built for 16 or 32 bits divides messages by its polynomial, bit by bit and so as
polynomials are divided, in one piece or in several, whatever it was used for before. -/
theorem crcCompute_divides {type : CrcType} (h : type ≠ .uint8) (memory : Crc type)
    (p : CrcParams type) :
    ∃ c, memory.Build p c ∧
      (∀ message, c.crcCompute message =
        divide p.polynomial p.initialRemainder (messageBits message) ^^^ p.finalXorValue) ∧
      (∀ message, toPoly (c.crcCompute message ^^^ p.finalXorValue) =
        (toPoly p.initialRemainder * X ^ (8 * message.length) +
          ofBits (messageBits message) * X ^ type.width).modByMonic (divisor p.polynomial)) ∧
      ∀ calls first rest,
        (Mealy.emitted Crc.crcComputePiece (Mealy.final Crc.crcComputePiece c calls)
          (Crc.inPieces first rest)).getLast? = some (c.crcCompute (first ++ rest.flatten)) := by
  obtain ⟨c, hbuild, hc⟩ := Crc.exists_tabled h memory p
  refine ⟨c, hbuild, hc.crcCompute_eq, ?_, ?_⟩
  · intro message
    rw [hc.crcCompute_eq, BitVec.xor_assoc, BitVec.xor_self, BitVec.xor_zero,
      Division.toPoly_divide, length_messageBits]
  · intro calls first rest
    rw [(hc.final calls).inPieces_eq, hc.crcCompute_eq]

/-- CCITT, with the byte 0xFF as the `char` -1. -/
theorem crcCompute_divides_ccitt :
    ∃ c, (⟨⟨0, 0, 0⟩, 0, .replicate 256 0⟩ : Crc .uint16).Build Crc16Type.ccitt.params c ∧
      c.crcCompute [-1] = 0x1EF0 := by
  obtain ⟨c, hbuild, hdivide, -⟩ := @crcCompute_divides .uint16 (by decide)
    ⟨⟨0, 0, 0⟩, 0, .replicate 256 0⟩ Crc16Type.ccitt.params
  refine ⟨c, hbuild, ?_⟩
  rw [hdivide]
  decide

end TienKung
