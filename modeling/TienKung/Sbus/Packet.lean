import TienKung.Lib.Blocks

/-!
# USB-SBUS packets

A packet is a header byte, 32 bytes of channels, a flag byte and the XOR of all
of them but the header (`usbSbus.h`). The header and the XOR are all that tell a
packet from a window over two of them, and they do not always: a window that
begins with a header byte passes exactly when the bytes of the two packets that
it exchanges have the same XOR.
-/

namespace TienKung

def usbSbusHeader : UInt8 := 0x0F

def sbusLostFrame : UInt8 := 0x20

def sbusFailsafe : UInt8 := 0x10

def sbusChMaxData : UInt16 := 0x7FF

def xorOf (bytes : List UInt8) : UInt8 := bytes.foldl (· ^^^ ·) 0

/-- `USBSBUS_XOR_CHECK`: bytes 1 to 33 against byte 34. -/
def usbSbusXorCheck (data : Vector UInt8 35) : Bool :=
  xorOf ((data.toList.take 34).drop 1) == data.get 34

def usbSbusDecode (packet : Vector UInt8 35) : Vector UInt16 16 :=
  .ofFn fun i =>
    (packet[2 * i.val + 1].toUInt16 * 256 + packet[2 * i.val + 2].toUInt16) &&& sbusChMaxData

structure SbusPacket where
  bytes : Vector UInt8 35
  header : bytes.get 0 = usbSbusHeader
  check : usbSbusXorCheck bytes = true

-- ---------------------------------------------------------------------------
-- XOR of bytes
-- ---------------------------------------------------------------------------

@[simp] theorem xorOf_nil : xorOf [] = 0 := rfl

theorem foldl_xor (bytes : List UInt8) (b : UInt8) :
    bytes.foldl (· ^^^ ·) b = b ^^^ xorOf bytes := by
  induction bytes generalizing b with
  | nil => simp
  | cons c bytes ih =>
    have hc : xorOf (c :: bytes) = c ^^^ xorOf bytes := by rw [xorOf, List.foldl_cons, ih]; simp
    rw [List.foldl_cons, ih, hc, UInt8.xor_assoc]

@[simp] theorem xorOf_cons (b : UInt8) (bytes : List UInt8) :
    xorOf (b :: bytes) = b ^^^ xorOf bytes := by
  rw [xorOf, List.foldl_cons, foldl_xor, UInt8.zero_xor]

@[simp] theorem xorOf_append (as bs : List UInt8) : xorOf (as ++ bs) = xorOf as ^^^ xorOf bs := by
  rw [xorOf, List.foldl_append, foldl_xor]
  rfl

/-- The check is that the bytes behind the header cancel. -/
theorem usbSbusXorCheck_iff (data : Vector UInt8 35) :
    usbSbusXorCheck data = true ↔ xorOf (data.toList.drop 1) = 0 := by
  have hsplit : data.toList.drop 1 = (data.toList.take 34).drop 1 ++ [data.get 34] := by
    have hend : data.toList.drop 35 = [] := List.drop_eq_nil_of_le (by simp)
    have hlast : data.toList.drop 34 = [data.get 34] := by
      rw [← hend]
      exact Cells.drop_toList data 34
    rw [← hlast, ← List.drop_append_of_le_length (by simp), List.take_append_drop]
  rw [usbSbusXorCheck, beq_iff_eq, hsplit, xorOf_append, xorOf_cons, xorOf_nil, UInt8.xor_zero,
    UInt8.xor_eq_zero_iff]

-- ---------------------------------------------------------------------------
-- Windows over two packets
-- ---------------------------------------------------------------------------

def SbusPacket.partialXor (p : SbusPacket) (k : Fin 35) : UInt8 :=
  xorOf ((p.bytes.toList.take k).drop 1)

/-- The window from index `k` of `p` into the next packet `q` begins with a header
byte, and the bytes it exchanges have the same XOR. -/
structure Confused (p q : SbusPacket) (k : Fin 35) : Prop where
  inside : 0 < k.val
  header : p.bytes.get k = usbSbusHeader
  partialXor : p.partialXor k = q.partialXor k

theorem straddle_check_iff {p q : SbusPacket} {k : Fin 35} (hk : 0 < k.val)
    (hheader : p.bytes.get k = usbSbusHeader) :
    usbSbusXorCheck (Blocks.straddle p.bytes q.bytes k) = true ↔ p.partialXor k = q.partialXor k := by
  have hcons : (Blocks.straddle p.bytes q.bytes k).toList.drop 1 =
      p.bytes.toList.drop (k + 1) ++ q.bytes.toList.take k := by
    rw [Blocks.toList_straddle, List.drop_append_of_le_length (by simp; omega), List.drop_drop]
  have hhead : q.bytes.toList.take k = usbSbusHeader :: (q.bytes.toList.take k).drop 1 := by
    obtain ⟨j, hj⟩ : ∃ j, k.val = j + 1 := ⟨k - 1, by omega⟩
    have hq : q.bytes.toList = usbSbusHeader :: q.bytes.toList.drop 1 := by
      rw [← q.header]
      exact Cells.drop_toList q.bytes 0
    rw [hq, hj, List.take_succ_cons]
    rfl
  have hp : p.partialXor k = usbSbusHeader ^^^ xorOf (p.bytes.toList.drop (k + 1)) := by
    have hsplit : p.bytes.toList.drop 1 =
        (p.bytes.toList.take k).drop 1 ++ p.bytes.get k :: p.bytes.toList.drop (k + 1) := by
      rw [← Cells.drop_toList, ← List.drop_append_of_le_length (by simp; omega), List.take_append_drop]
    have hcancel := (usbSbusXorCheck_iff p.bytes).mp p.check
    rwa [hsplit, xorOf_append, xorOf_cons, hheader, UInt8.xor_eq_zero_iff] at hcancel
  rw [usbSbusXorCheck_iff, hcons, xorOf_append, hhead, xorOf_cons, ← UInt8.xor_assoc,
    UInt8.xor_eq_zero_iff, UInt8.xor_comm _ usbSbusHeader, ← hp]
  rfl

theorem straddle_header_iff {p q : SbusPacket} {k : Fin 35} :
    (Blocks.straddle p.bytes q.bytes k).get 0 = usbSbusHeader ↔ p.bytes.get k = usbSbusHeader := by
  rw [Blocks.get_straddle_zero _ _ rfl]

/-- A window over two packets is taken for a packet exactly when they are confused. -/
theorem confused_iff {p q : SbusPacket} {k : Fin 35} :
    Confused p q k ↔ 0 < k.val ∧ (Blocks.straddle p.bytes q.bytes k).get 0 = usbSbusHeader ∧
      usbSbusXorCheck (Blocks.straddle p.bytes q.bytes k) = true := by
  rw [straddle_header_iff]
  constructor
  · intro h
    exact ⟨h.inside, h.header, (straddle_check_iff h.inside h.header).mpr h.partialXor⟩
  · rintro ⟨hk, hheader, hcheck⟩
    exact ⟨hk, hheader, (straddle_check_iff hk hheader).mp hcheck⟩

end TienKung
