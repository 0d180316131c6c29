import TienKung.Soem.Message

/-!
# SDO messages

The `sdo` classes of the two CANopen drivers are the same text: `Message` parses
a response and serialises a request, an instruction packs a command byte, an
index and a sub-index. A response parsed under a command byte that is none of
the known ones leaves `data` uninitialised; `uninit` is what it holds then.
-/

namespace TienKung.Sdo

-- ---------------------------------------------------------------------------
-- Command bytes
-- ---------------------------------------------------------------------------

def reqWrite4Bytes : UInt8 := 0x23
def reqWrite3Bytes : UInt8 := 0x27
def reqWrite2Bytes : UInt8 := 0x2B
def reqWrite1Byte : UInt8 := 0x2F
def reqRead : UInt8 := 0x40
def respWriteNormal : UInt8 := 0x60
def respRead4Bytes : UInt8 := 0x43
def respRead3Bytes : UInt8 := 0x47
def respRead2Bytes : UInt8 := 0x4B
def respRead1Byte : UInt8 := 0x4F
def respException : UInt8 := 0x80

def readResponses : List UInt8 := [respRead1Byte, respRead2Bytes, respRead3Bytes, respRead4Bytes]

-- ---------------------------------------------------------------------------
-- Instructions
-- ---------------------------------------------------------------------------

/-- `RESP_READ_*`: index and sub-index. -/
inductive Ins
  | actualVelocity | actualPositionValue | motorRatedCurrent | motorActualCurrent
  | conrolWord | statusWord | modesOfOperation | modesOfOperationDisplay
  | targetPosition | maxProfileVelocity
  deriving DecidableEq

def Ins.index : Ins → UInt32
  | .actualVelocity => 0x606C
  | .actualPositionValue => 0x6064
  | .motorRatedCurrent => 0x6075
  | .motorActualCurrent => 0x6078
  | .conrolWord => 0x6040
  | .statusWord => 0x6041
  | .modesOfOperation => 0x6060
  | .modesOfOperationDisplay => 0x6061
  | .targetPosition => 0x607A
  | .maxProfileVelocity => 0x607F

/-- `RESP_READ_*`; every sub-index is zero. -/
def Ins.value (ins : Ins) : UInt32 := ins.index <<< 8

theorem Ins.value_injective {i j : Ins} (h : i.value = j.value) : i = j := by
  revert h
  cases i <;> cases j <;> decide

-- ---------------------------------------------------------------------------
-- Messages
-- ---------------------------------------------------------------------------

structure Message where
  idCob : UInt32
  idCan : UInt32
  type : UInt8
  index : UInt32
  subIndex : UInt32
  data : UInt32
  deriving DecidableEq

def toRequestCanId (idCob : UInt32) : UInt32 := idCob + 0x600
def toResponseCanId (idCob : UInt32) : UInt32 := idCob + 0x580

/-- Bytes as a little-endian word. -/
def word (bytes : List UInt8) : UInt32 := bytes.foldr (fun b w => w <<< 8 ||| b.toUInt32) 0

/-- The constructor for responses. -/
def Message.ofBytes (uninit idCan : UInt32) (bytes : Vector UInt8 8) : Message where
  idCob := idCan - 0x580
  idCan := idCan
  type := bytes.get 0
  index := word [bytes.get 1, bytes.get 2]
  subIndex := (bytes.get 3).toUInt32
  data :=
    if bytes.get 0 = respWriteNormal then 0
    else if bytes.get 0 = respRead4Bytes then word [bytes.get 4, bytes.get 5, bytes.get 6, bytes.get 7]
    else if bytes.get 0 = respRead3Bytes then word [bytes.get 4, bytes.get 5, bytes.get 6]
    else if bytes.get 0 = respRead2Bytes then word [bytes.get 4, bytes.get 5]
    else if bytes.get 0 = respRead1Byte then word [bytes.get 4]
    else if bytes.get 0 = respException then word [bytes.get 4, bytes.get 5, bytes.get 6, bytes.get 7]
    else uninit

def Message.getIns (m : Message) : UInt32 := m.index <<< 8 ||| m.subIndex

theorem Message.ofBytes_data_of_read {bytes : Vector UInt8 8} (h : bytes.get 0 ∈ readResponses)
    (uninit uninit' idCan : UInt32) :
    (ofBytes uninit idCan bytes).data = (ofBytes uninit' idCan bytes).data := by
  simp only [readResponses, List.mem_cons, List.not_mem_nil, or_false] at h
  rcases h with h | h | h | h <;> simp [ofBytes, h, respWriteNormal, respRead4Bytes, respRead3Bytes,
    respRead2Bytes, respRead1Byte]

def readRequest (ins : Ins) (idCob : UInt32) (data : UInt32 := 0) : Message :=
  ⟨idCob, toRequestCanId idCob, reqRead, ins.index, 0, data⟩

/-- `Request` with a `REQ_WRITE_*` instruction of command byte `type`. -/
def writeRequest (type : UInt8) (ins : Ins) (idCob : UInt32) (data : UInt32) : Message :=
  ⟨idCob, toRequestCanId idCob, type, ins.index, 0, data⟩

@[simp] theorem writeRequest_getIns (type : UInt8) (ins : Ins) (idCob data : UInt32) :
    (writeRequest type ins idCob data).getIns = ins.value := by
  simp [Message.getIns, writeRequest, Ins.value]

def reqWriteConrolWord := writeRequest reqWrite2Bytes .conrolWord
def reqWriteModesOfOperation := writeRequest reqWrite1Byte .modesOfOperation
def reqWriteTargetPosition := writeRequest reqWrite4Bytes .targetPosition

def Message.dataBytes (m : Message) : Vector UInt8 4 :=
  let byte (n : UInt32) : UInt8 := (m.data >>> n).toUInt8
  if m.type = reqWrite4Bytes then #v[byte 0, byte 8, byte 16, byte 24]
  else if m.type = reqWrite3Bytes then #v[byte 0, byte 8, byte 16, 0]
  else if m.type = reqWrite2Bytes then #v[byte 0, byte 8, 0, 0]
  else if m.type = reqWrite1Byte then #v[byte 0, 0, 0, 0]
  else #v[0, 0, 0, 0]

def Message.toBytes (m : Message) : Vector UInt8 8 :=
  #v[m.type, m.index.toUInt8, (m.index >>> 8).toUInt8, m.subIndex.toUInt8,
    m.dataBytes.get 0, m.dataBytes.get 1, m.dataBytes.get 2, m.dataBytes.get 3]

/-- The frame `PendRequest` puts on the queue. -/
def Message.frame (m : Message) : DeviceMessage := ⟨toRequestCanId m.idCob, 0, 8, m.toBytes⟩

theorem Message.frame_getIns {m : Message} {ins : Ins} (hi : m.index = ins.index)
    (hs : m.subIndex = 0) (uninit idCan : UInt32) :
    (ofBytes uninit idCan m.frame.data).getIns = ins.value := by
  have hbytes : (ofBytes uninit idCan m.frame.data).getIns =
      word [m.index.toUInt8, (m.index >>> 8).toUInt8] <<< 8 ||| m.subIndex.toUInt8.toUInt32 := rfl
  rw [hbytes, hi, hs]
  cases ins <;> decide

example : (readRequest .actualPositionValue 3).frame.data =
    #v[0x40, 0x64, 0x60, 0x00, 0x00, 0x00, 0x00, 0x00] := by decide

example : (Message.ofBytes 0 0x583 #v[0x43, 0x64, 0x60, 0x00, 0x78, 0x56, 0x34, 0x12]).data =
    0x12345678 := by decide

end TienKung.Sdo
