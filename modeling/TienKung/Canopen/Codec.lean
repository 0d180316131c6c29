import TienKung.Canopen.Driver
import TienKung.Lib.Words

/-!
# The SDO codec

`Request` takes an instruction word apart that the `DEF_*` macros pack,
`ToBytes` serialises it and the response constructor parses the drive's answer.
The two switches name different command bytes, so their agreement is stated
between both and the layout of the eight bytes.
-/

namespace TienKung.Sdo

-- ---------------------------------------------------------------------------
-- Instruction words
-- ---------------------------------------------------------------------------

/-- `Type << 24 | INDEX << 8 | SUBINDEX`. -/
def instruction (type : UInt8) (index : UInt16) (subIndex : UInt8) : UInt32 :=
  type.toUInt32 <<< 24 ||| index.toUInt32 <<< 8 ||| subIndex.toUInt32

/-- `Request`. -/
def Message.request (idCob req data : UInt32) : Message where
  idCob := idCob
  idCan := toRequestCanId idCob
  type := (req >>> 24 &&& 0x00FF).toUInt8
  index := req >>> 8 &&& 0x00FFFF
  subIndex := req &&& 0x00FF
  data := data

theorem instruction_toNat (type : UInt8) (index : UInt16) (subIndex : UInt8) :
    (instruction type index subIndex).toNat =
      2 ^ 24 * type.toNat + 2 ^ 8 * index.toNat + subIndex.toNat := by
  have ht := type.toNat_lt
  have hi := index.toNat_lt
  have hs := subIndex.toNat_lt
  have hindex : 2 ^ 8 * index.toNat < 2 ^ 24 := by omega
  calc (instruction type index subIndex).toNat
      = 2 ^ 24 * type.toNat ||| 2 ^ 8 * index.toNat ||| subIndex.toNat := by
        simp only [instruction, UInt32.toNat_or, UInt32.toNat_shiftLeft, UInt8.toNat_toUInt32,
          UInt16.toNat_toUInt32, Nat.shiftLeft_eq, UInt32.reduceToNat, Nat.reduceMod]
        rw [Nat.mod_eq_of_lt (by omega), Nat.mod_eq_of_lt (by omega), Nat.mul_comm,
          Nat.mul_comm index.toNat]
    _ = 2 ^ 24 * type.toNat ||| (2 ^ 8 * index.toNat + subIndex.toNat) := by
        rw [Nat.or_assoc, Nat.two_pow_add_eq_or_of_lt hs]
    _ = 2 ^ 24 * type.toNat + 2 ^ 8 * index.toNat + subIndex.toNat := by
        rw [← Nat.two_pow_add_eq_or_of_lt (by omega), Nat.add_assoc]

theorem instruction_low (type : UInt8) (index : UInt16) (subIndex : UInt8) :
    instruction type index subIndex &&& (0xFFFFFF : UInt32) =
      (index.toUInt32 <<< 8 ||| subIndex.toUInt32) := by
  have hzero : index.toUInt32 <<< 8 ||| subIndex.toUInt32 = instruction 0 index subIndex := by
    simp [instruction]
  have hi := index.toNat_lt
  have hs := subIndex.toNat_lt
  have hmask : (0xFFFFFF : UInt32).toNat = 2 ^ 24 - 1 := rfl
  apply UInt32.toNat_inj.mp
  rw [hzero, UInt32.toNat_and, hmask, Nat.and_two_pow_sub_one_eq_mod, instruction_toNat,
    instruction_toNat, UInt8.toNat_zero]
  omega

theorem Message.request_type (idCob : UInt32) (type : UInt8) (index : UInt16) (subIndex : UInt8)
    (data : UInt32) : (request idCob (instruction type index subIndex) data).type = type := by
  have hi := index.toNat_lt
  have hs := subIndex.toNat_lt
  have ht := type.toNat_lt
  have hmask : (0x00FF : UInt32).toNat = 2 ^ 8 - 1 := rfl
  apply UInt8.toNat_inj.mp
  rw [request, UInt32.toNat_toUInt8, UInt32.toNat_and, hmask, Nat.and_two_pow_sub_one_eq_mod,
    UInt32.toNat_shiftRight, instruction_toNat]
  simp only [UInt32.reduceToNat, Nat.reduceMod, Nat.shiftRight_eq_div_pow]
  omega

theorem Message.request_index (idCob : UInt32) (type : UInt8) (index : UInt16) (subIndex : UInt8)
    (data : UInt32) :
    (request idCob (instruction type index subIndex) data).index = index.toUInt32 := by
  have hi := index.toNat_lt
  have hs := subIndex.toNat_lt
  have hmask : (0x00FFFF : UInt32).toNat = 2 ^ 16 - 1 := rfl
  apply UInt32.toNat_inj.mp
  rw [request, UInt32.toNat_and, hmask, Nat.and_two_pow_sub_one_eq_mod, UInt32.toNat_shiftRight,
    instruction_toNat, UInt16.toNat_toUInt32]
  simp only [UInt32.reduceToNat, Nat.reduceMod, Nat.shiftRight_eq_div_pow]
  omega

theorem Message.request_subIndex (idCob : UInt32) (type : UInt8) (index : UInt16)
    (subIndex : UInt8) (data : UInt32) :
    (request idCob (instruction type index subIndex) data).subIndex = subIndex.toUInt32 := by
  have hs := subIndex.toNat_lt
  have hmask : (0x00FF : UInt32).toNat = 2 ^ 8 - 1 := rfl
  apply UInt32.toNat_inj.mp
  rw [request, UInt32.toNat_and, hmask, Nat.and_two_pow_sub_one_eq_mod, instruction_toNat,
    UInt8.toNat_toUInt32]
  omega

-- ---------------------------------------------------------------------------
-- ToBytes
-- ---------------------------------------------------------------------------

/-- Bytes of a payload. -/
inductive Width
  | one | two | three | four
  deriving DecidableEq

def Width.count : Width → Nat
  | .one => 1
  | .two => 2
  | .three => 3
  | .four => 4

def Width.reqWrite : Width → UInt8
  | .one => reqWrite1Byte
  | .two => reqWrite2Bytes
  | .three => reqWrite3Bytes
  | .four => reqWrite4Bytes

def Width.respRead : Width → UInt8
  | .one => respRead1Byte
  | .two => respRead2Bytes
  | .three => respRead3Bytes
  | .four => respRead4Bytes

/-- The vector `ToBytes` fills: four bytes short for a type that is no request. -/
def Message.pushed (m : Message) : List UInt8 :=
  let byte (n : UInt32) : UInt8 := (m.data >>> n &&& 0x00FF).toUInt8
  [m.type, (m.index &&& 0x00FF).toUInt8, (m.index >>> 8).toUInt8, m.subIndex.toUInt8] ++
    if m.type = reqRead then [0x00, 0x00, 0x00, 0x00]
    else if m.type = reqWrite4Bytes then [byte 0, byte 8, byte 16, (m.data >>> 24).toUInt8]
    else if m.type = reqWrite3Bytes then [byte 0, byte 8, byte 16, 0x00]
    else if m.type = reqWrite2Bytes then [byte 0, byte 8, 0x00, 0x00]
    else if m.type = reqWrite1Byte then [byte 0, 0x00, 0x00, 0x00]
    else []

/-- Eight bytes that carry the low `n` bytes of `data`, by the SDO layout. -/
structure Encodes (bytes : List UInt8) (type : UInt8) (index : UInt16) (subIndex : UInt8) (n : Nat)
    (data : UInt32) : Prop where
  length : bytes.length = 8
  type : bytes[0]? = some type
  index : Words.value ((bytes.drop 1).take 2) = index.toNat
  subIndex : bytes[3]? = some subIndex
  data : Words.value ((bytes.drop 4).take n) = data.toNat % 2 ^ (8 * n)
  padding : bytes.drop (4 + n) = List.replicate (4 - n) 0

theorem encodes_of_eq {bytes : List UInt8} {type : UInt8} {index : UInt16} {subIndex : UInt8}
    {n : Nat} {data : UInt32} (hn : n ≤ 4)
    (h : bytes = type :: (Words.low 2 index.toNat ++ subIndex ::
      (Words.low n data.toNat ++ List.replicate (4 - n) 0))) :
    Encodes bytes type index subIndex n data where
  length := by
    rw [h]
    simp
    omega
  type := by rw [h]; rfl
  index := by
    have hi := index.toNat_lt
    have htake : (bytes.drop 1).take 2 = Words.low 2 index.toNat := by
      rw [h]
      exact List.take_left' (Words.length_low 2 _)
    rw [htake, Words.value_low]
    omega
  subIndex := by rw [h]; rfl
  data := by
    have htake : (bytes.drop 4).take n = Words.low n data.toNat := by
      rw [h]
      exact List.take_left' (Words.length_low n _)
    rw [htake, Words.value_low, Nat.pow_mul]
  padding := by
    rw [h, ← List.drop_drop]
    exact List.drop_left' (Words.length_low n _)

theorem toUInt8_shiftRight (x : UInt32) {n : UInt32} (hn : n.toNat < 32) :
    (x >>> n).toUInt8 = UInt8.ofNat (x.toNat / 2 ^ n.toNat) := by
  apply UInt8.toNat_inj.mp
  rw [UInt32.toNat_toUInt8, UInt32.toNat_shiftRight, UInt8.toNat_ofNat', Nat.mod_eq_of_lt hn,
    Nat.shiftRight_eq_div_pow]

@[simp] theorem and_mask (b : UInt8) : b &&& 0x00FF = b := by
  have hmask : (0x00FF : UInt8).toNat = 2 ^ 8 - 1 := rfl
  apply UInt8.toNat_inj.mp
  rw [UInt8.toNat_and, hmask, Nat.and_two_pow_sub_one_eq_mod, Nat.mod_eq_of_lt b.toNat_lt]

@[simp] theorem toUInt8_and_mask (x : UInt32) : (x &&& 0x00FF).toUInt8 = x.toUInt8 := by
  have hmask : (0x00FF : UInt32).toNat = 2 ^ 8 - 1 := rfl
  apply UInt8.toNat_inj.mp
  rw [UInt32.toNat_toUInt8, UInt32.toNat_toUInt8, UInt32.toNat_and, hmask,
    Nat.and_two_pow_sub_one_eq_mod, Nat.mod_mod]

section
variable {m : Message} {index : UInt16} {subIndex : UInt8}

theorem Message.pushed_header (hi : m.index = index.toUInt32) (hs : m.subIndex = subIndex.toUInt32) :
    m.pushed = m.type :: (Words.low 2 index.toNat ++ subIndex :: m.pushed.drop 4) := by
  have hlow : Words.low 2 index.toNat =
      [(m.index &&& 0x00FF).toUInt8, (m.index >>> 8).toUInt8] := by
    have h8 : (8 : UInt32).toNat < 32 := by decide
    rw [toUInt8_and_mask, toUInt8_shiftRight _ h8, hi, UInt16.toNat_toUInt32]
    simp [Words.low]
  have hsub : m.subIndex.toUInt8 = subIndex := by rw [hs]; simp
  rw [hlow, ← hsub]
  rfl

theorem Message.pushed_data (w : Width) (h : m.type = w.reqWrite) : m.pushed.drop 4 =
    Words.low w.count m.data.toNat ++ List.replicate (4 - w.count) 0 := by
  have h8 := toUInt8_shiftRight m.data (n := 8) (by decide)
  have h16 := toUInt8_shiftRight m.data (n := 16) (by decide)
  have h24 := toUInt8_shiftRight m.data (n := 24) (by decide)
  cases w <;>
    simp [pushed, h, Width.reqWrite, Width.count, Words.low, reqRead, reqWrite1Byte, reqWrite2Bytes,
      reqWrite3Bytes, reqWrite4Bytes, Nat.div_div_eq_div_mul] <;> simp_all

theorem Message.pushed_read (h : m.type = reqRead) : m.pushed.drop 4 = [0x00, 0x00, 0x00, 0x00] := by
  simp [pushed, h]

theorem Message.toBytes_append (m : Message) : m.toBytes.toList =
    [m.type, m.index.toUInt8, (m.index >>> 8).toUInt8, m.subIndex.toUInt8] ++
      m.dataBytes.toList := by
  unfold toBytes dataBytes
  dsimp only
  split_ifs <;> rfl

theorem Message.toBytes_toList (h : m.type = reqRead ∨ ∃ w : Width, m.type = w.reqWrite) :
    m.toBytes.toList = m.pushed := by
  rw [toBytes_append]
  rcases h with h | ⟨w, h⟩
  · simp [dataBytes, pushed, h, reqRead, reqWrite1Byte, reqWrite2Bytes, reqWrite3Bytes,
      reqWrite4Bytes]
  · cases w <;>
      simp [dataBytes, pushed, h, Width.reqWrite, reqRead, reqWrite1Byte, reqWrite2Bytes,
        reqWrite3Bytes, reqWrite4Bytes]

theorem Message.encodes_write (hi : m.index = index.toUInt32) (hs : m.subIndex = subIndex.toUInt32)
    (w : Width) (h : m.type = w.reqWrite) :
    Encodes m.pushed w.reqWrite index subIndex w.count m.data := by
  have hw : w.count ≤ 4 := by cases w <;> decide
  refine encodes_of_eq hw ?_
  rw [← pushed_data w h, ← h]
  exact pushed_header hi hs

theorem Message.encodes_read (hi : m.index = index.toUInt32) (hs : m.subIndex = subIndex.toUInt32)
    (h : m.type = reqRead) : Encodes m.pushed reqRead index subIndex 0 m.data := by
  refine encodes_of_eq (Nat.zero_le 4) ?_
  have hheader := pushed_header hi hs
  rwa [pushed_read h, h] at hheader

end

-- ---------------------------------------------------------------------------
-- The answer
-- ---------------------------------------------------------------------------

/-- A `RESP_READ_nBYTES` frame: index and sub-index as requested, data as in `payload`. -/
def readResponse (w : Width) (request payload : Vector UInt8 8) : Vector UInt8 8 :=
  #v[w.respRead, request.get 1, request.get 2, request.get 3, payload.get 4, payload.get 5,
    payload.get 6, payload.get 7]

theorem toNat_word {bytes : List UInt8} (h : bytes.length ≤ 4) :
    (word bytes).toNat = Words.value bytes := by
  induction bytes with
  | nil => rfl
  | cons b bytes ih =>
    have hlen : bytes.length ≤ 3 := Nat.le_of_succ_le_succ h
    have hrest := ih (by omega)
    have hlt : (word bytes).toNat < 2 ^ 24 := calc
      (word bytes).toNat < 256 ^ bytes.length := hrest ▸ Words.value_lt bytes
      _ ≤ 256 ^ 3 := Nat.pow_le_pow_right (by decide) hlen
    rw [Words.value_cons, ← hrest]
    exact Words.toNat_shiftLeft_or hlt

/-- What a response holds of the object and the `n` bytes of `data` it carries. -/
structure Message.Carries (m : Message) (index : UInt16) (subIndex : UInt8) (n : Nat)
    (data : UInt32) : Prop where
  index : m.index = index.toUInt32
  subIndex : m.subIndex = subIndex.toUInt32
  data : m.data.toNat = data.toNat % 2 ^ (8 * n)

section
variable {index : UInt16} {subIndex : UInt8} {request payload : Message}

theorem Message.carries_readResponse (hi : request.index = index.toUInt32)
    (hs : request.subIndex = subIndex.toUInt32) (w : Width) (hp : payload.type = w.reqWrite)
    (uninit idCan : UInt32) :
    (ofBytes uninit idCan (readResponse w request.toBytes payload.toBytes)).Carries index subIndex
      w.count payload.data where
  index := by
    have hbytes : [request.index.toUInt8, (request.index >>> 8).toUInt8] =
        Words.low 2 index.toNat := by
      rw [toUInt8_shiftRight _ (by decide), hi, UInt16.toNat_toUInt32]
      simp [Words.low]
    have hlt := index.toNat_lt
    apply UInt32.toNat_inj.mp
    calc (word [request.index.toUInt8, (request.index >>> 8).toUInt8]).toNat
        = Words.value (Words.low 2 index.toNat) := by rw [toNat_word (by simp), hbytes]
      _ = index.toUInt32.toNat := by
        rw [Words.value_low, UInt16.toNat_toUInt32]
        omega
  subIndex := by
    have hbyte : request.subIndex.toUInt8 = subIndex := by rw [hs]; simp
    show request.subIndex.toUInt8.toUInt32 = _
    rw [hbyte]
  data := by
    have hdata : (ofBytes uninit idCan (readResponse w request.toBytes payload.toBytes)).data =
        word ((payload.toBytes.toList.drop 4).take w.count) := by cases w <;> rfl
    have hw : w.count ≤ 4 := by cases w <;> decide
    have htake : (payload.pushed.drop 4).take w.count = Words.low w.count payload.data.toNat := by
      rw [pushed_data w hp]
      exact List.take_left' (Words.length_low _ _)
    rw [hdata, toBytes_toList (.inr ⟨w, hp⟩), htake, toNat_word (by simpa using hw),
      Words.value_low, Nat.pow_mul]

end

-- ---------------------------------------------------------------------------
-- The dispatch
-- ---------------------------------------------------------------------------

/-- A line of `Instructions.h`: the object, and the payload of its `REQ_WRITE_*` (none for
`DEF_RON`). -/
structure Object where
  index : UInt16
  subIndex : UInt8
  write : Option Width
  deriving DecidableEq

def Object.resp (o : Object) : UInt32 := o.index.toUInt32 <<< 8 ||| o.subIndex.toUInt32

/-- The `REQ_READ_*` and `REQ_WRITE_*` enumerators of the line. -/
def Object.requests (o : Object) : List UInt32 :=
  instruction reqRead o.index o.subIndex ::
    o.write.toList.map fun w => instruction w.reqWrite o.index o.subIndex

end TienKung.Sdo

namespace TienKung

open Sdo

/-- `enum Instruction`. -/
def Driver.objects (drv : Driver) : List Object :=
  [⟨0x606C, 0x00, none⟩, ⟨0x6064, 0x00, none⟩, ⟨0x6075, 0x00, some .four⟩, ⟨0x6078, 0x00, none⟩,
    ⟨0x6040, 0x00, some .two⟩, ⟨0x6041, 0x00, some .two⟩, ⟨0x6060, 0x00, some .one⟩,
    ⟨0x6061, 0x00, none⟩, ⟨0x6071, 0x00, some .two⟩, ⟨0x607A, 0x00, some .four⟩] ++
  match drv with
  | .zeroErr => []
  | .eyou => [⟨0x60FF, 0x00, some .four⟩, ⟨0x607F, 0x00, some .four⟩]

theorem Sdo.Object.low_of_mem_requests {o : Object} {req : UInt32} (h : req ∈ o.requests) :
    req &&& (0xFFFFFF : UInt32) = o.resp := by
  simp only [Object.requests, List.mem_cons, List.mem_map] at h
  rcases h with rfl | ⟨w, -, rfl⟩ <;> exact instruction_low ..

theorem Driver.resp_nodup (drv : Driver) : (drv.objects.map Object.resp).Nodup := by
  cases drv <;> decide

/-- Every case label that stores something is a `RESP_READ_*` of the driver's enumeration. -/
theorem Driver.label_mem_resp (drv : Driver) :
    ∀ label ∈ drv.labels, label.value ∈ drv.objects.map Object.resp := by
  cases drv <;> decide

/-- The codec loses nothing in either direction, and an answer reaches the case label of
its request. -/
theorem sdo_codec_roundTrip (drv : Driver) (uninit idCob idCan data : UInt32) (type : UInt8)
    (index : UInt16) (subIndex : UInt8) (w : Width) (frame : Vector UInt8 8) :
    let request (type : UInt8) := Message.request idCob (instruction type index subIndex) data
    let resp := Message.ofBytes uninit (toResponseCanId idCob)
      (readResponse w (request type).toBytes (request w.reqWrite).toBytes)
    ((request type).type = type ∧ (request type).index = index.toUInt32 ∧
      (request type).subIndex = subIndex.toUInt32) ∧
    Encodes (request w.reqWrite).pushed w.reqWrite index subIndex w.count data ∧
    Encodes (request reqRead).pushed reqRead index subIndex 0 data ∧
    resp.Carries index subIndex w.count data ∧
    resp.getIns = instruction type index subIndex &&& (0xFFFFFF : UInt32) ∧
    resp.idCob = idCob ∧ toResponseCanId (Message.ofBytes uninit idCan frame).idCob = idCan ∧
    (∀ label, drv.label? resp = some label ↔ label ∈ drv.labels ∧
      label.value = instruction type index subIndex &&& (0xFFFFFF : UInt32)) ∧
    (∀ label ∈ drv.labels, ∃ o ∈ drv.objects, o.resp = label.value) ∧
    ∀ o ∈ drv.objects, (∀ req ∈ o.requests, req &&& (0xFFFFFF : UInt32) = o.resp) ∧
      ∀ o' ∈ drv.objects, o'.resp = o.resp → o' = o := by
  intro request resp
  have htype (type : UInt8) : (request type).type = type := Message.request_type ..
  have hindex (type : UInt8) : (request type).index = index.toUInt32 := Message.request_index ..
  have hsub (type : UInt8) : (request type).subIndex = subIndex.toUInt32 :=
    Message.request_subIndex ..
  have hcarries : resp.Carries index subIndex w.count data :=
    Message.carries_readResponse (hindex type) (hsub type) w (htype _) ..
  have hins : resp.getIns = instruction type index subIndex &&& (0xFFFFFF : UInt32) := by
    rw [instruction_low, Message.getIns, hcarries.index, hcarries.subIndex]
  refine ⟨⟨htype type, hindex type, hsub type⟩,
    Message.encodes_write (hindex _) (hsub _) w (htype _),
    Message.encodes_read (hindex _) (hsub _) (htype _), hcarries, hins, ?_, ?_, ?_, ?_, ?_⟩
  · show idCob + 0x580 - 0x580 = idCob
    simp
  · show idCan - 0x580 + 0x580 = idCan
    simp
  · intro label
    rw [← hins]
    constructor
    · exact fun h => ⟨List.mem_of_find?_eq_some h, Driver.label?_some h⟩
    · rintro ⟨hl, hv⟩
      exact (Driver.label?_eq_some hl resp).mpr hv.symm
  · intro label hl
    exact List.mem_map.mp (drv.label_mem_resp label hl)
  · intro o ho
    refine ⟨fun req => Object.low_of_mem_requests, fun o' ho' h => ?_⟩
    exact List.inj_on_of_nodup_map drv.resp_nodup ho' ho h

end TienKung
