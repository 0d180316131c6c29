import TienKung.Devices.TsinghuaHand
import TienKung.Lib.Codecs
import TienKung.Lib.Framing
import TienKung.Lib.Words

/-!
# The frames of a hand command are a lossless encoding

The fields of a command are one message, in numbered frames of up to eight
bytes; the status query and the messages that stop and start a motion have a
code of their own. The receiver below reads the messages from the frames' ids
and payloads and the command from the messages.
-/

namespace TienKung

-- ---------------------------------------------------------------------------
-- The 29-bit id
-- ---------------------------------------------------------------------------

theorem FrameId.word_toNat (uninit : UInt32) (fid : FrameId) :
    ∃ top, (fid.word uninit).toNat = 2 ^ 29 * top + (2 ^ 24 * (fid.id.toNat % 32) +
      (2 ^ 16 * fid.cmd.toNat + (2 ^ 8 * fid.frameCount.toNat + fid.frameSeq.toNat))) := by
  obtain ⟨top, htop⟩ : ∃ top, (uninit &&& 0xE0000000).toNat = 2 ^ 29 * top := by
    refine ⟨(uninit &&& 0xE0000000).toNat / 2 ^ 29, (Nat.mul_div_cancel' ?_).symm⟩
    refine Nat.dvd_of_mod_eq_zero ?_
    rw [UInt32.toNat_and, Nat.and_mod_two_pow]
    exact Nat.and_zero _
  have hid : (fid.id.toUInt32 &&& 0x1F).toNat = fid.id.toNat % 32 := by
    rw [UInt32.toNat_and, UInt16.toNat_toUInt32]
    exact Nat.and_two_pow_sub_one_eq_mod _ 5
  have hseq := fid.frameSeq.toNat_lt
  have hcount := fid.frameCount.toNat_lt
  have hcmd := fid.cmd.toNat_lt
  refine ⟨top, ?_⟩
  simp only [FrameId.word, UInt32.toNat_or, UInt32.toNat_shiftLeft, UInt8.toNat_toUInt32, hid, htop,
    Nat.shiftLeft_eq, UInt32.reduceToNat, Nat.reduceMod]
  rw [Nat.mod_eq_of_lt (by omega), Nat.mod_eq_of_lt (by omega), Nat.mod_eq_of_lt (by omega),
    Nat.mul_comm _ (2 ^ 8), Nat.mul_comm _ (2 ^ 16), Nat.mul_comm _ (2 ^ 24),
    Words.or_two_pow_mul (n := 8) (by omega), Words.or_two_pow_mul (n := 16) (by omega),
    Words.or_two_pow_mul (n := 24) (by omega), Words.or_two_pow_mul (n := 29) (by omega)]

theorem FrameId.ofWord_word (uninit : UInt32) {fid : FrameId} (h : fid.id < 32) :
    FrameId.ofWord (fid.word uninit) = fid := by
  obtain ⟨top, hword⟩ := fid.word_toNat uninit
  obtain ⟨id, cmd, count, seq⟩ := fid
  have hseq := seq.toNat_lt
  have hcount := count.toNat_lt
  have hcmd := cmd.toNat_lt
  have hid : id.toNat < 32 := h
  have hmask : (0x1F : UInt32).toNat = 2 ^ 5 - 1 := rfl
  simp only [FrameId.ofWord, FrameId.mk.injEq, ← UInt16.toNat_inj, ← UInt8.toNat_inj,
    UInt32.toNat_toUInt8, UInt32.toNat_toUInt16, UInt32.toNat_and, UInt32.toNat_shiftRight, hmask,
    Nat.and_two_pow_sub_one_eq_mod, hword, UInt32.reduceToNat, Nat.reduceMod,
    Nat.shiftRight_eq_div_pow]
  omega

-- ---------------------------------------------------------------------------
-- The fields of a command
-- ---------------------------------------------------------------------------

theorem high_toNat (threshold : UInt16) : (high threshold).toNat = threshold.toNat / 256 := by
  have h := threshold.toNat_lt
  have hmask : (threshold &&& 0xFF00).toNat / 256 = threshold.toNat / 256 := by
    rw [UInt16.toNat_and]
    exact (Nat.and_div_two_pow (n := 8)).trans
      (Nat.and_two_pow_sub_one_of_lt_two_pow (n := 8) (by omega))
  rw [high, UInt16.toNat_toUInt8, UInt16.toNat_shiftRight]
  simp only [UInt16.reduceToNat, Nat.reduceMod, Nat.shiftRight_eq_div_pow]
  omega

theorem low_toNat (threshold : UInt16) : (low threshold).toNat = threshold.toNat % 256 := by
  have hmask : (threshold &&& 0xFF).toNat = threshold.toNat % 256 := by
    rw [UInt16.toNat_and]
    exact Nat.and_two_pow_sub_one_eq_mod _ 8
  rw [low, UInt16.toNat_toUInt8, hmask, Nat.mod_mod]

/-- A threshold, high byte first. -/
def thresholdCodec : Codec UInt16 :=
  (Codec.byte.append .byte).via (fun threshold => (high threshold, low threshold))
    (fun (hi, lo) => UInt16.ofNat (256 * hi.toNat + lo.toNat)) fun threshold => by
      simp only [high_toNat, low_toNat, Nat.div_add_mod, UInt16.ofNat_toNat]

def motionCodec : Codec Motion :=
  (Codec.byte.append .byte).via (fun m => (m.enable, m.angle))
    (fun (enable, angle) => ⟨enable, angle⟩) fun _ => rfl

def fingerMotionCodec : Codec FingerMotion := motionCodec.via (·.bend) (⟨·⟩) fun _ => rfl

def thumbMotionCodec : Codec ThumbMotion :=
  (motionCodec.append fingerMotionCodec).via (fun m => (m.rotation, m.toFingerMotion))
    (fun (rotation, finger) => ⟨finger, rotation⟩) fun _ => rfl

/-- The thumb, and the fingers from the fore finger to the little one. -/
def handCodec (thumb : Codec α) (finger : Codec β) : Codec (α × β × β × β × β) :=
  thumb.append (finger.append (finger.append (finger.append finger)))

def setPosCodec : Codec FingerSetPositionCmd :=
  (handCodec thumbMotionCodec fingerMotionCodec).via
    (fun cmd => (cmd.thumb, cmd.fore, cmd.middle, cmd.ring, cmd.little))
    (fun (thumb, fore, middle, ring, little) => ⟨thumb, fore, middle, ring, little⟩) fun _ => rfl

def motionCtrlCodec : Codec MotionCtrl :=
  (Codec.byte.append (.append .byte (.append .byte .byte))).via
    (fun m => (m.enable, m.vel, m.startAngle, m.maxAngle))
    (fun (enable, vel, startAngle, maxAngle) => ⟨enable, vel, startAngle, maxAngle⟩) fun _ => rfl

def fingerMotionCtrlCodec : Codec FingerMotionCtrl :=
  (motionCtrlCodec.append thresholdCodec).via (fun m => (m.bend, m.threshold))
    (fun (bend, threshold) => ⟨bend, threshold⟩) fun _ => rfl

def thumbMotionCtrlCodec : Codec ThumbMotionCtrl :=
  (motionCtrlCodec.append fingerMotionCtrlCodec).via (fun m => (m.rotation, m.toFingerMotionCtrl))
    (fun (rotation, finger) => ⟨finger, rotation⟩) fun _ => rfl

def setMotionCtrlCodec : Codec FingerMotionCtrlCmd :=
  (handCodec thumbMotionCtrlCodec fingerMotionCtrlCodec).via
    (fun cmd => (cmd.thumb, cmd.fore, cmd.middle, cmd.ring, cmd.little))
    (fun (thumb, fore, middle, ring, little) => ⟨thumb, fore, middle, ring, little⟩) fun _ => rfl

def fingerStopCodec : Codec FingerStop := Codec.flag.via (·.bend) (⟨·⟩) fun _ => rfl

def thumbStopCodec : Codec ThumbStop :=
  (Codec.flag.append fingerStopCodec).via (fun m => (m.rotation, m.toFingerStop))
    (fun (rotation, finger) => ⟨finger, rotation⟩) fun _ => rfl

/-- The fields of a stop command that says `stop`; that flag is in the frame's code. -/
def setEmergencyStopCodec : Codec (ThumbStop × FingerStop × FingerStop × FingerStop × FingerStop) :=
  handCodec thumbStopCodec fingerStopCodec

-- ---------------------------------------------------------------------------
-- The receiver
-- ---------------------------------------------------------------------------

def DeviceMessage.payload (msg : DeviceMessage) : List UInt8 := msg.data.toList.take msg.dlc.toNat

def FrameId.part (fid : FrameId) (payload : List UInt8) : Framing.Part UInt8 UInt8 :=
  ⟨fid.cmd, fid.frameCount.toNat, fid.frameSeq.toNat, payload⟩

def DeviceMessage.part (msg : DeviceMessage) : Framing.Part UInt8 UInt8 :=
  (FrameId.ofWord msg.id).part msg.payload

/-- The command a message carries, if it carries one. -/
def HandCommand.ofMessage : UInt8 × List UInt8 → Option HandCommand
  | (code, payload) =>
    if code = 0x10 then (setPosCodec.whole payload).map .setPos
    else if code = 0x40 then (setMotionCtrlCodec.whole payload).map .setMotionCtrl
    else if code = 0x20 ∨ code = 0x30 then
      (setEmergencyStopCodec.whole payload).map fun (thumb, fore, middle, ring, little) =>
        .setEmergencyStop ⟨code = 0x20, thumb, fore, middle, ring, little⟩
    else none

def receivedCommands (frames : List DeviceMessage) : List HandCommand :=
  (Mealy.emitted Framing.receive none (frames.map DeviceMessage.part)).filterMap
    HandCommand.ofMessage

/-- The code of the message that carries the command's fields. -/
def HandCommand.code : HandCommand → UInt8
  | .setPos _ => 0x10
  | .setEmergencyStop cmd => if cmd.stop then 0x20 else 0x30
  | .setMotionCtrl _ => 0x40

def HandCommand.bytes : HandCommand → List UInt8
  | .setPos cmd => setPosCodec.write cmd
  | .setEmergencyStop cmd =>
    setEmergencyStopCodec.write (cmd.thumb, cmd.fore, cmd.middle, cmd.ring, cmd.little)
  | .setMotionCtrl cmd => setMotionCtrlCodec.write cmd

def HandCommand.size : HandCommand → Nat
  | .setPos _ => 12
  | .setEmergencyStop _ => 6
  | .setMotionCtrl _ => 34

/-- The messages of a command: their codes, and in how many frames they go out. -/
def HandCommand.messages : HandCommand → List (UInt8 × UInt8)
  | .setPos _ => [(0x10, 2), (0xF1, 1)]
  | .setEmergencyStop cmd => [(if cmd.stop then 0x20 else 0x30, 1)]
  | .setMotionCtrl _ => [(0x4A, 1), (0x40, 5), (0x4A, 1), (0xF1, 1)]

/-- The messages with their payloads, frame by frame. -/
def HandCommand.chunks (cmd : HandCommand) : List (UInt8 × List (List UInt8)) :=
  let bytes := cmd.bytes
  match cmd with
  | .setPos _ => [(0x10, [bytes.take 8, bytes.drop 8]), (0xF1, [[0]])]
  | .setEmergencyStop _ => [(cmd.code, [bytes])]
  | .setMotionCtrl _ =>
    [(0x4A, [[0]]),
      (0x40, [bytes.take 8, (bytes.drop 8).take 8, (bytes.drop 16).take 8, (bytes.drop 24).take 8,
        bytes.drop 32]),
      (0x4A, [[1]]), (0xF1, [[0]])]

def frameIds (id : UInt16) (message : UInt8 × UInt8) : List FrameId :=
  (List.range message.2.toNat).map fun k => ⟨id, message.1, message.2, UInt8.ofNat (k + 1)⟩

structure Lossless (id : UInt16) (cmd : HandCommand) (frames : List DeviceMessage) : Prop where
  ids : frames.map (fun frame => FrameId.ofWord frame.id) = cmd.messages.flatMap (frameIds id)
  fits : ∀ frame ∈ frames, frame.dlc ≤ 8
  sizes : ((frames.filter fun frame => (FrameId.ofWord frame.id).cmd = cmd.code).map
    (·.dlc.toNat)).sum = cmd.size
  received : receivedCommands frames = [cmd]

section
variable {id : UInt16}

@[simp] theorem ofWord_frame_id (h : id < 32) (uninit : UInt32) (cmd count seq dlc : UInt8)
    (data : Vector UInt8 8) :
    FrameId.ofWord (FrameId.frame uninit ⟨id, cmd, count, seq⟩ dlc data).id =
      ⟨id, cmd, count, seq⟩ :=
  FrameId.ofWord_word uninit h

theorem map_part (frames : List DeviceMessage) :
    frames.map DeviceMessage.part = List.zipWith FrameId.part
      (frames.map fun frame => FrameId.ofWord frame.id) (frames.map DeviceMessage.payload) := by
  induction frames with
  | nil => rfl
  | cons frame frames ih => exact congrArg _ ih

theorem HandCommand.frames_ids (h : id < 32) (cmd : HandCommand) (uninit uninitQuery : UInt32) :
    (cmd.frames id uninit uninitQuery).map (fun frame => FrameId.ofWord frame.id) =
      cmd.messages.flatMap (frameIds id) := by
  cases cmd <;>
    simp [frames, setPosFrames, setEmergencyStopFrames, setMotionCtrlFrames, generateQueryStatus,
      h] <;>
    rfl

theorem HandCommand.frames_parts (h : id < 32) (cmd : HandCommand) (uninit uninitQuery : UInt32) :
    (cmd.frames id uninit uninitQuery).map DeviceMessage.part =
      cmd.chunks.flatMap fun m => Framing.parts m.1 m.2 := by
  rw [map_part, cmd.frames_ids h]
  cases cmd <;> rfl

theorem HandCommand.ofMessage_bytes (cmd : HandCommand) :
    ofMessage (cmd.code, cmd.bytes) = some cmd := by
  cases cmd with
  | setPos cmd => simp [ofMessage, code, bytes]
  | setMotionCtrl cmd => simp [ofMessage, code, bytes]
  | setEmergencyStop cmd =>
    obtain ⟨stop, thumb, fore, middle, ring, little⟩ := cmd
    cases stop <;> simp [ofMessage, code, bytes]

theorem HandCommand.received_frames (h : id < 32) (cmd : HandCommand)
    (uninit uninitQuery : UInt32) :
    receivedCommands (cmd.frames id uninit uninitQuery) = [cmd] := by
  have hne : ∀ m ∈ cmd.chunks, m.2 ≠ [] := by
    cases cmd <;> simp [chunks]
  have hcarried := cmd.ofMessage_bytes
  rw [receivedCommands, cmd.frames_parts h, Framing.receive_messages hne]
  cases cmd with
  | setPos cmd =>
    have hmessages : (setPos cmd).chunks.map (fun m => (m.1, m.2.flatten)) =
        [((setPos cmd).code, (setPos cmd).bytes), (0xF1, [0])] := rfl
    rw [hmessages, List.filterMap_cons_some hcarried]
    rfl
  | setEmergencyStop cmd =>
    have hmessages : (setEmergencyStop cmd).chunks.map (fun m => (m.1, m.2.flatten)) =
        [((setEmergencyStop cmd).code, (setEmergencyStop cmd).bytes)] := rfl
    rw [hmessages, List.filterMap_cons_some hcarried, List.filterMap_nil]
  | setMotionCtrl cmd =>
    have hmessages : (setMotionCtrl cmd).chunks.map (fun m => (m.1, m.2.flatten)) =
        [(0x4A, [0]), ((setMotionCtrl cmd).code, (setMotionCtrl cmd).bytes), (0x4A, [1]),
          (0xF1, [0])] := rfl
    rw [hmessages, List.filterMap_cons_none rfl, List.filterMap_cons_some hcarried]
    rfl

theorem HandCommand.length_bytes (cmd : HandCommand) : cmd.bytes.length = cmd.size := by
  cases cmd with
  | setPos cmd => exact setPosCodec.length_write cmd
  | setEmergencyStop cmd => exact setEmergencyStopCodec.length_write _
  | setMotionCtrl cmd => exact setMotionCtrlCodec.length_write cmd

theorem HandCommand.dlc_le (cmd : HandCommand) (uninit uninitQuery : UInt32) :
    ∀ frame ∈ cmd.frames id uninit uninitQuery, frame.dlc ≤ 8 := by
  cases cmd <;>
    simp [frames, setPosFrames, setEmergencyStopFrames, setMotionCtrlFrames, generateQueryStatus,
      FrameId.frame]

theorem HandCommand.sum_dlc (h : id < 32) (cmd : HandCommand) (uninit uninitQuery : UInt32) :
    (((cmd.frames id uninit uninitQuery).filter fun frame =>
      (FrameId.ofWord frame.id).cmd = cmd.code).map (·.dlc.toNat)).sum = cmd.bytes.length := by
  cases cmd with
  | setPos cmd => simp [frames, setPosFrames, generateQueryStatus, h, code]; rfl
  | setEmergencyStop cmd => simp [frames, setEmergencyStopFrames, h, code]; rfl
  | setMotionCtrl cmd => simp [frames, setMotionCtrlFrames, generateQueryStatus, h, code]; rfl

/-- The frames of every command are a lossless encoding of it. -/
theorem HandCommand.frames_lossless (cmd : HandCommand) (uninit uninitQuery : UInt32)
    (h : id < 32) : Lossless id cmd (cmd.frames id uninit uninitQuery) where
  ids := cmd.frames_ids h uninit uninitQuery
  fits := cmd.dlc_le uninit uninitQuery
  sizes := (cmd.sum_dlc h uninit uninitQuery).trans cmd.length_bytes
  received := cmd.received_frames h uninit uninitQuery

theorem setMotionCtrl_frames_lossless :
    let ctrl : MotionCtrl := ⟨1, 20, 5, 90⟩
    let cmd : HandCommand := .setMotionCtrl
      ⟨⟨⟨ctrl, 0x1234⟩, ctrl⟩, ⟨ctrl, 0xFF⟩, ⟨ctrl, 0x100⟩, ⟨ctrl, 7⟩, ⟨ctrl, 0xFFFF⟩⟩
    Lossless 31 cmd (cmd.frames 31 0xFFFFFFFF 0) :=
  HandCommand.frames_lossless _ 0xFFFFFFFF 0 (by decide)

end

end TienKung
