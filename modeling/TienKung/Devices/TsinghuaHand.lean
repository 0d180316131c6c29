import TienKung.Devices.StatusManager
import TienKung.Lib.Fifo
import TienKung.Lib.Heap
import TienKung.Soem.Message
import TienKung.Util.LockFreeQueue

/-!
# `TsinghuaHandDevice`

A command is a block of frames, queued as a list of pointers. `OnRequest` sends
the frames of a block one a cycle: it copies the first one, removes every
pointer equal to it from the list and deletes it. Where no command waits it asks
for the status.

A `FrameId` is not initialised: `uninit` is what its three unnamed bits hold.
-/

namespace TienKung

-- ---------------------------------------------------------------------------
-- Commands
-- ---------------------------------------------------------------------------

structure MotionCtrl where
  enable : UInt8
  vel : UInt8
  startAngle : UInt8
  maxAngle : UInt8
  deriving DecidableEq

structure FingerMotionCtrl where
  bend : MotionCtrl
  threshold : UInt16
  deriving DecidableEq

structure ThumbMotionCtrl extends FingerMotionCtrl where
  rotation : MotionCtrl
  deriving DecidableEq

structure FingerMotionCtrlCmd where
  thumb : ThumbMotionCtrl
  fore : FingerMotionCtrl
  middle : FingerMotionCtrl
  ring : FingerMotionCtrl
  little : FingerMotionCtrl
  deriving DecidableEq

structure Motion where
  enable : UInt8
  angle : UInt8
  deriving DecidableEq

structure FingerMotion where
  bend : Motion
  deriving DecidableEq

structure ThumbMotion extends FingerMotion where
  rotation : Motion
  deriving DecidableEq

structure FingerSetPositionCmd where
  thumb : ThumbMotion
  fore : FingerMotion
  middle : FingerMotion
  ring : FingerMotion
  little : FingerMotion
  deriving DecidableEq

structure FingerStop where
  bend : Bool
  deriving DecidableEq

structure ThumbStop extends FingerStop where
  rotation : Bool
  deriving DecidableEq

structure FingerStopCmd where
  stop : Bool
  thumb : ThumbStop
  fore : FingerStop
  middle : FingerStop
  ring : FingerStop
  little : FingerStop
  deriving DecidableEq

-- ---------------------------------------------------------------------------
-- Frames
-- ---------------------------------------------------------------------------

structure FrameId where
  id : UInt16
  cmd : UInt8
  frameCount : UInt8
  frameSeq : UInt8

/-- The bit fields in the word that goes out, five bits of the id. -/
def FrameId.word (uninit : UInt32) (fid : FrameId) : UInt32 :=
  fid.frameSeq.toUInt32 ||| fid.frameCount.toUInt32 <<< 8 ||| fid.cmd.toUInt32 <<< 16 |||
    (fid.id.toUInt32 &&& 0x1F) <<< 24 ||| (uninit &&& 0xE0000000)

def FrameId.ofWord (word : UInt32) : FrameId where
  id := (word >>> 24 &&& 0x1F).toUInt16
  cmd := (word >>> 16).toUInt8
  frameCount := (word >>> 8).toUInt8
  frameSeq := word.toUInt8

def FrameId.frame (uninit : UInt32) (fid : FrameId) (dlc : UInt8) (data : Vector UInt8 8) :
    DeviceMessage := ⟨fid.word uninit, 0, dlc, data⟩

def high (threshold : UInt16) : UInt8 := ((threshold &&& 0xFF00) >>> 8).toUInt8
def low (threshold : UInt16) : UInt8 := (threshold &&& 0xFF).toUInt8

def generateQueryStatus (id : UInt16) (uninit : UInt32) : DeviceMessage :=
  FrameId.frame uninit ⟨id, 0xF1, 1, 1⟩ 1 #v[0, 0, 0, 0, 0, 0, 0, 0]

def setPosFrames (id : UInt16) (uninit : UInt32) (cmd : FingerSetPositionCmd) :
    List DeviceMessage :=
  [FrameId.frame uninit ⟨id, 0x10, 2, 1⟩ 8
      #v[cmd.thumb.rotation.enable, cmd.thumb.rotation.angle, cmd.thumb.bend.enable,
        cmd.thumb.bend.angle, cmd.fore.bend.enable, cmd.fore.bend.angle, cmd.middle.bend.enable,
        cmd.middle.bend.angle],
    FrameId.frame uninit ⟨id, 0x10, 2, 2⟩ 4
      #v[cmd.ring.bend.enable, cmd.ring.bend.angle, cmd.little.bend.enable, cmd.little.bend.angle,
        0, 0, 0, 0]]

def setEmergencyStopFrames (id : UInt16) (uninit : UInt32) (cmd : FingerStopCmd) :
    List DeviceMessage :=
  [FrameId.frame uninit ⟨id, if cmd.stop then 0x20 else 0x30, 1, 1⟩ 6
    #v[cmd.thumb.rotation.toUInt8, cmd.thumb.bend.toUInt8, cmd.fore.bend.toUInt8,
      cmd.middle.bend.toUInt8, cmd.ring.bend.toUInt8, cmd.little.bend.toUInt8, 0, 0]]

def setMotionCtrlFrames (id : UInt16) (uninit : UInt32) (cmd : FingerMotionCtrlCmd) :
    List DeviceMessage :=
  let frame := FrameId.frame uninit
  [frame ⟨id, 0x4A, 1, 1⟩ 1 #v[0, 0, 0, 0, 0, 0, 0, 0],
    frame ⟨id, 0x40, 5, 1⟩ 8
      #v[cmd.thumb.rotation.enable, cmd.thumb.rotation.vel, cmd.thumb.rotation.startAngle,
        cmd.thumb.rotation.maxAngle, cmd.thumb.bend.enable, cmd.thumb.bend.vel,
        cmd.thumb.bend.startAngle, cmd.thumb.bend.maxAngle],
    frame ⟨id, 0x40, 5, 2⟩ 8
      #v[high cmd.thumb.threshold, low cmd.thumb.threshold, cmd.fore.bend.enable,
        cmd.fore.bend.vel, cmd.fore.bend.startAngle, cmd.fore.bend.maxAngle,
        high cmd.fore.threshold, low cmd.fore.threshold],
    frame ⟨id, 0x40, 5, 3⟩ 8
      #v[cmd.middle.bend.enable, cmd.middle.bend.vel, cmd.middle.bend.startAngle,
        cmd.middle.bend.maxAngle, high cmd.middle.threshold, low cmd.middle.threshold,
        cmd.ring.bend.enable, cmd.ring.bend.vel],
    frame ⟨id, 0x40, 5, 4⟩ 8
      #v[cmd.ring.bend.startAngle, cmd.ring.bend.maxAngle, high cmd.ring.threshold,
        low cmd.ring.threshold, cmd.little.bend.enable, cmd.little.bend.vel,
        cmd.little.bend.startAngle, cmd.little.bend.maxAngle],
    frame ⟨id, 0x40, 5, 5⟩ 2
      #v[high cmd.little.threshold, low cmd.little.threshold, 0, 0, 0, 0, 0, 0],
    frame ⟨id, 0x4A, 1, 1⟩ 1 #v[1, 0, 0, 0, 0, 0, 0, 0]]

inductive HandCommand
  | setPos (cmd : FingerSetPositionCmd)
  | setEmergencyStop (cmd : FingerStopCmd)
  | setMotionCtrl (cmd : FingerMotionCtrlCmd)
  deriving DecidableEq

/-- What a command queues; an emergency stop asks for no status. `uninitQuery`
is for the `FrameId` of the query. -/
def HandCommand.frames (id : UInt16) (uninit uninitQuery : UInt32) :
    HandCommand → List DeviceMessage
  | .setPos cmd => setPosFrames id uninit cmd ++ [generateQueryStatus id uninitQuery]
  | .setEmergencyStop cmd => setEmergencyStopFrames id uninit cmd
  | .setMotionCtrl cmd => setMotionCtrlFrames id uninit cmd ++ [generateQueryStatus id uninitQuery]

-- ---------------------------------------------------------------------------
-- The device
-- ---------------------------------------------------------------------------

structure TsinghuaHandDevice where
  id : UInt16
  heap : Heap.Cells DeviceMessage
  cmdQueue : LockFreeQueue (List Nat)
  curReqFrames : List Nat

namespace TsinghuaHandDevice

def create (id : UInt16) : TsinghuaHandDevice := ⟨id, [], .new, []⟩

def issue (al : Heap.Allocator) (d : TsinghuaHandDevice) (frames : List DeviceMessage) :
    TsinghuaHandDevice :=
  let (ptrs, heap) := Heap.allocAll al d.heap frames
  { d with heap, cmdQueue := d.cmdQueue.push ptrs }

/-- The first half of `OnRequest`: no current frames are taken from the queue,
or made. -/
def refill (al : Heap.Allocator) (uninit : UInt32) (d : TsinghuaHandDevice) : TsinghuaHandDevice :=
  if d.curReqFrames.isEmpty then
    match d.cmdQueue.pop with
    | some (curReqFrames, cmdQueue) => { d with curReqFrames, cmdQueue }
    | none =>
      let (ptr, heap) := Heap.alloc al d.heap (generateQueryStatus d.id uninit)
      { d with heap, curReqFrames := d.curReqFrames ++ [ptr] }
  else d

/-- The second half: the frame written to the slot, none where the list is
empty. -/
def sendFirst (d : TsinghuaHandDevice) : TsinghuaHandDevice × Option DeviceMessage :=
  match d.curReqFrames with
  | [] => (d, none)
  | first :: _ =>
    ({ d with
        curReqFrames := d.curReqFrames.filter fun ptr => ptr != first
        heap := Heap.delete d.heap first },
      Heap.get d.heap first)

def onRequest (al : Heap.Allocator) (uninit : UInt32) (d : TsinghuaHandDevice) :
    TsinghuaHandDevice × Option DeviceMessage := (d.refill al uninit).sendFirst

/-- The status `OnResponse` hands to `funcOnStatus`; a frame of the touch sensors
is only logged. -/
def onResponse (d : TsinghuaHandDevice) (msg : DeviceMessage) : Option FingerStatusMessage :=
  let fid := FrameId.ofWord msg.id
  if msg.id ≠ 0 ∧ fid.id = d.id ∧ fid.cmd = 0xF1 then
    some {
      thumbRotation := (msg.data.get 0).toUInt32
      thumbBend := (msg.data.get 1).toUInt32
      foreBend := (msg.data.get 2).toUInt32
      middleBend := (msg.data.get 3).toUInt32
      ringBend := (msg.data.get 4).toUInt32
      littleBend := (msg.data.get 5).toUInt32 }
  else none

end TsinghuaHandDevice

inductive HandCall
  | command (cmd : HandCommand) (uninit uninitQuery : UInt32)
  | onRequest (uninit : UInt32)
  deriving DecidableEq

/-- A call queues a block or writes a frame to the slot. -/
def TsinghuaHandDevice.step (al : Heap.Allocator) :
    Mealy.Step TsinghuaHandDevice HandCall (Fifo.Io (List DeviceMessage) DeviceMessage) :=
  fun d e =>
    match e with
    | .command cmd uninit uninitQuery =>
      let frames := cmd.frames d.id uninit uninitQuery
      (d.issue al frames, [.put frames])
    | .onRequest uninit =>
      let (d, msg) := d.onRequest al uninit
      (d, msg.toList.map .get)

-- ---------------------------------------------------------------------------
-- What the pointers stand for
-- ---------------------------------------------------------------------------

/-- The pointers of the queue and of the current list are all different, and
stand for the frames that wait. -/
structure Represents (d : TsinghuaHandDevice) (waiting : List (List DeviceMessage))
    (current : List DeviceMessage) : Prop where
  nodup : (d.cmdQueue.toList.flatten ++ d.curReqFrames).Nodup
  queued : d.cmdQueue.toList.map (List.map (Heap.get d.heap)) = waiting.map (List.map some)
  listed : d.curReqFrames.map (Heap.get d.heap) = current.map some
  nonempty : ∀ block ∈ waiting, block ≠ []

variable {d : TsinghuaHandDevice} {frame : DeviceMessage}
  {frames block current : List DeviceMessage} {waiting : List (List DeviceMessage)} {ptr : Nat}

theorem create_represents (id : UInt16) : Represents (.create id) [] [] :=
  ⟨List.nodup_nil, rfl, rfl, fun _ h => absurd h List.not_mem_nil⟩

theorem mem_addrs_of_map {h : Heap.Cells DeviceMessage} {ptrs : List Nat}
    {frames : List DeviceMessage} (hmap : ptrs.map (Heap.get h) = frames.map some)
    (hp : ptr ∈ ptrs) : ptr ∈ Heap.addrs h := by
  have hmem : Heap.get h ptr ∈ frames.map some := hmap ▸ List.mem_map_of_mem hp
  obtain ⟨frame, -, hframe⟩ := List.mem_map.mp hmem
  exact Heap.mem_addrs_of_get hframe.symm

theorem Represents.live (h : Represents d waiting current)
    (hp : ptr ∈ d.cmdQueue.toList.flatten ++ d.curReqFrames) : ptr ∈ Heap.addrs d.heap := by
  rcases List.mem_append.mp hp with hp | hp
  · have hqueued : d.cmdQueue.toList.flatten.map (Heap.get d.heap) = waiting.flatten.map some := by
      rw [List.map_flatten, h.queued, ← List.map_flatten]
    exact mem_addrs_of_map hqueued hp
  · exact mem_addrs_of_map h.listed hp

theorem Represents.frames_congr {heap : Heap.Cells DeviceMessage} (h : Represents d waiting current)
    (hget : ∀ ptr ∈ d.cmdQueue.toList.flatten ++ d.curReqFrames,
      Heap.get heap ptr = Heap.get d.heap ptr) : Represents { d with heap } waiting current := by
  refine ⟨h.nodup, ?_, ?_, h.nonempty⟩
  · rw [← h.queued]
    refine List.map_congr_left fun ptrs hptrs => List.map_congr_left fun ptr hptr => ?_
    exact hget ptr (List.mem_append_left _ (List.mem_flatten.mpr ⟨ptrs, hptrs, hptr⟩))
  · rw [← h.listed]
    exact List.map_congr_left fun ptr hptr => hget ptr (List.mem_append_right _ hptr)

theorem Represents.issue (al : Heap.Allocator) (h : Represents d waiting current)
    (hne : frames ≠ []) :
    Represents (d.issue al frames) (waiting ++ [frames]) current := by
  obtain ⟨hnodup, hnew, -, hold, hvalues⟩ := Heap.allocAll_allocated al frames d.heap
  have hkeep := h.frames_congr fun ptr hp => (hold ptr (h.live hp)).2
  unfold TsinghuaHandDevice.issue
  refine ⟨?_, ?_, hkeep.listed, ?_⟩
  · simp only [LockFreeQueue.toList_push, List.flatten_append, List.flatten_singleton]
    rw [List.append_assoc]
    refine (List.perm_append_comm_assoc ..).nodup_iff.mpr ?_
    refine List.nodup_append.mpr ⟨hnodup, h.nodup, ?_⟩
    rintro ptr hp other ho rfl
    exact hnew ptr hp (h.live ho)
  · rw [LockFreeQueue.toList_push, List.map_append, List.map_append, hkeep.queued,
      List.map_singleton, List.map_singleton, hvalues]
  · intro block hb
    rcases List.mem_append.mp hb with hb | hb
    · exact h.nonempty block hb
    · rwa [List.mem_singleton.mp hb]

theorem Represents.list_eq_nil (h : Represents d waiting []) : d.curReqFrames = [] :=
  List.map_eq_nil_iff.mp h.listed

theorem Represents.refill_of_cons (al : Heap.Allocator) (uninit : UInt32)
    (h : Represents d waiting (frame :: current)) :
    d.refill al uninit = d := by
  have hne : d.curReqFrames.isEmpty = false := by
    cases hc : d.curReqFrames with
    | nil => exact absurd h.listed (by simp [hc])
    | cons => rfl
  rw [TsinghuaHandDevice.refill, hne, if_neg Bool.false_ne_true]

theorem Represents.refill_of_waiting (al : Heap.Allocator) (uninit : UInt32)
    (h : Represents d (block :: waiting) []) :
    Represents (d.refill al uninit) waiting block := by
  have hnil := h.list_eq_nil
  obtain ⟨hnodup, hqueued, -, hne⟩ := h
  cases hq : d.cmdQueue.toList with
  | nil => simp [hq] at hqueued
  | cons ptrs rest =>
    obtain ⟨q, hpop, hrest⟩ := LockFreeQueue.pop_of_cons hq
    rw [hq, List.map_cons, List.map_cons, List.cons.injEq] at hqueued
    have hrefill : d.refill al uninit = { d with curReqFrames := ptrs, cmdQueue := q } := by
      simp [TsinghuaHandDevice.refill, hnil, hpop]
    rw [hrefill]
    refine ⟨?_, by simpa only [hrest] using hqueued.2, hqueued.1,
      fun b hb => hne b (List.mem_cons_of_mem _ hb)⟩
    rw [hq, hnil, List.append_nil, List.flatten_cons] at hnodup
    simpa only [hrest] using List.perm_append_comm.nodup_iff.mp hnodup

theorem Represents.refill_of_idle (al : Heap.Allocator) (uninit : UInt32)
    (h : Represents d [] []) :
    Represents (d.refill al uninit) [] [generateQueryStatus d.id uninit] := by
  have hnil := h.list_eq_nil
  have hq : d.cmdQueue.toList = [] := List.map_eq_nil_iff.mp h.queued
  simp only [TsinghuaHandDevice.refill, hnil, LockFreeQueue.pop_of_nil hq, List.isEmpty_nil,
    if_true, List.nil_append]
  exact ⟨by simp [hq], by simp [hq], by simp, h.nonempty⟩

theorem Represents.sendFirst (h : Represents d waiting (frame :: current)) :
    ∃ d', d.sendFirst = (d', some frame) ∧ d'.id = d.id ∧ Represents d' waiting current := by
  cases hc : d.curReqFrames with
  | nil => exact absurd h.listed (by simp [hc])
  | cons first rest =>
    have hlisted := h.listed
    have hnodup := h.nodup
    rw [hc, List.map_cons, List.map_cons, List.cons.injEq] at hlisted
    rw [hc] at hnodup
    obtain ⟨hnot, hrest⟩ := List.nodup_cons.mp (List.perm_middle.nodup_iff.mp hnodup)
    have hremove : (first :: rest).filter (fun ptr => ptr != first) = rest := by
      have hne : ∀ ptr ∈ rest, (ptr != first) = true := fun ptr hp =>
        bne_iff_ne.mpr fun he => hnot (he ▸ List.mem_append_right _ hp)
      rw [List.filter_cons_of_neg (by simp), List.filter_eq_self.mpr hne]
    have hsend : d.sendFirst =
        ({ d with curReqFrames := rest, heap := Heap.delete d.heap first }, some frame) := by
      rw [TsinghuaHandDevice.sendFirst, hc]
      simp only [hremove, hlisted.1]
    have hwithout : Represents { d with curReqFrames := rest } waiting current :=
      ⟨hrest, h.queued, hlisted.2, h.nonempty⟩
    refine ⟨_, hsend, rfl, ?_⟩
    refine hwithout.frames_congr fun ptr hp => Heap.get_delete_ne fun he => ?_
    exact hnot (he ▸ hp)

-- ---------------------------------------------------------------------------
-- What the hand hears
-- ---------------------------------------------------------------------------

def IsQueryStatus (id : UInt16) (frame : DeviceMessage) : Prop :=
  ∃ uninit, frame = generateQueryStatus id uninit

theorem HandCommand.frames_ne_nil (cmd : HandCommand) (id : UInt16) (uninit uninitQuery : UInt32) :
    cmd.frames id uninit uninitQuery ≠ [] := by
  cases cmd <;> simp [frames, setPosFrames, setEmergencyStopFrames, setMotionCtrlFrames]

/-- One cycle: the frame that goes out, and what waits then. -/
theorem Represents.onRequest (al : Heap.Allocator) (h : Represents d waiting current)
    (uninit : UInt32) :
    ∃ d' frame waiting' current', d.onRequest al uninit = (d', some frame) ∧ d'.id = d.id ∧
      Represents d' waiting' current' ∧
      ∀ rest, Fifo.Serves (IsQueryStatus d.id) waiting' current' rest →
        Fifo.Serves (IsQueryStatus d.id) waiting current (.get frame :: rest) := by
  have hid : (d.refill al uninit).id = d.id := by
    unfold TsinghuaHandDevice.refill
    split
    · split <;> rfl
    · rfl
  unfold TsinghuaHandDevice.onRequest
  cases current with
  | cons frame current =>
    obtain ⟨d', hsend, hd, hr⟩ := h.sendFirst
    rw [h.refill_of_cons al uninit]
    exact ⟨d', frame, waiting, current, hsend, hd, hr, fun _ => .go⟩
  | nil =>
    cases waiting with
    | nil =>
      obtain ⟨d', hsend, hd, hr⟩ := (h.refill_of_idle al uninit).sendFirst
      exact ⟨d', _, [], [], hsend, hd.trans hid, hr, fun _ => .fill ⟨uninit, rfl⟩⟩
    | cons block waiting =>
      cases block with
      | nil => exact absurd rfl (h.nonempty [] List.mem_cons_self)
      | cons frame block =>
        obtain ⟨d', hsend, hd, hr⟩ := (h.refill_of_waiting al uninit).sendFirst
        exact ⟨d', frame, waiting, block, hsend, hd.trans hid, hr, fun _ => .next⟩

theorem Represents.serves (al : Heap.Allocator) (h : Represents d waiting current)
    (es : List HandCall) :
    Fifo.Serves (IsQueryStatus d.id) waiting current
      (Mealy.emitted (TsinghuaHandDevice.step al) d es) := by
  induction es generalizing d waiting current with
  | nil => exact .nil
  | cons e es ih =>
    cases e with
    | command cmd uninit uninitQuery =>
      have hserves := ih (h.issue al (cmd.frames_ne_nil d.id uninit uninitQuery))
      rw [Mealy.emitted_cons, TsinghuaHandDevice.step]
      exact .put hserves
    | onRequest uninit =>
      obtain ⟨d', frame, waiting', current', hreq, hid, hr, hserves⟩ :=
        h.onRequest al uninit
      rw [Mealy.emitted_cons, TsinghuaHandDevice.step, hreq]
      exact hserves _ (hid ▸ ih hr)

/-- The blocks of the commands, in the order of the calls. -/
def handBlocks (id : UInt16) : List HandCall → List (List DeviceMessage)
  | [] => []
  | .command cmd uninit uninitQuery :: es => cmd.frames id uninit uninitQuery :: handBlocks id es
  | .onRequest _ :: es => handBlocks id es

theorem Represents.puts_eq_handBlocks (al : Heap.Allocator) (h : Represents d waiting current)
    (es : List HandCall) :
    Fifo.puts (Mealy.emitted (TsinghuaHandDevice.step al) d es) = handBlocks d.id es := by
  induction es generalizing d waiting current with
  | nil => rfl
  | cons e es ih =>
    cases e with
    | command cmd uninit uninitQuery =>
      have hputs := ih (h.issue al (cmd.frames_ne_nil d.id uninit uninitQuery))
      rw [Mealy.emitted_cons, TsinghuaHandDevice.step]
      exact congrArg _ hputs
    | onRequest uninit =>
      obtain ⟨d', frame, waiting', current', hreq, hid, hr, -⟩ := h.onRequest al uninit
      rw [Mealy.emitted_cons, TsinghuaHandDevice.step, hreq]
      exact (ih hr).trans (by rw [hid]; rfl)

def HandCall.isOnRequest : HandCall → Bool
  | .onRequest _ => true
  | .command .. => false

/-- Every `OnRequest` hands over one frame. -/
theorem Represents.length_gets (al : Heap.Allocator) (h : Represents d waiting current)
    (es : List HandCall) :
    (Fifo.gets (Mealy.emitted (TsinghuaHandDevice.step al) d es)).length =
      es.countP HandCall.isOnRequest := by
  induction es generalizing d waiting current with
  | nil => rfl
  | cons e es ih =>
    cases e with
    | command cmd uninit uninitQuery =>
      have hgets := ih (h.issue al (cmd.frames_ne_nil d.id uninit uninitQuery))
      rw [Mealy.emitted_cons, TsinghuaHandDevice.step, List.countP_cons_of_neg (by simp [HandCall.isOnRequest])]
      exact hgets
    | onRequest uninit =>
      obtain ⟨d', frame, waiting', current', hreq, hid, hr, -⟩ := h.onRequest al uninit
      rw [Mealy.emitted_cons, TsinghuaHandDevice.step, hreq, List.countP_cons_of_pos rfl, ← ih hr]
      rfl

theorem HandCommand.ends_with_query (cmd : HandCommand) (id : UInt16) (uninit uninitQuery : UInt32)
    (h : ∀ stop, cmd ≠ .setEmergencyStop stop) :
    ∃ frame ∈ (cmd.frames id uninit uninitQuery).getLast?, IsQueryStatus id frame := by
  cases cmd with
  | setPos cmd => exact ⟨_, List.getLast?_concat .., uninitQuery, rfl⟩
  | setEmergencyStop stop => exact absurd rfl (h stop)
  | setMotionCtrl cmd => exact ⟨_, List.getLast?_concat .., uninitQuery, rfl⟩

/-- The hand hears one frame with every `OnRequest`: the blocks of the commands one
after the other, whole and in order, with a query of the status wherever no command
waits, and at the end of every command that sets something. -/
theorem hand_serves (al : Heap.Allocator) (id : UInt16) (es : List HandCall) :
    let trace := Mealy.emitted (TsinghuaHandDevice.step al) (.create id) es
    Fifo.Serves (IsQueryStatus id) [] [] trace ∧ Fifo.puts trace = handBlocks id es ∧
      (Fifo.gets trace).length = es.countP HandCall.isOnRequest ∧
      (∃ segments left unsent, Fifo.gets trace ++ left = segments.flatMap Fifo.Segment.values ∧
        handBlocks id es = segments.filterMap Fifo.Segment.block? ++ unsent ∧
        (∀ frame, Fifo.Segment.fill frame ∈ segments → IsQueryStatus id frame) ∧
        (left = [] ∨ Fifo.CutShort segments left)) ∧
      ∀ (cmd : HandCommand) (uninit uninitQuery : UInt32),
        (∀ stop, cmd ≠ .setEmergencyStop stop) →
        ∃ frame ∈ (cmd.frames id uninit uninitQuery).getLast?, IsQueryStatus id frame := by
  intro trace
  have hserves := (create_represents id).serves al es
  have hputs := (create_represents id).puts_eq_handBlocks al es
  refine ⟨hserves, hputs, (create_represents id).length_gets al es, ?_,
    fun cmd u q h => cmd.ends_with_query id u q h⟩
  obtain ⟨segments, left, unsent, hgets, hblocks, hfill, hend⟩ := hserves.segments
  exact ⟨segments, left, unsent, hgets, hputs ▸ hblocks, hfill, hend⟩

end TienKung
