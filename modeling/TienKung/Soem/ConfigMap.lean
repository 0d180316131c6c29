import TienKung.Lib.Cells
import TienKung.Lib.Packing
import Mathlib.Data.List.FinRange

/-!
# The process image

`ecx_config_map_group` gives every slave its place in the process image: first
the outputs of all slaves, then the inputs. A slave with less than eight bits
goes where the last one ends, any other one to the next whole byte. FMMUs tell
the slave where its sync managers are found, and the segments say how much of
the image one frame carries.

This is group 0, the group of all slaves, whose logical addresses start at 0:
they are offsets into the image. A slave has four FMMUs (`EC_MAXFMMU`), and
nothing checks that its mappings take no more; here they are a list.
-/

namespace TienKung

-- ---------------------------------------------------------------------------
-- Slaves
-- ---------------------------------------------------------------------------

abbrev ecMaxSm : Nat := 8
abbrev ecMaxIoSegments : Nat := 64
abbrev ecMaxLrwData : Nat := 1518 - 14 - 2 - 10 - 2 - 4
abbrev ecFirstDcDatagram : Nat := 20

structure SyncManager where
  startAddr : UInt16
  smLength : UInt16
  smType : UInt8
  deriving DecidableEq

structure Fmmu where
  logStart : Nat
  logLength : Nat
  logStartbit : Nat
  logEndbit : Nat
  physStart : UInt16
  deriving DecidableEq

/-- What is known of a slave once its mappings have been found. -/
structure SlaveIo where
  obits : UInt16
  ibits : UInt16
  sm : Vector SyncManager ecMaxSm
  blockLRW : Bool
  deriving DecidableEq

/-- `Obytes` or `Ibytes`, which are 0 below eight bits. -/
def byteCountOf (bits : Nat) : Nat := if bits > 7 then (bits + 7) / 8 else 0

/-- Outputs or inputs: what the two mappings differ in. -/
inductive Direction
  | output | input
  deriving DecidableEq

def Direction.smType : Direction → UInt8
  | .output => 3
  | .input => 4

def SlaveIo.bits (s : SlaveIo) : Direction → Nat
  | .output => s.obits.toNat
  | .input => s.ibits.toNat

-- ---------------------------------------------------------------------------
-- The mapping of one slave
-- ---------------------------------------------------------------------------

structure LogPos where
  logAddr : Nat
  bitPos : Nat
  deriving DecidableEq

def LogPos.carry (p : LogPos) : LogPos :=
  if p.bitPos > 7 then ⟨p.logAddr + 1, p.bitPos - 8⟩ else p

/-- The next sync manager of the type from `smc` on, or else the last one of all. -/
def nextSm (sm : Vector SyncManager ecMaxSm) (smType : UInt8) (smc : Fin ecMaxSm) : Fin ecMaxSm :=
  ((List.finRange ecMaxSm).find? fun i => smc ≤ i ∧ i < 7 ∧ (sm.get i).smType = smType).getD 7

/-- The sync managers gathered for an FMMU. `BitCount` is always eight times `byteCount`. -/
structure Gathered where
  smc : Fin ecMaxSm
  byteCount : Nat
  endAddr : UInt16
  deriving DecidableEq

def gather (sm : Vector SyncManager ecMaxSm) (smc : Fin ecMaxSm) (byteCount : Nat) : Gathered where
  smc := smc
  byteCount := byteCount + (sm.get smc).smLength.toNat
  endAddr := (sm.get smc).startAddr + (sm.get smc).smLength

/-- More sync managers, as long as one starts where the last one ended or before. `SMc` rises with
each, so that `left` may be `ecMaxSm`. -/
def gatherMore (sm : Vector SyncManager ecMaxSm) (smType : UInt8) (bits : Nat) :
    (left : Nat) → Gathered → Gathered
  | 0, g => g
  | left + 1, g =>
    if g.byteCount * 8 < bits ∧ g.smc < 7 then
      let smc := nextSm sm smType (g.smc + 1)
      if (sm.get smc).startAddr > g.endAddr then { g with smc }
      else gatherMore sm smType bits left (gather sm smc g.byteCount)
    else g

/-- A bit oriented slave goes on where the last one ended. -/
def mapBits (bits : Nat) (physStart : UInt16) (p : LogPos) : Fmmu × LogPos :=
  let last := (LogPos.mk p.logAddr (p.bitPos + (bits - 1))).carry
  (⟨p.logAddr, last.logAddr - p.logAddr + 1, p.bitPos, last.bitPos, physStart⟩,
    (LogPos.mk last.logAddr (last.bitPos + 1)).carry)

/-- A byte oriented slave starts with a byte of its own. -/
def mapBytes (size : Nat) (physStart : UInt16) (p : LogPos) : Fmmu × LogPos :=
  let start := if p.bitPos ≠ 0 then p.logAddr + 1 else p.logAddr
  (⟨start, size, 0, 7, physStart⟩, ⟨start + size, 0⟩)

structure Mapping where
  smc : Fin ecMaxSm
  byteCount : Nat
  fmmuDone : Nat
  pos : LogPos
  fmmus : List Fmmu
  deriving DecidableEq

def Mapping.start (p : LogPos) : Mapping := ⟨0, 0, 0, p, []⟩

def Mapping.fmmu (m : Mapping) (sm : Vector SyncManager ecMaxSm) (smType : UInt8) (bits : Nat) :
    Mapping :=
  let smc := nextSm sm smType m.smc
  let g := gatherMore sm smType bits ecMaxSm (gather sm smc m.byteCount)
  let (fmmu, pos) :=
    if byteCountOf bits = 0 then mapBits bits (sm.get smc).startAddr m.pos
    else
      let size := if g.byteCount + m.fmmuDone > byteCountOf bits then byteCountOf bits - m.fmmuDone
        else g.byteCount
      mapBytes size (sm.get smc).startAddr m.pos
  ⟨g.smc, g.byteCount, m.fmmuDone + fmmu.logLength, pos, m.fmmus ++ [fmmu]⟩

/-- `ecx_config_create_output_mappings` and `ecx_config_create_input_mappings`. A pass that leaves
`SMc` as it is has mapped everything, so that `left` may be `ecMaxSm`. -/
def createMappings (sm : Vector SyncManager ecMaxSm) (smType : UInt8) (bits : Nat) :
    (left : Nat) → Mapping → Mapping
  | 0, m => m
  | left + 1, m =>
    if m.smc < 7 ∧ m.fmmuDone < (bits + 7) / 8 then
      createMappings sm smType bits left (m.fmmu sm smType bits)
    else m

def SlaveIo.createMappings (s : SlaveIo) (dir : Direction) (p : LogPos) : Mapping :=
  TienKung.createMappings s.sm dir.smType (s.bits dir) ecMaxSm (.start p)

-- ---------------------------------------------------------------------------
-- The mapping of the group
-- ---------------------------------------------------------------------------

abbrev segmentLimit : Nat := ecMaxLrwData - ecFirstDcDatagram

/-- The segments in `IOsegment` below `currentsegment`, with `segmentsize`. -/
abbrev Segments := Packing.Bins

def addSegment (s : Segments) (diff : Nat) : Segments :=
  s.add segmentLimit (ecMaxIoSegments - 1) diff

structure GroupMapping where
  pos : LogPos
  oLogAddr : Nat
  segments : Segments
  fmmus : List (List Fmmu)
  deriving DecidableEq

def GroupMapping.start : GroupMapping := ⟨⟨0, 0⟩, 0, .empty, []⟩

def GroupMapping.slave (dir : Direction) (g : GroupMapping) (s : SlaveIo) : GroupMapping :=
  if s.bits dir ≠ 0 then
    let m := s.createMappings dir g.pos
    ⟨m.pos, m.pos.logAddr, addSegment g.segments (m.pos.logAddr - g.oLogAddr),
      g.fmmus ++ [m.fmmus]⟩
  else { g with fmmus := g.fmmus ++ [[]] }

/-- After the last slave of a direction a byte that has been begun is filled up. -/
def GroupMapping.close (g : GroupMapping) : GroupMapping :=
  if g.pos.bitPos ≠ 0 then
    { g with
      pos := ⟨g.pos.logAddr + 1, 0⟩, oLogAddr := g.pos.logAddr + 1
      segments := addSegment g.segments 1 }
  else g

structure EcGroup where
  oBytes : Nat
  iBytes : Nat
  blockLRW : Bool
  iSegment : Nat
  iOffset : Nat
  /-- `IOsegment` below `nsegments` -/
  ioSegment : List Nat
  outputsWKC : Nat
  inputsWKC : Nat
  deriving DecidableEq

def mapOutputs (slaves : List SlaveIo) : GroupMapping :=
  (slaves.foldl (GroupMapping.slave .output) .start).close

def mapInputs (slaves : List SlaveIo) : GroupMapping :=
  (slaves.foldl (GroupMapping.slave .input) { mapOutputs slaves with fmmus := [] }).close

def configMapGroup (slaves : List SlaveIo) : EcGroup where
  oBytes := (mapOutputs slaves).pos.logAddr
  iBytes := (mapInputs slaves).pos.logAddr - (mapOutputs slaves).pos.logAddr
  blockLRW := slaves.any SlaveIo.blockLRW
  iSegment := (mapOutputs slaves).segments.closed.length
  iOffset := (mapOutputs slaves).segments.size
  ioSegment := (mapInputs slaves).segments.all
  outputsWKC := (mapOutputs slaves).fmmus.flatten.length
  inputsWKC := (mapInputs slaves).fmmus.flatten.countP (·.logLength ≠ 0)

/-- The slave's `outputs` and `Ostartbit`, or `inputs` and `Istartbit`: where its first FMMU
starts. -/
def startOf (g : GroupMapping) (i : Nat) : Option LogPos := do
  let fmmu ← (← g.fmmus[i]?).head?
  return ⟨fmmu.logStart, fmmu.logStartbit⟩

end TienKung
