import TienKung.Soem.Cycles
import TienKung.Soem.Exchange
import TienKung.Soem.MessageBytes

/-!
# Messages on the wire

`SoemMaster::Run` as the process image has it: the messages of the requests are
put where the slaves' outputs are, the frames go round the ring, and the messages
of the responses are what is then found where the inputs are.

Frames may be lost, and what they would have brought stays as it was. So the
master runs as it does with messages alone, where each slave's message is the
last one that has come: what holds of `run` whatever is read back holds here too.
From a slave that takes no part an LRW datagram brings back what was sent to it,
and an LRD datagram zeros.
-/

namespace TienKung

-- ---------------------------------------------------------------------------
-- Cycles
-- ---------------------------------------------------------------------------

/-- Where the message of a slave is: `ec_slave[i + 1].outputs` or `inputs`. -/
def messageAt (slaves : List SlaveIo) (dir : Direction) (i : Nat) : Option Nat :=
  (startOf (mapDirection slaves dir) i).map LogPos.logAddr

def getFrame (slaves : List SlaveIo) (dir : Direction) (iomap : IoMap) (i : Nat) : SlaveMessage :=
  (messageAt slaves dir i).elim .zero fun a => .ofMemory iomap a

def putFrame (slaves : List SlaveIo) (iomap : IoMap) : BusEvent → IoMap
  | .write slave frame => (messageAt slaves .output slave).elim iomap fun a =>
      Memory.write iomap a frame.bytes
  | _ => iomap

structure Lap where
  ring : List RingSlave
  fates : List Fate

structure Wire (σ : Type) where
  bus : Bus σ
  iomap : IoMap
  taken : Nat → IoMap

section
variable {σ : Type}

/-- One pass of `Run`. -/
def wireCycle (code : DeviceCode σ) (slaves : List SlaveIo) (g : EcGroup) (hasdc : Bool)
    (lap : Lap) (w : Wire σ) : Except OutOfBounds (Wire σ) := do
  let b ← getRequestFromDevices code slaves.length { w.bus with log := [] }
  let image := b.log.foldl (putFrame slaves) w.iomap
  let e := exchange g hasdc lap.ring lap.fates image w.taken
  let b ← sendResponseToDevices code slaves.length (getFrame slaves .input e.iomap) b
  return ⟨b, e.iomap, e.taken⟩

def wireRun (code : DeviceCode σ) (slaves : List SlaveIo) (g : EcGroup) (hasdc : Bool)
    (w : Wire σ) : List Lap → Except OutOfBounds (List (List BusEvent) × Wire σ)
  | [] => return ([], w)
  | lap :: laps => do
    let w ← wireCycle code slaves g hasdc lap w
    let (logs, last) ← wireRun code slaves g hasdc w laps
    return (w.bus.log :: logs, last)

end

-- ---------------------------------------------------------------------------
-- What is held
-- ---------------------------------------------------------------------------

/-- The frame with a slave's message has passed the slave, or come back. -/
def Lap.came (lap : Lap) (g : EcGroup) (slaves : List SlaveIo) (dir : Direction) (i : Nat) : Bool :=
  (messageAt slaves dir i).any fun a =>
    (lap.fates[frameOf g dir a (a + 86)]?).any fun f =>
      match dir with
      | .output => f.reaches i
      | .input => f.arrives

def Lap.present (lap : Lap) (i : Nat) : Bool := (lap.ring[i]?).any (·.present)

/-- What comes back from a slave, when `last` was read back from it before. -/
def Lap.answer (lap : Lap) (g : EcGroup) (last : SlaveMessage) (i : Nat) : SlaveMessage :=
  if lap.present i then (lap.ring[i]?).elim .zero fun r => .ofMemory r.answer r.inputs.1
  else if g.blockLRW then .zero else last

/-- The answers read back in a cycle, when those of the last one were `last`. -/
def Lap.inputs (lap : Lap) (g : EcGroup) (slaves : List SlaveIo) (last : Nat → SlaveMessage) :
    Nat → SlaveMessage :=
  fun i => if lap.came g slaves .input i then lap.answer g (last i) i else last i

/-- The messages read back: for each slave what has come back last. -/
def heldInputs (g : EcGroup) (slaves : List SlaveIo) (last : Nat → SlaveMessage) :
    List Lap → List (Nat → SlaveMessage)
  | [] => []
  | lap :: laps =>
    let now := lap.inputs g slaves last
    now :: heldInputs g slaves now laps

structure Sent where
  written : Nat → SlaveMessage
  taken : Nat → SlaveMessage

def Sent.next (g : EcGroup) (slaves : List SlaveIo) (s : Sent) (cycle : Lap × List BusEvent) :
    Sent :=
  let written := fun i => (writesTo i cycle.2).getLast?.getD (s.written i)
  ⟨written, fun i =>
    if cycle.1.present i ∧ cycle.1.came g slaves .output i then written i else s.taken i⟩

def Wire.sent {σ : Type} (w : Wire σ) (slaves : List SlaveIo) : Sent :=
  ⟨getFrame slaves .output w.iomap, fun i => getFrame slaves .output (w.taken i) i⟩

-- ---------------------------------------------------------------------------
-- Places
-- ---------------------------------------------------------------------------

/-- Every slave has a message each way. -/
structure Messages (slaves : List SlaveIo) : Prop where
  covers : ∀ s ∈ slaves, ∀ dir, s.Covers dir
  bits : ∀ s ∈ slaves, ∀ dir, s.bits dir = 688
  room : (configMapGroup slaves).ioSegment.length < ecMaxIoSegments

section
variable {slaves : List SlaveIo} {dir : Direction} {i j a b : Nat}

theorem lt_of_messageAt (h : messageAt slaves dir i = some a) : i < slaves.length := by
  obtain ⟨pos, hpos, -⟩ := Option.map_eq_some_iff.mp h
  obtain ⟨fmmus, hfmmus, -⟩ := Option.bind_eq_some_iff.mp hpos
  rw [← length_mapDirection slaves dir]
  exact (List.getElem?_eq_some_iff.mp hfmmus).1

/-- A slave's message is where it has been mapped, and in one datagram. -/
theorem Messages.place (h : Messages slaves) (dir : Direction) (hi : i < slaves.length) :
    ∃ a, messageAt slaves dir i = some a ∧
      (∃ place, (layout slaves dir)[i]? = some place ∧ place.1 / 8 = a ∧ place.2 / 8 = a + 86) ∧
      ∀ blockLRW iomap, CarriedOnce dir
        (sendProcessdata ((configMapGroup slaves).block blockLRW) iomap) a (a + 86) := by
  obtain ⟨s, hs⟩ : ∃ s, slaves[i]? = some s := ⟨_, List.getElem?_eq_getElem hi⟩
  have hbits := h.bits s (List.mem_of_getElem? hs) dir
  have hmany : s.bits dir > 7 := by omega
  obtain ⟨place, hplace, fmmus, hfmmus, hplaced, -⟩ :=
    slave_placed dir h.covers h.room hs (by omega)
  obtain ⟨fmmu, hfmmu, -⟩ := hplaced.first
  have hstart : fmmu.logStart = place.1 / 8 := by
    have htiles := (hplaced.tiles hmany).1
    cases fmmus with
    | nil => simp at hfmmu
    | cons first rest =>
      obtain rfl := Option.some.inj hfmmu
      exact congrArg Prod.fst (List.cons.inj htiles).1
  obtain ⟨p, hget⟩ := layout_get dir hs
  obtain rfl := Option.some.inj ((Option.mem_def.mp hplace).symm.trans hget)
  have hend : placeEnd (s.bits dir) p / 8 = placeStart (s.bits dir) p / 8 + 86 := by
    have := (bytes_of_place p hmany).1
    omega
  refine ⟨_, ?_, ⟨_, hplace, rfl, hend⟩, fun blockLRW iomap => ?_⟩
  · rw [messageAt, startOf, Option.mem_def.mp hfmmus, Option.bind_eq_bind, Option.bind_some,
      Option.mem_def.mp hfmmu, Option.bind_eq_bind, Option.bind_some, ← hstart]
    rfl
  · obtain ⟨place', hplace', -, honce⟩ := slave_once h.covers h.room blockLRW iomap hs hmany
    obtain rfl := Option.some.inj ((Option.mem_def.mp hplace).symm.trans hplace')
    rwa [hend] at honce

theorem Messages.mapped (h : Messages slaves) (ha : messageAt slaves dir i = some a) :
    ∃ place, (layout slaves dir)[i]? = some place ∧ place.1 / 8 = a ∧ place.2 / 8 = a + 86 := by
  obtain ⟨a', ha', hplace, -⟩ := h.place dir (lt_of_messageAt ha)
  obtain rfl := Option.some.inj (ha.symm.trans ha')
  exact hplace

theorem Messages.outputs_apart (h : Messages slaves) (hi : messageAt slaves .output i = some a)
    (hj : messageAt slaves .output j = some b) (hne : i ≠ j) : a + 86 ≤ b ∨ b + 86 ≤ a := by
  obtain ⟨p, hp, hstart, hstop⟩ := h.mapped hi
  obtain ⟨q, hq, hstart', hstop'⟩ := h.mapped hj
  obtain ⟨hlt, rfl⟩ := List.getElem?_eq_some_iff.mp hp
  obtain ⟨hlt', rfl⟩ := List.getElem?_eq_some_iff.mp hq
  have hpairs := List.pairwise_iff_getElem.mp
    (show (layout slaves .output).Pairwise fun a b => a.2 ≤ b.1 from pairwise_places)
  rcases Nat.lt_or_gt_of_ne hne with hij | hji
  · have := hpairs i j hlt hlt' hij
    omega
  · have := hpairs j i hlt' hlt hji
    omega

theorem Messages.inputs_apart (h : Messages slaves) (hi : messageAt slaves .output i = some a)
    (hj : messageAt slaves .input j = some b) : a + 86 ≤ b := by
  obtain ⟨p, hp, hstart, hstop⟩ := h.mapped hi
  obtain ⟨q, hq, hstart', hstop'⟩ := h.mapped hj
  have hout := outputs_within h.covers p (List.mem_of_getElem? hp)
  have hin := (inputs_within h.covers q (List.mem_of_getElem? hq)).1
  omega

-- ---------------------------------------------------------------------------
-- The messages of an image
-- ---------------------------------------------------------------------------

theorem ofMemory_write_of_apart {m : IoMap} {frame : SlaveMessage}
    (h : a + 86 ≤ b ∨ b + 86 ≤ a) :
    SlaveMessage.ofMemory (Memory.write m a frame.bytes) b = .ofMemory m b := by
  refine SlaveMessage.ofMemory_congr (Memory.read_congr fun x hx => ?_)
  refine Memory.write_of_not_within fun hw => ?_
  obtain ⟨hx, hx'⟩ := hx
  obtain ⟨hw, hw'⟩ := hw
  rw [SlaveMessage.length_bytes] at hw'
  omega

theorem Messages.getFrame_input (h : Messages slaves) (log : List BusEvent) (m : IoMap) (i : Nat) :
    getFrame slaves .input (log.foldl (putFrame slaves) m) i = getFrame slaves .input m i := by
  induction log generalizing m with
  | nil => rfl
  | cons e log ih =>
    rw [List.foldl_cons, ih]
    cases e with
    | request _ => rfl
    | response _ => rfl
    | write slave frame =>
      rw [putFrame]
      cases ha : messageAt slaves .output slave with
      | none => rfl
      | some a =>
        rw [getFrame, getFrame]
        cases hb : messageAt slaves .input i with
        | none => rfl
        | some b => exact ofMemory_write_of_apart (.inl (h.inputs_apart ha hb))

theorem Messages.getFrame_put (h : Messages slaves) (hi : i < slaves.length) (m : IoMap)
    (slave : Nat) (frame : SlaveMessage) :
    getFrame slaves .output (putFrame slaves m (.write slave frame)) i =
      if slave = i then frame else getFrame slaves .output m i := by
  obtain ⟨a, ha, -⟩ := h.place .output hi
  rw [putFrame]
  split_ifs with heq
  · subst heq
    rw [ha, getFrame, ha]
    exact SlaveMessage.ofMemory_write m a frame
  · cases hb : messageAt slaves .output slave with
    | none => rfl
    | some b =>
      rw [getFrame, getFrame, ha]
      exact ofMemory_write_of_apart (h.outputs_apart hb ha heq)

theorem Messages.getFrame_output (h : Messages slaves) (hi : i < slaves.length)
    (log : List BusEvent) (m : IoMap) :
    getFrame slaves .output (log.foldl (putFrame slaves) m) i =
      (writesTo i log).getLast?.getD (getFrame slaves .output m i) := by
  induction log using List.reverseRecOn with
  | nil => rfl
  | append_singleton log e ih =>
    rw [List.foldl_append, List.foldl_cons, List.foldl_nil, writesTo, List.filterMap_append,
      List.getLast?_append]
    cases e with
    | request _ => exact ih
    | response _ => exact ih
    | write slave frame =>
      rw [h.getFrame_put hi, ih]
      by_cases heq : slave = i
      · simp [heq]
      · simp [heq, writesTo]

end

-- ---------------------------------------------------------------------------
-- One cycle
-- ---------------------------------------------------------------------------

/-- The ring of a cycle, and with distributed clocks its first frame, which comes back if any. -/
structure Lap.Of (lap : Lap) (slaves : List SlaveIo) (hasdc : Bool) : Prop where
  ring : RingOf slaves lap.ring
  first : hasdc = true →
    (∀ f ∈ lap.fates.head?, f.arrives) ∨ ∀ f ∈ lap.fates, f.arrives = false

section
variable {slaves : List SlaveIo} {hasdc blockLRW : Bool} {lap : Lap}

/-- Where a message is on the ring, and which frame has it. -/
theorem Messages.framed (h : Messages slaves) (hlap : lap.Of slaves hasdc) (blockLRW : Bool)
    (dir : Direction) (iomap : IoMap) {i : Nat} (hi : i < slaves.length) :
    ∃ a r, messageAt slaves dir i = some a ∧ lap.ring[i]? = some r ∧ r.area dir = (a, a + 86) ∧
      FramedOnce dir
        ((sendProcessdata ((configMapGroup slaves).block blockLRW) iomap).zip lap.fates)
        (r.area dir)
        lap.fates[frameOf ((configMapGroup slaves).block blockLRW) dir a (a + 86)]? := by
  obtain ⟨a, ha, ⟨place, hplace, hstart, hstop⟩, honce⟩ := h.place dir hi
  obtain ⟨r, hr⟩ : ∃ r, lap.ring[i]? = some r :=
    ⟨_, List.getElem?_eq_getElem (hlap.ring.length_eq.symm ▸ hi)⟩
  have harea := hlap.ring.area_eq hplace hr
  rw [hstart, hstop] at harea
  refine ⟨a, r, ha, hr, harea, ?_⟩
  rw [harea, frameOf_eq _ _ _ _ iomap]
  exact ((honce blockLRW iomap).framed (by omega) lap.fates).2

theorem messageAt_of_le {dir : Direction} {i : Nat} (hi : slaves.length ≤ i) :
    messageAt slaves dir i = none :=
  Option.eq_none_iff_forall_ne_some.mpr fun _ h => (lt_of_messageAt h).not_ge hi

theorem Messages.getFrame_taken (h : Messages slaves) (hlap : lap.Of slaves hasdc)
    (blockLRW : Bool) (iomap : IoMap) (taken : Nat → IoMap) {i : Nat} (hi : i < slaves.length) :
    let g := (configMapGroup slaves).block blockLRW
    getFrame slaves .output ((exchange g hasdc lap.ring lap.fates iomap taken).taken i) i =
      if lap.present i ∧ lap.came g slaves .output i then getFrame slaves .output iomap i
      else getFrame slaves .output (taken i) i := by
  intro g
  obtain ⟨a, r, ha, hr, harea, hframed⟩ := h.framed hlap blockLRW .output iomap hi
  have hread := taken_framed h.covers hlap.ring hr hasdc taken hframed
  simp only [show r.outputs = (a, a + 86) from harea, readArea, Nat.add_sub_cancel_left] at hread
  have hcame : lap.present i ∧ lap.came g slaves .output i ↔
      r.present ∧ (lap.fates[frameOf g .output a (a + 86)]?).any (·.reaches i) := by
    simp [Lap.came, Lap.present, hr, ha]
  rw [getFrame, getFrame, getFrame, ha, Option.elim_some, Option.elim_some, Option.elim_some,
    SlaveMessage.ofMemory_congr hread, apply_ite (SlaveMessage.ofMemory · a)]
  exact if_congr hcame.symm rfl rfl

theorem ofMemory_brought {g : EcGroup} {r : RingSlave} {a i : Nat} (hr : lap.ring[i]? = some r)
    (ha : r.inputs.1 = a) (iomap : IoMap) :
    SlaveMessage.ofMemory (brought g iomap r) a = lap.answer g (.ofMemory iomap a) i := by
  rw [Lap.answer, Lap.present, brought, EcGroup.placeholder, hr, Option.any_some, Option.elim_some,
    ha, apply_ite (SlaveMessage.ofMemory · a), apply_ite (SlaveMessage.ofMemory · a),
    SlaveMessage.ofMemory_zero]

theorem Messages.getFrame_image (h : Messages slaves) (hlap : lap.Of slaves hasdc)
    (hframes : ∀ iomap, (sendProcessdata ((configMapGroup slaves).block blockLRW) iomap).length ≤
      Nic.ecMaxbuf) (iomap : IoMap) (taken : Nat → IoMap) (i : Nat) :
    let g := (configMapGroup slaves).block blockLRW
    getFrame slaves .input (exchange g hasdc lap.ring lap.fates iomap taken).iomap i =
      if lap.came g slaves .input i then lap.answer g (getFrame slaves .input iomap i) i
      else getFrame slaves .input iomap i := by
  intro g
  rcases Nat.lt_or_ge i slaves.length with hi | hi
  · obtain ⟨a, r, ha, hr, harea, hframed⟩ := h.framed hlap blockLRW .input iomap hi
    have hread := image_framed hlap.ring hr (hframes iomap)
      (fun hdc => firstArrives_zip (hlap.first hdc) _) taken hframed
    have harea' : r.inputs = (a, a + 86) := harea
    simp only [harea', readArea, Nat.add_sub_cancel_left] at hread
    have hcame : lap.came g slaves .input i ↔
        (lap.fates[frameOf g .input a (a + 86)]?).any (·.arrives) := by
      simp [Lap.came, ha]
    rw [getFrame, getFrame, ha, Option.elim_some, Option.elim_some,
      SlaveMessage.ofMemory_congr hread, apply_ite (SlaveMessage.ofMemory · a),
      ofMemory_brought hr (congrArg Prod.fst harea') iomap]
    exact if_congr hcame.symm rfl rfl
  · have hnone : messageAt slaves .input i = none := messageAt_of_le hi
    have hnever : lap.came g slaves .input i = false := by simp [Lap.came, hnone]
    rw [hnever, getFrame, getFrame, hnone]
    rfl

end

-- ---------------------------------------------------------------------------
-- The passes of the loop
-- ---------------------------------------------------------------------------

section
variable {σ : Type} {code : DeviceCode σ} {inputs : Nat → SlaveMessage} {b b' : Bus σ}
  {log : List BusEvent}

def OnlyResponses (log : List BusEvent) (b : Bus σ) : Prop :=
  ∃ rds : List RegisteredDevice, b.log = log ++ rds.map .response

theorem onlyResponses_visit {rd : RegisteredDevice} (h : OnlyResponses log b)
    (hok : visit (response code) b rd = .ok b') : OnlyResponses log b' := by
  obtain ⟨serves, -, hok⟩ := Checked.bind_eq_ok.mp hok
  cases serves with
  | false =>
    cases hok
    exact h
  | true =>
    obtain ⟨slave, -, hok⟩ := Checked.bind_eq_ok.mp hok
    obtain ⟨slot, -, hok⟩ := Checked.bind_eq_ok.mp hok
    cases hok
    obtain ⟨rds, hrds⟩ := h
    exact ⟨rds ++ [rd], by simp [hrds]⟩

theorem onlyResponses_toggle {slave : Nat} (h : OnlyResponses log b)
    (hok : toggle b slave = .ok b') : OnlyResponses log b' := by
  obtain ⟨mode, -, hok⟩ := Checked.bind_eq_ok.mp hok
  split_ifs at hok
  · obtain ⟨cur, -, hok⟩ := Checked.bind_eq_ok.mp hok
    cases hok
    exact h
  · cases hok
    exact h

theorem onlyResponses_sendResponse {count : Nat}
    (hok : sendResponseToDevices code count inputs b = .ok b') : OnlyResponses b.log b' := by
  obtain ⟨b1, hread, hok⟩ := Checked.bind_eq_ok.mp hok
  obtain ⟨b2, hrespond, htoggle⟩ := Checked.bind_eq_ok.mp hok
  have h1 : OnlyResponses b.log b1 := by
    refine Checked.foldlM_of_ok _ _ (fun _ => OnlyResponses b.log) ⟨[], by simp⟩ ?_ hread
    intro _ slave c c' _ hc hstep
    obtain ⟨i, -, hstep⟩ := Checked.bind_eq_ok.mp hstep
    cases hstep
    exact hc
  have h2 : OnlyResponses b.log b2 :=
    Checked.foldlM_of_ok _ _ (fun _ => OnlyResponses b.log) h1
      (fun _ _ _ _ _ hc hstep => onlyResponses_visit hc hstep) hrespond
  exact Checked.foldlM_of_ok _ _ (fun _ => OnlyResponses b.log) h2
    (fun _ _ _ _ _ hc hstep => onlyResponses_toggle hc hstep) htoggle

theorem OnlyResponses.writesTo (h : OnlyResponses log b) (i : Nat) :
    TienKung.writesTo i b.log = TienKung.writesTo i log := by
  obtain ⟨rds, hrds⟩ := h
  rw [hrds, TienKung.writesTo, List.filterMap_append, List.filterMap_map]
  simp [TienKung.writesTo]

end

section
variable {σ : Type} {code : DeviceCode σ} {slaves : List SlaveIo} {hasdc blockLRW : Bool}
  {lap : Lap} {w w' : Wire σ} {g : EcGroup}

structure Cycled (g : EcGroup) (slaves : List SlaveIo) (lap : Lap) (w w' : Wire σ) : Prop where
  inputs : getFrame slaves .input w'.iomap = lap.inputs g slaves (getFrame slaves .input w.iomap)
  written : ∀ i < slaves.length, getFrame slaves .output w'.iomap i =
    (writesTo i w'.bus.log).getLast?.getD (getFrame slaves .output w.iomap i)
  taken : ∀ i < slaves.length, getFrame slaves .output (w'.taken i) i =
    if lap.present i ∧ lap.came g slaves .output i then getFrame slaves .output w'.iomap i
    else getFrame slaves .output (w.taken i) i

theorem Messages.getFrame_kept (h : Messages slaves) (hlap : lap.Of slaves hasdc)
    (hframes : ∀ iomap, (sendProcessdata ((configMapGroup slaves).block blockLRW) iomap).length ≤
      Nic.ecMaxbuf) (iomap : IoMap) (taken : Nat → IoMap) (i : Nat) (hi : i < slaves.length) :
    getFrame slaves .output (exchange ((configMapGroup slaves).block blockLRW) hasdc lap.ring
      lap.fates iomap taken).iomap i = getFrame slaves .output iomap i := by
  obtain ⟨a, r, ha, hr, harea, -⟩ := h.framed hlap true .output iomap hi
  rw [getFrame, getFrame, ha]
  refine SlaveMessage.ofMemory_congr (Memory.read_congr fun x hx => ?_)
  have hin : InArea r.outputs x := by
    rw [show r.outputs = (a, a + 86) from harea]
    exact hx
  exact image_kept h.covers h.room hlap.ring blockLRW (hframes iomap)
    (fun hdc => firstArrives_zip (hlap.first hdc) _) taken fun t ht =>
      hlap.ring.apart h.covers (List.mem_of_getElem? hr) ht hin

theorem wireCycle_bus (code : DeviceCode σ) (h : Messages slaves) (hlap : lap.Of slaves hasdc)
    (hframes : ∀ iomap, (sendProcessdata ((configMapGroup slaves).block blockLRW) iomap).length ≤
      Nic.ecMaxbuf) (w : Wire σ) :
    let g := (configMapGroup slaves).block blockLRW
    (wireCycle code slaves g hasdc lap w).map Wire.bus =
      runCycle code slaves.length (lap.inputs g slaves (getFrame slaves .input w.iomap)) w.bus ∧
    ∀ w', wireCycle code slaves g hasdc lap w = .ok w' → Cycled g slaves lap w w' := by
  intro g
  rw [wireCycle, runCycle]
  cases hget : getRequestFromDevices code slaves.length { w.bus with log := [] } with
  | error e =>
    refine ⟨rfl, fun w' hw' => ?_⟩
    cases hw'
  | ok b =>
    have hinputs : getFrame slaves .input (exchange g hasdc lap.ring lap.fates
        (b.log.foldl (putFrame slaves) w.iomap) w.taken).iomap =
        lap.inputs g slaves (getFrame slaves .input w.iomap) := by
      funext i
      rw [h.getFrame_image hlap hframes, h.getFrame_input]
      rfl
    simp only [Checked.ok_bind, hinputs]
    cases hsend : sendResponseToDevices code slaves.length
        (lap.inputs g slaves (getFrame slaves .input w.iomap)) b with
    | error e =>
      refine ⟨rfl, fun w' hw' => ?_⟩
      cases hw'
    | ok b' =>
      refine ⟨rfl, fun w' hw' => ?_⟩
      cases hw'
      have hwrites := (onlyResponses_sendResponse hsend).writesTo
      have hwritten := fun i hi => h.getFrame_kept hlap hframes
        (b.log.foldl (putFrame slaves) w.iomap) w.taken i hi
      refine ⟨hinputs, fun i hi => ?_, fun i hi => ?_⟩
      · rw [hwritten i hi, h.getFrame_output hi, hwrites]
      · rw [hwritten i hi]
        exact h.getFrame_taken hlap blockLRW _ _ hi

end

-- ---------------------------------------------------------------------------
-- Runs
-- ---------------------------------------------------------------------------

section
variable {σ : Type} {slaves : List SlaveIo} {hasdc blockLRW : Bool} {g : EcGroup}

theorem sent_congr {s s' : Sent} {i : Nat} (h : s.written i = s'.written i ∧ s.taken i = s'.taken i)
    (cycles : List (Lap × List BusEvent)) :
    (cycles.foldl (Sent.next g slaves) s).taken i =
      (cycles.foldl (Sent.next g slaves) s').taken i := by
  induction cycles generalizing s s' with
  | nil => exact h.2
  | cons cycle cycles ih =>
    refine ih ⟨?_, ?_⟩
    · simp only [Sent.next, h.1]
    · simp only [Sent.next, h.1, h.2]

theorem Cycled.sent {lap : Lap} {w w' : Wire σ} (h : Cycled g slaves lap w w') {i : Nat}
    (hi : i < slaves.length) (cycles : List (Lap × List BusEvent)) :
    (cycles.foldl (Sent.next g slaves) (w'.sent slaves)).taken i =
      (cycles.foldl (Sent.next g slaves)
        ((w.sent slaves).next g slaves (lap, w'.bus.log))).taken i := by
  refine sent_congr ⟨h.written i hi, ?_⟩ cycles
  have htaken := h.taken i hi
  rwa [h.written i hi] at htaken

/-- However the frames fare, the master runs as with messages alone: what it reads back from a slave
is what has come back last, and a slave has the last message that has come to it. -/
theorem messages_latched (code : DeviceCode σ) (slaves : List SlaveIo) (h : Messages slaves)
    (blockLRW hasdc : Bool)
    (hframes : (sendProcessdata ((configMapGroup slaves).block blockLRW) fun _ => 0).length ≤
      Nic.ecMaxbuf)
    (laps : List Lap) (hlaps : ∀ lap ∈ laps, lap.Of slaves hasdc) (w : Wire σ) :
    let g := (configMapGroup slaves).block blockLRW
    (wireRun code slaves g hasdc w laps).map Prod.fst =
      run code slaves.length w.bus (heldInputs g slaves (getFrame slaves .input w.iomap) laps) ∧
    ∀ logs last, wireRun code slaves g hasdc w laps = .ok (logs, last) →
      ∀ i < slaves.length, getFrame slaves .output (last.taken i) i =
        ((laps.zip logs).foldl (Sent.next g slaves) (w.sent slaves)).taken i := by
  intro g
  have hlen : ∀ iomap, (sendProcessdata g iomap).length ≤ Nic.ecMaxbuf := fun iomap => by
    have hshape := congrArg List.length (sendProcessdata_shape g iomap fun _ => 0)
    rw [List.length_map, List.length_map] at hshape
    exact hshape.trans_le hframes
  induction laps generalizing w with
  | nil =>
    refine ⟨rfl, fun logs last hok i _ => ?_⟩
    cases hok
    rfl
  | cons lap laps ih =>
    obtain ⟨hbus, hcycled⟩ := wireCycle_bus code h (hlaps lap (by simp)) hlen w
    have ih := ih fun lap hlap => hlaps lap (List.mem_cons_of_mem _ hlap)
    rw [heldInputs, run, wireRun, ← hbus]
    cases hcycle : wireCycle code slaves g hasdc lap w with
    | error e =>
      refine ⟨rfl, fun logs last hok => ?_⟩
      cases hok
    | ok w' =>
      have hw' := hcycled w' hcycle
      obtain ⟨hrun, hsent⟩ := ih w'
      rw [hw'.inputs] at hrun
      cases hrest : wireRun code slaves g hasdc w' laps with
      | error e =>
        have hstops := hrun.symm.trans (congrArg (Except.map Prod.fst) hrest)
        refine ⟨?_, fun logs last hok => ?_⟩
        · simp only [Except.map, Checked.ok_bind]
          rw [hrest, hstops]
          rfl
        · rw [Checked.ok_bind, hrest] at hok
          cases hok
      | ok result =>
        obtain ⟨logs, last⟩ := result
        have hgoes := hrun.symm.trans (congrArg (Except.map Prod.fst) hrest)
        refine ⟨?_, fun logs' last' hok i hi => ?_⟩
        · simp only [Except.map, Checked.ok_bind]
          rw [hrest, hgoes]
          rfl
        · rw [Checked.ok_bind, hrest] at hok
          cases hok
          rw [hsent logs last hrest i hi, hw'.sent hi]
          rfl

/-- Two slaves that block LRW. In the second cycle the second one takes no part, in the third no
frame comes back. -/
theorem messages_latched_of_two :
    let code : DeviceCode Nat :=
      ⟨fun n _ _ m => (n + 1, { m with dlc := n.toUInt8 }), fun n _ _ m => (n, m)⟩
    let ring : Bool → UInt8 → List RingSlave := fun present x =>
      [⟨true, (0, 86), (172, 258), fun _ => x⟩, ⟨present, (86, 172), (258, 344), fun _ => x⟩]
    let back : Fate := .back (fun _ => 0) 0
    let laps : List Lap := [⟨ring true 3, [back, back]⟩, ⟨ring false 4, [back, back]⟩,
      ⟨ring true 5, [.lost 1, .lost 0]⟩]
    let slaves := [messageSlave, messageSlave]
    let g := (configMapGroup slaves).block true
    let w : Wire Nat :=
      ⟨⟨.init [⟨1, 1, 0, .standard⟩] [.standard, .standard], 5, []⟩, fun _ => 0, fun _ _ => 0⟩
    let inputs := heldInputs g slaves (getFrame slaves .input w.iomap) laps
    (wireRun code slaves g true w laps).map Prod.fst = run code 2 w.bus inputs ∧
      inputs.map (fun message => ((message 0).canIde, (message 1).canIde)) =
        [(3, 3), (4, 0), (4, 0)] := by
  intro code ring back laps slaves g w inputs
  have hall : ∀ s ∈ slaves, s = messageSlave := by simp [slaves]
  have hring : ∀ present x, RingOf slaves (ring present x) := fun present x =>
    { bytes := fun s hs dir => .inr (by rw [hall s hs]; cases dir <;> decide)
      areas := fun dir => by
        cases dir with
        | output =>
          show [(0, 86), (86, 172)] = (layout slaves .output).map fun p => (p.1 / 8, p.2 / 8)
          decide
        | input =>
          show [(172, 258), (258, 344)] = (layout slaves .input).map fun p => (p.1 / 8, p.2 / 8)
          decide }
  refine ⟨(messages_latched code slaves ⟨fun s hs dir => ?_, fun s hs dir => ?_, by decide⟩ true
    true (by decide) laps (fun lap hlap => ?_) w).1, by decide +kernel⟩
  · rw [hall s hs]
    exact messageSlave_covers dir
  · rw [hall s hs]
    cases dir <;> rfl
  · simp only [laps, List.mem_cons, List.not_mem_nil, or_false] at hlap
    rcases hlap with rfl | rfl | rfl
    · exact ⟨hring true 3, fun _ => .inl (by simp [back, Fate.arrives])⟩
    · exact ⟨hring false 4, fun _ => .inl (by simp [back, Fate.arrives])⟩
    · exact ⟨hring true 5, fun _ => .inr (by simp [Fate.arrives])⟩

end

end TienKung
