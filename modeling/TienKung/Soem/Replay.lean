import TienKung.Devices.MotorCommands
import TienKung.Soem.Objects
import TienKung.Soem.RunLoop

/-!
# Cycles without a frame

`SoemMaster::Run` looks at the working counter after it has handed out the
responses. When no frame came back they are those of the cycle before, and only
an object that ignores its slot is not given them a second time.
-/

namespace TienKung

variable {ε F : Type} (out : Surroundings ε F)

-- ---------------------------------------------------------------------------
-- Passes
-- ---------------------------------------------------------------------------

def Loop.unrecorded (l : Loop (World ε F)) : Loop (World ε F) :=
  { l with bus := { l.bus with world := { l.bus.world with effects := [] } } }

/-- A pass of the loop, with the calls of `OnResponse` it makes. A run that has
left an array is over. -/
def passEffects (ecSlavecount : Nat) (expectedWKC : Int) :
    Mealy.Step (Except OutOfBounds (Loop (World ε F))) Received (Effect F) := fun s received =>
  match s with
  | .error e => (.error e, [])
  | .ok l =>
    match loopBody (objectCode out) ecSlavecount expectedWKC l.unrecorded received with
    | .error e => (.error e, [])
    | .ok (l, _) => (.ok l, l.bus.world.effects)

def slotOf (ecSlavecount : Nat) (inputs : Nat → SlaveMessage) (rd : RegisteredDevice) :
    DeviceMessage :=
  if rd.slave.toNat < ecSlavecount then
    (inputs rd.slave.toNat).dev[(rd.passage - 1).toNat]?.getD .zero
  else .zero

/-- Every device that is served ignores what the input image, as the last frame
left it, holds in its slot. -/
def LeftOverIgnored (ecSlavecount : Nat) (s : Except OutOfBounds (Loop (World ε F))) : Prop :=
  ∀ l b, s = .ok l →
    getRequestFromDevices (objectCode out) ecSlavecount { l.unrecorded.bus with log := [] } = .ok b →
    ∀ rd ∈ b.master.devices, b.master.serves rd = .ok true →
      (b.world.objects rd.dev).Ignores rd.passage (slotOf ecSlavecount l.inputs rd)

-- ---------------------------------------------------------------------------
-- Accesses
-- ---------------------------------------------------------------------------

section
variable {σ : Type} {code : DeviceCode σ} {b b' : Bus σ}

theorem index_eq_ok {buffer : Buffer} {size : Nat} {i : Int} {k : Fin size}
    (h : index buffer size i = .ok k) : i = k := by
  unfold index at h
  split_ifs at h with hi
  · cases h
    simp only [inArray_val]
    omega

theorem visit_eq_ok {serve : Bus σ → RegisteredDevice → Except OutOfBounds (Bus σ)}
    {rd : RegisteredDevice} (h : visit serve b rd = .ok b') :
    b' = b ∨ b.master.serves rd = .ok true ∧ serve b rd = .ok b' := by
  obtain ⟨served, hserves, hvisit⟩ := Checked.bind_eq_ok.mp h
  cases served with
  | true => exact .inr ⟨hserves, hvisit⟩
  | false =>
    cases hvisit
    exact .inl rfl

theorem world_writeFrame {slave : Nat} (h : writeFrame b slave = .ok b') : b'.world = b.world := by
  obtain ⟨b1, hmark, h⟩ := Checked.bind_eq_ok.mp h
  obtain ⟨i, -, h⟩ := Checked.bind_eq_ok.mp h
  cases h
  have hset : ∀ b2, setCanIde b slave = .ok b2 → b2.world = b.world := by
    intro b2 h2
    obtain ⟨i, -, h2⟩ := Checked.bind_eq_ok.mp h2
    cases h2
    rfl
  obtain ⟨mode, -, hmark⟩ := Checked.bind_eq_ok.mp hmark
  cases mode with
  | extended => exact hset b1 hmark
  | timeSharing =>
    obtain ⟨cur, -, hmark⟩ := Checked.bind_eq_ok.mp hmark
    split_ifs at hmark
    · exact hset b1 hmark
    · cases hmark
      rfl
  | standard =>
    cases hmark
    rfl
  | other value =>
    cases hmark
    rfl

theorem world_toggle {slave : Nat} (h : toggle b slave = .ok b') : b'.world = b.world := by
  obtain ⟨mode, -, h⟩ := Checked.bind_eq_ok.mp h
  dsimp only at h
  split_ifs at h
  · obtain ⟨cur, -, h⟩ := Checked.bind_eq_ok.mp h
    cases h
    rfl
  · cases h
    rfl

theorem request_eq_ok {rd : RegisteredDevice} (h : request code b rd = .ok b') :
    ∃ slot reqBuff, b' = { b with
      master := { b.master with reqBuff }
      world := (code.onRequest b.world rd.dev rd.passage slot).1
      log := b.log ++ [.request rd] } := by
  obtain ⟨slave, -, h⟩ := Checked.bind_eq_ok.mp h
  obtain ⟨slot, -, h⟩ := Checked.bind_eq_ok.mp h
  cases h
  exact ⟨_, _, rfl⟩

theorem response_eq_ok {rd : RegisteredDevice} (h : response code b rd = .ok b') :
    ∃ (slave : Fin slaveNumber) (slot : Fin 6), rd.slave = slave ∧ rd.passage - 1 = slot ∧
      let r := code.onResponse b.world rd.dev rd.passage ((b.master.respBuff.get slave).dev.get slot)
      b' = { b with
        master := { b.master with respBuff := writeSlot b.master.respBuff slave slot r.2 }
        world := r.1
        log := b.log ++ [.response rd] } := by
  obtain ⟨slave, hslave, h⟩ := Checked.bind_eq_ok.mp h
  obtain ⟨slot, hslot, h⟩ := Checked.bind_eq_ok.mp h
  cases h
  exact ⟨slave, slot, index_eq_ok hslave, index_eq_ok hslot, rfl⟩

theorem writeSlot_get (buff : Vector SlaveMessage n) (slave : Fin n) (slot : Fin 6) :
    writeSlot buff slave slot ((buff.get slave).dev.get slot) = buff := by
  rw [writeSlot, Cells.put_get]
  exact Cells.put_get buff slave

end

-- ---------------------------------------------------------------------------
-- A pass without a frame
-- ---------------------------------------------------------------------------

section
variable {out} {n : Nat} {b b' start : Bus (World ε F)} {inputs : Nat → SlaveMessage}

theorem effects_getRequest (h : getRequestFromDevices (objectCode out) n b = .ok b') :
    b'.world.effects = b.world.effects := by
  obtain ⟨b1, hrequest, hwrite⟩ := Checked.bind_eq_ok.mp h
  have h1 : b1.world.effects = b.world.effects := by
    refine Checked.foldlM_of_ok _ _ (fun _ b2 => b2.world.effects = b.world.effects) rfl ?_ hrequest
    intro _ rd b2 b3 _ h2 hvisit
    rcases visit_eq_ok hvisit with rfl | ⟨-, hserve⟩
    · exact h2
    · obtain ⟨slot, reqBuff, rfl⟩ := request_eq_ok hserve
      exact h2
  refine Checked.foldlM_of_ok _ _ (fun _ b2 => b2.world.effects = b.world.effects) h1 ?_ hwrite
  intro _ slave b2 b3 _ h2 hframe
  rw [world_writeFrame hframe]
  exact h2

/-- What the first loop of `SendResponseToDevices` has done for the slaves `done`. -/
structure ImageRead (start : Bus (World ε F)) (inputs : Nat → SlaveMessage) (done : List Nat)
    (b : Bus (World ε F)) : Prop where
  world : b.world = start.world
  master : b.master = { start.master with respBuff := b.master.respBuff }
  respBuff : ∀ i : Fin slaveNumber,
    b.master.respBuff.get i = if i.val ∈ done then inputs i else .zero

theorem ImageRead.readFrame {done : List Nat} {slave : Nat} (h : ImageRead start inputs done b)
    (hok : readFrame inputs b slave = .ok b') : ImageRead start inputs (done ++ [slave]) b' := by
  obtain ⟨i, hi, hok⟩ := Checked.bind_eq_ok.mp hok
  have hslave : slave = i.val := Int.ofNat.inj (index_eq_ok hi)
  cases hok
  refine ⟨h.world, by rw [h.master], fun j => ?_⟩
  by_cases hij : i = j
  · subst hij
    simp [hslave]
  · have hne : j.val ≠ slave := fun he => hij (Fin.ext (hslave.symm.trans he.symm))
    rw [Cells.get_put_ne hij, h.respBuff j]
    simp [hne]

theorem ImageRead.slot (h : ImageRead start inputs (List.range n) b) {rd : RegisteredDevice}
    {slave : Fin slaveNumber} {slot : Fin 6} (hslave : rd.slave = slave)
    (hslot : rd.passage - 1 = slot) :
    (b.master.respBuff.get slave).dev.get slot = slotOf n inputs rd := by
  rw [slotOf, hslave, hslot, Int.toNat_natCast, Int.toNat_natCast, h.respBuff]
  simp only [List.mem_range]
  split_ifs
  · rw [Vector.getElem?_eq_getElem slot.isLt]
    rfl
  · exact Cells.get_replicate _ slot

structure Ignoring (start b : Bus (World ε F)) : Prop where
  master : b.master = start.master
  objects : b.world.objects = start.world.objects
  silent : ∀ e ∈ b.world.effects, e.Silent

theorem onResponse_ignored {w : World ε F} {dev : Nat} {passage : Int} {slot : DeviceMessage}
    (h : (w.objects dev).Ignores passage slot) :
    (objectCode out).onResponse w dev passage slot =
      (⟨(out.now w.env).1, w.objects, w.effects ++ [⟨w.objects dev, w.objects dev, []⟩]⟩, slot) := by
  have hsame : (fun i => if i = dev then w.objects dev else w.objects i) = w.objects := by
    funext i
    split_ifs with hi
    · rw [hi]
    · rfl
  simp only [objectCode, DeviceObject.onResponse_of_ignores h, hsame]

theorem Ignoring.response {rd : RegisteredDevice} (h : Ignoring start b)
    (hread : ImageRead before inputs (List.range n) start)
    (hignores : (start.world.objects rd.dev).Ignores rd.passage (slotOf n inputs rd))
    (hok : response (objectCode out) b rd = .ok b') : Ignoring start b' := by
  obtain ⟨slave, slot, hslave, hslot, heq⟩ := response_eq_ok hok
  have hslotOf : (b.master.respBuff.get slave).dev.get slot = slotOf n inputs rd := by
    rw [h.master]
    exact hread.slot hslave hslot
  rw [← h.objects, ← hslotOf] at hignores
  simp only [onResponse_ignored hignores, writeSlot_get] at heq
  subst heq
  refine ⟨h.master, h.objects, fun e he => ?_⟩
  rcases List.mem_append.mp he with he | he
  · exact h.silent e he
  · rw [List.mem_singleton.mp he]
    exact ⟨rfl, rfl⟩

theorem silent_sendResponse (hsilent : ∀ e ∈ b.world.effects, e.Silent)
    (hignores : ∀ rd ∈ b.master.devices, b.master.serves rd = .ok true →
      (b.world.objects rd.dev).Ignores rd.passage (slotOf n inputs rd))
    (hok : sendResponseToDevices (objectCode out) n inputs b = .ok b') :
    ∀ e ∈ b'.world.effects, e.Silent := by
  obtain ⟨b1, hread, hok⟩ := Checked.bind_eq_ok.mp hok
  obtain ⟨b2, hresponse, htoggle⟩ := Checked.bind_eq_ok.mp hok
  have h1 : ImageRead b inputs (List.range n) b1 := by
    refine Checked.foldlM_of_ok _ _ (ImageRead b inputs) ?_ (fun _ _ _ _ _ h hok => h.readFrame hok)
      hread
    exact ⟨rfl, rfl, fun i => by simp⟩
  have hdevices : b1.master.devices = b.master.devices := by rw [h1.master]
  have hserves : ∀ rd, b1.master.serves rd = b.master.serves rd := by
    intro rd
    rw [h1.master]
    rfl
  have h2 : Ignoring b1 b2 := by
    refine Checked.foldlM_of_ok _ _ (fun _ => Ignoring b1) ⟨rfl, rfl, by rwa [h1.world]⟩ ?_ hresponse
    intro done rd b3 b4 hprefix h3 hvisit
    rcases visit_eq_ok hvisit with rfl | ⟨hserved, hresponse⟩
    · exact h3
    · have hmem : rd ∈ b.master.devices := hdevices ▸ hprefix.subset (by simp)
      rw [h3.master, hserves] at hserved
      refine h3.response h1 ?_ hresponse
      rw [h1.world]
      exact hignores rd hmem hserved
  refine Checked.foldlM_of_ok _ _ (fun _ b3 => ∀ e ∈ b3.world.effects, e.Silent) h2.silent ?_ htoggle
  intro _ slave b3 b4 _ h3 hslave
  rw [world_toggle hslave]
  exact h3

/-- A pass without a frame in which every slot is ignored. -/
theorem silent_pass {s : Except OutOfBounds (Loop (World ε F))} (expectedWKC : Int)
    (h : LeftOverIgnored out n s) :
    ∀ e ∈ (passEffects out n expectedWKC s .noFrame).2, e.Silent := by
  cases s with
  | error e => exact fun _ he => absurd he List.not_mem_nil
  | ok l =>
    simp only [passEffects]
    split
    · exact fun _ he => absurd he List.not_mem_nil
    · rename_i l' pass hbody
      obtain ⟨bus, hcycle, hbus⟩ := Checked.bind_eq_ok.mp hbody
      cases hbus
      obtain ⟨b1, hrequest, hresponse⟩ := Checked.bind_eq_ok.mp hcycle
      refine silent_sendResponse ?_ (h l b1 rfl hrequest) hresponse
      rw [effects_getRequest hrequest]
      exact fun _ he => absurd he List.not_mem_nil

end

-- ---------------------------------------------------------------------------
-- Runs
-- ---------------------------------------------------------------------------

/-- No call of `OnResponse` in a cycle without a frame reports anything or
changes its object. -/
def NothingReplayed (n : Nat) (expectedWKC : Int) (l : Loop (World ε F)) (rs : List Received) :
    Prop :=
  Mealy.Along (passEffects out n expectedWKC)
    (fun s received => received = .noFrame →
      ∀ e ∈ (passEffects out n expectedWKC s received).2, e.Silent) (.ok l) rs

theorem nothingReplayed_of_ignored (n : Nat) (expectedWKC : Int) (l : Loop (World ε F))
    (rs : List Received)
    (h : Mealy.Along (passEffects out n expectedWKC)
      (fun s received => received = .noFrame → LeftOverIgnored out n s) (.ok l) rs) :
    NothingReplayed out n expectedWKC l rs := by
  refine h.imp (P := fun _ => True) trivial fun s received _ hignored => ⟨trivial, ?_⟩
  rintro rfl
  exact silent_pass expectedWKC (hignored rfl)

def idleMotor : Surroundings Unit Unit where
  onRequest env o _ slot :=
    match o with
    | .motor d ready => (env, .motor d ready, d.frame (.setMotorSpeed 0 1))
    | o => (env, o, slot)
  now env := (env, 0)
  uninit _ := 0
  quatToRPY2 _ := .replicate 3 0
  filters := ⟨fun _ _ _ _ => (), fun _ => .replicate 4 0, fun _ => .replicate 3 0,
    fun _ => .replicate 3 0, fun _ => .replicate 3 0⟩

def oneMotor : Loop (World Unit Unit) where
  counts := .zero
  bus :=
    { master := .init [⟨0, 1, 0, .standard⟩] [.standard]
      world := ⟨(), fun _ => .motor ⟨⟨1, .s4310, 0⟩, 0, 0, 0, 0⟩ false, []⟩
      log := [] }
  inputs := fun _ => .zero

def imageOf (msg : DeviceMessage) : Nat → SlaveMessage :=
  fun _ => { SlaveMessage.zero with dev := Cells.put SlaveMessage.zero.dev 0 msg }

/-- The frame that is left holds the status of another motor. -/
theorem nothingReplayed_of_other :
    NothingReplayed idleMotor 1 3 oneMotor
      [.frame 3 (imageOf ⟨2, 0, 8, #v[0, 1, 0, 0, 0, 0, 0, 0]⟩), .noFrame] := by
  refine nothingReplayed_of_ignored idleMotor 1 3 oneMotor _ ⟨nofun, fun _ => ?_, trivial⟩
  intro l b hl hb rd hrd _
  cases hl
  cases hb
  cases hrd with
  | head => exact .inr (by decide +kernel)
  | tail _ hrd => cases hrd

/-- The status of a motor comes, and is reported again when no frame comes. -/
theorem not_nothingReplayed :
    ¬ NothingReplayed idleMotor 1 3 oneMotor
      [.frame 3 (imageOf ⟨1, 0, 8, #v[0, 1, 0, 0, 0, 0, 0, 0]⟩), .noFrame] := by
  intro h
  have hsilent := h.2.1 rfl
  have hreported : ((passEffects idleMotor 1 3 (passEffects idleMotor 1 3 (.ok oneMotor)
      (.frame 3 (imageOf ⟨1, 0, 8, #v[0, 1, 0, 0, 0, 0, 0, 0]⟩))).1 .noFrame).2.any
      fun e => !e.reports.isEmpty) = true := by decide +kernel
  obtain ⟨e, he, hne⟩ := List.any_eq_true.mp hreported
  rw [(hsilent e he).2] at hne
  cases hne

end TienKung
