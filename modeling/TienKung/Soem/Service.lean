import TienKung.Soem.Master
import TienKung.Lib.Checked

/-!
# What one cycle of `SoemMaster` does

Each slave has had its time-sharing state toggled some number of times: its
phase. The phase fixes the mode a slave serves, `effectiveMode`. Within bounds,
the request loop calls the devices of that mode and leaves every other slot
zero, the write loop sends one frame to each slave with `can_ide` set by the
mode, the response loop calls the same devices, and the last loop advances the
phases. Out of bounds, the request loop or the write loop faults.
-/

namespace TienKung

variable {σ : Type}

-- ---------------------------------------------------------------------------
-- Modes
-- ---------------------------------------------------------------------------

/-- The mode a slave serves after `phase` toggles: a time-sharing slave starts
with standard frames and alternates. -/
def effectiveMode (mode : Mode) (phase : Nat) : Option Mode :=
  match mode with
  | .standard => some .standard
  | .extended => some .extended
  | .timeSharing => some (if phase % 2 = 0 then .standard else .extended)
  | .other _ => none

/-- What `vecCurTsMode` holds when slave `s` was toggled `phase s` times. -/
def tsModes (slaveModes : List Mode) (phase : Nat → Nat) : List Mode :=
  slaveModes.mapIdx fun s mode =>
    if mode = .timeSharing ∧ phase s % 2 ≠ 0 then .extended else .standard

@[simp] theorem length_tsModes (slaveModes : List Mode) (phase : Nat → Nat) :
    (tsModes slaveModes phase).length = slaveModes.length := by simp [tsModes]

structure InPhase (devices : List RegisteredDevice) (slaveModes : List Mode) (phase : Nat → Nat)
    (m : SoemMaster) : Prop where
  devices_eq : m.devices = devices
  slaveModes_eq : m.slaveModes = slaveModes
  vecCurTsMode_eq : m.vecCurTsMode = tsModes slaveModes phase

def servedMode (slaveModes : List Mode) (phase : Nat → Nat) (slave : Nat) : Option Mode :=
  slaveModes[slave]?.bind fun mode => effectiveMode mode (phase slave)

def Served (slaveModes : List Mode) (phase : Nat → Nat) (rd : RegisteredDevice) : Prop :=
  servedMode slaveModes phase rd.slave.toNat = some rd.mode

instance (slaveModes : List Mode) (phase : Nat → Nat) (rd : RegisteredDevice) :
    Decidable (Served slaveModes phase rd) := by unfold Served; infer_instance

theorem SoemMaster.init_inPhase (devices : List RegisteredDevice) (slaveModes : List Mode) :
    InPhase devices slaveModes (fun _ => 0) (init devices slaveModes) := by
  refine ⟨rfl, rfl, ?_⟩
  apply List.ext_getElem <;> simp [init, tsModes]

-- ---------------------------------------------------------------------------
-- Accesses
-- ---------------------------------------------------------------------------

theorem index_ok {n : Nat} {i : Int} (buffer : Buffer) (h : 0 ≤ i ∧ i < n) :
    index buffer n i = .ok (inArray i h) := dif_pos h

theorem index_error {n : Nat} {i : Int} (buffer : Buffer) (h : ¬ (0 ≤ i ∧ i < n)) :
    index buffer n i = .error ⟨buffer, i⟩ := dif_neg h

section
variable {devices : List RegisteredDevice} {slaveModes : List Mode} {phase : Nat → Nat}
  {m : SoemMaster}

theorem InPhase.slaveMode_ok (h : InPhase devices slaveModes phase m) (slave : Int)
    (hs : 0 ≤ slave ∧ slave < slaveModes.length) :
    ∃ mode, slaveModes[slave.toNat]? = some mode ∧ m.slaveMode slave = .ok mode := by
  have hlt : slave.toNat < slaveModes.length := by omega
  refine ⟨slaveModes[slave.toNat], List.getElem?_eq_getElem hlt, ?_⟩
  obtain ⟨rfl, rfl, -⟩ := h
  rw [SoemMaster.slaveMode, index_ok _ hs]
  rfl

theorem InPhase.slaveMode_error (h : InPhase devices slaveModes phase m) {slave : Int}
    (hs : ¬ (0 ≤ slave ∧ slave < slaveModes.length)) :
    m.slaveMode slave = .error ⟨.slaveModes, slave⟩ := by
  rw [SoemMaster.slaveMode, index_error _ (by rw [h.slaveModes_eq]; exact hs)]
  rfl

theorem InPhase.curTsMode_ok (h : InPhase devices slaveModes phase m) (slave : Int)
    (hs : 0 ≤ slave ∧ slave < slaveModes.length) (hm : slaveModes[slave.toNat]? = some .timeSharing) :
    m.curTsMode slave = .ok (if phase slave.toNat % 2 = 0 then .standard else .extended) := by
  obtain ⟨hlt, hget⟩ := List.getElem?_eq_some_iff.mp hm
  have hs' : 0 ≤ slave ∧ slave < m.vecCurTsMode.length := by rw [h.vecCurTsMode_eq]; simpa using hs
  rw [SoemMaster.curTsMode, index_ok _ hs']
  have hval : m.vecCurTsMode.get ⟨slave.toNat, by omega⟩ =
      if phase slave.toNat % 2 = 0 then .standard else .extended := by
    simp only [List.get_eq_getElem, h.vecCurTsMode_eq, tsModes, List.getElem_mapIdx, hget, true_and]
    by_cases hp : phase slave.toNat % 2 = 0 <;> simp [hp]
  exact congrArg Except.ok hval

theorem InPhase.serves_ok (h : InPhase devices slaveModes phase m) {rd : RegisteredDevice}
    (hs : 0 ≤ rd.slave ∧ rd.slave < slaveModes.length) :
    m.serves rd = .ok (decide (Served slaveModes phase rd)) := by
  obtain ⟨mode, hmode, hget⟩ := h.slaveMode_ok rd.slave hs
  have hserved : Served slaveModes phase rd ↔
      effectiveMode mode (phase rd.slave.toNat) = some rd.mode := by
    simp [Served, servedMode, hmode]
  cases mode with
  | standard => simp [SoemMaster.serves, hget, hserved, effectiveMode]
  | extended => simp [SoemMaster.serves, hget, hserved, effectiveMode]
  | timeSharing =>
    simp [SoemMaster.serves, hget, h.curTsMode_ok rd.slave hs hmode, hserved, effectiveMode]
  | other v => simp [SoemMaster.serves, hget, hserved, effectiveMode]

theorem InPhase.serves_error (h : InPhase devices slaveModes phase m) {rd : RegisteredDevice}
    (hs : ¬ (0 ≤ rd.slave ∧ rd.slave < slaveModes.length)) :
    m.serves rd = .error ⟨.slaveModes, rd.slave⟩ := by
  rw [SoemMaster.serves, h.slaveMode_error hs]
  rfl

def InBounds (slaveModes : List Mode) (phase : Nat → Nat) (rd : RegisteredDevice) : Prop :=
  (0 ≤ rd.slave ∧ rd.slave < slaveModes.length) ∧
    (Served slaveModes phase rd → rd.slave < slaveNumber ∧ 1 ≤ rd.passage ∧ rd.passage ≤ 6)

theorem visit_skip {b : Bus σ} (h : InPhase devices slaveModes phase b.master) {rd : RegisteredDevice}
    {serve : Bus σ → RegisteredDevice → Except OutOfBounds (Bus σ)}
    (hb : InBounds slaveModes phase rd) (hs : ¬ Served slaveModes phase rd) :
    visit serve b rd = .ok b := by
  simp [visit, h.serves_ok hb.1, hs]

theorem visit_serve {b : Bus σ} (h : InPhase devices slaveModes phase b.master) {rd : RegisteredDevice}
    {serve : Bus σ → RegisteredDevice → Except OutOfBounds (Bus σ)}
    (hb : InBounds slaveModes phase rd) (hs : Served slaveModes phase rd) :
    visit serve b rd = serve b rd := by
  simp [visit, h.serves_ok hb.1, hs]

-- ---------------------------------------------------------------------------
-- The request loop
-- ---------------------------------------------------------------------------

theorem request_ok (code : DeviceCode σ) (b : Bus σ) {rd : RegisteredDevice}
    (hs : 0 ≤ rd.slave ∧ rd.slave < slaveNumber) (hp : 1 ≤ rd.passage ∧ rd.passage ≤ 6) :
    ∃ (slave : Fin slaveNumber) (slot : Fin 6) (world : σ) (msg : DeviceMessage),
      rd.slave = slave ∧ rd.passage = slot + 1 ∧
      request code b rd = .ok { b with
        master := { b.master with reqBuff := writeSlot b.master.reqBuff slave slot msg }
        world := world
        log := b.log ++ [.request rd] } := by
  rw [request, index_ok _ hs, Checked.ok_bind, index_ok (n := 6) _ (by omega), Checked.ok_bind]
  refine ⟨_, _, _, _, ?_, ?_, rfl⟩ <;> simp <;> omega

theorem request_error {code : DeviceCode σ} {b : Bus σ} {rd : RegisteredDevice}
    (h : ¬ ((0 ≤ rd.slave ∧ rd.slave < slaveNumber) ∧ 1 ≤ rd.passage ∧ rd.passage ≤ 6)) :
    ∃ e, request code b rd = .error e := by
  by_cases hs : 0 ≤ rd.slave ∧ rd.slave < slaveNumber
  · rw [request, index_ok _ hs, Checked.ok_bind, index_error (n := 6) _ (by omega)]
    exact ⟨_, rfl⟩
  · rw [request, index_error _ hs]
    exact ⟨_, rfl⟩

/-- What the request loop has done for the devices `done`. -/
structure Requested (devices : List RegisteredDevice) (slaveModes : List Mode) (phase : Nat → Nat)
    (done : List RegisteredDevice) (b : Bus σ) : Prop where
  inPhase : InPhase devices slaveModes phase b.master
  log : b.log = (done.filter fun rd => Served slaveModes phase rd).map .request
  canIde : ∀ s : Fin slaveNumber, (b.master.reqBuff.get s).canIde = 0
  zero : ∀ (s : Fin slaveNumber) (p : Fin 6),
    (∀ rd ∈ done, Served slaveModes phase rd → rd.slave = s → rd.passage ≠ p + 1) →
      (b.master.reqBuff.get s).dev.get p = .zero

theorem Requested.visit {code : DeviceCode σ} {b : Bus σ} {done : List RegisteredDevice}
    (h : Requested devices slaveModes phase done b) {rd : RegisteredDevice}
    (hb : InBounds slaveModes phase rd) :
    ∃ b', visit (request code) b rd = .ok b' ∧
      Requested devices slaveModes phase (done ++ [rd]) b' := by
  by_cases hs : Served slaveModes phase rd
  · obtain ⟨hlt, hp⟩ := hb.2 hs
    obtain ⟨slave, slot, world, msg, hslave, hslot, hreq⟩ :=
      request_ok code b ⟨hb.1.1, hlt⟩ hp
    rw [visit_serve h.inPhase hb hs]
    refine ⟨_, hreq, ⟨⟨h.inPhase.1, h.inPhase.2, h.inPhase.3⟩, by simp [h.log, hs], ?_, ?_⟩⟩
    · intro s
      rw [writeSlot_canIde]
      exact h.canIde s
    · intro s p hfree
      rw [writeSlot_dev_of_ne]
      · exact h.zero s p fun rd' hrd' => hfree rd' (List.mem_append_left _ hrd')
      · rintro rfl rfl
        exact hfree rd (by simp) hs hslave hslot
  · rw [visit_skip h.inPhase hb hs]
    refine ⟨b, rfl, ⟨h.inPhase, by simp [h.log, hs], h.canIde, fun s p hfree => ?_⟩⟩
    exact h.zero s p fun rd' hrd' => hfree rd' (List.mem_append_left _ hrd')

theorem visit_request_error {code : DeviceCode σ} {b : Bus σ} {rd : RegisteredDevice}
    (h : InPhase devices slaveModes phase b.master) (hb : ¬ InBounds slaveModes phase rd) :
    ∃ e, visit (request code) b rd = .error e := by
  by_cases hr : 0 ≤ rd.slave ∧ rd.slave < slaveModes.length
  · have hs : Served slaveModes phase rd := by
      by_contra hs
      exact hb ⟨hr, fun h => absurd h hs⟩
    have hv : visit (request code) b rd = request code b rd := by simp [visit, h.serves_ok hr, hs]
    rw [hv]
    refine request_error fun hin => hb ⟨hr, fun _ => ⟨hin.1.2, hin.2⟩⟩
  · exact ⟨_, by rw [visit, h.serves_error hr]; rfl⟩

-- ---------------------------------------------------------------------------
-- The write loop
-- ---------------------------------------------------------------------------

def sentFrame (slaveModes : List Mode) (phase : Nat → Nat) (buff : Vector SlaveMessage slaveNumber)
    (s : Nat) : SlaveMessage :=
  let frame := buff[s]?.getD .zero
  if servedMode slaveModes phase s = some .extended then { frame with canIde := 1 } else frame

theorem InPhase.markFrame_eq {b : Bus σ} (h : InPhase devices slaveModes phase b.master) {s : Nat}
    (hs : s < slaveModes.length) :
    markFrame b s =
      if servedMode slaveModes phase s = some .extended then setCanIde b s else .ok b := by
  obtain ⟨mode, hmode, hget⟩ := h.slaveMode_ok s (by omega)
  rw [Int.toNat_natCast] at hmode
  have hserved : servedMode slaveModes phase s = effectiveMode mode (phase s) := by
    simp [servedMode, hmode]
  cases mode with
  | standard => simp [markFrame, hget, hserved, effectiveMode]
  | extended => simp [markFrame, hget, hserved, effectiveMode]
  | timeSharing =>
    have hcur := h.curTsMode_ok s (by omega) hmode
    simp [markFrame, hget, hcur, hserved, effectiveMode]
  | other v => simp [markFrame, hget, hserved, effectiveMode]

/-- What the write loop has done for the slaves `done`. -/
structure Written (devices : List RegisteredDevice) (slaveModes : List Mode) (phase : Nat → Nat)
    (before : Bus σ) (done : List Nat) (b : Bus σ) : Prop where
  inPhase : InPhase devices slaveModes phase b.master
  log : b.log = before.log ++
    done.map fun s => .write s (sentFrame slaveModes phase before.master.reqBuff s)
  rest : ∀ s : Nat, s ∉ done → b.master.reqBuff[s]? = before.master.reqBuff[s]?

theorem Written.writeFrame {before b : Bus σ} {done : List Nat}
    (h : Written devices slaveModes phase before done b) {s : Nat} (hs : s < slaveModes.length)
    (hn : s < slaveNumber) (hnew : s ∉ done) :
    ∃ b', writeFrame b s = .ok b' ∧ Written devices slaveModes phase before (done ++ [s]) b' := by
  have hidx : index .reqBuff slaveNumber (s : Int) = .ok ⟨s, hn⟩ := by
    rw [index_ok _ (by omega)]; rfl
  have hbuff : before.master.reqBuff[s]?.getD .zero = b.master.reqBuff.get ⟨s, hn⟩ := by
    rw [← h.rest s hnew, Vector.getElem?_eq_getElem hn]
    rfl
  rw [TienKung.writeFrame, h.inPhase.markFrame_eq hs]
  by_cases hext : servedMode slaveModes phase s = some .extended
  · simp only [hext, if_true, setCanIde, hidx, Checked.ok_bind, Checked.pure_eq]
    refine ⟨_, rfl, ⟨h.inPhase.1, h.inPhase.2, h.inPhase.3⟩, ?_, fun t ht => ?_⟩
    · simp [h.log, sentFrame, hext, hbuff]
    · rw [List.mem_append, List.mem_singleton, not_or] at ht
      rw [← h.rest t ht.1]
      exact Vector.getElem?_set_ne hn fun he => ht.2 he.symm
  · simp only [hext, if_false, hidx, Checked.ok_bind, Checked.pure_eq]
    refine ⟨_, rfl, h.inPhase, ?_, fun t ht => h.rest t fun hm => ht (List.mem_append_left _ hm)⟩
    simp [h.log, sentFrame, hext, hbuff]

theorem writeFrame_error {b : Bus σ} (h : InPhase devices slaveModes phase b.master) {s : Nat}
    (hs : ¬ (s < slaveModes.length ∧ s < slaveNumber)) : ∃ e, writeFrame b s = .error e := by
  by_cases hlt : s < slaveModes.length
  · have hn : ¬ (0 ≤ (s : Int) ∧ (s : Int) < slaveNumber) := fun hn => hs ⟨hlt, by omega⟩
    rw [writeFrame, h.markFrame_eq hlt]
    by_cases hext : servedMode slaveModes phase s = some .extended
    · simp [hext, setCanIde, index_error _ hn]
    · simp [hext, index_error _ hn]
  · refine ⟨⟨.slaveModes, s⟩, ?_⟩
    rw [writeFrame, markFrame, h.slaveMode_error (by omega)]
    rfl

-- ---------------------------------------------------------------------------
-- The loops over the responses
-- ---------------------------------------------------------------------------

structure Responded (devices : List RegisteredDevice) (slaveModes : List Mode) (phase : Nat → Nat)
    (before : Bus σ) (done : List RegisteredDevice) (b : Bus σ) : Prop where
  inPhase : InPhase devices slaveModes phase b.master
  log : b.log = before.log ++ (done.filter fun rd => Served slaveModes phase rd).map .response

theorem Responded.visit {code : DeviceCode σ} {before b : Bus σ} {done : List RegisteredDevice}
    (h : Responded devices slaveModes phase before done b) {rd : RegisteredDevice}
    (hb : InBounds slaveModes phase rd) :
    ∃ b', visit (response code) b rd = .ok b' ∧
      Responded devices slaveModes phase before (done ++ [rd]) b' := by
  by_cases hs : Served slaveModes phase rd
  · obtain ⟨hlt, hp⟩ := hb.2 hs
    rw [visit_serve h.inPhase hb hs, response, index_ok _ ⟨hb.1.1, hlt⟩, Checked.ok_bind,
      index_ok (n := 6) _ (by omega), Checked.ok_bind]
    exact ⟨_, rfl, ⟨h.inPhase.1, h.inPhase.2, h.inPhase.3⟩, by simp [h.log, hs]⟩
  · rw [visit_skip h.inPhase hb hs]
    exact ⟨b, rfl, h.inPhase, by simp [h.log, hs]⟩

structure Toggled (devices : List RegisteredDevice) (slaveModes : List Mode) (phase : Nat → Nat)
    (before : Bus σ) (done : List Nat) (b : Bus σ) : Prop where
  inPhase : InPhase devices slaveModes (fun s => phase s + if s ∈ done then 1 else 0) b.master
  log : b.log = before.log

theorem Toggled.toggle {before b : Bus σ} {done : List Nat}
    (h : Toggled devices slaveModes phase before done b) {s : Nat} (hs : s < slaveModes.length)
    (hnew : s ∉ done) :
    ∃ b', toggle b s = .ok b' ∧ Toggled devices slaveModes phase before (done ++ [s]) b' := by
  obtain ⟨mode, hmode, hget⟩ := h.inPhase.slaveMode_ok s (by omega)
  rw [Int.toNat_natCast] at hmode
  have hat : slaveModes[s] = mode := (List.getElem?_eq_some_iff.mp hmode).2
  by_cases hts : mode = .timeSharing
  · subst hts
    have hcur := h.inPhase.curTsMode_ok s (by omega) hmode
    simp only [Int.toNat_natCast, hnew, if_false, Nat.add_zero] at hcur
    simp only [TienKung.toggle, hget, hcur, Checked.ok_bind, if_true, Checked.pure_eq]
    refine ⟨_, rfl, ⟨h.inPhase.1, h.inPhase.2, ?_⟩, h.log⟩
    apply List.ext_getElem
    · simp [h.inPhase.3]
    intro t h1 h2
    by_cases hst : s = t
    · subst hst
      by_cases hp : phase s % 2 = 0 <;> (simp [tsModes, hat, hp]; omega)
    · have hts' : t ≠ s := fun he => hst he.symm
      simp [List.getElem_set_ne hst, h.inPhase.3, tsModes, hts']
  · refine ⟨b, by simp [TienKung.toggle, hget, hts], ⟨h.inPhase.1, h.inPhase.2, ?_⟩, h.log⟩
    rw [h.inPhase.3]
    apply List.ext_getElem
    · simp
    intro t h1 h2
    by_cases hst : t = s
    · subst hst; simp [tsModes, hat, hts]
    · simp [tsModes, hst]

end

end TienKung
