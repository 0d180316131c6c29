import TienKung.Soem.Cycles
import TienKung.Soem.Replay

/-!
# Calls of the bus

A cycle calls the objects, and between any two of its calls other threads call
commands. Seen from the objects a run of cycles is a sequence of calls: what the
objects answer to the requests is what the frames carry, and the responses give
them their slots of the frames read back, as long as no two registrations share
a slot.
-/

namespace TienKung

variable {σ κ : Type}

-- ---------------------------------------------------------------------------
-- Calls
-- ---------------------------------------------------------------------------

/-- A command of another thread, or one of the calls of a cycle. -/
inductive BusCall (κ : Type)
  | command (cmd : κ)
  | onRequest (dev : Nat) (passage : Int) (slot : DeviceMessage)
  | onResponse (dev : Nat) (passage : Int) (slot : DeviceMessage)
  deriving DecidableEq

/-- The objects, and what a command of another thread does to them. -/
structure WorldCode (σ κ : Type) extends DeviceCode σ where
  command : σ → κ → σ

/-- The objects by themselves, with what they put in the slots of their requests. -/
def WorldCode.step (c : WorldCode σ κ) : Mealy.Step σ (BusCall κ) (Nat × DeviceMessage) :=
  fun s call =>
  match call with
  | .command cmd => (c.command s cmd, [])
  | .onRequest dev passage slot =>
    ((c.onRequest s dev passage slot).1, [(dev, (c.onRequest s dev passage slot).2)])
  | .onResponse dev passage slot => ((c.onResponse s dev passage slot).1, [])

/-- The objects, and the commands that come before each of the next calls of a cycle. -/
structure Station (σ κ : Type) where
  state : σ
  coming : List (List κ)

def Station.arrive (c : WorldCode σ κ) (w : Station σ κ) : Station σ κ :=
  match w.coming with
  | [] => w
  | cmds :: rest => ⟨Mealy.final c.step w.state (cmds.map .command), rest⟩

def stationCode (c : WorldCode σ κ) : DeviceCode (Station σ κ) where
  onRequest w dev passage slot :=
    let w := w.arrive c
    let (state, msg) := c.onRequest w.state dev passage slot
    ({ w with state }, msg)
  onResponse w dev passage slot :=
    let w := w.arrive c
    let (state, msg) := c.onResponse w.state dev passage slot
    ({ w with state }, msg)

abbrev StationBus (σ κ : Type) := Bus (Station σ κ)

def BusCall.command? : BusCall κ → Option κ
  | .command cmd => some cmd
  | _ => none

def commandsOf (calls : List (BusCall κ)) : List κ := calls.filterMap BusCall.command?

def cycleCalls (calls : List (BusCall κ)) : List (BusCall κ) := calls.filter (·.command?.isNone)

/-- The calls of cycles, and before each of them the commands that come before it. -/
def arrivals : (coming : List (List κ)) → (calls : List (BusCall κ)) → List (BusCall κ)
  | _, [] => []
  | [], call :: calls => call :: arrivals [] calls
  | cmds :: coming, call :: calls => cmds.map .command ++ call :: arrivals coming calls

/-- `w'` is `w` after `calls`, in which the objects answer with `answers`. -/
structure Station.Follows (c : WorldCode σ κ) (w w' : Station σ κ) (calls : List (BusCall κ))
    (answers : List (Nat × DeviceMessage)) : Prop where
  state : w'.state = Mealy.final c.step w.state calls
  answers : answers = Mealy.emitted c.step w.state calls
  arrived : calls = arrivals w.coming (cycleCalls calls)
  coming : w'.coming = w.coming.drop (cycleCalls calls).length

section
variable {c : WorldCode σ κ} {w w' w'' : Station σ κ}

theorem commandsOf_append (calls calls' : List (BusCall κ)) :
    commandsOf (calls ++ calls') = commandsOf calls ++ commandsOf calls' := List.filterMap_append

theorem cycleCalls_append (calls calls' : List (BusCall κ)) :
    cycleCalls (calls ++ calls') = cycleCalls calls ++ cycleCalls calls' := List.filter_append ..

theorem commandsOf_map_command (cmds : List κ) : commandsOf (cmds.map .command) = cmds := by
  induction cmds with
  | nil => rfl
  | cons cmd cmds ih => exact congrArg _ ih

theorem cycleCalls_map_command (cmds : List κ) : cycleCalls (cmds.map .command) = [] := by
  refine List.filter_eq_nil_iff.mpr fun call hcall => ?_
  obtain ⟨cmd, -, rfl⟩ := List.mem_map.mp hcall
  exact Bool.false_ne_true

theorem emitted_map_command (s : σ) (cmds : List κ) :
    Mealy.emitted c.step s (cmds.map .command) = [] := by
  induction cmds generalizing s with
  | nil => rfl
  | cons cmd cmds ih => exact ih _

theorem arrivals_nil (calls : List (BusCall κ)) : arrivals [] calls = calls := by
  induction calls with
  | nil => rfl
  | cons call calls ih => exact congrArg _ ih

theorem arrivals_append (coming : List (List κ)) (calls calls' : List (BusCall κ)) :
    arrivals coming (calls ++ calls') =
      arrivals coming calls ++ arrivals (coming.drop calls.length) calls' := by
  induction calls generalizing coming with
  | nil => rfl
  | cons call calls ih =>
    cases coming with
    | nil => rw [List.drop_nil, arrivals_nil, arrivals_nil, arrivals_nil]
    | cons cmds coming =>
      simp only [List.cons_append, arrivals, ih coming, List.append_assoc, List.length_cons,
        List.drop_succ_cons]

theorem commandsOf_arrivals (coming : List (List κ)) (calls : List (BusCall κ)) :
    commandsOf (arrivals coming (cycleCalls calls)) ++
      (coming.drop (cycleCalls calls).length).flatten = coming.flatten := by
  have hcycle : ∀ call ∈ cycleCalls calls, call.command? = none := fun call hcall =>
    Option.isNone_iff_eq_none.mp (List.mem_filter.mp hcall).2
  generalize cycleCalls calls = calls at hcycle
  induction calls generalizing coming with
  | nil => rfl
  | cons call calls ih =>
    obtain ⟨hcall, hcalls⟩ := List.forall_mem_cons.mp hcycle
    have hcons (calls' : List (BusCall κ)) : commandsOf (call :: calls') = commandsOf calls' :=
      List.filterMap_cons_none hcall
    cases coming with
    | nil =>
      have hnil := ih [] hcalls
      rw [List.drop_nil] at hnil ⊢
      rw [arrivals, hcons, hnil]
    | cons cmds coming =>
      rw [arrivals, commandsOf_append, commandsOf_map_command, hcons, List.length_cons,
        List.drop_succ_cons, List.append_assoc, ih coming hcalls, List.flatten_cons]

theorem Station.Follows.commands {calls : List (BusCall κ)} {out : List (Nat × DeviceMessage)}
    (h : Station.Follows c w w' calls out) :
    commandsOf calls ++ w'.coming.flatten = w.coming.flatten := by
  have hcommands := commandsOf_arrivals w.coming calls
  rwa [← h.arrived, ← h.coming] at hcommands

theorem Station.Follows.refl (c : WorldCode σ κ) (w : Station σ κ) : Station.Follows c w w [] [] :=
  ⟨rfl, rfl, rfl, rfl⟩

theorem Station.Follows.trans {calls calls' : List (BusCall κ)}
    {out out' : List (Nat × DeviceMessage)} (h : Station.Follows c w w' calls out)
    (h' : Station.Follows c w' w'' calls' out') :
    Station.Follows c w w'' (calls ++ calls') (out ++ out') where
  state := by rw [h'.state, h.state, Mealy.final_append]
  answers := by rw [h.answers, h'.answers, h.state, Mealy.emitted_append]
  arrived := by
    rw [cycleCalls_append, arrivals_append, ← h.coming, ← h.arrived, ← h'.arrived]
  coming := by
    rw [cycleCalls_append, List.length_append, ← List.drop_drop, ← h.coming, h'.coming]

theorem arrive_spec (c : WorldCode σ κ) (w : Station σ κ) :
    ∃ cmds : List κ, (w.arrive c).state = Mealy.final c.step w.state (cmds.map .command) ∧
      (w.arrive c).coming = w.coming.drop 1 ∧
      ∀ call : BusCall κ, arrivals w.coming [call] = cmds.map .command ++ [call] := by
  unfold Station.arrive
  split
  case h_1 hcoming =>
    refine ⟨[], rfl, ?_, fun call => ?_⟩
    · rw [hcoming, List.drop_nil]
    · rw [hcoming, arrivals_nil]
      rfl
  case h_2 cmds rest hcoming =>
    refine ⟨cmds, rfl, ?_, fun call => ?_⟩
    · rw [hcoming, List.drop_succ_cons, List.drop_zero]
    · rw [hcoming]
      rfl

theorem follows_call (c : WorldCode σ κ) (w : Station σ κ) (call : BusCall κ)
    (hcycle : call.command? = none) :
    ∃ cmds : List κ, ∀ w' : Station σ κ, w'.state = (c.step (w.arrive c).state call).1 →
      w'.coming = (w.arrive c).coming →
        Station.Follows c w w' (cmds.map .command ++ [call]) (c.step (w.arrive c).state call).2 := by
  obtain ⟨cmds, hstate, hcoming, harrive⟩ := arrive_spec c w
  have hcalls : cycleCalls (cmds.map .command ++ [call]) = [call] := by
    rw [cycleCalls_append, cycleCalls_map_command, List.nil_append]
    exact List.filter_cons_of_pos (Option.isNone_iff_eq_none.mpr hcycle)
  refine ⟨cmds, fun w' hstate' hcoming' => ⟨?_, ?_, ?_, ?_⟩⟩
  · rw [hstate', hstate, Mealy.final_append]
    rfl
  · rw [Mealy.emitted_append, emitted_map_command, ← hstate]
    exact (List.append_nil _).symm
  · rw [hcalls, harrive]
  · rw [hcalls, hcoming', hcoming]
    rfl

theorem follows_onRequest (c : WorldCode σ κ) (w : Station σ κ) (dev : Nat) (passage : Int)
    (slot : DeviceMessage) :
    ∃ cmds : List κ, Station.Follows c w ((stationCode c).onRequest w dev passage slot).1
      (cmds.map .command ++ [.onRequest dev passage slot])
      [(dev, ((stationCode c).onRequest w dev passage slot).2)] := by
  obtain ⟨cmds, hcall⟩ := follows_call c w (.onRequest dev passage slot) rfl
  exact ⟨cmds, hcall _ rfl rfl⟩

theorem follows_onResponse (c : WorldCode σ κ) (w : Station σ κ) (dev : Nat) (passage : Int)
    (slot : DeviceMessage) :
    ∃ cmds : List κ, Station.Follows c w ((stationCode c).onResponse w dev passage slot).1
      (cmds.map .command ++ [.onResponse dev passage slot]) [] := by
  obtain ⟨cmds, hcall⟩ := follows_call c w (.onResponse dev passage slot) rfl
  exact ⟨cmds, hcall _ rfl rfl⟩

end

-- ---------------------------------------------------------------------------
-- Slots
-- ---------------------------------------------------------------------------

/-- Registrations that are never served together may share a slot, others not. -/
def Apart (a b : RegisteredDevice) : Prop :=
  a.slave = b.slave → a.passage = b.passage → a.mode ≠ b.mode

instance (a b : RegisteredDevice) : Decidable (Apart a b) := inferInstanceAs (Decidable (_ → _))

theorem Apart.symm (h : Apart a b) : Apart b a :=
  fun hslave hpassage hmode => h hslave.symm hpassage.symm hmode.symm

def SlaveMessage.slot (frame : SlaveMessage) (rd : RegisteredDevice) : DeviceMessage :=
  frame.dev[(rd.passage - 1).toNat]?.getD .zero

def slotIn (buff : Vector SlaveMessage slaveNumber) (rd : RegisteredDevice) : DeviceMessage :=
  (buff[rd.slave.toNat]?.getD .zero).slot rd

section
variable {rd : RegisteredDevice} {slave : Fin slaveNumber} {slot : Fin 6}
  {slaveModes : List Mode} {phase : Nat → Nat}

theorem SlaveMessage.slot_eq (frame : SlaveMessage) (hpassage : rd.passage = slot + 1) :
    frame.slot rd = frame.dev.get slot := by
  have hslot : (rd.passage - 1).toNat = slot.val := by omega
  rw [SlaveMessage.slot, hslot, Vector.getElem?_eq_getElem slot.isLt]
  rfl

theorem slotIn_eq (buff : Vector SlaveMessage slaveNumber) (hslave : rd.slave = slave)
    (hpassage : rd.passage = slot + 1) : slotIn buff rd = (buff.get slave).dev.get slot := by
  rw [slotIn, hslave, Int.toNat_natCast, Vector.getElem?_eq_getElem slave.isLt, Option.getD_some,
    SlaveMessage.slot_eq _ hpassage]
  rfl

theorem exists_slot (hslave : 0 ≤ rd.slave ∧ rd.slave < slaveNumber)
    (hpassage : 1 ≤ rd.passage ∧ rd.passage ≤ 6) :
    ∃ (slave : Fin slaveNumber) (slot : Fin 6), rd.slave = slave ∧ rd.passage = slot + 1 := by
  refine ⟨⟨rd.slave.toNat, by omega⟩, ⟨(rd.passage - 1).toNat, by omega⟩, ?_, ?_⟩
  · simp only
    omega
  · simp only
    omega

theorem Apart.slot_ne (h : Apart a b) (ha : Served slaveModes phase a)
    (hb : Served slaveModes phase b) (hslave : a.slave = b.slave) : a.passage ≠ b.passage := by
  intro hpassage
  refine h hslave hpassage (Option.some_inj.mp ?_)
  rw [← ha, ← hb, hslave]

theorem slotIn_writeSlot_of_apart {a : RegisteredDevice} {buff : Vector SlaveMessage slaveNumber}
    (msg : DeviceMessage) (hslave : rd.slave = slave) (hpassage : rd.passage = slot + 1)
    (ha : InBounds slaveModes phase a) (h : Apart a rd) (has : Served slaveModes phase a)
    (hs : Served slaveModes phase rd) :
    slotIn (writeSlot buff slave slot msg) a = slotIn buff a := by
  obtain ⟨s, p, hs', hp'⟩ := exists_slot ⟨ha.1.1, (ha.2 has).1⟩ (ha.2 has).2
  rw [slotIn_eq _ hs' hp', slotIn_eq _ hs' hp']
  refine writeSlot_dev_of_ne msg fun he hpe => h.slot_ne has hs ?_ ?_
  · rw [hs', hslave, he]
  · rw [hp', hpassage, hpe]

end

end TienKung
