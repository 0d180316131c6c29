import TienKung.Lib.Memory
import TienKung.Lib.Words
import TienKung.Soem.Message

/-!
# Messages in memory

The structures of `SoemMessage.h` are packed: a device's message is fourteen
bytes, its identifier with the least significant byte first, and a slave's
message is eighty-six. `SoemMaster` casts the slave's process data to it.
-/

namespace TienKung

def DeviceMessage.bytes (m : DeviceMessage) : List UInt8 :=
  Words.low 4 m.id.toNat ++ m.rtr :: m.dlc :: m.data.toList

def DeviceMessage.ofMemory (m : ℕ → UInt8) (a : Nat) : DeviceMessage where
  id := UInt32.ofNat (Words.value (Memory.read m a 4))
  rtr := m (a + 4)
  dlc := m (a + 5)
  data := Vector.ofFn fun i => m (a + 6 + i)

def SlaveMessage.bytes (m : SlaveMessage) : List UInt8 :=
  m.devNum :: m.canIde :: m.dev.toList.flatMap DeviceMessage.bytes

def SlaveMessage.ofMemory (m : ℕ → UInt8) (a : Nat) : SlaveMessage where
  devNum := m a
  canIde := m (a + 1)
  dev := Vector.ofFn fun i => .ofMemory m (a + 2 + i * 14)

section
variable {m m' : ℕ → UInt8} {a : Nat}

@[simp] theorem DeviceMessage.length_bytes (d : DeviceMessage) : d.bytes.length = 14 := by
  simp [bytes, Words.low]

@[simp] theorem SlaveMessage.length_bytes (s : SlaveMessage) : s.bytes.length = 86 := by
  simp [bytes, List.length_flatMap]

theorem DeviceMessage.ofMemory_of_read {d : DeviceMessage} (h : Memory.read m a 14 = d.bytes) :
    ofMemory m a = d := by
  obtain ⟨hid, hrest⟩ := List.append_inj
    (show Memory.read m a 4 ++ Memory.read m (a + 4) 10 = d.bytes from Memory.read_add ▸ h)
    (by simp [Words.low])
  obtain ⟨hrtr, hrest⟩ := List.cons.inj (show
    m (a + 4) :: Memory.read m (a + 4 + 1) 9 = _ from (Memory.read_add (n := 1)).symm.trans hrest)
  obtain ⟨hdlc, hdata⟩ := List.cons.inj (show
    m (a + 5) :: Memory.read m (a + 5 + 1) 8 = _ from (Memory.read_add (n := 1)).symm.trans hrest)
  have hid' : UInt32.ofNat (d.id.toNat % 256 ^ 4) = d.id := by
    rw [Nat.mod_eq_of_lt (show d.id.toNat < 256 ^ 4 from d.id.toNat_lt), UInt32.ofNat_toNat]
  have hdata' : (Vector.ofFn fun i : Fin 8 => m (a + 6 + i)) = d.data := by
    refine Vector.ext fun i hi => ?_
    have hcell := congrArg (·[i]?) hdata
    simp only [Memory.getElem?_read hi] at hcell
    rw [Vector.getElem_ofFn]
    simpa [hi] using hcell
  rw [ofMemory, hid, hrtr, hdlc, Words.value_low, hid', hdata']

theorem SlaveMessage.ofMemory_of_read {s : SlaveMessage} (h : Memory.read m a 86 = s.bytes) :
    ofMemory m a = s := by
  obtain ⟨hnum, hrest⟩ := List.cons.inj (show
    m a :: Memory.read m (a + 1) 85 = _ from (Memory.read_add (n := 1)).symm.trans h)
  obtain ⟨hide, hdev⟩ := List.cons.inj (show
    m (a + 1) :: Memory.read m (a + 1 + 1) 84 = _ from (Memory.read_add (n := 1)).symm.trans hrest)
  have hall : Memory.read m (a + 2) (s.dev.toList.length * 14) =
      s.dev.toList.flatMap DeviceMessage.bytes := by
    rw [Vector.length_toList]
    exact hdev
  have hdevs := Memory.read_flatMap DeviceMessage.length_bytes hall
  have hdev' :
      (Vector.ofFn fun i : Fin 6 => DeviceMessage.ofMemory m (a + 2 + i * 14)) = s.dev := by
    refine Vector.ext fun i hi => ?_
    rw [Vector.getElem_ofFn]
    exact DeviceMessage.ofMemory_of_read (hdevs i s.dev[i] (by simp [hi]))
  rw [ofMemory, hnum, hide, hdev']

theorem DeviceMessage.ofMemory_congr {b : Nat} (h : Memory.read m a 14 = Memory.read m' b 14) :
    ofMemory m a = ofMemory m' b := by
  have hcell : ∀ i, i < 14 → m (a + i) = m' (b + i) := fun i hi =>
    List.singleton_inj.mp (Memory.read_window (k := 1) h hi)
  simp only [ofMemory, mk.injEq]
  refine ⟨congrArg (fun bytes => UInt32.ofNat (Words.value bytes)) ?_, hcell 4 (by decide),
    hcell 5 (by decide), Vector.ext fun i hi => ?_⟩
  · exact Memory.read_window (i := 0) (k := 4) h (by decide)
  · rw [Vector.getElem_ofFn, Vector.getElem_ofFn, Nat.add_assoc, Nat.add_assoc]
    exact hcell (6 + i) (by omega)

theorem SlaveMessage.ofMemory_congr {b : Nat} (h : Memory.read m a 86 = Memory.read m' b 86) :
    ofMemory m a = ofMemory m' b := by
  have hcell : ∀ i, i < 86 → m (a + i) = m' (b + i) := fun i hi =>
    List.singleton_inj.mp (Memory.read_window (k := 1) h hi)
  simp only [ofMemory, mk.injEq]
  refine ⟨hcell 0 (by decide), hcell 1 (by decide), Vector.ext fun i hi => ?_⟩
  rw [Vector.getElem_ofFn, Vector.getElem_ofFn, Nat.add_assoc, Nat.add_assoc]
  exact DeviceMessage.ofMemory_congr (Memory.read_window h (by simp only; omega))

theorem SlaveMessage.ofMemory_zero (a : Nat) : ofMemory (fun _ => 0) a = .zero := rfl

theorem SlaveMessage.ofMemory_write (m : ℕ → UInt8) (a : Nat) (s : SlaveMessage) :
    ofMemory (Memory.write m a s.bytes) a = s :=
  ofMemory_of_read (by rw [← s.length_bytes]; exact Memory.read_write_self m a s.bytes)

end

end TienKung
