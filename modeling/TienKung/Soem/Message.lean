import TienKung.Lib.Cells
import Mathlib.Data.Rat.Defs

/-!
# Process-image messages

One CAN frame slot of a slave (`DeviceMessage`) and the process image of one
slave (`SlaveMessage`), packed structures of `SoemMessage.h`; and the constant
that the devices decode their frames with.
-/

namespace TienKung

/-- `M_PI`, the double nearest to π. -/
def pi : ℚ := 884279719003555 / 281474976710656

structure DeviceMessage where
  id : UInt32
  rtr : UInt8
  dlc : UInt8
  data : Vector UInt8 8
  deriving DecidableEq

def DeviceMessage.zero : DeviceMessage := ⟨0, 0, 0, .replicate 8 0⟩

structure SlaveMessage where
  devNum : UInt8
  canIde : UInt8
  dev : Vector DeviceMessage 6
  deriving DecidableEq

def SlaveMessage.zero : SlaveMessage := ⟨0, 0, .replicate 6 .zero⟩

/-- A device's write through its reference to `buff[slave].dev[slot]`. -/
def writeSlot (buff : Vector SlaveMessage n) (slave : Fin n) (slot : Fin 6) (msg : DeviceMessage) :
    Vector SlaveMessage n :=
  Cells.put buff slave { buff.get slave with dev := Cells.put (buff.get slave).dev slot msg }

@[simp] theorem writeSlot_canIde (buff : Vector SlaveMessage n) (slave s : Fin n) (slot : Fin 6)
    (msg : DeviceMessage) : ((writeSlot buff slave slot msg).get s).canIde = (buff.get s).canIde := by
  by_cases h : slave = s
  · subst h; simp [writeSlot]
  · rw [writeSlot, Cells.get_put_ne h]

theorem writeSlot_dev_of_ne {buff : Vector SlaveMessage n} {slave s : Fin n} {slot p : Fin 6}
    (msg : DeviceMessage) (h : slave = s → slot ≠ p) :
    ((writeSlot buff slave slot msg).get s).dev.get p = (buff.get s).dev.get p := by
  by_cases hs : slave = s
  · subst hs
    rw [writeSlot, Cells.get_put_self, Cells.get_put_ne (h rfl)]
  · rw [writeSlot, Cells.get_put_ne hs]

end TienKung
