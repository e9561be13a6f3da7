import BootSlots.Fault

/-
  The faults of single devices (flash, scratch memory, pins) and the engine faults they count as. A call to a
  device has an answer and leaves the device in some state, whether it succeeds or not.
-/

namespace BootSlots

inductive DeviceFault where
  | flashReadFailed
  | flashEraseFailed
  | flashWriteFailed
  /-- A flash address or sector beyond the device. -/
  | flashOutOfBounds
  | scratchOutOfBounds
  /-- A scratch access that does not keep to whole words. -/
  | scratchMisaligned
  | gpioError
deriving DecidableEq

namespace DeviceFault

def code : DeviceFault → Nat
  | flashReadFailed => 0x0311
  | flashEraseFailed => 0x0312
  | flashWriteFailed => 0x0313
  | flashOutOfBounds => 0x0314
  | scratchOutOfBounds => 0x0321
  | scratchMisaligned => 0x0322
  | gpioError => 0x0331

def description : DeviceFault → String
  | flashReadFailed => "flash read failed"
  | flashEraseFailed => "flash erase failed"
  | flashWriteFailed => "flash write failed"
  | flashOutOfBounds => "flash address out of bounds"
  | scratchOutOfBounds => "scratch memory out of bounds"
  | scratchMisaligned => "scratch memory access misaligned"
  | gpioError => "GPIO error"

/-- The line that is printed for a fault: its code in brackets, then its description. -/
def message (f : DeviceFault) : String :=
  "[0x" ++ Text.code f.code ++ "] " ++ f.description

def toFault : DeviceFault → Fault
  | flashEraseFailed => .eraseFailed
  | flashWriteFailed => .writeFailed
  | flashReadFailed | flashOutOfBounds => .flashError
  | scratchOutOfBounds | scratchMisaligned => .scratchMemoryError
  | gpioError => .gpioError

end DeviceFault

/-- The device after a call, if the call succeeds. -/
def onSuccess {σ : Type} : Except DeviceFault Unit × σ → Except DeviceFault σ
  | (.ok (), device) => .ok device
  | (.error fault, _) => .error fault

end BootSlots
