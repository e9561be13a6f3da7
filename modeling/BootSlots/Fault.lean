import BootSlots.Text.Number

/-
  The faults that the engine as a whole reports, with their codes: 0x01xx for updates, 0x02xx for the
  boot record, 0x03xx for devices.
-/

namespace BootSlots

inductive Fault where
  /-- A bad slot, no data, or an operation that the session's phase forbids. -/
  | invalidArgs
  /-- The staging memory cannot be used. -/
  | noMemory
  | updateInProgress
  | eraseFailed
  | writeFailed
  | verifyFailed
  | configReadFailed
  | configWriteFailed
  /-- The stored record has a wrong magic, version or checksum. -/
  | configCorrupted
  /-- The record breaks a rule of the slot table. -/
  | invalidBootConfig
  | invalidSlot
  | flashError
  | scratchMemoryError
  | gpioError
deriving DecidableEq

namespace Fault

def code : Fault → Nat
  | invalidArgs => 0x0101
  | noMemory => 0x0102
  | updateInProgress => 0x0103
  | eraseFailed => 0x0104
  | writeFailed => 0x0105
  | verifyFailed => 0x0106
  | configReadFailed => 0x0201
  | configWriteFailed => 0x0202
  | configCorrupted => 0x0203
  | invalidBootConfig => 0x0204
  | invalidSlot => 0x0205
  | flashError => 0x0301
  | scratchMemoryError => 0x0302
  | gpioError => 0x0303

def description : Fault → String
  | invalidArgs => "invalid arguments"
  | noMemory => "no scratch memory"
  | updateInProgress => "update in progress"
  | eraseFailed => "flash erase failed"
  | writeFailed => "flash write failed"
  | verifyFailed => "image verification failed"
  | configReadFailed => "boot config read failed"
  | configWriteFailed => "boot config write failed"
  | configCorrupted => "boot config corrupted"
  | invalidBootConfig => "invalid boot config"
  | invalidSlot => "invalid slot"
  | flashError => "flash error"
  | scratchMemoryError => "scratch memory error"
  | gpioError => "GPIO error"

/-- The flash may be left half changed: the session has to be cancelled, the record may be blank. -/
def isFlashFault : Fault → Bool
  | eraseFailed | writeFailed | configWriteFailed | flashError => true
  | _ => false

/-- The line that is printed for a fault: its code in brackets, then its description. -/
def message (f : Fault) : String :=
  "[0x" ++ Text.code f.code ++ "] " ++ f.description

end Fault

end BootSlots
