/-
  Settings of the update engine, in three sections. They are fixed when the boot loader is built.
-/

namespace BootSlots

/-- Settings of update sessions. -/
structure UpdateSettings where
  /-- Refuse bytes beyond the size declared when the session started, if one was declared. -/
  enforceDeclaredSize : Bool := true
deriving DecidableEq

/-- Settings of the factory reset: the blinks that confirm it. -/
structure ResetSettings where
  blinkCount : UInt8 := 5
  /-- Time on, and time off, of each blink in milliseconds. -/
  blinkDelay : UInt32 := 100
deriving DecidableEq

/-- Settings of the flash layout. -/
structure LayoutSettings where
  /-- Flash size to assume where the device tells none. -/
  defaultFlashSize : Nat := 0x100000
deriving DecidableEq

structure Settings where
  update : UpdateSettings := {}
  reset : ResetSettings := {}
  layout : LayoutSettings := {}
deriving DecidableEq

end BootSlots
