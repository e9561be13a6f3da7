/-
  Mode flags of the boot record. The image locator interprets them; the engine only carries them along.
-/

namespace BootSlots

structure Mode where
  bits : UInt8
deriving DecidableEq

namespace Mode

/-- Boot the selected slot. -/
def standard : Mode := ⟨0x00⟩

/-- A strap on a pin selects the slot. -/
def gpioSlot : Mode := ⟨0x01⟩

/-- Boot a temporary slot once. -/
def temporarySlot : Mode := ⟨0x02⟩

/-- A boot by strap also erases the vendor's settings sectors. -/
def gpioErasesSettings : Mode := ⟨0x04⟩

/-- A strap on a pin advances to the next slot. -/
def gpioSkip : Mode := ⟨0x08⟩

/-- Whether all flags of `other` are set. -/
def contains (m other : Mode) : Bool :=
  m.bits &&& other.bits == other.bits

end Mode

end BootSlots
