import BootSlots.Fault
import BootSlots.Geometry
import BootSlots.Record.Mode

/-
  The boot record: the table of image slots and the slot to boot next. A record is sound for a flash size
  when it has one to four slots, each starts on a sector boundary between the first image address and the
  end of the flash, and the selected slot is one of them. A slot's region ends where the next higher slot
  starts, or at the end of the flash.
-/

namespace BootSlots

/-- Mark in front of a stored record. -/
def recordMagic : UInt32 := 0xE1

/-- Version of the record's format. -/
def recordVersion : UInt8 := 1

/-- Slot to boot where no selection can be read. -/
def defaultSlot : UInt8 := 0

structure Record where
  magic : UInt32
  version : UInt8
  mode : Mode
  /-- Slot to boot next. -/
  current : UInt8
  /-- Number of slots in use. -/
  count : UInt8
  /-- Start address of each slot. -/
  addresses : Vector UInt32 maxSlots
deriving DecidableEq

/-- What can be wrong with the record or its storage. -/
inductive RecordFault where
  | readFailed
  | writeFailed
  /-- Wrong magic, version or checksum. -/
  | corrupted
  /-- The slot table breaks a rule. -/
  | invalidLayout
  /-- The selected slot is not in the table. -/
  | invalidSelection
  /-- The slot asked for is not in the table. -/
  | invalidSlot
deriving DecidableEq

namespace RecordFault

/-- Name of the fault as printed in the log. -/
def label : RecordFault → String
  | readFailed => "ReadFailed"
  | writeFailed => "WriteFailed"
  | corrupted => "Corrupted"
  | invalidLayout => "InvalidLayout"
  | invalidSelection => "InvalidSelection"
  | invalidSlot => "InvalidSlot"

def toFault : RecordFault → Fault
  | readFailed => .configReadFailed
  | writeFailed => .configWriteFailed
  | corrupted => .configCorrupted
  | invalidLayout | invalidSelection => .invalidBootConfig
  | invalidSlot => .invalidSlot

end RecordFault

namespace Record

/-- The factory record: one slot right after the record, one as far into the second half of the flash. -/
def factory (flashSize : Nat) : Record where
  magic := recordMagic
  version := recordVersion
  mode := .standard
  current := defaultSlot
  count := 2
  addresses := #v[UInt32.ofNat firstImageAddress, UInt32.ofNat (flashSize / 2 + firstImageAddress), 0, 0]

/-- Start addresses of the slots in use. -/
def configured (r : Record) : List Nat :=
  (r.addresses.toList.take r.count.toNat).map UInt32.toNat

/-- Start address of a slot in use. -/
def address? (r : Record) (slot : UInt8) : Option Nat :=
  r.configured[slot.toNat]?

/-- End of the region that starts at `start`: the lowest slot address above it, or the flash size. -/
def limitOf (r : Record) (flashSize start : Nat) : Nat :=
  (r.configured.filter (start < ·)).foldl min flashSize

/-- End of the region of a slot in use. -/
def limit? (r : Record) (slot : UInt8) (flashSize : Nat) : Option Nat :=
  (r.address? slot).map (r.limitOf flashSize)

/-- Start and end of the region of a slot in use. -/
def region? (r : Record) (slot : UInt8) (flashSize : Nat) : Option (Nat × Nat) :=
  (r.address? slot).map fun start => (start, r.limitOf flashSize start)

/-- A slot may start at this address of a flash of that size. -/
def Startable (flashSize address : Nat) : Prop :=
  address % sectorSize = 0 ∧ firstImageAddress ≤ address ∧ address < flashSize

instance (flashSize address : Nat) : Decidable (Startable flashSize address) :=
  inferInstanceAs (Decidable (_ ∧ _ ∧ _))

/-- The rules of the slot table. -/
def LayoutOk (r : Record) (flashSize : Nat) : Prop :=
  r.count ≠ 0 ∧ r.count.toNat ≤ maxSlots ∧ ∀ a ∈ r.configured, Startable flashSize a

instance (r : Record) (flashSize : Nat) : Decidable (r.LayoutOk flashSize) :=
  inferInstanceAs (Decidable (_ ∧ _ ∧ _))

/-- Checks the slot table, then the selection. -/
def validate (r : Record) (flashSize : Nat) : Except RecordFault Unit :=
  if ¬ r.LayoutOk flashSize then .error .invalidLayout
  else if r.count ≤ r.current then .error .invalidSelection
  else .ok ()

/-- The same record with another selection. -/
def select (r : Record) (slot : UInt8) : Record :=
  { r with current := slot }

/-! ## First facts -/

theorem validate_eq_ok_iff (r : Record) (flashSize : Nat) :
    r.validate flashSize = .ok () ↔ r.LayoutOk flashSize ∧ r.current < r.count := by
  unfold validate
  split
  · rename_i h
    exact ⟨nofun, fun h' => absurd h'.1 h⟩
  · rename_i h
    have h := Decidable.of_not_not h
    split
    · rename_i hc
      exact ⟨nofun, fun h' => absurd h'.2 (UInt8.not_lt.mpr hc)⟩
    · rename_i hc
      exact ⟨fun _ => ⟨h, UInt8.not_le.mp hc⟩, fun _ => rfl⟩

@[simp] theorem configured_select (r : Record) (slot : UInt8) :
    (r.select slot).configured = r.configured := rfl

theorem layoutOk_select (r : Record) (slot : UInt8) (flashSize : Nat) :
    (r.select slot).LayoutOk flashSize ↔ r.LayoutOk flashSize := Iff.rfl

theorem length_configured (r : Record) :
    r.configured.length = min r.count.toNat maxSlots := by
  simp [configured]

end Record

end BootSlots
