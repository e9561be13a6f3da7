import BootSlots.Log.Basic
import BootSlots.Record.OnFlash

/-
  The record store: a flash with the log of what was done to the record on it. It answers which slot is
  selected and where slots lie, changes the selection, and repairs a record that cannot be used.
-/

namespace BootSlots

structure Store where
  flash : Flash
  log : Log := .empty

/-- What a repair had to do. -/
inductive Repair where
  /-- The stored record was sound. -/
  | kept
  /-- No usable record was stored; the factory record was written. -/
  | defaults
  /-- The selection was out of range; the default slot was selected. -/
  | selection
deriving DecidableEq

namespace Store

/-- Name under which the store logs. -/
def component : String := "config"

/-- The stored record, its slot table unchecked. -/
def stored (s : Store) : Except RecordFault Record :=
  s.flash.storedRecord

/-- The stored record, checked. -/
def load (s : Store) : Except RecordFault Record :=
  s.flash.loadRecord

/-- Replaces the stored record. -/
def save (s : Store) (r : Record) : Except RecordFault Unit × Store :=
  ((s.flash.saveRecord r).1, { s with flash := (s.flash.saveRecord r).2 })

/-- Slot to boot next; the default slot, with a warning, where no sound record is stored. -/
def currentSlot (s : Store) : UInt8 × Store :=
  match s.load with
  | .ok r => (r.current, s)
  | .error fault =>
    (defaultSlot, { s with
      log := s.log.warn component
        ("unreadable (" ++ fault.label ++ s!"), assuming slot {defaultSlot.toNat}") })

/-- Selects `slot` for the next boot; nothing changes if the slot is not in use. -/
def selectSlot (s : Store) (slot : UInt8) : Except RecordFault Unit × Store :=
  match s.load with
  | .error fault => (.error fault, s)
  | .ok r =>
    if r.count ≤ slot then (.error .invalidSlot, s)
    else
      match s.save (r.select slot) with
      | (.error fault, s) => (.error fault, s)
      | (.ok (), s) =>
        (.ok (), { s with log := s.log.info component s!"boot slot set to {slot.toNat}" })

/-- Start address of a slot in use. -/
def address? (s : Store) (slot : UInt8) : Option Nat :=
  match s.load with
  | .ok r => r.address? slot
  | .error _ => none

/-- Start and end of the region an image in `slot` may fill. -/
def region? (s : Store) (slot : UInt8) : Option (Nat × Nat) :=
  match s.load with
  | .ok r => r.region? slot s.flash.capacity
  | .error _ => none

/-- Writes the factory record for a flash of that size. -/
def restoreDefaults (s : Store) (flashSize : Nat) : Except RecordFault (Record × Repair) × Store :=
  let s := { s with
    log := s.log.info component ("writing default config for " ++ Text.hex flashSize ++ " bytes") }
  match s.save (.factory flashSize) with
  | (.error fault, s) => (.error fault, s)
  | (.ok (), s) => (.ok (.factory flashSize, .defaults), s)

/--
Makes sure that a sound record is stored. An out-of-range selection is reset; any other defect, and a
missing record, brings the factory record for `flashSize`. A record that cannot be read is left alone.
-/
def ensureValid (s : Store) (flashSize : Nat) : Except RecordFault (Record × Repair) × Store :=
  match s.stored with
  | .error .readFailed => (.error .readFailed, s)
  | .error _ => s.restoreDefaults flashSize
  | .ok r =>
    match r.validate s.flash.capacity with
    | .ok () => (.ok (r, .kept), s)
    | .error .invalidSelection =>
      let s := { s with
        log := s.log.warn component
          s!"slot {r.current.toNat} invalid, defaulting to {defaultSlot.toNat}" }
      match s.save (r.select defaultSlot) with
      | (.error fault, s) => (.error fault, s)
      | (.ok (), s) => (.ok (r.select defaultSlot, .selection), s)
    | .error _ => s.restoreDefaults flashSize

end Store

end BootSlots
