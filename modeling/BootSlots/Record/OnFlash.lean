import BootSlots.Device.Flash
import BootSlots.Device.Work
import BootSlots.Record.Codec

/-
  The boot record on a flash: reading it, loading it with all checks, and replacing it. The record cannot be
  changed in place: its sector is erased and the new record programmed, and in between there is none.
-/

namespace BootSlots

namespace Flash

/-- The stored record, its slot table unchecked. -/
def storedRecord (f : Flash) : Except RecordFault Record :=
  match f.read recordAddress recordSize with
  | .error _ => .error .readFailed
  | .ok bytes => Record.decode bytes

/-- The stored record, checked against the capacity. -/
def loadRecord (f : Flash) : Except RecordFault Record :=
  match f.storedRecord with
  | .error fault => .error fault
  | .ok r =>
    match r.validate f.capacity with
    | .error fault => .error fault
    | .ok () => .ok r

end Flash

/-- The work that replaces the stored record by one that passes the checks for a flash of that capacity. -/
def Record.saveWork (r : Record) (capacity : Nat) : Work FlashOp (Except RecordFault Unit) :=
  match r.validate capacity with
  | .error fault => .done (.error fault)
  | .ok () =>
    .call (.erase recordSector) fun
      | .error _ => .done (.error .writeFailed)
      | .ok () =>
        .call (.program recordAddress r.encode) fun
          | .error _ => .done (.error .writeFailed)
          | .ok () => .done (.ok ())

namespace Flash

/-- Replaces the stored record by one that passes the checks. -/
def saveRecord (f : Flash) (r : Record) : Except RecordFault Unit × Flash :=
  (r.saveWork f.capacity).run carryOut f

/-- A save step by step: a step that fails leaves the flash as it was. -/
theorem saveRecord_eq (f : Flash) (r : Record) :
    f.saveRecord r =
      match r.validate f.capacity with
      | .error fault => (.error fault, f)
      | .ok () =>
        match f.erase recordSector with
        | .error _ => (.error .writeFailed, f)
        | .ok f =>
          match f.program recordAddress r.encode with
          | .error _ => (.error .writeFailed, f)
          | .ok f => (.ok (), f) := by
  unfold saveRecord Record.saveWork
  cases r.validate f.capacity with
  | error fault => rfl
  | ok _ =>
    cases herase : f.erase recordSector with
    | error fault =>
      dsimp only
      rw [Work.run_call, carryOut_of_error herase]
      rfl
    | ok g =>
      dsimp only
      rw [Work.run_call, carryOut_of_ok herase]
      cases hprogram : g.program recordAddress r.encode with
      | error fault =>
        dsimp only
        rw [Work.run_call, carryOut_of_error hprogram]
        rfl
      | ok g' =>
        dsimp only
        rw [Work.run_call, carryOut_of_ok hprogram]
        rfl

end Flash

end BootSlots
