import BootSlots.FactoryReset
import BootSlots.Image.Check

/-
  What runs before an image is booted: a pending factory reset, which ends in a restart; otherwise the flash
  size is told, the boot record is made sound, and the indicator goes on.
-/

namespace BootSlots

/-- Flash size that the image at address 0 declares, or `fallback`; never more than the capacity. -/
def Flash.bootSize (f : Flash) (fallback : Nat) : Nat :=
  let declared :=
    match Image.readHeader f 0 with
    | .ok header => if header.isValid then header.flashSize else fallback
    | .error _ => fallback
  min declared f.capacity

structure Startup where
  store : Store
  reset : FactoryReset
  layout : LayoutSettings := {}
  log : Log := .empty

namespace Startup

/-- Name under which the start-up logs. -/
def component : String := "boot"

/-- What is handed on to the image locator. -/
structure Report where
  record : Record
  /-- Flash size that the start-up told. -/
  flashSize : Nat
  repair : Repair
deriving DecidableEq

inductive Outcome where
  | booting (report : Report)
  | failed (fault : Fault)
  | restarted
deriving DecidableEq

def warn (s : Startup) (text : String) : Startup :=
  { s with log := s.log.warn component text }

def info (s : Startup) (text : String) : Startup :=
  { s with log := s.log.info component text }

/-- Shows a signal on the indicator. -/
def signal (s : Startup) (sig : Signal) : Startup :=
  { s with reset := s.reset.signal sig }

/-- Logs what a repair had to do. -/
def noteRepair (s : Startup) (r : Record) : Repair → Startup
  | .kept => s
  | .defaults => s.warn "no valid config, defaults written"
  | .selection => s.warn s!"boot selection reset to slot {r.current.toNat}"

/-- The sequence without a pending reset. -/
def boot (s : Startup) : Outcome × Startup :=
  let size := s.store.flash.bootSize s.layout.defaultFlashSize
  match s.store.ensureValid size with
  | (.error fault, store) => (.failed fault.toFault, { s with store })
  | (.ok (record, repair), store) =>
    let s := ({ s with store }.noteRepair record repair).signal .on
    (.booting ⟨record, size, repair⟩,
      s.info (s!"booting slot {record.current.toNat} at " ++
        Text.hex ((record.address? record.current).getD 0)))

/-- The whole sequence. -/
def run (s : Startup) : Outcome × Startup :=
  let s := s.signal .init
  if s.reset.requested then
    let s := s.info "factory reset requested"
    (.restarted, { s with
      reset := (s.reset.perform s.store).1
      store := (s.reset.perform s.store).2 })
  else s.boot

end Startup

end BootSlots
