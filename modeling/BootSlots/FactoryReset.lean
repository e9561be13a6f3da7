import BootSlots.Device.Indicator
import BootSlots.Device.Scratch
import BootSlots.Device.Work
import BootSlots.Log.Basic
import BootSlots.Record.Store
import BootSlots.Settings

/-
  The factory reset. An application asks for it by a word in scratch memory and restarts the device. The
  reset blinks, writes the factory record for the flash size that the identity word tells, clears the word
  and restarts again. Images stay where they are; only slot table and selection go back to the factory's.
-/

namespace BootSlots

/-- Lowest identity byte of 16 Mbit flash. -/
def flashId16Mbit : UInt8 := 0x40

/-- Lowest identity byte of 32 Mbit flash. -/
def flashId32Mbit : UInt8 := 0x30

structure FactoryReset where
  scratch : Scratch
  indicator : Indicator
  settings : ResetSettings := {}
  layout : LayoutSettings := {}
  log : Log := .empty

namespace FactoryReset

/-- Name under which the reset logs. -/
def component : String := "reset"

/-- Whether a reset is asked for; a word that cannot be read asks for none. -/
def requested (r : FactoryReset) : Bool :=
  match r.scratch.readWord resetFlagOffset with
  | .ok word => word == resetMagic
  | .error _ => false

/-- The work that asks for a reset, or takes the request back. -/
def requestWork (on : Bool) : Work Scratch.WordWrite (Except Fault Unit) :=
  .call ⟨resetFlagOffset, if on then resetMagic else 0⟩ fun
    | .error fault => .done (.error fault.toFault)
    | .ok () => .done (.ok ())

/-- Asks for a reset, or takes the request back. -/
def request (r : FactoryReset) (on : Bool) : Except Fault Unit × FactoryReset :=
  let (answer, scratch) := (requestWork on).run Scratch.carryOut r.scratch
  (answer, { r with scratch })

/-- Flash size by the identity word; the default where the word is unknown or cannot be read. -/
def probeSize (r : FactoryReset) (flash : Flash) : Nat :=
  match flash.identityWord with
  | .ok word =>
    if word.toUInt8 = flashId16Mbit then 0x200000
    else if word.toUInt8 = flashId32Mbit then 0x400000
    else r.layout.defaultFlashSize
  | .error _ => r.layout.defaultFlashSize

/-- Shows a signal on the indicator. -/
def signal (r : FactoryReset) (s : Signal) : FactoryReset :=
  { r with indicator := r.indicator.give s }

/-- One step of a reset: it signals, changes the flash or the scratch memory, or logs. -/
inductive Step where
  | signal (s : Signal)
  | flash (op : FlashOp)
  | scratch (write : Scratch.WordWrite)
  | info (message : String)

/-- Takes a step: the answer, and the reset and its store after it. Signals and log lines do not fail. -/
def take (d : FactoryReset × Store) : Step → Except DeviceFault Unit × FactoryReset × Store
  | .signal s => (.ok (), d.1.signal s, d.2)
  | .flash op => ((d.2.flash.carryOut op).1, d.1, { d.2 with flash := (d.2.flash.carryOut op).2 })
  | .scratch write =>
    ((d.1.scratch.carryOut write).1, { d.1 with scratch := (d.1.scratch.carryOut write).2 }, d.2)
  | .info message => (.ok (), { d.1 with log := d.1.log.info component message }, d.2)

/-- The steps once the factory record for that size is stored: the request is taken back. -/
def clearWork (size : Nat) : Work Step (Except Fault Record) :=
  ((requestWork false).mapCalls .scratch).bind fun
    | .error fault => .done (.error fault)
    | .ok () =>
      .call (.info ("defaults restored for " ++ Text.hex size ++ " bytes")) fun _ => .done (.ok (.factory size))

/-- The steps of a reset up to the restart. The record comes first, so a request is gone only when it was met. -/
def prepareWork (r : FactoryReset) (store : Store) : Work Step (Except Fault Record) :=
  let size := r.probeSize store.flash
  .call (.signal (.blink r.settings.blinkCount r.settings.blinkDelay)) fun _ =>
    (((Record.factory size).saveWork store.flash.capacity).mapCalls .flash).bind fun
      | .error fault => .done (.error fault.toFault)
      | .ok () => clearWork size

/-- The reset up to the restart. -/
def prepare (r : FactoryReset) (store : Store) : Except Fault Record × FactoryReset × Store :=
  (r.prepareWork store).run take (r, store)

/-- The whole reset; the device restarts after it. A request that could not be met is taken back too. -/
def perform (r : FactoryReset) (store : Store) : FactoryReset × Store :=
  match r.prepare store with
  | (.ok _, r, store) => (r, store)
  | (.error fault, r, store) =>
    let r := { r with log := r.log.error component ("reset failed: " ++ fault.message) }
    match r.request false with
    | (.ok (), r) => (r, store)
    | (.error _, r) =>
      ({ r with log := r.log.warn component "could not clear reset flag" }, store)

/-! ## The work of a reset -/

theorem run_flashWork {α : Type} (w : Work FlashOp α) (r : FactoryReset) (store : Store) :
    (w.mapCalls .flash).run take (r, store) =
      ((w.run Flash.carryOut store.flash).1,
        r, { store with flash := (w.run Flash.carryOut store.flash).2 }) :=
  Work.run_mapCalls (fun flash => (r, { store with flash })) (fun _ _ => rfl) w store.flash

theorem run_scratchWork {α : Type} (w : Work Scratch.WordWrite α) (r : FactoryReset) (store : Store) :
    (w.mapCalls .scratch).run take (r, store) =
      ((w.run Scratch.carryOut r.scratch).1,
        { r with scratch := (w.run Scratch.carryOut r.scratch).2 }, store) :=
  Work.run_mapCalls (fun scratch => ({ r with scratch }, store)) (fun _ _ => rfl) w r.scratch

/-- A request that is refused leaves everything as it was. -/
theorem request_eq (r : FactoryReset) (on : Bool) :
    r.request on =
      match r.scratch.writeWord resetFlagOffset (if on then resetMagic else 0) with
      | .error fault => (.error fault.toFault, r)
      | .ok scratch => (.ok (), { r with scratch }) := by
  rw [request, requestWork, Work.run_call, Scratch.carryOut]
  cases r.scratch.writeWord resetFlagOffset (if on then resetMagic else 0) <;> rfl

/-- The save comes first, then the request is taken back. -/
theorem prepare_eq (r : FactoryReset) (store : Store) :
    r.prepare store =
      let r := r.signal (.blink r.settings.blinkCount r.settings.blinkDelay)
      let size := r.probeSize store.flash
      match store.save (.factory size) with
      | (.error fault, store) => (.error fault.toFault, r, store)
      | (.ok (), store) =>
        match r.request false with
        | (.error fault, r) => (.error fault, r, store)
        | (.ok (), r) =>
          (.ok (.factory size),
            { r with log := r.log.info component ("defaults restored for " ++ Text.hex size ++ " bytes") },
            store) := by
  have hsize (s : Signal) : (r.signal s).probeSize store.flash = r.probeSize store.flash := rfl
  unfold prepare prepareWork Store.save Flash.saveRecord request
  dsimp only
  rw [Work.run_call, take, Work.run_bind, run_flashWork, hsize]
  dsimp only
  obtain ⟨saved, flash⟩ := ((Record.factory _).saveWork store.flash.capacity).run Flash.carryOut store.flash
  cases saved with
  | error fault => rfl
  | ok _ =>
    dsimp only
    rw [clearWork, Work.run_bind, run_scratchWork]
    dsimp only
    obtain ⟨answer, scratch⟩ := (requestWork false).run Scratch.carryOut _
    cases answer <;> rfl

end FactoryReset

end BootSlots
