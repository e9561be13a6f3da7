import BootSlots.Startup
import BootSlots.Update.Engine

/-
  A board: one flash, one scratch memory and one indicator, and four components that share them. Each
  component keeps its own log. A component is taken off the board with the devices as they are, and put
  back with the devices as it left them.
-/

namespace BootSlots

structure Board where
  flash : Flash
  scratch : Scratch := .zeroed
  indicator : Indicator := {}
  settings : Settings := {}
  /-- Log of the record store. -/
  storeLog : Log := .empty
  engine : Engine
  reset : FactoryReset
  startup : Startup

namespace Board

/-- The record store on the board's flash. -/
def store (b : Board) : Store :=
  ⟨b.flash, b.storeLog⟩

def withStore (b : Board) (s : Store) : Board :=
  { b with flash := s.flash, storeLog := s.log }

/-- The update engine on the board's flash. -/
def mountedEngine (b : Board) : Engine :=
  { b.engine with store := { b.engine.store with flash := b.flash } }

def withEngine (b : Board) (e : Engine) : Board :=
  { b with engine := e, flash := e.store.flash }

/-- The factory reset on the board's scratch memory and indicator. -/
def mountedReset (b : Board) : FactoryReset :=
  { b.reset with scratch := b.scratch, indicator := b.indicator }

def withReset (b : Board) (r : FactoryReset) : Board :=
  { b with reset := r, scratch := r.scratch, indicator := r.indicator }

/-- The start-up sequence on all of the board's devices. -/
def mountedStartup (b : Board) : Startup :=
  { b.startup with
    store := { b.startup.store with flash := b.flash }
    reset := { b.startup.reset with scratch := b.scratch, indicator := b.indicator } }

def withStartup (b : Board) (s : Startup) : Board :=
  { b with
    startup := s
    flash := s.store.flash
    scratch := s.reset.scratch
    indicator := s.reset.indicator }

/-- A factory reset as built from the settings. -/
def freshReset (scratch : Scratch) (indicator : Indicator) (settings : Settings) : FactoryReset :=
  { scratch, indicator, settings := settings.reset, layout := settings.layout }

/-- A start-up sequence as built from the settings. -/
def freshStartup (flash : Flash) (scratch : Scratch) (indicator : Indicator) (settings : Settings) :
    Startup :=
  { store := { flash }, reset := freshReset scratch indicator settings, layout := settings.layout }

/-- An update engine as built from the settings, with a zeroed arena. -/
def freshEngine (flash : Flash) (arenaSize : Nat) (settings : Settings) : Engine :=
  { store := { flash }, arena := Array.replicate arenaSize 0, settings := settings.update }

/-- A board right after it was put together. -/
def assemble (flash : Flash) (arenaSize : Nat) (settings : Settings) : Board where
  flash
  settings
  engine := freshEngine flash arenaSize settings
  reset := freshReset .zeroed {} settings
  startup := freshStartup flash .zeroed {} settings

/-- Builds all components anew; the devices stay as they are. -/
def restart (b : Board) : Board :=
  { b with
    storeLog := .empty
    engine := freshEngine b.flash b.engine.arena.size b.settings
    reset := freshReset b.scratch b.indicator b.settings
    startup := freshStartup b.flash b.scratch b.indicator b.settings }

/-- Takes the engine's store and arena over into a new engine: no session, numbers from 1, an empty log. -/
def renewEngine (b : Board) : Board :=
  { b with engine := { store := b.engine.store, arena := b.engine.arena, settings := b.settings.update } }

/-- Opens the record store anew, with an empty log. -/
def reopenStore (b : Board) : Board :=
  { b with storeLog := .empty }

/-- Puts a new start-up sequence in place of the old one. -/
def renewStartup (b : Board) : Board :=
  { b with startup := freshStartup b.flash b.scratch b.indicator b.settings }

end Board

end BootSlots
