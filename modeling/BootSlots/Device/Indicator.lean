/-
  The status indicator: the signals that the engine can show. An indicator keeps the signals it was given.
-/

namespace BootSlots

inductive Signal where
  /-- Set the indicator up and switch it off. -/
  | init
  | on
  | off
  /-- Blink `count` times, `delay` milliseconds on and `delay` off between the blinks. -/
  | blink (count : UInt8) (delay : UInt32)
deriving DecidableEq

/-- An indicator as the record of its signals, in order. -/
structure Indicator where
  signals : Array Signal := #[]

namespace Indicator

def give (i : Indicator) (s : Signal) : Indicator :=
  { i with signals := i.signals.push s }

/-- Lit exactly when the last signal was `on`; a blink ends dark. -/
def isOn (i : Indicator) : Bool :=
  i.signals.back? == some .on

@[simp] theorem isOn_give (i : Indicator) (s : Signal) : (i.give s).isOn = (s == .on) := by
  simp [isOn, give]

end Indicator

end BootSlots
