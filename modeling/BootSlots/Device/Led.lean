import BootSlots.Device.Fault
import BootSlots.Device.Indicator

/-
  An LED on a pin as the indicator. The pin keeps the levels it was driven to, the clock the time that was
  waited. A pin that is no output refuses to be driven, and the LED goes on without it. The clock has 64 bits
  and no number for a time that does not fit: such a wait has no result, and neither has a signal with it.
-/

namespace BootSlots

/-- Level of the pin at which the LED is lit. -/
inductive Polarity where
  | activeHigh
  | activeLow
deriving DecidableEq

/-- Pin level for a lit or dark LED; `true` is high. -/
def Polarity.level : Polarity → Bool → Bool
  | activeHigh, lit => lit
  | activeLow, lit => !lit

structure Pin where
  /-- Set up as an output. -/
  output : Bool := false
  /-- Levels it was driven to, in order; `true` is high. -/
  levels : Array Bool := #[]

namespace Pin

def setOutput (p : Pin) : Pin :=
  { p with output := true }

def drive (p : Pin) (level : Bool) : Except DeviceFault Pin :=
  if p.output then .ok { p with levels := p.levels.push level } else .error .gpioError

end Pin

/-- Longest wait that the clock takes at once, in microseconds. -/
def longestWait : Nat := 0xFFFFFFFF

structure Led where
  polarity : Polarity
  pin : Pin := {}
  /-- Time waited so far, in microseconds. -/
  waited : UInt64 := 0

namespace Led

/-- Waits, if the clock can tell the time after it. -/
def waitMicros (led : Led) (micros : UInt32) : Option Led :=
  if led.waited.toNat + micros.toNat < UInt64.size then
    some { led with waited := led.waited + micros.toUInt64 }
  else none

/-- Waits that many milliseconds, at most the longest wait. -/
def waitMillis (led : Led) (millis : UInt32) : Option Led :=
  led.waitMicros (UInt32.ofNat (min (millis.toNat * 1000) longestWait))

/-- Lights or darkens the LED; nothing happens on a pin that refuses. -/
def light (led : Led) (lit : Bool) : Led :=
  match led.pin.drive (led.polarity.level lit) with
  | .ok pin => { led with pin }
  | .error _ => led

/-- Blinks `count` times; no wait follows the last blink. -/
def blink (led : Led) (delay : UInt32) : Nat → Option Led
  | 0 => some led
  | count + 1 => do
    let led ← (led.light true).waitMillis delay
    let led := led.light false
    match count with
    | 0 => some led
    | _ => (← led.waitMillis delay).blink delay count

/-- Shows one signal. -/
def give (led : Led) : Signal → Option Led
  | .init => some ({ led with pin := led.pin.setOutput }.light false)
  | .on => some (led.light true)
  | .off => some (led.light false)
  | .blink count delay => led.blink delay count.toNat

end Led

end BootSlots
