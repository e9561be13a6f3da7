import BootSlots.Device.Led
import BootSlots.Proofs.Device.CheckedNumbers

/-
  What signals make of an LED. Each signal has a pattern of lit and dark and takes a time, and neither knows of
  the polarity of the LED or of the levels so far. A pin that is no output shows nothing until an `init` sets it
  up, and a blink takes its time all the same. The clock has 64 bits: a history has a result as long as they
  tell the time after it, and it is the time alone that decides.

  Proved:
  * `later_bind`: waits add up, whatever is shown between them.
  * `blink_eq`: the rounds of a blink as one pattern and one time, by induction on their number.
  * `give_eq`, `after_eq`: one signal, and a history of signals.
  * `blink?_eq`: a blink by numbers of fixed width.
  * `signals_by_polarity`: the levels of a blink, and of a history under either polarity, wherever the clock can
    tell the time.
  * `wait_past_clock`: a wait for which the clock has no number, and a wait on a pin that is no output.
-/

namespace BootSlots

/-! ## Patterns and times -/

/-- Lit and dark, `count` times. -/
def blinks (count : Nat) : List Bool :=
  (List.replicate count [true, false]).flatten

/-- Time that `count` blinks take: a wait while lit, and a wait in the dark before the next one. -/
def blinkMicros (count delay : Nat) : Nat :=
  (2 * count - 1) * min (delay * 1000) longestWait

theorem blinkMicros_one (delay : Nat) : blinkMicros 1 delay = min (delay * 1000) longestWait := by
  simp [blinkMicros]

theorem blinkMicros_add_two (count delay : Nat) : blinkMicros (count + 2) delay =
    min (delay * 1000) longestWait + min (delay * 1000) longestWait + blinkMicros (count + 1) delay := by
  have hcount : 2 * (count + 2) - 1 = 1 + 1 + (2 * (count + 1) - 1) := by omega
  rw [blinkMicros, blinkMicros, hcount, Nat.add_mul, Nat.add_mul, Nat.one_mul]

namespace Signal

/-- What a signal shows; `true` is lit. -/
def pattern : Signal → List Bool
  | .init | .off => [false]
  | .on => [true]
  | .blink count _ => blinks count.toNat

/-- Time that a signal takes, in microseconds. -/
def micros : Signal → Nat
  | .blink count delay => blinkMicros count.toNat delay.toNat
  | _ => 0

/-- Whether a signal makes the pin an output. -/
def setsUp : Signal → Bool
  | .init => true
  | _ => false

end Signal

namespace Led

/-- Drives the pin by a pattern, if it is an output. -/
def shown (led : Led) (lits : List Bool) : Led :=
  if led.pin.output then
    { led with pin := { led.pin with
        levels := led.pin.levels ++ (lits.map led.polarity.level).toArray } }
  else led

/-- The LED with its clock moved on, if the clock can tell the time. -/
def later (led : Led) (micros : Nat) : Option Led :=
  if led.waited.toNat + micros < UInt64.size then
    some { led with waited := UInt64.ofNat (led.waited.toNat + micros) }
  else none

variable (led : Led)

/-! ## Levels and time -/

@[simp] theorem shown_shown (lits lits' : List Bool) :
    (led.shown lits).shown lits' = led.shown (lits ++ lits') := by
  unfold shown
  split <;> simp [*]

@[simp] theorem light_eq (lit : Bool) : led.light lit = led.shown [lit] := by
  unfold light shown Pin.drive
  cases h : led.pin.output <;> simp [h]

theorem shown_waited (waited : UInt64) (lits : List Bool) :
    ({ led with waited } : Led).shown lits = { led.shown lits with waited } := by
  unfold shown
  split <;> rfl

theorem later_of_lt {micros : Nat} (h : led.waited.toNat + micros < UInt64.size) :
    led.later micros = some { led with waited := UInt64.ofNat (led.waited.toNat + micros) } :=
  if_pos h

theorem later_eq_none_iff (micros : Nat) :
    led.later micros = none ↔ UInt64.size ≤ led.waited.toNat + micros := by
  unfold later
  split <;> simp <;> omega

@[simp] theorem later_zero : led.later 0 = some led := by
  rw [later_of_lt led led.waited.toNat_lt, Nat.add_zero, UInt64.ofNat_toNat]

/-- Waits add up, also around a change of the LED that neither reads the clock nor sets it. -/
theorem later_bind (change : Led → Led) (micros micros' : Nat)
    (hchange : ∀ (l : Led) (waited : UInt64), change { l with waited } = { change l with waited }) :
    ((led.later micros).bind fun l => (change l).later micros') =
      (change led).later (micros + micros') := by
  have hsame : (change led).waited = led.waited := (congrArg Led.waited (hchange led led.waited) :)
  unfold later
  rw [hsame]
  by_cases hfirst : led.waited.toNat + micros < UInt64.size
  · rw [if_pos hfirst, Option.bind_some, hchange]
    have htold : (UInt64.ofNat (led.waited.toNat + micros)).toNat = led.waited.toNat + micros :=
      UInt64.toNat_ofNat_of_lt' hfirst
    dsimp only
    rw [htold, Nat.add_assoc]
  · rw [if_neg hfirst, if_neg (by omega)]
    rfl

/-- Waits around a pattern. -/
theorem later_bind_shown (micros micros' : Nat) (lits : List Bool) :
    ((led.later micros).bind fun l => (l.shown lits).later micros') =
      (led.shown lits).later (micros + micros') :=
  led.later_bind (·.shown lits) micros micros' fun l waited => l.shown_waited waited lits

theorem waitMicros_eq (micros : UInt32) : led.waitMicros micros = led.later micros.toNat := by
  have hsum : led.waited + micros.toUInt64 = UInt64.ofNat (led.waited.toNat + micros.toNat) := by
    apply UInt64.toNat_inj.mp
    rw [UInt64.toNat_add, UInt32.toNat_toUInt64, UInt64.toNat_ofNat']
  rw [waitMicros, hsum, later]

theorem waitMillis_eq (millis : UInt32) :
    led.waitMillis millis = led.later (min (millis.toNat * 1000) longestWait) := by
  have hword : min (millis.toNat * 1000) longestWait < UInt32.size :=
    Nat.lt_of_le_of_lt (Nat.min_le_right _ _) (by decide)
  rw [waitMillis, waitMicros_eq, UInt32.toNat_ofNat_of_lt' hword]

/-! ## Blinks -/

theorem blink_one (delay : UInt32) : led.blink delay 1 =
    ((led.light true).waitMillis delay).bind fun l => some (l.light false) := rfl

theorem blink_add_two (delay : UInt32) (count : Nat) : led.blink delay (count + 2) =
    ((led.light true).waitMillis delay).bind fun l =>
      ((l.light false).waitMillis delay).bind fun l => l.blink delay (count + 1) := rfl

/-- A blink shows its pattern and takes its time; by induction on the number of rounds, of which only the last
has no wait in the dark. -/
theorem blink_eq (delay : UInt32) (count : Nat) :
    led.blink delay count = (led.shown (blinks count)).later (blinkMicros count delay.toNat) := by
  induction count generalizing led with
  | zero => simp [blink, blinks, blinkMicros, shown]
  | succ count ih =>
    cases count with
    | zero =>
      have hlast (l : Led) : some (l.shown [false]) = (l.shown [false]).later 0 := (l.shown _).later_zero.symm
      simp only [Nat.zero_add, blink_one, waitMillis_eq, light_eq, hlast, later_bind_shown, Nat.add_zero,
        shown_shown, blinkMicros_one]
      rfl
    | succ count =>
      have hblinks : blinks (count + 2) = [true] ++ ([false] ++ blinks (count + 1)) := rfl
      simp only [blink_add_two, ih, waitMillis_eq, light_eq, later_bind_shown, shown_shown, hblinks,
        blinkMicros_add_two, Nat.add_assoc]

/-! ## Blinks by numbers of fixed width -/

/-- Waits by words; the clock has 64 bits. -/
def wait? (led : Led) (millis : UInt32) : Option Led := do
  let micros ← word? (min (millis.toNat * 1000) longestWait)
  let waited ← held? UInt64.size (led.waited.toNat + micros)
  some { led with waited := UInt64.ofNat waited }

/-- One round of `count`, counted by a byte. -/
def blinkRound? (delay : UInt32) (count : Nat) (led : Led) (i : Nat) : Option Led := do
  let led ← (led.light true).wait? delay
  let led := led.light false
  let next ← held? UInt8.size (i + 1)
  if next < count then led.wait? delay else some led

def blink? (led : Led) (delay : UInt32) (count : Nat) : Option Led :=
  (List.range count).foldlM (blinkRound? delay count) led

variable {led : Led} {delay : UInt32}

theorem wait?_eq : led.wait? delay = led.waitMillis delay := by
  have hmicros : min (delay.toNat * 1000) longestWait < addressSpace :=
    Nat.lt_of_le_of_lt (Nat.min_le_right _ _) (by decide)
  simp only [waitMillis_eq, wait?, word?_of_lt hmicros, later, held?, Option.bind_eq_bind, Option.bind_some]
  split <;> rfl

/-- Rounds from the `i`-th on, by induction on the rounds that are left. -/
theorem foldlM_blinkRound? {count i left : Nat} (hcount : i + left = count) (hbyte : count < UInt8.size) :
    (List.range' i left).foldlM (blinkRound? delay count) led = led.blink delay left := by
  induction left generalizing led i with
  | zero => rfl
  | succ left ih =>
    have hnext : held? UInt8.size (i + 1) = some (i + 1) := held?_of_lt (by omega)
    rw [List.range'_succ, List.foldlM_cons]
    simp only [blinkRound?, wait?_eq, hnext, Option.bind_eq_bind, Option.bind_some, Option.bind_assoc]
    cases left with
    | zero =>
      -- after the last round there is no wait in the dark
      have hlast : ¬ i + 1 < count := by omega
      simp only [if_neg hlast]
      rfl
    | succ left =>
      have hmore : i + 1 < count := by omega
      have hrest (l : Led) := @ih l (i + 1) (by omega)
      simp only [if_pos hmore, blink_add_two, hrest]

theorem blink?_eq {count : Nat} (hbyte : count < UInt8.size) : led.blink? delay count = led.blink delay count := by
  rw [blink?, List.range_eq_range']
  exact foldlM_blinkRound? (Nat.zero_add count) hbyte

/-! ## Histories -/

/-- The LED after a history of signals. -/
def after (led : Led) (signals : List Signal) : Option Led :=
  signals.foldlM give led

/-- What a history shows on a pin that is an output or not. -/
def shownBy (output : Bool) : List Signal → List Bool
  | [] => []
  | s :: signals =>
    (if output || s.setsUp then s.pattern else []) ++ shownBy (output || s.setsUp) signals

/-- Time that a history takes. -/
def microsOf : List Signal → Nat
  | [] => 0
  | s :: signals => s.micros + microsOf signals

/-- The LED with a pin that is an output from now on or as it was, driven by a pattern. -/
def driven (led : Led) (setUp : Bool) (lits : List Bool) : Led :=
  { led with pin := ⟨led.pin.output || setUp, led.pin.levels ++ (lits.map led.polarity.level).toArray⟩ }

theorem driven_driven (led : Led) (setUp setUp' : Bool) (lits lits' : List Bool) :
    (led.driven setUp lits).driven setUp' lits' = led.driven (setUp || setUp') (lits ++ lits') := by
  simp [driven, Bool.or_assoc, Array.append_assoc]

/-- What is shown, with the levels as a list. -/
theorem shown_eq (led : Led) (lits : List Bool) :
    led.shown lits = led.driven false (if led.pin.output then lits else []) := by
  obtain ⟨polarity, ⟨output, levels⟩, waited⟩ := led
  cases output <;> simp [shown, driven]

theorem give_eq (led : Led) (s : Signal) : led.give s =
    (led.driven s.setsUp (if led.pin.output || s.setsUp then s.pattern else [])).later s.micros := by
  cases s with
  | init => simp [give, shown_eq, driven, Pin.setOutput, Signal.setsUp, Signal.pattern, Signal.micros]
  | on | off => simp [give, shown_eq, Signal.setsUp, Signal.pattern, Signal.micros]
  | blink count delay => simp [give, blink_eq, shown_eq, Signal.setsUp, Signal.pattern, Signal.micros]

/-- A history shows what its signals show, once the pin is an output, and takes the time that they take. -/
theorem after_eq (led : Led) (signals : List Signal) : led.after signals =
    (led.driven (signals.any Signal.setsUp) (shownBy led.pin.output signals)).later (microsOf signals) := by
  induction signals generalizing led with
  | nil => simp [after, shownBy, microsOf, driven]
  | cons s signals ih =>
    have hfold : led.after (s :: signals) = (led.give s).bind fun l => l.after signals := by
      rw [after, List.foldlM_cons]
      rfl
    let change (l : Led) : Led := l.driven (signals.any Signal.setsUp) (shownBy l.pin.output signals)
    have hrest (l : Led) : l.after signals = (change l).later (microsOf signals) := ih l
    simp only [hfold, give_eq, hrest]
    rw [later_bind _ change _ _ fun _ _ => rfl, microsOf, shownBy, List.any_cons, ← driven_driven]
    rfl

/-! ## Polarities -/

/-- `led'` is `led` after a blink: the pin and the clock. -/
structure Blinked (led : Led) (count delay : Nat) (led' : Led) : Prop where
  polarity : led'.polarity = led.polarity
  output : led'.pin.output = led.pin.output
  /-- Lit is high for an LED that is active high, and low for one that is active low. -/
  levels : led'.pin.levels.toList = led.pin.levels.toList ++
    if led.pin.output then
      (List.replicate count [decide (led.polarity = .activeHigh), decide (led.polarity = .activeLow)]).flatten
    else []
  waited : led'.waited.toNat = led.waited.toNat +
    if 0 < count then (2 * count - 1) * min (1000 * delay) 0xFFFFFFFF else 0

theorem map_level_blinks (polarity : Polarity) (count : Nat) : (blinks count).map polarity.level =
    (List.replicate count [decide (polarity = .activeHigh), decide (polarity = .activeLow)]).flatten := by
  rw [blinks, List.map_flatten, List.map_replicate]
  cases polarity <;> rfl

theorem blinkMicros_eq_ite (count delay : Nat) : blinkMicros count delay =
    if 0 < count then (2 * count - 1) * min (1000 * delay) 0xFFFFFFFF else 0 := by
  rw [blinkMicros, Nat.mul_comm 1000]
  by_cases hcount : 0 < count
  · rw [if_pos hcount]
    rfl
  · rw [if_neg hcount, Nat.eq_zero_of_not_pos hcount, Nat.zero_mul]

/-- A blink has a result as long as the clock can tell the time after it. -/
theorem blinked_of_lt (led : Led) (count : UInt8) (delay : UInt32)
    (hclock : led.waited.toNat + blinkMicros count.toNat delay.toNat < UInt64.size) :
    ∃ led', led.give (.blink count delay) = some led' ∧ Blinked led count.toNat delay.toNat led' := by
  have hlater := (led.driven false (if led.pin.output then blinks count.toNat else [])).later_of_lt hclock
  have hgive := led.give_eq (.blink count delay)
  simp only [Signal.setsUp, Signal.pattern, Signal.micros, Bool.or_false, hlater] at hgive
  refine ⟨_, hgive, rfl, Bool.or_false _, ?_, ?_⟩
  · rw [← map_level_blinks]
    show (led.pin.levels ++ _).toList = _
    cases led.pin.output <;> simp
  · rw [← blinkMicros_eq_ite]
    exact UInt64.toNat_ofNat_of_lt' hclock

theorem after_eq_none_iff (polarity : Polarity) (pin : Pin) (waited : UInt64) (signals : List Signal) :
    after ⟨polarity, pin, waited⟩ signals = none ↔ UInt64.size ≤ waited.toNat + microsOf signals := by
  rw [after_eq, later_eq_none_iff]
  rfl

/-- One pin and one clock under either polarity, wherever the clock can tell the time. A blink drives its levels
and takes its time, and by numbers of fixed width it comes to the same. A history of signals drives opposite
levels and takes the same time. -/
theorem signals_by_polarity (pin : Pin) (waited : UInt64) :
    (∀ (polarity : Polarity) (count : UInt8) (delay : UInt32),
      (waited.toNat + blinkMicros count.toNat delay.toNat < UInt64.size →
        ∃ led, give ⟨polarity, pin, waited⟩ (.blink count delay) = some led ∧
          Blinked ⟨polarity, pin, waited⟩ count.toNat delay.toNat led) ∧
      blink? ⟨polarity, pin, waited⟩ delay count.toNat = give ⟨polarity, pin, waited⟩ (.blink count delay)) ∧
    ∀ signals,
      (after ⟨.activeHigh, pin, waited⟩ signals = none ↔ after ⟨.activeLow, pin, waited⟩ signals = none) ∧
      (waited.toNat + microsOf signals < UInt64.size →
        ∃ high low, after ⟨.activeHigh, pin, waited⟩ signals = some high ∧
          after ⟨.activeLow, pin, waited⟩ signals = some low ∧
          high.pin.levels.toList = pin.levels.toList ++ shownBy pin.output signals ∧
          low.pin.levels.toList = pin.levels.toList ++ (shownBy pin.output signals).map (!·) ∧
          high.waited.toNat = waited.toNat + microsOf signals ∧ low.waited = high.waited) := by
  refine ⟨fun polarity count delay => ?_, fun signals => ⟨?_, ?_⟩⟩
  · exact ⟨blinked_of_lt ⟨polarity, pin, waited⟩ count delay, blink?_eq count.toNat_lt⟩
  · rw [after_eq_none_iff, after_eq_none_iff]
  · intro hclock
    have hresult (polarity : Polarity) := (after_eq ⟨polarity, pin, waited⟩ signals).trans (later_of_lt _ hclock)
    have hlow : Polarity.level .activeLow = (!·) := rfl
    have hhigh : Polarity.level .activeHigh = id := rfl
    refine ⟨_, _, hresult .activeHigh, hresult .activeLow, ?_, ?_, UInt64.toNat_ofNat_of_lt' hclock, rfl⟩
    · simp [driven, hhigh]
    · simp [driven, hlow]

/-- An LED that is active low on a pin that is set up, late in the life of its clock. -/
def lateLed : Led := ⟨.activeLow, ⟨true, #[]⟩, 0xFFFFFE03000001FC⟩

/-- The longest blink there is takes 509 waits of the longest kind, and with it the clock comes to its end. -/
theorem signals_by_polarity_longest :
    lateLed.waited.toNat + blinkMicros 255 0xFFFFFFFF < UInt64.size ∧
      ∃ led, lateLed.give (.blink 255 0xFFFFFFFF) = some led ∧ led.waited.toNat = UInt64.size - 1 ∧
        led.pin.levels.toList = (List.replicate 255 [false, true]).flatten ∧
        lateLed.blink? 0xFFFFFFFF 255 = some led := by
  have hclock : lateLed.waited.toNat + blinkMicros 255 0xFFFFFFFF < UInt64.size := by decide
  obtain ⟨hblink, hnumbers⟩ :=
    (signals_by_polarity ⟨true, #[]⟩ 0xFFFFFE03000001FC).1 .activeLow 255 0xFFFFFFFF
  obtain ⟨led, hled, hblinked⟩ := hblink hclock
  have hresult : lateLed.give (.blink 255 0xFFFFFFFF) = some led := hled
  refine ⟨hclock, led, hresult, hblinked.waited, ?_, hnumbers.trans hled⟩
  have hlevels := hblinked.levels
  rw [if_pos rfl, List.nil_append] at hlevels
  exact hlevels

/-- At the end of the clock the shortest wait has no result; and a blink takes its time on a pin that is no
output, too. -/
theorem wait_past_clock :
    give ⟨.activeHigh, ⟨true, #[]⟩, 0xFFFFFFFFFFFFFFFF⟩ (.blink 1 1) = none ∧
      (give ⟨.activeHigh, ⟨false, #[]⟩, 0⟩ (.blink 1 1)).map waited = some 1000 :=
  ⟨rfl, rfl⟩

end Led

end BootSlots
