import BootSlots.Geometry

/-
  Numbers of a fixed width, checked as they are computed. A number that does not fit gives no result at all, where
  a device would wrap it around, cut it off or stop.
-/

namespace BootSlots

/-- `n`, if a type with `size` numbers holds it. -/
def held? (size n : Nat) : Option Nat :=
  if n < size then some n else none

/-- `n`, if a word holds it. -/
def word? (n : Nat) : Option Nat :=
  held? addressSpace n

/-- The difference, if it is not negative. -/
def minus? (a b : Nat) : Option Nat :=
  if b ≤ a then some (a - b) else none

theorem held?_eq_some_iff {size n m : Nat} : held? size n = some m ↔ n < size ∧ n = m := by
  simp [held?]

theorem minus?_eq_some_iff {a b m : Nat} : minus? a b = some m ↔ b ≤ a ∧ a - b = m := by
  simp [minus?]

theorem held?_of_lt {size n : Nat} (h : n < size) : held? size n = some n :=
  held?_eq_some_iff.mpr ⟨h, rfl⟩

theorem word?_of_lt {n : Nat} (h : n < addressSpace) : word? n = some n :=
  held?_of_lt h

theorem word?_of_le {n : Nat} (h : addressSpace ≤ n) : word? n = none :=
  if_neg (Nat.not_lt.mpr h)

theorem minus?_of_le {a b : Nat} (h : b ≤ a) : minus? a b = some (a - b) :=
  minus?_eq_some_iff.mpr ⟨h, rfl⟩

end BootSlots
