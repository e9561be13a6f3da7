/-
  Number texts of the diagnostics: `0x`-prefixed lower-case addresses, four-digit upper-case codes and
  zero-padded sequence numbers.
-/

namespace BootSlots.Text

/-- Hexadecimal with the `0x` mark, lower case, no leading zeros. -/
def hex (n : Nat) : String :=
  "0x" ++ String.ofList (Nat.toDigits 16 n)

/-- At least four upper-case hexadecimal digits. -/
def code (n : Nat) : String :=
  String.ofList (((Nat.toDigits 16 n).map Char.toUpper).leftpad 4 '0')

/-- At least four decimal digits. -/
def padded (n : Nat) : String :=
  String.ofList ((Nat.toDigits 10 n).leftpad 4 '0')

end BootSlots.Text
