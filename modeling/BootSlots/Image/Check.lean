import BootSlots.Device.Flash
import BootSlots.Image.Header

/-
  The check of a written image: its header can be read back and starts with the magic byte.
-/

namespace BootSlots.Image

/-- Why an image does not pass. -/
inductive CheckFault where
  /-- Nothing was written. -/
  | empty
  /-- The header could not be read back. -/
  | readFailed
  /-- The first byte is another one. -/
  | badMagic (byte : UInt8)
deriving DecidableEq

namespace CheckFault

/-- Name of the fault as printed in the log. -/
def label : CheckFault → String
  | empty => "Empty"
  | readFailed => "ReadFailed"
  | badMagic byte => s!"BadMagic({byte.toNat})"

def toFault (_ : CheckFault) : Fault := .verifyFailed

end CheckFault

/-- The header stored at `address`. -/
def readHeader (f : Flash) (address : Nat) : Except CheckFault Header :=
  match f.read address headerSize with
  | .error _ => .error .readFailed
  | .ok bytes =>
    match Header.ofBytes? bytes with
    | some header => .ok header
    | none => .error .readFailed

/-- Checks the image of `length` bytes at `address`. The magic byte alone decides, however short the image. -/
def check (f : Flash) (address length : Nat) : Except CheckFault Header :=
  if length = 0 then .error .empty
  else
    match readHeader f address with
    | .error fault => .error fault
    | .ok header => if header.isValid then .ok header else .error (.badMagic header.magic)

end BootSlots.Image
