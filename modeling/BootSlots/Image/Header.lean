import BootSlots.Bytes.Word

/-
  The eight-byte header in front of every bootable image: a magic byte, the number of sections, two bytes
  that tell how the flash is wired, and the entry point.
-/

namespace BootSlots.Image

/-- First byte of a well-formed image. -/
def magic : UInt8 := 0xE9

/-- Size of the header in bytes. -/
def headerSize : Nat := 8

/-- How the flash is wired to the processor. -/
inductive SpiMode where
  | quadIo
  | quadOutput
  | dualIo
  | dualOutput
deriving DecidableEq

structure Header where
  magic : UInt8
  sectionCount : UInt8
  /-- Flash mode. -/
  flags1 : UInt8
  /-- Flash size in the high half, clock in the low half. -/
  flags2 : UInt8
  entry : UInt32
deriving DecidableEq

namespace Header

/-- Reads a header of exactly eight bytes. -/
def ofBytes? : List UInt8 → Option Header
  | [magic, sectionCount, flags1, flags2, e0, e1, e2, e3] =>
    some { magic, sectionCount, flags1, flags2, entry := Word.ofBytes e0 e1 e2 e3 }
  | _ => none

def isValid (h : Header) : Bool :=
  h.magic == Image.magic

/-- Flash size that the image declares, in bytes; unknown codes stand for 512 KiB. -/
def flashSize (h : Header) : Nat :=
  match h.flags2.toNat / 16 with
  | 1 => 256 * 1024
  | 2 => 1024 * 1024
  | 3 | 5 => 2048 * 1024
  | 4 | 6 => 4096 * 1024
  | 8 => 8192 * 1024
  | 9 => 16384 * 1024
  | _ => 512 * 1024

def spiMode (h : Header) : SpiMode :=
  match h.flags1.toNat with
  | 0 => .quadIo
  | 1 => .quadOutput
  | 2 => .dualIo
  | _ => .dualOutput

/-- Flash clock that the image declares, in MHz. -/
def spiMegahertz (h : Header) : Nat :=
  match h.flags2.toNat % 16 with
  | 0 => 40
  | 1 => 26
  | 2 => 20
  | _ => 80

end Header

end BootSlots.Image
