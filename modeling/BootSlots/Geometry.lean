/-
  The flash map: sectors, the sector of the boot record, and where image slots may start.
  Sector 0 holds the boot loader, sector 1 the record, and images start in sector 2 or later.
-/

namespace BootSlots

/-- Smallest erasable unit of the flash, in bytes. -/
def sectorSize : Nat := 0x1000

/-- Sector of the boot record; sector 0 belongs to the boot loader itself. -/
def recordSector : Nat := 1

/-- Address of the boot record. -/
def recordAddress : Nat := recordSector * sectorSize

/-- Lowest address an image slot may start at. -/
def firstImageAddress : Nat := (recordSector + 1) * sectorSize

/-- Number of entries in the slot table. -/
def maxSlots : Nat := 4

/-- Number of addresses a 32-bit word can name. -/
def addressSpace : Nat := 0x100000000

/-- Sector that holds `address`. -/
def sectorOf (address : Nat) : Nat := address / sectorSize

/-- First address after the sector that holds `address`. -/
def sectorEnd (address : Nat) : Nat := (sectorOf address + 1) * sectorSize

theorem sectorSize_eq : sectorSize = 4096 := rfl

theorem recordAddress_eq : recordAddress = 4096 := rfl

theorem firstImageAddress_eq : firstImageAddress = 8192 := rfl

theorem lt_sectorEnd (address : Nat) : address < sectorEnd address := by
  simp only [sectorEnd, sectorOf, sectorSize_eq]
  omega

theorem sectorEnd_mod (address : Nat) : sectorEnd address % sectorSize = 0 :=
  Nat.mul_mod_left _ _

end BootSlots
