import BootSlots.Bytes.Memory
import BootSlots.Bytes.Word
import BootSlots.Device.Fault
import BootSlots.Geometry

/-
  A NOR flash: erasing sets a whole sector to 0xFF, programming can only clear bits. The device keeps the
  list of all erase and program operations that it carried out, so its cells are at any time what these
  operations made of the cells it had before them. Faults can be switched on for one sector each, and for
  all reads; an operation that fails changes nothing.
-/

namespace BootSlots

/-- Value of an erased cell. -/
def erased : UInt8 := 0xFF

/-- One change that a flash carried out. -/
inductive FlashOp where
  | erase (sector : Nat)
  | program (address : Nat) (bytes : List UInt8)
deriving DecidableEq

namespace FlashOp

/-- What the operation makes of the cells. -/
def applyTo (m : Memory) : FlashOp → Memory
  | erase sector => m.put (sector * sectorSize) (List.replicate sectorSize erased)
  | program address bytes => m.overlay (· &&& ·) address bytes

@[simp] theorem size_applyTo (m : Memory) (op : FlashOp) : (op.applyTo m).size = m.size := by
  cases op <;> simp [applyTo]

end FlashOp

/-- What an identity request answers. -/
inductive FlashIdentity where
  /-- The word at address 0. -/
  | firstWord
  | fixed (word : UInt32)
  | unreadable

/-- Switched-on faults. -/
structure FlashFaults where
  /-- Sector that cannot be erased. -/
  erase : Option Nat := none
  /-- Sector that cannot be programmed. -/
  program : Option Nat := none
  /-- All reads fail. -/
  read : Bool := false

structure Flash where
  cells : Memory
  /-- Operations carried out, in order. -/
  ops : Array FlashOp := #[]
  faults : FlashFaults := {}
  /-- Capacity to report, where it is not the true one. -/
  claimed : Option UInt32 := none
  identity : FlashIdentity := .firstWord
  size_mod : cells.size % sectorSize = 0
  size_lt : cells.size < addressSpace

namespace Flash

/-- An erased device of `capacity` bytes: whole sectors within the 32-bit address space. -/
def blank? (capacity : Nat) : Option Flash :=
  if h : capacity % sectorSize = 0 ∧ capacity < addressSpace then
    some {
      cells := Array.replicate capacity erased
      size_mod := by simpa using h.1
      size_lt := by simpa using h.2 }
  else none

/-- Capacity as the device reports it. -/
def capacity (f : Flash) : Nat :=
  match f.claimed with
  | some size => size.toNat
  | none => f.cells.size

/-- Number of sectors by the reported capacity. -/
def sectorCount (f : Flash) : Nat :=
  f.capacity / sectorSize

/-- Carries out an operation: the cells change, and the operation joins the list. -/
def perform (f : Flash) (op : FlashOp) : Flash :=
  { f with
    cells := op.applyTo f.cells
    ops := f.ops.push op
    size_mod := by rw [FlashOp.size_applyTo]; exact f.size_mod
    size_lt := by rw [FlashOp.size_applyTo]; exact f.size_lt }

/-- The bytes in `[address, address + length)`. -/
def read (f : Flash) (address length : Nat) : Except DeviceFault (List UInt8) :=
  if f.faults.read then .error .flashReadFailed
  else if f.cells.size < address + length then .error .flashOutOfBounds
  else .ok (f.cells.slice address length)

/-- Whether programming `length` bytes at `address` meets the sector that cannot be programmed. -/
def programFault (f : Flash) (address length : Nat) : Bool :=
  match f.faults.program with
  | some sector => sectorOf address ≤ sector && sector ≤ sectorOf (address + (length - 1))
  | none => false

/-- Carries an operation out, unless it runs past the end or meets a fault: the answer, and the flash after it.
Programming keeps of a cell only the bits that are set in the byte too; erasing is by whole sectors. -/
def carryOut (f : Flash) : FlashOp → Except DeviceFault Unit × Flash
  | .program address bytes =>
    if f.cells.size < address + bytes.length then (.error .flashOutOfBounds, f)
    else if f.programFault address bytes.length then (.error .flashWriteFailed, f)
    else (.ok (), f.perform (.program address bytes))
  | .erase sector =>
    if f.cells.size / sectorSize ≤ sector then (.error .flashOutOfBounds, f)
    else if f.faults.erase = some sector then (.error .flashEraseFailed, f)
    else (.ok (), f.perform (.erase sector))

/-- The flash after `bytes` were programmed at `address`. -/
def program (f : Flash) (address : Nat) (bytes : List UInt8) : Except DeviceFault Flash :=
  onSuccess (f.carryOut (.program address bytes))

/-- The flash after one sector was erased. -/
def erase (f : Flash) (sector : Nat) : Except DeviceFault Flash :=
  onSuccess (f.carryOut (.erase sector))

/-- The word by which the kind of device is told. -/
def identityWord (f : Flash) : Except DeviceFault UInt32 :=
  match f.identity with
  | .fixed word => .ok word
  | .unreadable => .error .flashReadFailed
  | .firstWord =>
    match f.read 0 4 with
    | .error fault => .error fault
    | .ok bytes =>
      match Word.ofList? bytes with
      | some word => .ok word
      | none => .error .flashReadFailed

/-! ## What each operation does -/

@[simp] theorem cells_perform (f : Flash) (op : FlashOp) :
    (f.perform op).cells = op.applyTo f.cells := rfl

@[simp] theorem ops_perform (f : Flash) (op : FlashOp) : (f.perform op).ops = f.ops.push op := rfl

@[simp] theorem faults_perform (f : Flash) (op : FlashOp) : (f.perform op).faults = f.faults := rfl

@[simp] theorem capacity_perform (f : Flash) (op : FlashOp) :
    (f.perform op).capacity = f.capacity := by
  simp [capacity, perform]

theorem read_eq_ok_iff {f : Flash} {address length : Nat} {bytes : List UInt8} :
    f.read address length = .ok bytes ↔
      f.faults.read = false ∧ address + length ≤ f.cells.size ∧
        f.cells.slice address length = bytes := by
  unfold read
  by_cases hf : f.faults.read
  · simp [hf]
  · by_cases hs : f.cells.size < address + length
    · simp [hf, hs, Nat.not_le.mpr hs]
    · simp [hf, hs, Nat.not_lt.mp hs]

/-- The operation keeps to the device and meets no fault. -/
def Admits (f : Flash) : FlashOp → Prop
  | .program address bytes =>
    address + bytes.length ≤ f.cells.size ∧ f.programFault address bytes.length = false
  | .erase sector => sector < f.cells.size / sectorSize ∧ f.faults.erase ≠ some sector

theorem carryOut_of_admits {f : Flash} {op : FlashOp} (h : f.Admits op) :
    f.carryOut op = (.ok (), f.perform op) := by
  cases op with
  | program address bytes =>
    obtain ⟨hfits, hfault⟩ := h
    rw [carryOut, if_neg (Nat.not_lt.mpr hfits), if_neg (by rw [hfault]; exact Bool.false_ne_true)]
  | erase sector =>
    obtain ⟨hfits, hfault⟩ := h
    rw [carryOut, if_neg (Nat.not_le.mpr hfits), if_neg hfault]

/-- An operation that fails leaves the flash as it was. -/
theorem carryOut_of_not_admits {f : Flash} {op : FlashOp} (h : ¬ f.Admits op) :
    ∃ fault, f.carryOut op = (.error fault, f) := by
  cases op with
  | program address bytes =>
    by_cases hfits : f.cells.size < address + bytes.length
    · exact ⟨_, if_pos hfits⟩
    · have hfault : f.programFault address bytes.length = true :=
        Bool.of_not_eq_false fun hfree => h ⟨Nat.not_lt.mp hfits, hfree⟩
      exact ⟨_, by rw [carryOut, if_neg hfits, if_pos hfault]⟩
  | erase sector =>
    by_cases hfits : f.cells.size / sectorSize ≤ sector
    · exact ⟨_, if_pos hfits⟩
    · have hfault : f.faults.erase = some sector :=
        Decidable.not_not.mp fun hfree => h ⟨Nat.not_le.mp hfits, hfree⟩
      exact ⟨_, by rw [carryOut, if_neg hfits, if_pos hfault]⟩

theorem onSuccess_carryOut_eq_ok_iff {f g : Flash} {op : FlashOp} :
    onSuccess (f.carryOut op) = .ok g ↔ f.Admits op ∧ f.perform op = g := by
  by_cases h : f.Admits op
  · rw [carryOut_of_admits h, onSuccess, Except.ok.injEq]
    exact (and_iff_right h).symm
  · obtain ⟨fault, hfails⟩ := carryOut_of_not_admits h
    rw [hfails, onSuccess]
    simp [h]

theorem carryOut_of_ok {f g : Flash} {op : FlashOp} (h : onSuccess (f.carryOut op) = .ok g) :
    f.carryOut op = (.ok (), g) := by
  obtain ⟨hadmits, rfl⟩ := onSuccess_carryOut_eq_ok_iff.mp h
  exact carryOut_of_admits hadmits

theorem carryOut_of_error {f : Flash} {op : FlashOp} {fault : DeviceFault}
    (h : onSuccess (f.carryOut op) = .error fault) : f.carryOut op = (.error fault, f) := by
  by_cases hadmits : f.Admits op
  · rw [carryOut_of_admits hadmits] at h
    exact nomatch h
  · obtain ⟨fault', hfails⟩ := carryOut_of_not_admits hadmits
    rw [hfails] at h ⊢
    rw [Except.error.inj h]

theorem program_eq_ok_iff {f g : Flash} {address : Nat} {bytes : List UInt8} :
    f.program address bytes = .ok g ↔
      address + bytes.length ≤ f.cells.size ∧ f.programFault address bytes.length = false ∧
        f.perform (.program address bytes) = g :=
  onSuccess_carryOut_eq_ok_iff.trans and_assoc

theorem erase_eq_ok_iff {f g : Flash} {sector : Nat} :
    f.erase sector = .ok g ↔
      sector < f.cells.size / sectorSize ∧ f.faults.erase ≠ some sector ∧
        f.perform (.erase sector) = g :=
  onSuccess_carryOut_eq_ok_iff.trans and_assoc

/-! ## Access from outside the engine -/

/-- Places bytes as they are, past the NOR rule and the operation list; `none` past the end. -/
def preload? (f : Flash) (address : Nat) (bytes : List UInt8) : Option Flash :=
  if address + bytes.length ≤ f.cells.size then
    some { f with
      cells := f.cells.put address bytes
      size_mod := by rw [Memory.size_put]; exact f.size_mod
      size_lt := by rw [Memory.size_put]; exact f.size_lt }
  else none

/-- The bytes in `[address, address + length)` whatever the faults; `none` past the end. -/
def contents? (f : Flash) (address length : Nat) : Option (List UInt8) :=
  if address + length ≤ f.cells.size then some (f.cells.slice address length) else none

/-- Forgets the operation list. -/
def clearOps (f : Flash) : Flash :=
  { f with ops := #[] }

/-- How often `sector` stands in the operation list as erased. -/
def eraseCount (f : Flash) (sector : Nat) : Nat :=
  f.ops.toList.count (.erase sector)

def failErase (f : Flash) (sector : Nat) : Flash :=
  { f with faults := { f.faults with erase := some sector } }

def failProgram (f : Flash) (sector : Nat) : Flash :=
  { f with faults := { f.faults with program := some sector } }

def failReads (f : Flash) (fail : Bool) : Flash :=
  { f with faults := { f.faults with read := fail } }

def clearFaults (f : Flash) : Flash :=
  { f with faults := {} }

end Flash

end BootSlots
