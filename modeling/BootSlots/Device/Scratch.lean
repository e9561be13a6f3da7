import BootSlots.Bytes.Memory
import BootSlots.Bytes.Word
import BootSlots.Device.Fault

/-
  Scratch memory: 0x300 bytes that survive a warm restart. Accesses keep to whole words. The boot loader's
  own data starts at 0x100, and the word after its 0x80 bytes holds the request for a factory reset.
-/

namespace BootSlots

/-- Size of the scratch memory in bytes. -/
def scratchSize : Nat := 0x300

/-- Start of the boot loader's own data. -/
def scratchBootData : Nat := 0x100

/-- Offset of the word that requests a factory reset. -/
def resetFlagOffset : Nat := scratchBootData + 0x80

/-- Value of the word that requests a factory reset. -/
def resetMagic : UInt32 := 0x1AC3F5E7

structure Scratch where
  cells : Memory
  /-- All accesses fail. -/
  failing : Bool := false
  size_eq : cells.size = scratchSize

namespace Scratch

def zeroed : Scratch where
  cells := Array.replicate scratchSize 0
  size_eq := by simp

/-- Why an access of `length` bytes at `offset` is refused, if it is. -/
def refusal (s : Scratch) (offset length : Nat) : Option DeviceFault :=
  if s.failing || scratchSize < offset + length then some .scratchOutOfBounds
  else if offset % 4 ≠ 0 ∨ length % 4 ≠ 0 then some .scratchMisaligned
  else none

def read (s : Scratch) (offset length : Nat) : Except DeviceFault (List UInt8) :=
  match s.refusal offset length with
  | some fault => .error fault
  | none => .ok (s.cells.slice offset length)

def write (s : Scratch) (offset : Nat) (bytes : List UInt8) : Except DeviceFault Scratch :=
  match s.refusal offset bytes.length with
  | some fault => .error fault
  | none =>
    .ok { s with
      cells := s.cells.put offset bytes
      size_eq := by rw [Memory.size_put]; exact s.size_eq }

def readWord (s : Scratch) (offset : Nat) : Except DeviceFault UInt32 :=
  match s.read offset 4 with
  | .error fault => .error fault
  | .ok bytes =>
    match Word.ofList? bytes with
    | some word => .ok word
    | none => .error .scratchOutOfBounds

def writeWord (s : Scratch) (offset : Nat) (word : UInt32) : Except DeviceFault Scratch :=
  s.write offset (Word.toBytes word)

/-- A word to be written. -/
structure WordWrite where
  offset : Nat
  word : UInt32
deriving DecidableEq

/-- Writes a word: the answer, and the memory after it. -/
def carryOut (s : Scratch) (w : WordWrite) : Except DeviceFault Unit × Scratch :=
  match s.writeWord w.offset w.word with
  | .error fault => (.error fault, s)
  | .ok t => (.ok (), t)

theorem read_eq_ok_iff {s : Scratch} {offset length : Nat} {bytes : List UInt8} :
    s.read offset length = .ok bytes ↔
      s.refusal offset length = none ∧ s.cells.slice offset length = bytes := by
  unfold read
  split <;> simp_all

theorem refusal_eq_none_iff {s : Scratch} {offset length : Nat} :
    s.refusal offset length = none ↔
      s.failing = false ∧ offset + length ≤ scratchSize ∧ offset % 4 = 0 ∧ length % 4 = 0 := by
  unfold refusal
  cases hf : s.failing <;> simp only [Bool.true_or, Bool.false_or, decide_eq_true_eq]
  · split
    · simp
      omega
    · split
      · simp
        omega
      · simp
        omega
  · simp

theorem write_eq_ok {s t : Scratch} {offset : Nat} {bytes : List UInt8}
    (h : s.write offset bytes = .ok t) :
    s.refusal offset bytes.length = none ∧ t.cells = s.cells.put offset bytes ∧
      t.failing = s.failing := by
  unfold write at h
  split at h
  · simp at h
  · rename_i hr
    rw [← Except.ok.inj h]
    exact ⟨hr, rfl, rfl⟩

/-- A word that was written is read back. -/
theorem readWord_of_writeWord {s t : Scratch} {offset : Nat} {word : UInt32}
    (h : s.writeWord offset word = .ok t) : t.readWord offset = .ok word := by
  obtain ⟨hr, hc, hf⟩ := write_eq_ok h
  have hin := refusal_eq_none_iff.mp hr
  have hread : t.read offset 4 = .ok (Word.toBytes word) := by
    refine read_eq_ok_iff.mpr ⟨refusal_eq_none_iff.mpr (by rw [hf]; exact hin), ?_⟩
    rw [hc]
    exact Memory.slice_put (by rw [s.size_eq]; exact hin.2.1)
  unfold readWord
  rw [hread]
  simp

/-- Switches the failure of all accesses. -/
def failAccess (s : Scratch) (fail : Bool) : Scratch :=
  { s with failing := fail }

end Scratch

end BootSlots
