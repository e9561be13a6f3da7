import BootSlots.Bytes.Word
import BootSlots.Record.Basic

/-
  The stored form of a boot record, 32 bytes:

    0   magic, a word             8   four slot addresses, a word each
    4   version                   24  checksum of the bytes before it
    5   mode flags                25  seven bytes in reserve, zero
    6   selected slot
    7   number of slots

  Words stand lowest byte first.
-/

namespace BootSlots

/-- Size of a stored record in bytes. -/
def recordSize : Nat := 32

/-- Value that a checksum starts from. -/
def checksumSeed : UInt8 := 0xEF

/-- Exclusive or of all bytes and the seed. -/
def checksum (bytes : List UInt8) : UInt8 :=
  bytes.foldl (· ^^^ ·) checksumSeed

namespace Record

/-- The bytes that the checksum covers. -/
def encodeFields (r : Record) : List UInt8 :=
  Word.toBytes r.magic ++ [r.version, r.mode.bits, r.current, r.count] ++
    r.addresses.toList.flatMap Word.toBytes

def encode (r : Record) : List UInt8 :=
  r.encodeFields ++ checksum r.encodeFields :: List.replicate 7 0

theorem length_encodeFields (r : Record) : r.encodeFields.length = 24 := by
  have h : r.addresses.toList.length = 4 := r.addresses.length_toList
  simp [encodeFields, List.length_flatMap, List.map_const', h]

@[simp] theorem length_encode (r : Record) : r.encode.length = recordSize := by
  simp [encode, length_encodeFields, recordSize]

/-- Reads a stored record. Magic, version and checksum must be right; the slot table is not checked. -/
def decode : List UInt8 → Except RecordFault Record
  | [m0, m1, m2, m3, version, mode, current, count,
      a0, a1, a2, a3, b0, b1, b2, b3, c0, c1, c2, c3, d0, d1, d2, d3, sum, _, _, _, _, _, _, _] =>
    let magic := Word.ofBytes m0 m1 m2 m3
    if magic ≠ recordMagic ∨ version ≠ recordVersion then .error .corrupted
    else if sum ≠ checksum [m0, m1, m2, m3, version, mode, current, count,
        a0, a1, a2, a3, b0, b1, b2, b3, c0, c1, c2, c3, d0, d1, d2, d3] then .error .corrupted
    else .ok {
      magic, version, mode := ⟨mode⟩, current, count
      addresses := #v[Word.ofBytes a0 a1 a2 a3, Word.ofBytes b0 b1 b2 b3, Word.ofBytes c0 c1 c2 c3,
        Word.ofBytes d0 d1 d2 d3] }
  | _ => .error .corrupted

end Record

end BootSlots
