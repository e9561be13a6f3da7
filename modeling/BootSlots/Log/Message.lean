/-
  Log messages of at most 64 bytes of UTF-8. A message is put together from parts; each part is cut at its
  first character that does not fit, and a later part may still bring characters that do. The text itself is
  kept by a buffer that takes one character at a time and tells whether it took it; `TextBuffer` leaves open
  which one, and `Message` is the one that the engine logs with.
-/

namespace BootSlots.Log

/-- Room for the text of one message, in bytes of UTF-8. -/
def messageRoom : Nat := 64

/-- A text that is written character by character. -/
structure TextBuffer (μ : Type) where
  empty : μ
  text : μ → String
  /-- Whether the character was taken, and the text after it. -/
  push : μ → Char → Bool × μ

namespace TextBuffer

variable {μ : Type} (buffer : TextBuffer μ)

/-- Writes characters up to the first one that is not taken. -/
def writeChars (m : μ) : List Char → μ
  | [] => m
  | c :: cs =>
    match buffer.push m c with
    | (true, m) => writeChars m cs
    | (false, m) => m

/-- Appends what is taken of one part. -/
def append (m : μ) (part : String) : μ :=
  buffer.writeChars m part.toList

def ofParts (parts : List String) : μ :=
  parts.foldl buffer.append buffer.empty

end TextBuffer

/-- A text that keeps to the room of one message. -/
structure Message where
  text : String
  utf8ByteSize_le : text.utf8ByteSize ≤ messageRoom

namespace Message

def empty : Message := ⟨"", by simp [messageRoom]⟩

/-- Takes a character if it fits. -/
def push (m : Message) (c : Char) : Bool × Message :=
  if h : m.text.utf8ByteSize + c.utf8Size ≤ messageRoom then
    (true, ⟨m.text.push c, by rw [String.utf8ByteSize_push]; exact h⟩)
  else (false, m)

theorem push_of_le {m : Message} {c : Char} (h : m.text.utf8ByteSize + c.utf8Size ≤ messageRoom) :
    (m.push c).1 = true ∧ (m.push c).2.text = m.text.push c := by
  rw [push, dif_pos h]
  exact ⟨rfl, rfl⟩

theorem push_of_lt {m : Message} {c : Char} (h : messageRoom < m.text.utf8ByteSize + c.utf8Size) :
    (m.push c).1 = false ∧ (m.push c).2.text = m.text := by
  rw [push, dif_neg (Nat.not_le.mpr h)]
  exact ⟨rfl, rfl⟩

def buffer : TextBuffer Message := ⟨empty, text, push⟩

def ofParts (parts : List String) : Message :=
  buffer.ofParts parts

end Message

end BootSlots.Log
