import BootSlots.Log.Level
import BootSlots.Log.Message
import BootSlots.Text.Number
import BootSlots.Text.Search

/-
  The diagnostic log: a ring of the last 16 entries. Entries carry a sequence number in place of a time.
  `toList` is the view of the ring, oldest entry first; a `Reader` walks it one entry at a time. The messages
  may be kept by any text buffer; the engine's own logs keep `Message`s.
-/

namespace BootSlots

namespace Log

/-- Number of entries the ring keeps. -/
abbrev capacity : Nat := 16

structure Entry (μ : Type := Message) where
  level : Level
  seq : UInt32
  /-- Component that recorded the entry. -/
  component : String
  message : μ

/-- The line that is printed for an entry. -/
def Entry.line (e : Entry) : String :=
  "[" ++ Text.padded e.seq.toNat ++ "] " ++ e.level.letter.toString ++ " [" ++ e.component ++ "] " ++
    e.message.text

end Log

/-- Ring of log entries. Recording fills `slots` from 0 up, starting over after the last one. -/
structure Log (μ : Type := Log.Message) where
  slots : Vector (Option (Log.Entry μ)) Log.capacity
  /-- Slot the next entry goes to. -/
  next : Fin Log.capacity
  /-- Number of entries held. -/
  count : Nat
  nextSeq : UInt32
  /-- Entries less grave than this level are not recorded. -/
  minLevel : Log.Level

namespace Log

def empty : Log where
  slots := Vector.replicate capacity none
  next := 0
  count := 0
  nextSeq := 0
  minLevel := .info

def setMinLevel (l : Log) (level : Level) : Log :=
  { l with minLevel := level }

/-- Whether entries of this level are recorded. -/
def records {μ : Type} (l : Log μ) (level : Level) : Bool :=
  level.rank ≤ l.minLevel.rank

/-- Records one message in parts, if its level passes. The oldest entry makes room when the ring is full. -/
def recordIn {μ : Type} (buffer : TextBuffer μ) (l : Log μ) (level : Level) (component : String)
    (parts : List String) : Log μ :=
  if l.records level then
    { l with
      slots := l.slots.set l.next (some ⟨level, l.nextSeq, component, buffer.ofParts parts⟩)
      next := l.next + 1
      count := if l.count < capacity then l.count + 1 else l.count
      nextSeq := l.nextSeq + 1 }
  else l

/-- Records one message of the engine. -/
def record (l : Log) (level : Level) (component : String) (parts : List String) : Log :=
  l.recordIn Message.buffer level component parts

/-- Drops all entries; numbering and level stay. -/
def clear (l : Log) : Log :=
  { l with slots := Vector.replicate capacity none, next := 0, count := 0 }

def isEmpty (l : Log) : Bool :=
  l.count == 0

/-- Position in a log while it is read, oldest entry first. -/
structure Reader where
  log : Log
  /-- Entries already read. -/
  index : Nat
  /-- Entries still to be read. -/
  remaining : Nat

/-- Slot of the oldest entry. -/
def oldest (l : Log) : Nat :=
  if l.count < capacity then 0 else l.next

def reader (l : Log) : Reader :=
  ⟨l, 0, l.count⟩

/-- Slot the reader stands at. -/
def Reader.slot (r : Reader) : Fin capacity :=
  ⟨(r.log.oldest + r.index) % capacity, Nat.mod_lt _ (by decide)⟩

/-- The entry at the reader's position and the reader after it. -/
def Reader.next (r : Reader) : Option Entry × Reader :=
  match r.remaining with
  | 0 => (none, r)
  | n + 1 => (r.log.slots.get r.slot, { r with index := r.index + 1, remaining := n })

/-- The next `n` entries, fewer if the reader comes to its end, and the reader after them. -/
def Reader.take (r : Reader) : Nat → List Entry × Reader
  | 0 => ([], r)
  | n + 1 =>
    match r.next with
    | (none, r) => ([], r)
    | (some e, r) =>
      let (es, r) := r.take n
      (e :: es, r)

/-- All entries, oldest first. -/
def toList (l : Log) : List Entry :=
  (l.reader.take l.count).1

/-- Whether an entry of this level holds `needle` in its message. -/
def contains (l : Log) (level : Level) (needle : String) : Bool :=
  l.toList.any fun e => e.level == level && Text.occurs needle.toList e.message.text.toList

/-! ## Recording whole messages -/

def error (l : Log) (component text : String) : Log := l.record .error component [text]

def warn (l : Log) (component text : String) : Log := l.record .warn component [text]

def info (l : Log) (component text : String) : Log := l.record .info component [text]

end Log

end BootSlots
