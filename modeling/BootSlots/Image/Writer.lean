import BootSlots.Device.Flash

/-
  Writing an image as a stream. Bytes are staged in an arena and programmed once the arena is full, or when
  the writer is flushed. Each sector is erased once, right before the first byte programmed into it. As the
  arena is flushed at its end only, what happens on the flash hangs on the stream and not on how it was cut.
-/

namespace BootSlots.Image

/-- Why a flush stopped. -/
inductive WriteFault where
  | eraseFailed
  | programFailed
deriving DecidableEq

/-- Where a stream has come to. -/
structure Cursor where
  /-- Address of the first byte; the start of a sector. -/
  base : Nat
  /-- Number of bytes programmed. -/
  flushed : Nat
  /-- Number of bytes staged in the arena. -/
  pending : Nat
  /-- First address that the stream has not erased. -/
  erasedEnd : Nat
deriving DecidableEq

namespace Cursor

def start (base : Nat) : Cursor :=
  ⟨base, 0, 0, base⟩

/-- Number of bytes taken in so far. -/
def total (c : Cursor) : Nat :=
  c.flushed + c.pending

end Cursor

/-- Cuts a run of bytes at sector boundaries: the address and the bytes of each piece. -/
def pieces (address : Nat) (bytes : List UInt8) : List (Nat × List UInt8) :=
  match bytes with
  | [] => []
  | b :: bs =>
    (address, (b :: bs).take (sectorEnd address - address)) ::
      pieces (sectorEnd address) ((b :: bs).drop (sectorEnd address - address))
termination_by bytes.length
decreasing_by
  have := lt_sectorEnd address
  simp only [List.length_drop, List.length_cons]
  omega

/-- The pieces hold all bytes, in order. -/
theorem flatMap_pieces (address : Nat) (bytes : List UInt8) :
    (pieces address bytes).flatMap Prod.snd = bytes := by
  fun_induction pieces address bytes with
  | case1 => rfl
  | case2 address b bs ih => rw [List.flatMap_cons, ih, List.take_append_drop]

/-- A stream with its arena and the flash it goes to. -/
structure Writer where
  cursor : Cursor
  arena : Memory
  flash : Flash

namespace Writer

/-- Erases the sector of `address` if the stream comes to it for the first time. -/
def openSector (w : Writer) (address : Nat) : Except WriteFault Unit × Writer :=
  if w.cursor.erasedEnd ≤ address then
    match w.flash.erase (sectorOf address) with
    | .error _ => (.error .eraseFailed, w)
    | .ok flash =>
      (.ok (), { w with flash, cursor := { w.cursor with erasedEnd := sectorEnd address } })
  else (.ok (), w)

/-- Programs one piece. -/
def programPiece (w : Writer) (address : Nat) (bytes : List UInt8) : Except WriteFault Unit × Writer :=
  match w.openSector address with
  | (.error fault, w) => (.error fault, w)
  | (.ok (), w) =>
    match w.flash.program address bytes with
    | .error _ => (.error .programFailed, w)
    | .ok flash => (.ok (), { w with flash })

/-- Programs pieces in order, up to the first that fails. -/
def programPieces (w : Writer) : List (Nat × List UInt8) → Except WriteFault Unit × Writer
  | [] => (.ok (), w)
  | piece :: rest =>
    match w.programPiece piece.1 piece.2 with
    | (.error fault, w) => (.error fault, w)
    | (.ok (), w) => w.programPieces rest

/-- The bytes staged in the arena. -/
def staged (w : Writer) : List UInt8 :=
  w.arena.slice 0 w.cursor.pending

/-- Programs the staged bytes. After a failure they are still staged. -/
def flush (w : Writer) : Except WriteFault Unit × Writer :=
  if w.cursor.pending = 0 then (.ok (), w)
  else
    match w.programPieces (pieces (w.cursor.base + w.cursor.flushed) w.staged) with
    | (.error fault, w) => (.error fault, w)
    | (.ok (), w) =>
      (.ok (), { w with
        cursor := { w.cursor with flushed := w.cursor.flushed + w.cursor.pending, pending := 0 } })

/-- Flushes a full arena. -/
def settle (w : Writer) : Except WriteFault Unit × Writer :=
  if w.cursor.pending = w.arena.size then w.flush else (.ok (), w)

/-- Stages one byte where there is room. -/
def stage (w : Writer) (byte : UInt8) : Writer :=
  { w with
    arena := w.arena.setIfInBounds w.cursor.pending byte
    cursor := { w.cursor with pending := w.cursor.pending + 1 } }

/-- Takes in one byte. An arena that a failed flush left full is flushed first. -/
def put (w : Writer) (byte : UInt8) : Except WriteFault Unit × Writer :=
  match w.settle with
  | (.error fault, w) => (.error fault, w)
  | (.ok (), w) => (w.stage byte).settle

/-- Takes in bytes in order, up to the first that fails. -/
def push (w : Writer) : List UInt8 → Except WriteFault Unit × Writer
  | [] => (.ok (), w)
  | byte :: rest =>
    match w.put byte with
    | (.error fault, w) => (.error fault, w)
    | (.ok (), w) => w.push rest

end Writer

end BootSlots.Image
