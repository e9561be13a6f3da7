import BootSlots.Log.Basic
import BootSlots.Record.Store
import BootSlots.Settings
import BootSlots.Update.Session

/-
  The update engine. It has at most one live session; `start` opens it for a slot, `write` takes in the
  image, `finish` checks the image and selects its slot for the next boot, `cancel` gives the session up.
  The session released last can still be asked for its status. A call that is refused with `invalidArgs`,
  `noMemory` or `inProgress` leaves all but the log as it was.
-/

namespace BootSlots

structure Engine where
  store : Store
  /-- Memory in which image bytes are staged. -/
  arena : Memory
  settings : UpdateSettings := {}
  /-- The live session. -/
  active : Option Session := none
  /-- The session released last. -/
  last : Option Session := none
  /-- Number of the next session. -/
  nextId : UInt32 := 1
  log : Log := .empty

namespace Engine

/-- Name under which the engine logs. -/
def component : String := "ota"

def error (e : Engine) (text : String) : Engine :=
  { e with log := e.log.error component text }

def warn (e : Engine) (text : String) : Engine :=
  { e with log := e.log.warn component text }

def info (e : Engine) (text : String) : Engine :=
  { e with log := e.log.info component text }

/-- The number after `id`; 0 is left out when the numbers wrap around. -/
def idAfter (id : UInt32) : UInt32 :=
  if id + 1 = 0 then 1 else id + 1

/-- The arena is some whole number of sectors, at least one. -/
def arenaUsable (e : Engine) : Bool :=
  e.arena.size ≠ 0 && e.arena.size % sectorSize = 0

/-- The live session, if `h` is its handle. -/
def live? (e : Engine) (h : Handle) : Option Session :=
  match e.active with
  | some s => if s.id = h.id then some s else none
  | none => none

def isInProgress (e : Engine) : Bool :=
  e.active.isSome

/-- Starts a session that writes into `slot`. A declared size of 0 stands for an unknown one. -/
def start (e : Engine) (slot : UInt8) (declared : Nat) : Except UpdateFault Handle × Engine :=
  match e.store.region? slot with
  | none => (.error .invalidArgs, e.warn s!"begin: slot {slot.toNat} not configured")
  | some (address, limit) =>
    if e.isInProgress then (.error .inProgress, e.warn "begin: session already live")
    else if e.arenaUsable then
      let session : Session := {
        id := e.nextId, slot, limit, declared
        accepted := 0
        cursor := .start address
        phase := .started }
      (.ok ⟨e.nextId⟩,
        { e with active := some session, nextId := idAfter e.nextId }.info
          (s!"session {e.nextId.toNat} -> slot {slot.toNat} at " ++ Text.hex address))
    else (.error .noMemory, e.error s!"begin: arena of {e.arena.size} bytes unusable")

/-- The writer of a session of this engine. -/
def writer (e : Engine) (s : Session) : Image.Writer :=
  ⟨s.cursor, e.arena, e.store.flash⟩

/-- Puts arena and flash of a writer back in place. -/
def withWriter (e : Engine) (w : Image.Writer) : Engine :=
  { e with arena := w.arena, store := { e.store with flash := w.flash } }

/-- Takes in data that passed all checks; `accepted` counts it in. -/
def take (e : Engine) (s : Session) (data : List UInt8) (accepted : Nat) :
    Except UpdateFault Unit × Engine :=
  match (e.writer s).push data with
  | (.ok (), w) =>
    (.ok (), { e.withWriter w with
      active := some { s with accepted, cursor := w.cursor, phase := .writing } })
  | (.error fault, w) =>
    (.error fault.toUpdateFault,
      { e.withWriter w with active := some { s with cursor := w.cursor, phase := .failed } }.error
        ("write: " ++ fault.toUpdateFault.label ++ s!" at offset {w.cursor.flushed}"))

/-- Appends image bytes to the live session. -/
def write (e : Engine) (h : Handle) (data : List UInt8) : Except UpdateFault Unit × Engine :=
  match e.live? h with
  | none => (.error .invalidArgs, e)
  | some s =>
    let accepted := s.accepted + data.length
    if data.isEmpty || !s.phase.takesData || addressSpace ≤ accepted then (.error .invalidArgs, e)
    else if e.settings.enforceDeclaredSize && 0 < s.declared && s.declared < accepted then
      (.error .invalidArgs, e.warn s!"write: {accepted} bytes exceeds declared {s.declared}")
    else if s.limit < s.start + accepted then
      (.error .invalidArgs, e.warn ("write: runs past slot end " ++ Text.hex s.limit))
    else e.take s data accepted

/-- Selects the slot of a checked image. -/
def commit (e : Engine) (s : Session) (length : Nat) : Except UpdateFault Unit × Engine :=
  match e.store.selectSlot s.slot with
  | (.error fault, store) =>
    (.error .writeFailed, { e with store }.error ("end: commit failed: " ++ fault.label))
  | (.ok (), store) =>
    (.ok (), { e with store }.info s!"session {s.id.toNat} complete, {length} bytes")

/-- Flushes the session's stream, checks the image and commits it. -/
def conclude (e : Engine) (s : Session) : Except UpdateFault Unit × Engine :=
  match (e.writer s).flush with
  | (.error fault, w) =>
    (.error fault.toUpdateFault,
      (e.withWriter w).error ("end: flush failed: " ++ fault.toUpdateFault.label))
  | (.ok (), w) =>
    match Image.check w.flash s.start w.cursor.total with
    | .error fault =>
      (.error fault.toUpdateFault,
        (e.withWriter w).error ("end: verification failed: " ++ fault.label))
    | .ok header =>
      ((e.withWriter w).info
        (s!"slot {s.slot.toNat} verified, entry " ++ Text.hex header.entry.toNat)).commit
          s w.cursor.total

/-- Takes the live session out, in its last phase. -/
def release (e : Engine) (s : Session) (phase : Phase) : Engine :=
  { e with active := none, last := some { s with phase } }

/-- Ends the live session: flushes, checks, commits. The session is released whatever comes of it. -/
def finish (e : Engine) (h : Handle) : Except UpdateFault Unit × Engine :=
  match e.live? h with
  | none => (.error .invalidArgs, e)
  | some s =>
    if s.phase = .writing then
      match e.conclude s with
      | (.ok (), e) => (.ok (), e.release s .complete)
      | (.error fault, e) => (.error fault, e.release s .failed)
    else (.error .invalidArgs, e)

/-- Gives the live session up; does nothing for another handle. What was written stays. -/
def cancel (e : Engine) (h : Handle) : Engine :=
  match e.live? h with
  | none => e
  | some s => (e.release s .failed).info s!"session {s.id.toNat} cancelled"

/-- Status of the live session or of the one released last; any other handle counts as failed. -/
def status (e : Engine) (h : Handle) : Status :=
  match (e.active.toList ++ e.last.toList).find? (·.id == h.id) with
  | some s => s.status
  | none => ⟨.failed, 0⟩

/-- Slot to boot next. -/
def currentSlot (e : Engine) : UInt8 × Engine :=
  (e.store.currentSlot.1, { e with store := e.store.currentSlot.2 })

/-- Selects `slot` for the next boot, outside any session. -/
def selectSlot (e : Engine) (slot : UInt8) : Except RecordFault Unit × Engine :=
  ((e.store.selectSlot slot).1, { e with store := (e.store.selectSlot slot).2 })

end Engine

end BootSlots
