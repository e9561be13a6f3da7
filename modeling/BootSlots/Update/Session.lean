import BootSlots.Fault
import BootSlots.Image.Check
import BootSlots.Image.Writer

/-
  An update session: one image on its way into one slot. A session starts without data, takes in bytes, is
  checked when it ends, and is over once it is complete or failed.
-/

namespace BootSlots

/-- Why an update operation is refused or fails. -/
inductive UpdateFault where
  /-- A bad slot or handle, no data, too much data, or a call that the phase forbids. -/
  | invalidArgs
  /-- The arena cannot be used. -/
  | noMemory
  /-- A session is live. -/
  | inProgress
  | eraseFailed
  /-- Programming failed, or the selection could not be written. -/
  | writeFailed
  /-- The written image did not pass the check. -/
  | verifyFailed
deriving DecidableEq

namespace UpdateFault

/-- Name of the fault as printed in the log. -/
def label : UpdateFault → String
  | invalidArgs => "InvalidArgs"
  | noMemory => "NoMemory"
  | inProgress => "InProgress"
  | eraseFailed => "EraseFailed"
  | writeFailed => "WriteFailed"
  | verifyFailed => "VerifyFailed"

def toFault : UpdateFault → Fault
  | invalidArgs => .invalidArgs
  | noMemory => .noMemory
  | inProgress => .updateInProgress
  | eraseFailed => .eraseFailed
  | writeFailed => .writeFailed
  | verifyFailed => .verifyFailed

end UpdateFault

def Image.WriteFault.toUpdateFault : Image.WriteFault → UpdateFault
  | eraseFailed => .eraseFailed
  | programFailed => .writeFailed

def Image.CheckFault.toUpdateFault (_ : Image.CheckFault) : UpdateFault := .verifyFailed

inductive Phase where
  /-- No session has been started. -/
  | ready
  /-- Started, no data yet. -/
  | started
  /-- Taking in data. -/
  | writing
  /-- Checking the written image. -/
  | verifying
  /-- The image is checked and selected for the next boot. -/
  | complete
  /-- Failed or cancelled. -/
  | failed
deriving DecidableEq

namespace Phase

/-- No phase follows. -/
def isTerminal : Phase → Bool
  | complete | failed => true
  | _ => false

/-- Data may be taken in. -/
def takesData : Phase → Bool
  | started | writing => true
  | _ => false

end Phase

/-- What callers hold of a session. -/
structure Handle where
  id : UInt32
deriving DecidableEq

structure Session where
  id : UInt32
  slot : UInt8
  /-- End of the slot's region. -/
  limit : Nat
  /-- Image size declared at the start; 0 if unknown. -/
  declared : Nat
  /-- Number of bytes taken in by writes that succeeded. -/
  accepted : Nat
  cursor : Image.Cursor
  phase : Phase

/-- What a session reports to its caller. -/
structure Status where
  phase : Phase
  /-- Part of the declared size taken in, in percent. -/
  progress : Nat
deriving DecidableEq

namespace Session

/-- Start of the slot's region. -/
def start (s : Session) : Nat :=
  s.cursor.base

def progress (s : Session) : Nat :=
  if 0 < s.declared then min (s.accepted * 100 / s.declared) 100 else 0

def status (s : Session) : Status :=
  ⟨s.phase, s.progress⟩

end Session

end BootSlots
