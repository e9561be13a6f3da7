import BootSlots.Proofs.Image.WordArithmetic
import BootSlots.Proofs.Record.ReadBack
import BootSlots.Proofs.Update.Accounting

/-
  Sessions by machine words. Sizes and addresses are natural numbers in the engine. Here a write, an end and a
  request for the status are carried out once more, in the order of the device and with each number checked as it
  is computed: sizes, addresses and what the writer computes are words of 32 bits, the product behind the progress
  has 64 bits, and the progress itself 8. Where the device looks itself whether a sum fits, in a write, a sum that
  does not fit is a refusal. Everywhere else it would be a fault of the device, and here no result.

  There always is a result, and it is that of the engine. The bounds come from far away: the region of a slot ends
  at a sector of a flash that is itself smaller than the address space, and a write keeps to the region.

  Proved:
  * `write?_eq`, `finish?_eq`, `status?_eq`: each operation, for an engine with its books in order.
  * `Counted.after`: no session has ever taken in more than a word counts.
  * `computes_in_words`: all operations, at any time in a history.
-/

namespace BootSlots

theorem Flash.capacity_lt (f : Flash) : f.capacity < addressSpace := by
  unfold capacity
  split
  · exact UInt32.toNat_lt _
  · exact f.size_lt

/-- Two sums that are checked one after the other. -/
theorem word?_bind_add (a b : Nat) : ((word? b).bind fun b => word? (a + b)) = word? (a + b) := by
  by_cases hb : b < addressSpace
  · rw [word?_of_lt hb, Option.bind_some]
  · rw [word?_of_le (Nat.not_lt.mp hb), word?_of_le (by omega), Option.bind_none]

/-- A sum that is too large for a word is above any limit that is one. -/
theorem any_word?_le {n limit : Nat} (h : limit < addressSpace) :
    (word? n).any (· ≤ limit) = decide (n ≤ limit) := by
  by_cases hn : n < addressSpace
  · rw [word?_of_lt hn, Option.any_some]
  · rw [word?_of_le (Nat.not_lt.mp hn), Option.any_none]
    exact (decide_eq_false (by omega)).symm

/-- `Cursor.total` by words. -/
def Image.Cursor.total? (c : Image.Cursor) : Option Nat := do
  let count ← word? c.pending
  word? (c.flushed + count)

namespace Session

/-- `progress` with the widths of its numbers. -/
def progress? (s : Session) : Option Nat :=
  if 0 < s.declared then do
    let product ← held? UInt64.size (s.accepted * 100)
    held? UInt8.size (min (product / s.declared) 100)
  else some 0

def status? (s : Session) : Option Status := do
  let progress ← s.progress?
  some ⟨s.phase, progress⟩

theorem progress?_eq {s : Session} (h : s.accepted < addressSpace) : s.progress? = some s.progress := by
  have hproduct : s.accepted * 100 < UInt64.size := by
    rw [addressSpace] at h
    rw [UInt64.size]
    omega
  have hpercent : min (s.accepted * 100 / s.declared) 100 < UInt8.size := by
    rw [UInt8.size]
    omega
  unfold progress? progress
  split
  · rw [held?_eq_some_iff.mpr ⟨hproduct, rfl⟩]
    exact held?_eq_some_iff.mpr ⟨hpercent, rfl⟩
  · rfl

theorem status?_eq {s : Session} (h : s.accepted < addressSpace) : s.status? = some s.status := by
  rw [status?, progress?_eq h]
  rfl

end Session

namespace Engine

/-! ## Operations by words -/

/-- What is left of a write after its push. -/
def booked (e : Engine) (s : Session) (accepted : Nat) :
    Except Image.WriteFault Unit × Image.Writer → Except UpdateFault Unit × Engine
  | (.ok (), w) =>
    (.ok (), { e.withWriter w with
      active := some { s with accepted, cursor := w.cursor, phase := .writing } })
  | (.error fault, w) =>
    (.error fault.toUpdateFault,
      { e.withWriter w with active := some { s with cursor := w.cursor, phase := .failed } }.error
        ("write: " ++ fault.toUpdateFault.label ++ s!" at offset {w.cursor.flushed}"))

/-- What is left of an end after its flush, with the length of the image. -/
def judged (e : Engine) (s : Session) (w : Image.Writer) (total : Nat) :
    Except UpdateFault Unit × Engine :=
  match Image.check w.flash s.start total with
  | .error fault =>
    (.error fault.toUpdateFault,
      (e.withWriter w).error ("end: verification failed: " ++ fault.label))
  | .ok header =>
    ((e.withWriter w).info
      (s!"slot {s.slot.toNat} verified, entry " ++ Text.hex header.entry.toNat)).commit s total

def take? (e : Engine) (s : Session) (data : List UInt8) (accepted : Nat) :
    Option (Except UpdateFault Unit × Engine) := do
  let r ← (e.writer s).push? data
  some (e.booked s accepted r)

/-- A write: two sums are looked at by the device itself, that of the sizes and that of the addresses. -/
def write? (e : Engine) (h : Handle) (data : List UInt8) : Option (Except UpdateFault Unit × Engine) :=
  if data = [] then some (.error .invalidArgs, e)
  else
    match e.live? h with
    | none => some (.error .invalidArgs, e)
    | some s =>
      if s.phase.takesData = false then some (.error .invalidArgs, e)
      else
        match (word? data.length).bind fun length => word? (s.accepted + length) with
        | none => some (.error .invalidArgs, e)
        | some accepted =>
          if e.settings.enforceDeclaredSize && 0 < s.declared && s.declared < accepted then
            some (.error .invalidArgs, e.warn s!"write: {accepted} bytes exceeds declared {s.declared}")
          else if (word? (s.start + accepted)).any (· ≤ s.limit) then e.take? s data accepted
          else some (.error .invalidArgs, e.warn ("write: runs past slot end " ++ Text.hex s.limit))

def conclude? (e : Engine) (s : Session) : Option (Except UpdateFault Unit × Engine) := do
  match ← (e.writer s).flush? with
  | (.error fault, w) =>
    some (.error fault.toUpdateFault,
      (e.withWriter w).error ("end: flush failed: " ++ fault.toUpdateFault.label))
  | (.ok (), w) =>
    let total ← w.cursor.total?
    some (e.judged s w total)

def finish? (e : Engine) (h : Handle) : Option (Except UpdateFault Unit × Engine) :=
  match e.live? h with
  | none => some (.error .invalidArgs, e)
  | some s =>
    if s.phase = .writing then do
      match ← e.conclude? s with
      | (.ok (), e) => some (.ok (), e.release s .complete)
      | (.error fault, e) => some (.error fault, e.release s .failed)
    else some (.error .invalidArgs, e)

def status? (e : Engine) (h : Handle) : Option Status :=
  match (e.active.toList ++ e.last.toList).find? (·.id == h.id) with
  | some s => s.status?
  | none => some ⟨.failed, 0⟩

variable {e e' : Engine} {s : Session} {d : List UInt8}

/-! ## One operation -/

theorem take_eq_booked (e : Engine) (s : Session) (data : List UInt8) (accepted : Nat) :
    e.take s data accepted = e.booked s accepted ((e.writer s).push data) := by
  unfold take
  split <;> rename_i hpush <;> rw [hpush] <;> rfl

/-- The limit of a session with its books in order is a word, whatever size the flash reports. -/
theorem Tracks.limit_lt (h : e.Tracks s d) : s.limit < addressSpace :=
  Nat.lt_of_le_of_lt h.limit_le (Flash.capacity_lt _)

theorem Tracks.take?_eq (h : e.Tracks s d) (hmod : e.store.flash.capacity % sectorSize = 0)
    {data : List UInt8} (accepted : Nat) (hfits : s.start + (s.accepted + data.length) ≤ s.limit) :
    e.take? s data accepted = some (e.take s data accepted) := by
  have harena : 0 < (e.writer s).arena.size := Nat.lt_of_le_of_lt (Nat.zero_le _) h.live.room
  have hpush : (e.writer s).push? data = some ((e.writer s).push data) := by
    apply h.live.stream.push?_eq harena (h.limit_mod hmod) h.limit_lt
    rw [h.live.accepted] at hfits
    rw [Nat.add_assoc]
    exact hfits
  rw [take?, hpush, take_eq_booked]
  rfl

theorem Tracked.tracks (h : e.Tracked d) {handle : Handle} (hlive : e.live? handle = some s)
    (htakes : s.phase.takesData = true) : e.Tracks s d := by
  refine (h s (live?_eq_some_iff.mp hlive).1).resolve_left ?_
  intro hfailed
  rw [hfailed] at htakes
  cases htakes

/-- A write by words is the write. -/
theorem Tracked.write?_eq (h : e.Tracked d) (hmod : e.store.flash.capacity % sectorSize = 0)
    (handle : Handle) (data : List UInt8) : e.write? handle data = some (e.write handle data) := by
  unfold write? Engine.write
  cases hlive : e.live? handle with
  | none => simp
  | some s =>
    by_cases hdata : data = []
    · simp [hdata]
    · by_cases htakes : s.phase.takesData = true
      · have htracks := h.tracks hlive htakes
        have hlimit := htracks.limit_lt
        by_cases hspace : s.accepted + data.length < addressSpace
        · have hsize := Nat.not_le.mpr hspace
          by_cases hfits : s.start + (s.accepted + data.length) ≤ s.limit
          · have htake := htracks.take?_eq hmod (s.accepted + data.length) hfits
            simp [hdata, htakes, word?_bind_add, word?_of_lt hspace, hsize, any_word?_le hlimit, hfits,
              Nat.not_lt.mpr hfits, htake, apply_ite some]
          · simp [hdata, htakes, word?_bind_add, word?_of_lt hspace, hsize, any_word?_le hlimit, hfits,
              Nat.not_le.mp hfits, apply_ite some]
        · have hsize := Nat.not_lt.mp hspace
          simp [hdata, htakes, word?_bind_add, word?_of_le hsize, hsize]
      · simp [hdata, htakes]

/-- An end by words is the end. -/
theorem Tracks.conclude?_eq (h : e.Tracks s d) (hmod : e.store.flash.capacity % sectorSize = 0) :
    e.conclude? s = some (e.conclude s) := by
  have hlimit := h.limit_lt
  have hfits := h.live.fits
  have hflush : (e.writer s).flush? = some (e.writer s).flush :=
    h.live.stream.flush?_eq (h.limit_mod hmod) hlimit hfits
  obtain ⟨hstream, -, -, -⟩ := h.live.stream.flush
  have htotal := hstream.total
  rw [conclude?, conclude, hflush]
  generalize (e.writer s).flush = r at htotal ⊢
  obtain ⟨_ | _, w⟩ := r
  · rfl
  · dsimp only at htotal
    simp only [Image.Cursor.total?, Option.bind_eq_bind, Option.bind_some]
    rw [word?_of_lt (by omega), Option.bind_some, word?_of_lt (by omega)]
    rfl

theorem Tracked.finish?_eq (h : e.Tracked d) (hmod : e.store.flash.capacity % sectorSize = 0)
    (handle : Handle) : e.finish? handle = some (e.finish handle) := by
  unfold finish? finish
  cases hlive : e.live? handle with
  | none => rfl
  | some s =>
    by_cases hphase : s.phase = .writing
    · have htracks := h.tracks hlive (by rw [hphase]; rfl)
      simp only [if_pos hphase, htracks.conclude?_eq hmod, Option.bind_eq_bind, Option.bind_some]
      generalize e.conclude s = r
      obtain ⟨_ | _, e'⟩ := r
      · rfl
      · rfl
    · simp only [if_neg hphase]

/-! ## Sizes over a history -/

/-- No session that can be asked for its status has taken in more than a word counts. -/
def Counted (e : Engine) : Prop :=
  ∀ s ∈ e.active.toList ++ e.last.toList, s.accepted < addressSpace

theorem Counted.status?_eq (h : e.Counted) (handle : Handle) :
    e.status? handle = some (e.status handle) := by
  unfold status? status
  cases hfind : (e.active.toList ++ e.last.toList).find? (·.id == handle.id) with
  | none => rfl
  | some s => exact Session.status?_eq (h s (List.mem_of_find?_eq_some hfind))

theorem Counted.of_same (h : e.Counted) (hactive : e'.active = e.active) (hlast : e'.last = e.last) :
    e'.Counted := by
  rw [Counted, hactive, hlast]
  exact h

theorem Counted.of_quiet (h : e.Counted) (hq : e'.quiet = e.quiet) : e'.Counted :=
  h.of_same (active_of_quiet_eq hq) (congrArg (·.last) hq)

theorem Counted.active (h : e.Counted) (hactive : e.active = some s) : s.accepted < addressSpace :=
  h s (List.mem_append_left _ (by simp [hactive]))

/-- The live session becomes another one with a size that a word holds. -/
theorem Counted.of_active (h : e.Counted) (hactive : e'.active = some s) (hlast : e'.last = e.last)
    (hcount : s.accepted < addressSpace) : e'.Counted := by
  intro t ht
  rw [hactive, hlast, Option.toList_some, List.singleton_append, List.mem_cons] at ht
  rcases ht with rfl | hmem
  · exact hcount
  · exact h t (List.mem_append_right _ hmem)

theorem Counted.release (hcount : s.accepted < addressSpace) (phase : Phase) :
    (e.release s phase).Counted := by
  intro t ht
  have hsame : t = { s with phase } := by simpa [Engine.release] using ht
  rw [hsame]
  exact hcount

theorem Counted.write (h : e.Counted) (handle : Handle) (data : List UInt8) :
    (e.write handle data).2.Counted := by
  obtain ⟨-, hq⟩ | ⟨s, hlive, -, -, hspace, -, -, htake⟩ := e.write_cases handle data
  · exact h.of_quiet hq
  · have hcount := h.active (live?_eq_some_iff.mp hlive).1
    rw [htake]
    obtain ⟨-, -, hq⟩ | ⟨-, hq⟩ := e.take_cases s data (s.accepted + data.length)
    · exact h.of_active (active_of_quiet_eq hq) (congrArg (·.last) hq) hspace
    · exact h.of_active (active_of_quiet_eq hq) (congrArg (·.last) hq) hcount

theorem Counted.next (h : e.Counted) (c : Call) : (e.next c).Counted := by
  cases c with
  | start slot declared =>
    obtain ⟨-, hq⟩ | ⟨_, _, -, -, -, -, hq⟩ := e.start_cases slot declared
    · exact h.of_quiet hq
    · have hnone : 0 < addressSpace := by decide
      exact h.of_active (active_of_quiet_eq hq) (congrArg (·.last) hq) hnone
  | write handle data => exact h.write handle data
  | finish handle =>
    obtain ⟨-, heq⟩ | ⟨s, hlive, hphase⟩ := e.finish_cases handle
    · rw [Engine.next, heq]
      exact h
    · obtain ⟨-, phase, heq, -⟩ := finish_of_writing hlive hphase
      rw [Engine.next, heq]
      exact .release (h.active (live?_eq_some_iff.mp hlive).1) phase
  | cancel handle =>
    rw [Engine.next, cancel]
    split
    · exact h
    · rename_i s hlive
      have hreleased : (e.release s .failed).Counted :=
        .release (h.active (live?_eq_some_iff.mp hlive).1) .failed
      exact hreleased.of_same rfl rfl
  | status handle => exact h
  | currentSlot => exact h.of_quiet e.quiet_currentSlot
  | selectSlot slot => exact h.of_same rfl rfl
  | setFaults faults => exact h.of_same rfl rfl

theorem Counted.after (h : e.Counted) (calls : List Call) : (e.after calls).Counted := by
  induction calls generalizing e with
  | nil => exact h
  | cons c calls ih => exact ih (h.next c)

/-! ## All operations -/

theorem Tracked.sound (h : e.Tracked d) : e.Sound :=
  fun s hactive => (h s hactive).imp_right fun htracks => ⟨d, htracks.live⟩

/-- No call changes what the flash reports as its capacity. -/
theorem Tracked.capacity_after (h : e.Tracked d) (calls : List Call) :
    (e.after calls).store.flash.capacity = e.store.flash.capacity := by
  induction calls generalizing e d with
  | nil => rfl
  | cons c calls ih =>
    obtain ⟨image, f, hafter, hsaves, -⟩ := next_flash h.sound c
    obtain ⟨ops, heq, -⟩ := hsaves.performAll
    have hnext : (e.next c).store.flash.capacity = e.store.flash.capacity := by
      rw [heq, Flash.capacity_performAll, hafter.capacity]
    rw [after_cons, ih (h.next c), hnext]

/-- On a flash of whole sectors, whatever its size and its faults, an engine that has had no session is at any time
one whose operations are carried out by words: no number that a write, an end or the status computes is too large
for its type or negative, the loops come to their ends, and the results are those of the engine. -/
theorem computes_in_words (hidle : e.active = none) (hlast : e.last = none)
    (hmod : e.store.flash.capacity % sectorSize = 0) (calls : List Call) :
    (∀ h data, (e.after calls).write? h data = some ((e.after calls).write h data)) ∧
      (∀ h, (e.after calls).finish? h = some ((e.after calls).finish h)) ∧
      ∀ h, (e.after calls).status? h = some ((e.after calls).status h) := by
  have htracked := (tracked_of_idle hidle []).after calls
  have hmod' : (e.after calls).store.flash.capacity % sectorSize = 0 := by
    rw [(tracked_of_idle hidle []).capacity_after calls]
    exact hmod
  have hcounted : e.Counted := by simp [Counted, hidle, hlast]
  exact ⟨htracked.write?_eq hmod', htracked.finish?_eq hmod', (hcounted.after calls).status?_eq⟩

/-- A record whose second slot is the last sector that a flash of the largest size has. -/
def edgeRecord : Record :=
  { Record.factory 0 with addresses := #v[UInt32.ofNat firstImageAddress, 0xFFFFE000, 0, 0] }

/-- An idle engine on a flash of the largest size there is, with this record. -/
theorem exists_edge :
    ∃ e : Engine, (e.active = none ∧ e.last = none ∧ e.nextId = 1 ∧ e.arenaUsable = true) ∧
      e.store.load = .ok edgeRecord ∧ e.store.flash.capacity = 0xFFFFF000 ∧
      e.store.flash.Unhindered 0xFFFFF000 := by
  let cells : Memory := Array.replicate 0xFFFFF000 erased
  have hsize : cells.size = 0xFFFFF000 := Array.size_replicate
  let f : Flash := {
    cells
    size_mod := by rw [hsize]; decide
    size_lt := by rw [hsize]; decide }
  have hcells : (f.performAll edgeRecord.saveOps).cells.size = 0xFFFFF000 := by
    rw [Flash.cells_performAll, Memory.size_replay]
    exact hsize
  have hcapacity : (f.performAll edgeRecord.saveOps).capacity = 0xFFFFF000 := by
    rw [Flash.capacity_performAll]
    exact hsize
  have hfaults : (f.performAll edgeRecord.saveOps).faults = {} := Flash.faults_performAll _ _
  have hvalid : edgeRecord.validate f.capacity = .ok () := by
    rw [show f.capacity = 0xFFFFF000 from hsize]
    exact (Record.validate_eq_ok_iff edgeRecord 0xFFFFF000).mpr (by decide)
  have hload : (f.performAll edgeRecord.saveOps).loadRecord = .ok edgeRecord :=
    Flash.loadRecord_performAll_saveOps rfl rfl hvalid
      (by rw [show f.cells.size = 0xFFFFF000 from hsize]; decide) rfl
  refine ⟨{ store := { flash := f.performAll edgeRecord.saveOps }, arena := Array.replicate sectorSize 0 },
    ⟨rfl, rfl, rfl, ?_⟩, hload, hcapacity, ?_⟩
  · rw [arenaUsable, Array.size_replicate]
    rfl
  · exact ⟨by rw [hfaults], by rw [hfaults], Nat.le_of_eq hcells.symm⟩

/-- A session for that slot takes a whole sector of data to the flash, by words, up to its very end. -/
theorem computes_in_words_edge :
    ∃ e : Engine, e.active = none ∧ e.last = none ∧ e.store.flash.capacity = 0xFFFFF000 ∧
      (e.start 1 0).1 = .ok ⟨1⟩ ∧
      ((e.after [.start 1 0]).write ⟨1⟩ (List.replicate sectorSize 0)).1 = .ok () ∧
      (e.after [.start 1 0]).write? ⟨1⟩ (List.replicate sectorSize 0) =
        some ((e.after [.start 1 0]).write ⟨1⟩ (List.replicate sectorSize 0)) := by
  obtain ⟨e, ⟨hidle, hlast, hid, harena⟩, hload, hcapacity, hfree⟩ := exists_edge
  have haddress : edgeRecord.address? 1 = some 0xFFFFE000 := by decide
  have hlength : (List.replicate sectorSize (0 : UInt8)).length = sectorSize := List.length_replicate
  have hdata : List.replicate sectorSize (0 : UInt8) ≠ [] := by
    rw [← List.length_pos_iff, hlength]
    decide
  have hfits : 0xFFFFE000 + (List.replicate sectorSize (0 : UInt8)).length = 0xFFFFF000 := by
    rw [hlength]
    rfl
  obtain ⟨hstart, hwrite, -⟩ := write_first_of_start hload hidle harena haddress hdata
    (by rw [hcapacity, hfits]; decide) (by rw [hfits]; exact hfree)
  rw [hid] at hstart hwrite
  obtain ⟨hwords, -, -⟩ := computes_in_words hidle hlast (by rw [hcapacity]; decide) [.start 1 0]
  exact ⟨e, hidle, hlast, hcapacity, hstart, hwrite, hwords ⟨1⟩ (List.replicate sectorSize 0)⟩

end Engine

end BootSlots
