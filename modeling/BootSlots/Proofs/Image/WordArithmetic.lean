import BootSlots.Proofs.Device.CheckedNumbers
import BootSlots.Proofs.Image.Chunks

/-
  The writer by machine words. Addresses, counts and their sums are natural numbers in the writer, and words of
  32 bits on the device. Here each of them goes through a check as it is computed: `word?` for sums, products and
  conversions, `minus?` for differences. A number that does not fit gives no result at all, where a device would
  wrap it around, cut it off or stop.

  Nothing in the loops keeps the numbers small. They fit because of what is known from outside: the stream ends at
  or before a limit, which is a word itself and the start of a sector. The end of the sector that holds the last
  byte is then no later than the limit. Without the second half this fails: the last sector of the address space
  has no end that is a word.

  Proved:
  * `program?_eq`: programming by words, in pieces cut on the way, is `programPieces` of the pieces.
  * `flush?_eq`: the same of a flush, for a writer in any state.
  * `Sized.push?_eq`: taking in data by words, by fills of the arena, is `push`.
-/

namespace BootSlots

/-- The sector that an address below the start of a sector lies in ends there or earlier. -/
theorem sectorEnd_le {address limit : Nat} (h : address < limit) (hmod : limit % sectorSize = 0) :
    sectorEnd address ≤ limit := by
  simp only [sectorEnd, sectorOf, sectorSize_eq] at *
  omega

namespace Image

/-! ## Pieces -/

/-- End of the sector that holds `address`. -/
def sectorEnd? (address : Nat) : Option Nat := do
  let next ← word? (sectorOf address + 1)
  word? (next * sectorSize)

/-- Number of bytes from `address` up to the end of its sector. -/
def sectorRest? (address : Nat) : Option Nat := do
  let stop ← sectorEnd? address
  minus? stop address

theorem sectorRest?_eq_some_iff {address rest : Nat} : sectorRest? address = some rest ↔
    sectorEnd address < addressSpace ∧ sectorEnd address - address = rest := by
  have hlt := lt_sectorEnd address
  simp only [sectorRest?, sectorEnd?, word?, Option.bind_eq_bind, Option.bind_eq_some_iff,
    held?_eq_some_iff, minus?_eq_some_iff]
  constructor
  · rintro ⟨_, ⟨_, ⟨-, rfl⟩, hend, rfl⟩, -, hrest⟩
    exact ⟨hend, hrest⟩
  · rintro ⟨hend, hrest⟩
    have hnext : sectorOf address + 1 < addressSpace := by
      simp only [sectorEnd, sectorSize_eq] at hend
      omega
    exact ⟨_, ⟨_, ⟨hnext, rfl⟩, hend, rfl⟩, Nat.le_of_lt hlt, hrest⟩

/-- The last sector of the address space has no end that is a word. -/
example : sectorRest? 0xFFFFF000 = none := by decide

namespace Writer

/-- `resume` by words: goes on where all went well so far; a fault is the end. -/
def resume? (r : Except WriteFault Unit × Writer)
    (next : Writer → Option (Except WriteFault Unit × Writer)) :
    Option (Except WriteFault Unit × Writer) :=
  match r with
  | (.ok (), w) => next w
  | (.error fault, w) => some (.error fault, w)

theorem resume?_eq {r : Except WriteFault Unit × Writer}
    {next? : Writer → Option (Except WriteFault Unit × Writer)}
    {next : Writer → Except WriteFault Unit × Writer}
    (h : ∀ w, r = (.ok (), w) → next? w = some (next w)) : resume? r next? = some (resume r next) := by
  obtain ⟨_ | _, w⟩ := r
  · rfl
  · exact h w rfl

/-- Programs bytes from `address` on, as many at a time as are left of a sector. -/
def program? (w : Writer) (address : Nat) (bytes : List UInt8) :
    Option (Except WriteFault Unit × Writer) :=
  if bytes = [] then some (.ok (), w)
  else
    match _ : sectorRest? address with
    | none => none
    | some rest =>
      resume? (w.programPiece address (bytes.take rest)) fun w => do
        let count ← word? (bytes.take rest).length
        let next ← word? (address + count)
        w.program? next (bytes.drop rest)
termination_by bytes.length
decreasing_by
  have := List.length_pos_iff.mpr ‹bytes ≠ []›
  obtain ⟨-, hrest⟩ := sectorRest?_eq_some_iff.mp ‹sectorRest? address = some rest›
  have := lt_sectorEnd address
  rw [List.length_drop]
  omega

/-- Programs the staged bytes. -/
def flush? (w : Writer) : Option (Except WriteFault Unit × Writer) :=
  if w.cursor.pending = 0 then some (.ok (), w)
  else do
    let address ← word? (w.cursor.base + w.cursor.flushed)
    let r ← w.program? address w.staged
    resume? r fun w => do
      let count ← word? w.cursor.pending
      let flushed ← word? (w.cursor.flushed + count)
      some (.ok (), { w with cursor := { w.cursor with flushed, pending := 0 } })

/-- Flushes a full arena. -/
def settle? (w : Writer) : Option (Except WriteFault Unit × Writer) :=
  if w.cursor.pending = w.arena.size then w.flush? else some (.ok (), w)

/-- What a writer has yet to do for data: each byte is to be staged, and a full arena to be flushed. -/
def due (w : Writer) (data : List UInt8) : Nat :=
  2 * data.length + if w.room = 0 then 1 else 0

/-- Takes in data by fills of the arena. A round that gets nothing done would be followed by others like it for
ever, so it has no result either. -/
def push? (w : Writer) (data : List UInt8) : Option (Except WriteFault Unit × Writer) :=
  if data = [] then some (.ok (), w)
  else do
    let room ← minus? w.arena.size w.cursor.pending
    let r ← (w.fill (data.take room)).settle?
    resume? r fun w' =>
      if w'.due (data.drop room) < w.due data then w'.push? (data.drop room) else none
termination_by w.due data

variable {w : Writer} {d : List UInt8} {limit : Nat}

theorem program?_nil (w : Writer) (address : Nat) : w.program? address [] = some (.ok (), w) := by
  rw [program?, if_pos rfl]

theorem program?_of_rest {address rest : Nat} {bytes : List UInt8} (hbytes : bytes ≠ [])
    (hrest : sectorRest? address = some rest) : w.program? address bytes =
      resume? (w.programPiece address (bytes.take rest)) (fun w => do
        let count ← word? (bytes.take rest).length
        let next ← word? (address + count)
        w.program? next (bytes.drop rest)) := by
  rw [program?, if_neg hbytes]
  split
  · rename_i hnone
    cases hrest.symm.trans hnone
  · rename_i rest' hsome
    obtain rfl := Option.some.inj (hrest.symm.trans hsome)
    rfl

/-- Bytes that end before a limit are programmed by words, in the pieces of the whole run. -/
theorem program?_eq (hmod : limit % sectorSize = 0) (hlimit : limit < addressSpace) (w : Writer)
    (address : Nat) (bytes : List UInt8) (hfits : address + bytes.length ≤ limit) :
    w.program? address bytes = some (w.programPieces (pieces address bytes)) := by
  fun_induction pieces address bytes generalizing w with
  | case1 address => rw [program?_nil, programPieces]
  | case2 address b bs ih =>
    rw [List.length_cons] at hfits
    have hlt := lt_sectorEnd address
    have hend : sectorEnd address ≤ limit := sectorEnd_le (by omega) hmod
    have hrest : sectorRest? address = some (sectorEnd address - address) :=
      sectorRest?_eq_some_iff.mpr ⟨by omega, rfl⟩
    have htake : ((b :: bs).take (sectorEnd address - address)).length =
        min (sectorEnd address - address) (bs.length + 1) := by simp
    have hdrop : ((b :: bs).drop (sectorEnd address - address)).length =
        bs.length + 1 - (sectorEnd address - address) := by simp
    rw [program?_of_rest (List.cons_ne_nil b bs) hrest, programPieces_cons]
    apply resume?_eq
    intro w' _
    rw [htake, word?_of_lt (by omega), Option.bind_eq_bind, Option.bind_some, word?_of_lt (by omega),
      Option.bind_some]
    -- the next piece starts at the end of the sector, or nothing is left
    by_cases hlast : bs.length + 1 ≤ sectorEnd address - address
    · have hnil : (b :: bs).drop (sectorEnd address - address) = [] := List.drop_eq_nil_of_le hlast
      rw [hnil, program?_nil, pieces_nil, programPieces]
    · have hnext : address + min (sectorEnd address - address) (bs.length + 1) = sectorEnd address := by
        omega
      rw [hnext]
      exact ih w' (by omega)

/-! ## Flushes -/

theorem counts_of_programPieces {ps : List (Nat × List UInt8)} {w' : Writer}
    (h : w.programPieces ps = (.ok (), w')) :
    w'.cursor.flushed = w.cursor.flushed ∧ w'.cursor.pending = w.cursor.pending := by
  have htries := w.tries_programPieces ps
  rw [h] at htries
  cases htries
  exact ⟨rfl, rfl⟩

theorem flush_eq_resume (h : w.cursor.pending ≠ 0) :
    w.flush = resume (w.programPieces (pieces (w.cursor.base + w.cursor.flushed) w.staged))
      fun w => (.ok (), w.drain) := by
  rw [flush, if_neg h]
  split <;> rename_i hpieces <;> rw [hpieces] <;> rfl

/-- A flush goes on where the writer is, and what was taken in stays so. -/
theorem flush_keeps (w : Writer) :
    w.flush.2.cursor.base = w.cursor.base ∧ w.flush.2.cursor.total = w.cursor.total := by
  obtain heq | ⟨ops, step, rest, -, -, heq⟩ := w.flush_cases <;> rw [heq]
  · exact ⟨rfl, rfl⟩
  · exact ⟨rfl, rfl⟩

theorem settle_keeps (w : Writer) : w.settle.2.cursor.base = w.cursor.base ∧
    w.settle.2.cursor.total = w.cursor.total ∧ w.settle.2.arena = w.arena := by
  rw [settle]
  split
  · obtain ⟨hbase, htotal⟩ := w.flush_keeps
    exact ⟨hbase, htotal, w.flush_arena.1⟩
  · exact ⟨rfl, rfl, rfl⟩

/-- What ends before a limit is flushed by words. -/
theorem flush?_eq (hpending : w.cursor.pending ≤ w.arena.size) (hmod : limit % sectorSize = 0)
    (hlimit : limit < addressSpace) (hfits : w.cursor.base + w.cursor.total ≤ limit) :
    w.flush? = some w.flush := by
  rw [Cursor.total] at hfits
  by_cases hnone : w.cursor.pending = 0
  · rw [flush?, Writer.flush, if_pos hnone, if_pos hnone]
  · have hstaged : w.staged.length = w.cursor.pending := by
      rw [staged, Memory.length_slice]
      omega
    have hprogram := program?_eq hmod hlimit w (w.cursor.base + w.cursor.flushed) w.staged (by omega)
    rw [flush?, if_neg hnone, word?_of_lt (by omega), flush_eq_resume hnone]
    simp only [Option.bind_eq_bind, Option.bind_some, hprogram]
    apply resume?_eq
    intro w' hpieces
    obtain ⟨hflushed, hstays⟩ := counts_of_programPieces hpieces
    rw [hflushed, hstays, word?_of_lt (by omega), Option.bind_some, word?_of_lt (by omega),
      Option.bind_some, drain, hflushed, hstays]

theorem settle?_eq (hpending : w.cursor.pending ≤ w.arena.size) (hmod : limit % sectorSize = 0)
    (hlimit : limit < addressSpace) (hfits : w.cursor.base + w.cursor.total ≤ limit) :
    w.settle? = some w.settle := by
  rw [settle?, Writer.settle]
  split
  · exact flush?_eq hpending hmod hlimit hfits
  · rfl

/-! ## Fills -/

theorem size_fill (w : Writer) (bytes : List UInt8) : (w.fill bytes).arena.size = w.arena.size :=
  Memory.size_put _ _ _

/-- A fill takes as many of the data as there is room for. -/
theorem Sized.pending_fill (h : w.Sized) (data : List UInt8) :
    (w.fill (data.take w.room)).cursor.pending = min w.arena.size (w.cursor.pending + data.length) := by
  have hpending := h.pending
  show w.cursor.pending + (data.take w.room).length = _
  rw [List.length_take, room]
  omega

/-- What is left of the data comes after what was taken in. -/
theorem Sized.fill (h : w.Sized) (data : List UInt8) :
    (w.fill (data.take w.room)).Sized ∧
      (w.fill (data.take w.room)).cursor.total + (data.drop w.room).length =
        w.cursor.total + data.length := by
  have hpending := h.pending
  have hfilled := h.pending_fill data
  have hflushed : (w.fill (data.take w.room)).cursor.flushed = w.cursor.flushed := rfl
  refine ⟨⟨?_, ?_⟩, ?_⟩
  · rw [size_fill]
    exact h.arena
  · rw [hfilled, size_fill]
    exact Nat.min_le_left _ _
  · rw [Cursor.total, Cursor.total, hfilled, hflushed, List.length_drop, room]
    omega

/-- A round gets something done: it stages a byte, or it makes room for one. -/
theorem due_lt {w' : Writer} {data : List UInt8} (hdata : data ≠ []) (hroom : w'.room ≠ 0) :
    w'.due (data.drop w.room) < w.due data := by
  have hpos := List.length_pos_iff.mpr hdata
  rw [due, due, if_neg hroom, List.length_drop]
  split
  · omega
  · omega

/-- One round by words. -/
theorem push?_of_settle {data : List UInt8} {r : Except WriteFault Unit × Writer} (hdata : data ≠ [])
    (hpending : w.cursor.pending ≤ w.arena.size)
    (hsettle : (w.fill (data.take w.room)).settle? = some r) : w.push? data =
      resume? r (fun w' =>
        if w'.due (data.drop w.room) < w.due data then w'.push? (data.drop w.room) else none) := by
  rw [push?, if_neg hdata, minus?_of_le hpending]
  simp only [Option.bind_eq_bind, Option.bind_some]
  rw [← room, hsettle, Option.bind_some]

/-- Fills that come to an end are made by words, by induction on the fills. -/
theorem Pours.push?_eq {data : List UInt8} {r : Except WriteFault Unit × Writer} (hpours : w.Pours data r)
    (h : w.Sized) (hmod : limit % sectorSize = 0) (hlimit : limit < addressSpace)
    (hfits : w.cursor.base + w.cursor.total + data.length ≤ limit) : w.push? data = some r := by
  induction hpours with
  | done w => rw [push?, if_pos rfl]
  | @fault w _ data _ hdata hfill =>
    obtain ⟨hfilled, htotal⟩ := h.fill data
    have hsettle : (w.fill (data.take w.room)).settle? = some _ :=
      settle?_eq hfilled.pending hmod hlimit (show w.cursor.base + _ ≤ limit by omega)
    rw [push?_of_settle hdata h.pending hsettle, hfill]
    rfl
  | @more w w' data _ hdata hfill _ ih =>
    obtain ⟨hfilled, htotal⟩ := h.fill data
    have hsettle : (w.fill (data.take w.room)).settle? = some _ :=
      settle?_eq hfilled.pending hmod hlimit (show w.cursor.base + _ ≤ limit by omega)
    obtain ⟨hbase, htaken, harena⟩ := (w.fill (data.take w.room)).settle_keeps
    have hlt := hfilled.settle
    rw [hfill] at hbase htaken harena hlt
    have hpending : w'.cursor.pending < w'.arena.size := hlt rfl
    have hroom : w'.room ≠ 0 := by
      rw [room]
      omega
    rw [push?_of_settle hdata h.pending hsettle, hfill, resume?, if_pos (due_lt hdata hroom)]
    have hbase' : w'.cursor.base = w.cursor.base := hbase
    have htaken' : w'.cursor.total = (w.fill (data.take w.room)).cursor.total := htaken
    exact ih (sized_of_lt hpending) (by omega)

/-- Data that end before a limit are taken in by words. -/
theorem Sized.push?_eq (h : w.Sized) (hmod : limit % sectorSize = 0) (hlimit : limit < addressSpace)
    {data : List UInt8} (hfits : w.cursor.base + w.cursor.total + data.length ≤ limit) :
    w.push? data = some (w.push data) :=
  (h.pours_push data).push?_eq h hmod hlimit hfits

/-! ## Streams -/

theorem Stream.flush?_eq (h : w.Stream d) (hmod : limit % sectorSize = 0) (hlimit : limit < addressSpace)
    (hfits : w.cursor.base + d.length ≤ limit) : w.flush? = some w.flush := by
  rw [← h.total] at hfits
  exact Writer.flush?_eq h.pending_le hmod hlimit hfits

theorem Stream.push?_eq (h : w.Stream d) (harena : 0 < w.arena.size) (hmod : limit % sectorSize = 0)
    (hlimit : limit < addressSpace) {data : List UInt8}
    (hfits : w.cursor.base + d.length + data.length ≤ limit) : w.push? data = some (w.push data) := by
  rw [← h.total] at hfits
  exact Sized.push?_eq ⟨harena, h.pending_le⟩ hmod hlimit hfits

end Writer

end Image

end BootSlots
