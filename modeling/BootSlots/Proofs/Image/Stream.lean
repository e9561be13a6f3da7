import BootSlots.Image.Check
import BootSlots.Proofs.Image.Laid

/-
  What a writer has made of the bytes that it took in. Bytes taken in are programmed or staged, nothing is
  lost and nothing stands twice; `Stream` says so, and every operation of the writer keeps it, with faults
  or without. A push that fails has taken in an initial part of its data.

  Proved:
  * `Stream.flush`: what a flush does to the stream and the flash.
  * `Stream.push`: the same of a push, by induction on the data, from `Stream.put`.
  * A writer whose operations all succeed erases no sector ahead of its programmed bytes (`Tight`).
  * `head?_of_check`, `check_of_head?`: a flushed stream passes the check by its first byte.
-/

namespace BootSlots

theorem Memory.slice_setIfInBounds {m : Memory} {n : Nat} (h : n < m.size) (b : UInt8) :
    Memory.slice (m.setIfInBounds n b) 0 (n + 1) = m.slice 0 n ++ [b] := by
  apply List.ext_getElem?
  intro i
  have hlen : (m.slice 0 n).length = n := by rw [length_slice]; omega
  rw [getElem?_slice, Array.getElem?_setIfInBounds, Nat.zero_add, List.getElem?_append, hlen,
    getElem?_slice, Nat.zero_add]
  rcases Nat.lt_trichotomy i n with hi | rfl | hi
  · rw [if_pos (by omega), if_neg (by omega), if_pos hi, if_pos hi]
  · rw [if_pos (by omega), if_pos rfl, if_pos h, if_neg (Nat.lt_irrefl _), Nat.sub_self]
    rfl
  · rw [if_neg (by omega), if_neg (by omega), List.getElem?_eq_none (by simp; omega)]

namespace Image

/-! ## The check of an image -/

theorem readHeader_of_fits {f : Flash} {address : Nat} (hread : f.faults.read = false)
    (hfits : address + headerSize ≤ f.cells.size) :
    ∃ header, readHeader f address = .ok header ∧ f.cells[address]? = some header.magic := by
  have hok := Flash.read_eq_ok_iff.mpr ⟨hread, hfits, rfl⟩
  have hlen : (f.cells.slice address headerSize).length = 8 := by
    rw [Memory.length_slice, headerSize] at *
    omega
  have hhead : f.cells[address]? = (f.cells.slice address headerSize)[0]? := by
    rw [Memory.getElem?_slice, if_pos (by decide), Nat.add_zero]
  unfold readHeader
  rw [hok, hhead]
  generalize f.cells.slice address headerSize = bytes at *
  match bytes, hlen with
  | [_, _, _, _, _, _, _, _], _ => exact ⟨_, rfl, rfl⟩

theorem readHeader_eq_ok {f : Flash} {address : Nat} {header : Header}
    (h : readHeader f address = .ok header) :
    f.faults.read = false ∧ address + headerSize ≤ f.cells.size := by
  unfold readHeader at h
  split at h
  · exact nomatch h
  · rename_i bytes hread
    obtain ⟨hf, hs, -⟩ := Flash.read_eq_ok_iff.mp hread
    exact ⟨hf, hs⟩

/-- What has to hold for an image to pass the check. -/
theorem check_ok_iff {f : Flash} {address length : Nat} :
    (∃ header, check f address length = .ok header) ↔
      length ≠ 0 ∧ f.faults.read = false ∧ address + headerSize ≤ f.cells.size ∧
        f.cells[address]? = some magic := by
  unfold check
  constructor
  · rintro ⟨header, h⟩
    split at h
    · exact nomatch h
    · rename_i hlen
      split at h
      · exact nomatch h
      · rename_i header' hread
        split at h
        · rename_i hvalid
          obtain ⟨hf, hs⟩ := readHeader_eq_ok hread
          obtain ⟨header'', hread', hmagic⟩ := readHeader_of_fits hf hs
          obtain rfl := Except.ok.inj (hread.symm.trans hread')
          exact ⟨hlen, hf, hs, hmagic.trans (congrArg some (eq_of_beq hvalid))⟩
        · exact nomatch h
  · rintro ⟨hlen, hf, hs, hmagic⟩
    obtain ⟨header, hread, hheader⟩ := readHeader_of_fits hf hs
    have hvalid : header.isValid = true := beq_iff_eq.mpr (Option.some.inj (hheader.symm.trans hmagic))
    refine ⟨header, ?_⟩
    rw [if_neg hlen, hread]
    exact if_pos hvalid

namespace Writer

/-! ## Streams -/

/-- The writer has taken in the stream `d`: what is not programmed is staged. -/
structure Stream (w : Writer) (d : List UInt8) : Prop where
  laid : w.Laid d w.cursor.flushed
  total : w.cursor.flushed + w.cursor.pending = d.length
  pending_le : w.cursor.pending ≤ w.arena.size
  staged : w.staged = d.drop w.cursor.flushed

/-- No sector beyond that of the last programmed byte is erased. -/
def Tight (w : Writer) : Prop :=
  w.cursor.erasedEnd < w.cursor.base + w.cursor.flushed + sectorSize

variable {w : Writer} {d : List UInt8}

theorem staged_eq_nil (h : w.cursor.pending = 0) : w.staged = [] := by
  apply List.length_eq_zero_iff.mp
  rw [staged, h, Memory.length_slice]
  exact Nat.zero_min _

theorem Laid.append {n : Nat} (h : w.Laid d n) (x : List UInt8) : w.Laid (d ++ x) n where
  base_mod := h.base_mod
  front_mod := h.front_mod
  le_front := h.le_front
  front_lt := by
    have := h.front_lt
    rw [List.length_append]
    omega
  cell i hi := by
    rcases h.cell i hi with hl | hr
    · exact .inl hl
    · refine .inr ⟨?_, ?_⟩
      · rw [List.length_append]
        omega
      · rw [hr.2, List.getElem?_append_left hr.1]

/-- A stream that is about to start, at the start of a sector. -/
theorem Stream.start {address : Nat} (h : address % sectorSize = 0) (arena : Memory) (flash : Flash) :
    Stream ⟨.start address, arena, flash⟩ [] where
  laid := ⟨h, h, Nat.le_refl _, Nat.lt_add_of_pos_right (by decide), fun i hi => absurd hi (by
    simp only [Cursor.start]
    omega)⟩
  total := rfl
  pending_le := Nat.zero_le _
  staged := staged_eq_nil rfl

/-- All bytes of the stream that are programmed can be read back. -/
theorem Stream.slice_flushed (h : w.Stream d) :
    w.flash.cells.slice w.cursor.base w.cursor.flushed = d.take w.cursor.flushed := by
  apply List.ext_getElem?
  intro i
  rw [Memory.getElem?_slice, List.getElem?_take]
  split
  · rename_i hi
    exact h.laid.getElem?_cells hi
  · rfl

/-- A stream says nothing of the cells below its base. -/
theorem Stream.congr_flash (h : w.Stream d) {flash : Flash}
    (hcells : ∀ x, w.cursor.base ≤ x → flash.cells[x]? = w.flash.cells[x]?) :
    Stream { w with flash } d where
  laid := h.laid.congr rfl rfl hcells
  total := h.total
  pending_le := h.pending_le
  staged := h.staged

/-! ## Flushing -/

/-- A flush programs all staged bytes, or it fails and they stay staged. -/
theorem Stream.flush (h : w.Stream d) :
    w.flush.2.Stream d ∧ w.Leads (w.cursor.base + d.length) w.flush.2 ∧
      (w.flush.1 = .ok () →
        w.flush.2.cursor.pending = 0 ∧ w.flush.2.cursor.flushed = d.length ∧ w.flush.2.Tight) ∧
      (w.flash.Unhindered (w.cursor.base + d.length) → w.flush.1 = .ok ()) := by
  have htotal := h.total
  have hle : w.cursor.flushed ≤ d.length := by omega
  unfold Writer.flush
  split
  · rename_i hp
    have hall : w.cursor.flushed = d.length := by omega
    refine ⟨h, .refl _ _, fun _ => ⟨hp, hall, ?_⟩, fun _ => rfl⟩
    rw [Tight, hall]
    exact h.laid.front_lt
  · rw [h.staged]
    obtain ⟨front, ops, heq, hops, hlaid, hok, hfree⟩ := h.laid.programPieces hle
    split
    · rename_i fault w' hpieces
      rw [hpieces] at heq hfree
      obtain rfl : w' = w.advance front ops := heq
      exact ⟨⟨hlaid, htotal, h.pending_le, h.staged⟩, leads_advance front hops, nofun,
        fun hu => nomatch hfree hu⟩
    · rename_i w' hpieces
      rw [hpieces] at heq hok
      obtain rfl : w' = w.advance front ops := heq
      have hdone := hok rfl
      refine ⟨⟨?_, ?_, Nat.zero_le _, ?_⟩, ⟨rfl, rfl, ops, rfl, hops⟩, fun _ => ⟨rfl, htotal, ?_⟩,
        fun _ => rfl⟩
      · have hprog := hdone.mono (Nat.le_of_eq htotal)
        exact hprog.congr rfl rfl fun _ _ => rfl
      · exact htotal
      · exact (staged_eq_nil rfl).trans (List.drop_eq_nil_iff.mpr (Nat.le_of_eq htotal.symm)).symm
      · have := hdone.front_lt
        rw [Tight]
        exact htotal.symm ▸ this

/-! ## Taking in bytes -/

theorem Stream.settle (h : w.Stream d) (hroom : 0 < w.arena.size) :
    w.settle.2.Stream d ∧ w.Leads (w.cursor.base + d.length) w.settle.2 ∧
      (w.settle.1 = .ok () →
        w.settle.2.cursor.pending < w.arena.size ∧ (w.Tight → w.settle.2.Tight)) ∧
      (w.flash.Unhindered (w.cursor.base + d.length) → w.settle.1 = .ok ()) := by
  unfold Writer.settle
  split
  · obtain ⟨hstream, hleads, hok, hfree⟩ := h.flush
    refine ⟨hstream, hleads, fun hres => ?_, hfree⟩
    obtain ⟨hp, -, htight⟩ := hok hres
    exact ⟨hp ▸ hroom, fun _ => htight⟩
  · rename_i hne
    exact ⟨h, .refl _ _, fun _ => ⟨Nat.lt_of_le_of_ne h.pending_le hne, id⟩, fun _ => rfl⟩

theorem Stream.stage (h : w.Stream d) (hp : w.cursor.pending < w.arena.size) (byte : UInt8) :
    (w.stage byte).Stream (d ++ [byte]) := by
  have htotal := h.total
  refine ⟨(h.laid.append [byte]).congr rfl rfl fun _ _ => rfl, ?_, ?_, ?_⟩
  · rw [List.length_append, ← htotal]
    exact (Nat.add_assoc _ _ _).symm
  · rw [Writer.stage, Array.size_setIfInBounds]
    exact hp
  · have hstaged : (w.stage byte).staged = w.staged ++ [byte] := Memory.slice_setIfInBounds hp byte
    rw [hstaged, h.staged]
    exact (List.drop_append_of_le_length (by omega)).symm

theorem leads_stage (w : Writer) (byte : UInt8) (limit : Nat) : w.Leads limit (w.stage byte) :=
  ⟨rfl, by rw [Writer.stage, Array.size_setIfInBounds], [], rfl, nofun⟩

/-- One byte is taken in, or it is left out because the full arena could not be flushed. -/
theorem Stream.put (h : w.Stream d) (hroom : 0 < w.arena.size) (byte : UInt8) :
    ∃ p, (p = [] ∨ p = [byte]) ∧ (w.put byte).2.Stream (d ++ p) ∧
      w.Leads (w.cursor.base + d.length + 1) (w.put byte).2 ∧
      ((w.put byte).1 = .ok () → p = [byte] ∧ (w.put byte).2.cursor.pending < w.arena.size ∧
        (w.Tight → (w.put byte).2.Tight)) ∧
      (w.flash.Unhindered (w.cursor.base + d.length + 1) → (w.put byte).1 = .ok ()) := by
  obtain ⟨hstream, hleads, hok, hfree⟩ := h.settle hroom
  have hleads' := hleads.mono (Nat.le_succ (w.cursor.base + d.length))
  unfold Writer.put
  split
  · rename_i fault w' hsettle
    rw [hsettle] at hstream hleads' hfree
    refine ⟨[], .inl rfl, ?_, hleads', nofun, fun hu => ?_⟩
    · rwa [List.append_nil]
    · exact nomatch hfree ⟨hu.erase, hu.program, Nat.le_of_succ_le hu.fits⟩
  · rename_i w' hsettle
    rw [hsettle] at hstream hleads' hok
    obtain ⟨hp, htight⟩ := hok rfl
    have hstaged := hstream.stage (hleads'.room ▸ hp) byte
    have hlong := hleads'.trans (leads_stage w' byte _) (Nat.le_refl _)
    obtain ⟨hstream', hleads'', hok', hfree'⟩ := hstaged.settle (hlong.room ▸ hroom)
    rw [hlong.base, List.length_append, List.length_singleton, ← Nat.add_assoc] at hleads'' hfree'
    rw [hlong.room] at hok'
    refine ⟨[byte], .inr rfl, hstream', hlong.trans hleads'' (Nat.le_refl _), fun hres => ⟨rfl, ?_⟩,
      fun hu => hfree' (hlong.unhindered hu)⟩
    exact ⟨(hok' hres).1, fun ht => (hok' hres).2 (htight ht)⟩

/-- A push takes in an initial part of its data, all of it where it succeeds. -/
theorem Stream.push (h : w.Stream d) (hroom : 0 < w.arena.size) (data : List UInt8) :
    ∃ p rest, data = p ++ rest ∧ (w.push data).2.Stream (d ++ p) ∧
      w.Leads (w.cursor.base + d.length + data.length) (w.push data).2 ∧
      ((w.push data).1 = .ok () → rest = [] ∧
        (w.cursor.pending < w.arena.size → (w.push data).2.cursor.pending < w.arena.size) ∧
        (w.Tight → (w.push data).2.Tight)) ∧
      (w.flash.Unhindered (w.cursor.base + d.length + data.length) → (w.push data).1 = .ok ()) := by
  induction data generalizing w d with
  | nil =>
    refine ⟨[], [], rfl, ?_, .refl _ _, fun _ => ⟨rfl, id, id⟩, fun _ => rfl⟩
    rw [List.append_nil]
    exact h
  | cons byte data ih =>
    have hlen : w.cursor.base + d.length + (byte :: data).length =
        w.cursor.base + d.length + 1 + data.length := by
      rw [List.length_cons]
      omega
    rw [hlen]
    obtain ⟨p, hp, hstream, hleads, hok, hfree⟩ := h.put hroom byte
    unfold Writer.push
    split
    · rename_i fault w' hput
      rw [hput] at hstream hleads hfree
      refine ⟨p, if p = [] then byte :: data else data, ?_, hstream, hleads.mono (Nat.le_add_right _ _),
        nofun, fun hu => ?_⟩
      · rcases hp with rfl | rfl
        · rfl
        · rfl
      · exact nomatch hfree ⟨hu.erase, hu.program, Nat.le_trans (Nat.le_add_right _ _) hu.fits⟩
    · rename_i w' hput
      rw [hput] at hstream hleads hok
      obtain ⟨rfl, hpend, htight⟩ := hok rfl
      obtain ⟨p', rest, rfl, hstream', hleads', hok', hfree'⟩ := ih hstream (hleads.room ▸ hroom)
      rw [hleads.base, List.length_append, List.length_singleton, ← Nat.add_assoc] at hleads' hfree'
      rw [hleads.room] at hok'
      refine ⟨byte :: p', rest, rfl, ?_, hleads.trans hleads' (Nat.le_add_right _ _), fun hres => ?_,
        fun hu => hfree' (hleads.unhindered hu)⟩
      · rwa [List.append_cons]
      · obtain ⟨hrest, hpend', htight'⟩ := hok' hres
        exact ⟨hrest, fun _ => hpend' hpend, fun ht => htight' (htight ht)⟩

/-! ## The check of a flushed stream -/

theorem Stream.head?_of_check (h : w.Stream d) (hall : w.cursor.flushed = d.length)
    (hcheck : ∃ header, check w.flash w.cursor.base w.cursor.total = .ok header) :
    d.head? = some magic := by
  obtain ⟨hlen, -, -, hmagic⟩ := check_ok_iff.mp hcheck
  have hpos : 0 < w.cursor.flushed := by
    have := h.total
    simp only [Cursor.total] at hlen
    omega
  have hcell := h.laid.getElem?_cells hpos
  rw [Nat.add_zero, hmagic] at hcell
  rw [List.head?_eq_getElem?, ← hcell]

theorem Stream.check_of_head? (h : w.Stream d) (hall : w.cursor.flushed = d.length)
    (hread : w.flash.faults.read = false) (hfits : w.cursor.base + d.length ≤ w.flash.cells.size)
    (hhead : d.head? = some magic) :
    ∃ header, check w.flash w.cursor.base w.cursor.total = .ok header := by
  have htotal : w.cursor.total = d.length := h.total
  have hpos : 0 < d.length := by
    cases d with
    | nil => exact nomatch hhead
    | cons b bs => exact Nat.zero_lt_succ _
  refine check_ok_iff.mpr ⟨by omega, hread, ?_, ?_⟩
  · -- the image starts below the end of the flash, and both are whole sectors
    have := h.laid.base_mod
    have := w.flash.size_mod
    simp only [sectorSize_eq, headerSize] at *
    omega
  · have hcell := h.laid.getElem?_cells (hall ▸ hpos)
    rw [Nat.add_zero] at hcell
    rw [hcell, ← List.head?_eq_getElem?, hhead]

end Writer

end Image

end BootSlots
