import BootSlots.Proofs.Image.Stream

/-
  When a writer programs. The arena is flushed when it is full and at no other time before the end, so the
  bytes programmed are whole fills of the arena. A flush that fails may leave less than that.

  Proved:
  * `Stream.whole_settle`, `Stream.whole_put`, `Stream.whole_push`: operations that succeed keep to whole
    fills.
  * `Stream.erasedEnd_eq`: with an arena of whole sectors, the erased front is where the next byte goes.
-/

namespace BootSlots.Image.Writer

/-- The programmed bytes are whole fills of the arena. -/
def Whole (w : Writer) : Prop :=
  w.cursor.flushed % w.arena.size = 0

variable {w : Writer} {d : List UInt8}

/-- A full arena is flushed as one more fill. -/
theorem Stream.whole_settle (h : w.Stream d) (hw : w.Whole) (hok : w.settle.1 = .ok ()) :
    w.settle.2.Whole := by
  unfold Writer.settle at hok ⊢
  split
  · rename_i hfull
    rw [if_pos hfull] at hok
    obtain ⟨-, hleads, hflushed, -⟩ := h.flush
    obtain ⟨-, hall, -⟩ := hflushed hok
    rw [Whole, hall, hleads.room, ← h.total, hfull, Nat.add_mod_right]
    exact hw
  · exact hw

theorem Whole.stage (hw : w.Whole) (byte : UInt8) : (w.stage byte).Whole := by
  rw [Whole, Writer.stage, Array.size_setIfInBounds]
  exact hw

theorem Stream.whole_put (h : w.Stream d) (hroom : 0 < w.arena.size) (hw : w.Whole) (byte : UInt8)
    (hok : (w.put byte).1 = .ok ()) : (w.put byte).2.Whole := by
  obtain ⟨hstream, hleads, hsettled, -⟩ := h.settle hroom
  have hwhole := h.whole_settle hw
  unfold Writer.put at hok ⊢
  split at hok
  · exact nomatch hok
  · rename_i w' hsettle
    rw [hsettle] at hstream hleads hsettled hwhole
    have hpending : w'.cursor.pending < w'.arena.size := hleads.room ▸ (hsettled rfl).1
    exact (hstream.stage hpending byte).whole_settle ((hwhole rfl).stage byte) hok

/-- A push that succeeds keeps to whole fills, by induction on the data. -/
theorem Stream.whole_push (h : w.Stream d) (hroom : 0 < w.arena.size) (hw : w.Whole)
    {data : List UInt8} (hok : (w.push data).1 = .ok ()) : (w.push data).2.Whole := by
  induction data generalizing w d with
  | nil => exact hw
  | cons byte data ih =>
    obtain ⟨p, -, hstream, hleads, -, -⟩ := h.put hroom byte
    have hwhole := h.whole_put hroom hw byte
    unfold Writer.push at hok ⊢
    split at hok
    · exact nomatch hok
    · rename_i w' hput
      rw [hput] at hstream hleads hwhole
      have hroom' : 0 < w'.arena.size := hleads.room ▸ hroom
      exact ih hstream hroom' (hwhole rfl) hok

/-- Whole fills of an arena of whole sectors end where a sector ends, and no sector beyond is erased. -/
theorem Stream.erasedEnd_eq (h : w.Stream d) (htight : w.Tight) (hw : w.Whole)
    (harena : w.arena.size % sectorSize = 0) :
    w.cursor.erasedEnd = w.cursor.base + w.cursor.flushed := by
  have hflushed : w.cursor.flushed % sectorSize = 0 := by
    have hdvd := Nat.dvd_trans (Nat.dvd_of_mod_eq_zero harena) (Nat.dvd_of_mod_eq_zero hw)
    exact Nat.mod_eq_zero_of_dvd hdvd
  have hbase := h.laid.base_mod
  have hfront := h.laid.front_mod
  have hle := h.laid.le_front
  rw [Tight] at htight
  simp only [sectorSize_eq] at *
  omega

end BootSlots.Image.Writer
