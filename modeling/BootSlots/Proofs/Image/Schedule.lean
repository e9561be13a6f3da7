import BootSlots.Proofs.Image.Chunks
import BootSlots.Proofs.Image.Fills

/-
  Which operations a stream comes to, one by one. Two loops bring them about, one over the fills of the arena
  and one over the sectors of a fill; where the arena is a whole number of sectors, each fill starts where a
  sector does, and of both loops one list remains that knows of the stream and its base only.

  Proved:
  * `streamOps_of_ne_nil`, `streamOps_append`: the list, sector by sector, and fill by fill.
  * `steps_eq_streamOps`, `ops_programPieces`: the pieces of one flush.
  * `Scheduled.settle`, `Scheduled.put`, `Scheduled.push`: while nothing fails, what is programmed was
    programmed by the list.
  * `ops_of_chunks`: all chunks and a flush, on a flash without faults.

  With an arena of other sizes a sector is programmed in parts, and the list is another one.
-/

namespace BootSlots.Image

/-! ## The list of operations -/

/-- Number of sectors that `n` bytes come to, the last one in full or not. -/
def sectorsFor (n : Nat) : Nat :=
  (n + (sectorSize - 1)) / sectorSize

/-- The bytes of a stream that go into its `i`-th sector. -/
def sectorBytes (d : List UInt8) (i : Nat) : List UInt8 :=
  (d.drop (sectorSize * i)).take sectorSize

/-- What is done for the `i`-th sector of the stream `d` from `base` on. -/
def sectorOps (base : Nat) (d : List UInt8) (i : Nat) : List FlashOp :=
  [.erase (sectorOf base + i), .program (base + sectorSize * i) (sectorBytes d i)]

/-- Each sector of the stream is erased and then programmed, in order. -/
def streamOps (base : Nat) (d : List UInt8) : List FlashOp :=
  (List.range (sectorsFor d.length)).flatMap (sectorOps base d)

theorem length_sectorBytes (d : List UInt8) (i : Nat) :
    (sectorBytes d i).length = min sectorSize (d.length - sectorSize * i) := by
  rw [sectorBytes, List.length_take, List.length_drop]

@[simp] theorem streamOps_nil (base : Nat) : streamOps base [] = [] := rfl

theorem sectorOps_zero (base : Nat) (d : List UInt8) :
    sectorOps base d 0 = [.erase (sectorOf base), .program base (d.take sectorSize)] := by
  rw [sectorOps, sectorBytes, Nat.mul_zero, Nat.add_zero, Nat.add_zero, List.drop_zero]

theorem sectorOps_succ (base : Nat) (d : List UInt8) (i : Nat) :
    sectorOps base d (i + 1) = sectorOps (base + sectorSize) (d.drop sectorSize) i := by
  have hsector : sectorOf base + (i + 1) = sectorOf (base + sectorSize) + i := by
    simp only [sectorOf, sectorSize_eq]
    omega
  have hbytes : sectorBytes d (i + 1) = sectorBytes (d.drop sectorSize) i := by
    rw [sectorBytes, sectorBytes, List.drop_drop, Nat.mul_succ, Nat.add_comm]
  rw [sectorOps, sectorOps, hsector, hbytes, Nat.mul_succ, Nat.add_comm (sectorSize * i),
    Nat.add_assoc base]

variable {d : List UInt8}

/-- The first sector, and the rest of the stream from the next sector on. -/
theorem streamOps_of_ne_nil (hd : d ≠ []) (base : Nat) :
    streamOps base d =
      .erase (sectorOf base) :: .program base (d.take sectorSize) ::
        streamOps (base + sectorSize) (d.drop sectorSize) := by
  have hpos := List.length_pos_iff.mpr hd
  have hcount : sectorsFor d.length = sectorsFor (d.drop sectorSize).length + 1 := by
    rw [List.length_drop]
    simp only [sectorsFor, sectorSize_eq]
    omega
  have hrest : (fun i => sectorOps base d i.succ) = sectorOps (base + sectorSize) (d.drop sectorSize) :=
    funext fun i => sectorOps_succ base d i
  rw [streamOps, hcount, List.range_succ_eq_map, List.flatMap_cons, List.flatMap_map, sectorOps_zero,
    hrest]
  rfl

/-- Whole sectors come first, then what follows them; by induction on the number of sectors. -/
theorem streamOps_append (hmod : d.length % sectorSize = 0) (base : Nat) (d' : List UInt8) :
    streamOps base (d ++ d') = streamOps base d ++ streamOps (base + d.length) d' := by
  obtain ⟨k, hk⟩ := Nat.dvd_of_mod_eq_zero hmod
  clear hmod
  induction k generalizing base d with
  | zero =>
    obtain rfl := List.length_eq_zero_iff.mp hk
    rfl
  | succ k ih =>
    rw [Nat.mul_succ] at hk
    have hle : sectorSize ≤ d.length := by omega
    have hd : d ≠ [] := by
      rintro rfl
      exact absurd hle (by decide)
    have hdrop : (d.drop sectorSize).length = sectorSize * k := by
      rw [List.length_drop]
      omega
    have hbase : base + sectorSize + (d.drop sectorSize).length = base + d.length := by omega
    rw [streamOps_of_ne_nil (List.append_ne_nil_of_left_ne_nil hd d'), streamOps_of_ne_nil hd,
      List.take_append_of_le_length hle, List.drop_append_of_le_length hle, ih _ hdrop, hbase,
      List.cons_append, List.cons_append]

namespace Writer

/-! ## The pieces of one flush -/

variable {w : Writer} {before : List FlashOp}

/-- From the start of a sector on, the steps for each piece are those for a sector of the stream. -/
theorem steps_eq_streamOps {front x : Nat} {bytes : List UInt8} (hx : x % sectorSize = 0)
    (hfront : front ≤ x) : steps front (pieces x bytes) = streamOps x bytes := by
  fun_induction pieces x bytes generalizing front with
  | case1 x => rfl
  | case2 x b bs ih =>
    have hend : sectorEnd x = x + sectorSize := by
      simp only [sectorEnd, sectorOf, sectorSize_eq] at *
      omega
    have hpiece : pieceSteps front (x, (b :: bs).take (sectorEnd x - x)) =
        [.erase (sectorOf x), .program x ((b :: bs).take (sectorEnd x - x))] := by
      simp [pieceSteps, opening, hfront]
    have hnext : frontAfter front [.erase (sectorOf x), .program x ((b :: bs).take (sectorEnd x - x))] =
        sectorEnd x := rfl
    rw [steps, hpiece, hnext, ih (sectorEnd_mod x) (Nat.le_refl _), hend, Nat.add_sub_cancel_left,
      streamOps_of_ne_nil (List.cons_ne_nil b bs)]
    rfl

theorem ops_programPieces {x : Nat} {bytes : List UInt8} (hx : x % sectorSize = 0)
    (hfront : w.cursor.erasedEnd ≤ x) (hok : (w.programPieces (pieces x bytes)).1 = .ok ()) :
    (w.programPieces (pieces x bytes)).2.flash.ops.toList =
      w.flash.ops.toList ++ streamOps x bytes := by
  have htries := w.tries_programPieces (pieces x bytes)
  generalize w.programPieces (pieces x bytes) = r at htries hok ⊢
  cases htries with
  | done => rw [flash_carryOut, Flash.toList_ops_performAll, steps_eq_streamOps hx hfront]
  | stopped => cases hok

/-! ## Fills -/

/-- What the writer has done to its flash since `before` is the list for the programmed bytes. -/
structure Scheduled (w : Writer) (before : List FlashOp) (d : List UInt8) : Prop where
  stream : w.Stream d
  tight : w.Tight
  whole : w.Whole
  room : 0 < w.arena.size
  sectors : w.arena.size % sectorSize = 0
  ops : w.flash.ops.toList = before ++ streamOps w.cursor.base (d.take w.cursor.flushed)

theorem scheduled_start {base : Nat} {arena : Memory} (hbase : base % sectorSize = 0)
    (hroom : 0 < arena.size) (hsectors : arena.size % sectorSize = 0) (flash : Flash) :
    Scheduled ⟨.start base, arena, flash⟩ flash.ops.toList [] where
  stream := .start hbase arena flash
  tight := Nat.lt_add_of_pos_right (by decide)
  whole := Nat.zero_mod _
  room := hroom
  sectors := hsectors
  ops := by
    show _ = _ ++ streamOps base []
    rw [streamOps_nil, List.append_nil]

/-- The operations of a flush complete the list. -/
theorem Scheduled.ops_flush (h : w.Scheduled before d) (hok : w.flush.1 = .ok ()) :
    w.flush.2.flash.ops.toList = before ++ streamOps w.cursor.base d := by
  have htotal := h.stream.total
  have hfront := h.stream.erasedEnd_eq h.tight h.whole h.sectors
  have hstart : (w.cursor.base + w.cursor.flushed) % sectorSize = 0 := hfront ▸ h.stream.laid.front_mod
  unfold Writer.flush at hok ⊢
  split at hok
  · rename_i hpending
    have hall : d.take w.cursor.flushed = d := List.take_of_length_le (by omega)
    rw [if_pos hpending, h.ops, hall]
  · rename_i hpending
    rw [if_neg hpending]
    have hops : (w.programPieces (pieces (w.cursor.base + w.cursor.flushed) w.staged)).1 = .ok () → _ :=
      ops_programPieces hstart (Nat.le_of_eq hfront)
    generalize w.programPieces (pieces (w.cursor.base + w.cursor.flushed) w.staged) = r at hops hok ⊢
    obtain ⟨_ | _, w'⟩ := r
    · cases hok
    · have hlength : (d.take w.cursor.flushed).length = w.cursor.flushed := by
        rw [List.length_take]
        omega
      have hmod : (d.take w.cursor.flushed).length % sectorSize = 0 := by
        have hbase := h.stream.laid.base_mod
        rw [hlength]
        simp only [sectorSize_eq] at *
        omega
      have hsplit := streamOps_append hmod w.cursor.base (d.drop w.cursor.flushed)
      rw [List.take_append_drop, hlength] at hsplit
      have hdone : w'.flash.ops.toList = _ := hops rfl
      rw [hsplit, ← List.append_assoc, ← h.ops, ← h.stream.staged]
      exact hdone

theorem Scheduled.settle (h : w.Scheduled before d) (hok : w.settle.1 = .ok ()) :
    w.settle.2.Scheduled before d := by
  obtain ⟨hstream, hleads, hsettled, -⟩ := h.stream.settle h.room
  obtain ⟨-, htight⟩ := hsettled hok
  refine ⟨hstream, htight h.tight, h.stream.whole_settle h.whole hok, ?_, ?_, ?_⟩
  · rw [hleads.room]
    exact h.room
  · rw [hleads.room]
    exact h.sectors
  · rw [hleads.base]
    unfold Writer.settle at hok ⊢
    split at hok
    · rename_i hfull
      obtain ⟨-, -, hflushed, -⟩ := h.stream.flush
      obtain ⟨-, hall, -⟩ := hflushed hok
      rw [if_pos hfull, hall, List.take_length]
      exact h.ops_flush hok
    · rename_i hne
      rw [if_neg hne]
      exact h.ops

theorem Scheduled.stage (h : w.Scheduled before d) (hp : w.cursor.pending < w.arena.size)
    (byte : UInt8) : (w.stage byte).Scheduled before (d ++ [byte]) := by
  have hroom := (leads_stage w byte 0).room
  have htotal := h.stream.total
  refine ⟨h.stream.stage hp byte, h.tight, h.whole.stage byte, ?_, ?_, ?_⟩
  · rw [hroom]
    exact h.room
  · rw [hroom]
    exact h.sectors
  · show w.flash.ops.toList = before ++ streamOps w.cursor.base ((d ++ [byte]).take w.cursor.flushed)
    rw [List.take_append_of_le_length (by omega)]
    exact h.ops

theorem Scheduled.put (h : w.Scheduled before d) {byte : UInt8} (hok : (w.put byte).1 = .ok ()) :
    (w.put byte).2.Scheduled before (d ++ [byte]) := by
  obtain ⟨-, hleads, hsettled, -⟩ := h.stream.settle h.room
  have hscheduled := h.settle
  rw [put_eq] at hok ⊢
  generalize w.settle = r at hleads hsettled hscheduled hok ⊢
  obtain ⟨_ | _, w'⟩ := r
  · cases hok
  · have hp : w'.cursor.pending < w'.arena.size := hleads.room ▸ (hsettled rfl).1
    exact ((hscheduled rfl).stage hp byte).settle hok

/-- A push that succeeds keeps to the list, by induction on the data. -/
theorem Scheduled.push (h : w.Scheduled before d) {data : List UInt8}
    (hok : (w.push data).1 = .ok ()) : (w.push data).2.Scheduled before (d ++ data) := by
  induction data generalizing w d with
  | nil =>
    rw [List.append_nil]
    exact h
  | cons byte data ih =>
    have hput : (w.put byte).1 = .ok () → (w.put byte).2.Scheduled before (d ++ [byte]) := h.put
    rw [push_cons] at hok ⊢
    generalize w.put byte = r at hput hok ⊢
    obtain ⟨_ | _, w'⟩ := r
    · cases hok
    · rw [List.append_cons]
      exact ih (hput rfl) hok

/-! ## A whole stream -/

/-- Without faults, chunks that fit and a flush are taken in, and the list is all that is done. -/
theorem ops_of_chunks {base : Nat} {arena : Memory} {flash : Flash} {chunks : List (List UInt8)}
    (hfaults : flash.faults = {}) (hbase : base % sectorSize = 0)
    (hfits : base + chunks.flatten.length ≤ flash.cells.size) (hroom : 0 < arena.size)
    (hsectors : arena.size % sectorSize = 0) :
    (pushAll ⟨.start base, arena, flash⟩ chunks).1 = .ok () ∧
      (pushAll ⟨.start base, arena, flash⟩ chunks).2.flush.1 = .ok () ∧
      (pushAll ⟨.start base, arena, flash⟩ chunks).2.flush.2.flash.ops.toList =
        flash.ops.toList ++ streamOps base chunks.flatten := by
  rw [pushAll_eq_push]
  have hstart := scheduled_start hbase hroom hsectors flash
  have hfree : flash.Unhindered (base + chunks.flatten.length) :=
    ⟨by rw [hfaults], by rw [hfaults], hfits⟩
  obtain ⟨_, _, -, -, hleads, -, hpush⟩ := hstart.stream.push hroom chunks.flatten
  have hok := hpush hfree
  have hend := hstart.push hok
  obtain ⟨-, -, -, hflush⟩ := hend.stream.flush
  have hdone := hflush (by
    rw [hleads.base]
    exact hleads.unhindered hfree)
  refine ⟨hok, hdone, ?_⟩
  have hops := hend.ops_flush hdone
  rw [hleads.base] at hops
  exact hops

end Writer

end BootSlots.Image
