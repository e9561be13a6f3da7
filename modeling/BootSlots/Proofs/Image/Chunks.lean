import BootSlots.Proofs.Image.Steps

/-
  How a stream is cut into chunks does not matter, whatever the flash makes of it. A push takes in byte by
  byte; the same is done here by whole fills of the arena, as many bytes at a time as there is room for, and
  each fill is a push of its own. So the two ways cut the stream in different places and come to the same.

  Proved:
  * `push_append`, `pushAll_eq_push`: a push of bytes one after the other, up to the first that fails.
  * `Pours.unique`, `push_eq_settle_fill`: fills of the arena come to one end at most, and each is a push of
    its own.
  * `Sized.pours_iff`: they come to an end, and to the end that the push comes to.
  * `not_pours_of_empty_arena`: with an empty arena they come to none.
  * `chunking_irrelevant`: all of this for a writer in any state, on a flash with any faults.
-/

namespace BootSlots.Image.Writer

variable {w w' : Writer}

/-- Pushes chunks in order, up to the first that fails. -/
def pushAll (w : Writer) : List (List UInt8) → Except WriteFault Unit × Writer
  | [] => (.ok (), w)
  | chunk :: chunks => resume (w.push chunk) (·.pushAll chunks)

/-! ## Pushes one after the other -/

theorem resume_push_nil (r : Except WriteFault Unit × Writer) : resume r (·.push []) = r := by
  obtain ⟨_ | _, w⟩ := r <;> rfl

theorem push_cons (w : Writer) (byte : UInt8) (data : List UInt8) :
    w.push (byte :: data) = resume (w.put byte) (·.push data) := by
  rw [push]
  split <;> rename_i hput <;> rw [hput] <;> rfl

theorem put_eq (w : Writer) (byte : UInt8) :
    w.put byte = resume w.settle fun w => (w.stage byte).settle := by
  rw [put]
  split <;> rename_i hsettle <;> rw [hsettle] <;> rfl

/-- A push of `x ++ y` is a push of `x` and then one of `y`. -/
theorem push_append (w : Writer) (x y : List UInt8) :
    w.push (x ++ y) = resume (w.push x) (·.push y) := by
  induction x generalizing w with
  | nil => rfl
  | cons byte x ih =>
    rw [List.cons_append, push_cons, push_cons]
    cases hput : w.put byte with
    | mk res w' =>
      cases res with
      | error fault => rfl
      | ok _ => exact ih w'

theorem pushAll_eq_push (w : Writer) (chunks : List (List UInt8)) :
    w.pushAll chunks = w.push chunks.flatten := by
  induction chunks generalizing w with
  | nil => rfl
  | cons chunk chunks ih =>
    rw [pushAll, List.flatten_cons, push_append]
    congr 1
    funext w'
    exact ih w'

/-! ## Fills of the arena -/

/-- Number of bytes that the arena has room for. -/
def room (w : Writer) : Nat :=
  w.arena.size - w.cursor.pending

/-- Stages bytes for which there is room. -/
def fill (w : Writer) (bytes : List UInt8) : Writer :=
  { w with
    arena := w.arena.put w.cursor.pending bytes
    cursor := { w.cursor with pending := w.cursor.pending + bytes.length } }

/-- Data are taken in by fills: as many bytes as there is room for, a flush if the arena is full, and again as
long as data are left. `r` is what this comes to. -/
inductive Pours : Writer → List UInt8 → Except WriteFault Unit × Writer → Prop where
  | done (w : Writer) : w.Pours [] (.ok (), w)
  | fault {w w' : Writer} {data : List UInt8} {fault : WriteFault} (hdata : data ≠ [])
      (hfill : (w.fill (data.take w.room)).settle = (.error fault, w')) :
      w.Pours data (.error fault, w')
  | more {w w' : Writer} {data : List UInt8} {r : Except WriteFault Unit × Writer} (hdata : data ≠ [])
      (hfill : (w.fill (data.take w.room)).settle = (.ok (), w'))
      (hrest : w'.Pours (data.drop w.room) r) : w.Pours data r

/-- At most one end can be come to, by induction on the way to one of them. -/
theorem Pours.unique {data : List UInt8} {r r' : Except WriteFault Unit × Writer} (h : w.Pours data r)
    (h' : w.Pours data r') : r = r' := by
  induction h with
  | done w =>
    cases h' with
    | done => rfl
    | fault hdata | more hdata => exact absurd rfl hdata
  | fault hdata hfill =>
    cases h' with
    | done => exact absurd rfl hdata
    | fault _ hfill' => exact hfill.symm.trans hfill'
    | more _ hfill' => cases hfill.symm.trans hfill'
  | more hdata hfill _ ih =>
    cases h' with
    | done => exact absurd rfl hdata
    | fault _ hfill' => cases hfill.symm.trans hfill'
    | more _ hfill' hrest' =>
      cases hfill.symm.trans hfill'
      exact ih hrest'

theorem fill_nil (w : Writer) : w.fill [] = w := rfl

theorem modify_arena (w : Writer) (byte : UInt8) :
    w.arena.modify w.cursor.pending (fun _ => byte) =
      w.arena.setIfInBounds w.cursor.pending byte := by
  apply Array.ext_getElem?
  intro i
  rw [Array.getElem?_modify, Array.getElem?_setIfInBounds]
  by_cases hi : w.cursor.pending = i
  · subst hi
    rw [if_pos rfl, if_pos rfl]
    by_cases hlt : w.cursor.pending < w.arena.size
    · rw [if_pos hlt, Array.getElem?_eq_getElem hlt]
      rfl
    · rw [if_neg hlt, Array.getElem?_eq_none (Nat.not_lt.mp hlt)]
      rfl
  · rw [if_neg hi, if_neg hi]

/-- Bytes are filled in one after the other. -/
theorem fill_cons (w : Writer) (byte : UInt8) (bytes : List UInt8) :
    w.fill (byte :: bytes) = (w.stage byte).fill bytes := by
  unfold fill stage Memory.put
  rw [Memory.overlay, modify_arena, List.length_cons, Nat.add_comm bytes.length, ← Nat.add_assoc]

theorem settle_of_lt (h : w.cursor.pending < w.arena.size) : w.settle = (.ok (), w) := by
  rw [settle, if_neg (Nat.ne_of_lt h)]

/-- A flush that succeeds leaves nothing staged. -/
theorem flush_arena (w : Writer) :
    w.flush.2.arena = w.arena ∧ (w.flush.1 = .ok () → w.flush.2.cursor.pending = 0) := by
  obtain heq | ⟨ops, step, rest, -, -, heq⟩ := w.flush_cases <;> rw [heq]
  · exact ⟨rfl, fun _ => rfl⟩
  · exact ⟨rfl, fun hok => by cases hok⟩

/-- The arena is not empty, and not overfull. -/
structure Sized (w : Writer) : Prop where
  arena : 0 < w.arena.size
  pending : w.cursor.pending ≤ w.arena.size

theorem sized_of_lt (h : w.cursor.pending < w.arena.size) : w.Sized :=
  ⟨Nat.lt_of_le_of_lt (Nat.zero_le _) h, Nat.le_of_lt h⟩

/-- Once an arena is settled there is room. -/
theorem Sized.settle (h : w.Sized) (hok : w.settle.1 = .ok ()) :
    w.settle.2.cursor.pending < w.settle.2.arena.size := by
  unfold Writer.settle at hok ⊢
  split
  · rename_i hfull
    rw [if_pos hfull] at hok
    obtain ⟨harena, hnone⟩ := w.flush_arena
    rw [harena, hnone hok]
    exact h.arena
  · rename_i hne
    exact Nat.lt_of_le_of_ne h.pending hne

theorem Sized.put (h : w.Sized) {byte : UInt8} (hok : (w.put byte).1 = .ok ()) :
    (w.put byte).2.Sized := by
  have hsettled := h.settle
  rw [put_eq] at hok ⊢
  generalize w.settle = r at hsettled hok ⊢
  obtain ⟨_ | _, w'⟩ := r
  · cases hok
  · have hlt : w'.cursor.pending < w'.arena.size := hsettled rfl
    have hsize : (w'.stage byte).arena.size = w'.arena.size := Array.size_setIfInBounds
    have hstaged : (w'.stage byte).Sized := ⟨by omega, by rw [hsize]; exact hlt⟩
    exact sized_of_lt (hstaged.settle hok)

theorem Sized.push (h : w.Sized) {data : List UInt8} (hok : (w.push data).1 = .ok ()) :
    (w.push data).2.Sized := by
  induction data generalizing w with
  | nil => exact h
  | cons byte data ih =>
    have hput : (w.put byte).1 = .ok () → (w.put byte).2.Sized := h.put
    rw [push_cons] at hok ⊢
    generalize w.put byte = r at hput hok ⊢
    obtain ⟨_ | _, w'⟩ := r
    · cases hok
    · exact ih (hput rfl) hok

/-- Bytes for which there is room go into the arena at once. -/
theorem push_eq_settle_fill {bytes : List UInt8} (hbytes : bytes ≠ [])
    (hfits : w.cursor.pending + bytes.length ≤ w.arena.size) :
    w.push bytes = (w.fill bytes).settle := by
  induction bytes generalizing w with
  | nil => exact absurd rfl hbytes
  | cons byte bytes ih =>
    rw [List.length_cons] at hfits
    have hlt : w.cursor.pending < w.arena.size := by omega
    rw [push_cons, put_eq, settle_of_lt hlt, resume_ok, fill_cons]
    by_cases hlast : bytes = []
    · rw [hlast, resume_push_nil, fill_nil]
    · have hpos := List.length_pos_iff.mpr hlast
      have hsize : (w.stage byte).arena.size = w.arena.size := Array.size_setIfInBounds
      have hstaged : (w.stage byte).cursor.pending = w.cursor.pending + 1 := rfl
      rw [settle_of_lt (by omega), resume_ok]
      exact ih hlast (by omega)

/-- While there is room, fills come to what the push comes to: a fill is a push of its own. -/
theorem pours_push_of_lt (hlt : w.cursor.pending < w.arena.size) (data : List UInt8) :
    w.Pours data (w.push data) := by
  induction hn : data.length using Nat.strongRecOn generalizing w data with
  | _ n ih =>
    by_cases hdata : data = []
    · rw [hdata]
      exact .done w
    · have hpos := List.length_pos_iff.mpr hdata
      have htake : (data.take w.room).length = min w.room data.length := List.length_take
      have hfits : w.cursor.pending + (data.take w.room).length ≤ w.arena.size := by
        rw [htake, room]
        omega
      have hsome : data.take w.room ≠ [] := by
        rw [← List.length_pos_iff, htake, room]
        omega
      have hsize : (w.fill (data.take w.room)).arena.size = w.arena.size := Memory.size_put _ _ _
      have hfilled : (w.fill (data.take w.room)).Sized := ⟨by omega, by rw [hsize]; exact hfits⟩
      have hnext := hfilled.settle
      have hcut : w.push data = resume (w.push (data.take w.room)) (·.push (data.drop w.room)) := by
        rw [← push_append, List.take_append_drop]
      rw [hcut, push_eq_settle_fill hsome hfits]
      generalize hfill : (w.fill (data.take w.room)).settle = r at hnext ⊢
      obtain ⟨res, w'⟩ := r
      cases res with
      | error fault => exact .fault hdata hfill
      | ok _ =>
        have hless : (data.drop w.room).length < n := by
          rw [List.length_drop, room]
          omega
        exact .more hdata hfill (ih _ hless (hnext rfl) _ rfl)

/-- Fills of an arena that is not empty come to what the push comes to. An arena that a failed flush left
full is flushed first by both. -/
theorem Sized.pours_push (h : w.Sized) (data : List UInt8) : w.Pours data (w.push data) := by
  by_cases hfull : w.cursor.pending = w.arena.size
  · cases data with
    | nil => exact .done w
    | cons byte data =>
      have hdata := List.cons_ne_nil byte data
      have hnone : w.room = 0 := by
        rw [room]
        omega
      have hfill : (w.fill ((byte :: data).take w.room)).settle = w.settle := by
        rw [hnone, List.take_zero, fill_nil]
      have hnext := h.settle
      rw [push_cons, put_eq]
      generalize w.settle = r at hfill hnext ⊢
      obtain ⟨res, w'⟩ := r
      cases res with
      | error fault => exact .fault hdata hfill
      | ok _ =>
        have hlt : w'.cursor.pending < w'.arena.size := hnext rfl
        have hrest := pours_push_of_lt hlt (byte :: data)
        rw [push_cons, put_eq, settle_of_lt hlt] at hrest
        refine .more hdata hfill ?_
        rw [hnone, List.drop_zero]
        exact hrest
  · exact pours_push_of_lt (Nat.lt_of_le_of_ne h.pending hfull) data

theorem Sized.pours_iff (h : w.Sized) {data : List UInt8} {r : Except WriteFault Unit × Writer} :
    w.Pours data r ↔ w.push data = r :=
  ⟨fun hr => (h.pours_push data).unique hr, fun hr => hr ▸ h.pours_push data⟩

/-- With an empty arena there are fills of no byte and flushes of no byte, for ever. -/
theorem not_pours_of_empty_arena (harena : w.arena.size = 0) (hpending : w.cursor.pending = 0)
    {data : List UInt8} (hdata : data ≠ []) (r : Except WriteFault Unit × Writer) :
    ¬ w.Pours data r := by
  have hnone (w : Writer) (harena : w.arena.size = 0) : w.room = 0 := by rw [room, harena, Nat.zero_sub]
  have hsettle (w : Writer) (data : List UInt8) (harena : w.arena.size = 0)
      (hpending : w.cursor.pending = 0) : (w.fill (data.take w.room)).settle = (.ok (), w) := by
    rw [hnone w harena, List.take_zero, fill_nil, settle, if_pos (hpending.trans harena.symm), flush,
      if_pos hpending]
  intro hpours
  induction hpours with
  | done w => exact hdata rfl
  | fault _ hfill => cases (hsettle _ _ harena hpending).symm.trans hfill
  | more _ hfill _ ih =>
    cases (hsettle _ _ harena hpending).symm.trans hfill
    rw [hnone _ harena, List.drop_zero] at ih
    exact ih harena hpending hdata

/-! ## Chunks -/

/-- A writer in any state, on a flash with any faults. Bytes one by one and fills of the arena come to the same.
Data are taken in as in two parts, the second only where the first succeeds. Of any two ways to cut one stream,
each up to its first failure, the results and the writers with their arenas and flashes are the same. -/
theorem chunking_irrelevant (harena : 0 < w.arena.size) (hpending : w.cursor.pending ≤ w.arena.size) :
    (∀ data r, w.Pours data r ↔ w.push data = r) ∧
      (∀ x y r, w.Pours (x ++ y) r ↔ ∃ r', w.Pours x r' ∧
        match r' with
        | (.ok (), w') => w'.Pours y r
        | (.error fault, w') => (.error fault, w') = r) ∧
      (∀ x y, w.push (x ++ y) = resume (w.push x) (·.push y)) ∧
      ∀ chunks chunks', chunks.flatten = chunks'.flatten → w.pushAll chunks = w.pushAll chunks' := by
  have hsized : w.Sized := ⟨harena, hpending⟩
  refine ⟨fun data r => hsized.pours_iff, fun x y r => ?_, w.push_append,
    fun chunks chunks' hsame => ?_⟩
  · have hnext : (w.push x).1 = .ok () → (w.push x).2.Sized := hsized.push
    simp only [hsized.pours_iff, exists_eq_left', push_append]
    generalize w.push x = r' at hnext ⊢
    obtain ⟨res, w'⟩ := r'
    cases res with
    | error fault => exact Iff.rfl
    | ok _ => exact (Sized.pours_iff (hnext rfl)).symm
  · rw [pushAll_eq_push, pushAll_eq_push, hsame]

/-- A writer whose arena a failed flush left full, beyond the end of its flash. -/
def jammed : Writer where
  cursor := { base := firstImageAddress, flushed := 0, pending := 2, erasedEnd := firstImageAddress }
  arena := #[1, 2]
  flash := { cells := #[], size_mod := rfl, size_lt := by decide }

/-- However the data are cut, no byte is taken in while the flush fails again. -/
theorem chunking_irrelevant_jammed :
    0 < jammed.arena.size ∧ jammed.cursor.pending ≤ jammed.arena.size ∧
      jammed.pushAll [[3], [4, 5]] = jammed.pushAll [[3, 4], [5]] ∧
      (jammed.pushAll [[3], [4, 5]]).1 = .error .eraseFailed := by
  have harena : 0 < jammed.arena.size := by decide
  have hpending : jammed.cursor.pending ≤ jammed.arena.size := by decide
  obtain ⟨-, -, -, hsame⟩ := chunking_irrelevant harena hpending
  -- the arena is full, so its first sector is erased before anything else is done
  have hflush : jammed.flush.1 = .error .eraseFailed := by
    have hstaged : jammed.staged = [1, 2] := by decide
    rw [flush, if_neg (by decide), hstaged, pieces, programPieces]
    rfl
  have hfull : jammed.cursor.pending = jammed.arena.size := rfl
  refine ⟨harena, hpending, hsame _ _ rfl, ?_⟩
  rw [pushAll_eq_push, List.flatten_cons, List.singleton_append, push_cons, put_eq, settle, if_pos hfull]
  generalize jammed.flush = r at hflush ⊢
  obtain ⟨res, w'⟩ := r
  obtain rfl : res = _ := hflush
  rfl

end BootSlots.Image.Writer
