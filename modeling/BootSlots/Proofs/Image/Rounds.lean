import BootSlots.Proofs.Image.WordArithmetic

/-
  Taking in data round by round: as many bytes as there is room for, and a flush once the arena is full. What
  a flush does to the flash, and whether it succeeds, is left open; a flush that succeeds empties the arena, one
  that fails leaves it full, and nothing else about a flash matters here.

  A round that starts with a full arena, as a failed flush leaves it, stages no byte, so the data alone do not
  tell that the rounds come to an end. Such a round makes room, and `due` counts that as well.

  Proved:
  * `Settles.ok_cases`, `Settles.error_cases`: what one round does to arena and counts.
  * `Round.next`, `Sized.no_endless_rounds`: each round leaves less to do, on a flash of any behaviour.
  * `Rounds.takenIn`, `Rounds.cutShort`: flushes, counts and bytes of all rounds, by induction on the rounds.
  * `Pours.rounds`: the flash of the writer itself is one of those.
  * `push_by_rounds`: all of this for the data of one push.
-/

namespace BootSlots.Image.Writer

/-! ## One round -/

/-- A flush, with the bytes handed to it. -/
structure FlushCall where
  bytes : List UInt8
  succeeds : Bool

/-- The writer with another flash and another erased front. -/
def onFlash (w : Writer) (flash : Flash) (front : Nat) : Writer :=
  { w with flash, cursor := { w.cursor with erasedEnd := front } }

/-- What may come of settling the arena, and by which flushes, on a flash of any behaviour: a flush counts the
staged bytes as programmed, or it fails and leaves them staged. -/
inductive Settles (w : Writer) : List FlushCall → Except WriteFault Unit × Writer → Prop where
  | roomy (hroom : w.cursor.pending ≠ w.arena.size) : w.Settles [] (.ok (), w)
  | flushed (hfull : w.cursor.pending = w.arena.size) (flash : Flash) (front : Nat) :
      w.Settles [⟨w.staged, true⟩] (.ok (), (w.onFlash flash front).drain)
  | refused (hfull : w.cursor.pending = w.arena.size) (fault : WriteFault) (flash : Flash)
      (front : Nat) : w.Settles [⟨w.staged, false⟩] (.error fault, w.onFlash flash front)

/-- Rounds until the data are taken in or a flush fails: their flushes, and what they come to. -/
inductive Rounds : Writer → List UInt8 → List FlushCall → Except WriteFault Unit × Writer → Prop where
  | done (w : Writer) : w.Rounds [] [] (.ok (), w)
  | fault {w w' : Writer} {data : List UInt8} {calls : List FlushCall} {fault : WriteFault}
      (hdata : data ≠ []) (hround : (w.fill (data.take w.room)).Settles calls (.error fault, w')) :
      w.Rounds data calls (.error fault, w')
  | more {w w' : Writer} {data : List UInt8} {calls calls' : List FlushCall}
      {r : Except WriteFault Unit × Writer} (hdata : data ≠ [])
      (hround : (w.fill (data.take w.room)).Settles calls (.ok (), w'))
      (hrest : w'.Rounds (data.drop w.room) calls' r) : w.Rounds data (calls ++ calls') r

/-- A round that is not the last: the writer and the data before it and after it. -/
def Round (s s' : Writer × List UInt8) : Prop :=
  s.2 ≠ [] ∧ (∃ calls, (s.1.fill (s.2.take s.1.room)).Settles calls (.ok (), s'.1)) ∧
    s'.2 = s.2.drop s.1.room

variable {w w' : Writer} {data : List UInt8} {calls : List FlushCall}

theorem staged_fill (bytes : List UInt8) (hfits : w.cursor.pending + bytes.length ≤ w.arena.size) :
    (w.fill bytes).staged = w.staged ++ bytes := by
  induction bytes generalizing w with
  | nil => rw [fill_nil, List.append_nil]
  | cons byte bytes ih =>
    rw [List.length_cons] at hfits
    have hsize : (w.stage byte).arena.size = w.arena.size := Array.size_setIfInBounds
    have hpending : (w.stage byte).cursor.pending = w.cursor.pending + 1 := rfl
    have hstage : (w.stage byte).staged = w.staged ++ [byte] :=
      Memory.slice_setIfInBounds (by omega) byte
    rw [fill_cons, ih (by omega), hstage, ← List.append_cons]

theorem Sized.staged_fill (h : w.Sized) (data : List UInt8) :
    (w.fill (data.take w.room)).staged = w.staged ++ data.take w.room := by
  have hpending := h.pending
  apply Writer.staged_fill
  rw [List.length_take, room]
  omega

/-- A round that is not the last finds room for all data that are left, or it flushes a full arena. -/
theorem Settles.ok_cases (h : w.Sized)
    (hround : (w.fill (data.take w.room)).Settles calls (.ok (), w')) :
    w'.arena.size = w.arena.size ∧
      (w.cursor.pending + data.length < w.arena.size ∧ calls = [] ∧ data.drop w.room = [] ∧
          w'.cursor.pending = w.cursor.pending + data.length ∧
          w'.cursor.flushed = w.cursor.flushed ∧ w'.staged = w.staged ++ data ∨
        w.arena.size ≤ w.cursor.pending + data.length ∧
          calls = [⟨w.staged ++ data.take w.room, true⟩] ∧ w'.cursor.pending = 0 ∧
          w'.cursor.flushed = w.cursor.flushed + w.arena.size) := by
  have hsize := w.size_fill (data.take w.room)
  have hstaged := h.staged_fill data
  have hpending := h.pending_fill data
  cases hround with
  | roomy hroom =>
    rw [hpending, hsize] at hroom
    have hfits : w.cursor.pending + data.length < w.arena.size := by omega
    have hle : data.length ≤ w.room := by
      rw [room]
      omega
    rw [List.take_of_length_le hle] at hstaged hpending ⊢
    exact ⟨w.size_fill data, .inl ⟨hfits, rfl, List.drop_of_length_le hle, rfl, rfl, hstaged⟩⟩
  | flushed hfull flash front =>
    refine ⟨hsize, .inr ⟨by omega, by rw [hstaged], rfl, ?_⟩⟩
    show w.cursor.flushed + (w.fill (data.take w.room)).cursor.pending = _
    rw [hfull, hsize]

theorem staged_of_full (h : w.cursor.pending = w.arena.size) : w.staged = w.arena.toList := by
  rw [staged, h, Memory.slice, Nat.zero_add, Array.extract_size]

/-- A round with a flush that fails leaves the arena full. -/
theorem Settles.error_cases (h : w.Sized) {fault : WriteFault}
    (hround : (w.fill (data.take w.room)).Settles calls (.error fault, w')) :
    w'.arena.size = w.arena.size ∧ w'.cursor.pending = w.arena.size ∧
      w'.cursor.flushed = w.cursor.flushed ∧ w'.arena.toList = w.staged ++ data.take w.room ∧
      calls = [⟨w.staged ++ data.take w.room, false⟩] := by
  have hsize := w.size_fill (data.take w.room)
  have hstaged := h.staged_fill data
  cases hround with
  | refused hfull fault flash front =>
    exact ⟨hsize, hfull.trans hsize, rfl, (staged_of_full hfull).symm.trans hstaged, by rw [hstaged]⟩

/-! ## The rounds come to an end -/

/-- Each round leaves less to do. -/
theorem Round.next {s s' : Writer × List UInt8} (h : s.1.Sized) (hround : Round s s') :
    s'.1.Sized ∧ s'.1.due s'.2 < s.1.due s.2 := by
  obtain ⟨hdata, ⟨calls, hsettles⟩, hrest⟩ := hround
  have harena := h.arena
  obtain ⟨hsize, hcases⟩ := hsettles.ok_cases h
  have hlt : s'.1.cursor.pending < s'.1.arena.size := by
    obtain ⟨hfits, -, -, hpending, -⟩ | ⟨-, -, hpending, -⟩ := hcases
    · omega
    · omega
  have hroom : s'.1.room ≠ 0 := by
    rw [room]
    omega
  rw [hrest]
  exact ⟨sized_of_lt hlt, due_lt hdata hroom⟩

/-- On no flash is there always a next round. -/
theorem Sized.no_endless_rounds (h : w.Sized) (data : List UInt8) :
    ¬ ∃ run : Nat → Writer × List UInt8, run 0 = (w, data) ∧ ∀ k, Round (run k) (run (k + 1)) := by
  rintro ⟨run, hstart, hrounds⟩
  have hdown (k : Nat) : (run k).1.Sized ∧ (run k).1.due (run k).2 + k ≤ w.due data := by
    induction k with
    | zero =>
      rw [hstart]
      exact ⟨h, Nat.le_refl _⟩
    | succ k ih =>
      obtain ⟨hsized, hdue⟩ := ih
      obtain ⟨hsized', hless⟩ := (hrounds k).next hsized
      exact ⟨hsized', by omega⟩
  have := (hdown (w.due data + 1)).2
  omega

/-! ## Flushes, counts and bytes -/

/-- All data are taken in: the arena was flushed each time it was full, and nothing is lost. -/
structure TakenIn (w : Writer) (data : List UInt8) (calls : List FlushCall) (w' : Writer) : Prop where
  count : calls.length = (w.cursor.pending + data.length) / w.arena.size
  pending : w'.cursor.pending = (w.cursor.pending + data.length) % w.arena.size
  flushed : w'.cursor.flushed = w.cursor.flushed + w.arena.size * calls.length
  bytes : calls.flatMap FlushCall.bytes ++ w'.staged = w.staged ++ data

/-- A flush failed: the arena is full, and nothing before its end is lost. -/
structure CutShort (w : Writer) (data : List UInt8) (calls : List FlushCall) (w' : Writer) : Prop where
  size : w'.arena.size = w.arena.size
  full : w'.cursor.pending = w'.arena.size
  flushed : w'.cursor.flushed =
    w.cursor.flushed + w.arena.size * (calls.filter FlushCall.succeeds).length
  bytes : (calls.filter FlushCall.succeeds).flatMap FlushCall.bytes ++ w'.arena.toList <+:
    w.staged ++ data

variable {r : Except WriteFault Unit × Writer}

/-- A flushed arena and the data after it, as one stream. -/
theorem staged_append_take_drop (w : Writer) (data : List UInt8) :
    w.staged ++ data.take w.room ++ data.drop w.room = w.staged ++ data := by
  rw [List.append_assoc, List.take_append_drop]

/-- Rounds that succeed take in all data, by induction on the rounds. Without data there is no round, and a full
arena would stay full. -/
theorem Rounds.takenIn (hrounds : w.Rounds data calls r) (h : w.Sized)
    (hsome : data ≠ [] ∨ w.cursor.pending < w.arena.size) (hok : r.1 = .ok ()) :
    w.TakenIn data calls r.2 := by
  induction hrounds with
  | done w =>
    obtain hdata | hlt := hsome
    · exact absurd rfl hdata
    · exact ⟨(Nat.div_eq_of_lt hlt).symm, (Nat.mod_eq_of_lt hlt).symm, rfl, (List.append_nil _).symm⟩
  | fault => cases hok
  | @more w w' data calls calls' r hdata hround hrest ih =>
    have harena := h.arena
    have hsplit := w.staged_append_take_drop data
    obtain ⟨hsize, hcases⟩ := hround.ok_cases h
    obtain ⟨hfits, rfl, hnone, hpending, hflushed, hstaged⟩ | ⟨hfull, rfl, hpending, hflushed⟩ := hcases
    · -- the data are staged without a flush, and no round follows
      rw [hnone] at hrest ih
      obtain ⟨hcalls, hpending', hflushed', hbytes⟩ :=
        ih (sized_of_lt (by omega)) (.inr (by omega)) hok
      rw [hsize, hpending, List.length_nil, Nat.add_zero] at hcalls hpending'
      rw [hsize, hflushed] at hflushed'
      rw [hstaged, List.append_nil] at hbytes
      exact ⟨hcalls, hpending', hflushed', hbytes⟩
    · -- a full arena is flushed, and the rest starts with an empty one
      obtain ⟨hcalls, hpending', hflushed', hbytes⟩ :=
        ih (sized_of_lt (by omega)) (.inr (by omega)) hok
      have hrest : w.cursor.pending + data.length = (data.drop w.room).length + w.arena.size := by
        have hle := h.pending
        rw [List.length_drop, room]
        omega
      have hnone : w'.staged = [] := staged_eq_nil hpending
      rw [hsize, hpending, Nat.zero_add] at hcalls hpending'
      rw [hsize, hflushed] at hflushed'
      rw [hnone, List.nil_append] at hbytes
      refine ⟨?_, ?_, ?_, ?_⟩
      · rw [List.singleton_append, List.length_cons, hcalls, hrest, Nat.add_div_right _ harena]
      · rw [hpending', hrest, Nat.add_mod_right]
      · rw [hflushed', List.singleton_append, List.length_cons, Nat.mul_succ]
        omega
      · rw [List.singleton_append, List.flatMap_cons, List.append_assoc, hbytes, hsplit]

/-- Rounds that a flush ends take in an initial part of the data, by induction on the rounds. -/
theorem Rounds.cutShort (hrounds : w.Rounds data calls r) (h : w.Sized) (hfault : r.1 ≠ .ok ()) :
    w.CutShort data calls r.2 := by
  induction hrounds with
  | done => exact absurd rfl hfault
  | @fault w w' data calls fault hdata hround =>
    obtain ⟨hsize, hpending, hflushed, hbytes, rfl⟩ := hround.error_cases h
    refine ⟨hsize, hpending.trans hsize.symm, hflushed, ?_⟩
    show [] ++ w'.arena.toList <+: _
    rw [List.nil_append, hbytes, ← w.staged_append_take_drop data]
    exact List.prefix_append _ _
  | @more w w' data calls calls' r hdata hround hrest ih =>
    obtain ⟨hsize, hcases⟩ := hround.ok_cases h
    obtain ⟨hfits, rfl, hnone, hpending, hflushed, hstaged⟩ | ⟨hfull, rfl, hpending, hflushed⟩ := hcases
    · -- no data are left, so no round follows that could fail
      rw [hnone] at hrest
      cases hrest with
      | done => exact absurd rfl hfault
      | fault hdata => exact absurd rfl hdata
      | more hdata => exact absurd rfl hdata
    · have harena := h.arena
      obtain ⟨hsize', hfull', hflushed', hbytes⟩ := ih (sized_of_lt (by omega)) hfault
      have hnone : w'.staged = [] := staged_eq_nil hpending
      rw [hsize, hflushed] at hflushed'
      rw [hnone, List.nil_append] at hbytes
      refine ⟨hsize'.trans hsize, hfull', ?_, ?_⟩
      · show _ = _ + _ * (List.length (_ :: calls'.filter FlushCall.succeeds))
        rw [hflushed', List.length_cons, Nat.mul_succ]
        omega
      · show (w.staged ++ data.take w.room) ++ _ ++ _ <+: _
        rw [← w.staged_append_take_drop data, List.append_assoc]
        exact (List.prefix_append_right_inj _).mpr hbytes

/-! ## A push -/

/-- A flush of the writer's own flash is one of those. -/
theorem settles_settle (w : Writer) : ∃ calls, w.Settles calls w.settle := by
  rw [settle]
  split
  · rename_i hfull
    obtain heq | ⟨ops, step, rest, -, -, heq⟩ := w.flush_cases <;> rw [heq]
    · exact ⟨_, .flushed hfull _ _⟩
    · exact ⟨_, .refused hfull _ _ _⟩
  · rename_i hroom
    exact ⟨_, .roomy hroom⟩

theorem Pours.rounds (h : w.Pours data r) : ∃ calls, w.Rounds data calls r := by
  induction h with
  | done w => exact ⟨[], .done w⟩
  | @fault w w' data fault hdata hfill =>
    obtain ⟨calls, hround⟩ := (w.fill (data.take w.room)).settles_settle
    rw [hfill] at hround
    exact ⟨calls, .fault hdata hround⟩
  | @more w w' data r hdata hfill hrest ih =>
    obtain ⟨calls, hround⟩ := (w.fill (data.take w.room)).settles_settle
    obtain ⟨calls', hrounds⟩ := ih
    rw [hfill] at hround
    exact ⟨calls ++ calls', .more hdata hround hrounds⟩

/-- A writer in any state, and data that end before the last sector of the address space. Its push has a
result, by words as well, which is one of rounds. On a flash of any behaviour the rounds come to an end: all
data are taken in, with one flush for each full arena, or a flush fails and leaves the arena full. -/
theorem push_by_rounds (harena : 0 < w.arena.size) (hpending : w.cursor.pending ≤ w.arena.size)
    (data : List UInt8)
    (hfits : w.cursor.base + w.cursor.flushed + w.cursor.pending + data.length < 0xFFFFF000) :
    w.push? data = some (w.push data) ∧
      (∃ calls, w.Rounds data calls (w.push data)) ∧
      (¬ ∃ run : Nat → Writer × List UInt8, run 0 = (w, data) ∧ ∀ k, Round (run k) (run (k + 1))) ∧
      ∀ calls r, w.Rounds data calls r →
        (r.1 = .ok () → data ≠ [] → w.TakenIn data calls r.2) ∧
        (r.1 ≠ .ok () → w.CutShort data calls r.2) := by
  have h : w.Sized := ⟨harena, hpending⟩
  have htotal : w.cursor.base + w.cursor.total + data.length ≤ 0xFFFFF000 := by
    rw [Cursor.total]
    omega
  refine ⟨h.push?_eq (by decide) (by decide) htotal, (h.pours_push data).rounds,
    h.no_endless_rounds data, fun calls r hrounds => ⟨fun hok hdata => ?_, hrounds.cutShort h⟩⟩
  exact hrounds.takenIn h (.inl hdata) hok

/-- An arena that a failed flush left full is flushed first, by a round that stages nothing. -/
theorem push_by_rounds_jammed :
    0 < jammed.arena.size ∧ jammed.cursor.pending ≤ jammed.arena.size ∧
      jammed.cursor.base + jammed.cursor.flushed + jammed.cursor.pending + 3 < 0xFFFFF000 ∧
      ∃ calls r, jammed.Rounds [3, 4, 5] calls r ∧ r.1 = .ok () ∧ calls.length = 5 / 2 ∧
        r.2.cursor.pending = 5 % 2 ∧ calls.flatMap FlushCall.bytes ++ r.2.staged = [1, 2, 3, 4, 5] := by
  have harena : 0 < jammed.arena.size := by decide
  have hpending : jammed.cursor.pending ≤ jammed.arena.size := by decide
  have hfits : jammed.cursor.base + jammed.cursor.flushed + jammed.cursor.pending + 3 < 0xFFFFF000 := by
    decide
  obtain ⟨-, -, -, hlaws⟩ := push_by_rounds harena hpending [3, 4, 5] hfits
  have hrounds : jammed.Rounds [3, 4, 5] _ _ :=
    .more (by decide) (.flushed rfl jammed.flash 0) <|
      .more (by decide) (.flushed rfl jammed.flash 0) <|
        .more (by decide) (.roomy (by decide)) (.done _)
  have htaken := (hlaws _ _ hrounds).1 rfl (by decide)
  exact ⟨harena, hpending, hfits, _, _, hrounds, rfl, htaken.count, htaken.pending, htaken.bytes⟩

end BootSlots.Image.Writer
