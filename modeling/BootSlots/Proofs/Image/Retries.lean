import BootSlots.Proofs.Image.Stream

/-
  Runs of one writer: pushes, and flushes that may fail and be tried again while faults of the flash come and
  go. Fills of the arena, sectors and the erased front do not fall together, and a flush that is tried again
  programs cells that hold their bytes already. What was taken in is all that tells the sectors that a run
  may touch, so `Carries` needs the stream and nothing of how the run came to it.

  Proved:
  * `Carries.next`, `Carries.after`: each call, and so each run without a failed push, carries the stream on.
  * `written_by_run`: after a flush that succeeds the stream is on the flash, the rest of its last sector is
    blank, and all other sectors are as before the run.

  Between a flush that fails and the next that succeeds the flash may hold any part of the staged bytes.
-/

namespace BootSlots

/-- `g` is `f` with the stream `d` written from `base` on, in sectors of its own. -/
structure Flash.Written (f : Flash) (base : Nat) (d : List UInt8) (g : Flash) : Prop where
  stream : g.cells.slice base d.length = d
  /-- What follows the stream in the sector of its last byte is blank. -/
  rest : d ≠ [] → ∀ x, base + d.length ≤ x → sectorOf x = sectorOf (base + (d.length - 1)) →
    g.cells[x]? = some erased
  /-- All sectors without a byte of the stream are as in `f`. -/
  elsewhere : ∀ x, (∀ i < d.length, sectorOf x ≠ sectorOf (base + i)) → g.cells[x]? = f.cells[x]?

namespace Image.Writer

/-! ## Runs -/

/-- One call of a writer, or a switch of its flash's faults from outside. -/
inductive Call where
  | push (data : List UInt8)
  | flush
  | setFaults (faults : FlashFaults)

/-- Switches the faults of the writer's flash. -/
def setFaults (w : Writer) (faults : FlashFaults) : Writer :=
  { w with flash := { w.flash with faults } }

/-- The writer after one call. -/
def next (w : Writer) : Call → Writer
  | .push data => (w.push data).2
  | .flush => w.flush.2
  | .setFaults faults => w.setFaults faults

/-- The writer after a run. -/
def after (w : Writer) (calls : List Call) : Writer :=
  calls.foldl next w

/-- The data that a call hands in. -/
def Call.data : Call → List UInt8
  | .push data => data
  | .flush | .setFaults _ => []

/-- The data of all pushes of a run, in order. -/
def pushed (calls : List Call) : List UInt8 :=
  calls.flatMap Call.data

/-- No push of the run fails. -/
def Takes : Writer → List Call → Prop
  | _, [] => True
  | w, c :: calls => (∀ data, c = .push data → (w.push data).1 = .ok ()) ∧ (w.next c).Takes calls

@[simp] theorem after_nil (w : Writer) : w.after [] = w := rfl

@[simp] theorem after_cons (w : Writer) (c : Call) (calls : List Call) :
    w.after (c :: calls) = (w.next c).after calls := rfl

theorem after_append (w : Writer) (calls calls' : List Call) :
    w.after (calls ++ calls') = (w.after calls).after calls' :=
  List.foldl_append

theorem Takes.push {w : Writer} {data : List UInt8} {calls : List Call} (hok : (w.push data).1 = .ok ())
    (h : (w.push data).2.Takes calls) : w.Takes (.push data :: calls) := by
  refine ⟨fun data' heq => ?_, h⟩
  obtain rfl := Call.push.inj heq
  exact hok

theorem Takes.flush {w : Writer} {calls : List Call} (h : w.flush.2.Takes calls) :
    w.Takes (.flush :: calls) :=
  ⟨fun _ heq => Call.noConfusion heq, h⟩

theorem Takes.setFaults {w : Writer} {faults : FlashFaults} {calls : List Call}
    (h : (w.setFaults faults).Takes calls) : w.Takes (.setFaults faults :: calls) :=
  ⟨fun _ heq => Call.noConfusion heq, h⟩

theorem Takes.append {w : Writer} {calls calls' : List Call} (h : w.Takes calls)
    (h' : (w.after calls).Takes calls') : w.Takes (calls ++ calls') := by
  induction calls generalizing w with
  | nil => exact h'
  | cons c calls ih => exact ⟨h.1, ih h.2 h'⟩

/-! ## What a run carries on -/

/-- `w` is what a run has made of `w₀`, with `d` taken in, in the sectors of `d`. -/
structure Carries (w₀ w : Writer) (d : List UInt8) : Prop where
  stream : w.Stream d
  base : w.cursor.base = w₀.cursor.base
  arena : w.arena.size = w₀.arena.size
  flash : w₀.flash.Reaches (·.Within w₀.cursor.base (w₀.cursor.base + d.length)) w.flash

variable {w₀ w w' : Writer} {d : List UInt8}

/-- A writer that is about to start has taken in nothing. -/
theorem carries_start {base : Nat} (hbase : base % sectorSize = 0) (arena : Memory) (flash : Flash) :
    Carries ⟨.start base, arena, flash⟩ ⟨.start base, arena, flash⟩ [] :=
  ⟨.start hbase arena flash, rfl, rfl, .refl flash _⟩

/-- A writer that goes on with a longer stream carries on. -/
theorem Carries.of_leads {limit : Nat} {data : List UInt8} (h : w₀.Carries w d)
    (hstream : w'.Stream (d ++ data)) (hleads : w.Leads limit w')
    (hlimit : limit ≤ w.cursor.base + (d ++ data).length) : w₀.Carries w' (d ++ data) := by
  obtain ⟨ops, hflash, hops⟩ := hleads.flash
  refine ⟨hstream, hleads.base.trans h.base, hleads.room.trans h.arena, ?_⟩
  have hbefore : w₀.flash.Reaches
      (·.Within w₀.cursor.base (w₀.cursor.base + (d ++ data).length)) w.flash :=
    h.flash.mono fun op hop => hop.mono (by rw [List.length_append]; omega)
  refine hbefore.trans ?_
  rw [hflash, ← h.base]
  exact Flash.reaches_performAll _ fun op hop => (hops op hop).mono hlimit

/-- Each call carries the stream on; a flush does so too where it fails. -/
theorem Carries.next (h : w₀.Carries w d) (harena : 0 < w₀.arena.size) {c : Call}
    (hc : ∀ data, c = .push data → (w.push data).1 = .ok ()) :
    w₀.Carries (w.next c) (d ++ c.data) := by
  cases c with
  | push data =>
    obtain ⟨p, rest, rfl, hstream, hleads, hok, -⟩ := h.stream.push (h.arena ▸ harena) data
    obtain ⟨rfl, -⟩ := hok (hc _ rfl)
    rw [List.append_nil] at hstream hleads ⊢
    have hend : w.cursor.base + d.length + p.length = w.cursor.base + (d ++ p).length := by
      rw [List.length_append, Nat.add_assoc]
    exact h.of_leads hstream hleads (Nat.le_of_eq hend)
  | flush =>
    obtain ⟨hstream, hleads, -⟩ := h.stream.flush
    have hsame : d ++ Call.flush.data = d := List.append_nil d
    refine h.of_leads ?_ hleads ?_
    · rw [hsame]
      exact hstream
    · exact Nat.le_of_eq (by rw [hsame])
  | setFaults faults =>
    rw [Call.data, List.append_nil]
    exact ⟨h.stream.congr_flash fun _ _ => rfl, h.base, h.arena,
      h.flash.trans ⟨[], ⟨rfl, (List.append_nil _).symm, rfl⟩, List.forall_mem_nil _⟩⟩

/-- A run without a failed push carries the stream on, by induction on its calls. -/
theorem Carries.after (h : w₀.Carries w d) (harena : 0 < w₀.arena.size) {calls : List Call}
    (hcalls : w.Takes calls) : w₀.Carries (w.after calls) (d ++ pushed calls) := by
  induction calls generalizing w d with
  | nil =>
    rw [pushed, List.flatMap_nil, List.append_nil]
    exact h
  | cons c calls ih =>
    obtain ⟨hc, hrest⟩ := hcalls
    rw [pushed, List.flatMap_cons, ← List.append_assoc]
    exact ih (h.next harena hc) hrest

/-! ## After a flush -/

/-- Once all is flushed, the erased front is at the end of the last byte's sector. -/
theorem Stream.lt_front (h : w.Stream d) (hall : w.cursor.flushed = d.length) (hd : d ≠ []) {x : Nat}
    (hx : sectorOf x = sectorOf (w.cursor.base + (d.length - 1))) : x < w.cursor.erasedEnd := by
  have hpos := List.length_pos_iff.mpr hd
  have hle := h.laid.le_front
  have hmod := h.laid.front_mod
  simp only [sectorOf, sectorSize_eq] at *
  omega

/-- A flushed stream is written. -/
theorem Carries.written (h : w₀.Carries w d) (hall : w.cursor.flushed = d.length) :
    w₀.flash.Written w₀.cursor.base d w.flash where
  stream := by
    have hslice := h.stream.slice_flushed
    rwa [hall, List.take_length, h.base] at hslice
  rest hd x hx hsector := by
    obtain ⟨i, rfl⟩ := Nat.exists_eq_add_of_le hx
    rw [← h.base, Nat.add_assoc] at hsector ⊢
    obtain ⟨-, hblank⟩ | ⟨hlt, -⟩ := h.stream.laid.cell _ (h.stream.lt_front hall hd hsector)
    · exact hblank
    · omega
  elsewhere x hx := by
    refine h.flash.getElem?_cells fun op hop hcovers => ?_
    obtain ⟨hle, hlt⟩ := hop x hcovers
    obtain ⟨i, hi⟩ := Nat.exists_eq_add_of_le hle
    refine hx i (by omega) ?_
    rw [← hi, sectorStart, sectorOf, sectorOf, Nat.mul_div_cancel _ (by decide)]

/-- A run by a writer with any arena that is not empty, over faults that come and go. Where no push fails and
a last flush succeeds, all data of the pushes are written, whatever flushes failed on the way. -/
theorem written_by_run {base : Nat} {arena : Memory} {flash : Flash} (hbase : base % sectorSize = 0)
    (harena : 0 < arena.size) {calls : List Call} (htakes : Takes ⟨.start base, arena, flash⟩ calls)
    (hflush : (after ⟨.start base, arena, flash⟩ calls).flush.1 = .ok ()) :
    flash.Written base (pushed calls) (after ⟨.start base, arena, flash⟩ (calls ++ [.flush])).flash ∧
      (after ⟨.start base, arena, flash⟩ (calls ++ [.flush])).cursor.flushed = (pushed calls).length ∧
      (after ⟨.start base, arena, flash⟩ (calls ++ [.flush])).cursor.total = (pushed calls).length ∧
      (after ⟨.start base, arena, flash⟩ (calls ++ [.flush])).cursor.pending = 0 := by
  have hrun := (carries_start hbase arena flash).after harena htakes
  have hend := hrun.next harena (c := .flush) fun _ heq => Call.noConfusion heq
  obtain ⟨-, -, hdone, -⟩ := hrun.stream.flush
  obtain ⟨hpending, hall, -⟩ := hdone hflush
  rw [List.nil_append] at hall
  rw [List.nil_append, Call.data, List.append_nil] at hend
  rw [after, List.foldl_append]
  refine ⟨hend.written hall, hall, ?_, hpending⟩
  exact (congr (congrArg _ hall) hpending).trans (Nat.add_zero _)

/-! ## A flush that is tried again -/

/-- No byte gets into a sector that cannot be programmed. -/
theorem programPiece_of_stuck {x : Nat} (h : w.flash.faults.program = some (sectorOf x))
    (bytes : List UInt8) : (w.programPiece x bytes).1 ≠ .ok () := by
  have hfaults : (w.openSector x).2.flash.faults = w.flash.faults := by
    unfold openSector
    split
    · split
      · rfl
      · rename_i g hg
        obtain ⟨-, -, rfl⟩ := Flash.erase_eq_ok_iff.mp hg
        exact Flash.faults_perform _ _
    · rfl
  have hstuck : (w.openSector x).2.flash.programFault x bytes.length = true := by
    have hle : sectorOf x ≤ sectorOf (x + (bytes.length - 1)) := by
      simp only [sectorOf, sectorSize_eq]
      omega
    rw [Flash.programFault, hfaults, h]
    simp only [Nat.le_refl, hle, decide_true, Bool.and_self]
  unfold programPiece
  split
  · intro hok
    cases hok
  · rename_i w' hopen
    rw [hopen] at hstuck
    split
    · intro hok
      cases hok
    · rename_i g hg
      obtain ⟨-, hfree, -⟩ := Flash.program_eq_ok_iff.mp hg
      cases hstuck.symm.trans hfree

theorem flush_of_stuck (hstaged : w.staged ≠ [])
    (h : w.flash.faults.program = some (sectorOf (w.cursor.base + w.cursor.flushed))) :
    w.flush.1 ≠ .ok () := by
  have hpending : w.cursor.pending ≠ 0 := fun hnone => hstaged (staged_eq_nil hnone)
  obtain ⟨byte, bytes, hbytes⟩ := List.exists_cons_of_ne_nil hstaged
  have hstuck := programPiece_of_stuck h
  rw [flush, if_neg hpending, hbytes, pieces, programPieces]
  dsimp only
  split
  · intro hok
    cases hok
  · rename_i w' hprogrammed
    split at hprogrammed
    · cases hprogrammed
    · rename_i hpiece
      exact absurd (congrArg Prod.fst hpiece) (hstuck _)

/-- A flash of four sectors that holds zeros. -/
def staleFlash : Flash where
  cells := Array.replicate (4 * sectorSize) 0
  size_mod := by simp
  size_lt := by simp; decide

theorem size_staleFlash : staleFlash.cells.size = 4 * sectorSize :=
  Array.size_replicate

/-- A writer with an arena of three bytes that is about to start on it. -/
def smallWriter : Writer :=
  ⟨.start firstImageAddress, #[0, 0, 0], staleFlash⟩

/-- The sector cannot be programmed when the first two bytes are flushed, and can be later. -/
def hamperedCalls : List Call :=
  [.setFaults { program := some (sectorOf firstImageAddress) }, .push [1, 2], .flush, .setFaults {}]

theorem takes_hamperedCalls : smallWriter.Takes hamperedCalls :=
  .setFaults (.push rfl (.flush (.setFaults trivial)))

/-- Six bytes through an arena of three, with a flush that fails after two. -/
theorem written_by_run_hampered :
    (smallWriter.after (hamperedCalls.take 2)).flush.1 ≠ .ok () ∧
      (smallWriter.after (hamperedCalls ++ [.push [3, 4, 5, 6]] ++ [.flush])).flash.cells.slice
        firstImageAddress 6 = [1, 2, 3, 4, 5, 6] := by
  have hstart : smallWriter.Carries smallWriter [] := carries_start (by decide) _ _
  have hbefore := hstart.after (by decide) takes_hamperedCalls
  -- the faults are gone, so the rest is taken in and flushed
  have hfree : (smallWriter.after hamperedCalls).flash.Unhindered (firstImageAddress + 6) := by
    refine ⟨rfl, rfl, ?_⟩
    rw [hbefore.flash.size_cells, smallWriter, size_staleFlash]
    decide
  obtain ⟨-, -, -, -, hleads, -, hpush⟩ :=
    hbefore.stream.push (by rw [hbefore.arena]; decide) [3, 4, 5, 6]
  rw [hbefore.base] at hpush
  have htakes : smallWriter.Takes (hamperedCalls ++ [.push [3, 4, 5, 6]]) :=
    takes_hamperedCalls.append (.push (hpush hfree) trivial)
  have hlast : smallWriter.after (hamperedCalls ++ [.push [3, 4, 5, 6]]) =
      ((smallWriter.after hamperedCalls).push [3, 4, 5, 6]).2 := by
    rw [after_append, after_cons, after_nil, next]
  have hpushed : pushed (hamperedCalls ++ [.push [3, 4, 5, 6]]) = [1, 2, 3, 4, 5, 6] := rfl
  have hcarried := hstart.after (by decide) htakes
  rw [hpushed, hlast] at hcarried
  obtain ⟨-, -, -, hflush⟩ := hcarried.stream.flush
  rw [hcarried.base] at hflush
  obtain ⟨hwritten, -⟩ := written_by_run (by decide) (by decide) htakes
    (by rw [← smallWriter, hlast]; exact hflush (hleads.unhindered hfree))
  have hslice := hwritten.stream
  rw [hpushed] at hslice
  exact ⟨flush_of_stuck (by decide) rfl, hslice⟩

end Image.Writer

end BootSlots
