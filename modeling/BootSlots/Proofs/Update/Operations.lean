import BootSlots.Proofs.Image.Schedule
import BootSlots.Proofs.Update.Accounting

/-
  Which operations a session comes to, one by one. A session adds two things to those of its stream: its
  writes cut the stream where the caller likes, and an end that succeeds saves the record after the last
  sector. What was refused, asked or switched on the way leaves no trace.

  Proved:
  * `Planned.write`, `Planned.next_of_feeds`, `planned_run`: a session that has not failed has done what the
    list for its programmed bytes says.
  * `ops_of_conclude`: the end completes that list, and two operations on the record's sector follow.
  * `operations_exact`: all operations of a stream, and all operations of a session.

  Nothing is said of a session that has failed: it may have stopped in the middle of a fill, or of a sector.
-/

namespace BootSlots.Engine

variable {e e' : Engine} {s : Session} {d : List UInt8} {before : List FlashOp}

/-! ## The writer of a session -/

theorem writer_of_quiet (hq : e'.quiet = e.quiet) (s : Session) : e'.writer s = e.writer s := by
  rw [writer, writer, arena_of_quiet_eq hq, flash_of_quiet_eq hq]

/-- A write is refused, or it is a push of the live session's writer, which may fail. -/
theorem writer_of_write (e : Engine) (handle : Handle) (data : List UInt8) :
    (e.write handle data).1 = .error .invalidArgs ∧ (e.write handle data).2.quiet = e.quiet ∨
      ∃ s s', e.active = some s ∧ s.phase.takesData = true ∧
        (e.write handle data).2.active = some s' ∧
        (((e.writer s).push data).1 = .ok () ∧ (e.write handle data).1 = .ok () ∧
            (e.write handle data).2.writer s' = ((e.writer s).push data).2 ∨
          (∃ fault, (e.write handle data).1 = .error fault) ∧ s'.phase = .failed) := by
  obtain hrefused | ⟨s, hlive, htakes, -, -, -, -, htake⟩ := e.write_cases handle data
  · exact .inl hrefused
  · rw [htake]
    have hactive := (live?_eq_some_iff.mp hlive).1
    obtain ⟨hpush, hok, hq⟩ | ⟨⟨fault, -, hfault⟩, hq⟩ := e.take_cases s data (s.accepted + data.length)
    · refine .inr ⟨s, _, hactive, htakes, active_of_quiet_eq hq, .inl ⟨hpush, hok, ?_⟩⟩
      rw [writer_of_quiet hq]
      rfl
    · exact .inr ⟨s, _, hactive, htakes, active_of_quiet_eq hq, .inr ⟨⟨_, hfault⟩, rfl⟩⟩

/-! ## The list, up to the programmed bytes -/

/-- The live session, if any, has failed or has kept to the list of its stream. -/
def Planned (e : Engine) (before : List FlashOp) (d : List UInt8) : Prop :=
  ∀ s, e.active = some s → s.phase = .failed ∨ (e.writer s).Scheduled before d

theorem Planned.of_quiet (h : e.Planned before d) (hq : e'.quiet = e.quiet) : e'.Planned before d := by
  intro s hactive
  rw [writer_of_quiet hq]
  exact h s ((active_of_quiet_eq hq).symm.trans hactive)

/-- Faults that are switched leave the list as it is. -/
theorem Planned.setFaults (h : e.Planned before d) (faults : FlashFaults) :
    (e.setFaults faults).Planned before d := by
  intro s hactive
  obtain hfailed | hscheduled := h s hactive
  · exact .inl hfailed
  · refine .inr ⟨?_, hscheduled.tight, hscheduled.whole, hscheduled.room, hscheduled.sectors,
      hscheduled.ops⟩
    exact hscheduled.stream.congr_flash fun _ _ => rfl

/-- A call without data leaves the list as it was. -/
theorem Planned.of_taken_nil (h : e'.Planned before d) {c : Call} (htaken : e.taken c = []) :
    e'.Planned before (d ++ e.taken c) := by
  rw [htaken, List.append_nil]
  exact h

/-- A write keeps to the list, or fails the session. -/
theorem Planned.write (h : e.Planned before d) (handle : Handle) (data : List UInt8) :
    (e.write handle data).2.Planned before (d ++ e.taken (.write handle data)) := by
  obtain ⟨hres, hq⟩ | ⟨s, s', hactive, htakes, hactive', hend⟩ := e.writer_of_write handle data
  · rw [taken, hres, List.append_nil]
    exact h.of_quiet hq
  · intro s'' hactive''
    obtain rfl := Option.some.inj (hactive'.symm.trans hactive'')
    obtain ⟨hpush, hok, hwriter⟩ | ⟨-, hfailed⟩ := hend
    · obtain hfailed | hscheduled := h s hactive
      · rw [hfailed] at htakes
        cases htakes
      · rw [taken, hok, hwriter]
        exact .inr (hscheduled.push hpush)
    · exact .inl hfailed

theorem Planned.next_of_feeds (h : e.Planned before d) {c : Call} (hc : e.Feeds c) :
    (e.next c).Planned before (d ++ e.taken c) := by
  have hrefused (hr : e.Refuses c) : (e.next c).Planned before (d ++ e.taken c) :=
    (h.of_quiet (quiet_next_of_refuses hr)).of_taken_nil (taken_eq_nil_of_refuses hr)
  cases c with
  | write handle data => exact h.write handle data
  | status handle => exact h.of_taken_nil rfl
  | currentSlot => exact (h.of_quiet e.quiet_currentSlot).of_taken_nil rfl
  | setFaults faults => exact (h.setFaults faults).of_taken_nil rfl
  | start | finish | cancel | selectSlot => exact hrefused hc

/-- A session that is not ended keeps to its region and, while it has not failed, to its list. -/
theorem planned_run {calls : List Call} (h : e.Tracks s []) (hrun : Throughout Feeds e calls) :
    (e.after calls).Serves s (e.accepted calls) ∧
      (e.after calls).Planned e.store.flash.ops.toList (e.accepted calls) ∧
      e.store.flash.Reaches (·.Within s.start s.limit) (e.after calls).store.flash := by
  have hstart : e.Planned e.store.flash.ops.toList [] := by
    intro s' hactive
    obtain rfl := Option.some.inj (h.live.active.symm.trans hactive)
    refine .inr ⟨h.live.stream, h.live.tight, h.whole, Nat.lt_of_le_of_lt (Nat.zero_le _) h.live.room,
      h.arena, ?_⟩
    rw [List.take_nil, Image.streamOps_nil, List.append_nil]
    rfl
  have hstep : ∀ (e₁ : Engine) (d : List UInt8) (c : Call),
      e₁.Serves s d ∧ e₁.Planned e.store.flash.ops.toList d → e₁.Feeds c →
      ((e₁.next c).Serves s (d ++ e₁.taken c) ∧
          (e₁.next c).Planned e.store.flash.ops.toList (d ++ e₁.taken c)) ∧
        e₁.store.flash.Reaches (·.Within s.start s.limit) (e₁.next c).store.flash := by
    rintro e₁ d c ⟨hserves, hplanned⟩ hc
    obtain ⟨hserves', hreach⟩ := hserves.next_of_feeds hc
    exact ⟨⟨hserves', hplanned.next_of_feeds hc⟩, hreach⟩
  obtain ⟨⟨hserves, hplanned⟩, hreach⟩ := run_preserves hstep ⟨h.live.serves, hstart⟩ hrun
  exact ⟨hserves, hplanned, hreach⟩

/-! ## The end of a session -/

/-- An end that succeeds completes the list, and then saves the record that is loaded. -/
theorem ops_of_conclude (hlive : e.Live s d) (h : (e.writer s).Scheduled before d)
    (hok : (e.conclude s).1 = .ok ()) :
    ∃ f r, e.store.flash.Reaches (·.Within s.start s.limit) f ∧ f.loadRecord = .ok r ∧
      (e.conclude s).2.store.flash.ops.toList =
        before ++ Image.streamOps s.start d ++ (r.select s.slot).saveOps := by
  obtain ⟨_, -, hfault, -⟩ | ⟨-, -, hverify, -⟩ | ⟨hflush, -, hres, hq⟩ := e.conclude_cases s
  · cases hfault.symm.trans hok
  · cases hverify.symm.trans hok
  · obtain ⟨-, hleads, -⟩ := h.stream.flush
    obtain ⟨image, hflash, himage⟩ := hleads.flash
    have hstream := h.ops_flush hflush
    rw [flash_of_quiet_eq hq]
    generalize (e.writer s).flush.2 = w at hflash hstream hres
    obtain ⟨ops, hsaved, ⟨-, hne⟩ | ⟨r, n, hload, -, -, rfl, hwhole⟩⟩ :=
      (e.withWriter w).store.selectSlot_ops s.slot
    · rw [hok] at hres
      split at hres
      · rename_i hselect
        exact absurd hselect hne
      · cases hres
    · rw [hok] at hres
      split at hres
      · rename_i hselect
        obtain rfl := hwhole hselect
        refine ⟨w.flash, r, ?_, hload, ?_⟩
        · rw [hflash]
          exact Flash.reaches_performAll _ fun op hop => (himage op hop).mono hlive.fits
        · show ((e.withWriter w).store.selectSlot s.slot).2.flash.ops.toList = _
          rw [hsaved, Flash.toList_ops_performAll]
          exact congrArg (· ++ _) hstream
      · cases hres

/-- All operations of a session whose end succeeds: those of its stream, and those of the save. -/
theorem ops_of_session {slot : UInt8} {declared : Nat} {handle : Handle} {calls : List Call}
    (hstart : (e.start slot declared).1 = .ok handle)
    (hcalls : (e.start slot declared).2.Throughout Feeds calls)
    (hend : (e.runSession slot declared calls).1 = .ok ()) :
    ∃ r a, e.store.load = .ok r ∧ r.address? slot = some a ∧
      (e.runSession slot declared calls).2.store.flash.ops.toList =
        e.store.flash.ops.toList ++ Image.streamOps a (e.sessionData slot declared calls) ++
          (r.select slot).saveOps := by
  obtain ⟨r, hload⟩ := load_of_start hstart
  obtain ⟨a, ha, -, hflash, hopened⟩ := live_of_start hload hstart
  have hopens : e.opened? (.start slot declared) =
      some (e.opened slot declared a (r.limitOf e.store.flash.capacity a)) := by
    rw [opened?, hstart]
    exact hopened.active
  have htracks : (e.start slot declared).2.Tracks _ [] := tracks_of_opens hopens
  obtain ⟨hserves, hplanned, hreach⟩ := planned_run htracks hcalls
  rw [hflash] at hplanned hreach
  refine ⟨r, a, hload, ha, ?_⟩
  rw [runSession] at hend ⊢
  obtain ⟨hrefused, -⟩ | ⟨s, hlive, hphase⟩ :=
    ((e.start slot declared).2.after calls).finish_cases ⟨e.nextId⟩
  · cases hrefused.symm.trans hend
  · obtain ⟨hres, phase, heq, -⟩ := finish_of_writing hlive hphase
    have hactive := (live?_eq_some_iff.mp hlive).1
    have hwriting : s.phase ≠ .failed := by
      rw [hphase]
      decide
    obtain ⟨hcont, hserved⟩ := hserves s hactive
    obtain ⟨f, r', hreach', hload', hops⟩ := ops_of_conclude (hserved.resolve_left hwriting)
      ((hplanned s hactive).resolve_left hwriting) (hres.symm.trans hend)
    -- the session has not touched the record, so the one it finds at the end is the one from the start
    rw [hcont.start, hcont.limit] at hreach'
    have hsector := Flash.slice_record_of_reaches (hreach.trans hreach') hopened.image
    obtain rfl := Flash.record_unique hload hload' hsector
    rw [hcont.start, hcont.slot] at hops
    rw [heq]
    exact hops

/-- Without faults, a session of one write goes through if the image fits and starts with the magic byte. -/
theorem runSession_of_write {r : Record} {slot : UInt8} {a : Nat} {image : List UInt8}
    (hload : e.store.load = .ok r) (hidle : e.active = none) (harena : e.arenaUsable = true)
    (hslot : slot < r.count) (ha : r.address? slot = some a) (hhead : image.head? = some Image.magic)
    (hlimit : a + image.length ≤ r.limitOf e.store.flash.capacity a)
    (hfree : e.store.flash.Unhindered (a + image.length)) :
    (e.runSession slot 0 [.write ⟨e.nextId⟩ image]).1 = .ok () ∧
      e.sessionData slot 0 [.write ⟨e.nextId⟩ image] = image := by
  have hne : image ≠ [] := List.ne_nil_of_mem (List.mem_of_head? hhead)
  obtain ⟨-, hwrite, s, ops, hcont, hwritten, hflash, hops⟩ :=
    write_first_of_start hload hidle harena ha hne hlimit hfree
  have himage := (Record.startable_of_address (Flash.layoutOk_of_load hload) ha).2.1
  have hload' := Flash.loadRecord_of_reaches (e.store.flash.reaches_performAll hops) himage hload
    (by rw [Flash.faults_performAll]; exact (Flash.stored_of_load hload).1)
  have hfree' := hfree.performAll ops
  rw [← hflash] at hload' hfree'
  refine ⟨?_, ?_⟩
  · obtain ⟨-, -, ⟨hok, -⟩ | ⟨-, hother, -⟩⟩ := hwritten.finish_of_free hcont.id hne
      (by rw [hcont.start]; exact hfree') hload' (by rw [hcont.slot]; exact hslot)
    · exact hok
    · exact absurd hhead hother
  · rw [sessionData, accepted, taken, hwrite]
    exact List.append_nil image

/-! ## Both -/

/-- A stream in any chunks over an arena of any number of sectors, on a flash without faults: each of its
sectors is erased and programmed once, in order, and nothing else is done. A session whose end succeeds does
this from its slot's address on and then saves the record, and nothing else; what writes it was cut into, and
the size of its arena, do not tell. -/
theorem operations_exact :
    (∀ (base : Nat) (arena : Memory) (flash : Flash) (chunks : List (List UInt8)),
      flash.faults = {} → base % sectorSize = 0 →
      base + chunks.flatten.length ≤ flash.cells.size →
      0 < arena.size → arena.size % sectorSize = 0 →
      ∃ w, Image.Writer.pushAll ⟨.start base, arena, flash⟩ chunks = (.ok (), w) ∧
        w.flush.1 = .ok () ∧
        w.flush.2.flash.ops.toList = flash.ops.toList ++ Image.streamOps base chunks.flatten) ∧
      (∀ (e : Engine) (slot : UInt8) (declared : Nat) (handle : Handle) (calls : List Call),
        (e.start slot declared).1 = .ok handle →
        (e.start slot declared).2.Throughout Feeds calls →
        (e.runSession slot declared calls).1 = .ok () →
        ∃ r a, e.store.load = .ok r ∧ r.address? slot = some a ∧
          (e.runSession slot declared calls).2.store.flash.ops.toList =
            e.store.flash.ops.toList ++ Image.streamOps a (e.sessionData slot declared calls) ++
              [.erase recordSector, .program recordAddress (r.select slot).encode] ∧
          (r.select slot).encode.length = recordSize) ∧
      ∀ (d : List UInt8) (i : Nat),
        (Image.sectorBytes d i).length = min sectorSize (d.length - sectorSize * i) := by
  refine ⟨fun base arena flash chunks hfaults hbase hfits hroom hsectors => ?_,
    fun e slot declared handle calls hstart hcalls hend => ?_, Image.length_sectorBytes⟩
  · obtain ⟨hpush, hflush, hops⟩ :=
      Image.Writer.ops_of_chunks hfaults hbase hfits hroom hsectors
    exact ⟨_, Prod.ext hpush rfl, hflush, hops⟩
  · obtain ⟨r, a, hload, ha, hops⟩ := ops_of_session hstart hcalls hend
    exact ⟨r, a, hload, ha, hops, Record.length_encode _⟩

/-- Three bytes in two chunks, and a one-byte image for the second slot of the factory layout. -/
theorem operations_exact_factory :
    (∃ w, Image.Writer.pushAll ⟨.start firstImageAddress, Array.replicate (2 * sectorSize) 0,
          provisionedFlash (.factory provisionedSize)⟩ [[1], [2, 3]] = (.ok (), w) ∧
        w.flush.2.flash.ops.toList = (provisionedFlash (.factory provisionedSize)).ops.toList ++
          [.erase 2, .program firstImageAddress [1, 2, 3]]) ∧
      ((provisioned (.factory provisionedSize)).start 1 0).1 = .ok ⟨1⟩ ∧
      ((provisioned (.factory provisionedSize)).runSession 1 0 [.write ⟨1⟩ [Image.magic]]).1 = .ok () ∧
      ((provisioned (.factory provisionedSize)).runSession 1 0
          [.write ⟨1⟩ [Image.magic]]).2.store.flash.ops.toList =
        (provisioned (.factory provisionedSize)).store.flash.ops.toList ++
          [.erase 10, .program (10 * sectorSize) [Image.magic]] ++
          [.erase 1, .program 0x1000 ((Record.factory provisionedSize).select 1).encode] := by
  have hload := load_provisioned_factory
  have hsecond : (Record.factory provisionedSize).address? 1 = some (10 * sectorSize) := by decide
  have hstart := start_eq_ok hload hsecond rfl (arenaUsable_provisioned _) 0
  have hfree : (provisioned (.factory provisionedSize)).store.flash.Unhindered
      (10 * sectorSize + [Image.magic].length) := by
    refine ⟨by rw [faults_provisioned], by rw [faults_provisioned], ?_⟩
    rw [size_provisioned]
    decide
  obtain ⟨hend, hdata⟩ := runSession_of_write hload rfl (arenaUsable_provisioned _) (by decide) hsecond rfl
    (by rw [capacity_provisioned]; decide) hfree
  rw [nextId_provisioned] at hstart hend hdata
  obtain ⟨hchunks, hsession, -⟩ := operations_exact
  refine ⟨?_, hstart, hend, ?_⟩
  · obtain ⟨w, hpush, -, hops⟩ := hchunks firstImageAddress (Array.replicate (2 * sectorSize) 0)
      (provisionedFlash (.factory provisionedSize)) [[1], [2, 3]] (faults_provisioned _) (by decide)
      (by rw [show (provisionedFlash _).cells.size = _ from size_provisioned _]; decide)
      (by rw [Array.size_replicate]; decide) (by rw [Array.size_replicate]; decide)
    exact ⟨w, hpush, hops⟩
  · obtain ⟨r, a, hr, ha, hops, -⟩ := hsession _ 1 0 ⟨1⟩ [.write ⟨1⟩ [Image.magic]] hstart
      ⟨trivial, trivial⟩ hend
    obtain rfl := Except.ok.inj (hload.symm.trans hr)
    obtain rfl := Option.some.inj (hsecond.symm.trans ha)
    rw [hdata] at hops
    exact hops

end BootSlots.Engine
