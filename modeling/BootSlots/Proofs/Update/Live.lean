import BootSlots.Proofs.Image.Stream
import BootSlots.Proofs.Record.Regions
import BootSlots.Proofs.Update.Calls

/-
  The live session. While it has not failed, it has taken in a stream that lies within its slot's region,
  partly programmed and partly in the arena; `Live` says which. A write that is not refused makes the stream
  longer or fails the session, an end flushes, checks and commits it.

  Proved:
  * `live_of_start`, `Live.take`: the invariant at the start, and after a write.
  * `Live.congr`: it hangs on the session, the arena and the cells above the record only.
  * `Live.conclude`: the operations of an end. The record's sector comes last, and only once the whole
    stream is programmed and starts with the magic byte.
  * `Live.conclude_of_free`, `Live.finish_of_free`: what an end comes to on a flash without faults.
-/

namespace BootSlots

/-- `s'` is the session `s` at a later time. -/
structure Session.Continues (s s' : Session) : Prop where
  id : s'.id = s.id
  slot : s'.slot = s.slot
  start : s'.start = s.start
  limit : s'.limit = s.limit
  declared : s'.declared = s.declared

theorem Session.Continues.refl (s : Session) : s.Continues s :=
  ⟨rfl, rfl, rfl, rfl, rfl⟩

theorem Session.Continues.trans {s s' s'' : Session} (h : s.Continues s') (h' : s'.Continues s'') :
    s.Continues s'' where
  id := h'.id.trans h.id
  slot := h'.slot.trans h.slot
  start := h'.start.trans h.start
  limit := h'.limit.trans h.limit
  declared := h'.declared.trans h.declared

namespace Engine

/-- The session `s` is live, has taken in the stream `d` and takes in more. -/
structure Live (e : Engine) (s : Session) (d : List UInt8) : Prop where
  active : e.active = some s
  stream : (e.writer s).Stream d
  tight : (e.writer s).Tight
  room : s.cursor.pending < e.arena.size
  accepted : s.accepted = d.length
  phase : s.phase = if d = [] then .started else .writing
  image : firstImageAddress ≤ s.start
  fits : s.start + d.length ≤ s.limit

variable {e e' : Engine} {s : Session} {d : List UInt8}

theorem Live.congr (h : e.Live s d) (hactive : e'.active = e.active) (harena : e'.arena = e.arena)
    (hcells : ∀ x, firstImageAddress ≤ x → e'.store.flash.cells[x]? = e.store.flash.cells[x]?) :
    e'.Live s d := by
  have hwriter : e'.writer s = { e.writer s with flash := e'.store.flash } := by
    rw [writer, harena]
    rfl
  refine ⟨hactive.trans h.active, ?_, ?_, ?_, h.accepted, h.phase, h.image, h.fits⟩
  · rw [hwriter]
    exact h.stream.congr_flash fun x hx => hcells x (Nat.le_trans h.image hx)
  · rw [hwriter]
    exact h.tight
  · rw [harena]
    exact h.room

theorem Live.of_quiet (h : e.Live s d) (hq : e'.quiet = e.quiet) : e'.Live s d :=
  h.congr (active_of_quiet_eq hq) (arena_of_quiet_eq hq) fun x _ => by rw [flash_of_quiet_eq hq]

theorem Live.takesData (h : e.Live s d) : s.phase.takesData = true := by
  rw [h.phase]
  split <;> rfl

/-- A start that is not refused opens a live session with an empty stream. -/
theorem live_of_start {r : Record} {slot : UInt8} {declared : Nat} {h : Handle}
    (hload : e.store.load = .ok r) (hstart : (e.start slot declared).1 = .ok h) :
    ∃ a, r.address? slot = some a ∧ h = ⟨e.nextId⟩ ∧
      (e.start slot declared).2.store.flash = e.store.flash ∧
      (e.start slot declared).2.Live
        (e.opened slot declared a (r.limitOf e.store.flash.capacity a)) [] := by
  obtain ⟨⟨fault, hfault⟩, -⟩ | ⟨a, l, hregion, -, harena, hok, hq⟩ := e.start_cases slot declared
  · exact nomatch hfault.symm.trans hstart
  · rw [Store.region?, hload] at hregion
    obtain ⟨ha, rfl⟩ := Record.region?_eq_some_iff.mp hregion
    have hlayout := Flash.layoutOk_of_load hload
    obtain ⟨hmod, himage, hlt⟩ := Record.startable_of_address hlayout ha
    have hroom : 0 < e.arena.size := by
      simp only [arenaUsable, Bool.and_eq_true, decide_eq_true_eq] at harena
      omega
    refine ⟨a, ha, (Except.ok.inj (hok.symm.trans hstart)).symm, (flash_of_quiet_eq hq).trans rfl, ?_⟩
    refine Live.of_quiet ?_ hq
    refine ⟨rfl, .start hmod _ _, ?_, hroom, rfl, rfl, himage, ?_⟩
    · exact Nat.lt_add_of_pos_right (by decide)
    · exact Nat.le_of_lt (Record.lt_limitOf hlt)

/-- Data that fit are taken in, or the session fails; without faults they are taken in. -/
theorem Live.take (h : e.Live s d) {data : List UInt8} (hdata : data ≠ [])
    (hfits : s.start + (s.accepted + data.length) ≤ s.limit) :
    ∃ s' ops, s.Continues s' ∧ (e.take s data (s.accepted + data.length)).2.active = some s' ∧
      (e.take s data (s.accepted + data.length)).2.store.flash = e.store.flash.performAll ops ∧
      (∀ op ∈ ops, op.Within s.start s.limit) ∧
      ((e.take s data (s.accepted + data.length)).1 = .ok () ∧
          (e.take s data (s.accepted + data.length)).2.Live s' (d ++ data) ∨
        (∃ fault, (e.take s data (s.accepted + data.length)).1 = .error fault) ∧
          s'.phase = .failed) ∧
      (e.store.flash.Unhindered (s.start + (s.accepted + data.length)) →
        (e.take s data (s.accepted + data.length)).1 = .ok ()) := by
  have hend : s.start + (s.accepted + data.length) = s.start + d.length + data.length := by
    rw [h.accepted, Nat.add_assoc]
  have hfits' : s.start + d.length + data.length ≤ s.limit := hend ▸ hfits
  obtain ⟨p, rest, hsplit, hstream, hleads, hok, hfree⟩ :=
    h.stream.push (Nat.lt_of_le_of_lt (Nat.zero_le _) h.room) data
  obtain ⟨ops, hflash, hops⟩ := hleads.flash
  have hwithin : ∀ op ∈ ops, op.Within s.start s.limit := fun op hop => (hops op hop).mono hfits'
  rw [hend]
  unfold Engine.take
  split
  · rename_i w hpush
    rw [hpush] at hstream hleads hok hflash
    have hbase : w.cursor.base = s.start := hleads.base
    obtain ⟨rfl, hroom, htight⟩ := hok rfl
    rw [List.append_nil] at hsplit
    subst hsplit
    refine ⟨{ s with accepted := _, cursor := w.cursor, phase := .writing }, ops,
      ⟨rfl, rfl, hleads.base, rfl, rfl⟩, rfl, hflash, hwithin, .inl ⟨rfl, ?_⟩, fun _ => rfl⟩
    refine ⟨rfl, hstream, htight h.tight, hleads.room ▸ hroom h.room, ?_, ?_, ?_, ?_⟩
    · rw [List.length_append, h.accepted]
    · rw [if_neg (fun hnil => hdata (List.append_eq_nil_iff.mp hnil).2)]
    · show firstImageAddress ≤ w.cursor.base
      rw [hbase]
      exact h.image
    · show w.cursor.base + (d ++ data).length ≤ s.limit
      rw [hbase, List.length_append, ← Nat.add_assoc]
      exact hfits'
  · rename_i fault w hpush
    rw [hpush] at hleads hflash hfree
    refine ⟨{ s with cursor := w.cursor, phase := .failed }, ops, ⟨rfl, rfl, hleads.base, rfl, rfl⟩,
      rfl, hflash, hwithin, .inr ⟨⟨_, rfl⟩, rfl⟩, fun hu => nomatch hfree hu⟩

/-- Without faults, a write that fits is taken in. -/
theorem Live.write_eq_ok (h : e.Live s d) (handle : Handle) {data : List UInt8} (hid : s.id = handle.id)
    (hdata : data ≠ []) (hspace : s.accepted + data.length < addressSpace)
    (hdeclared : ¬ (e.settings.enforceDeclaredSize = true ∧ 0 < s.declared ∧
      s.declared < s.accepted + data.length))
    (hlimit : s.start + (s.accepted + data.length) ≤ s.limit)
    (hfree : e.store.flash.Unhindered (s.start + (s.accepted + data.length))) :
    (e.write handle data).1 = .ok () ∧ ∃ s' ops, s.Continues s' ∧
      (e.write handle data).2.Live s' (d ++ data) ∧
      (e.write handle data).2.store.flash = e.store.flash.performAll ops ∧
      ∀ op ∈ ops, op.Within s.start s.limit := by
  have hlive := live?_eq_some_iff.mpr ⟨h.active, hid⟩
  rw [write_eq_take hlive h.takesData hdata hspace hdeclared hlimit]
  obtain ⟨s', ops, hcont, -, hflash, hops, ⟨hok, hlive'⟩ | ⟨⟨fault, hfault⟩, -⟩, hres⟩ :=
    h.take hdata hlimit
  · exact ⟨hok, s', ops, hcont, hlive', hflash, hops⟩
  · exact nomatch hfault.symm.trans (hres hfree)

/-- The first write of a session without a declared size is taken in where it fits. -/
theorem Live.write_first (h : e.Live s []) (handle : Handle) {data : List UInt8} (hid : s.id = handle.id)
    (hdata : data ≠ []) (hdeclared : s.declared = 0) (hlimit : s.start + data.length ≤ s.limit)
    (hfree : e.store.flash.Unhindered (s.start + data.length)) :
    (e.write handle data).1 = .ok () ∧ ∃ s' ops, s.Continues s' ∧
      (e.write handle data).2.Live s' data ∧
      (e.write handle data).2.store.flash = e.store.flash.performAll ops ∧
      ∀ op ∈ ops, op.Within s.start s.limit := by
  have htotal : s.accepted + data.length = data.length := by
    rw [h.accepted, List.length_nil, Nat.zero_add]
  refine h.write_eq_ok handle hid hdata ?_ ?_ ?_ ?_
  · have := hfree.fits
    have := e.store.flash.size_lt
    omega
  · rw [hdeclared]
    exact fun hover => absurd hover.2.1 (Nat.lt_irrefl 0)
  · rw [htotal]
    exact hlimit
  · rw [htotal]
    exact hfree

/-- Without faults, an idle engine takes in an image that fits its slot by the first write after the start. -/
theorem write_first_of_start {r : Record} {slot : UInt8} {a : Nat} {image : List UInt8}
    (hload : e.store.load = .ok r) (hidle : e.active = none) (harena : e.arenaUsable = true)
    (ha : r.address? slot = some a) (himage : image ≠ [])
    (hlimit : a + image.length ≤ r.limitOf e.store.flash.capacity a)
    (hfree : e.store.flash.Unhindered (a + image.length)) :
    (e.start slot 0).1 = .ok ⟨e.nextId⟩ ∧
      ((e.start slot 0).2.write ⟨e.nextId⟩ image).1 = .ok () ∧
      ∃ s ops, (e.opened slot 0 a (r.limitOf e.store.flash.capacity a)).Continues s ∧
        ((e.start slot 0).2.write ⟨e.nextId⟩ image).2.Live s image ∧
        ((e.start slot 0).2.write ⟨e.nextId⟩ image).2.store.flash = e.store.flash.performAll ops ∧
        ∀ op ∈ ops, op.Within a (r.limitOf e.store.flash.capacity a) := by
  have hstart := start_eq_ok hload ha hidle harena 0
  obtain ⟨a', ha', -, hflash, hlive⟩ := live_of_start hload hstart
  obtain rfl := Option.some.inj (ha.symm.trans ha')
  rw [← hflash] at hfree
  obtain ⟨hok, s, ops, hcont, hlive', hflash', hops⟩ :=
    hlive.write_first ⟨e.nextId⟩ rfl himage rfl hlimit hfree
  rw [hflash] at hflash'
  exact ⟨hstart, hok, s, ops, hcont, hlive', hflash', hops⟩

/-- An end either leaves the record alone, or has programmed a stream that starts with the magic byte. -/
theorem Live.conclude (h : e.Live s d) :
    ∃ image, (∀ op ∈ image, op.Within s.start s.limit) ∧
      (e.store.flash.Unhindered (s.start + d.length) →
        (e.store.flash.cells.replay image).slice s.start d.length = d) ∧
      ((∃ fault, (e.conclude s).1 = .error fault) ∧
          (e.conclude s).2.store.flash = e.store.flash.performAll image ∧
          (e.store.flash.Unhindered (s.start + d.length) → e.store.flash.faults.read = false →
            (e.conclude s).1 = .error .verifyFailed ∧ d.head? ≠ some Image.magic) ∨
        (e.store.flash.cells.replay image).slice s.start d.length = d ∧
          d.head? = some Image.magic ∧
          ∃ store : Store, store.flash = e.store.flash.performAll image ∧
            (e.conclude s).2.store.flash = (store.selectSlot s.slot).2.flash ∧
            ((e.conclude s).1 = .ok () ↔ (store.selectSlot s.slot).1 = .ok ())) := by
  obtain ⟨hstream, hleads, hok, hfree⟩ := h.stream.flush
  have hbase : (e.writer s).flush.2.cursor.base = s.start := hleads.base
  obtain ⟨image, hflash, hops⟩ := hleads.flash
  have hcells : (e.writer s).flush.2.flash.cells = e.store.flash.cells.replay image :=
    (congrArg Flash.cells hflash).trans (Flash.cells_performAll _ _)
  have hslice : (e.writer s).flush.1 = .ok () →
      (e.store.flash.cells.replay image).slice s.start d.length = d := by
    intro hflush
    have hslice := hstream.slice_flushed
    rw [hcells, hbase, (hok hflush).2.1, List.take_length] at hslice
    exact hslice
  refine ⟨image, fun op hop => (hops op hop).mono h.fits, fun hu => hslice (hfree hu), ?_⟩
  obtain ⟨fault, hflush, hres, hq⟩ | ⟨hflush, ⟨fault, hcheck⟩, hres, hq⟩ |
    ⟨hflush, hcheck, hres, hq⟩ := e.conclude_cases s
  · -- the flush failed, so the flash had a fault
    refine .inl ⟨⟨_, hres⟩, (flash_of_quiet_eq hq).trans hflash, fun hu _ => ?_⟩
    exact nomatch hflush.symm.trans (hfree hu)
  · obtain ⟨-, hall, -⟩ := hok hflush
    refine .inl ⟨⟨_, hres⟩, (flash_of_quiet_eq hq).trans hflash, fun hu hread => ⟨hres, ?_⟩⟩
    intro hhead
    have hsize := congrArg Array.size hcells
    rw [Memory.size_replay] at hsize
    obtain ⟨header, hheader⟩ := hstream.check_of_head? hall
      (by rw [hflash, Flash.faults_performAll]; exact hread) (by rw [hsize, hbase]; exact hu.fits) hhead
    rw [hbase] at hheader
    exact nomatch hcheck.symm.trans hheader
  · obtain ⟨-, hall, -⟩ := hok hflush
    refine .inr ⟨hslice hflush, hstream.head?_of_check hall (hbase.symm ▸ hcheck), _, hflash,
      flash_of_quiet_eq hq, ?_⟩
    rw [hres]
    cases ((e.withWriter (e.writer s).flush.2).store.selectSlot s.slot).1 with
    | ok u => exact ⟨fun _ => rfl, fun _ => rfl⟩
    | error fault => exact ⟨nofun, nofun⟩

/-- Without faults the whole stream is stored at the end, and its first byte decides the rest. -/
theorem Live.conclude_of_free (h : e.Live s d) {r : Record}
    (hfree : e.store.flash.Unhindered (s.start + d.length)) (hload : e.store.load = .ok r)
    (hslot : s.slot < r.count) :
    (e.conclude s).2.store.flash.cells.slice s.start d.length = d ∧
      ((e.conclude s).1 = .ok () ∧ d.head? = some Image.magic ∧
          (e.conclude s).2.store.load = .ok (r.select s.slot) ∨
        (e.conclude s).1 = .error .verifyFailed ∧ d.head? ≠ some Image.magic ∧
          (e.conclude s).2.store.flash.cells.slice recordAddress sectorSize =
            e.store.flash.cells.slice recordAddress sectorSize) := by
  have hread := (Flash.stored_of_load hload).1
  obtain ⟨image, himage, hslice, hend⟩ := h.conclude
  have hreach := e.store.flash.reaches_performAll himage
  have hwhole := hslice hfree
  rw [← Flash.cells_performAll] at hwhole
  rcases hend with ⟨-, hflash, hfail⟩ | ⟨-, hhead, store, hstore, hflash, hok⟩
  · obtain ⟨hverify, hhead⟩ := hfail hfree hread
    rw [hflash]
    exact ⟨hwhole, .inr ⟨hverify, hhead, Flash.slice_record_of_reaches hreach h.image⟩⟩
  · -- the record is still the one from before, so its slot can be selected
    have hfaults : store.flash.faults = e.store.flash.faults := by
      rw [hstore, Flash.faults_performAll]
    have hload' : store.load = .ok r := by
      rw [← hstore] at hreach
      exact Flash.loadRecord_of_reaches hreach h.image hload (by rw [hfaults, hread])
    obtain ⟨hselect, hselected⟩ := Store.selectSlot_eq_ok hload' hslot
      (by rw [hfaults, hfree.erase]) (by rw [hfaults, hfree.program])
    refine ⟨?_, .inl ⟨hok.mpr hselect, hhead, ?_⟩⟩
    · rw [hflash, Flash.slice_image_of_reaches (store.reaches_selectSlot s.slot) h.image, hstore]
      exact hwhole
    · rw [← hselected, Store.load, Store.load, ← hflash]

theorem Live.finish_of_free (h : e.Live s d) {handle : Handle} {r : Record} (hid : s.id = handle.id)
    (hd : d ≠ []) (hfree : e.store.flash.Unhindered (s.start + d.length))
    (hload : e.store.load = .ok r) (hslot : s.slot < r.count) :
    (e.finish handle).2.active = none ∧
      (e.finish handle).2.store.flash.cells.slice s.start d.length = d ∧
      ((e.finish handle).1 = .ok () ∧ d.head? = some Image.magic ∧
          (e.finish handle).2.last = some { s with phase := .complete } ∧
          (e.finish handle).2.store.load = .ok (r.select s.slot) ∨
        (e.finish handle).1 = .error .verifyFailed ∧ d.head? ≠ some Image.magic ∧
          (e.finish handle).2.last = some { s with phase := .failed } ∧
          (e.finish handle).2.store.flash.cells.slice recordAddress sectorSize =
            e.store.flash.cells.slice recordAddress sectorSize) := by
  have hphase : s.phase = .writing := by rw [h.phase, if_neg hd]
  have hlive := live?_eq_some_iff.mpr ⟨h.active, hid⟩
  obtain ⟨hres, phase, heq, hlast⟩ := finish_of_writing hlive hphase
  obtain ⟨hslice, hend⟩ := h.conclude_of_free hfree hload hslot
  rw [hres, heq]
  refine ⟨rfl, hslice, ?_⟩
  rcases hend with ⟨hok, hhead, hselected⟩ | ⟨hverify, hhead, hrecord⟩
  · obtain ⟨-, rfl⟩ | ⟨⟨fault, hfault⟩, -⟩ := hlast
    · exact .inl ⟨hok, hhead, rfl, hselected⟩
    · exact nomatch hfault.symm.trans hok
  · obtain ⟨hok, -⟩ | ⟨-, rfl⟩ := hlast
    · exact nomatch hok.symm.trans hverify
    · exact .inr ⟨hverify, hhead, rfl, hrecord⟩

end Engine

end BootSlots
