import BootSlots.Proofs.Board.Calls
import BootSlots.Proofs.Update.PowerLoss

/-
  One session while other components use the same flash. The session keeps to the address that its slot had
  when it was started; the end selects the slot by its number, in the record that is stored by then. So the
  image is always found where it was written, but the selected slot need not lie there: who replaces the
  record in between may move the slot.

  Proved:
  * `selected_as_written`: what a successful end leaves, and when the selected slot is the written one.
  * `commit_after_save`: a session goes through although the record was replaced in between.
-/

namespace BootSlots

/-! ## Ends that succeed -/

/-- Operations above the record's sector do not bring a record about. -/
theorem Flash.loadRecord_of_performAll {f : Flash} {r : Record} {ops : List FlashOp} {start limit : Nat}
    (hops : ∀ op ∈ ops, op.Within start limit) (hstart : firstImageAddress ≤ start)
    (hload : (f.performAll ops).loadRecord = .ok r) : f.loadRecord = .ok r := by
  have hsector := slice_record_of_reaches (f.reaches_performAll hops) hstart
  obtain ⟨hread, -, -⟩ := stored_of_load hload
  refine loadRecord_of_slice_eq hload ?_ ?_ (capacity_performAll f ops).symm ?_
  · rw [Memory.slice_record, Memory.slice_record, hsector]
  · rw [cells_performAll, Memory.size_replay]
  · rwa [faults_performAll] at hread

/-- An end that succeeds has stored the whole stream, and then selected the slot in the stored record. -/
theorem Engine.Serves.finish_eq_ok {e : Engine} {s : Session} {d : List UInt8} {h : Handle}
    (hserves : e.Serves s d) (hok : (e.finish h).1 = .ok ()) :
    ∃ c, e.store.load = .ok c ∧ s.slot < c.count ∧
      (e.finish h).2.store.load = .ok (c.select s.slot) ∧
      (e.finish h).2.store.flash.cells.HoldsImage s.start d := by
  obtain ⟨hrefused, -⟩ | ⟨s', hlive, hphase⟩ := e.finish_cases h
  · cases hrefused.symm.trans hok
  obtain ⟨hres, phase, heq, -⟩ := finish_of_writing hlive hphase
  rw [hres] at hok
  rw [heq, release]
  obtain ⟨hcont, hfailed | hlive'⟩ := hserves s' (live?_eq_some_iff.mp hlive).1
  · cases hphase.symm.trans hfailed
  obtain ⟨image, himage, -, ⟨⟨_, hfault⟩, -⟩ | ⟨hslice, hhead, store, hstore, hflash, hcommit⟩⟩ :=
    hlive'.conclude
  · cases hfault.symm.trans hok
  -- the commit loads the record anew
  obtain ⟨c, hload, hslot, hselected⟩ := Store.load_of_selectSlot (hcommit.mp hok)
  rw [hcont.slot] at hslot hselected hflash
  refine ⟨c, ?_, hslot, ?_, ?_, hhead⟩
  · rw [Store.load, hstore] at hload
    exact Flash.loadRecord_of_performAll himage hlive'.image hload
  · rw [Store.load, hflash]
    exact hselected
  · rw [hflash, ← hcont.start,
      Flash.slice_image_of_reaches (store.reaches_selectSlot s.slot) hlive'.image, hstore,
      Flash.cells_performAll]
    exact hslice

namespace Board

variable {b : Board}

/-- The board after a start and the calls that came then, from whichever side. -/
def duringSession (b : Board) (slot : UInt8) (declared : Nat) (calls : List Call) : Board :=
  (b.next (.engine (.start slot declared))).after calls

/-- The board after the end of that session. -/
def afterSession (b : Board) (slot : UInt8) (declared : Nat) (calls : List Call) (h : Handle) : Board :=
  (b.duringSession slot declared calls).next (.engine (.finish h))

/-- What the engine answers to the end of that session. -/
def sessionResult (b : Board) (slot : UInt8) (declared : Nat) (calls : List Call) (h : Handle) :
    Except UpdateFault Unit :=
  ((b.duringSession slot declared calls).mountedEngine.finish h).1

/-- What that session takes in. -/
def sessionData (b : Board) (slot : UInt8) (declared : Nat) (calls : List Call) : List UInt8 :=
  (b.next (.engine (.start slot declared))).accepted calls

/-! ## The session while others call -/

theorem serves_next {s : Session} {d : List UInt8} (h : b.mountedEngine.Serves s d) {c : Call}
    (hc : b.opened? c = none) : (b.next c).mountedEngine.Serves s (d ++ b.taken c) := by
  obtain ⟨c, rfl⟩ | ⟨-, htaken, haside⟩ := b.next_cases c
  · exact (h.next_of_not_opens (Engine.not_opens hc)).1
  · rw [htaken, List.append_nil]
    exact haside.serves h

/-- Until another session is opened, the session has failed or has taken in all accepted data. -/
theorem serves_after {s : Session} {d : List UInt8} (h : b.mountedEngine.Serves s d)
    {calls : List Call} (hsolo : b.started calls = []) :
    (b.after calls).mountedEngine.Serves s (d ++ b.accepted calls) := by
  induction calls generalizing b d with
  | nil =>
    rw [after_nil, accepted, List.append_nil]
    exact h
  | cons c calls ih =>
    obtain ⟨hfirst, hrest⟩ := List.append_eq_nil_iff.mp hsolo
    rw [after_cons, accepted, ← List.append_assoc]
    exact ih (serves_next h (Option.toList_eq_nil_iff.mp hfirst)) hrest

/-! ## A record that is replaced in between -/

/-- Without faults a session goes through, although its record is replaced by one that has its slot. -/
theorem finish_after_save {s : Session} {d : List UInt8} {h : Handle} {c : Record}
    (hlive : b.mountedEngine.Live s d) (hid : s.id = h.id) (hhead : d.head? = some Image.magic)
    (hfree : b.flash.Unhindered (s.start + d.length)) (hread : b.flash.faults.read = false)
    (hm : c.magic = recordMagic) (hv : c.version = recordVersion)
    (hvalid : c.validate b.flash.capacity = .ok ()) (hslot : s.slot < c.count) :
    ((b.next (.saveRecord c)).mountedEngine.finish h).1 = .ok () ∧
      ((b.next (.saveRecord c)).mountedEngine.finish h).2.store.flash.cells.HoldsImage s.start d ∧
      ((b.next (.saveRecord c)).mountedEngine.finish h).2.store.load = .ok (c.select s.slot) := by
  have hne : d ≠ [] := List.ne_nil_of_mem (List.mem_of_head? hhead)
  have hsize : firstImageAddress ≤ b.flash.cells.size :=
    Nat.le_trans hlive.image (Nat.le_trans (Nat.le_add_right _ _) hfree.fits)
  have hsave : (b.next (.saveRecord c)).flash = b.flash.performAll c.saveOps :=
    congrArg Prod.snd (Flash.saveRecord_eq_ok hvalid hsize hfree.erase hfree.program)
  -- the session does not notice, and its end finds the new record
  have hlive' : (b.next (.saveRecord c)).mountedEngine.Live s d :=
    hlive.congr rfl rfl fun x hx => (Flash.saves_saveRecord _ c).getElem?_cells hx
  have hfree' : (b.next (.saveRecord c)).flash.Unhindered (s.start + d.length) := by
    rw [hsave]
    exact hfree.performAll _
  have hload : (b.next (.saveRecord c)).flash.loadRecord = .ok c := by
    rw [hsave]
    exact Flash.loadRecord_performAll_saveOps hm hv hvalid hsize hread
  obtain ⟨-, himage, ⟨hok, -, -, hselected⟩ | ⟨-, hother, -⟩⟩ :=
    hlive'.finish_of_free hid hne hfree' hload hslot
  · exact ⟨hok, ⟨himage, hhead⟩, hselected⟩
  · exact absurd hhead hother

/-- An image is written through the session `h`, and then another component saves a record. -/
def replacingCalls (h : Handle) (image : List UInt8) (c : Record) : List Call :=
  [.engine (.write h image), .saveRecord c]

/-- A whole session around the save of a record: its slot is selected in that record. -/
theorem commit_after_save {r c : Record} {slot : UInt8} {a : Nat} {image : List UInt8}
    (hload : b.mountedEngine.store.load = .ok r) (ha : r.address? slot = some a)
    (hidle : b.engine.active = none) (harena : b.mountedEngine.arenaUsable = true)
    (hfaults : b.flash.faults = {}) (himage : image.head? = some Image.magic)
    (hlimit : a + image.length ≤ r.limitOf b.flash.capacity a)
    (hsize : a + image.length ≤ b.flash.cells.size) (hm : c.magic = recordMagic)
    (hv : c.version = recordVersion) (hvalid : c.validate b.flash.capacity = .ok ())
    (hslot : slot < c.count) :
    (b.mountedEngine.start slot 0).1 = .ok ⟨b.engine.nextId⟩ ∧
      b.sessionResult slot 0 (replacingCalls ⟨b.engine.nextId⟩ image c) ⟨b.engine.nextId⟩ = .ok () ∧
      (b.afterSession slot 0 (replacingCalls ⟨b.engine.nextId⟩ image c)
        ⟨b.engine.nextId⟩).flash.cells.HoldsImage a image ∧
      (b.afterSession slot 0 (replacingCalls ⟨b.engine.nextId⟩ image c)
        ⟨b.engine.nextId⟩).flash.loadRecord = .ok (c.select slot) := by
  have hne : image ≠ [] := List.ne_nil_of_mem (List.mem_of_head? himage)
  have hfree : b.flash.Unhindered (a + image.length) := ⟨by rw [hfaults], by rw [hfaults], hsize⟩
  obtain ⟨hstart, -, s, ops, hcont, hlive', hflash, -⟩ :=
    Engine.write_first_of_start hload hidle harena ha hne hlimit hfree
  have hwritten : (b.duringSession slot 0 [.engine (.write ⟨b.engine.nextId⟩ image)]).flash =
      b.flash.performAll ops := hflash
  have hlive'' : (b.duringSession slot 0
      [.engine (.write ⟨b.engine.nextId⟩ image)]).mountedEngine.Live s image := hlive'
  obtain ⟨hok, hstored, hselected⟩ := finish_after_save hlive'' hcont.id himage
    (by rw [hwritten, hcont.start]; exact hfree.performAll ops)
    (by rw [hwritten, Flash.faults_performAll, hfaults]) hm hv
    (by rw [hwritten, Flash.capacity_performAll]; exact hvalid) (by rw [hcont.slot]; exact hslot)
  rw [hcont.start] at hstored
  rw [hcont.slot] at hselected
  exact ⟨hstart, hok, hstored, hselected⟩

/-- On the factory board, another record is saved while a one-byte image is brought to the second slot. -/
theorem commit_after_save_factory {c : Record} (hm : c.magic = recordMagic) (hv : c.version = recordVersion)
    (hvalid : c.validate Engine.provisionedSize = .ok ()) (hslot : 1 < c.count) :
    (factoryBoard.mountedEngine.start 1 0).1 = .ok ⟨1⟩ ∧
      factoryBoard.sessionResult 1 0 (replacingCalls ⟨1⟩ [Image.magic] c) ⟨1⟩ = .ok () ∧
      (factoryBoard.afterSession 1 0 (replacingCalls ⟨1⟩ [Image.magic] c) ⟨1⟩).flash.cells.HoldsImage
        (10 * sectorSize) [Image.magic] ∧
      (factoryBoard.afterSession 1 0 (replacingCalls ⟨1⟩ [Image.magic] c) ⟨1⟩).flash.loadRecord =
        .ok (c.select 1) := by
  have hsecond : (Record.factory Engine.provisionedSize).address? 1 = some (10 * sectorSize) := by decide
  have hhead : [Image.magic].head? = some Image.magic := rfl
  have hsession := commit_after_save load_factoryBoard hsecond active_factoryBoard
    arenaUsable_factoryBoard faults_factoryBoard hhead (by rw [capacity_factoryBoard]; decide)
    (by rw [size_factoryBoard]; decide) hm hv (by rw [capacity_factoryBoard]; exact hvalid) hslot
  rw [nextId_factoryBoard] at hsession
  exact hsession

/-! ## What is selected in the end -/

/-- A successful end selects the slot in the record of that time, and its image lies where the slot was. -/
theorem selected_as_written {slot : UInt8} {declared : Nat} {calls : List Call} {h : Handle}
    (hstart : (b.mountedEngine.start slot declared).1 = .ok h)
    (hsolo : (b.next (.engine (.start slot declared))).started calls = [])
    (hok : b.sessionResult slot declared calls h = .ok ()) :
    ∃ r a c ops, b.flash.loadRecord = .ok r ∧ r.address? slot = some a ∧
      (b.duringSession slot declared calls).flash.loadRecord = .ok c ∧ slot < c.count ∧
      (b.afterSession slot declared calls h).flash.loadRecord = .ok (c.select slot) ∧
      (b.afterSession slot declared calls h).flash.cells.HoldsImage a
        (b.sessionData slot declared calls) ∧
      b.flash.After ops (b.duringSession slot declared calls).flash ∧
      ((∀ c' : Record, .program recordAddress c'.encode ∈ ops → c'.address? slot = some a) →
        (c.select slot).address? slot = some a) := by
  obtain ⟨r, hload⟩ := Engine.load_of_start hstart
  obtain ⟨a, ha, -, hflash, hlive⟩ := Engine.live_of_start hload hstart
  have hserves : (b.next (.engine (.start slot declared))).mountedEngine.Serves _ [] := hlive.serves
  obtain ⟨c, hload', hslot, hselected, himage⟩ := (serves_after hserves hsolo).finish_eq_ok hok
  -- the record at the end is the one from the start, or it was saved in between
  obtain ⟨ops, hafter, horderly, -⟩ := run_ops hserves.follows calls
  have hafter' : b.flash.After ops (b.duringSession slot declared calls).flash := by
    rw [← show (b.next (.engine (.start slot declared))).flash = b.flash from hflash]
    exact hafter
  refine ⟨r, a, c, ops, hload, ha, hload', hslot, hselected, himage, hafter', fun hkept => ?_⟩
  show c.address? slot = some a
  obtain rfl | hsaved := Flash.loadRecord_origin hafter' horderly hload hload'
  · exact ha
  · exact hkept c hsaved

/-- The factory record is saved once more in between, and the written slot is selected. -/
theorem selected_as_written_factory :
    (factoryBoard.mountedEngine.start 1 0).1 = .ok ⟨1⟩ ∧
      (factoryBoard.next (.engine (.start 1 0))).started
        (replacingCalls ⟨1⟩ [Image.magic] (.factory Engine.provisionedSize)) = [] ∧
      factoryBoard.sessionResult 1 0
        (replacingCalls ⟨1⟩ [Image.magic] (.factory Engine.provisionedSize)) ⟨1⟩ = .ok () ∧
      ∃ c : Record,
        (factoryBoard.afterSession 1 0
          (replacingCalls ⟨1⟩ [Image.magic] (.factory Engine.provisionedSize)) ⟨1⟩).flash.loadRecord =
            .ok (c.select 1) ∧
        (factoryBoard.afterSession 1 0
          (replacingCalls ⟨1⟩ [Image.magic] (.factory Engine.provisionedSize)) ⟨1⟩).flash.cells.HoldsImage
            (10 * sectorSize) (factoryBoard.sessionData 1 0
              (replacingCalls ⟨1⟩ [Image.magic] (.factory Engine.provisionedSize))) := by
  have hvalid := (Record.validate_eq_ok_iff (.factory Engine.provisionedSize) Engine.provisionedSize).mpr
    (by decide)
  have hsecond : (Record.factory Engine.provisionedSize).address? 1 = some (10 * sectorSize) := by decide
  obtain ⟨hstart, hok, -, -⟩ := commit_after_save_factory rfl rfl hvalid (by decide)
  obtain ⟨r, a, c, -, hload, ha, -, -, hselected, himage, -⟩ := selected_as_written hstart rfl hok
  obtain rfl := Except.ok.inj (hload.symm.trans load_factoryBoard)
  obtain rfl := Option.some.inj (ha.symm.trans hsecond)
  exact ⟨hstart, rfl, hok, c, hselected, himage⟩

/-- Where the slot was moved in between, the selected slot is not the one that was written. -/
theorem selected_elsewhere :
    (factoryBoard.mountedEngine.start 1 0).1 = .ok ⟨1⟩ ∧
      (factoryBoard.next (.engine (.start 1 0))).started
        (replacingCalls ⟨1⟩ [Image.magic] Engine.movedRecord) = [] ∧
      factoryBoard.sessionResult 1 0 (replacingCalls ⟨1⟩ [Image.magic] Engine.movedRecord) ⟨1⟩ = .ok () ∧
      (factoryBoard.afterSession 1 0
        (replacingCalls ⟨1⟩ [Image.magic] Engine.movedRecord) ⟨1⟩).flash.cells.HoldsImage
          (10 * sectorSize) [Image.magic] ∧
      ∃ c, (factoryBoard.afterSession 1 0
          (replacingCalls ⟨1⟩ [Image.magic] Engine.movedRecord) ⟨1⟩).flash.loadRecord = .ok c ∧
        c.current = 1 ∧ c.address? 1 = some (4 * sectorSize) := by
  have hvalid := (Record.validate_eq_ok_iff Engine.movedRecord Engine.provisionedSize).mpr (by decide)
  obtain ⟨hstart, hok, himage, hload⟩ := commit_after_save_factory rfl rfl hvalid (by decide)
  exact ⟨hstart, rfl, hok, himage, _, hload, rfl, by decide⟩

end Board

end BootSlots
