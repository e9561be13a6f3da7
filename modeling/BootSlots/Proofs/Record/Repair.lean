import BootSlots.Proofs.Record.Saving

/-
  Repairs of the stored record. A repair keeps the slot table where it breaks no rule, and then sets right
  the selection at most; otherwise the factory record takes its place. On a flash without faults it leaves
  a sound record whatever was stored, provided that such a table is stored or the factory record fits.

  Proved:
  * `validate_factory_eq_ok_iff`: where the factory record fits.
  * `validate_settled_iff`: when `settled`, the record that a repair is to leave, passes the check.
  * `isFactory_settled_iff`: when it is a factory record.
  * `ensureValid_eq_ok`: under any faults, what a repair that succeeds has left.
  * `ensureValid_of_free`, `ensureValid_of_not_valid`: when a repair succeeds without faults.
-/

namespace BootSlots

namespace Record

/-! ## Factory records -/

/-- The record is the factory's for some flash. -/
def IsFactory (r : Record) : Prop :=
  ∃ flashSize < addressSpace, r = factory flashSize

theorem isFactory_factory {flashSize : Nat} (h : flashSize < addressSpace) : (factory flashSize).IsFactory :=
  ⟨flashSize, h, rfl⟩

theorem IsFactory.current {r : Record} (h : r.IsFactory) : r.current = defaultSlot := by
  obtain ⟨flashSize, -, rfl⟩ := h
  rfl

theorem configured_factory {flashSize : Nat} (h : flashSize < addressSpace) :
    (factory flashSize).configured = [firstImageAddress, flashSize / 2 + firstImageAddress] := by
  have hsecond : flashSize / 2 + firstImageAddress < 2 ^ 32 := by
    simp only [addressSpace, firstImageAddress_eq] at *
    omega
  show [(UInt32.ofNat firstImageAddress).toNat,
    (UInt32.ofNat (flashSize / 2 + firstImageAddress)).toNat] = _
  rw [UInt32.toNat_ofNat_of_lt' hsecond]
  rfl

/-- The factory record for flash of one size fits on another where its second slot does. -/
theorem validate_factory_eq_ok_iff {flashSize capacity : Nat} (h : flashSize < addressSpace) :
    (factory flashSize).validate capacity = .ok () ↔
      flashSize / 2 % sectorSize = 0 ∧ flashSize / 2 + firstImageAddress < capacity := by
  rw [validate_eq_ok_iff, LayoutOk, configured_factory h]
  simp only [List.forall_mem_cons, Startable]
  constructor
  · rintro ⟨⟨-, -, -, ⟨hmod, -, hlt⟩, -⟩, -⟩
    simp only [sectorSize_eq, firstImageAddress_eq] at *
    exact ⟨by omega, hlt⟩
  · rintro ⟨hmod, hlt⟩
    have hcount : (factory flashSize).count = 2 := rfl
    have hcurrent : (factory flashSize).current = 0 := rfl
    rw [hcount, hcurrent]
    simp only [sectorSize_eq, firstImageAddress_eq] at *
    have hfirst : 0x2000 < capacity := by omega
    have hsecond : (flashSize / 2 + 0x2000) % 0x1000 = 0 := by omega
    have hafter : 0x2000 ≤ flashSize / 2 + 0x2000 := by omega
    exact ⟨⟨by decide, by decide, ⟨by decide, by decide, hfirst⟩, ⟨hsecond, hafter, hlt⟩, nofun⟩, by decide⟩

/-- Half of an even number of sectors is a number of sectors. -/
theorem validate_factory_iff {flashSize capacity : Nat} (h : flashSize < addressSpace)
    (hmod : flashSize % (2 * sectorSize) = 0) :
    (factory flashSize).validate capacity = .ok () ↔ flashSize / 2 + firstImageAddress < capacity := by
  have hhalf : flashSize / 2 % sectorSize = 0 := by
    simp only [sectorSize_eq] at *
    omega
  rw [validate_factory_eq_ok_iff h, and_iff_right hhalf]

/-! ## What a repair makes of a record -/

/-- The record with its own selection, where it has that slot, or else with the default slot. -/
def mend (r : Record) : Record :=
  if r.current < r.count then r else r.select defaultSlot

theorem mend_factory (flashSize : Nat) : (factory flashSize).mend = factory flashSize :=
  if_pos (show defaultSlot < 2 by decide)

theorem validate_of_not_layoutOk {r : Record} {flashSize : Nat} (h : ¬ r.LayoutOk flashSize) :
    r.validate flashSize = .error .invalidLayout :=
  if_pos h

theorem validate_of_layoutOk {r : Record} {flashSize : Nat} (h : r.LayoutOk flashSize)
    (hcurrent : ¬ r.current < r.count) : r.validate flashSize = .error .invalidSelection :=
  (if_neg (not_not_intro h)).trans (if_pos (UInt8.not_lt.mp hcurrent))

/-- A table that breaks no rule passes the check once its selection is mended. -/
theorem validate_mend {r : Record} {flashSize : Nat} (h : r.LayoutOk flashSize) :
    r.mend.validate flashSize = .ok () := by
  rw [mend]
  split
  · rename_i hcurrent
    exact (validate_eq_ok_iff r _).mpr ⟨h, hcurrent⟩
  · exact (validate_eq_ok_iff (r.select defaultSlot) _).mpr ⟨h, UInt8.pos_iff_ne_zero.mpr h.1⟩

theorem configured_mend (r : Record) : r.mend.configured = r.configured := by
  rw [mend]
  split
  · rfl
  · exact configured_select r defaultSlot

end Record

/-- Without a read fault, a record's place can be read where there is one. -/
theorem Flash.storedRecord_fault {f : Flash} {fault : RecordFault} (hread : f.faults.read = false)
    (hsize : firstImageAddress ≤ f.cells.size) (h : f.storedRecord = .error fault) : fault = .corrupted := by
  rw [storedRecord_eq_decode hread hsize] at h
  exact Record.decode_fault h

/-- Where reads fail, that is what is told of the record. -/
theorem Flash.read_of_storedRecord {f : Flash} (h : f.storedRecord ≠ .error .readFailed) :
    f.faults.read = false := by
  cases hread : f.faults.read with
  | false => rfl
  | true =>
    refine absurd ?_ h
    simp only [storedRecord, read, hread, if_true]

namespace Store

/-! ## The record that a repair leaves -/

/-- A record is stored whose slot table breaks no rule; its selection may be out of range. -/
def HasTable (s : Store) : Prop :=
  ∃ r, s.stored = .ok r ∧ r.LayoutOk s.flash.capacity

/-- The record that a repair for flash of that size leaves where nothing fails. -/
def settled (s : Store) (flashSize : Nat) : Record :=
  match s.stored with
  | .ok r => if r.LayoutOk s.flash.capacity then r.mend else .factory flashSize
  | .error _ => .factory flashSize

variable {s : Store} {flashSize : Nat} {r : Record}

theorem settled_of_stored (hstored : s.stored = .ok r) (h : r.LayoutOk s.flash.capacity) :
    s.settled flashSize = r.mend := by
  rw [settled, hstored]
  exact if_pos h

theorem settled_of_not_hasTable (h : ¬ s.HasTable) : s.settled flashSize = .factory flashSize := by
  cases hstored : s.stored with
  | error fault => rw [settled, hstored]
  | ok r =>
    rw [settled, hstored]
    exact if_neg fun hlayout => h ⟨r, hstored, hlayout⟩

theorem settled_of_load (h : s.load = .ok r) : s.settled flashSize = r := by
  obtain ⟨hstored, hvalid⟩ := Flash.loadRecord_eq_ok_iff.mp h
  obtain ⟨hlayout, hcurrent⟩ := (Record.validate_eq_ok_iff _ _).mp hvalid
  rw [settled_of_stored hstored hlayout, Record.mend, if_pos hcurrent]

/-- The record that a repair leaves can be read again. -/
theorem marks_settled (s : Store) (flashSize : Nat) :
    (s.settled flashSize).magic = recordMagic ∧ (s.settled flashSize).version = recordVersion := by
  by_cases htable : s.HasTable
  · obtain ⟨r, hstored, hlayout⟩ := htable
    have hmarks := Record.marks_of_decode (Flash.storedRecord_eq_ok_iff.mp hstored).2.2
    rw [settled_of_stored hstored hlayout, Record.mend]
    split
    · exact hmarks
    · exact hmarks
  · rw [settled_of_not_hasTable htable]
    exact ⟨rfl, rfl⟩

/-- The record that a repair leaves passes the check where a table is kept or the factory record fits. -/
theorem validate_settled_iff (h : flashSize < addressSpace) :
    (s.settled flashSize).validate s.flash.capacity = .ok () ↔
      s.HasTable ∨
        flashSize / 2 % sectorSize = 0 ∧ flashSize / 2 + firstImageAddress < s.flash.capacity := by
  by_cases htable : s.HasTable
  · obtain ⟨r, hstored, hlayout⟩ := id htable
    rw [settled_of_stored hstored hlayout]
    exact iff_of_true (Record.validate_mend hlayout) (.inl htable)
  · rw [settled_of_not_hasTable htable, Record.validate_factory_eq_ok_iff h, or_iff_right htable]

theorem validate_settled_of_factory (h : (Record.factory flashSize).validate s.flash.capacity = .ok ()) :
    (s.settled flashSize).validate s.flash.capacity = .ok () := by
  by_cases htable : s.HasTable
  · obtain ⟨r, hstored, hlayout⟩ := htable
    rw [settled_of_stored hstored hlayout]
    exact Record.validate_mend hlayout
  · rwa [settled_of_not_hasTable htable]

/-- A repair leaves a factory record unless a stored table breaks no rule and is another one. -/
theorem isFactory_settled_iff (h : flashSize < addressSpace) :
    (s.settled flashSize).IsFactory ↔
      ∀ r, s.stored = .ok r → r.LayoutOk s.flash.capacity → r.mend.IsFactory := by
  by_cases htable : s.HasTable
  · obtain ⟨r, hstored, hlayout⟩ := htable
    rw [settled_of_stored hstored hlayout]
    constructor
    · intro hfactory r' hr' _
      exact Except.ok.inj (hstored.symm.trans hr') ▸ hfactory
    · intro hall
      exact hall r hstored hlayout
  · rw [settled_of_not_hasTable htable]
    exact iff_of_true (Record.isFactory_factory h) fun r hr hlayout => absurd ⟨r, hr, hlayout⟩ htable

/-! ## What a repair does -/

/-- Writing the factory record is a save of it. -/
theorem restoreDefaults_eq (s : Store) (flashSize : Nat) :
    (s.restoreDefaults flashSize).1 =
        (s.save (.factory flashSize)).1.map (fun _ => (.factory flashSize, .defaults)) ∧
      (s.restoreDefaults flashSize).2.flash = (s.save (.factory flashSize)).2.flash := by
  cases hsave : (s.flash.saveRecord (.factory flashSize)).1 <;>
    simp only [restoreDefaults, save, hsave, Except.map, and_self]

/-- A sound record is kept as it is. -/
theorem ensureValid_of_load (h : s.load = .ok r) (flashSize : Nat) :
    s.ensureValid flashSize = (.ok (r, .kept), s) := by
  obtain ⟨hstored, hvalid⟩ := Flash.loadRecord_eq_ok_iff.mp h
  have hstored : s.stored = .ok r := hstored
  simp only [ensureValid, hstored, hvalid]

/-- Where a record can be read and is not sound, a repair is a save of the record that it is to leave. -/
theorem ensureValid_of_unsound (hread : s.stored ≠ .error .readFailed) (hload : ∀ r, s.load ≠ .ok r)
    (flashSize : Nat) :
    ∃ repair, (s.HasTable ∧ repair = .selection ∨ ¬ s.HasTable ∧ repair = .defaults) ∧
      (s.ensureValid flashSize).1 =
        (s.save (s.settled flashSize)).1.map (fun _ => (s.settled flashSize, repair)) ∧
      (s.ensureValid flashSize).2.flash = (s.save (s.settled flashSize)).2.flash := by
  by_cases htable : s.HasTable
  · obtain ⟨r, hstored, hlayout⟩ := id htable
    have hcurrent : ¬ r.current < r.count := fun hlt =>
      hload r (Flash.loadRecord_eq_ok_iff.mpr
        ⟨hstored, (Record.validate_eq_ok_iff _ _).mpr ⟨hlayout, hlt⟩⟩)
    refine ⟨.selection, .inl ⟨htable, rfl⟩, ?_⟩
    rw [settled_of_stored hstored hlayout, Record.mend, if_neg hcurrent]
    have hvalid := Record.validate_of_layoutOk hlayout hcurrent
    cases hsave : (s.flash.saveRecord (r.select defaultSlot)).1 <;>
      simp only [ensureValid, hstored, hvalid, save, hsave, Except.map, and_self]
  · refine ⟨.defaults, .inr ⟨htable, rfl⟩, ?_⟩
    have hdefaults : s.ensureValid flashSize = s.restoreDefaults flashSize := by
      unfold ensureValid
      split
      · rename_i hfault
        exact absurd hfault hread
      · rfl
      · rename_i r hstored
        rw [Record.validate_of_not_layoutOk fun hlayout => htable ⟨r, hstored, hlayout⟩]
    rw [hdefaults, settled_of_not_hasTable htable]
    exact restoreDefaults_eq s flashSize

/-- A repair that succeeds leaves a record that passes the check, and that record is loaded after it. -/
theorem ensureValid_eq_ok {repair : Repair} (h : (s.ensureValid flashSize).1 = .ok (r, repair)) :
    r = s.settled flashSize ∧ r.validate s.flash.capacity = .ok () ∧
      (s.ensureValid flashSize).2.load = .ok r := by
  have hread : s.stored ≠ .error .readFailed := by
    intro hfault
    simp only [ensureValid, hfault] at h
    exact nomatch h
  by_cases hsound : ∃ r, s.load = .ok r
  · obtain ⟨r', hload⟩ := hsound
    rw [ensureValid_of_load hload] at h ⊢
    obtain ⟨rfl, -⟩ := Prod.mk.inj (Except.ok.inj h)
    exact ⟨(settled_of_load hload).symm, (Flash.loadRecord_eq_ok_iff.mp hload).2, hload⟩
  · obtain ⟨repair', -, hresult, hflash⟩ :=
      ensureValid_of_unsound hread (not_exists.mp hsound) flashSize
    rw [hresult] at h
    cases hsave : (s.save (s.settled flashSize)).1 with
    | error fault => rw [hsave] at h; exact nomatch h
    | ok _ =>
      rw [hsave] at h
      obtain ⟨rfl, -⟩ := Prod.mk.inj (Except.ok.inj h)
      obtain ⟨hvalid, hsize, hsaved⟩ := Flash.saveRecord_ok hsave
      obtain ⟨hmagic, hversion⟩ := s.marks_settled flashSize
      have hwhole : (s.save (s.settled flashSize)).2.flash =
          s.flash.performAll (s.settled flashSize).saveOps := hsaved
      refine ⟨rfl, hvalid, ?_⟩
      rw [load, hflash, hwhole]
      exact Flash.loadRecord_performAll_saveOps hmagic hversion hvalid hsize
        (Flash.read_of_storedRecord hread)

/-! ## Repairs without faults -/

/-- Without faults, a record that passes the check is saved. -/
theorem save_of_free (hfaults : s.flash.faults = {}) (hsize : firstImageAddress ≤ s.flash.cells.size)
    (hvalid : r.validate s.flash.capacity = .ok ()) : (s.save r).1 = .ok () :=
  congrArg Prod.fst (Flash.saveRecord_eq_ok hvalid hsize (by rw [hfaults]) (by rw [hfaults]))

/-- Without faults, the record's place can be read. -/
theorem stored_of_free (hfaults : s.flash.faults = {}) (hsize : firstImageAddress ≤ s.flash.cells.size) :
    s.stored ≠ .error .readFailed := by
  intro hfault
  exact nomatch Flash.storedRecord_fault (by rw [hfaults]) hsize hfault

/-- Without faults, a repair succeeds where the record that it is to leave passes the check. -/
theorem ensureValid_of_free (hfaults : s.flash.faults = {}) (hsize : firstImageAddress ≤ s.flash.cells.size)
    (hvalid : (s.settled flashSize).validate s.flash.capacity = .ok ()) :
    ∃ repair, (s.ensureValid flashSize).1 = .ok (s.settled flashSize, repair) := by
  by_cases hsound : ∃ r, s.load = .ok r
  · obtain ⟨r, hload⟩ := hsound
    rw [ensureValid_of_load hload, settled_of_load hload]
    exact ⟨.kept, rfl⟩
  · obtain ⟨repair, -, hresult, -⟩ :=
      ensureValid_of_unsound (stored_of_free hfaults hsize) (not_exists.mp hsound) flashSize
    rw [hresult, save_of_free hfaults hsize hvalid]
    exact ⟨repair, rfl⟩

/-- Without faults, a repair fails only where no table is kept and the factory record does not fit, and then
it changes nothing. -/
theorem ensureValid_of_not_valid (hfaults : s.flash.faults = {})
    (hsize : firstImageAddress ≤ s.flash.cells.size)
    (hvalid : (s.settled flashSize).validate s.flash.capacity ≠ .ok ()) :
    (s.ensureValid flashSize).1 = .error .invalidLayout ∧ (s.ensureValid flashSize).2.flash = s.flash := by
  have htable : ¬ s.HasTable := by
    rintro ⟨r, hstored, hlayout⟩
    rw [settled_of_stored hstored hlayout] at hvalid
    exact hvalid (Record.validate_mend hlayout)
  have hsound : ∀ r, s.load ≠ .ok r := fun r hload =>
    htable ⟨r, (Flash.loadRecord_eq_ok_iff.mp hload).1, Flash.layoutOk_of_load hload⟩
  obtain ⟨repair, -, hresult, hflash⟩ :=
    ensureValid_of_unsound (stored_of_free hfaults hsize) hsound flashSize
  have hinvalid : (s.settled flashSize).validate s.flash.capacity = .error .invalidLayout := by
    refine Record.validate_of_not_layoutOk fun hlayout => hvalid ?_
    rw [settled_of_not_hasTable htable] at hlayout ⊢
    exact (Record.validate_eq_ok_iff _ _).mpr ⟨hlayout, show defaultSlot < 2 by decide⟩
  rw [hresult, hflash, save_of_invalid hinvalid]
  exact ⟨rfl, rfl⟩

end Store

end BootSlots
