import BootSlots.Proofs.Record.Saving

/-
  Selecting a slot, once and many times over. A selection loads the record, looks the slot up in its table and
  saves the record with that slot as its selection. Up to the save nothing is touched; a save of what was
  loaded passes the check, so it can fail on the device only, before the erase or right after it.

  Proved:
  * `selectSlot_cases`: all that a selection can do.
  * `selectSlot_ops`: a selection is a save of the loaded record with another slot, or nothing at all.
  * `selectAll_of_free`: on a flash without faults, the slots in use are accepted, and the last one stays.
  * `selections_exact`: what each answer says of the flash, and what any number of selections come to.

  A selection that fails after the erase leaves no record to load; that is the price of one sector for it.
-/

namespace BootSlots

theorem Record.validate_select {r : Record} {slot : UInt8} {flashSize : Nat}
    (hv : r.validate flashSize = .ok ()) (hslot : slot < r.count) :
    (r.select slot).validate flashSize = .ok () :=
  (validate_eq_ok_iff _ _).mpr ⟨((validate_eq_ok_iff _ _).mp hv).1, hslot⟩

@[simp] theorem Record.count_select (r : Record) (slot : UInt8) : (r.select slot).count = r.count := rfl

@[simp] theorem Record.current_select (r : Record) (slot : UInt8) : (r.select slot).current = slot := rfl

@[simp] theorem Record.select_select (r : Record) (slot slot' : UInt8) :
    (r.select slot).select slot' = r.select slot' := rfl

namespace Flash

/-- The loaded record, saved with another slot in use, is loaded again. -/
theorem loadRecord_performAll_select {f : Flash} {r : Record} {slot : UInt8}
    (hload : f.loadRecord = .ok r) (hslot : slot < r.count) :
    (f.performAll (r.select slot).saveOps).loadRecord = .ok (r.select slot) := by
  obtain ⟨-, hv⟩ := loadRecord_eq_ok_iff.mp hload
  obtain ⟨hread, hsize, hdecode⟩ := stored_of_load hload
  obtain ⟨hmagic, hversion⟩ := Record.marks_of_decode hdecode
  exact loadRecord_performAll_saveOps hmagic hversion (Record.validate_select hv hslot) hsize hread

/-- A load does not write, so it does not fail as a write does. -/
theorem loadRecord_ne_writeFailed (f : Flash) : f.loadRecord ≠ .error .writeFailed := by
  intro h
  unfold loadRecord storedRecord at h
  split at h
  · rename_i fault hstored
    split at hstored
    · rw [← Except.error.inj hstored] at h
      cases h
    · rw [Record.decode_fault hstored] at h
      cases h
  · split at h
    · rename_i fault hv
      unfold Record.validate at hv
      split at hv
      · rw [← Except.error.inj hv] at h
        cases h
      · split at hv
        · rw [← Except.error.inj hv] at h
          cases h
        · cases hv
    · cases h

end Flash

namespace Store

/-! ## One selection -/

/-- A selection is refused and nothing changes, or it is a save of the loaded record with a slot in use. -/
theorem selectSlot_cases (s : Store) (slot : UInt8) :
    (∃ fault, fault ≠ .writeFailed ∧ s.selectSlot slot = (.error fault, s) ∧
        ∀ r, s.load = .ok r → r.count ≤ slot ∧ fault = .invalidSlot) ∨
      ∃ r, s.load = .ok r ∧ slot < r.count ∧
        (s.selectSlot slot).1 = (s.flash.saveRecord (r.select slot)).1 ∧
        (s.selectSlot slot).2.flash = (s.flash.saveRecord (r.select slot)).2 := by
  unfold selectSlot
  cases hload : s.load with
  | error fault =>
    refine .inl ⟨fault, ?_, rfl, fun r hr => by cases hr⟩
    rintro rfl
    exact s.flash.loadRecord_ne_writeFailed hload
  | ok r =>
    by_cases hslot : r.count ≤ slot
    · refine .inl ⟨.invalidSlot, by decide, if_pos hslot, fun r' hr' => ?_⟩
      obtain rfl := Except.ok.inj hr'
      exact ⟨hslot, rfl⟩
    · refine .inr ⟨r, rfl, UInt8.not_le.mp hslot, ?_⟩
      simp only [if_neg hslot, save]
      cases (s.flash.saveRecord (r.select slot)).1 with
      | error fault => exact ⟨rfl, rfl⟩
      | ok _ => exact ⟨rfl, rfl⟩

/-- A selection saves the loaded record with another slot, as far as it comes, or does nothing. -/
theorem selectSlot_ops (s : Store) (slot : UInt8) :
    ∃ ops, (s.selectSlot slot).2.flash = s.flash.performAll ops ∧
      (ops = [] ∧ (s.selectSlot slot).1 ≠ .ok () ∨
        ∃ r n, s.load = .ok r ∧ slot < r.count ∧ n ≤ 2 ∧ ops = (r.select slot).saveOps.take n ∧
          ((s.selectSlot slot).1 = .ok () → n = 2)) := by
  obtain ⟨fault, -, heq, -⟩ | ⟨r, hload, hslot, hres, hflash⟩ := s.selectSlot_cases slot
  · rw [heq]
    exact ⟨[], rfl, .inl ⟨rfl, nofun⟩⟩
  · obtain ⟨n, hn, hops, hok⟩ := s.flash.saveRecord_ops (r.select slot)
    rw [hres, hflash]
    exact ⟨_, hops, .inr ⟨r, n, hload, hslot, hn, rfl, hok⟩⟩

theorem reaches_selectSlot (s : Store) (slot : UInt8) :
    s.flash.Reaches (·.Within recordAddress firstImageAddress) (s.selectSlot slot).2.flash := by
  obtain ⟨ops, hflash, ⟨rfl, -⟩ | ⟨r, n, -, -, -, rfl, -⟩⟩ := s.selectSlot_ops slot
  · rw [hflash]
    exact .refl _ _
  · rw [hflash]
    exact Flash.reaches_performAll _ fun op hop =>
      Record.within_of_mem_saveOps (List.mem_of_mem_take hop)

/-- A selection that succeeds was made in the record that was loaded then. -/
theorem load_of_selectSlot {s : Store} {slot : UInt8} (h : (s.selectSlot slot).1 = .ok ()) :
    ∃ r, s.load = .ok r ∧ slot < r.count ∧ (s.selectSlot slot).2.load = .ok (r.select slot) := by
  obtain ⟨ops, hflash, ⟨-, hne⟩ | ⟨r, n, hload, hslot, -, rfl, hwhole⟩⟩ := s.selectSlot_ops slot
  · exact absurd h hne
  · refine ⟨r, hload, hslot, ?_⟩
    obtain rfl := hwhole h
    rw [load, hflash]
    exact Flash.loadRecord_performAll_select hload hslot

/-- Without faults, a slot in use is selected, and the selection is loaded again. -/
theorem selectSlot_eq_ok {s : Store} {r : Record} {slot : UInt8} (hload : s.load = .ok r)
    (hslot : slot < r.count) (herase : s.flash.faults.erase = none)
    (hprogram : s.flash.faults.program = none) :
    (s.selectSlot slot).1 = .ok () ∧ (s.selectSlot slot).2.load = .ok (r.select slot) := by
  obtain ⟨fault, -, -, hrefused⟩ | ⟨r', hload', -, hres, hflash⟩ := s.selectSlot_cases slot
  · exact absurd hslot (UInt8.not_lt.mpr (hrefused r hload).1)
  · obtain rfl := Except.ok.inj (hload.symm.trans hload')
    obtain ⟨-, hv⟩ := Flash.loadRecord_eq_ok_iff.mp hload
    obtain ⟨-, hsize, -⟩ := Flash.stored_of_load hload
    have hsave := Flash.saveRecord_eq_ok (Record.validate_select hv hslot) hsize herase hprogram
    rw [hres, load, hflash, hsave]
    exact ⟨rfl, Flash.loadRecord_performAll_select hload hslot⟩

/-- What is saved in a selection can fail on the device only, so another fault is a refusal. -/
theorem selectSlot_fault {s : Store} {slot : UInt8} {fault : RecordFault}
    (h : (s.selectSlot slot).1 = .error fault) (hfault : fault ≠ .writeFailed) :
    (s.selectSlot slot).2 = s := by
  obtain ⟨_, -, heq, -⟩ | ⟨r, hload, hslot, hres, -⟩ := s.selectSlot_cases slot
  · rw [heq]
  · have hv := Record.validate_select (Flash.loadRecord_eq_ok_iff.mp hload).2 hslot
    exact absurd (Flash.saveRecord_fault hv (hres.symm.trans h)) hfault

theorem selectSlot_eq_invalidSlot {s : Store} {slot : UInt8}
    (h : (s.selectSlot slot).1 = .error .invalidSlot) : (s.selectSlot slot).2 = s :=
  selectSlot_fault h (by decide)

end Store

/-! ## What each answer says of the flash -/

/-- Outside the record's sector both hold the same bytes. -/
def Flash.SameImages (f g : Flash) : Prop :=
  ∀ x, sectorOf x ≠ recordSector → g.cells[x]? = f.cells[x]?

theorem Flash.sameImages_of_reaches {f g : Flash}
    (h : f.Reaches (·.Within recordAddress firstImageAddress) g) : f.SameImages g := by
  intro x hx
  have hout : x < recordAddress ∨ firstImageAddress ≤ x := by
    simp only [sectorOf, sectorSize_eq, recordSector, recordAddress_eq, firstImageAddress_eq] at *
    omega
  refine h.getElem?_cells fun op hop => ?_
  rcases hout with hlt | hge
  · exact hop.not_covers_of_lt hlt
  · exact hop.not_covers_of_ge (by decide) hge

/-- What a selection of `slot` that found the flash `f` has left as `g`, by its answer. -/
def Flash.Selected (f : Flash) (slot : UInt8) (g : Flash) : Except RecordFault Unit → Prop
  | .ok () =>
    f.SameImages g ∧ ∃ c, f.loadRecord = .ok c ∧ slot < c.count ∧
      g.cells.slice recordAddress sectorSize = (c.select slot).storedSector
  | .error .writeFailed =>
    g = f ∨ g = f.perform (.erase recordSector) ∧ f.SameImages g ∧
      g.cells.slice recordAddress sectorSize = List.replicate sectorSize erased
  | .error _ => g = f

namespace Store

theorem selected (s : Store) (slot : UInt8) :
    s.flash.Selected slot (s.selectSlot slot).2.flash (s.selectSlot slot).1 := by
  have hsame := Flash.sameImages_of_reaches (s.reaches_selectSlot slot)
  cases hres : (s.selectSlot slot).1 with
  | ok _ =>
    obtain ⟨fault, -, heq, -⟩ | ⟨r, hload, hslot, hsave, hflash⟩ := s.selectSlot_cases slot
    · rw [heq] at hres
      cases hres
    · refine ⟨hsame, r, hload, hslot, ?_⟩
      rw [hflash]
      exact Flash.slice_record_of_saved (hsave.symm.trans hres)
  | error fault =>
    by_cases hfault : fault = .writeFailed
    · subst hfault
      obtain ⟨fault, hne, heq, -⟩ | ⟨r, -, -, hsave, hflash⟩ := s.selectSlot_cases slot
      · rw [heq] at hres
        exact absurd (Except.error.inj hres) hne
      · have hunsaved : (s.flash.saveRecord (r.select slot)).1 ≠ .ok () := by
          rw [← hsave, hres]
          exact fun hok => by cases hok
        obtain hnothing | ⟨hsize, hblank⟩ := Flash.saveRecord_unsaved hunsaved
        · exact .inl (hflash.trans hnothing)
        · refine .inr ⟨hflash.trans hblank, hsame, ?_⟩
          rw [hflash, hblank]
          exact Flash.slice_record_of_erased hsize
    · have hnothing := congrArg Store.flash (selectSlot_fault hres hfault)
      cases fault with
      | writeFailed => exact absurd rfl hfault
      | _ => exact hnothing

/-! ## Any number of selections -/

/-- Selects slots in order. Those that are accepted are told, and the store is what all of them have left. -/
def selectAll (s : Store) : List UInt8 → List UInt8 × Store
  | [] => ([], s)
  | slot :: slots =>
    match s.selectSlot slot with
    | (.ok (), s) => (slot :: (s.selectAll slots).1, (s.selectAll slots).2)
    | (.error _, s) => s.selectAll slots

theorem faults_selectSlot (s : Store) (slot : UInt8) :
    (s.selectSlot slot).2.flash.faults = s.flash.faults := by
  obtain ⟨ops, hflash, -⟩ := s.selectSlot_ops slot
  rw [hflash, Flash.faults_performAll]

theorem selectAll_cons_of_ok {s : Store} {slot : UInt8} (h : (s.selectSlot slot).1 = .ok ())
    (slots : List UInt8) :
    s.selectAll (slot :: slots) =
      (slot :: ((s.selectSlot slot).2.selectAll slots).1, ((s.selectSlot slot).2.selectAll slots).2) := by
  rw [selectAll]
  split <;> rename_i heq <;> rw [heq] at h
  · rw [heq]
  · cases h

theorem selectAll_cons_of_error {s : Store} {slot : UInt8} {fault : RecordFault}
    (h : (s.selectSlot slot).1 = .error fault) (slots : List UInt8) :
    s.selectAll (slot :: slots) = (s.selectSlot slot).2.selectAll slots := by
  rw [selectAll]
  split <;> rename_i heq <;> rw [heq] at h
  · cases h
  · rw [heq]

/-- Without faults the slots in use are accepted, and the record keeps all but its selection; by induction on
the slots, as each selection leaves a record with the same table. -/
theorem selectAll_of_free {s : Store} {r : Record} (hload : s.load = .ok r)
    (herase : s.flash.faults.erase = none) (hprogram : s.flash.faults.program = none)
    (slots : List UInt8) :
    (s.selectAll slots).1 = slots.filter (· < r.count) ∧
      (s.selectAll slots).2.load = .ok ((s.selectAll slots).1.getLast?.elim r r.select) := by
  induction slots generalizing s r with
  | nil => exact ⟨rfl, hload⟩
  | cons slot slots ih =>
    by_cases hslot : slot < r.count
    · obtain ⟨hok, hselected⟩ := selectSlot_eq_ok hload hslot herase hprogram
      have hfaults := s.faults_selectSlot slot
      obtain ⟨hslots, hlast⟩ := ih hselected (by rw [hfaults, herase]) (by rw [hfaults, hprogram])
      rw [selectAll_cons_of_ok hok slots, List.filter_cons_of_pos (by simpa using hslot)]
      refine ⟨congrArg (slot :: ·) hslots, hlast.trans ?_⟩
      rw [List.getLast?_cons]
      cases ((s.selectSlot slot).2.selectAll slots).1.getLast? with
      | none => rfl
      | some last => rfl
    · have hrefused : (s.selectSlot slot).1 = .error .invalidSlot := by
        obtain ⟨fault, -, heq, hwhy⟩ | ⟨r', hload', hlt, -⟩ := s.selectSlot_cases slot
        · rw [heq, (hwhy r hload).2]
        · obtain rfl := Except.ok.inj (hload.symm.trans hload')
          exact absurd hlt hslot
      rw [selectAll_cons_of_error hrefused, selectSlot_eq_invalidSlot hrefused]
      simpa [hslot] using ih hload herase hprogram

/-- One selection under any faults: a success changes the selection in the record's sector and nothing else, a
failed write has done nothing or left the sector blank, and any other fault leaves the flash and its list of
operations alone. Many without faults: the record stays but for its selection, the last slot accepted. -/
theorem selections_exact (s : Store) :
    (∀ slot, s.flash.Selected slot (s.selectSlot slot).2.flash (s.selectSlot slot).1) ∧
      ∀ r, s.load = .ok r → s.flash.faults = {} → ∀ slots,
        (s.selectAll slots).1 = slots.filter (· < r.count) ∧
          (s.selectAll slots).2.load = .ok ((s.selectAll slots).1.getLast?.elim r r.select) := by
  refine ⟨s.selected, fun r hload hfaults slots => ?_⟩
  exact selectAll_of_free hload (by rw [hfaults]) (by rw [hfaults]) slots

/-- A store on a flash of four sectors on which nothing but the record was stored. -/
def holding (r : Record) : Store where
  flash := Flash.performAll
    { cells := Array.replicate (4 * sectorSize) erased
      size_mod := by simp
      size_lt := by simp; decide } r.saveOps

@[simp] theorem faults_holding (r : Record) : (holding r).flash.faults = {} :=
  Flash.faults_performAll _ _

@[simp] theorem size_holding (r : Record) : (holding r).flash.cells.size = 4 * sectorSize := by
  rw [holding, Flash.cells_performAll, Memory.size_replay, Array.size_replicate]

@[simp] theorem capacity_holding (r : Record) : (holding r).flash.capacity = 4 * sectorSize := by
  rw [holding, Flash.capacity_performAll, Flash.capacity, Array.size_replicate]

theorem stored_holding {r : Record} (hm : r.magic = recordMagic) (hv : r.version = recordVersion) :
    (holding r).stored = .ok r := by
  have hsize : firstImageAddress ≤ (Array.replicate (4 * sectorSize) erased).size := by
    rw [Array.size_replicate]
    decide
  rw [← Record.decode_encode r hm hv]
  exact Flash.storedRecord_performAll_saveOps r rfl hsize

/-- A record with two slots of one sector. -/
def twoSlots : Record :=
  { Record.factory 0 with addresses := #v[0x2000, 0x3000, 0, 0] }

theorem load_twoSlots : (holding twoSlots).load = .ok twoSlots := by
  refine Flash.loadRecord_eq_ok_iff.mpr ⟨stored_holding rfl rfl, ?_⟩
  rw [Record.validate_eq_ok_iff, capacity_holding]
  decide

/-- Two of five selections are of slots that the table does not have. -/
theorem selections_exact_two_slots :
    (holding twoSlots).load = .ok twoSlots ∧ (holding twoSlots).flash.faults = {} ∧
      ((holding twoSlots).selectAll [0, 2, 1, 0xFF, 1]).1 = [0, 1, 1] ∧
      ((holding twoSlots).selectAll [0, 2, 1, 0xFF, 1]).2.load = .ok (twoSlots.select 1) := by
  obtain ⟨-, hmany⟩ := (holding twoSlots).selections_exact
  obtain ⟨haccepted, hlast⟩ := hmany twoSlots load_twoSlots (faults_holding _) [0, 2, 1, 0xFF, 1]
  have hslots : ((holding twoSlots).selectAll [0, 2, 1, 0xFF, 1]).1 = [0, 1, 1] :=
    haccepted.trans (by decide)
  rw [hslots] at hlast
  exact ⟨load_twoSlots, faults_holding _, hslots, hlast⟩

end Store

end BootSlots
