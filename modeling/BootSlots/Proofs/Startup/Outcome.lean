import BootSlots.Proofs.Record.Sector
import BootSlots.Proofs.Startup.Reset

/-
  What a start-up without a pending reset comes to. It tells a flash size from the header at address 0 and
  repairs the stored record, where the size decides on the second slot of the factory record and on nothing
  else: a stored table is checked against the capacity. So the report's record passes the check for the
  capacity, but for the size in the same report it does only where that size lies above every slot.

  Proved:
  * `run_again`: a start-up after one that succeeded finds nothing to repair.
  * `report_sound_iff`: under any faults, when the reported record passes the check for the reported size.
  * `run_outcome`: without faults, when a start-up succeeds, what it leaves and reports, and that the next one
    reports the same and touches nothing.
-/

namespace BootSlots

/-! ## The size that is told -/

namespace Flash

/-- The flash size that a valid header at address 0 declares. -/
def declaredSize? (f : Flash) : Option Nat :=
  match (f.contents? 0 Image.headerSize).bind Image.Header.ofBytes? with
  | some header => if header.isValid then some header.flashSize else none
  | none => none

/-- While reads do not fail, a header is read where there is room for one. -/
theorem readHeader_eq_elim {f : Flash} (hread : f.faults.read = false) (address : Nat) :
    Image.readHeader f address =
      ((f.contents? address Image.headerSize).bind Image.Header.ofBytes?).elim (.error .readFailed) .ok := by
  unfold Image.readHeader read contents?
  rw [hread, if_neg Bool.false_ne_true]
  by_cases hfits : address + Image.headerSize ≤ f.cells.size
  · rw [if_neg (Nat.not_lt.mpr hfits), if_pos hfits, Option.bind_some]
    dsimp only
    cases Image.Header.ofBytes? (f.cells.slice address Image.headerSize) with
    | none => rfl
    | some header => rfl
  · rw [if_pos (Nat.not_le.mp hfits), if_neg hfits]
    rfl

/-- While reads do not fail, the declared size is told, or else the fallback, up to the capacity. -/
theorem bootSize_eq {f : Flash} (hread : f.faults.read = false) (fallback : Nat) :
    f.bootSize fallback = min (f.declaredSize?.getD fallback) f.capacity := by
  unfold bootSize declaredSize?
  rw [readHeader_eq_elim hread]
  cases (f.contents? 0 Image.headerSize).bind Image.Header.ofBytes? with
  | none => rfl
  | some header =>
    by_cases hvalid : header.isValid = true
    · simp only [Option.elim, if_pos hvalid, Option.getD_some]
    · simp only [Option.elim, if_neg hvalid, Option.getD_none]

/-- An erased byte at address 0 starts no header. -/
theorem bootSize_of_erased {f : Flash} (h : f.cells[0]? = some erased) (fallback : Nat) :
    f.bootSize fallback = min fallback f.capacity := by
  unfold bootSize
  cases hread : Image.readHeader f 0 with
  | error _ => rfl
  | ok header =>
    obtain ⟨hreads, hfits⟩ := Image.readHeader_eq_ok hread
    obtain ⟨header', hread', hmagic⟩ := Image.readHeader_of_fits hreads hfits
    obtain rfl := Except.ok.inj (hread.symm.trans hread')
    have hinvalid : header.isValid = false := by
      rw [Image.Header.isValid, ← Option.some.inj (h.symm.trans hmagic)]
      rfl
    simp only [hinvalid, Bool.false_eq_true, if_false]

/-- Saves leave the header at address 0 as it is, and so the size that is told by it. -/
theorem Saves.bootSize {f g : Flash} (h : f.Saves g) (fallback : Nat) :
    g.bootSize fallback = f.bootSize fallback := by
  obtain ⟨ops, rfl, -, hops⟩ := h.performAll
  have hslice : (f.cells.replay ops).slice 0 Image.headerSize = f.cells.slice 0 Image.headerSize :=
    Memory.slice_replay_of_not_covers (fun op hop x _ hx =>
      (hops op hop).not_covers_of_lt (Nat.lt_trans hx (by decide))) f.cells
  have hread : (f.performAll ops).read 0 Image.headerSize = f.read 0 Image.headerSize := by
    unfold read
    rw [faults_performAll, cells_performAll, Memory.size_replay, hslice]
  simp only [Flash.bootSize, Image.readHeader, hread, capacity_performAll]

end Flash

namespace Startup

/-! ## What a start-up does -/

variable {s : Startup} {report : Report}

/-- A start-up that succeeds has repaired the record with the size that it reports. -/
theorem run_of_booting (hnone : s.reset.requested = false) (h : s.run.1 = .booting report) :
    report.flashSize = s.store.flash.bootSize s.layout.defaultFlashSize ∧
      (s.store.ensureValid report.flashSize).1 = .ok (report.record, report.repair) ∧
      s.run.2.store = (s.store.ensureValid report.flashSize).2 ∧ s.run.2.layout = s.layout ∧
      s.run.2.reset.requested = false ∧ s.run.2.reset.indicator.isOn = true := by
  rw [run_of_not_requested hnone] at h ⊢
  cases hrepair : (s.store.ensureValid (s.store.flash.bootSize s.layout.defaultFlashSize)).1 with
  | error fault =>
    have hfailed := (boot_of_error (s := s.signal .init) hrepair).1
    exact nomatch h.symm.trans hfailed
  | ok res =>
    obtain ⟨hreport, hstore, hreset, hlayout⟩ := boot_of_ok (s := s.signal .init) hrepair
    obtain rfl := Outcome.booting.inj (h.symm.trans hreport)
    refine ⟨rfl, hrepair, hstore, hlayout, ?_, ?_⟩
    · rw [hreset]
      exact hnone
    · rw [hreset]
      exact Indicator.isOn_give _ _

/-- A start-up that finds a sound record reports it and leaves it as it is. -/
theorem run_of_load {r : Record} (hnone : s.reset.requested = false) (hload : s.store.load = .ok r) :
    s.run.1 = .booting ⟨r, s.store.flash.bootSize s.layout.defaultFlashSize, .kept⟩ ∧
      s.run.2.store = s.store := by
  have hkept := Store.ensureValid_of_load hload (s.store.flash.bootSize s.layout.defaultFlashSize)
  obtain ⟨hreport, hstore, -⟩ := boot_of_ok (s := s.signal .init) (congrArg Prod.fst hkept)
  rw [run_of_not_requested hnone]
  exact ⟨hreport, hstore.trans (congrArg Prod.snd hkept)⟩

/-- After a start-up that succeeds, the next one reports the same and leaves the record as it is, whatever
faults are switched on. -/
theorem run_again (hnone : s.reset.requested = false) (h : s.run.1 = .booting report) :
    s.run.2.store.load = .ok report.record ∧ s.run.2.run.1 = .booting { report with repair := .kept } ∧
      s.run.2.run.2.store = s.run.2.store := by
  obtain ⟨hsize, hrepair, hstore, hlayout, hnone', -⟩ := run_of_booting hnone h
  obtain ⟨-, -, hload⟩ := Store.ensureValid_eq_ok hrepair
  rw [← hstore] at hload
  obtain ⟨hreport, hsame⟩ := run_of_load hnone' hload
  have hsizes : s.run.2.store.flash.bootSize s.run.2.layout.defaultFlashSize = report.flashSize := by
    rw [hlayout, hstore, (s.store.saves_ensureValid report.flashSize).bootSize, hsize]
  rw [hsizes] at hreport
  exact ⟨hload, hreport, hsame⟩

end Startup

/-! ## The report against its own size -/

namespace Record

/-- What passes the check for one size passes it for another exactly where that lies above all slots. -/
theorem validate_iff_of_validate {r : Record} {capacity flashSize : Nat}
    (h : r.validate capacity = .ok ()) :
    r.validate flashSize = .ok () ↔ ∀ a ∈ r.configured, a < flashSize := by
  obtain ⟨⟨hpos, hmax, hstart⟩, hcurrent⟩ := (validate_eq_ok_iff _ _).mp h
  rw [validate_eq_ok_iff]
  constructor
  · rintro ⟨⟨-, -, hstart'⟩, -⟩ a ha
    exact (hstart' a ha).2.2
  · intro hbelow
    exact ⟨⟨hpos, hmax, fun a ha => ⟨(hstart a ha).1, (hstart a ha).2.1, hbelow a ha⟩⟩, hcurrent⟩

/-- All slots of a factory record lie below the size it is for, if that is large enough. -/
theorem configured_factory_lt_iff {flashSize : Nat} (h : flashSize < addressSpace) :
    (∀ a ∈ (factory flashSize).configured, a < flashSize) ↔ 2 * firstImageAddress < flashSize := by
  rw [configured_factory h]
  simp only [List.forall_mem_cons, firstImageAddress_eq]
  constructor
  · rintro ⟨-, hsecond, -⟩
    omega
  · intro hlarge
    exact ⟨by omega, by omega, nofun⟩

end Record

namespace Startup

variable {s : Startup} {report : Report}

/-- The reported record passes the check for the capacity. It passes the check for the reported size exactly
where that size lies above every slot of the table that was kept, or where there was none, above the second
slot of the factory record. -/
theorem report_sound_iff (hnone : s.reset.requested = false) (h : s.run.1 = .booting report) :
    report.record.validate s.store.flash.capacity = .ok () ∧
      (report.record.validate report.flashSize = .ok () ↔
        (∀ r, s.store.stored = .ok r → r.LayoutOk s.store.flash.capacity →
            ∀ a ∈ r.configured, a < report.flashSize) ∧
          (¬ s.store.HasTable → 2 * firstImageAddress < report.flashSize)) := by
  obtain ⟨hsize, hrepair, -⟩ := run_of_booting hnone h
  have hlt : report.flashSize < addressSpace := hsize ▸ s.store.flash.bootSize_lt _
  obtain ⟨hrecord, hvalid, -⟩ := Store.ensureValid_eq_ok hrepair
  refine ⟨hvalid, ?_⟩
  rw [Record.validate_iff_of_validate hvalid, hrecord]
  by_cases htable : s.store.HasTable
  · obtain ⟨r, hstored, hlayout⟩ := id htable
    rw [Store.settled_of_stored hstored hlayout, Record.configured_mend]
    constructor
    · intro hbelow
      refine ⟨fun r' hr' _ => ?_, fun hnot => absurd htable hnot⟩
      rwa [← Except.ok.inj (hstored.symm.trans hr')]
    · rintro ⟨hbelow, -⟩
      exact hbelow r hstored hlayout
  · rw [Store.settled_of_not_hasTable htable, Record.configured_factory_lt_iff hlt]
    constructor
    · intro hlarge
      exact ⟨fun r hr hlayout => absurd ⟨r, hr, hlayout⟩ htable, fun _ => hlarge⟩
    · rintro ⟨-, hlarge⟩
      exact hlarge htable

/-- A start-up on a flash on which nothing but the record was stored, which assumes that flash size. -/
def assuming (flashSize : Nat) (r : Record) : Startup where
  store := { flash := Engine.provisionedFlash r }
  reset := { scratch := .zeroed, indicator := {} }
  layout := { defaultFlashSize := flashSize }

theorem requested_zeroed : ({ scratch := .zeroed, indicator := {} } : FactoryReset).requested = false := by
  decide +kernel

theorem bootSize_assuming {flashSize : Nat} {r : Record} (h : r.validate Engine.provisionedSize = .ok ())
    (fallback : Nat) :
    (assuming flashSize r).store.flash.bootSize fallback = min fallback Engine.provisionedSize := by
  have hsaves : Flash.Saves _ (Engine.provisionedFlash r) := .whole (by
    rw [Flash.capacity, Array.size_replicate]
    exact h)
  rw [assuming, hsaves.bootSize, Flash.bootSize_of_erased (by rw [Array.getElem?_replicate]; rfl),
    Flash.capacity, Array.size_replicate]

/-- A table for 64 KiB is kept and reported with a flash size of 32 KiB. -/
theorem report_unsound_assuming :
    ∃ report, (assuming 0x8000 (.factory Engine.provisionedSize)).run.1 = .booting report ∧
      report.record.validate report.flashSize ≠ .ok () := by
  have hload : (assuming 0x8000 (.factory Engine.provisionedSize)).store.load =
      .ok (.factory Engine.provisionedSize) := Engine.load_provisioned_factory
  have hnone : (assuming 0x8000 (.factory Engine.provisionedSize)).reset.requested = false :=
    requested_zeroed
  obtain ⟨hreport, -⟩ := run_of_load hnone hload
  rw [bootSize_assuming ((Record.validate_eq_ok_iff _ _).mpr (by decide))] at hreport
  refine ⟨_, hreport, fun hsound => ?_⟩
  obtain ⟨-, hiff⟩ := report_sound_iff hnone hreport
  obtain ⟨hbelow, -⟩ := hiff.mp hsound
  have hstored := (Flash.loadRecord_eq_ok_iff.mp hload).1
  have hsecond := hbelow _ hstored (Flash.layoutOk_of_load hload) 0xA000 (by decide)
  exact absurd hsecond (by decide)

/-! ## Start-ups without faults -/

/-- Without faults, a start-up succeeds where the record that its repair is to leave passes the check. -/
theorem run_of_valid (hfaults : s.store.flash.faults = {})
    (hsize : firstImageAddress ≤ s.store.flash.cells.size) (hnone : s.reset.requested = false)
    (hvalid : (s.store.settled (s.store.flash.bootSize s.layout.defaultFlashSize)).validate
      s.store.flash.capacity = .ok ()) : ∃ report, s.run.1 = .booting report := by
  obtain ⟨report, hreport, -⟩ := (s.signal .init).boot_of_free hfaults hsize hvalid
  rw [run_of_not_requested hnone]
  exact ⟨report, hreport⟩

theorem run_of_not_valid (hfaults : s.store.flash.faults = {})
    (hsize : firstImageAddress ≤ s.store.flash.cells.size) (hnone : s.reset.requested = false)
    (hvalid : (s.store.settled (s.store.flash.bootSize s.layout.defaultFlashSize)).validate
      s.store.flash.capacity ≠ .ok ()) :
    s.run.1 = .failed .invalidBootConfig ∧ s.run.2.store.flash = s.store.flash ∧
      s.run.2.reset.indicator.isOn = false := by
  obtain ⟨hrepair, hflash⟩ := Store.ensureValid_of_not_valid hfaults hsize hvalid
  obtain ⟨hfailed, hstore, hreset⟩ := boot_of_error (s := s.signal .init) hrepair
  rw [run_of_not_requested hnone]
  refine ⟨hfailed, (congrArg Store.flash hstore).trans hflash, ?_⟩
  rw [hreset]
  exact Indicator.isOn_give _ _

/-- Without faults, a start-up succeeds where a table that breaks no rule is stored or the factory record fits.
It then leaves the record that it reports, and the next start-up reports it again and leaves all as it is. A
start-up that fails changes nothing. On a flash of an even number of sectors, more than four, none fails. -/
theorem run_outcome {size : Nat} (hfaults : s.store.flash.faults = {})
    (hsectors : firstImageAddress ≤ s.store.flash.cells.size) (hnone : s.reset.requested = false)
    (hsize : size =
      min (s.store.flash.declaredSize?.getD s.layout.defaultFlashSize) s.store.flash.capacity) :
    ((∃ report, s.run.1 = .booting report) ↔
        s.store.HasTable ∨ size / 2 % sectorSize = 0 ∧
          size / 2 + firstImageAddress < s.store.flash.capacity) ∧
      (∀ report, s.run.1 = .booting report →
        s.run.2.store.load = .ok report.record ∧ report.record.current < report.record.count ∧
          report.record.count.toNat ≤ maxSlots ∧ report.flashSize = size ∧
          s.run.2.reset.indicator.isOn = true ∧
          s.run.2.run.1 = .booting { report with repair := .kept } ∧
          s.run.2.run.2.store.flash = s.run.2.store.flash) ∧
      ((¬ ∃ report, s.run.1 = .booting report) →
        s.run.1 = .failed .invalidBootConfig ∧ s.run.2.store.flash = s.store.flash ∧
          s.run.2.reset.indicator.isOn = false) ∧
      (s.store.flash.capacity % (2 * sectorSize) = 0 → 2 * firstImageAddress < s.store.flash.capacity →
        s.layout.defaultFlashSize % (2 * sectorSize) = 0 → ∃ report, s.run.1 = .booting report) := by
  rw [← Flash.bootSize_eq (by rw [hfaults])] at hsize
  have hlt : size < addressSpace := hsize ▸ s.store.flash.bootSize_lt _
  have hvalid := Store.validate_settled_iff (s := s.store) hlt
  have hboots : (∃ report, s.run.1 = .booting report) ↔
      (s.store.settled size).validate s.store.flash.capacity = .ok () := by
    constructor
    · rintro ⟨report, h⟩
      obtain ⟨hreported, hrepair, -⟩ := run_of_booting hnone h
      obtain ⟨hrecord, hvalid, -⟩ := Store.ensureValid_eq_ok hrepair
      rwa [hsize, ← hreported, ← hrecord]
    · intro hvalid
      exact run_of_valid hfaults hsectors hnone (hsize ▸ hvalid)
  refine ⟨hboots.trans hvalid, fun report h => ?_, fun hnot => ?_, fun hcapacity hlarge hdefault => ?_⟩
  · obtain ⟨hreported, hrepair, -, -, -, hon⟩ := run_of_booting hnone h
    obtain ⟨-, hsound, -⟩ := Store.ensureValid_eq_ok hrepair
    obtain ⟨⟨-, hmax, -⟩, hcurrent⟩ := (Record.validate_eq_ok_iff _ _).mp hsound
    obtain ⟨hload, hagain, hsame⟩ := run_again hnone h
    exact ⟨hload, hcurrent, hmax, hreported.trans hsize.symm, hon, hagain, congrArg Store.flash hsame⟩
  · exact run_of_not_valid hfaults hsectors hnone (hsize ▸ fun hvalid => hnot (hboots.mpr hvalid))
  · have hfits := Flash.validate_bootSize hcapacity hlarge hdefault
    exact run_of_valid hfaults hsectors hnone (Store.validate_settled_of_factory hfits)

/-- A table that breaks no rule, with a selection out of range. -/
def strayRecord : Record :=
  (Record.factory Engine.provisionedSize).select 7

/-- Half of five sectors is no place for a slot, and the stored table is enough all the same. -/
theorem run_outcome_stray :
    ∃ report, (assuming 0x5000 strayRecord).run.1 = .booting report ∧
      (assuming 0x5000 strayRecord).run.2.store.load = .ok report.record ∧
      (assuming 0x5000 strayRecord).run.2.run.1 = .booting { report with repair := .kept } := by
  have hfaults : (assuming 0x5000 strayRecord).store.flash.faults = {} :=
    Engine.faults_provisioned strayRecord
  have hcells : (assuming 0x5000 strayRecord).store.flash.cells.size = Engine.provisionedSize :=
    Engine.size_provisioned strayRecord
  have hcapacity : (assuming 0x5000 strayRecord).store.flash.capacity = Engine.provisionedSize :=
    Engine.capacity_provisioned strayRecord
  have hstored : (assuming 0x5000 strayRecord).store.stored = .ok strayRecord :=
    (Flash.storedRecord_performAll_saveOps strayRecord rfl (by rw [Array.size_replicate]; decide)).trans
      (Record.decode_encode strayRecord rfl rfl)
  have htable : (assuming 0x5000 strayRecord).store.HasTable :=
    ⟨strayRecord, hstored, by rw [hcapacity]; decide⟩
  obtain ⟨hiff, hreport, -⟩ :=
    run_outcome hfaults (by rw [hcells]; decide) requested_zeroed rfl
  obtain ⟨report, hboots⟩ := hiff.mpr (.inl htable)
  obtain ⟨hload, -, -, -, -, hagain, -⟩ := hreport report hboots
  exact ⟨report, hboots, hload, hagain⟩

end Startup

end BootSlots
