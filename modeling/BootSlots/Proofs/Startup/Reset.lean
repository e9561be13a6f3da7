import BootSlots.Proofs.Record.Repair
import BootSlots.Proofs.Update.Runs
import BootSlots.Startup

/-
  A factory reset and the start-up after it. The reset writes the factory record for the size that the
  identity word tells, whatever the capacity; the start-up repairs the stored record with a size that is
  never more than the capacity. So where the first record does not fit, nothing is written, the request is
  gone all the same, and the start-up keeps a stored record that breaks no rule.

  Proved:
  * `perform_of_free`: what a reset does where nothing fails.
  * `boot_of_free`: what a start-up hands on where nothing fails.
  * `reset_applied_iff`: when the start-up after a reset comes up with a factory record.
-/

namespace BootSlots

/-! ## Flash sizes -/

theorem Image.Header.flashSize_mod (h : Image.Header) : h.flashSize % (2 * sectorSize) = 0 := by
  unfold flashSize
  split <;> rfl

theorem Flash.bootSize_le (f : Flash) (fallback : Nat) : f.bootSize fallback ≤ f.capacity :=
  Nat.min_le_right _ _

theorem Flash.bootSize_lt (f : Flash) (fallback : Nat) : f.bootSize fallback < addressSpace := by
  refine Nat.lt_of_le_of_lt (f.bootSize_le fallback) ?_
  unfold capacity
  split
  · exact UInt32.toNat_lt _
  · exact f.size_lt

theorem Flash.bootSize_mod {f : Flash} {fallback : Nat} (hcap : f.capacity % (2 * sectorSize) = 0)
    (hfallback : fallback % (2 * sectorSize) = 0) : f.bootSize fallback % (2 * sectorSize) = 0 := by
  have hmin : ∀ declared, declared % (2 * sectorSize) = 0 →
      min declared f.capacity % (2 * sectorSize) = 0 := by
    intro declared h
    rcases Nat.le_total declared f.capacity with hle | hle
    · rwa [Nat.min_eq_left hle]
    · rwa [Nat.min_eq_right hle]
  apply hmin
  split
  · split
    · exact Image.Header.flashSize_mod _
    · exact hfallback
  · exact hfallback

theorem Flash.firstImageAddress_le_size {f : Flash} (hclaimed : f.claimed = none)
    (hlarge : 2 * firstImageAddress < f.capacity) : firstImageAddress ≤ f.cells.size := by
  rw [← capacity_of_claimed hclaimed]
  omega

/-- The factory record for the size that a start-up tells fits. -/
theorem Flash.validate_bootSize {f : Flash} {fallback : Nat} (hcap : f.capacity % (2 * sectorSize) = 0)
    (hlarge : 2 * firstImageAddress < f.capacity) (hfallback : fallback % (2 * sectorSize) = 0) :
    (Record.factory (f.bootSize fallback)).validate f.capacity = .ok () := by
  have hle := f.bootSize_le fallback
  refine (Record.validate_factory_iff (f.bootSize_lt _) (bootSize_mod hcap hfallback)).mpr ?_
  omega

namespace FactoryReset

/-- The sizes that a reset can tell. -/
theorem probeSize_cases {r : FactoryReset} (h : r.layout = {}) (f : Flash) :
    r.probeSize f = 0x100000 ∨ r.probeSize f = 0x200000 ∨ r.probeSize f = 0x400000 := by
  have hdefault : r.layout.defaultFlashSize = 0x100000 := by rw [h]
  unfold probeSize
  split
  · split
    · exact .inr (.inl rfl)
    · split
      · exact .inr (.inr rfl)
      · exact .inl hdefault
  · exact .inl hdefault

end FactoryReset

/-! ## The reset -/

/-- A whole word is written while the scratch memory does not fail. -/
theorem Scratch.writeWord_of_free {s : Scratch} {offset : Nat} (h : s.failing = false)
    (hfits : offset + 4 ≤ scratchSize) (hmod : offset % 4 = 0) (word : UInt32) :
    ∃ t, s.writeWord offset word = .ok t ∧ t.failing = false := by
  have hopen : s.refusal offset (Word.toBytes word).length = none := refusal_eq_none_iff.mpr
    ⟨h, by rwa [Word.length_toBytes], hmod, by rw [Word.length_toBytes]⟩
  have hwrite : ∃ t, s.write offset (Word.toBytes word) = .ok t := by
    unfold write
    rw [hopen]
    exact ⟨_, rfl⟩
  obtain ⟨t, ht⟩ := hwrite
  exact ⟨t, ht, (write_eq_ok ht).2.2.trans h⟩

namespace FactoryReset

/-- A request can be made and taken back while the scratch memory does not fail. -/
theorem request_of_free {r : FactoryReset} (h : r.scratch.failing = false) (on : Bool) :
    ∃ scratch, r.request on = (.ok (), { r with scratch }) ∧
      requested { r with scratch } = on ∧ scratch.failing = false := by
  have hfits : resetFlagOffset + 4 ≤ scratchSize := by decide
  obtain ⟨scratch, hwrite, hfree⟩ :=
    Scratch.writeWord_of_free h hfits (by decide) (if on then resetMagic else 0)
  refine ⟨scratch, ?_, ?_, hfree⟩
  · rw [request_eq, hwrite]
  · rw [requested, Scratch.readWord_of_writeWord hwrite]
    cases on with
    | true => rfl
    | false => rfl

/-- The save comes first, and a reset that succeeds has taken its request back. -/
theorem prepare_of_free {r : FactoryReset} (h : r.scratch.failing = false) (store : Store) :
    (r.prepare store).2.1.scratch.failing = false ∧
      (r.prepare store).2.2.flash = (store.flash.saveRecord (.factory (r.probeSize store.flash))).2 ∧
      ∀ c, (r.prepare store).1 = .ok c → (r.prepare store).2.1.requested = false := by
  have hsignal : (r.signal (.blink r.settings.blinkCount r.settings.blinkDelay)).scratch.failing = false := h
  obtain ⟨scratch, hrequest, hoff, hfree⟩ := request_of_free hsignal false
  rw [prepare_eq]
  dsimp only
  split <;> rename_i hsave
  · exact ⟨h, (congrArg (·.2.flash) hsave).symm, nofun⟩
  · rw [hrequest]
    exact ⟨hfree, (congrArg (·.2.flash) hsave).symm, fun _ _ => hoff⟩

/-- While the scratch memory does not fail, a reset ends without its request, whether it was met or not. -/
theorem perform_of_free {r : FactoryReset} (h : r.scratch.failing = false) (store : Store) :
    (r.perform store).1.requested = false ∧
      (r.perform store).2.flash =
        (store.flash.saveRecord (.factory (r.probeSize store.flash))).2 := by
  obtain ⟨hfree, hflash, hoff⟩ := prepare_of_free h store
  unfold perform
  split <;> rename_i hprepare <;> rw [hprepare] at hfree hflash hoff
  · exact ⟨hoff _ rfl, hflash⟩
  · rename_i fault r' store'
    let logged : FactoryReset :=
      { r' with log := r'.log.error component ("reset failed: " ++ fault.message) }
    have hlogged : logged.scratch.failing = false := hfree
    obtain ⟨scratch, hrequest, hoff', -⟩ := request_of_free hlogged false
    dsimp only
    rw [hrequest]
    exact ⟨hoff', hflash⟩

end FactoryReset

namespace Startup

/-- A start-up that finds a request saves the factory record, as far as it fits, and takes it back. -/
theorem run_of_requested {s : Startup} (h : s.reset.requested = true)
    (hscratch : s.reset.scratch.failing = false) :
    s.run.1 = .restarted ∧ s.run.2.reset.requested = false ∧
      s.run.2.store.flash =
        (s.store.flash.saveRecord (.factory (s.reset.probeSize s.store.flash))).2 := by
  have hpending : (s.signal .init).reset.requested = true := h
  have hfree : (s.reset.signal .init).scratch.failing = false := hscratch
  obtain ⟨hoff, hflash⟩ := FactoryReset.perform_of_free hfree s.store
  unfold run
  dsimp only
  rw [if_pos hpending]
  exact ⟨rfl, hoff, hflash⟩

theorem run_of_not_requested {s : Startup} (h : s.reset.requested = false) :
    s.run = (s.signal .init).boot := by
  have hnone : ¬ (s.signal .init).reset.requested = true := by
    rw [show (s.signal .init).reset.requested = s.reset.requested from rfl, h]
    exact Bool.false_ne_true
  unfold run
  dsimp only
  rw [if_neg hnone]

/-- What a repair had to do is logged, and nothing else. -/
theorem noteRepair_devices (s : Startup) (r : Record) (repair : Repair) :
    (s.noteRepair r repair).store = s.store ∧ (s.noteRepair r repair).reset = s.reset ∧
      (s.noteRepair r repair).layout = s.layout := by
  cases repair with
  | kept | defaults | selection => exact ⟨rfl, rfl, rfl⟩

/-- A start-up whose repair succeeds hands the record on and switches the indicator on. -/
theorem boot_of_ok {s : Startup} {r : Record} {repair : Repair}
    (h : (s.store.ensureValid (s.store.flash.bootSize s.layout.defaultFlashSize)).1 = .ok (r, repair)) :
    s.boot.1 = .booting ⟨r, s.store.flash.bootSize s.layout.defaultFlashSize, repair⟩ ∧
      s.boot.2.store = (s.store.ensureValid (s.store.flash.bootSize s.layout.defaultFlashSize)).2 ∧
      s.boot.2.reset = s.reset.signal .on ∧ s.boot.2.layout = s.layout := by
  unfold boot
  dsimp only
  split <;> rename_i heq <;> rw [heq] at h
  · exact nomatch h
  · rename_i record done store
    obtain ⟨rfl, rfl⟩ := Prod.mk.inj (Except.ok.inj h)
    obtain ⟨hstore, hreset, hlayout⟩ := noteRepair_devices { s with store } record done
    rw [heq]
    exact ⟨rfl, hstore, congrArg (·.signal .on) hreset, hlayout⟩

/-- A start-up whose repair fails reports the fault and does nothing more. -/
theorem boot_of_error {s : Startup} {fault : RecordFault}
    (h : (s.store.ensureValid (s.store.flash.bootSize s.layout.defaultFlashSize)).1 = .error fault) :
    s.boot.1 = .failed fault.toFault ∧
      s.boot.2.store = (s.store.ensureValid (s.store.flash.bootSize s.layout.defaultFlashSize)).2 ∧
      s.boot.2.reset = s.reset := by
  unfold boot
  dsimp only
  split <;> rename_i heq <;> rw [heq] at h
  · obtain rfl := Except.error.inj h
    rw [heq]
    exact ⟨rfl, rfl, rfl⟩
  · exact nomatch h

/-- Without faults, a start-up hands on the record that the repair leaves. -/
theorem boot_of_free {s : Startup} (hfaults : s.store.flash.faults = {})
    (hsize : firstImageAddress ≤ s.store.flash.cells.size)
    (hvalid : (s.store.settled (s.store.flash.bootSize s.layout.defaultFlashSize)).validate
      s.store.flash.capacity = .ok ()) :
    ∃ report, s.boot.1 = .booting report ∧
      report.record = s.store.settled (s.store.flash.bootSize s.layout.defaultFlashSize) := by
  obtain ⟨repair, hrepair⟩ := Store.ensureValid_of_free hfaults hsize hvalid
  exact ⟨_, (boot_of_ok hrepair).1, rfl⟩

/-- A start-up comes up with a factory record unless another sound table is stored. -/
theorem run_of_free {s : Startup} (hnone : s.reset.requested = false) (hlayout : s.layout = {})
    (hfaults : s.store.flash.faults = {}) (hclaimed : s.store.flash.claimed = none)
    (hcap : s.store.flash.capacity % (2 * sectorSize) = 0)
    (hlarge : 2 * firstImageAddress < s.store.flash.capacity) :
    ∃ report, s.run.1 = .booting report ∧
      (report.record.IsFactory ↔
        ∀ r, s.store.stored = .ok r → r.LayoutOk s.store.flash.capacity → r.mend.IsFactory) := by
  have hfallback : s.layout.defaultFlashSize % (2 * sectorSize) = 0 := by
    rw [hlayout]
    decide
  have hsize := Flash.firstImageAddress_le_size hclaimed hlarge
  have hvalid := Store.validate_settled_of_factory (Flash.validate_bootSize hcap hlarge hfallback)
  obtain ⟨report, hreport, hrecord⟩ := (s.signal .init).boot_of_free hfaults hsize hvalid
  refine ⟨report, ?_, ?_⟩
  · rw [run_of_not_requested hnone]
    exact hreport
  · rw [hrecord]
    exact Store.isFactory_settled_iff (s.store.flash.bootSize_lt _)

end Startup

/-! ## The start-up after a reset -/

theorem FactoryReset.probeSize_lt {r : FactoryReset} (h : r.layout = {}) (f : Flash) :
    r.probeSize f < addressSpace := by
  obtain heq | heq | heq := probeSize_cases h f <;> rw [heq] <;> decide

theorem FactoryReset.probeSize_mod {r : FactoryReset} (h : r.layout = {}) (f : Flash) :
    r.probeSize f % (2 * sectorSize) = 0 := by
  obtain heq | heq | heq := probeSize_cases h f <;> rw [heq] <;> decide

/-- The reset's record fits where its second slot does. -/
theorem FactoryReset.validate_probeSize {r : FactoryReset} (h : r.layout = {}) (f : Flash) :
    (Record.factory (r.probeSize f)).validate f.capacity = .ok () ↔
      r.probeSize f / 2 + firstImageAddress < f.capacity :=
  Record.validate_factory_iff (probeSize_lt h f) (probeSize_mod h f)

/-- The start-up after a reset, on the same devices, comes up with a factory record exactly where the reset
could save one, or where no other sound table was stored. -/
theorem Startup.reset_applied_iff {s s' : Startup} (hfaults : s.store.flash.faults = {})
    (hclaimed : s.store.flash.claimed = none) (hscratch : s.reset.scratch.failing = false)
    (hreset : s.reset.layout = {}) (hlayout : s'.layout = {})
    (hcap : s.store.flash.capacity % (2 * sectorSize) = 0)
    (hlarge : 2 * firstImageAddress < s.store.flash.capacity) (hrequested : s.reset.requested = true)
    (hflash : s'.store.flash = s.run.2.store.flash)
    (hkept : s'.reset.scratch = s.run.2.reset.scratch) :
    s.run.1 = .restarted ∧ ∃ report, s'.run.1 = .booting report ∧
      (report.record.IsFactory ↔
        s.reset.probeSize s.store.flash / 2 + firstImageAddress < s.store.flash.capacity ∨
          ∀ r, s.store.stored = .ok r → r.LayoutOk s.store.flash.capacity → r.mend.IsFactory) := by
  obtain ⟨hrestarted, hoff, hsaved⟩ := run_of_requested hrequested hscratch
  rw [hsaved] at hflash
  have hnone : s'.reset.requested = false := by
    rw [← hoff, FactoryReset.requested, FactoryReset.requested, hkept]
  have hsize := Flash.firstImageAddress_le_size hclaimed hlarge
  obtain ⟨hcap', hclaimed', hfaults'⟩ :=
    s.store.flash.saveRecord_device (.factory (s.reset.probeSize s.store.flash))
  rw [← hflash] at hcap' hclaimed' hfaults'
  obtain ⟨report, hreport, hiff⟩ := run_of_free hnone hlayout (hfaults'.trans hfaults)
    (hclaimed'.trans hclaimed) (by rw [hcap']; exact hcap) (by rw [hcap']; exact hlarge)
  refine ⟨hrestarted, report, hreport, hiff.trans ?_⟩
  have hvalid := FactoryReset.validate_probeSize hreset s.store.flash
  by_cases hfits : s.reset.probeSize s.store.flash / 2 + firstImageAddress < s.store.flash.capacity
  · have hstored : s'.store.stored = .ok (.factory (s.reset.probeSize s.store.flash)) := by
      rw [Store.stored, hflash]
      exact Flash.storedRecord_saveRecord rfl rfl (hvalid.mpr hfits) hsize hfaults
    refine ⟨fun _ => .inl hfits, fun _ r hr _ => ?_⟩
    obtain rfl := Except.ok.inj (hstored.symm.trans hr)
    rw [Record.mend_factory]
    exact Record.isFactory_factory (s.reset.probeSize_lt hreset _)
  · -- nothing was saved
    have hsame : s'.store.flash = s.store.flash := by
      rw [hflash]
      exact Flash.saveRecord_eq_self fun hok => hfits (hvalid.mp hok)
    rw [Store.stored, hsame, or_iff_right hfits]
    rfl

/-- A start-up with a pending request, on a flash on which nothing but the record was stored. -/
def Startup.pending (r : Record) : Startup where
  store := { flash := Engine.provisionedFlash r }
  reset := (FactoryReset.request { scratch := .zeroed, indicator := {} } true).2

/-- The next start-up, built anew on the same devices. -/
def Startup.following (s : Startup) : Startup where
  store := { flash := s.run.2.store.flash }
  reset := s.run.2.reset
  layout := s.layout

theorem Startup.flash_following (s : Startup) : s.following.store.flash = s.run.2.store.flash := rfl

theorem Startup.scratch_following (s : Startup) : s.following.reset.scratch = s.run.2.reset.scratch := rfl

/-- A record that is no factory's for flash of any size. -/
def customRecord : Record :=
  Engine.movedRecord.select 1

/-- On 64 KiB the reset saves nothing, and the start-up after it comes up with the stored record. -/
theorem Startup.reset_not_applied_custom :
    (pending customRecord).reset.requested = true ∧
      (pending customRecord).store.flash.capacity = Engine.provisionedSize ∧
      (pending customRecord).run.1 = .restarted ∧
      ∃ report, (pending customRecord).following.run.1 = .booting report ∧ ¬ report.record.IsFactory := by
  have hvalid := (Record.validate_eq_ok_iff customRecord Engine.provisionedSize).mpr (by decide)
  have hload : (pending customRecord).store.load = .ok customRecord :=
    Engine.load_provisioned rfl rfl hvalid
  have hfaults : (pending customRecord).store.flash.faults = {} :=
    Engine.faults_provisioned customRecord
  have hclaimed : (pending customRecord).store.flash.claimed = none :=
    Engine.claimed_provisioned customRecord
  have hcapacity : (pending customRecord).store.flash.capacity = Engine.provisionedSize :=
    Engine.capacity_provisioned customRecord
  have hzeroed : ({ scratch := .zeroed, indicator := {} } : FactoryReset).scratch.failing = false := rfl
  obtain ⟨scratch, hrequest, hon, hfree⟩ := FactoryReset.request_of_free hzeroed true
  have hreset : (pending customRecord).reset = { scratch, indicator := {} } := congrArg Prod.snd hrequest
  have hrequested : (pending customRecord).reset.requested = true := by rw [hreset]; exact hon
  have hlayout : (pending customRecord).reset.layout = {} := by rw [hreset]
  have hnext : (pending customRecord).following.layout = {} := rfl
  obtain ⟨hrestarted, report, hreport, hiff⟩ := reset_applied_iff hfaults hclaimed
    (by rw [hreset]; exact hfree) hlayout hnext (by rw [hcapacity]; decide) (by rw [hcapacity]; decide)
    hrequested (flash_following _) (scratch_following _)
  refine ⟨hrequested, hcapacity, hrestarted, report, hreport, fun hfactory => ?_⟩
  rcases hiff.mp hfactory with hfits | hall
  · -- the smallest size that a reset can tell is too large
    rw [hcapacity] at hfits
    obtain heq | heq | heq := FactoryReset.probeSize_cases hlayout (pending customRecord).store.flash <;>
      rw [heq] at hfits <;> exact absurd hfits (by decide)
  · have hstored := (Flash.loadRecord_eq_ok_iff.mp hload).1
    have hcustom := hall customRecord hstored (Flash.layoutOk_of_load hload)
    exact absurd hcustom.current (by decide)

end BootSlots
