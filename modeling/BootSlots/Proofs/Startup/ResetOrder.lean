import BootSlots.FactoryReset
import BootSlots.Proofs.Device.WorkStates
import BootSlots.Proofs.Record.Saving

/-
  A factory reset step by step. It changes two devices, the flash that holds the record and the scratch
  memory that holds the request, and either may fail at any step. The steps are those of the program that the
  reset runs, so the devices can be looked at between any two of them.

  Proved:
  * `cells_of_mem_states_save`: a save touches the record's sector only, at all times.
  * `mem_states_cases`: the reset first saves, then takes the request back, and that only after a save that
    succeeded.
  * `left_of_ok`, `left_of_error`: what the answer of a reset tells about the devices.
  * `reset_order`: what is true between any two steps, and at the end, whether the reset is met or not.
-/

namespace BootSlots

/-- The two memories that keep what they hold over a restart. -/
structure Devices where
  flash : Flash
  scratch : Scratch

namespace Devices

/-- What is in the record's sector. -/
def recordBytes (d : Devices) : List UInt8 :=
  d.flash.cells.slice recordAddress sectorSize

/-- Only the record's sector and the request differ. -/
structure Confined (d d' : Devices) : Prop where
  flash : ∀ x, x < recordAddress ∨ firstImageAddress ≤ x → d'.flash.cells[x]? = d.flash.cells[x]?
  scratch : ∀ x, x < resetFlagOffset ∨ resetFlagOffset + 4 ≤ x →
    d'.scratch.cells[x]? = d.scratch.cells[x]?

end Devices

/-! ## The work on each device -/

theorem Record.only_saveWork (r : Record) (capacity : Nat) :
    (r.saveWork capacity).Only (· ∈ r.saveOps) := by
  unfold saveWork
  cases r.validate capacity with
  | error fault => trivial
  | ok _ =>
    refine ⟨List.mem_cons_self, fun answer => ?_⟩
    cases answer with
    | error fault => trivial
    | ok _ =>
      refine ⟨List.mem_cons_of_mem _ List.mem_cons_self, fun answer => ?_⟩
      cases answer <;> trivial

/-- A save touches the record's sector only, at all times. -/
theorem Flash.cells_of_mem_states_save {f : Flash} {r : Record} {capacity : Nat} :
    ∀ g ∈ (r.saveWork capacity).states carryOut f,
      ∀ x, x < recordAddress ∨ firstImageAddress ≤ x → g.cells[x]? = f.cells[x]? := by
  refine Work.forall_states (r.only_saveWork capacity) ?_ fun _ _ => rfl
  intro g op hop hsame x hx
  by_cases hadmits : g.Admits op
  · have hwithin := Record.within_of_mem_saveOps hop
    have hnot : ¬ op.Covers x := by
      rcases hx with hlt | hge
      · exact hwithin.not_covers_of_lt hlt
      · exact hwithin.not_covers_of_ge (by decide) hge
    rw [carryOut_of_admits hadmits, cells_perform, FlashOp.getElem?_applyTo_of_not_covers hnot]
    exact hsame x hx
  · obtain ⟨fault, hfails⟩ := carryOut_of_not_admits hadmits
    rw [hfails]
    exact hsame x hx

/-- A request touches its word only, at all times. -/
theorem Scratch.cells_of_mem_states_request {s : Scratch} {on : Bool} :
    ∀ t ∈ (FactoryReset.requestWork on).states carryOut s,
      ∀ x, x < resetFlagOffset ∨ resetFlagOffset + 4 ≤ x → t.cells[x]? = s.cells[x]? := by
  have honly : (FactoryReset.requestWork on).Only (·.offset = resetFlagOffset) := by
    refine ⟨rfl, fun answer => ?_⟩
    cases answer <;> trivial
  refine Work.forall_states honly ?_ fun _ _ => rfl
  intro t w hw hsame x hx
  rw [carryOut]
  split
  · exact hsame x hx
  · rename_i t' hwrite
    obtain ⟨-, hcells, -⟩ := write_eq_ok hwrite
    rw [← hsame x hx, hcells, hw, Memory.put]
    rcases hx with hlt | hge
    · exact Memory.getElem?_overlay_of_lt hlt
    · exact Memory.getElem?_overlay_of_ge (by rw [Word.length_toBytes]; exact hge)

/-! ## What the two devices answer -/

/-- Whatever the reason, a word that cannot be written is a fault of the scratch memory. -/
theorem Scratch.writeWord_fault {s : Scratch} {offset : Nat} {word : UInt32} {fault : DeviceFault}
    (h : s.writeWord offset word = .error fault) : fault.toFault = .scratchMemoryError := by
  unfold writeWord write refusal at h
  split at h
  · rename_i fault' hrefusal
    rw [← Except.error.inj h]
    split at hrefusal
    · rw [← Option.some.inj hrefusal]
      rfl
    · split at hrefusal
      · rw [← Option.some.inj hrefusal]
        rfl
      · exact nomatch hrefusal
  · exact nomatch h

/-- What does not pass the check breaks a rule of the slot table. -/
theorem Record.validate_fault {r : Record} {flashSize : Nat} {fault : RecordFault}
    (h : r.validate flashSize = .error fault) : fault.toFault = .invalidBootConfig := by
  unfold validate at h
  split at h
  · rw [← Except.error.inj h]
    rfl
  · split at h
    · rw [← Except.error.inj h]
      rfl
    · exact nomatch h

namespace FactoryReset

/-- The record that a reset is to store. -/
def target (r : FactoryReset) (store : Store) : Record :=
  .factory (r.probeSize store.flash)

/-- The devices of a reset. -/
def devices (r : FactoryReset) (store : Store) : Devices :=
  ⟨store.flash, r.scratch⟩

/-- The devices at first, and after each step of a reset. -/
def states (r : FactoryReset) (store : Store) : List Devices :=
  ((r.prepareWork store).states take (r, store)).map fun d => d.1.devices d.2

/-- The devices at the end of a reset. -/
def left (r : FactoryReset) (store : Store) : Devices :=
  (r.prepare store).2.1.devices (r.prepare store).2.2

variable {r : FactoryReset} {store : Store} {d : Devices}

/-! ## The order of the two devices -/

theorem states_flashWork {α : Type} (w : Work FlashOp α) (r : FactoryReset) (store : Store) :
    (w.mapCalls .flash).states take (r, store) =
      (w.states Flash.carryOut store.flash).map fun flash => (r, { store with flash }) :=
  Work.states_mapCalls (fun flash => (r, { store with flash })) (fun _ _ => rfl) w store.flash

theorem states_scratchWork {α : Type} (w : Work Scratch.WordWrite α) (r : FactoryReset) (store : Store) :
    (w.mapCalls .scratch).states take (r, store) =
      (w.states Scratch.carryOut r.scratch).map fun scratch => ({ r with scratch }, store) :=
  Work.states_mapCalls (fun scratch => ({ r with scratch }, store)) (fun _ _ => rfl) w r.scratch

/-- After the save a reset takes the request back, and the flash stays as it is. -/
theorem mem_states_clear {now : FactoryReset × Store} {size : Nat}
    (h : now ∈ (clearWork size).states take (r, store)) :
    ∃ scratch ∈ (requestWork false).states Scratch.carryOut r.scratch,
      now.1.devices now.2 = ⟨store.flash, scratch⟩ := by
  have hlast : ((requestWork false).run Scratch.carryOut r.scratch).2 ∈
      (requestWork false).states Scratch.carryOut r.scratch := Work.run_mem_states _ _
  rcases Work.mem_states_bind h with hclearing | hdone
  · rw [states_scratchWork] at hclearing
    obtain ⟨scratch, hmem, rfl⟩ := List.mem_map.mp hclearing
    exact ⟨scratch, hmem, rfl⟩
  · rw [run_scratchWork] at hdone
    refine ⟨_, hlast, ?_⟩
    dsimp only at hdone
    split at hdone
    · rw [List.mem_singleton.mp hdone]
      rfl
    · -- only the log changes
      rcases List.mem_cons.mp hdone with rfl | hlogged
      · rfl
      · rw [List.mem_singleton.mp hlogged]
        rfl

/-- First the record is saved, and the scratch memory stays as it is. Only once the record is stored the
request is taken back, and the flash stays as it is. -/
theorem mem_states_cases (h : d ∈ r.states store) :
    (∃ flash ∈ ((r.target store).saveWork store.flash.capacity).states Flash.carryOut store.flash,
      d = ⟨flash, r.scratch⟩) ∨
    ((store.flash.saveRecord (r.target store)).1 = .ok () ∧
      ∃ scratch ∈ (requestWork false).states Scratch.carryOut r.scratch,
        d = ⟨(store.flash.saveRecord (r.target store)).2, scratch⟩) := by
  obtain ⟨now, hnow, rfl⟩ := List.mem_map.mp h
  rcases List.mem_cons.mp hnow with rfl | hnow
  · exact .inl ⟨_, Work.mem_states _ _, rfl⟩
  rw [take] at hnow
  rcases Work.mem_states_bind hnow with hsaving | hsaved
  · rw [states_flashWork] at hsaving
    obtain ⟨flash, hmem, rfl⟩ := List.mem_map.mp hsaving
    exact .inl ⟨flash, hmem, rfl⟩
  have hlast : (store.flash.saveRecord (r.target store)).2 ∈
      ((r.target store).saveWork store.flash.capacity).states Flash.carryOut store.flash :=
    Work.run_mem_states _ _
  have hsave : ((r.target store).saveWork store.flash.capacity).run Flash.carryOut store.flash =
      store.flash.saveRecord (r.target store) := rfl
  rw [run_flashWork] at hsaved
  dsimp only at hsaved
  rw [← target, hsave] at hsaved
  split at hsaved
  · rw [List.mem_singleton.mp hsaved]
    exact .inl ⟨_, hlast, rfl⟩
  · rename_i hok
    obtain ⟨scratch, hmem, hnow⟩ := mem_states_clear hsaved
    exact .inr ⟨hok, scratch, hmem, hnow⟩

/-- At each point of a reset the request is as before, or the record is stored. -/
theorem request_kept (h : d ∈ r.states store) :
    d.scratch = r.scratch ∨ d.recordBytes = (r.target store).storedSector := by
  obtain ⟨flash, -, rfl⟩ | ⟨hsaved, scratch, -, rfl⟩ := mem_states_cases h
  · exact .inl rfl
  · exact .inr (Flash.slice_record_of_saved hsaved)

/-- At each point of a reset all else is as before. -/
theorem confined (h : d ∈ r.states store) : (r.devices store).Confined d := by
  obtain ⟨flash, hmem, rfl⟩ | ⟨-, scratch, hmem, rfl⟩ := mem_states_cases h
  · exact ⟨Flash.cells_of_mem_states_save flash hmem, fun _ _ => rfl⟩
  · exact ⟨Flash.cells_of_mem_states_save _ (Work.run_mem_states _ _),
      Scratch.cells_of_mem_states_request scratch hmem⟩

/-- The devices at the end of a reset are those after its last step. -/
theorem getLast?_states (r : FactoryReset) (store : Store) :
    (r.states store).getLast? = some (r.left store) := by
  rw [states, List.getLast?_map, Work.getLast?_states]
  rfl

/-! ## The answer of a reset -/

/-- What comes of a reset: its answer and the devices. -/
theorem outcome_eq (r : FactoryReset) (store : Store) :
    ((r.prepare store).1, r.left store) =
      match store.flash.saveRecord (r.target store) with
      | (.error fault, flash) => (.error fault.toFault, ⟨flash, r.scratch⟩)
      | (.ok (), flash) =>
        match r.scratch.writeWord resetFlagOffset 0 with
        | .error fault => (.error fault.toFault, ⟨flash, r.scratch⟩)
        | .ok scratch => (.ok (r.target store), ⟨flash, scratch⟩) := by
  have hsize (s : Signal) : (r.signal s).probeSize store.flash = r.probeSize store.flash := rfl
  have hscratch (s : Signal) : (r.signal s).scratch = r.scratch := rfl
  unfold left target
  rw [prepare_eq]
  unfold Store.save
  dsimp only
  rw [hsize]
  obtain ⟨saved, flash⟩ := store.flash.saveRecord (.factory (r.probeSize store.flash))
  cases saved with
  | error fault => rfl
  | ok _ =>
    dsimp only
    rw [request_eq, hscratch]
    simp only [Bool.false_eq_true, if_false]
    cases r.scratch.writeWord resetFlagOffset 0 with
    | error fault => rfl
    | ok scratch => rfl

/-- A reset that is met has stored the record and taken the request back. -/
theorem left_of_ok {record : Record} (h : (r.prepare store).1 = .ok record) :
    record = r.target store ∧ (r.left store).recordBytes = (r.target store).storedSector ∧
      (r.left store).scratch.readWord resetFlagOffset = .ok 0 := by
  have heq := r.outcome_eq store
  rw [h] at heq
  split at heq
  · exact nomatch congrArg Prod.fst heq
  · rename_i flash hsave
    split at heq
    · exact nomatch congrArg Prod.fst heq
    · rename_i scratch hwrite
      obtain ⟨hrecord, hleft⟩ := Prod.mk.inj heq
      have hsector := Flash.slice_record_of_saved (congrArg Prod.fst hsave)
      rw [hsave] at hsector
      rw [hleft]
      exact ⟨Except.ok.inj hrecord, hsector, Scratch.readWord_of_writeWord hwrite⟩

/-- A reset that is not met leaves the request, and its fault tells what it leaves on the flash. -/
theorem left_of_error {fault : Fault} (h : (r.prepare store).1 = .error fault) :
    (r.left store).scratch = r.scratch ∧
      (fault = .invalidBootConfig ∧ (r.left store).flash = store.flash ∨
        fault = .configWriteFailed ∧
          ((r.left store).recordBytes = (r.devices store).recordBytes ∨
            (r.left store).recordBytes = List.replicate sectorSize erased) ∨
        fault = .scratchMemoryError ∧ (r.left store).recordBytes = (r.target store).storedSector) := by
  have heq := r.outcome_eq store
  rw [h] at heq
  split at heq
  · -- the save did not succeed
    rename_i saved flash hsave
    obtain ⟨hfault, hleft⟩ := Prod.mk.inj heq
    obtain rfl := Except.error.inj hfault
    rw [hleft]
    refine ⟨rfl, ?_⟩
    have hres : (store.flash.saveRecord (r.target store)).1 = .error saved := congrArg Prod.fst hsave
    cases hv : (r.target store).validate store.flash.capacity with
    | error invalid =>
      have hself := Flash.saveRecord_eq_self (f := store.flash) (r := r.target store)
        (by rw [hv]; exact nofun)
      rw [hsave] at hself
      rw [Flash.saveRecord_eq, hv] at hres
      rw [← Except.error.inj hres, Record.validate_fault hv]
      exact .inl ⟨rfl, hself⟩
    | ok _ =>
      have hsector := Flash.slice_record_of_unsaved (f := store.flash) (r := r.target store)
        (by rw [hres]; exact nofun)
      rw [hsave] at hsector
      rw [Flash.saveRecord_fault hv hres]
      exact .inr (.inl ⟨rfl, hsector⟩)
  · rename_i flash hsave
    split at heq
    · -- the record is stored, but the request could not be taken back
      rename_i device hwrite
      obtain ⟨hfault, hleft⟩ := Prod.mk.inj heq
      obtain rfl := Except.error.inj hfault
      have hsector := Flash.slice_record_of_saved (congrArg Prod.fst hsave)
      rw [hsave] at hsector
      rw [hleft, Scratch.writeWord_fault hwrite]
      exact ⟨rfl, .inr (.inr ⟨rfl, hsector⟩)⟩
    · cases congrArg Prod.fst heq

/-- A request is gone only once the record is stored, at every point between the steps of a reset and whichever
of them fails. -/
theorem reset_order (r : FactoryReset) (store : Store) :
    r.prepare store = (r.prepareWork store).run take (r, store) ∧
      (r.states store).getLast? = some (r.left store) ∧
      (∀ d ∈ r.states store,
        (d.scratch = r.scratch ∨ d.recordBytes = (r.target store).storedSector) ∧
          (r.devices store).Confined d) ∧
      (∀ record, (r.prepare store).1 = .ok record →
        record = r.target store ∧ (r.left store).recordBytes = (r.target store).storedSector ∧
          (r.left store).scratch.readWord resetFlagOffset = .ok 0) ∧
      ∀ fault, (r.prepare store).1 = .error fault →
        (r.left store).scratch = r.scratch ∧
          (fault = .invalidBootConfig ∧ (r.left store).flash = store.flash ∨
            fault = .configWriteFailed ∧
              ((r.left store).recordBytes = (r.devices store).recordBytes ∨
                (r.left store).recordBytes = List.replicate sectorSize erased) ∨
            fault = .scratchMemoryError ∧
              (r.left store).recordBytes = (r.target store).storedSector) :=
  ⟨rfl, r.getLast?_states store, fun _ hmem => ⟨request_kept hmem, confined hmem⟩, fun _ h => left_of_ok h,
    fun _ h => left_of_error h⟩

/-- An erased flash of 16 sectors that does not tell its kind. -/
def erasedStore : Store where
  flash := {
    cells := Array.replicate (16 * sectorSize) erased
    identity := .unreadable
    size_mod := by rw [Array.size_replicate]; rfl
    size_lt := by rw [Array.size_replicate]; decide }

/-- A reset that is to assume 16 sectors, on a scratch memory that fails. -/
def deafReset : FactoryReset where
  scratch := { Scratch.zeroed with failing := true }
  indicator := {}
  layout := { defaultFlashSize := 16 * sectorSize }

/-- Where the scratch memory fails the record is stored, and the request stays. -/
theorem reset_order_deaf :
    (deafReset.prepare erasedStore).1 = .error .scratchMemoryError ∧
      (deafReset.left erasedStore).scratch = deafReset.scratch ∧
      (deafReset.left erasedStore).recordBytes = (Record.factory (16 * sectorSize)).storedSector := by
  have htarget : deafReset.target erasedStore = .factory (16 * sectorSize) := rfl
  have hsize : erasedStore.flash.cells.size = 16 * sectorSize := Array.size_replicate
  have hcapacity : erasedStore.flash.capacity = 16 * sectorSize := hsize
  have hvalid : (Record.factory (16 * sectorSize)).validate erasedStore.flash.capacity = .ok () := by
    rw [hcapacity]
    exact (Record.validate_eq_ok_iff _ _).mpr (by decide)
  have hsave := Flash.saveRecord_eq_ok hvalid (by rw [hsize]; decide) rfl rfl
  have hwrite : deafReset.scratch.writeWord resetFlagOffset 0 = .error .scratchOutOfBounds := rfl
  have hresult : (deafReset.prepare erasedStore).1 = .error .scratchMemoryError := by
    have heq := deafReset.outcome_eq erasedStore
    rw [htarget, hsave, hwrite] at heq
    exact (Prod.mk.inj heq).1
  obtain ⟨-, -, -, -, hfailed⟩ := reset_order deafReset erasedStore
  obtain ⟨hscratch, ⟨hfault, -⟩ | ⟨hfault, -⟩ | ⟨-, hstored⟩⟩ := hfailed _ hresult
  · exact nomatch hfault
  · exact nomatch hfault
  · exact ⟨hresult, hscratch, hstored⟩

end FactoryReset

end BootSlots
