import BootSlots.Proofs.Record.Selection

/-
  The record's sector under all that the components do to a flash. They erase it, or they erase it and
  program a whole record at once; all else that they do lies above it. So the sector holds at any point what
  it held at first, nothing, or a record that was programmed on the way.

  Proved:
  * `Orderly.slice_record`: what operations of that kind leave in the sector.
  * `saves_selectSlot`, `saves_ensureValid`: a store carries out one save of a sound record at most, and no
    call of it does anything else to the flash.
  * `loadRecord_origin`: where a record comes from that can be loaded.
-/

namespace BootSlots

/-- The operation keeps to addresses where images may lie. -/
def FlashOp.Above (op : FlashOp) : Prop :=
  ∀ x, op.Covers x → firstImageAddress ≤ x

theorem FlashOp.Within.above {op : FlashOp} {start limit : Nat} (h : op.Within start limit)
    (hstart : firstImageAddress ≤ start) : op.Above :=
  fun x hx => Nat.le_trans hstart (Nat.le_trans (h x hx).1 (sectorStart_le x))

/-! ## Orderly lists of operations -/

/-- Operations above the record's sector, erases of it, and whole saves of records with the property `P`. -/
inductive Orderly (P : Record → Prop) : List FlashOp → Prop
  | nil : Orderly P []
  | above {op : FlashOp} {ops : List FlashOp} : op.Above → Orderly P ops → Orderly P (op :: ops)
  | blank {ops : List FlashOp} : Orderly P ops → Orderly P (.erase recordSector :: ops)
  | save {r : Record} {ops : List FlashOp} : P r → Orderly P ops → Orderly P (r.saveOps ++ ops)

namespace Orderly

variable {P : Record → Prop} {ops ops' : List FlashOp}

theorem of_above (h : ∀ op ∈ ops, op.Above) : Orderly P ops := by
  induction ops with
  | nil => exact .nil
  | cons op ops ih =>
    obtain ⟨hop, hops⟩ := List.forall_mem_cons.mp h
    exact .above hop (ih hops)

theorem append (h : Orderly P ops) (h' : Orderly P ops') : Orderly P (ops ++ ops') := by
  induction h with
  | nil => exact h'
  | above hop _ ih => exact .above hop ih
  | blank _ ih => exact .blank ih
  | save hr _ ih =>
    rw [List.append_assoc]
    exact .save hr ih

/-- An initial part is orderly too: a save that is cut short is an erase. -/
theorem take (h : Orderly P ops) (k : Nat) : Orderly P (ops.take k) := by
  induction h generalizing k with
  | nil =>
    rw [List.take_nil]
    exact .nil
  | above hop _ ih =>
    cases k with
    | zero => exact .nil
    | succ k => exact .above hop (ih k)
  | blank _ ih =>
    cases k with
    | zero => exact .nil
    | succ k => exact .blank (ih k)
  | save hr _ ih =>
    match k with
    | 0 => exact .nil
    | 1 => exact .blank .nil
    | k + 2 => exact .save hr (ih k)

end Orderly

/-! ## What is in the sector -/

/-- The sector holds what it held before, nothing, or a record with the property `P`. -/
def SectorHolds (P : Record → Prop) (before sector : List UInt8) : Prop :=
  sector = before ∨ sector = List.replicate sectorSize erased ∨ ∃ r, P r ∧ sector = r.storedSector

theorem SectorHolds.mono {P P' : Record → Prop} {before sector : List UInt8}
    (h : SectorHolds P before sector) (himp : ∀ r, P r → P' r) : SectorHolds P' before sector :=
  h.imp_right (Or.imp_right fun ⟨r, hr, heq⟩ => ⟨r, himp r hr, heq⟩)

theorem SectorHolds.trans {P : Record → Prop} {before between sector : List UInt8}
    (h : SectorHolds P before between) (h' : SectorHolds P between sector) :
    SectorHolds P before sector := by
  rcases h' with rfl | hblank | hstored
  · exact h
  · exact .inr (.inl hblank)
  · exact .inr (.inr hstored)

/-- After orderly operations a stored record is one that they programmed. -/
theorem Orderly.slice_record {P : Record → Prop} {ops : List FlashOp} (h : Orderly P ops) {m : Memory}
    (hsize : firstImageAddress ≤ m.size) :
    SectorHolds (fun r => P r ∧ .program recordAddress r.encode ∈ ops)
      (m.slice recordAddress sectorSize) ((m.replay ops).slice recordAddress sectorSize) := by
  induction h generalizing m with
  | nil => exact .inl rfl
  | @above op ops hop _ ih =>
    have hsame : (op.applyTo m).slice recordAddress sectorSize = m.slice recordAddress sectorSize :=
      Memory.slice_congr fun x _ hx =>
        FlashOp.getElem?_applyTo_of_not_covers (fun hc => Nat.not_lt.mpr (hop x hc) hx) m
    have hrest := @ih (op.applyTo m) (by rwa [FlashOp.size_applyTo])
    rw [hsame] at hrest
    rw [Memory.replay_cons]
    exact hrest.mono fun r hr => ⟨hr.1, List.mem_cons_of_mem _ hr.2⟩
  | @blank ops _ ih =>
    have hblank := Memory.slice_replay_eraseRecord hsize
    have hrest := @ih (m.replay [.erase recordSector]) (by rwa [Memory.size_replay])
    rw [← List.singleton_append, Memory.replay_append]
    refine SectorHolds.trans (.inr (.inl hblank)) (hrest.mono fun r hr => ⟨hr.1, ?_⟩)
    exact List.mem_append_right _ hr.2
  | @save r ops hr _ ih =>
    have hstored := Memory.slice_replay_saveOps r hsize
    have hrest := @ih (m.replay r.saveOps) (by rwa [Memory.size_replay])
    have hmem : FlashOp.program recordAddress r.encode ∈ r.saveOps ++ ops :=
      List.mem_append_left _ (List.mem_cons_of_mem _ List.mem_cons_self)
    rw [Memory.replay_append]
    refine SectorHolds.trans (.inr (.inr ⟨r, ⟨hr, hmem⟩, hstored⟩)) (hrest.mono fun r' hr' => ⟨hr'.1, ?_⟩)
    exact List.mem_append_right _ hr'.2

/-! ## Saves -/

theorem FlashOp.within_eraseRecord :
    (FlashOp.erase recordSector).Within recordAddress firstImageAddress :=
  Record.within_of_mem_saveOps (r := .factory 0) List.mem_cons_self

namespace Flash

/-- `g` is `f` after one save of a sound record, whole or cut short after its erase, or `f` itself. -/
inductive Saves (f : Flash) : Flash → Prop
  | nothing : f.Saves f
  | blank : f.Saves (f.perform (.erase recordSector))
  | whole {r : Record} : r.validate f.capacity = .ok () → f.Saves (f.performAll r.saveOps)

theorem Saves.performAll {f g : Flash} (h : f.Saves g) :
    ∃ ops, g = f.performAll ops ∧ Orderly (·.validate f.capacity = .ok ()) ops ∧
      ∀ op ∈ ops, op.Within recordAddress firstImageAddress := by
  cases h with
  | nothing => exact ⟨[], rfl, .nil, nofun⟩
  | blank =>
    refine ⟨[.erase recordSector], rfl, .blank .nil, fun op hop => ?_⟩
    rw [List.mem_singleton.mp hop]
    exact FlashOp.within_eraseRecord
  | @whole r hr =>
    refine ⟨r.saveOps, rfl, ?_, fun _ hop => Record.within_of_mem_saveOps hop⟩
    rw [← List.append_nil r.saveOps]
    exact .save hr .nil

/-- Saves leave the images as they are. -/
theorem Saves.getElem?_cells {f g : Flash} (h : f.Saves g) {x : Nat} (hx : firstImageAddress ≤ x) :
    g.cells[x]? = f.cells[x]? := by
  obtain ⟨ops, rfl, -, hops⟩ := h.performAll
  exact (reaches_performAll f hops).getElem?_cells fun _ hop => hop.not_covers_of_ge (by decide) hx

theorem saves_saveRecord (f : Flash) (r : Record) : f.Saves (f.saveRecord r).2 := by
  rw [saveRecord_eq]
  split
  · exact .nothing
  · rename_i hv
    split
    · exact .nothing
    · rename_i g hg
      obtain ⟨-, -, rfl⟩ := erase_eq_ok_iff.mp hg
      split
      · exact .blank
      · rename_i g' hg'
        obtain ⟨-, -, rfl⟩ := program_eq_ok_iff.mp hg'
        rw [← performAll_saveOps]
        exact .whole hv

end Flash

namespace Store

theorem flash_save (s : Store) (r : Record) : (s.save r).2.flash = (s.flash.saveRecord r).2 := rfl

theorem saves_of_save {s s' : Store} {r : Record} {res : Except RecordFault Unit}
    (h : s.save r = (res, s')) : s.flash.Saves s'.flash := by
  have hsave := s.flash.saves_saveRecord r
  rw [← flash_save, h] at hsave
  exact hsave

theorem saves_currentSlot (s : Store) : s.flash.Saves s.currentSlot.2.flash := by
  unfold currentSlot
  split
  · exact .nothing
  · exact .nothing

theorem saves_selectSlot (s : Store) (slot : UInt8) : s.flash.Saves (s.selectSlot slot).2.flash := by
  obtain ⟨_, -, heq, -⟩ | ⟨r, -, -, -, hflash⟩ := s.selectSlot_cases slot
  · rw [heq]
    exact .nothing
  · rw [hflash]
    exact s.flash.saves_saveRecord (r.select slot)

theorem saves_restoreDefaults (s : Store) (flashSize : Nat) :
    s.flash.Saves (s.restoreDefaults flashSize).2.flash := by
  unfold restoreDefaults
  dsimp only
  split <;> rename_i hsave
  · exact (saves_of_save hsave :)
  · exact (saves_of_save hsave :)

theorem saves_ensureValid (s : Store) (flashSize : Nat) :
    s.flash.Saves (s.ensureValid flashSize).2.flash := by
  unfold ensureValid
  split
  · exact .nothing
  · exact s.saves_restoreDefaults flashSize
  · split
    · exact .nothing
    · dsimp only
      split <;> rename_i hsave
      · exact (saves_of_save hsave :)
      · exact (saves_of_save hsave :)
    · exact s.saves_restoreDefaults flashSize

end Store

/-! ## Where a stored record comes from -/

namespace Record

/-- No record is read from an erased sector. -/
theorem decode_erased : decode (List.replicate recordSize erased) = .error .corrupted := by
  rfl

/-- What is read from a written record is that record, if anything. -/
theorem eq_of_decode_encode {r c : Record} (h : decode r.encode = .ok c) : c = r := by
  rw [decode_encode_eq_ite] at h
  split at h
  · exact nomatch h
  · exact (Except.ok.inj h).symm

end Record

/-- A record that can be loaded was there at first, or it was programmed on the way. -/
theorem Flash.loadRecord_origin {f g : Flash} {P : Record → Prop} {ops : List FlashOp} {r c : Record}
    (hafter : f.After ops g) (hops : Orderly P ops) (hf : f.loadRecord = .ok r)
    (hg : g.loadRecord = .ok c) : c = r ∨ .program recordAddress c.encode ∈ ops := by
  obtain ⟨-, hsize, -⟩ := stored_of_load hf
  obtain ⟨-, -, hdecode⟩ := stored_of_load hg
  have hsector := hops.slice_record hsize
  rw [← hafter.cells] at hsector
  rcases hsector with hsame | hblank | ⟨r', ⟨-, hmem⟩, hstored⟩
  · exact .inl (record_unique hf hg hsame)
  · rw [Memory.slice_record, hblank, List.take_replicate] at hdecode
    exact nomatch Record.decode_erased.symm.trans hdecode
  · rw [Memory.slice_record, hstored, Record.take_storedSector] at hdecode
    exact .inr (Record.eq_of_decode_encode hdecode ▸ hmem)

end BootSlots
