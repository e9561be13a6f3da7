import BootSlots.Proofs.Device.FlashHistory
import BootSlots.Record.Store

/-
  Storing a record and reading it back. A save is two operations, an erase of the record's sector and one
  program of the encoded record, and it stops before one of them or does both. The record that is read
  after both is the one that was saved.

  Proved:
  * `decode_encode`: a record with the right magic and version reads back as itself.
  * `saveRecord_ops`: a save carries out an initial part of `saveOps`, all of it where it succeeds.
  * `storedRecord_program`: what is stored after the record's sector was erased and some bytes programmed.
  * `loadRecord_performAll_saveOps`: what is loaded after a whole save.
  * `slice_record_of_saved`, `saveRecord_unsaved`: what is in the sector after a save, and after one that failed.
-/

namespace BootSlots

/-! ## The stored form -/

namespace Record

theorem exists_addresses (v : Vector UInt32 maxSlots) : ∃ a b c d, v = #v[a, b, c, d] := by
  obtain ⟨⟨xs⟩, hxs⟩ := v
  match xs, hxs with
  | [a, b, c, d], _ => exact ⟨a, b, c, d, rfl⟩

/-- The bytes of a stored record up to the checksum. -/
def sealedFields (r : Record) : List UInt8 :=
  r.encodeFields ++ [checksum r.encodeFields]

theorem encode_eq_append (r : Record) : r.encode = r.sealedFields ++ List.replicate 7 0 := by
  rw [encode, sealedFields, List.append_assoc]
  rfl

/-- Fields with their checksum are read back, unless magic or version is a foreign one, whatever stands in
reserve. -/
theorem decode_sealedFields_append (r : Record) {reserve : List UInt8} (h : reserve.length = 7) :
    decode (r.sealedFields ++ reserve) =
      if r.magic ≠ recordMagic ∨ r.version ≠ recordVersion then .error .corrupted else .ok r := by
  obtain ⟨magic, version, mode, current, count, addresses⟩ := r
  obtain ⟨a, b, c, d, haddresses⟩ := exists_addresses addresses
  have hwords : addresses.toList = [a, b, c, d] := by rw [haddresses]; rfl
  match reserve, h with
  | [_, _, _, _, _, _, _], _ =>
    simp only [sealedFields, encodeFields, Word.toBytes, hwords, List.flatMap_cons, List.flatMap_nil,
      List.cons_append, List.nil_append, decode, Word.ofBytes_toBytes, ne_eq, not_true_eq_false, if_false]
    rw [haddresses]

/-- A written record is read back as itself, unless its magic or version is a foreign one. -/
theorem decode_encode_eq_ite (r : Record) :
    decode r.encode =
      if r.magic ≠ recordMagic ∨ r.version ≠ recordVersion then .error .corrupted else .ok r := by
  rw [encode_eq_append]
  exact decode_sealedFields_append r List.length_replicate

theorem decode_encode (r : Record) (hm : r.magic = recordMagic) (hv : r.version = recordVersion) :
    decode r.encode = .ok r := by
  rw [decode_encode_eq_ite, if_neg]
  rintro (hm' | hv')
  · exact hm' hm
  · exact hv' hv

/-- What is read has the right magic and version, or it is refused as corrupted. -/
theorem decode_cases (bytes : List UInt8) :
    decode bytes = .error .corrupted ∨
      ∃ r, decode bytes = .ok r ∧ r.magic = recordMagic ∧ r.version = recordVersion := by
  unfold decode
  split
  · dsimp only
    split
    · exact .inl rfl
    · rename_i hmarks
      split
      · exact .inl rfl
      · exact .inr ⟨_, rfl, Decidable.of_not_not fun hm => hmarks (.inl hm),
          Decidable.of_not_not fun hv => hmarks (.inr hv)⟩
  · exact .inl rfl

theorem marks_of_decode {bytes : List UInt8} {r : Record} (h : decode bytes = .ok r) :
    r.magic = recordMagic ∧ r.version = recordVersion := by
  obtain hcorrupted | ⟨r', hr', hmarks⟩ := decode_cases bytes
  · exact nomatch hcorrupted.symm.trans h
  · obtain rfl := Except.ok.inj (hr'.symm.trans h)
    exact hmarks

theorem decode_fault {bytes : List UInt8} {fault : RecordFault} (h : decode bytes = .error fault) :
    fault = .corrupted := by
  obtain hcorrupted | ⟨_, hr, -⟩ := decode_cases bytes
  · exact Except.error.inj (h.symm.trans hcorrupted)
  · exact nomatch hr.symm.trans h

/-- The record's sector after a save: the encoded record in an erased sector. -/
def storedSector (r : Record) : List UInt8 :=
  r.encode ++ List.replicate (sectorSize - recordSize) erased

theorem take_storedSector (r : Record) : r.storedSector.take recordSize = r.encode := by
  rw [storedSector, List.take_append_of_le_length (Nat.le_of_eq (length_encode r).symm),
    List.take_of_length_le (Nat.le_of_eq (length_encode r))]

/-- What a save does to the flash. -/
def saveOps (r : Record) : List FlashOp :=
  [.erase recordSector, .program recordAddress r.encode]

theorem within_of_mem_saveOps {r : Record} {op : FlashOp} (h : op ∈ r.saveOps) :
    op.Within recordAddress firstImageAddress := by
  intro x hx
  rw [saveOps, List.mem_cons, List.mem_singleton] at h
  rcases h with rfl | rfl
  · rw [FlashOp.Covers] at hx
    rw [sectorStart, hx]
    decide
  · simp only [FlashOp.Covers, length_encode, recordAddress_eq, recordSize] at hx
    simp only [sectorStart, sectorOf, sectorSize_eq, recordAddress_eq, firstImageAddress_eq]
    omega

end Record

/-- The record stands at the start of its sector. -/
theorem Memory.slice_record (m : Memory) :
    m.slice recordAddress recordSize = (m.slice recordAddress sectorSize).take recordSize := by
  apply List.ext_getElem?
  intro i
  rw [List.getElem?_take, getElem?_slice, getElem?_slice]
  by_cases hi : i < recordSize
  · rw [if_pos hi, if_pos hi, if_pos (Nat.lt_trans hi (by decide))]
  · rw [if_neg hi, if_neg hi]

theorem Memory.slice_replay_eraseRecord {m : Memory} (h : firstImageAddress ≤ m.size) :
    (m.replay [.erase recordSector]).slice recordAddress sectorSize =
      List.replicate sectorSize erased := by
  apply List.ext_getElem?
  intro i
  rw [getElem?_slice, List.getElem?_replicate]
  by_cases hi : i < sectorSize
  · have hsec : sectorOf (recordAddress + i) = recordSector := by
      rw [sectorOf_eq_iff]
      exact ⟨Nat.le_add_right _ _, Nat.add_lt_add_left hi _⟩
    have hx : recordAddress + i < m.size := by
      simp only [sectorSize_eq, recordAddress_eq, firstImageAddress_eq] at *
      omega
    rw [if_pos hi, if_pos hi, replay_cons, replay_nil, ← hsec]
    exact FlashOp.getElem?_applyTo_erase hx
  · rw [if_neg hi, if_neg hi]

/-- What programming from the record's address on leaves of the sector, right after an erase. -/
theorem Memory.slice_replay_program {m : Memory} (bytes : List UInt8) (h : firstImageAddress ≤ m.size) :
    (m.replay [.erase recordSector, .program recordAddress bytes]).slice recordAddress sectorSize =
      (bytes ++ List.replicate (sectorSize - bytes.length) erased).take sectorSize := by
  have hblank : ∀ i, i < sectorSize →
      (m.replay [.erase recordSector])[recordAddress + i]? = some erased := by
    intro i hi
    have := congrArg (·[i]?) (slice_replay_eraseRecord h)
    simpa only [getElem?_slice, List.getElem?_replicate, if_pos hi] using this
  apply List.ext_getElem?
  intro i
  rw [getElem?_slice, List.getElem?_take]
  by_cases hsec : i < sectorSize
  · rw [if_pos hsec, if_pos hsec, ← List.singleton_append, replay_append, replay_cons, replay_nil]
    by_cases hi : i < bytes.length
    · rw [List.getElem?_append_left hi,
        FlashOp.getElem?_applyTo_program (List.getElem?_eq_getElem hi) (hblank i hsec), erased_and,
        List.getElem?_eq_getElem hi]
    · rw [FlashOp.getElem?_applyTo_of_not_covers (by simp only [FlashOp.Covers]; omega), hblank i hsec,
        List.getElem?_append_right (by omega), List.getElem?_replicate, if_pos (by omega)]
  · rw [if_neg hsec, if_neg hsec]

theorem Memory.slice_replay_saveOps {m : Memory} (r : Record) (h : firstImageAddress ≤ m.size) :
    (m.replay r.saveOps).slice recordAddress sectorSize = r.storedSector := by
  rw [Record.saveOps, slice_replay_program r.encode h, Record.length_encode, Record.storedSector]
  apply List.take_of_length_le
  rw [List.length_append, Record.length_encode, List.length_replicate]
  decide

/-! ## Loading and saving -/

namespace Flash

theorem storedRecord_eq_ok_iff {f : Flash} {r : Record} :
    f.storedRecord = .ok r ↔
      f.faults.read = false ∧ firstImageAddress ≤ f.cells.size ∧
        Record.decode (f.cells.slice recordAddress recordSize) = .ok r := by
  have hfit : recordAddress + recordSize ≤ f.cells.size ↔ firstImageAddress ≤ f.cells.size := by
    have := f.size_mod
    simp only [sectorSize_eq, recordAddress_eq, firstImageAddress_eq, recordSize] at *
    omega
  rw [← hfit]
  unfold storedRecord
  constructor
  · intro h
    split at h
    · cases h
    · rename_i bytes hread
      obtain ⟨hf, hs, rfl⟩ := read_eq_ok_iff.mp hread
      exact ⟨hf, hs, h⟩
  · rintro ⟨hf, hs, hd⟩
    rw [read_eq_ok_iff.mpr ⟨hf, hs, rfl⟩]
    exact hd

/-- A part of a padded list that takes in the list itself is that list with less padding. -/
theorem take_padded {bytes : List UInt8} {m n : Nat} (b : UInt8) (h : bytes.length ≤ m) (hm : m ≤ n) :
    ((bytes ++ List.replicate (n - bytes.length) b).take n).take m =
      bytes ++ List.replicate (m - bytes.length) b := by
  rw [List.take_take, Nat.min_eq_left hm, List.take_append, List.take_of_length_le h, List.take_replicate,
    Nat.min_eq_left (Nat.sub_le_sub_right hm _)]

/-- While reads do not fail, what is stored is what the record's place decodes to. -/
theorem storedRecord_eq_decode {f : Flash} (hread : f.faults.read = false)
    (hs : firstImageAddress ≤ f.cells.size) :
    f.storedRecord = Record.decode (f.cells.slice recordAddress recordSize) := by
  have hfits : recordAddress + recordSize ≤ f.cells.size := Nat.le_trans (by decide) hs
  rw [storedRecord, read_eq_ok_iff.mpr ⟨hread, hfits, rfl⟩]

/-- Programming that stops within the record leaves the rest of its place erased. -/
theorem storedRecord_program {f : Flash} {bytes : List UInt8} (hread : f.faults.read = false)
    (hs : firstImageAddress ≤ f.cells.size) (hlength : bytes.length ≤ recordSize) :
    (f.performAll [.erase recordSector, .program recordAddress bytes]).storedRecord =
      Record.decode (bytes ++ List.replicate (recordSize - bytes.length) erased) := by
  have hread' : (f.performAll [.erase recordSector, .program recordAddress bytes]).faults.read = false := by
    rwa [faults_performAll]
  have hs' : firstImageAddress ≤
      (f.performAll [.erase recordSector, .program recordAddress bytes]).cells.size := by
    rwa [cells_performAll, Memory.size_replay]
  rw [storedRecord_eq_decode hread' hs', cells_performAll, Memory.slice_record,
    Memory.slice_replay_program bytes hs]
  exact congrArg Record.decode (take_padded erased hlength (by decide))

theorem storedRecord_performAll_saveOps {f : Flash} (r : Record) (hread : f.faults.read = false)
    (hs : firstImageAddress ≤ f.cells.size) :
    (f.performAll r.saveOps).storedRecord = Record.decode r.encode := by
  have h := storedRecord_program hread hs (Nat.le_of_eq (Record.length_encode r))
  rwa [Record.length_encode, Nat.sub_self, List.replicate_zero, List.append_nil] at h

theorem loadRecord_eq_ok_iff {f : Flash} {r : Record} :
    f.loadRecord = .ok r ↔ f.storedRecord = .ok r ∧ r.validate f.capacity = .ok () := by
  unfold loadRecord
  constructor
  · intro h
    split at h
    · cases h
    · rename_i r' hr
      split at h
      · cases h
      · rename_i hv
        cases h
        exact ⟨hr, hv⟩
  · rintro ⟨hr, hv⟩
    rw [hr]
    simp only [hv]

theorem layoutOk_of_load {f : Flash} {r : Record} (h : f.loadRecord = .ok r) :
    r.LayoutOk f.capacity :=
  ((Record.validate_eq_ok_iff _ _).mp (loadRecord_eq_ok_iff.mp h).2).1

/-- What a load reads: nothing fails, the record is there, and its bytes decode. -/
theorem stored_of_load {f : Flash} {r : Record} (h : f.loadRecord = .ok r) :
    f.faults.read = false ∧ firstImageAddress ≤ f.cells.size ∧
      Record.decode (f.cells.slice recordAddress recordSize) = .ok r :=
  storedRecord_eq_ok_iff.mp (loadRecord_eq_ok_iff.mp h).1

/-- Loading reads the record's sector only. -/
theorem loadRecord_of_slice_eq {f g : Flash} {r : Record} (h : f.loadRecord = .ok r)
    (hslice : g.cells.slice recordAddress recordSize = f.cells.slice recordAddress recordSize)
    (hsize : g.cells.size = f.cells.size) (hcap : g.capacity = f.capacity)
    (hread : g.faults.read = false) : g.loadRecord = .ok r := by
  obtain ⟨-, hv⟩ := loadRecord_eq_ok_iff.mp h
  obtain ⟨-, hs, hd⟩ := stored_of_load h
  refine loadRecord_eq_ok_iff.mpr ⟨storedRecord_eq_ok_iff.mpr ⟨hread, ?_, ?_⟩, ?_⟩
  · rwa [hsize]
  · rwa [hslice]
  · exact (congrArg r.validate hcap).trans hv

/-- Operations above the record leave its sector as it was. -/
theorem slice_record_of_reaches {f g : Flash} {start limit : Nat}
    (h : f.Reaches (·.Within start limit) g) (hstart : firstImageAddress ≤ start) :
    g.cells.slice recordAddress sectorSize = f.cells.slice recordAddress sectorSize :=
  Memory.slice_congr fun _ _ hx =>
    h.getElem?_cells fun _ hop => hop.not_covers_of_lt (Nat.lt_of_lt_of_le hx hstart)

/-- Operations on the record leave everything above it as it was. -/
theorem slice_image_of_reaches {f g : Flash} {start length : Nat}
    (h : f.Reaches (·.Within recordAddress firstImageAddress) g) (hstart : firstImageAddress ≤ start) :
    g.cells.slice start length = f.cells.slice start length :=
  Memory.slice_congr fun _ hx _ =>
    h.getElem?_cells fun _ hop => hop.not_covers_of_ge (by decide) (Nat.le_trans hstart hx)

theorem loadRecord_of_reaches {f g : Flash} {r : Record} {start limit : Nat}
    (h : f.Reaches (·.Within start limit) g) (hstart : firstImageAddress ≤ start)
    (hload : f.loadRecord = .ok r) (hread : g.faults.read = false) : g.loadRecord = .ok r := by
  have ⟨_, hafter, _⟩ := h
  refine loadRecord_of_slice_eq hload ?_ hafter.size_cells hafter.capacity hread
  have hlt : recordAddress + recordSize ≤ firstImageAddress := by decide
  exact Memory.slice_congr fun _ _ hx => h.getElem?_cells fun _ hop =>
    hop.not_covers_of_lt (Nat.lt_of_lt_of_le hx (Nat.le_trans hlt hstart))

/-- Where the record's sector is the same, the same record is loaded. -/
theorem record_unique {f g : Flash} {r r' : Record} (hf : f.loadRecord = .ok r)
    (hg : g.loadRecord = .ok r')
    (h : g.cells.slice recordAddress sectorSize = f.cells.slice recordAddress sectorSize) : r' = r := by
  obtain ⟨-, -, hf'⟩ := stored_of_load hf
  obtain ⟨-, -, hg'⟩ := stored_of_load hg
  rw [Memory.slice_record, h, ← Memory.slice_record, hf'] at hg'
  exact (Except.ok.inj hg').symm

theorem performAll_saveOps (f : Flash) (r : Record) :
    f.performAll r.saveOps =
      (f.perform (.erase recordSector)).perform (.program recordAddress r.encode) := by
  rw [Record.saveOps, performAll_cons, performAll_cons, performAll_nil]

/-- A save stops before its first operation, between the two, or not at all. -/
theorem saveRecord_ops (f : Flash) (r : Record) :
    ∃ n ≤ 2, (f.saveRecord r).2 = f.performAll (r.saveOps.take n) ∧
      ((f.saveRecord r).1 = .ok () → n = 2) := by
  rw [saveRecord_eq]
  split
  · exact ⟨0, Nat.zero_le _, rfl, nofun⟩
  · split
    · exact ⟨0, Nat.zero_le _, rfl, nofun⟩
    · rename_i g hg
      obtain ⟨-, -, rfl⟩ := erase_eq_ok_iff.mp hg
      split
      · exact ⟨1, by decide, by
          rw [Record.saveOps, List.take_succ_cons, List.take_zero, performAll_cons, performAll_nil],
          nofun⟩
      · rename_i g' hg'
        obtain ⟨-, -, rfl⟩ := program_eq_ok_iff.mp hg'
        exact ⟨2, Nat.le_refl _, (performAll_saveOps f r).symm, fun _ => rfl⟩

/-- A save that succeeds was of a record that passes the check, on a flash with room for it. -/
theorem saveRecord_ok {f : Flash} {r : Record} (h : (f.saveRecord r).1 = .ok ()) :
    r.validate f.capacity = .ok () ∧ firstImageAddress ≤ f.cells.size ∧
      (f.saveRecord r).2 = f.performAll r.saveOps := by
  obtain ⟨n, -, hops, hwhole⟩ := f.saveRecord_ops r
  obtain rfl := hwhole h
  rw [saveRecord_eq] at h
  split at h
  · exact nomatch h
  · rename_i hv
    split at h
    · exact nomatch h
    · rename_i g hg
      obtain ⟨hsector, -, -⟩ := erase_eq_ok_iff.mp hg
      refine ⟨hv, ?_, hops⟩
      simp only [recordSector, sectorSize_eq, firstImageAddress_eq] at *
      omega

/-- A save leaves the device's capacity and its faults as they are. -/
theorem saveRecord_device (f : Flash) (r : Record) :
    (f.saveRecord r).2.capacity = f.capacity ∧ (f.saveRecord r).2.claimed = f.claimed ∧
      (f.saveRecord r).2.faults = f.faults := by
  obtain ⟨n, -, hops, -⟩ := f.saveRecord_ops r
  rw [hops]
  exact ⟨capacity_performAll _ _, claimed_performAll _ _, faults_performAll _ _⟩

theorem saveRecord_of_steps {f g g' : Flash} {r : Record} (hv : r.validate f.capacity = .ok ())
    (he : f.erase recordSector = .ok g) (hp : g.program recordAddress r.encode = .ok g') :
    f.saveRecord r = (.ok (), g') := by
  simp only [saveRecord_eq, hv, he, hp]

/-- What passes the check can fail on the device only. -/
theorem saveRecord_fault {f : Flash} {r : Record} {fault : RecordFault}
    (hv : r.validate f.capacity = .ok ()) (h : (f.saveRecord r).1 = .error fault) :
    fault = .writeFailed := by
  rw [saveRecord_eq] at h
  split at h
  · rename_i hv'
    exact nomatch hv.symm.trans hv'
  · split at h
    · exact (Except.error.inj h).symm
    · split at h
      · exact (Except.error.inj h).symm
      · exact nomatch h

/-- Without faults, what passes the check is saved. -/
theorem saveRecord_eq_ok {f : Flash} {r : Record} (hv : r.validate f.capacity = .ok ())
    (hs : firstImageAddress ≤ f.cells.size) (herase : f.faults.erase = none)
    (hprogram : f.faults.program = none) : f.saveRecord r = (.ok (), f.performAll r.saveOps) := by
  have hsector : f.erase recordSector = .ok (f.perform (.erase recordSector)) := by
    refine erase_eq_ok_iff.mpr ⟨?_, by rw [herase]; exact nofun, rfl⟩
    simp only [recordSector, sectorSize_eq, firstImageAddress_eq] at *
    omega
  have hrecord : (f.perform (.erase recordSector)).program recordAddress r.encode =
      .ok ((f.perform (.erase recordSector)).perform (.program recordAddress r.encode)) := by
    refine program_eq_ok_iff.mpr ⟨?_, by rw [programFault, faults_perform, hprogram], rfl⟩
    rw [cells_perform, FlashOp.size_applyTo, Record.length_encode]
    simp only [recordAddress_eq, recordSize, firstImageAddress_eq] at *
    omega
  rw [saveRecord_of_steps hv hsector hrecord, performAll_saveOps]

/-- What does not pass the check is not saved. -/
theorem saveRecord_eq_self {f : Flash} {r : Record} (h : r.validate f.capacity ≠ .ok ()) :
    (f.saveRecord r).2 = f := by
  rw [saveRecord_eq]
  split
  · rfl
  · rename_i hv
    exact absurd hv h

/-- What a whole save stored is loaded again. -/
theorem loadRecord_performAll_saveOps {f : Flash} {r : Record} (hm : r.magic = recordMagic)
    (hversion : r.version = recordVersion) (hv : r.validate f.capacity = .ok ())
    (hs : firstImageAddress ≤ f.cells.size) (hread : f.faults.read = false) :
    (f.performAll r.saveOps).loadRecord = .ok r := by
  refine loadRecord_eq_ok_iff.mpr ⟨?_, ?_⟩
  · rw [storedRecord_performAll_saveOps r hread hs]
    exact Record.decode_encode r hm hversion
  · rwa [capacity_performAll]

/-- Without faults, what was saved is stored. -/
theorem storedRecord_saveRecord {f : Flash} {r : Record} (hm : r.magic = recordMagic)
    (hversion : r.version = recordVersion) (hv : r.validate f.capacity = .ok ())
    (hs : firstImageAddress ≤ f.cells.size) (hfaults : f.faults = {}) :
    (f.saveRecord r).2.storedRecord = .ok r := by
  rw [saveRecord_eq_ok hv hs (by rw [hfaults]) (by rw [hfaults])]
  have hload := loadRecord_performAll_saveOps hm hversion hv hs (by rw [hfaults])
  exact (loadRecord_eq_ok_iff.mp hload).1

/-! ### What a save leaves in the sector -/

/-- A save that succeeds fills the record's sector. -/
theorem slice_record_of_saved {f : Flash} {r : Record} (h : (f.saveRecord r).1 = .ok ()) :
    (f.saveRecord r).2.cells.slice recordAddress sectorSize = r.storedSector := by
  obtain ⟨-, hsize, hflash⟩ := saveRecord_ok h
  rw [hflash, cells_performAll]
  exact Memory.slice_replay_saveOps r hsize

/-- A save that does not succeed has done nothing, or it has erased the sector. -/
theorem saveRecord_unsaved {f : Flash} {r : Record} (h : (f.saveRecord r).1 ≠ .ok ()) :
    (f.saveRecord r).2 = f ∨
      firstImageAddress ≤ f.cells.size ∧ (f.saveRecord r).2 = f.perform (.erase recordSector) := by
  cases hv : r.validate f.capacity with
  | error fault => exact .inl (saveRecord_eq_self (by rw [hv]; exact nofun))
  | ok _ =>
    rw [saveRecord_eq]
    rw [hv]
    dsimp only
    split
    · exact .inl rfl
    · rename_i g hg
      split
      · obtain ⟨hsector, -, rfl⟩ := erase_eq_ok_iff.mp hg
        refine .inr ⟨?_, rfl⟩
        simp only [recordSector, sectorSize_eq, firstImageAddress_eq] at *
        omega
      · rename_i g' hg'
        exact absurd (congrArg Prod.fst (saveRecord_of_steps hv hg hg')) h

theorem slice_record_of_erased {f : Flash} (h : firstImageAddress ≤ f.cells.size) :
    (f.perform (.erase recordSector)).cells.slice recordAddress sectorSize =
      List.replicate sectorSize erased := by
  rw [cells_perform, ← Memory.replay_nil (FlashOp.applyTo _ _), ← Memory.replay_cons]
  exact Memory.slice_replay_eraseRecord h

/-- It leaves the record's sector as it was, or blank. -/
theorem slice_record_of_unsaved {f : Flash} {r : Record} (h : (f.saveRecord r).1 ≠ .ok ()) :
    (f.saveRecord r).2.cells.slice recordAddress sectorSize = f.cells.slice recordAddress sectorSize ∨
      (f.saveRecord r).2.cells.slice recordAddress sectorSize = List.replicate sectorSize erased := by
  obtain hsame | ⟨hsize, hblank⟩ := saveRecord_unsaved h
  · exact .inl (by rw [hsame])
  · exact .inr (by rw [hblank]; exact slice_record_of_erased hsize)

end Flash

/-- What does not pass the check is refused, and nothing changes. -/
theorem Store.save_of_invalid {s : Store} {r : Record} {fault : RecordFault}
    (h : r.validate s.flash.capacity = .error fault) : s.save r = (.error fault, s) := by
  simp only [save, Flash.saveRecord_eq, h]

end BootSlots
