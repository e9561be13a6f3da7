import BootSlots.Proofs.Record.Saving

/-
  What is read after a save. A save checks the slot table and the selection. A load checks magic, version and
  checksum besides, so a save of a record with a foreign magic or version succeeds, and nothing can be loaded
  after it. Where the power goes while the record is programmed, the rest of its place stays erased. The
  checksum does not exclude that such a rest is read: erased bytes cancel in pairs. It is the slot table that
  does. A count that was not programmed is larger than the table, and an address without its highest byte lies
  past the flash, so what passes the check was programmed up to the end of its last slot in use.

  Proved:
  * `load_save`: what a save without faults returns, and what is loaded after it.
  * `storedRecord_torn`: what is read where programming stopped within the record.
  * `torn_table_agrees`: a torn record that passes the check has the slots, the selection and the mode of the
    record that was being saved.
-/

namespace BootSlots

/-! ## Whole records -/

namespace Flash

theorem loadRecord_of_stored_error {f : Flash} {fault : RecordFault} (h : f.storedRecord = .error fault) :
    f.loadRecord = .error fault := by
  rw [loadRecord, h]

/-- What is loaded after a whole save: the record, unless its marks are foreign. -/
theorem loadRecord_performAll_saveOps_eq_ite {f : Flash} {r : Record} (hv : r.validate f.capacity = .ok ())
    (hs : firstImageAddress ≤ f.cells.size) (hread : f.faults.read = false) :
    (f.performAll r.saveOps).loadRecord =
      if r.magic = recordMagic ∧ r.version = recordVersion then .ok r else .error .corrupted := by
  by_cases hmarks : r.magic = recordMagic ∧ r.version = recordVersion
  · rw [if_pos hmarks]
    exact loadRecord_performAll_saveOps hmarks.1 hmarks.2 hv hs hread
  · rw [if_neg hmarks]
    apply loadRecord_of_stored_error
    rw [storedRecord_performAll_saveOps r hread hs, Record.decode_encode_eq_ite,
      if_pos (Decidable.not_and_iff_or_not.mp hmarks)]

end Flash

namespace Store

/-- Without faults, a save succeeds exactly for a record that passes the check, and the record is loaded after
it, unless its magic or version is a foreign one: then no record is left. A save that fails changes nothing. -/
theorem load_save {s : Store} (c : Record) (hfaults : s.flash.faults = {})
    (hsize : sectorSize < s.flash.cells.size) :
    ((s.save c).1 = .ok () ↔ c.validate s.flash.capacity = .ok ()) ∧
      ((s.save c).1 = .ok () → (s.save c).2.load =
        if c.magic = recordMagic ∧ c.version = recordVersion then .ok c else .error .corrupted) ∧
      ((s.save c).1 ≠ .ok () → (s.save c).2 = s) := by
  have hs : firstImageAddress ≤ s.flash.cells.size := by
    have := s.flash.size_mod
    simp only [sectorSize_eq, firstImageAddress_eq] at *
    omega
  have hread : s.flash.faults.read = false := by rw [hfaults]
  cases hvalid : c.validate s.flash.capacity with
  | ok _ =>
    have hsave := Flash.saveRecord_eq_ok hvalid hs (by rw [hfaults]) (by rw [hfaults])
    have hok : (s.save c).1 = .ok () := congrArg Prod.fst hsave
    refine ⟨iff_of_true hok rfl, fun _ => ?_, fun hne => absurd hok hne⟩
    have hflash : (s.save c).2.flash = s.flash.performAll c.saveOps := congrArg Prod.snd hsave
    rw [load, hflash]
    exact Flash.loadRecord_performAll_saveOps_eq_ite hvalid hs hread
  | error fault =>
    have hne : (.error fault : Except RecordFault Unit) ≠ .ok () := by
      intro hok
      cases hok
    rw [save_of_invalid hvalid]
    exact ⟨iff_of_false hne hne, fun hok => absurd hok hne, fun _ => rfl⟩

theorem device_save (s : Store) (r : Record) :
    (s.save r).2.flash.capacity = s.flash.capacity ∧ (s.save r).2.flash.claimed = s.flash.claimed ∧
      (s.save r).2.flash.faults = s.flash.faults :=
  s.flash.saveRecord_device r

/-- A store on an erased flash of three sectors. -/
def onErased : Store where
  flash := {
    cells := Array.replicate (3 * sectorSize) erased
    size_mod := by rw [Array.size_replicate]; rfl
    size_lt := by rw [Array.size_replicate]; decide }

/-- A record with one slot. -/
def singleRecord : Record :=
  { Record.factory 0 with count := 1 }

/-- The same slot, of another version than the engine's. -/
def foreignRecord : Record :=
  { singleRecord with version := 2 }

/-- A store on three sectors that holds a good record. -/
def onSingle : Store :=
  (onErased.save singleRecord).2

theorem flash_onSingle :
    onSingle.flash.capacity = 3 * sectorSize ∧ onSingle.flash.cells.size = 3 * sectorSize ∧
      onSingle.flash.faults = {} := by
  have hsectors : onErased.flash.capacity = 3 * sectorSize := Array.size_replicate
  obtain ⟨hcapacity, hclaimed, hfaults⟩ := onErased.device_save singleRecord
  rw [← onSingle] at hcapacity hclaimed hfaults
  have hcells := Flash.capacity_of_claimed (hclaimed.trans rfl)
  exact ⟨hcapacity.trans hsectors, hcells.symm.trans (hcapacity.trans hsectors), hfaults⟩

/-- A save does not look at the version: it replaces a good record, and what it stored is refused. -/
theorem load_save_foreign :
    onSingle.load = .ok singleRecord ∧ (onSingle.save foreignRecord).1 = .ok () ∧
      (onSingle.save foreignRecord).2.load = .error .corrupted := by
  have hsize : onErased.flash.cells.size = 3 * sectorSize := Array.size_replicate
  have hsectors : onErased.flash.capacity = 3 * sectorSize := Array.size_replicate
  obtain ⟨hsingle, hloaded, -⟩ := load_save (s := onErased) singleRecord rfl (by rw [hsize]; decide)
  have hstored : (onErased.save singleRecord).1 = .ok () := by
    rw [hsingle, Record.validate_eq_ok_iff, hsectors]
    decide
  obtain ⟨hcapacity, hcells, hfaults⟩ := flash_onSingle
  obtain ⟨hforeign, hload, -⟩ := load_save foreignRecord hfaults (by rw [hcells]; decide)
  have hok : (onSingle.save foreignRecord).1 = .ok () := by
    rw [hforeign, Record.validate_eq_ok_iff, hcapacity]
    decide
  exact ⟨(hloaded hstored).trans (if_pos (by decide)), hok, (hload hok).trans (if_neg (by decide))⟩

end Store

/-! ## Torn records -/

/-- A word whose highest byte is erased. -/
theorem Word.le_of_erased {w : UInt32} (h : (toBytes w)[3]? = some erased) : 0xFF000000 ≤ w.toNat := by
  have hbyte : UInt8.ofNat (w.toNat / 0x1000000) = 0xFF := Option.some.inj h
  have hvalue := congrArg UInt8.toNat hbyte
  rw [UInt8.toNat_ofNat', show (0xFF : UInt8).toNat = 255 from rfl] at hvalue
  have := w.toNat_lt
  omega

theorem Word.toBytes_inj {v w : UInt32} (h : toBytes v = toBytes w) : v = w := by
  have hread := congrArg ofList? h
  rw [ofList?_toBytes, ofList?_toBytes] at hread
  exact Option.some.inj hread

namespace Record

/-! ### Where the fields stand -/

theorem encodeFields_of_addresses {r : Record} {a b c d : UInt32} (h : r.addresses = #v[a, b, c, d]) :
    r.encodeFields = Word.toBytes r.magic ++ [r.version, r.mode.bits, r.current, r.count] ++
      (Word.toBytes a ++ Word.toBytes b ++ Word.toBytes c ++ Word.toBytes d) := by
  rw [encodeFields, h]
  rfl

/-- A record that is read has the bytes under the checksum as its fields. -/
theorem take_of_decode {bytes : List UInt8} {r : Record} (h : decode bytes = .ok r) :
    bytes.take 24 = r.encodeFields := by
  unfold decode at h
  split at h
  · dsimp only at h
    split at h
    · exact nomatch h
    · split at h
      · exact nomatch h
      · rw [← Except.ok.inj h, encodeFields_of_addresses rfl]
        simp only [Word.toBytes_ofBytes]
        rfl
  · exact nomatch h

theorem getElem?_encodeFields_count (r : Record) : r.encodeFields[7]? = some r.count := rfl

theorem getElem?_encodeFields_address (r : Record) (i : Fin maxSlots) {j : Nat} (hj : j < 4) :
    r.encodeFields[8 + 4 * i + j]? = (Word.toBytes (r.addresses.get i))[j]? := by
  obtain ⟨a, b, c, d, h⟩ := exists_addresses r.addresses
  have hword : (r.encodeFields.drop (8 + 4 * i)).take 4 = Word.toBytes (r.addresses.get i) := by
    rw [encodeFields_of_addresses h, h]
    match i with
    | ⟨0, _⟩ | ⟨1, _⟩ | ⟨2, _⟩ | ⟨3, _⟩ => rfl
  rw [← hword, List.getElem?_take_of_lt hj, List.getElem?_drop]

theorem mem_configured_of_lt {r : Record} {i : Fin maxSlots} (h : i < r.count.toNat) :
    (r.addresses.get i).toNat ∈ r.configured := by
  have hget : (r.addresses.toList.take r.count.toNat)[i.val]? = some (r.addresses.get i) := by
    rw [List.getElem?_take_of_lt h]
    simp [Vector.get]
  exact List.mem_map_of_mem (List.mem_of_getElem? hget)

/-! ### What a torn record is read as -/

/-- The record's place in an erased sector after `k` bytes of the record were programmed. -/
def torn (c : Record) (k : Nat) : List UInt8 :=
  c.encode.take k ++ List.replicate (recordSize - k) erased

variable {c r : Record} {k capacity : Nat}

/-- Those bytes are what is read where the power went after `k` bytes. -/
theorem storedRecord_torn {f : Flash} (hread : f.faults.read = false)
    (hs : firstImageAddress ≤ f.cells.size) (hk : k ≤ recordSize) :
    (f.performAll [.erase recordSector, .program recordAddress (c.encode.take k)]).storedRecord =
      decode (c.torn k) := by
  have hlength : (c.encode.take k).length = k := by
    rw [List.length_take, length_encode, Nat.min_eq_left hk]
  have h := Flash.storedRecord_program hread hs (hlength.symm ▸ hk)
  rwa [hlength] at h

/-- The fields of a torn record are those that were programmed, and erased bytes after them. -/
theorem getElem?_fields_of_torn (h : decode (c.torn k) = .ok r) {i : Nat} (hi : i < 24) :
    r.encodeFields[i]? = if i < k then c.encodeFields[i]? else some erased := by
  have hlength : c.encode.length = 32 := length_encode c
  rw [← take_of_decode h, List.getElem?_take_of_lt hi, torn]
  by_cases hik : i < k
  · rw [if_pos hik, List.getElem?_append_left (by rw [List.length_take]; omega),
      List.getElem?_take_of_lt hik, encode, List.getElem?_append_left (by rwa [length_encodeFields])]
  · rw [if_neg hik, List.getElem?_append_right (by rw [List.length_take]; omega),
      List.getElem?_replicate_of_lt (by rw [List.length_take, recordSize]; omega)]

/-- A count that was not programmed is larger than the table. -/
theorem le_of_torn_count (h : decode (c.torn k) = .ok r) (hlayout : r.LayoutOk capacity) : 8 ≤ k := by
  by_cases hk : 7 < k
  · exact hk
  · have hcount := getElem?_fields_of_torn h (show 7 < 24 by decide)
    rw [if_neg hk, getElem?_encodeFields_count] at hcount
    have hmax := hlayout.2.1
    rw [Option.some.inj hcount] at hmax
    exact absurd hmax (by decide)

/-- An address that was not programmed up to its highest byte lies past the flash. -/
theorem le_of_torn_address (h : decode (c.torn k) = .ok r) (hlayout : r.LayoutOk capacity)
    (hcapacity : capacity ≤ 0xFF000000) {i : Fin maxSlots} (hi : i < r.count.toNat) :
    8 + 4 * i + 4 ≤ k := by
  have hmax : i.val < 4 := i.isLt
  by_cases hk : 8 + 4 * i.val + 3 < k
  · exact hk
  · have hbyte := getElem?_fields_of_torn h (show 8 + 4 * i.val + 3 < 24 by omega)
    rw [if_neg hk, getElem?_encodeFields_address r i (by decide)] at hbyte
    have hlarge := Word.le_of_erased hbyte
    have hsmall := (hlayout.2.2 _ (mem_configured_of_lt hi)).2.2
    omega

/-- A torn record that passes the check agrees with the record that was being saved on all that selects an
image. -/
theorem torn_table_agrees (hcapacity : capacity ≤ 0xFF000000) (h : decode (c.torn k) = .ok r)
    (hvalid : r.validate capacity = .ok ()) :
    r.mode = c.mode ∧ r.current = c.current ∧ r.count = c.count ∧
      ∀ i : Fin maxSlots, i < c.count.toNat → r.addresses.get i = c.addresses.get i := by
  obtain ⟨hlayout, -⟩ := (validate_eq_ok_iff r capacity).mp hvalid
  have hprogrammed : ∀ i, i < 24 → i < k → r.encodeFields[i]? = c.encodeFields[i]? := by
    intro i hi hik
    rw [getElem?_fields_of_torn h hi, if_pos hik]
  have hk := le_of_torn_count h hlayout
  -- mode, selection and count are single bytes of the fields, by their layout
  have hmode : r.mode.bits = c.mode.bits := Option.some.inj (hprogrammed 5 (by decide) (by omega))
  have hcurrent : r.current = c.current := Option.some.inj (hprogrammed 6 (by decide) (by omega))
  have hcount : r.count = c.count := Option.some.inj (hprogrammed 7 (by decide) (by omega))
  refine ⟨congrArg Mode.mk hmode, hcurrent, hcount, fun i hi => ?_⟩
  rw [← hcount] at hi
  have hend := le_of_torn_address h hlayout hcapacity hi
  have hmax : i.val < 4 := i.isLt
  apply Word.toBytes_inj
  apply List.ext_getElem?
  intro j
  by_cases hj : j < 4
  · rw [← getElem?_encodeFields_address r i hj, ← getElem?_encodeFields_address c i hj]
    exact hprogrammed _ (by omega) (by omega)
  · rw [List.getElem?_eq_none (by rw [Word.length_toBytes]; omega),
      List.getElem?_eq_none (by rw [Word.length_toBytes]; omega)]

/-- A record that passes all checks without its second half: erased bytes cancel, and so does the checksum. -/
def cancellingRecord : Record :=
  { factory 0x100000 with mode := ⟨0xFA⟩ }

/-- What is read of it after 16 bytes; the unused addresses are other ones. -/
def cancellingRest : Record :=
  { cancellingRecord with addresses := #v[0x2000, 0x82000, 0xFFFFFFFF, 0xFFFFFFFF] }

theorem torn_table_agrees_cancelling :
    decode (cancellingRecord.torn 16) = .ok cancellingRest ∧
      cancellingRest.validate 0x100000 = .ok () ∧ cancellingRest ≠ cancellingRecord ∧
      cancellingRest.current = cancellingRecord.current ∧
      ∀ i : Fin maxSlots, i < cancellingRecord.count.toNat →
        cancellingRest.addresses.get i = cancellingRecord.addresses.get i := by
  have hdecode : decode (cancellingRecord.torn 16) = .ok cancellingRest := rfl
  have hvalid := (validate_eq_ok_iff cancellingRest 0x100000).mpr (by decide)
  obtain ⟨-, hcurrent, -, haddresses⟩ := torn_table_agrees (by decide) hdecode hvalid
  exact ⟨hdecode, hvalid, by decide, hcurrent, haddresses⟩

end Record

end BootSlots
