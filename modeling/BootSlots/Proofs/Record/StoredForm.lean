import BootSlots.Proofs.Record.ReadBack
import Mathlib.Tactic.ByContra

/-
  The stored form of a record and what can happen to it. Writing and reading are separate programs for the
  same 32 bytes. They agree on 25 of them: the fields and the checksum of the fields. The seven bytes after
  that are written as zero and not looked at when read.

  The checksum is the exclusive or of a seed and the 24 bytes of the fields, so with the checksum itself as a
  25th byte it is zero (`checksum_take_of_decode`). One byte that changes takes the sum away from zero, and
  it takes two to bring it back. So two stored forms that are read as different records differ in two places.
  The places are not among the magic and the version: these are the same in all that is read.

  Proved:
  * `decode_eq_ok_iff`: what is read as a record is its fields and their checksum, and anything behind them.
  * `stored_form_exact`: reading a written record, writing a record that was read, and what is read at all.
  * `checksum_distance`: the changes to a stored record that are noticed.

  Two changed bytes can cancel: the checksum does not say which record it was taken of.
-/

namespace BootSlots

/-! ## The checksum -/

@[simp] theorem checksum_append_singleton (bytes : List UInt8) (x : UInt8) :
    checksum (bytes ++ [x]) = checksum bytes ^^^ x := by
  simp [checksum]

/-- What is added to the seed is added to the sum. -/
theorem foldl_xor_seed (bytes : List UInt8) (seed x : UInt8) :
    bytes.foldl (· ^^^ ·) (seed ^^^ x) = bytes.foldl (· ^^^ ·) seed ^^^ x := by
  induction bytes generalizing seed with
  | nil => rfl
  | cons b bytes ih =>
    simp only [List.foldl_cons]
    rw [UInt8.xor_assoc, UInt8.xor_comm x b, ← UInt8.xor_assoc, ih]

/-- A byte that is replaced moves the sum by the difference. -/
theorem foldl_xor_set {bytes : List UInt8} {i : Nat} {old : UInt8} (new : UInt8) (h : bytes[i]? = some old)
    (seed : UInt8) :
    (bytes.set i new).foldl (· ^^^ ·) seed = bytes.foldl (· ^^^ ·) seed ^^^ (old ^^^ new) := by
  induction bytes generalizing i seed with
  | nil => simp at h
  | cons b bytes ih =>
    cases i with
    | zero =>
      obtain rfl : b = old := by simpa using h
      simp only [List.set_cons_zero, List.foldl_cons]
      rw [← foldl_xor_seed, UInt8.xor_assoc, ← UInt8.xor_assoc b b, UInt8.xor_self, UInt8.zero_xor]
    | succ i =>
      simp only [List.set_cons_succ, List.foldl_cons]
      exact ih (by simpa using h) (seed ^^^ b)

theorem checksum_set {bytes : List UInt8} {i : Nat} {old : UInt8} (new : UInt8) (h : bytes[i]? = some old) :
    checksum (bytes.set i new) = checksum bytes ^^^ (old ^^^ new) :=
  foldl_xor_set new h checksumSeed

namespace Record

/-- Number of bytes that reading looks at: the fields and the checksum. -/
def sealedSize : Nat := 25

/-- A stored record with its reserve cleared. -/
def clearReserve (bytes : List UInt8) : List UInt8 :=
  bytes.take sealedSize ++ List.replicate (recordSize - sealedSize) 0

variable {bytes bytes' : List UInt8} {r r' : Record}

@[simp] theorem length_sealedFields (r : Record) : r.sealedFields.length = sealedSize := by
  simp [sealedFields, length_encodeFields, sealedSize]

theorem encode_of_take (h : bytes.take sealedSize = r.sealedFields) : r.encode = clearReserve bytes := by
  rw [clearReserve, h, encode_eq_append]
  rfl

theorem take_of_encode (h : r.encode = clearReserve bytes) : bytes.take sealedSize = r.sealedFields := by
  have hlength : r.sealedFields.length = (bytes.take sealedSize).length := by
    have htotal := congrArg List.length h
    simp only [length_encode, clearReserve, List.length_append, List.length_replicate, recordSize,
      sealedSize] at htotal
    simp only [length_sealedFields, sealedSize]
    omega
  rw [clearReserve, encode_eq_append] at h
  exact (List.append_inj_left h hlength).symm

theorem length_of_decode (h : decode bytes = .ok r) : bytes.length = recordSize := by
  unfold decode at h
  split at h
  · rfl
  · cases h

/-- The checksum that was stored is the right one. -/
theorem take_sealed_of_decode (h : decode bytes = .ok r) : bytes.take sealedSize = r.sealedFields := by
  rw [sealedFields, ← take_of_decode h]
  unfold decode at h
  split at h
  · dsimp only at h
    split at h
    · cases h
    · split at h
      · cases h
      · rename_i hsum
        simpa [sealedSize] using hsum
  · cases h

/-- What is read as a record: its fields and their checksum, and anything in reserve. -/
theorem decode_eq_ok_iff :
    decode bytes = .ok r ↔ bytes.length = recordSize ∧ r.magic = recordMagic ∧ r.version = recordVersion ∧
      bytes.take sealedSize = r.sealedFields := by
  constructor
  · intro h
    obtain ⟨hmagic, hversion⟩ := marks_of_decode h
    exact ⟨length_of_decode h, hmagic, hversion, take_sealed_of_decode h⟩
  · rintro ⟨hlength, hmagic, hversion, htake⟩
    have hreserve : (bytes.drop sealedSize).length = 7 := by
      rw [List.length_drop, hlength]
      rfl
    rw [← List.take_append_drop sealedSize bytes, htake, decode_sealedFields_append r hreserve, if_neg]
    simp [hmagic, hversion]

/-- Only the fields and the checksum are looked at. -/
theorem decode_of_take (hlength : bytes'.length = recordSize)
    (htake : bytes'.take sealedSize = bytes.take sealedSize) (h : decode bytes = .ok r) :
    decode bytes' = .ok r := by
  obtain ⟨-, hmagic, hversion, hsealed⟩ := decode_eq_ok_iff.mp h
  exact decode_eq_ok_iff.mpr ⟨hlength, hmagic, hversion, htake.trans hsealed⟩

/-! ## Both ways -/

/-- Writing and reading undo each other. A written record is read as itself exactly where its magic and version are
the engine's. A record that was read is written as the bytes it was read from, the reserve cleared. So what is read
at all is what is written of a record with the right magic and version, up to the reserve. -/
theorem stored_form_exact :
    (∀ r : Record, decode r.encode =
        if r.magic = recordMagic ∧ r.version = recordVersion then .ok r else .error .corrupted) ∧
      (∀ bytes r, decode bytes = .ok r → r.encode = clearReserve bytes) ∧
      ∀ bytes, bytes.length = recordSize → ∀ r, decode bytes = .ok r ↔
        r.magic = recordMagic ∧ r.version = recordVersion ∧ r.encode = clearReserve bytes := by
  refine ⟨?_, ?_, ?_⟩
  · intro r
    rw [decode_encode_eq_ite]
    by_cases hmarks : r.magic = recordMagic ∧ r.version = recordVersion
    · rw [if_pos hmarks, if_neg (by simp [hmarks])]
    · rw [if_neg hmarks, if_pos (Decidable.not_and_iff_or_not.mp hmarks)]
  · intro bytes r h
    exact encode_of_take (take_sealed_of_decode h)
  · intro bytes hlength r
    rw [decode_eq_ok_iff]
    constructor
    · rintro ⟨-, hmagic, hversion, htake⟩
      exact ⟨hmagic, hversion, encode_of_take htake⟩
    · rintro ⟨hmagic, hversion, hencode⟩
      exact ⟨hlength, hmagic, hversion, take_of_encode hencode⟩

/-- A stored form with other bytes in reserve than are written. -/
def reserveInUse : List UInt8 :=
  (factory 0x100000).sealedFields ++ List.replicate 7 0xFF

/-- It is read, and what is written of it has the reserve cleared. -/
theorem stored_form_exact_reserve :
    decode reserveInUse = .ok (factory 0x100000) ∧
      (factory 0x100000).encode = clearReserve reserveInUse ∧ clearReserve reserveInUse ≠ reserveInUse := by
  have hread : decode reserveInUse = .ok (factory 0x100000) := rfl
  obtain ⟨-, hwrite, -⟩ := stored_form_exact
  exact ⟨hread, hwrite reserveInUse (factory 0x100000) hread, by decide⟩

/-! ## Changed bytes -/

/-- With the checksum as a last byte the sum is zero. -/
theorem checksum_take_of_decode (h : decode bytes = .ok r) : checksum (bytes.take sealedSize) = 0 := by
  rw [take_sealed_of_decode h, sealedFields, checksum_append_singleton, UInt8.xor_self]

/-- Magic and version are the same in all that is read. -/
theorem getElem?_marks_of_decode (h : decode bytes = .ok r) {i : Nat} (hi : i < 5) :
    bytes[i]? = (Word.toBytes recordMagic ++ [recordVersion])[i]? := by
  obtain ⟨hmagic, hversion⟩ := marks_of_decode h
  have hfields : bytes[i]? = r.encodeFields[i]? := by
    rw [← take_of_decode h, List.getElem?_take_of_lt (by omega)]
  have hfront : r.encodeFields =
      (Word.toBytes recordMagic ++ [recordVersion]) ++
        ([r.mode.bits, r.current, r.count] ++ r.addresses.toList.flatMap Word.toBytes) := by
    rw [encodeFields, hmagic, hversion]
    simp
  rw [hfields, hfront, List.getElem?_append_left (by simpa using hi)]

/-- One byte that changes among the fields and the checksum is noticed. -/
theorem decode_set (h : decode bytes = .ok r) {i : Nat} {new : UInt8} (hi : i < sealedSize)
    (hne : bytes[i]? ≠ some new) : decode (bytes.set i new) = .error .corrupted := by
  obtain hcorrupted | ⟨r', hr', -⟩ := decode_cases (bytes.set i new)
  · exact hcorrupted
  · -- both sums would be zero, so the byte would not have changed
    have hlength := length_of_decode h
    have hlt : i < bytes.length := by
      rw [hlength]
      exact Nat.lt_trans hi (by decide)
    have hold : (bytes.take sealedSize)[i]? = some bytes[i] := by
      rw [List.getElem?_take_of_lt hi, List.getElem?_eq_getElem hlt]
    have hsum := checksum_take_of_decode hr'
    rw [List.take_set, checksum_set new hold, checksum_take_of_decode h, UInt8.zero_xor,
      UInt8.xor_eq_zero_iff] at hsum
    rw [List.getElem?_eq_getElem hlt, hsum] at hne
    exact absurd rfl hne

/-- What agrees with a stored record in the fields and the checksum is read as that record. -/
theorem decode_of_agree (hlength : bytes'.length = recordSize)
    (hagree : ∀ j, j < sealedSize → bytes'[j]? = bytes[j]?) (h : decode bytes = .ok r) :
    decode bytes' = .ok r := by
  apply decode_of_take hlength _ h
  apply List.ext_getElem?
  intro j
  rw [List.getElem?_take, List.getElem?_take]
  by_cases hj : j < sealedSize
  · rw [if_pos hj, if_pos hj, hagree j hj]
  · rw [if_neg hj, if_neg hj]

/-- Whatever place is left out, what is read as another record differs in another one that is looked at. -/
theorem exists_other_change (h : decode bytes = .ok r) (h' : decode bytes' = .ok r') (hne : r' ≠ r)
    (i : Nat) : ∃ j, j ≠ i ∧ j < sealedSize ∧ bytes'[j]? ≠ bytes[j]? := by
  by_contra hnone
  have hagree : ∀ j, j ≠ i → j < sealedSize → bytes'[j]? = bytes[j]? := by
    intro j hj hlt
    by_contra hchange
    exact hnone ⟨j, hj, hlt, hchange⟩
  have hlength := length_of_decode h
  have hlength' := length_of_decode h'
  by_cases hi : i < sealedSize ∧ bytes'[i]? ≠ bytes[i]?
  · -- with this one byte replaced, the first record would be read as the second
    obtain ⟨hlt, hchange⟩ := hi
    have hi' : i < bytes'.length := by
      rw [hlength']
      exact Nat.lt_trans hlt (by decide)
    have hread : decode (bytes.set i bytes'[i]) = .ok r' := by
      apply decode_of_agree (by rwa [List.length_set]) _ h'
      intro j hj
      by_cases hji : j = i
      · rw [hji, List.getElem?_set_self (by omega), List.getElem?_eq_getElem hi']
      · rw [List.getElem?_set_ne (Ne.symm hji), hagree j hji hj]
    rw [List.getElem?_eq_getElem hi'] at hchange
    rw [decode_set h hlt (Ne.symm hchange)] at hread
    cases hread
  · apply hne
    have hread : decode bytes' = .ok r := by
      apply decode_of_agree hlength' _ h
      intro j hj
      by_cases hji : j = i
      · rw [hji] at hj ⊢
        exact Decidable.of_not_not fun hchange => hi ⟨hj, hchange⟩
      · exact hagree j hji hj
    exact Except.ok.inj (h'.symm.trans hread)

/-- The changes to a stored record that are noticed. What is read as another record differs in two places at least,
behind magic and version and up to the checksum. One byte that changes among the fields and the checksum makes the
record a corrupted one, and what changes in reserve is not seen. -/
theorem checksum_distance (h : decode bytes = .ok r) :
    (∀ bytes' r', decode bytes' = .ok r' → r' ≠ r → ∃ i j, 5 ≤ i ∧ i < j ∧ j < sealedSize ∧
        bytes'[i]? ≠ bytes[i]? ∧ bytes'[j]? ≠ bytes[j]?) ∧
      (∀ i new, i < sealedSize → bytes[i]? ≠ some new → decode (bytes.set i new) = .error .corrupted) ∧
      ∀ bytes', bytes'.length = recordSize → (∀ j, j < sealedSize → bytes'[j]? = bytes[j]?) →
        decode bytes' = .ok r := by
  refine ⟨?_, ?_, ?_⟩
  · intro bytes' r' h' hne
    obtain ⟨i, -, hi, hchange⟩ := exists_other_change h h' hne sealedSize
    obtain ⟨j, hji, hj, hchange'⟩ := exists_other_change h h' hne i
    have hmarks : ∀ k, bytes'[k]? ≠ bytes[k]? → 5 ≤ k := by
      intro k hk
      by_contra hlt
      apply hk
      rw [getElem?_marks_of_decode h (by omega), getElem?_marks_of_decode h' (by omega)]
    rcases Nat.lt_or_gt_of_ne hji with hlt | hgt
    · exact ⟨j, i, hmarks j hchange', hlt, hi, hchange', hchange⟩
    · exact ⟨i, j, hmarks i hchange, hgt, hj, hchange, hchange'⟩
  · intro i new hi hne
    exact decode_set h hi hne
  · intro bytes' hlength hagree
    exact decode_of_agree hlength hagree h

/-- Another selection is the least that can change: the selection and the checksum. The selection alone is noticed. -/
theorem checksum_distance_selection :
    decode ((factory 0x100000).select 1).encode = .ok ((factory 0x100000).select 1) ∧
      ((factory 0x100000).select 1).encode =
        ((factory 0x100000).encode.set 6 1).set 24 (checksum ((factory 0x100000).select 1).encodeFields) ∧
      decode ((factory 0x100000).encode.set 6 1) = .error .corrupted := by
  have hread : decode (factory 0x100000).encode = .ok (factory 0x100000) := rfl
  obtain ⟨-, hset, -⟩ := checksum_distance hread
  exact ⟨rfl, by decide, hset 6 1 (by decide) (by decide)⟩

end Record

end BootSlots
