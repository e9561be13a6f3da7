/-
  32-bit words as four bytes, lowest first. Reading and writing undo each other.
-/

namespace BootSlots.Word

/-- The four bytes of a word, lowest first. -/
def toBytes (w : UInt32) : List UInt8 :=
  [UInt8.ofNat w.toNat, UInt8.ofNat (w.toNat / 0x100), UInt8.ofNat (w.toNat / 0x10000),
    UInt8.ofNat (w.toNat / 0x1000000)]

/-- The word of four bytes, lowest first. -/
def ofBytes (b0 b1 b2 b3 : UInt8) : UInt32 :=
  UInt32.ofNat (b0.toNat + 0x100 * b1.toNat + 0x10000 * b2.toNat + 0x1000000 * b3.toNat)

/-- The word of a list of exactly four bytes. -/
def ofList? : List UInt8 → Option UInt32
  | [b0, b1, b2, b3] => some (ofBytes b0 b1 b2 b3)
  | _ => none

@[simp] theorem length_toBytes (w : UInt32) : (toBytes w).length = 4 := rfl

theorem toNat_ofBytes (b0 b1 b2 b3 : UInt8) :
    (ofBytes b0 b1 b2 b3).toNat =
      b0.toNat + 0x100 * b1.toNat + 0x10000 * b2.toNat + 0x1000000 * b3.toNat := by
  have := b0.toNat_lt
  have := b1.toNat_lt
  have := b2.toNat_lt
  have := b3.toNat_lt
  rw [ofBytes, UInt32.toNat_ofNat_of_lt']
  simp only [UInt32.size]
  omega

theorem toBytes_ofBytes (b0 b1 b2 b3 : UInt8) :
    toBytes (ofBytes b0 b1 b2 b3) = [b0, b1, b2, b3] := by
  have := b0.toNat_lt
  have := b1.toNat_lt
  have := b2.toNat_lt
  have := b3.toNat_lt
  simp only [toBytes, toNat_ofBytes, List.cons.injEq, and_true]
  refine ⟨?_, ?_, ?_, ?_⟩ <;>
  · apply UInt8.toNat_inj.mp
    rw [UInt8.toNat_ofNat']
    omega

@[simp] theorem ofList?_toBytes (w : UInt32) : ofList? (toBytes w) = some w := by
  have := w.toNat_lt
  simp only [toBytes, ofList?, Option.some.injEq]
  apply UInt32.toNat_inj.mp
  simp only [toNat_ofBytes, UInt8.toNat_ofNat']
  omega

theorem ofBytes_toBytes (w : UInt32) :
    ofBytes (UInt8.ofNat w.toNat) (UInt8.ofNat (w.toNat / 0x100))
      (UInt8.ofNat (w.toNat / 0x10000)) (UInt8.ofNat (w.toNat / 0x1000000)) = w := by
  simpa only [toBytes, ofList?, Option.some.injEq] using ofList?_toBytes w

theorem ofList?_eq_some_iff (bytes : List UInt8) (w : UInt32) :
    ofList? bytes = some w ↔ bytes = toBytes w := by
  constructor
  · intro h
    unfold ofList? at h
    split at h
    · rw [← Option.some.inj h, toBytes_ofBytes]
    · exact nomatch h
  · rintro rfl
    exact ofList?_toBytes w

end BootSlots.Word
