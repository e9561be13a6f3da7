/-
  Byte-addressed memory of a fixed size. `overlay` combines a run of cells with incoming bytes, `put`
  replaces them, `slice` reads them back. The lemmas say what each does to the cell at one address.
-/

namespace BootSlots

/-- Cells by address, from 0 up to the size. -/
abbrev Memory := Array UInt8

namespace Memory

/-- Combines the cells from `start` on with `bytes`, one by one; cells past the end are left out. -/
def overlay (f : UInt8 → UInt8 → UInt8) (m : Memory) (start : Nat) : List UInt8 → Memory
  | [] => m
  | b :: bs => overlay f (m.modify start (f · b)) (start + 1) bs

/-- Replaces the cells from `start` on. -/
def put (m : Memory) (start : Nat) (bytes : List UInt8) : Memory :=
  m.overlay (fun _ b => b) start bytes

/-- The cells in `[start, start + length)`; cells past the end are missing. -/
def slice (m : Memory) (start length : Nat) : List UInt8 :=
  (m.extract start (start + length)).toList

@[simp] theorem size_overlay (f : UInt8 → UInt8 → UInt8) (m : Memory) (start : Nat)
    (bytes : List UInt8) : (m.overlay f start bytes).size = m.size := by
  induction bytes generalizing m start with
  | nil => rfl
  | cons b bs ih => rw [overlay, ih, Array.size_modify]

@[simp] theorem size_put (m : Memory) (start : Nat) (bytes : List UInt8) :
    (m.put start bytes).size = m.size :=
  size_overlay _ _ _ _

theorem getElem?_overlay (f : UInt8 → UInt8 → UInt8) (m : Memory) (start : Nat)
    (bytes : List UInt8) (i : Nat) :
    (m.overlay f start bytes)[i]? =
      if start ≤ i then
        match bytes[i - start]? with
        | some b => m[i]?.map (f · b)
        | none => m[i]?
      else m[i]? := by
  induction bytes generalizing m start with
  | nil => simp [overlay]
  | cons b bs ih =>
    rw [overlay, ih, Array.getElem?_modify]
    by_cases hlt : i < start
    · rw [if_neg (by omega), if_neg (by omega), if_neg (by omega)]
    · by_cases heq : start = i
      · subst heq
        rw [if_neg (by omega), if_pos rfl, if_pos (Nat.le_refl _), Nat.sub_self]
        rfl
      · have hs : i - start = i - (start + 1) + 1 := by omega
        rw [if_pos (show start + 1 ≤ i by omega), if_pos (show start ≤ i by omega), if_neg heq, hs,
          List.getElem?_cons_succ]

theorem getElem?_overlay_of_lt {f : UInt8 → UInt8 → UInt8} {m : Memory} {start : Nat}
    {bytes : List UInt8} {i : Nat} (h : i < start) : (m.overlay f start bytes)[i]? = m[i]? := by
  rw [getElem?_overlay, if_neg (by omega)]

theorem getElem?_overlay_of_ge {f : UInt8 → UInt8 → UInt8} {m : Memory} {start : Nat}
    {bytes : List UInt8} {i : Nat} (h : start + bytes.length ≤ i) :
    (m.overlay f start bytes)[i]? = m[i]? := by
  rw [getElem?_overlay, if_pos (by omega), List.getElem?_eq_none (by omega)]

theorem overlay_append (f : UInt8 → UInt8 → UInt8) (m : Memory) (start : Nat)
    (xs ys : List UInt8) :
    m.overlay f start (xs ++ ys) = (m.overlay f start xs).overlay f (start + xs.length) ys := by
  induction xs generalizing m start with
  | nil => rfl
  | cons x xs ih =>
    rw [List.cons_append, overlay, overlay, ih, List.length_cons, Nat.add_assoc, Nat.add_comm 1]

theorem getElem?_slice (m : Memory) (start length i : Nat) :
    (m.slice start length)[i]? = if i < length then m[start + i]? else none := by
  rw [slice, Array.getElem?_toList, Array.getElem?_extract]
  by_cases hi : i < length
  · rw [if_pos hi]
    by_cases hs : start + i < m.size
    · rw [if_pos (by omega)]
    · rw [if_neg (by omega), Array.getElem?_eq_none (by omega)]
  · rw [if_neg hi, if_neg (by omega)]

theorem length_slice (m : Memory) (start length : Nat) :
    (m.slice start length).length = min length (m.size - start) := by
  rw [slice, Array.length_toList, Array.size_extract]
  omega

theorem slice_put {m : Memory} {start : Nat} {bytes : List UInt8}
    (h : start + bytes.length ≤ m.size) : (m.put start bytes).slice start bytes.length = bytes := by
  apply List.ext_getElem?
  intro i
  rw [getElem?_slice]
  split
  · rename_i hi
    rw [put, getElem?_overlay, if_pos (by omega), Nat.add_sub_cancel_left,
      List.getElem?_eq_getElem hi, Array.getElem?_eq_getElem (by omega)]
    rfl
  · rw [List.getElem?_eq_none (by omega)]

end Memory

end BootSlots
