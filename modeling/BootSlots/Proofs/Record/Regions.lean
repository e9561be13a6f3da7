import BootSlots.Proofs.Device.FlashHistory
import BootSlots.Record.Basic

/-
  The regions of the slots. A region runs from its slot's address to the next higher one, so regions that
  start at different addresses share no sector, in whatever order the table lists them.

  Proved:
  * `le_limitOf_iff`: the limit of a region is the greatest lower bound of the addresses above its start
    and the flash size.
  * `not_within_of_mem_region`: no sector of a region starts inside another one.
-/

namespace BootSlots.Record

theorem le_foldl_min_iff {x a : Nat} {l : List Nat} :
    x ≤ l.foldl min a ↔ x ≤ a ∧ ∀ b ∈ l, x ≤ b := by
  induction l generalizing a with
  | nil => simp
  | cons b l ih =>
    rw [List.foldl_cons, ih, Nat.le_min, List.forall_mem_cons, and_assoc]

theorem le_limitOf_iff {r : Record} {flashSize start x : Nat} :
    x ≤ r.limitOf flashSize start ↔
      x ≤ flashSize ∧ ∀ b ∈ r.configured, start < b → x ≤ b := by
  rw [limitOf, le_foldl_min_iff]
  simp only [List.mem_filter, decide_eq_true_eq, and_imp]

theorem limitOf_le_flashSize (r : Record) (flashSize start : Nat) :
    r.limitOf flashSize start ≤ flashSize :=
  (le_limitOf_iff.mp (Nat.le_refl _)).1

theorem limitOf_le {r : Record} {start b : Nat} (flashSize : Nat) (hb : b ∈ r.configured) (h : start < b) :
    r.limitOf flashSize start ≤ b :=
  (le_limitOf_iff.mp (Nat.le_refl _)).2 b hb h

theorem lt_limitOf {r : Record} {flashSize start : Nat} (h : start < flashSize) :
    start < r.limitOf flashSize start :=
  le_limitOf_iff.mpr ⟨h, fun _ _ hb => hb⟩

/-- On a flash of whole sectors, regions end with a sector. -/
theorem limitOf_mod {r : Record} {flashSize : Nat} (h : r.LayoutOk flashSize)
    (hmod : flashSize % sectorSize = 0) (start : Nat) : r.limitOf flashSize start % sectorSize = 0 := by
  refine List.foldlRecOn (motive := fun x => x % sectorSize = 0) _ _ hmod fun a ha b hb => ?_
  have hb' := (h.2.2 b (List.mem_filter.mp hb).1).1
  rcases Nat.le_total a b with hle | hle
  · rwa [Nat.min_eq_left hle]
  · rwa [Nat.min_eq_right hle]

/-- Every slot that the count takes in has an address that a slot may start at. -/
theorem exists_address {r : Record} {flashSize : Nat} {slot : UInt8} (h : r.LayoutOk flashSize)
    (hslot : slot < r.count) : ∃ a, r.address? slot = some a := by
  have hlt : slot.toNat < r.configured.length := by
    rw [length_configured, Nat.min_eq_left h.2.1]
    exact UInt8.lt_iff_toNat_lt.mp hslot
  exact ⟨r.configured[slot.toNat], List.getElem?_eq_getElem hlt⟩

theorem mem_configured {r : Record} {slot : UInt8} {a : Nat} (h : r.address? slot = some a) :
    a ∈ r.configured :=
  List.mem_of_getElem? h

theorem startable_of_address {r : Record} {flashSize a : Nat} {slot : UInt8}
    (h : r.LayoutOk flashSize) (ha : r.address? slot = some a) : Startable flashSize a :=
  h.2.2 a (mem_configured ha)

theorem region?_eq_some_iff {r : Record} {slot : UInt8} {flashSize a l : Nat} :
    r.region? slot flashSize = some (a, l) ↔
      r.address? slot = some a ∧ r.limitOf flashSize a = l := by
  rw [region?, Option.map_eq_some_iff]
  constructor
  · rintro ⟨b, hb, heq⟩
    obtain ⟨rfl, rfl⟩ := Prod.mk.inj heq
    exact ⟨hb, rfl⟩
  · rintro ⟨ha, rfl⟩
    exact ⟨a, ha, rfl⟩

/-- Of two regions with different starts, none has a sector that starts inside the other. -/
theorem not_within_of_mem_region {r : Record} {flashSize a b x : Nat} (h : r.LayoutOk flashSize)
    (ha : a ∈ r.configured) (hb : b ∈ r.configured) (hne : a ≠ b) (hx : b ≤ x)
    (hx' : x < r.limitOf flashSize b) :
    ¬ (a ≤ sectorStart x ∧ sectorStart x < r.limitOf flashSize a) := by
  rintro ⟨hle, hlt⟩
  rcases Nat.lt_or_gt_of_ne hne with hab | hba
  · have := limitOf_le flashSize hb hab
    have := le_sectorStart (h.2.2 b hb).1 hx
    omega
  · have := limitOf_le flashSize ha hba
    have := sectorStart_le x
    omega

end BootSlots.Record
