import BootSlots.Proofs.Record.ReadBack
import BootSlots.Proofs.Record.Regions
import Mathlib.Data.Nat.Find
import Mathlib.GroupTheory.Perm.Finite

/-
  The regions of a sound record tile its flash from the lowest slot to the end. A limit is the least slot
  address above a start, so nothing is sorted: an address belongs to the region that starts last below it,
  and to no other. All of this hangs on which addresses are in use and not on their order, so a table in
  another order has the same regions under other numbers. What stands in unused entries is not seen.

  Proved:
  * `mem_configured_iff`, `address?_slotOf`: the slots in use are the first entries of the table.
  * `limitOf_congr`: the limits hang on the addresses in use only.
  * `inRegion_iff`, `exists_inRegion`: which region an address lies in, and from where on it lies in one.
  * `regions_tile`: the regions of a record that passes the check.

  Two slots with the same address have the same region; the tiling counts it once.
-/

namespace BootSlots.Record

/-! ## Slots and table entries -/

/-- Slot of an entry of the table. -/
def slotOf (i : Fin maxSlots) : UInt8 :=
  UInt8.ofNat i

theorem toNat_slotOf (i : Fin maxSlots) : (slotOf i).toNat = i := by
  have hi : i.val < 4 := i.isLt
  rw [slotOf, UInt8.toNat_ofNat']
  omega

variable {r r' : Record} {flashSize : Nat}

theorem getElem?_addresses (r : Record) (i : Fin maxSlots) :
    r.addresses.toList[i.val]? = some (r.addresses.get i) := by
  simp [Vector.get]

/-- The address of a slot in use is what stands in its entry. -/
theorem address?_slotOf {i : Fin maxSlots} (h : i < r.count.toNat) :
    r.address? (slotOf i) = some (r.addresses.get i).toNat := by
  rw [address?, toNat_slotOf, configured, List.getElem?_map, List.getElem?_take_of_lt h,
    getElem?_addresses]
  rfl

theorem address?_eq_none {slot : UInt8} (h : r.count ≤ slot) : r.address? slot = none := by
  have hle := UInt8.le_iff_toNat_le.mp h
  have hlength := r.length_configured
  apply List.getElem?_eq_none
  omega

/-- The addresses in use are the entries below the count. -/
theorem mem_configured_iff {a : Nat} :
    a ∈ r.configured ↔ ∃ i : Fin maxSlots, i < r.count.toNat ∧ (r.addresses.get i).toNat = a := by
  constructor
  · intro h
    obtain ⟨n, hn⟩ := List.mem_iff_getElem?.mp h
    obtain ⟨hlt, -⟩ := List.getElem?_eq_some_iff.mp hn
    have hlength := r.length_configured
    have hcount : n < r.count.toNat := by omega
    have hslots : n < maxSlots := by omega
    have haddress := address?_slotOf (i := ⟨n, hslots⟩) hcount
    rw [address?, toNat_slotOf, hn] at haddress
    exact ⟨⟨n, hslots⟩, hcount, (Option.some.inj haddress).symm⟩
  · rintro ⟨i, hi, rfl⟩
    exact mem_configured_of_lt hi

/-! ## Limits and the addresses in use -/

/-- The limits hang on the addresses in use only. -/
theorem limitOf_congr (h : ∀ a, a ∈ r'.configured ↔ a ∈ r.configured) (start : Nat) :
    r'.limitOf flashSize start = r.limitOf flashSize start := by
  have hle : ∀ x, x ≤ r'.limitOf flashSize start ↔ x ≤ r.limitOf flashSize start := by
    intro x
    simp only [le_limitOf_iff, h]
  exact Nat.le_antisymm ((hle _).mp (Nat.le_refl _)) ((hle _).mpr (Nat.le_refl _))

/-- Entries in use that change places stay the same addresses. -/
theorem mem_configured_of_permuted {σ : Equiv.Perm (Fin maxSlots)} (hcount : r'.count = r.count)
    (hσ : ∀ i : Fin maxSlots, i < r.count.toNat → σ i < r.count.toNat ∧
      r'.addresses.get i = r.addresses.get (σ i)) (a : Nat) :
    a ∈ r'.configured ↔ a ∈ r.configured := by
  rw [mem_configured_iff, mem_configured_iff, hcount]
  constructor
  · rintro ⟨i, hi, rfl⟩
    obtain ⟨hlt, hentry⟩ := hσ i hi
    exact ⟨σ i, hlt, by rw [hentry]⟩
  · rintro ⟨j, hj, rfl⟩
    -- the entries in use are finitely many, so each of them comes from one of them
    have hback := Equiv.Perm.perm_symm_on_of_perm_on_finite
      (p := fun i : Fin maxSlots => i < r.count.toNat) (fun i hi => (hσ i hi).1) hj
    refine ⟨σ.symm j, hback, ?_⟩
    rw [(hσ _ hback).2, Equiv.apply_symm_apply]

theorem region?_of_address {slot : UInt8} {a : Nat} (h : r.address? slot = some a) :
    r.region? slot flashSize = some (a, r.limitOf flashSize a) := by
  simp [region?, h]

theorem region?_of_permuted {σ : Equiv.Perm (Fin maxSlots)} (hcount : r'.count = r.count)
    (hσ : ∀ i : Fin maxSlots, i < r.count.toNat → σ i < r.count.toNat ∧
      r'.addresses.get i = r.addresses.get (σ i)) {i : Fin maxSlots} (hi : i < r.count.toNat) :
    r'.region? (slotOf i) flashSize = r.region? (slotOf (σ i)) flashSize := by
  obtain ⟨hlt, hentry⟩ := hσ i hi
  have haddress' := address?_slotOf (r := r') (hcount ▸ hi)
  rw [region?_of_address haddress', region?_of_address (address?_slotOf hlt), hentry,
    limitOf_congr (mem_configured_of_permuted hcount hσ)]

/-! ## Addresses and their regions -/

/-- The address `x` lies in the region of the slot. -/
def InRegion (r : Record) (flashSize : Nat) (slot : UInt8) (x : Nat) : Prop :=
  ∃ start limit, r.region? slot flashSize = some (start, limit) ∧ start ≤ x ∧ x < limit

/-- An address lies in the region that starts last below it. -/
theorem inRegion_iff {slot : UInt8} {x : Nat} :
    r.InRegion flashSize slot x ↔ ∃ a, r.address? slot = some a ∧ a ≤ x ∧ x < flashSize ∧
      ∀ b ∈ r.configured, b ≤ x → b ≤ a := by
  constructor
  · rintro ⟨a, l, hregion, hle, hlt⟩
    obtain ⟨haddress, rfl⟩ := region?_eq_some_iff.mp hregion
    obtain ⟨hsize, hnext⟩ := le_limitOf_iff.mp (Nat.succ_le_of_lt hlt)
    refine ⟨a, haddress, hle, hsize, fun b hb hbx => ?_⟩
    by_contra hab
    have := hnext b hb (by omega)
    omega
  · rintro ⟨a, haddress, hle, hlt, hlast⟩
    refine ⟨a, _, region?_of_address haddress, hle, ?_⟩
    rw [← Nat.succ_le_iff, le_limitOf_iff]
    refine ⟨hlt, fun b hb hab => ?_⟩
    by_contra hbx
    have := hlast b hb (by omega)
    omega

/-- Regions that share an address start at one address. -/
theorem InRegion.address_eq {slot slot' : UInt8} {x : Nat} (h : r.InRegion flashSize slot x)
    (h' : r.InRegion flashSize slot' x) : r.address? slot = r.address? slot' := by
  obtain ⟨a, ha, hle, -, hlast⟩ := inRegion_iff.mp h
  obtain ⟨a', ha', hle', -, hlast'⟩ := inRegion_iff.mp h'
  have hsame : a = a' :=
    Nat.le_antisymm (hlast' a (mem_configured ha) hle) (hlast a' (mem_configured ha') hle')
  rw [ha, ha', hsame]

/-- From the lowest slot on, every address of the flash lies in a region. -/
theorem exists_inRegion {lowest x : Nat} (hlowest : lowest ∈ r.configured) (hle : lowest ≤ x)
    (hlt : x < flashSize) : ∃ slot, r.InRegion flashSize slot x := by
  have hmem := Nat.findGreatest_spec (P := (· ∈ r.configured)) hle hlowest
  obtain ⟨i, hi, ha⟩ := mem_configured_iff.mp hmem
  refine ⟨slotOf i, inRegion_iff.mpr ⟨_, address?_slotOf hi, ?_, hlt, fun b hb hbx => ?_⟩⟩
  · rw [ha]
    exact Nat.findGreatest_le x
  · rw [ha]
    exact Nat.le_findGreatest hbx hb

theorem InRegion.bounds {slot : UInt8} {lowest x : Nat} (h : r.InRegion flashSize slot x)
    (hlowest : ∀ b ∈ r.configured, lowest ≤ b) : lowest ≤ x ∧ x < flashSize := by
  obtain ⟨a, ha, hle, hlt, -⟩ := inRegion_iff.mp h
  have := hlowest a (mem_configured ha)
  omega

/-- A record with a slot has a lowest one. -/
theorem LayoutOk.exists_lowest (h : r.LayoutOk flashSize) :
    ∃ lowest, r.configured.min? = some lowest := by
  obtain ⟨hcount, hmax, -⟩ := h
  have hpos : r.count.toNat ≠ 0 := fun hzero => hcount (UInt8.toNat_inj.mp hzero)
  have hlength := r.length_configured
  apply Option.ne_none_iff_exists'.mp
  rw [ne_eq, List.min?_eq_none_iff]
  intro hnil
  rw [hnil, List.length_nil] at hlength
  omega

/-! ## The tiling -/

/-- The regions of a record that passes the check, on a flash of whole sectors. Each slot in use has one, from its
address up to the next that is in use or to the end, of whole sectors. Those of different addresses have nothing in
common, and together they are all of the flash from the lowest slot on. Where the entries in use change places, so
do the regions. There is none for a slot that is not in use. -/
theorem regions_tile (hmod : flashSize % sectorSize = 0) (hvalid : r.validate flashSize = .ok ()) :
    (∀ i : Fin maxSlots, i < r.count.toNat → ∃ limit,
        r.limit? (slotOf i) flashSize = some limit ∧
          r.region? (slotOf i) flashSize = some ((r.addresses.get i).toNat, limit) ∧
          (r.addresses.get i).toNat < limit ∧ limit ≤ flashSize ∧ limit % sectorSize = 0 ∧
          ∀ j : Fin maxSlots, j < r.count.toNat → (r.addresses.get i).toNat < (r.addresses.get j).toNat →
            limit ≤ (r.addresses.get j).toNat) ∧
      (∀ slot slot' x, r.address? slot ≠ r.address? slot' →
        ¬ (r.InRegion flashSize slot x ∧ r.InRegion flashSize slot' x)) ∧
      (∃ lowest, r.configured.min? = some lowest ∧
        ∀ x, (∃ slot, r.InRegion flashSize slot x) ↔ lowest ≤ x ∧ x < flashSize) ∧
      (∀ (σ : Equiv.Perm (Fin maxSlots)) (r' : Record), r'.count = r.count →
        (∀ i : Fin maxSlots, i < r.count.toNat → σ i < r.count.toNat ∧
          r'.addresses.get i = r.addresses.get (σ i)) →
        ∀ i : Fin maxSlots, i < r.count.toNat →
          r'.region? (slotOf i) flashSize = r.region? (slotOf (σ i)) flashSize) ∧
      ∀ slot, r.count ≤ slot → r.address? slot = none ∧ r.limit? slot flashSize = none := by
  obtain ⟨hlayout, -⟩ := (validate_eq_ok_iff r flashSize).mp hvalid
  refine ⟨fun i hi => ?_, fun slot slot' x hne hboth => ?_, ?_, fun σ r' hcount hσ i hi => ?_,
    fun slot hslot => ?_⟩
  · have haddress := address?_slotOf hi
    obtain ⟨-, -, hlt⟩ := startable_of_address hlayout haddress
    refine ⟨_, ?_, region?_of_address haddress, lt_limitOf hlt, limitOf_le_flashSize _ _ _,
      limitOf_mod hlayout hmod _, fun j hj hij => limitOf_le flashSize (mem_configured_of_lt hj) hij⟩
    rw [limit?, haddress, Option.map_some]
  · exact hne (hboth.1.address_eq hboth.2)
  · obtain ⟨lowest, hlowest⟩ := hlayout.exists_lowest
    obtain ⟨hmem, hle⟩ := List.min?_eq_some_iff.mp hlowest
    refine ⟨lowest, hlowest, fun x => ⟨?_, ?_⟩⟩
    · rintro ⟨slot, hx⟩
      exact hx.bounds hle
    · rintro ⟨hx, hlt⟩
      exact exists_inRegion hmem hx hlt
  · exact region?_of_permuted hcount hσ hi
  · have hnone := address?_eq_none hslot
    exact ⟨hnone, by rw [limit?, hnone]; rfl⟩

/-- A table out of order, with an address that two slots share and an unused one below all others. -/
def unorderedRecord : Record :=
  { factory 0x10000 with count := 3, addresses := #v[0x8000, 0x4000, 0x8000, 0x2000] }

/-- The shared region goes up to the end of the flash, the lower one up to the shared one. What is below is in none:
the unused address does not count. -/
theorem regions_tile_unordered :
    unorderedRecord.validate 0x10000 = .ok () ∧
      unorderedRecord.region? 0 0x10000 = some (0x8000, 0x10000) ∧
      unorderedRecord.region? 1 0x10000 = some (0x4000, 0x8000) ∧
      unorderedRecord.region? 2 0x10000 = some (0x8000, 0x10000) ∧
      unorderedRecord.region? 3 0x10000 = none ∧
      ∀ x, (∃ slot, unorderedRecord.InRegion 0x10000 slot x) ↔ 0x4000 ≤ x ∧ x < 0x10000 := by
  have hvalid : unorderedRecord.validate 0x10000 = .ok () :=
    (validate_eq_ok_iff unorderedRecord 0x10000).mpr (by decide)
  obtain ⟨-, -, ⟨lowest, hlowest, hunion⟩, -⟩ := regions_tile (by decide) hvalid
  have hmin : lowest = 0x4000 := by
    rw [show unorderedRecord.configured.min? = some 0x4000 by decide] at hlowest
    exact (Option.some.inj hlowest).symm
  rw [hmin] at hunion
  exact ⟨hvalid, by decide, by decide, by decide, by decide, hunion⟩

end BootSlots.Record
