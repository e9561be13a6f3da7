import BootSlots.Proofs.Update.Runs

/-
  Which slots a session can reach. A session keeps to the region of its slot, so slots that start at another
  address are out of its reach, whatever is written, fails or is given up. The address is what counts: a
  table may list one address for two slots, and then each of them is the other's image.

  Proved:
  * `selected_region_kept`: a session elsewhere leaves the selected image as it was.
  * `region_kept_iff`: a slot is out of a session's reach exactly where it starts at another address than
    the session's slot, or past the end of the cells.

  Not claimed: that a session may not be opened on the selected slot. It may, and then the selected image
  is overwritten from its first byte on (`selected_region_changed`).
-/

namespace BootSlots.Engine

variable {e : Engine} {r : Record}

/-- No session on another start changes a cell of the region that starts at `b`. -/
theorem getElem?_cells_after_solo {slot : UInt8} {declared b x : Nat} {h : Handle} {calls : List Call}
    (hload : e.store.load = .ok r) (hb : b ∈ r.configured) (hne : r.address? slot ≠ some b)
    (hstart : (e.start slot declared).1 = .ok h) (hrun : (e.start slot declared).2.Solo calls)
    (hx : b ≤ x) (hx' : x < r.limitOf e.store.flash.capacity b) :
    ((e.start slot declared).2.after calls).store.flash.cells[x]? = e.store.flash.cells[x]? := by
  obtain ⟨a, ha, -, hflash, hlive⟩ := live_of_start hload hstart
  obtain ⟨-, hreach⟩ := solo_run hlive hrun
  have hlayout := Flash.layoutOk_of_load hload
  have himage : firstImageAddress ≤ b := (hlayout.2.2 b hb).2.1
  rw [hreach.getElem?_cells, hflash]
  rintro op (hop | hop)
  · have hab : a ≠ b := fun hab => hne (hab ▸ ha)
    have hout := Record.not_within_of_mem_region hlayout (Record.mem_configured ha) hb hab hx hx'
    exact fun hc => hout (hop x hc)
  · exact hop.not_covers_of_ge (by decide) (Nat.le_trans himage hx)

/-- The flash's faults are cleared, and an image is written through the session `h`. -/
def imageCalls (h : Handle) (image : List UInt8) : List Call :=
  [.setFaults {}, .write h image]

theorem solo_imageCalls (e : Engine) (h : Handle) (image : List UInt8) :
    e.Solo (imageCalls h image ++ [.finish h]) :=
  ⟨id, id, id, trivial⟩

/-- What fits into a slot can be brought there, over whatever is stored there. -/
theorem finish_after_imageCalls {slot : UInt8} {a : Nat} (image : List UInt8)
    (hload : e.store.load = .ok r) (hidle : e.active = none) (harena : e.arenaUsable = true)
    (hslot : slot < r.count) (ha : r.address? slot = some a) (himage : image ≠ [])
    (hlimit : a + image.length ≤ r.limitOf e.store.flash.capacity a)
    (hsize : a + image.length ≤ e.store.flash.cells.size) :
    (e.start slot 0).1 = .ok ⟨e.nextId⟩ ∧
      ((((e.start slot 0).2.after (imageCalls ⟨e.nextId⟩ image)).finish ⟨e.nextId⟩).1 = .ok () →
        image.head? = some Image.magic) ∧
      (((e.start slot 0).2.after (imageCalls ⟨e.nextId⟩ image)).finish
        ⟨e.nextId⟩).2.store.flash.cells.slice a image.length = image := by
  have hstart := start_eq_ok hload ha hidle harena 0
  obtain ⟨a', ha', -, hflash, hlive⟩ := live_of_start hload hstart
  obtain rfl := Option.some.inj (ha.symm.trans ha')
  -- without faults nothing stands against the write
  have hclear : ((e.start slot 0).2.setFaults {}).Live _ [] := hlive.congr rfl rfl fun _ _ => rfl
  have hload' : ((e.start slot 0).2.setFaults {}).store.load = .ok r := by
    refine Flash.loadRecord_of_slice_eq hload ?_ ?_ ?_ rfl <;> rw [← hflash] <;> rfl
  rw [← hflash] at hsize
  have hunhindered : ((e.start slot 0).2.setFaults {}).store.flash.Unhindered (a + image.length) :=
    ⟨rfl, rfl, hsize⟩
  obtain ⟨-, s, ops, hcont, hwritten, hflash', hops⟩ :=
    hclear.write_first ⟨e.nextId⟩ rfl himage rfl hlimit hunhindered
  -- nor against the end
  have hload'' := Flash.loadRecord_of_reaches (Flash.reaches_performAll _ hops) hclear.image hload'
    (by rw [Flash.faults_performAll]; rfl)
  rw [← hflash'] at hload''
  have hfree := hunhindered.performAll ops
  rw [← hflash'] at hfree
  obtain ⟨-, hslice, hend⟩ :=
    hwritten.finish_of_free hcont.id himage (by rw [hcont.start]; exact hfree) hload''
      (by rw [hcont.slot]; exact hslot)
  refine ⟨hstart, ?_, ?_⟩
  · intro hok
    rcases hend with ⟨-, hhead, -, -⟩ | ⟨hverify, -, -, -⟩
    · exact hhead
    · exact nomatch hok.symm.trans hverify
  · rw [hcont.start] at hslice
    exact hslice

/-! ## The selected image -/

/-- A session on a slot that starts elsewhere leaves the selected slot's region as it was. -/
theorem selected_region_kept {slot : UInt8} {declared b l x : Nat} {h : Handle} {calls : List Call}
    (hload : e.store.load = .ok r)
    (hregion : r.region? r.current e.store.flash.capacity = some (b, l))
    (hne : r.address? slot ≠ some b) (hstart : (e.start slot declared).1 = .ok h)
    (hrun : (e.start slot declared).2.Solo calls) (hx : b ≤ x) (hx' : x < l) :
    ((e.start slot declared).2.after calls).store.flash.cells[x]? = e.store.flash.cells[x]? := by
  obtain ⟨hb, rfl⟩ := Record.region?_eq_some_iff.mp hregion
  exact getElem?_cells_after_solo hload (Record.mem_configured hb) hne hstart hrun hx hx'

/-- On the factory layout, a session on the second slot leaves the first slot's image as it was. -/
theorem selected_region_kept_factory :
    ((provisioned (.factory provisionedSize)).start 1 0).1 = .ok ⟨1⟩ ∧
      (((provisioned (.factory provisionedSize)).start 1 0).2.after
          [.write ⟨1⟩ [0], .finish ⟨1⟩]).store.flash.cells[firstImageAddress]? =
        (provisioned (.factory provisionedSize)).store.flash.cells[firstImageAddress]? := by
  have hload := load_provisioned_factory
  have hsecond : (Record.factory provisionedSize).address? 1 = some (10 * sectorSize) := by decide
  have hstart := start_eq_ok hload hsecond rfl (arenaUsable_provisioned _) 0
  have hregion : (Record.factory provisionedSize).region?
      (Record.factory provisionedSize).current
      (provisioned (.factory provisionedSize)).store.flash.capacity =
        some (firstImageAddress, 10 * sectorSize) := by
    rw [capacity_provisioned]
    decide
  exact ⟨hstart, selected_region_kept hload hregion (by decide) hstart ⟨id, id, trivial⟩
    (Nat.le_refl _) (by decide)⟩

/-- A session on the selected slot is not refused, and its bytes overwrite the selected image. -/
theorem selected_region_changed :
    (provisioned (.factory provisionedSize)).store.load = .ok (.factory provisionedSize) ∧
      (Record.factory provisionedSize).region? (Record.factory provisionedSize).current
        (provisioned (.factory provisionedSize)).store.flash.capacity =
          some (firstImageAddress, 10 * sectorSize) ∧
      ((provisioned (.factory provisionedSize)).start defaultSlot 0).1 = .ok ⟨1⟩ ∧
      ((((provisioned (.factory provisionedSize)).start defaultSlot 0).2.after
        (imageCalls ⟨1⟩ [0])).finish ⟨1⟩).1 ≠ .ok () ∧
      ((((provisioned (.factory provisionedSize)).start defaultSlot 0).2.after
        (imageCalls ⟨1⟩ [0])).finish ⟨1⟩).2.store.flash.cells[firstImageAddress]? ≠
          (provisioned (.factory provisionedSize)).store.flash.cells[firstImageAddress]? := by
  have hload := load_provisioned_factory
  have hfirst : (Record.factory provisionedSize).address? defaultSlot = some firstImageAddress := by
    decide
  obtain ⟨hstart, hmagic, hslice⟩ := finish_after_imageCalls [0] hload rfl
    (arenaUsable_provisioned _) (by decide) hfirst (by decide)
    (by rw [capacity_provisioned]; decide) (by rw [size_provisioned]; decide)
  rw [nextId_provisioned] at hstart hmagic hslice
  refine ⟨hload, ?_, hstart, fun hok => absurd (hmagic hok) (by decide), fun hsame => ?_⟩
  · rw [capacity_provisioned]
    decide
  · rw [Memory.getElem?_of_slice_eq_singleton hslice,
      getElem?_provisioned (Nat.le_refl _) (by decide)] at hsame
    exact absurd hsame (by decide)

/-! ## Slots within reach -/

/-- A slot is out of reach of the sessions on slot `i` where it starts elsewhere, or past the cells. -/
theorem region_kept_iff {i j : UInt8} {b l : Nat} (hload : e.store.load = .ok r)
    (hidle : e.active = none) (harena : e.arenaUsable = true) (hi : i < r.count)
    (hregion : r.region? j e.store.flash.capacity = some (b, l)) :
    (∀ declared h calls, (e.start i declared).1 = .ok h → (e.start i declared).2.Solo calls →
        ∀ x, b ≤ x → x < l →
          ((e.start i declared).2.after calls).store.flash.cells[x]? = e.store.flash.cells[x]?) ↔
      r.address? i ≠ some b ∨ e.store.flash.cells.size ≤ b := by
  obtain ⟨hb, rfl⟩ := Record.region?_eq_some_iff.mp hregion
  have hlayout := Flash.layoutOk_of_load hload
  have hlimit : b < r.limitOf e.store.flash.capacity b :=
    Record.lt_limitOf (Record.startable_of_address hlayout hb).2.2
  constructor
  · intro hkept
    by_cases hi' : r.address? i = some b
    · refine .inr (Nat.not_lt.mp fun hlt => ?_)
      -- a byte that is not the stored one
      obtain ⟨v, hv⟩ : ∃ v : UInt8, e.store.flash.cells[b]? ≠ some v := by
        by_cases hzero : e.store.flash.cells[b]? = some 0
        · exact ⟨1, fun hone => absurd (hzero.symm.trans hone) (by decide)⟩
        · exact ⟨0, hzero⟩
      obtain ⟨hstart, -, hslice⟩ :=
        finish_after_imageCalls [v] hload hidle harena hi hi' (List.cons_ne_nil v []) hlimit hlt
      have hcell := hkept 0 _ _ hstart (solo_imageCalls _ ⟨e.nextId⟩ [v]) b (Nat.le_refl _) hlimit
      rw [after_append] at hcell
      exact hv (hcell.symm.trans (Memory.getElem?_of_slice_eq_singleton hslice))
    · exact .inl hi'
  · rintro (hne | hpast) declared h calls hstart hrun x hx hx'
    · exact getElem?_cells_after_solo hload (Record.mem_configured hb) hne hstart hrun hx hx'
    · obtain ⟨a, -, -, hflash, hlive⟩ := live_of_start hload hstart
      have hsize := (solo_run hlive hrun).2.size_cells
      rw [hflash] at hsize
      rw [Array.getElem?_eq_none (Nat.le_trans hpast hx),
        Array.getElem?_eq_none (hsize ▸ Nat.le_trans hpast hx)]

/-- Two slots at one address. -/
def twinRecord : Record :=
  { Record.factory provisionedSize with
    addresses := #v[UInt32.ofNat firstImageAddress, UInt32.ofNat firstImageAddress, 0, 0] }

/-- A table may list an address twice, and then a session on the first slot reaches the second. -/
theorem region_not_kept_twin :
    (provisioned twinRecord).store.load = .ok twinRecord ∧
      twinRecord.region? 1 (provisioned twinRecord).store.flash.capacity =
        some (firstImageAddress, provisionedSize) ∧
      ¬ ∀ declared h calls, ((provisioned twinRecord).start 0 declared).1 = .ok h →
        ((provisioned twinRecord).start 0 declared).2.Solo calls →
          ∀ x, firstImageAddress ≤ x → x < provisionedSize →
            (((provisioned twinRecord).start 0 declared).2.after calls).store.flash.cells[x]? =
              (provisioned twinRecord).store.flash.cells[x]? := by
  have hvalid := (Record.validate_eq_ok_iff twinRecord provisionedSize).mpr (by decide)
  have hload := load_provisioned rfl rfl hvalid
  have hregion : twinRecord.region? 1 (provisioned twinRecord).store.flash.capacity =
      some (firstImageAddress, provisionedSize) := by
    rw [capacity_provisioned]
    decide
  refine ⟨hload, hregion, fun hkept => ?_⟩
  have hcond := (region_kept_iff hload rfl (arenaUsable_provisioned _) (by decide) hregion).mp hkept
  rw [size_provisioned] at hcond
  exact absurd hcond (by decide)

end BootSlots.Engine
