import BootSlots.Proofs.Record.Repair
import BootSlots.Proofs.Record.Selection

/-
  A repair says what it had to do, does no more than that, and is done. There are three kinds of stores: a
  sound record is loaded, or the slot table breaks no rule and the selection strays out of it, or there is no
  table to keep. Of each store exactly one is true, and the answer of a repair tells which.

  Proved:
  * `hasTable_iff`: a table that is kept is that of a sound record or of one with a stray selection.
  * `repairs_of_load`, `repairs_of_strays`, `repairs_of_not_hasTable`: a repair that succeeds, for each kind.
  * `ensureValid_settles`: on a flash without faults, what a repair answers and leaves, whatever was stored.
-/

namespace BootSlots.Store

variable {s : Store} {flashSize : Nat} {r c : Record} {repair : Repair}

/-! ## What a repair finds -/

/-- A record is stored whose slot table breaks no rule and whose selection is not in it. -/
def Strays (s : Store) : Prop :=
  ∃ r, s.stored = .ok r ∧ r.LayoutOk s.flash.capacity ∧ r.count ≤ r.current

theorem load_iff_stored :
    s.load = .ok r ↔ s.stored = .ok r ∧ r.LayoutOk s.flash.capacity ∧ r.current < r.count := by
  rw [← Record.validate_eq_ok_iff]
  exact Flash.loadRecord_eq_ok_iff

theorem hasTable_iff : s.HasTable ↔ (∃ r, s.load = .ok r) ∨ s.Strays := by
  constructor
  · rintro ⟨r, hstored, hlayout⟩
    rcases UInt8.lt_or_le r.current r.count with hlt | hle
    · exact .inl ⟨r, load_iff_stored.mpr ⟨hstored, hlayout, hlt⟩⟩
    · exact .inr ⟨r, hstored, hlayout, hle⟩
  · rintro (⟨r, hload⟩ | ⟨r, hstored, hlayout, -⟩)
    · obtain ⟨hstored, hlayout, -⟩ := load_iff_stored.mp hload
      exact ⟨r, hstored, hlayout⟩
    · exact ⟨r, hstored, hlayout⟩

theorem not_strays_of_load (h : s.load = .ok r) : ¬ s.Strays := by
  rintro ⟨r', hstored, -, hle⟩
  obtain ⟨hstored', -, hlt⟩ := load_iff_stored.mp h
  obtain rfl := Except.ok.inj (hstored.symm.trans hstored')
  exact UInt8.not_lt.mpr hle hlt

/-! ## What a repair does -/

/-- The repair of `s` for flash of that size has left `s'`, with the record `c`. -/
structure Repairs (s : Store) (flashSize : Nat) (c : Record) (repair : Repair) (s' : Store) : Prop where
  load : s'.load = .ok c
  kept : repair = .kept ↔ s.load = .ok c
  selection : repair = .selection ↔ s.Strays
  defaults : repair = .defaults ↔ ¬ s.HasTable
  /-- A sound record costs no operation. -/
  same : repair = .kept → s' = s
  /-- A stray selection is all that is replaced. -/
  mended : repair = .selection → ∃ r, s.stored = .ok r ∧ c = r.select defaultSlot
  factory : repair = .defaults → c = .factory flashSize
  /-- Another repair, for flash of whatever size, finds the record and does nothing. -/
  again : ∀ flashSize', s'.ensureValid flashSize' = (.ok (c, .kept), s')

theorem repairs_of_load (h : s.load = .ok r) : s.Repairs flashSize r .kept s where
  load := h
  kept := iff_of_true rfl h
  selection := iff_of_false nofun (not_strays_of_load h)
  defaults := iff_of_false nofun (not_not_intro (hasTable_iff.mpr (.inl ⟨r, h⟩)))
  same _ := rfl
  mended := nofun
  factory := nofun
  again := ensureValid_of_load h

theorem repairs_of_strays {s' : Store} (h : s.Strays) (hload : s'.load = .ok (s.settled flashSize)) :
    s.Repairs flashSize (s.settled flashSize) .selection s' where
  load := hload
  kept := iff_of_false nofun fun hsound => not_strays_of_load hsound h
  selection := iff_of_true rfl h
  defaults := iff_of_false nofun (not_not_intro (hasTable_iff.mpr (.inr h)))
  same := nofun
  mended _ := by
    obtain ⟨r, hstored, hlayout, hle⟩ := h
    refine ⟨r, hstored, ?_⟩
    rw [settled_of_stored hstored hlayout, Record.mend, if_neg (UInt8.not_lt.mpr hle)]
  factory := nofun
  again := ensureValid_of_load hload

theorem repairs_of_not_hasTable {s' : Store} (h : ¬ s.HasTable)
    (hload : s'.load = .ok (s.settled flashSize)) :
    s.Repairs flashSize (s.settled flashSize) .defaults s' where
  load := hload
  kept := iff_of_false nofun fun hsound => h (hasTable_iff.mpr (.inl ⟨_, hsound⟩))
  selection := iff_of_false nofun fun hstrays => h (hasTable_iff.mpr (.inr hstrays))
  defaults := iff_of_true rfl h
  same := nofun
  mended := nofun
  factory _ := settled_of_not_hasTable h
  again := ensureValid_of_load hload

/-- On a flash without faults a repair succeeds and does what the store needs, or the factory record for that
size does not fit the flash; then the flash stays as it is. -/
theorem ensureValid_settles (hfaults : s.flash.faults = {})
    (hsize : firstImageAddress ≤ s.flash.cells.size) (flashSize : Nat) :
    (∃ c repair, (s.ensureValid flashSize).1 = .ok (c, repair) ∧
        s.Repairs flashSize c repair (s.ensureValid flashSize).2) ∨
      (s.ensureValid flashSize).1 = .error .invalidLayout ∧
        (s.ensureValid flashSize).2.flash = s.flash ∧
        (Record.factory flashSize).validate s.flash.capacity ≠ .ok () := by
  by_cases hvalid : (s.settled flashSize).validate s.flash.capacity = .ok ()
  · obtain ⟨repair, hok⟩ := ensureValid_of_free hfaults hsize hvalid
    obtain ⟨-, -, hload⟩ := ensureValid_eq_ok hok
    by_cases hsound : ∃ r, s.load = .ok r
    · obtain ⟨r, hr⟩ := hsound
      rw [ensureValid_of_load hr]
      exact .inl ⟨r, .kept, rfl, repairs_of_load hr⟩
    · obtain ⟨repair', hkind, hresult, -⟩ :=
        ensureValid_of_unsound (stored_of_free hfaults hsize) (not_exists.mp hsound) flashSize
      refine .inl ⟨s.settled flashSize, repair', ?_, ?_⟩
      · rw [hresult, save_of_free hfaults hsize hvalid]
        rfl
      · rcases hkind with ⟨htable, rfl⟩ | ⟨htable, rfl⟩
        · exact repairs_of_strays ((hasTable_iff.mp htable).resolve_left hsound) hload
        · exact repairs_of_not_hasTable htable hload
  · obtain ⟨hfault, hflash⟩ := ensureValid_of_not_valid hfaults hsize hvalid
    exact .inr ⟨hfault, hflash, fun hfactory => hvalid (validate_settled_of_factory hfactory)⟩

/-- A record with two slots that selects another one. -/
theorem ensureValid_settles_stray :
    (holding (twoSlots.select 9)).flash.faults = {} ∧
      firstImageAddress ≤ (holding (twoSlots.select 9)).flash.cells.size ∧
      ((holding (twoSlots.select 9)).ensureValid 0).1 = .ok (twoSlots.select 0, .selection) ∧
      (((holding (twoSlots.select 9)).ensureValid 0).2.ensureValid 0x100000).1 =
        .ok (twoSlots.select 0, .kept) := by
  have hsize : firstImageAddress ≤ (holding (twoSlots.select 9)).flash.cells.size := by
    rw [size_holding]
    decide
  have hstored : (holding (twoSlots.select 9)).stored = .ok (twoSlots.select 9) := stored_holding rfl rfl
  have hstrays : (holding (twoSlots.select 9)).Strays := by
    refine ⟨_, hstored, ?_, by decide⟩
    rw [capacity_holding]
    decide
  obtain ⟨c, repair, hok, hrepairs⟩ | ⟨-, -, hfactory⟩ :=
    ensureValid_settles (faults_holding (twoSlots.select 9)) hsize 0
  · obtain rfl := hrepairs.selection.mpr hstrays
    obtain ⟨r, hr, rfl⟩ := hrepairs.mended rfl
    obtain rfl := Except.ok.inj (hstored.symm.trans hr)
    exact ⟨faults_holding _, hsize, hok, congrArg Prod.fst (hrepairs.again 0x100000)⟩
  · refine absurd ((Record.validate_factory_eq_ok_iff (by decide)).mpr ?_) hfactory
    rw [capacity_holding]
    decide

end BootSlots.Store
