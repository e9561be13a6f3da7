import BootSlots.Proofs.Board.Calls
import BootSlots.Proofs.Update.PowerLoss

/-
  What no history of a board can do to its flash, in whatever order the components are called and whatever
  fails. The boot loader's sector is never touched, nothing but the record and the regions of opened sessions
  changes, and the record's sector never holds half a record or one that breaks the rules.

  A region is the one that the record gave its slot when the session was opened. Where another component
  moves the slot afterwards, the session still writes to the old region.

  Proved:
  * `flash_confined`: every operation keeps to the record's sector or to the region of its session.
  * `record_sector_lawful`: what the record's sector holds, also where the power fails in between.
-/

namespace BootSlots

/-- The operation keeps to the addresses in `[start, limit)`. -/
def FlashOp.Inside (start limit : Nat) (op : FlashOp) : Prop :=
  ∀ x, op.Covers x → start ≤ x ∧ x < limit

theorem FlashOp.Within.inside {op : FlashOp} {start limit : Nat} (h : op.Within start limit)
    (hlimit : limit % sectorSize = 0) : op.Inside start limit :=
  fun _ hx => ⟨Nat.not_lt.mp fun hlt => h.not_covers_of_lt hlt hx,
    Nat.not_le.mp fun hle => h.not_covers_of_ge hlimit hle hx⟩

namespace Board

variable {b : Board}

/-- The regions of opened sessions are whole sectors above the record's. -/
theorem region_of_mem_started {calls : List Call} {s : Session} (hidle : b.engine.active = none)
    (hcap : b.flash.capacity % sectorSize = 0) (h : s ∈ b.started calls) :
    firstImageAddress ≤ s.start ∧ s.limit % sectorSize = 0 := by
  obtain ⟨pre, c, post, rfl, hopen⟩ := exists_of_mem_started h
  cases c with
  | engine c =>
    obtain ⟨hlive, r, hload, -, hlimit⟩ := Engine.opened?_eq_some hopen
    have hcap' : (b.after pre).flash.capacity % sectorSize = 0 := by
      rwa [capacity_after (.inl hidle : b.mountedEngine.Follows []) pre]
    exact ⟨hlive.image, hlimit ▸ Record.limitOf_mod (Flash.layoutOk_of_load hload) hcap' s.start⟩
  | _ => exact nomatch hopen

/-- Only the record's sector and the regions of opened sessions are ever erased or programmed. -/
theorem flash_confined (hidle : b.engine.active = none) (hcap : b.flash.capacity % sectorSize = 0)
    (calls : List Call) :
    (∀ pre c post, calls = pre ++ c :: post →
        ∃ ops, (b.after pre).flash.After ops ((b.after pre).next c).flash ∧
          ∀ op ∈ ops, op.Inside recordAddress firstImageAddress ∨
            ∃ s ∈ b.started pre, ∃ s', (b.after pre).issuer? c = some s' ∧ s.Continues s' ∧
              op.Inside s.start s.limit) ∧
      ∃ ops, b.flash.After ops (b.after calls).flash ∧
        (∀ op ∈ ops, ∀ x < recordAddress, ¬ op.Covers x) ∧
        ∀ x, x < recordAddress ∨ firstImageAddress ≤ x →
          (∀ s ∈ b.started calls, x < s.start ∨ s.limit ≤ x) →
            (b.after calls).flash.cells[x]? = b.flash.cells[x]? := by
  have hfollows : b.mountedEngine.Follows [] := .inl hidle
  have hrecord : firstImageAddress % sectorSize = 0 := by decide
  constructor
  · intro pre c post _
    have hpre := follows_after hfollows pre
    obtain ⟨ops, hafter, -, hops⟩ := next_ops hpre.sound c
    refine ⟨ops, hafter, ?_⟩
    intro op hop
    rcases hops op hop with hwithin | ⟨s', hs', hwithin⟩
    · exact .inl (hwithin.inside hrecord)
    · obtain ⟨s, hmem, hcont⟩ := issuer_of_follows hpre hs'
      rw [hcont.start, hcont.limit] at hwithin
      exact .inr ⟨s, hmem, s', hs', hcont, hwithin.inside (region_of_mem_started hidle hcap hmem).2⟩
  · obtain ⟨ops, hafter, -, hops⟩ := run_ops hfollows calls
    refine ⟨ops, hafter, ?_, ?_⟩
    · intro op hop x hx
      rcases hops op hop with hwithin | ⟨s, hmem, hwithin⟩
      · exact hwithin.not_covers_of_lt hx
      · have hstart := (region_of_mem_started hidle hcap hmem).1
        exact hwithin.not_covers_of_lt (Nat.lt_of_lt_of_le hx (Nat.le_trans (by decide) hstart))
    · intro x hx hout
      rw [hafter.cells]
      apply Memory.getElem?_replay_of_not_covers
      intro op hop hc
      rcases hops op hop with hwithin | ⟨s, hmem, hwithin⟩
      · have hinside := hwithin.inside hrecord x hc
        omega
      · have hinside := hwithin.inside (region_of_mem_started hidle hcap hmem).2 x hc
        have := hout s hmem
        omega

/-- The board starts up in the middle of a session on the second slot; sector 0 is never touched. -/
theorem flash_confined_factory :
    factoryBoard.engine.active = none ∧ factoryBoard.flash.capacity % sectorSize = 0 ∧
      ∃ ops, factoryBoard.flash.After ops
          (factoryBoard.after [.engine (.start 1 0), .engine (.write ⟨1⟩ [Image.magic]), .startUp,
            .engine (.finish ⟨1⟩)]).flash ∧
        ∀ op ∈ ops, ∀ x < recordAddress, ¬ op.Covers x := by
  have hcap : factoryBoard.flash.capacity % sectorSize = 0 := by
    rw [capacity_factoryBoard]
    decide
  obtain ⟨-, ops, hafter, hloader, -⟩ := flash_confined active_factoryBoard hcap
    [.engine (.start 1 0), .engine (.write ⟨1⟩ [Image.magic]), .startUp, .engine (.finish ⟨1⟩)]
  exact ⟨active_factoryBoard, hcap, ops, hafter, hloader⟩

/-! ## The record's sector -/

/-- Where the power fails after any operation, the sector holds what it held, nothing, or a sound record. -/
theorem record_sector_lawful (hidle : b.engine.active = none) (calls : List Call) :
    SectorHolds (·.validate b.flash.capacity = .ok ()) (b.flash.cells.slice recordAddress sectorSize)
        ((b.after calls).flash.cells.slice recordAddress sectorSize) ∧
      ∃ ops, b.flash.After ops (b.after calls).flash ∧
        ∀ k, SectorHolds (·.validate b.flash.capacity = .ok ())
          (b.flash.cells.slice recordAddress sectorSize)
          ((b.flash.cutAfter ops k).slice recordAddress sectorSize) := by
  obtain ⟨ops, hafter, horderly, -⟩ := run_ops (.inl hidle : b.mountedEngine.Follows []) calls
  have hcut : ∀ k, SectorHolds (·.validate b.flash.capacity = .ok ())
      (b.flash.cells.slice recordAddress sectorSize)
      ((b.flash.cutAfter ops k).slice recordAddress sectorSize) := by
    intro k
    rcases Nat.lt_or_ge b.flash.cells.size firstImageAddress with hlt | hge
    · -- the flash is too small to have the sector at all
      have hsize := b.flash.size_mod
      refine .inl (Memory.slice_congr fun x hx _ => ?_)
      have hpast : b.flash.cells.size ≤ x := by
        simp only [sectorSize_eq, recordAddress_eq, firstImageAddress_eq] at *
        omega
      rw [Array.getElem?_eq_none hpast, Array.getElem?_eq_none]
      rwa [Flash.cutAfter, Memory.size_replay]
    · exact ((horderly.take k).slice_record hge).mono fun _ hr => hr.1
  refine ⟨?_, ops, hafter, hcut⟩
  have hend := hcut ops.length
  rwa [Flash.cutAfter, List.take_length, ← hafter.cells] at hend

/-- A selection whose record cannot be programmed is no exception. -/
theorem record_sector_lawful_factory :
    factoryBoard.engine.active = none ∧
      SectorHolds (·.validate Engine.provisionedSize = .ok ())
        (factoryBoard.flash.cells.slice recordAddress sectorSize)
        ((factoryBoard.after [.engine (.setFaults { program := some recordSector }),
          .selectSlot 1]).flash.cells.slice recordAddress sectorSize) := by
  have hsector := (record_sector_lawful active_factoryBoard
    [.engine (.setFaults { program := some recordSector }), .selectSlot 1]).1
  rw [capacity_factoryBoard] at hsector
  exact ⟨active_factoryBoard, hsector⟩

end Board

end BootSlots
