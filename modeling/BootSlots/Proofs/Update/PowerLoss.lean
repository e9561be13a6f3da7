import BootSlots.Proofs.Update.Runs

/-
  What a power loss can leave behind in the middle of a session. Power may fail between any two operations
  on the flash, so the states to look at are the initial parts of the session's operations, whatever faults
  came up, and whether or not the session went through.

  The record's sector is erased and programmed by the last two operations, if at all, and they come only
  once the whole stream is stored and starts with the magic byte. In between no record is stored; nothing
  here takes that window away.

  Proved:
  * `runSession_ops`: the operations of a session, in order.
  * `power_loss_states`: what each initial part of them leaves.
-/

namespace BootSlots

/-- The cells that are left when the power fails after the first `k` operations. -/
def Flash.cutAfter (f : Flash) (ops : List FlashOp) (k : Nat) : Memory :=
  f.cells.replay (ops.take k)

/-- The whole image is stored from `start` on and begins with the magic byte. -/
def Memory.HoldsImage (m : Memory) (start : Nat) (image : List UInt8) : Prop :=
  m.slice start image.length = image ∧ image.head? = some Image.magic

/-- The record's sector before, between and after the two operations of a save. -/
theorem Flash.slice_record_cutAfter {f : Flash} {image : List FlashOp} {r : Record}
    {start limit n k : Nat} (himage : ∀ op ∈ image, op.Within start limit)
    (hstart : firstImageAddress ≤ start) (hsize : firstImageAddress ≤ f.cells.size) (hn : n ≤ 2)
    (hk : k ≤ (image ++ r.saveOps.take n).length) :
    (k < image.length + 1 →
        (f.cutAfter (image ++ r.saveOps.take n) k).slice recordAddress sectorSize =
          f.cells.slice recordAddress sectorSize) ∧
      (image.length + 1 ≤ k → k < image.length + 2 →
        (f.cutAfter (image ++ r.saveOps.take n) k).slice recordAddress sectorSize =
          List.replicate sectorSize erased) ∧
      (image.length + 2 ≤ k →
        (f.cutAfter (image ++ r.saveOps.take n) k).slice recordAddress sectorSize =
          r.storedSector) := by
  have hlen : r.saveOps.length = 2 := rfl
  rw [List.length_append, List.length_take, hlen, Nat.min_eq_left hn] at hk
  have hcut : ∀ j, k = image.length + j →
      f.cutAfter (image ++ r.saveOps.take n) k = (f.cells.replay image).replay (r.saveOps.take j) := by
    intro j hj
    rw [cutAfter, hj, List.take_length_add_append, Memory.replay_append, List.take_take,
      Nat.min_eq_left (by omega)]
  have hfits : firstImageAddress ≤ (f.cells.replay image).size := by
    rwa [Memory.size_replay]
  refine ⟨fun hlt => ?_, fun hle hlt => ?_, fun hle => ?_⟩
  · rw [cutAfter, List.take_append_of_le_length (Nat.le_of_lt_succ hlt)]
    refine Memory.slice_replay_of_not_covers (fun op hop x _ hx => ?_) _
    have hop' := himage op (List.mem_of_mem_take hop)
    exact hop'.not_covers_of_lt (Nat.lt_of_lt_of_le hx hstart)
  · rw [hcut 1 (by omega)]
    exact Memory.slice_replay_eraseRecord hfits
  · rw [hcut 2 (by omega), List.take_of_length_le (Nat.le_of_eq hlen)]
    exact Memory.slice_replay_saveOps r hfits

/-- What the image's operations stored outlasts those of the save. -/
theorem Flash.holdsImage_cutAfter {f : Flash} {image : List FlashOp} {r : Record} {d : List UInt8}
    {start n k : Nat} (h : (f.cells.replay image).HoldsImage start d)
    (hstart : firstImageAddress ≤ start) (hk : image.length ≤ k) :
    (f.cutAfter (image ++ r.saveOps.take n) k).HoldsImage start d := by
  refine ⟨?_, h.2⟩
  rw [cutAfter, List.take_append, List.take_of_length_le hk, Memory.replay_append,
    Memory.slice_replay_of_not_covers, h.1]
  intro op hop x hx _
  have hop' := Record.within_of_mem_saveOps (List.mem_of_mem_take (List.mem_of_mem_take hop))
  exact hop'.not_covers_of_ge (by decide) (Nat.le_trans hstart hx)

namespace Engine

variable {e : Engine} {r : Record}

/-- A session first fills its region, then selects its slot, and the second only over a whole image. -/
theorem runSession_ops {slot : UInt8} {declared : Nat} {h : Handle} {calls : List Call}
    (hload : e.store.load = .ok r) (hstart : (e.start slot declared).1 = .ok h)
    (hcalls : (e.start slot declared).2.Throughout Feeds calls) :
    ∃ a image n, r.address? slot = some a ∧ n ≤ 2 ∧
      (∀ op ∈ image, op.Within a (r.limitOf e.store.flash.capacity a)) ∧
      e.store.flash.After (image ++ (r.select slot).saveOps.take n)
        (e.runSession slot declared calls).2.store.flash ∧
      (0 < n →
        (e.store.flash.cells.replay image).HoldsImage a (e.sessionData slot declared calls)) := by
  obtain ⟨a, ha, -, hflash, hlive⟩ := live_of_start hload hstart
  obtain ⟨hserves, image, hafter, himage⟩ := feeds_run hlive hcalls
  rw [hflash] at hafter
  rw [runSession]
  have hnone : (r.select slot).saveOps.take 0 = [] := rfl
  obtain ⟨-, heq⟩ | ⟨s, hactive, hphase⟩ :=
    ((e.start slot declared).2.after calls).finish_cases ⟨e.nextId⟩
  · refine ⟨a, image, 0, ha, Nat.zero_le _, himage, ?_, nofun⟩
    rw [heq, hnone, List.append_nil]
    exact hafter
  · obtain ⟨-, phase, heq, -⟩ := finish_of_writing hactive hphase
    rw [heq]
    obtain ⟨hcont, hfailed | hlive'⟩ := hserves s (live?_eq_some_iff.mp hactive).1
    · exact nomatch hphase.symm.trans hfailed
    · obtain ⟨flushed, hflushed, -, hend⟩ := hlive'.conclude
      have himage' : ∀ op ∈ image ++ flushed, op.Within a (r.limitOf e.store.flash.capacity a) := by
        intro op hop
        rcases List.mem_append.mp hop with hop | hop
        · exact himage op hop
        · have hwithin := hflushed op hop
          rw [hcont.start, hcont.limit] at hwithin
          exact hwithin
      have hafter' := hafter.trans (Flash.after_performAll _ flushed)
      rcases hend with ⟨-, hflash', -⟩ | ⟨hslice, hhead, store, hstore, hflash', -⟩
      · refine ⟨a, image ++ flushed, 0, ha, Nat.zero_le _, himage', ?_, nofun⟩
        rw [hnone, List.append_nil, release, hflash']
        exact hafter'
      · have hwhole : (e.store.flash.cells.replay (image ++ flushed)).slice a
            (e.sessionData slot declared calls).length = e.sessionData slot declared calls := by
          rw [hafter.cells, ← Memory.replay_append, hcont.start] at hslice
          exact hslice
        rw [← hstore] at hafter'
        obtain ⟨record, hrecord, ⟨rfl, -⟩ | ⟨r', n, hload', -, hn, rfl, -⟩⟩ :=
          store.selectSlot_ops s.slot
        · refine ⟨a, image ++ flushed, 0, ha, Nat.zero_le _, himage', ?_, nofun⟩
          rw [hnone, List.append_nil, release, hflash', hrecord]
          exact hafter'
        · -- the record that is loaded now is still the one from the start
          have hreach : e.store.flash.Reaches (·.Within a _) store.flash := ⟨_, hafter', himage'⟩
          have hsector := Flash.slice_record_of_reaches hreach hlive.image
          obtain rfl := Flash.record_unique hload hload' hsector
          refine ⟨a, image ++ flushed, n, ha, hn, himage', ?_, fun _ => ⟨hwhole, hhead⟩⟩
          rw [release, hflash', hrecord, hcont.slot]
          exact hafter'.trans (Flash.after_performAll _ _)

/-- At no point of a session does the record select its slot before the image is whole. -/
theorem power_loss_states {slot : UInt8} {declared : Nat} {h : Handle} {calls : List Call}
    (hload : e.store.load = .ok r) (hstart : (e.start slot declared).1 = .ok h)
    (hcalls : (e.start slot declared).2.Throughout Feeds calls) :
    ∃ a ops erasedAt storedAt, r.address? slot = some a ∧
      e.store.flash.After ops (e.runSession slot declared calls).2.store.flash ∧
      erasedAt ≤ storedAt ∧
      ∀ k ≤ ops.length,
        (k < erasedAt →
          (e.store.flash.cutAfter ops k).slice recordAddress sectorSize =
            e.store.flash.cells.slice recordAddress sectorSize) ∧
        (erasedAt ≤ k → k < storedAt →
          (e.store.flash.cutAfter ops k).slice recordAddress sectorSize =
            List.replicate sectorSize erased) ∧
        (storedAt ≤ k →
          (e.store.flash.cutAfter ops k).slice recordAddress sectorSize =
            (r.select slot).storedSector) ∧
        (erasedAt ≤ k →
          (e.store.flash.cutAfter ops k).HoldsImage a (e.sessionData slot declared calls)) ∧
        (slot ≠ r.current →
          ∀ r', Record.decode ((e.store.flash.cutAfter ops k).slice recordAddress recordSize) = .ok r' →
            r'.current = slot →
              (e.store.flash.cutAfter ops k).HoldsImage a (e.sessionData slot declared calls)) := by
  obtain ⟨a, image, n, ha, hn, himage, hafter, hwhole⟩ := runSession_ops hload hstart hcalls
  obtain ⟨-, hsize, hdecode⟩ := Flash.stored_of_load hload
  have hfirst := (Record.startable_of_address (Flash.layoutOk_of_load hload) ha).2.1
  refine ⟨a, _, image.length + 1, image.length + 2, ha, hafter, Nat.le_succ _, fun k hk => ?_⟩
  obtain ⟨hold, hblank, hnew⟩ := Flash.slice_record_cutAfter himage hfirst hsize hn hk
  have hheld : image.length + 1 ≤ k →
      (e.store.flash.cutAfter (image ++ (r.select slot).saveOps.take n) k).HoldsImage a
        (e.sessionData slot declared calls) := by
    intro hle
    have hpos : 0 < n := by
      rw [List.length_append, List.length_take] at hk
      omega
    exact Flash.holdsImage_cutAfter (hwhole hpos) hfirst (Nat.le_of_succ_le hle)
  refine ⟨hold, hblank, hnew, hheld, fun hslot r' hr' hcurrent => ?_⟩
  rcases Nat.lt_or_ge k (image.length + 1) with hlt | hle
  · -- the old record is still there, and it selects another slot
    rw [Memory.slice_record, hold hlt, ← Memory.slice_record, hdecode] at hr'
    obtain rfl := Except.ok.inj hr'
    exact absurd hcurrent.symm hslot
  · exact hheld hle

/-- On the factory layout: where the second slot is selected after a power loss, its image is whole. -/
theorem power_loss_states_factory :
    ((provisioned (.factory provisionedSize)).start 1 0).1 = .ok ⟨1⟩ ∧
      ∃ ops, (provisioned (.factory provisionedSize)).store.flash.After ops
          ((provisioned (.factory provisionedSize)).runSession 1 0
            [.write ⟨1⟩ [Image.magic]]).2.store.flash ∧
        ∀ k ≤ ops.length, ∀ r',
          Record.decode (((provisioned (.factory provisionedSize)).store.flash.cutAfter ops k).slice
            recordAddress recordSize) = .ok r' → r'.current = 1 →
          ((provisioned (.factory provisionedSize)).store.flash.cutAfter ops k).HoldsImage
            (10 * sectorSize)
            ((provisioned (.factory provisionedSize)).sessionData 1 0 [.write ⟨1⟩ [Image.magic]]) := by
  have hload := load_provisioned_factory
  have hsecond : (Record.factory provisionedSize).address? 1 = some (10 * sectorSize) := by decide
  have hstart := start_eq_ok hload hsecond rfl (arenaUsable_provisioned _) 0
  have hcalls : Throughout Feeds ((provisioned (.factory provisionedSize)).start 1 0).2
      [.write ⟨1⟩ [Image.magic]] := ⟨trivial, trivial⟩
  obtain ⟨a, ops, _, _, ha, hafter, -, hstates⟩ := power_loss_states hload hstart hcalls
  obtain rfl := Option.some.inj (ha.symm.trans hsecond)
  refine ⟨hstart, ops, hafter, fun k hk => ?_⟩
  obtain ⟨-, -, -, -, hselected⟩ := hstates k hk
  exact hselected (by decide)

end Engine

end BootSlots
