import BootSlots.Proofs.Update.Runs

/-
  A whole session on a flash without faults: a start, writes in any pieces, and an end. The stream may be
  of any length up to the end of the slot, the arena of any number of sectors, and the flash may hold
  anything; calls that are refused on the way change nothing.

  Proved:
  * `runSession_commits`: the end succeeds exactly where the stream starts with the magic byte. Then the
    stream is stored from the slot's address on and the slot is selected; otherwise the record is as before.
-/

namespace BootSlots.Engine

theorem status_of_last {e : Engine} {h : Handle} {s : Session} (hidle : e.active = none)
    (hlast : e.last = some s) (hid : s.id = h.id) : e.status h = s.status := by
  have hfound : [s].find? (·.id == h.id) = some s := by
    rw [List.find?_singleton, hid, beq_self_eq_true]
    rfl
  have hlone : e.active.toList ++ e.last.toList = [s] := by
    rw [hidle, hlast]
    rfl
  rw [status, hlone, hfound]

variable {e : Engine} {r : Record}

/-- Without faults, a whole session commits its stream or leaves the record as it was. -/
theorem runSession_commits {slot : UInt8} {declared : Nat} {calls : List Call}
    (hload : e.store.load = .ok r) (hidle : e.active = none) (harena : e.arenaUsable = true)
    (hfaults : e.store.flash.faults = {}) (hclaimed : e.store.flash.claimed = none)
    (hslot : slot < r.count) (hcalls : (e.start slot declared).2.Throughout Uploads calls)
    (hdata : e.sessionData slot declared calls ≠ []) :
    (e.start slot declared).1 = .ok ⟨e.nextId⟩ ∧ ∃ a, r.address? slot = some a ∧
      (e.runSession slot declared calls).2.isInProgress = false ∧
      ((e.runSession slot declared calls).1 = .ok () ↔
        (e.sessionData slot declared calls).head? = some Image.magic) ∧
      ((e.runSession slot declared calls).1 = .ok () →
        (e.runSession slot declared calls).2.store.flash.cells.slice a
            (e.sessionData slot declared calls).length = e.sessionData slot declared calls ∧
          (e.runSession slot declared calls).2.store.load = .ok (r.select slot) ∧
          ((e.runSession slot declared calls).2.status ⟨e.nextId⟩).phase = .complete) ∧
      ((e.runSession slot declared calls).1 ≠ .ok () →
        (e.runSession slot declared calls).1 = .error .verifyFailed ∧
          (e.runSession slot declared calls).2.store.flash.cells.slice recordAddress sectorSize =
            e.store.flash.cells.slice recordAddress sectorSize ∧
          ((e.runSession slot declared calls).2.status ⟨e.nextId⟩).phase = .failed) := by
  have hlayout := Flash.layoutOk_of_load hload
  obtain ⟨a, ha⟩ := Record.exists_address hlayout hslot
  have hstart := start_eq_ok hload ha hidle harena declared
  obtain ⟨a', ha', -, hflash, hlive⟩ := live_of_start hload hstart
  obtain rfl := Option.some.inj (ha.symm.trans ha')
  -- over the calls the session stays live, and no fault comes up
  obtain ⟨s, hcont, hlive', hfaults', hreach⟩ := uploads_run hlive hcalls
  rw [hflash] at hfaults' hreach
  rw [hfaults] at hfaults'
  have hload' := Flash.loadRecord_of_reaches hreach hlive.image hload (by rw [hfaults'])
  have hfree : ((e.start slot declared).2.after calls).store.flash.Unhindered
      (s.start + ((e.start slot declared).2.accepted calls).length) := by
    refine ⟨by rw [hfaults'], by rw [hfaults'], Nat.le_trans hlive'.fits ?_⟩
    rw [hcont.limit, hreach.size_cells, ← Flash.capacity_of_claimed hclaimed]
    exact r.limitOf_le_flashSize _ a
  -- so the first byte decides
  obtain ⟨hreleased, hslice, hend⟩ := hlive'.finish_of_free hcont.id hdata hfree hload'
    (by rw [hcont.slot]; exact hslot)
  refine ⟨hstart, a, ha, ?_, ?_⟩
  · rw [isInProgress, runSession, hreleased]
    rfl
  · rcases hend with ⟨hok, hhead, hlast, hselected⟩ | ⟨hverify, hhead, hlast, hrecord⟩
    · refine ⟨⟨fun _ => hhead, fun _ => hok⟩, fun _ => ⟨?_, ?_, ?_⟩, fun hne => absurd hok hne⟩
      · rw [hcont.start] at hslice
        exact hslice
      · rw [hcont.slot] at hselected
        exact hselected
      · rw [runSession, status_of_last hreleased hlast hcont.id]
        rfl
    · have hfail : ((e.runSession slot declared calls).1 = .ok ()) → False := by
        intro hok
        cases hverify.symm.trans hok
      refine ⟨⟨fun hok => (hfail hok).elim, fun hmagic => absurd hmagic hhead⟩,
        fun hok => (hfail hok).elim, fun _ => ⟨hverify, ?_, ?_⟩⟩
      · exact hrecord.trans (Flash.slice_record_of_reaches hreach hlive.image)
      · rw [runSession, status_of_last hreleased hlast hcont.id]
        rfl

/-- Without faults, an image that fits is taken in by the first write after the start. -/
theorem write_after_start {slot : UInt8} {a : Nat} {image : List UInt8} (hload : e.store.load = .ok r)
    (hidle : e.active = none) (harena : e.arenaUsable = true) (ha : r.address? slot = some a)
    (himage : image ≠ []) (hlimit : a + image.length ≤ r.limitOf e.store.flash.capacity a)
    (hfree : e.store.flash.Unhindered (a + image.length)) :
    ((e.start slot 0).2.write ⟨e.nextId⟩ image).1 = .ok () :=
  (write_first_of_start hload hidle harena ha himage hlimit hfree).2.1

/-- The second slot of the factory layout takes in a one-byte image and is selected. -/
theorem runSession_commits_factory :
    ((provisioned (.factory provisionedSize)).runSession 1 0 [.write ⟨1⟩ [Image.magic]]).1 = .ok () ∧
      ((provisioned (.factory provisionedSize)).runSession 1 0
        [.write ⟨1⟩ [Image.magic]]).2.store.load = .ok ((Record.factory provisionedSize).select 1) := by
  have hload := load_provisioned_factory
  have hsecond : (Record.factory provisionedSize).address? 1 = some (10 * sectorSize) := by decide
  have hfree : (provisioned (.factory provisionedSize)).store.flash.Unhindered
      (10 * sectorSize + [Image.magic].length) := by
    refine ⟨by rw [faults_provisioned], by rw [faults_provisioned], ?_⟩
    rw [size_provisioned]
    decide
  have hwrite := write_after_start hload rfl (arenaUsable_provisioned _) hsecond
    (List.cons_ne_nil Image.magic []) (by rw [capacity_provisioned]; decide) hfree
  rw [nextId_provisioned] at hwrite
  have hdata : (provisioned (.factory provisionedSize)).sessionData 1 0 [.write ⟨1⟩ [Image.magic]] =
      [Image.magic] := by
    rw [sessionData, accepted, taken, hwrite]
    rfl
  have hcalls : Throughout Uploads ((provisioned (.factory provisionedSize)).start 1 0).2
      [.write ⟨1⟩ [Image.magic]] := ⟨.inl hwrite, trivial⟩
  have hslot : 1 < (Record.factory provisionedSize).count := by decide
  obtain ⟨-, _, -, -, hiff, hok, -⟩ := runSession_commits hload rfl (arenaUsable_provisioned _)
    (faults_provisioned _) (claimed_provisioned _) hslot hcalls
    (by rw [hdata]; exact List.cons_ne_nil _ _)
  have hdone := hiff.mpr (by rw [hdata]; rfl)
  exact ⟨hdone, (hok hdone).2.1⟩

end BootSlots.Engine
