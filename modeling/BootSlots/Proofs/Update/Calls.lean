import BootSlots.Proofs.Record.Selection
import BootSlots.Update.Engine

/-
  Histories of calls. A history is a list of calls to one engine, with switches of the device's faults in
  between; `after` is the engine at its end. Logs never decide anything, so engines are compared by `quiet`,
  which leaves them out.

  Proved, one lemma for each operation:
  * `start_cases`, `write_cases`, `take_cases`, `conclude_cases`, `finish_cases`: all that the operation can
    do.
  * `start_eq_ok`, `write_eq_take`, `finish_of_writing`: when it is not refused; `start_of_live`: when it is.
  * `quiet_next_of_refuses`: a refused call changes the logs only.
-/

namespace BootSlots

namespace Engine

/-- One call of an engine, or a switch of its device's faults from outside. -/
inductive Call where
  | start (slot : UInt8) (declared : Nat)
  | write (h : Handle) (data : List UInt8)
  | finish (h : Handle)
  | cancel (h : Handle)
  | status (h : Handle)
  | currentSlot
  | selectSlot (slot : UInt8)
  | setFaults (faults : FlashFaults)

/-- Switches the faults of the engine's device. -/
def setFaults (e : Engine) (faults : FlashFaults) : Engine :=
  { e with store := { e.store with flash := { e.store.flash with faults } } }

/-- The engine after one call. -/
def next (e : Engine) : Call → Engine
  | .start slot declared => (e.start slot declared).2
  | .write h data => (e.write h data).2
  | .finish h => (e.finish h).2
  | .cancel h => e.cancel h
  | .status _ => e
  | .currentSlot => e.currentSlot.2
  | .selectSlot slot => (e.selectSlot slot).2
  | .setFaults faults => e.setFaults faults

/-- The engine after a history. -/
def after (e : Engine) (calls : List Call) : Engine :=
  calls.foldl next e

@[simp] theorem after_nil (e : Engine) : e.after [] = e := rfl

@[simp] theorem after_cons (e : Engine) (c : Call) (calls : List Call) :
    e.after (c :: calls) = (e.next c).after calls := rfl

theorem after_append (e : Engine) (calls calls' : List Call) :
    e.after (calls ++ calls') = (e.after calls).after calls' :=
  List.foldl_append

/-- The call is refused: its arguments are bad, or it gives up a session that is not live. -/
def Refuses (e : Engine) : Call → Prop
  | .start slot declared => ∃ fault, (e.start slot declared).1 = .error fault
  | .write h data => (e.write h data).1 = .error .invalidArgs
  | .finish h => (e.finish h).1 = .error .invalidArgs
  | .cancel h => e.live? h = none
  | .selectSlot slot => (e.selectSlot slot).1 = .error .invalidSlot
  | .status _ | .currentSlot | .setFaults _ => False

/-- The engine with its logs left out. -/
def quiet (e : Engine) : Engine :=
  { e with log := .empty, store := { e.store with log := .empty } }

theorem flash_of_quiet_eq {e e' : Engine} (h : e.quiet = e'.quiet) : e.store.flash = e'.store.flash :=
  congrArg (·.store.flash) h

theorem active_of_quiet_eq {e e' : Engine} (h : e.quiet = e'.quiet) : e.active = e'.active :=
  congrArg (·.active) h

theorem arena_of_quiet_eq {e e' : Engine} (h : e.quiet = e'.quiet) : e.arena = e'.arena :=
  congrArg (·.arena) h

theorem live?_eq_some_iff {e : Engine} {h : Handle} {s : Session} :
    e.live? h = some s ↔ e.active = some s ∧ s.id = h.id := by
  unfold live?
  cases ha : e.active with
  | none => simp
  | some t =>
    by_cases hid : t.id = h.id
    · simp only [if_pos hid, Option.some.injEq]
      exact ⟨fun ht => ⟨ht, ht ▸ hid⟩, fun ht => ht.1⟩
    · simp only [if_neg hid, Option.some.injEq]
      exact ⟨nofun, fun ht => absurd (ht.1 ▸ ht.2) hid⟩

/-! ## What each operation can do -/

/-- The session that a start opens. -/
def opened (e : Engine) (slot : UInt8) (declared address limit : Nat) : Session where
  id := e.nextId
  slot := slot
  limit := limit
  declared := declared
  accepted := 0
  cursor := .start address
  phase := .started

theorem start_cases (e : Engine) (slot : UInt8) (declared : Nat) :
    (∃ fault, (e.start slot declared).1 = .error fault) ∧
        (e.start slot declared).2.quiet = e.quiet ∨
      ∃ address limit, e.store.region? slot = some (address, limit) ∧ e.active = none ∧
        e.arenaUsable = true ∧ (e.start slot declared).1 = .ok ⟨e.nextId⟩ ∧
        (e.start slot declared).2.quiet =
          { e with
            active := some (e.opened slot declared address limit)
            nextId := idAfter e.nextId }.quiet := by
  unfold start
  split
  · exact .inl ⟨⟨_, rfl⟩, rfl⟩
  · rename_i address limit hregion
    split
    · exact .inl ⟨⟨_, rfl⟩, rfl⟩
    · rename_i hidle
      split
      · rename_i harena
        refine .inr ⟨address, limit, hregion, ?_, harena, rfl, rfl⟩
        exact Option.not_isSome_iff_eq_none.mp hidle
      · exact .inl ⟨⟨_, rfl⟩, rfl⟩

/-- An idle engine with a usable arena does not refuse to start on a slot in use. -/
theorem start_eq_ok {e : Engine} {r : Record} {slot : UInt8} {a : Nat} (hload : e.store.load = .ok r)
    (ha : r.address? slot = some a) (hidle : e.active = none) (harena : e.arenaUsable = true)
    (declared : Nat) : (e.start slot declared).1 = .ok ⟨e.nextId⟩ := by
  have hregion : e.store.region? slot = some (a, r.limitOf e.store.flash.capacity a) := by
    rw [Store.region?, hload]
    exact Option.map_eq_some_iff.mpr ⟨a, ha, rfl⟩
  have hnot : ¬ e.isInProgress = true := by
    rw [isInProgress, hidle]
    exact Bool.false_ne_true
  unfold start
  rw [hregion]
  simp only [if_neg hnot, if_pos harena]

/-- While a session is live, a start is refused, as being in progress if its slot is in use. -/
theorem start_of_live {e : Engine} {s : Session} (hlive : e.active = some s) (slot : UInt8)
    (declared : Nat) : (e.start slot declared).1 =
      .error (if (e.store.region? slot).isSome then .inProgress else .invalidArgs) := by
  have hbusy : e.isInProgress = true := by
    rw [isInProgress, hlive]
    rfl
  unfold start
  cases e.store.region? slot with
  | none => rfl
  | some region =>
    dsimp only
    rw [if_pos hbusy]
    rfl

/-- A write is refused, or it fits and its data go to the live session. -/
theorem write_cases (e : Engine) (h : Handle) (data : List UInt8) :
    (e.write h data).1 = .error .invalidArgs ∧ (e.write h data).2.quiet = e.quiet ∨
      ∃ s, e.live? h = some s ∧ s.phase.takesData = true ∧ data ≠ [] ∧
        s.accepted + data.length < addressSpace ∧
        ¬ (e.settings.enforceDeclaredSize = true ∧ 0 < s.declared ∧
          s.declared < s.accepted + data.length) ∧
        s.start + (s.accepted + data.length) ≤ s.limit ∧
        e.write h data = e.take s data (s.accepted + data.length) := by
  unfold write
  split
  · exact .inl ⟨rfl, rfl⟩
  · rename_i s hs
    dsimp only
    split
    · exact .inl ⟨rfl, rfl⟩
    · rename_i hargs
      split
      · exact .inl ⟨rfl, rfl⟩
      · rename_i hdeclared
        split
        · exact .inl ⟨rfl, rfl⟩
        · rename_i hlimit
          simp only [Bool.or_eq_true, List.isEmpty_iff, Bool.not_eq_true', decide_eq_true_eq,
            not_or, Bool.not_eq_false, Nat.not_le] at hargs
          simp only [Bool.and_eq_true, decide_eq_true_eq, and_assoc] at hdeclared
          exact .inr ⟨s, hs, hargs.1.2, hargs.1.1, hargs.2, hdeclared, Nat.not_lt.mp hlimit, rfl⟩

/-- A write that fits goes to the live session. -/
theorem write_eq_take {e : Engine} {h : Handle} {s : Session} {data : List UInt8}
    (hlive : e.live? h = some s) (hphase : s.phase.takesData = true) (hdata : data ≠ [])
    (hspace : s.accepted + data.length < addressSpace)
    (hdeclared : ¬ (e.settings.enforceDeclaredSize = true ∧ 0 < s.declared ∧
      s.declared < s.accepted + data.length))
    (hlimit : s.start + (s.accepted + data.length) ≤ s.limit) :
    e.write h data = e.take s data (s.accepted + data.length) := by
  have hargs : ¬ (data.isEmpty || !s.phase.takesData ||
      decide (addressSpace ≤ s.accepted + data.length)) = true := by
    simp only [Bool.or_eq_true, List.isEmpty_iff, Bool.not_eq_true', decide_eq_true_eq, not_or,
      Bool.not_eq_false, Nat.not_le]
    exact ⟨⟨hdata, hphase⟩, hspace⟩
  have hover : ¬ (e.settings.enforceDeclaredSize && decide (0 < s.declared) &&
      decide (s.declared < s.accepted + data.length)) = true := by
    simp only [Bool.and_eq_true, decide_eq_true_eq, and_assoc]
    exact hdeclared
  unfold write
  rw [hlive]
  simp only [if_neg hargs, if_neg hover, if_neg (Nat.not_lt.mpr hlimit)]

/-- Data that passed all checks are taken in, or the session fails. -/
theorem take_cases (e : Engine) (s : Session) (data : List UInt8) (n : Nat) :
    (((e.writer s).push data).1 = .ok () ∧ (e.take s data n).1 = .ok () ∧
        (e.take s data n).2.quiet =
          { e.withWriter ((e.writer s).push data).2 with
            active := some { s with
              accepted := n, cursor := ((e.writer s).push data).2.cursor, phase := .writing } }.quiet) ∨
      ((∃ fault, ((e.writer s).push data).1 = .error fault ∧
          (e.take s data n).1 = .error fault.toUpdateFault) ∧
        (e.take s data n).2.quiet =
          { e.withWriter ((e.writer s).push data).2 with
            active := some { s with
              cursor := ((e.writer s).push data).2.cursor, phase := .failed } }.quiet) := by
  unfold take
  split
  · rename_i w hpush
    rw [hpush]
    exact .inl ⟨rfl, rfl, rfl⟩
  · rename_i fault w hpush
    rw [hpush]
    exact .inr ⟨⟨fault, rfl, rfl⟩, rfl⟩

theorem take_fault {e : Engine} {s : Session} {data : List UInt8} {n : Nat} {fault : UpdateFault}
    (h : (e.take s data n).1 = .error fault) : fault ≠ .invalidArgs := by
  unfold take at h
  split at h
  · exact nomatch h
  · rename_i fault' w hpush
    rw [← Except.error.inj h]
    cases fault' <;> decide

/-- A session ends in a fault of its flush, a failed check, or a commit that may fail too. -/
theorem conclude_cases (e : Engine) (s : Session) :
    (∃ fault, (e.writer s).flush.1 = .error fault ∧ (e.conclude s).1 = .error fault.toUpdateFault ∧
        (e.conclude s).2.quiet = (e.withWriter (e.writer s).flush.2).quiet) ∨
      ((e.writer s).flush.1 = .ok () ∧
        (∃ fault, Image.check (e.writer s).flush.2.flash s.start (e.writer s).flush.2.cursor.total =
          .error fault) ∧ (e.conclude s).1 = .error .verifyFailed ∧
        (e.conclude s).2.quiet = (e.withWriter (e.writer s).flush.2).quiet) ∨
      ((e.writer s).flush.1 = .ok () ∧
        (∃ header, Image.check (e.writer s).flush.2.flash s.start
          (e.writer s).flush.2.cursor.total = .ok header) ∧
        ((e.conclude s).1 =
          match ((e.withWriter (e.writer s).flush.2).store.selectSlot s.slot).1 with
          | .ok () => .ok ()
          | .error _ => .error .writeFailed) ∧
        (e.conclude s).2.quiet =
          { e.withWriter (e.writer s).flush.2 with
            store := ((e.withWriter (e.writer s).flush.2).store.selectSlot s.slot).2 }.quiet) := by
  unfold conclude
  split
  · rename_i fault w hflush
    rw [hflush]
    exact .inl ⟨fault, rfl, rfl, rfl⟩
  · rename_i w hflush
    rw [hflush]
    split
    · rename_i fault hcheck
      exact .inr (.inl ⟨rfl, ⟨fault, hcheck⟩, by cases fault <;> rfl, rfl⟩)
    · rename_i header hcheck
      refine .inr (.inr ⟨rfl, ⟨header, hcheck⟩, ?_, ?_⟩) <;> unfold commit <;> split <;>
        rename_i store hselect <;> rw [show (Engine.info _ _).store = (e.withWriter w).store from rfl]
          at hselect <;> rw [hselect] <;> rfl

theorem conclude_fault {e : Engine} {s : Session} {fault : UpdateFault}
    (h : (e.conclude s).1 = .error fault) : fault ≠ .invalidArgs := by
  obtain ⟨f, -, hres, -⟩ | ⟨-, -, hres, -⟩ | ⟨-, -, hres, -⟩ := e.conclude_cases s
  · rw [← Except.error.inj (hres.symm.trans h)]
    cases f <;> decide
  · rw [← Except.error.inj (hres.symm.trans h)]
    decide
  · rw [hres] at h
    split at h
    · exact nomatch h
    · rw [← Except.error.inj h]
      decide

/-- An end concludes a session that has data, and releases it whatever comes of it. -/
theorem finish_of_writing {e : Engine} {h : Handle} {s : Session} (hlive : e.live? h = some s)
    (hphase : s.phase = .writing) :
    (e.finish h).1 = (e.conclude s).1 ∧
      ∃ phase, (e.finish h).2 = (e.conclude s).2.release s phase ∧
        ((e.conclude s).1 = .ok () ∧ phase = .complete ∨
          (∃ fault, (e.conclude s).1 = .error fault) ∧ phase = .failed) := by
  unfold finish
  rw [hlive]
  simp only [if_pos hphase]
  split <;> rename_i hres <;> rw [hres]
  · exact ⟨rfl, .complete, rfl, .inl ⟨rfl, rfl⟩⟩
  · exact ⟨rfl, .failed, rfl, .inr ⟨⟨_, rfl⟩, rfl⟩⟩

/-- An end is refused, or the live session has data. -/
theorem finish_cases (e : Engine) (h : Handle) :
    (e.finish h).1 = .error .invalidArgs ∧ (e.finish h).2 = e ∨
      ∃ s, e.live? h = some s ∧ s.phase = .writing := by
  cases hlive : e.live? h with
  | none =>
    rw [finish, hlive]
    exact .inl ⟨rfl, rfl⟩
  | some s =>
    by_cases hphase : s.phase = .writing
    · exact .inr ⟨s, rfl, hphase⟩
    · rw [finish, hlive]
      exact .inl ⟨congrArg Prod.fst (if_neg hphase), congrArg Prod.snd (if_neg hphase)⟩

theorem quiet_currentSlot (e : Engine) : e.currentSlot.2.quiet = e.quiet := by
  unfold currentSlot Store.currentSlot
  split <;> rfl

/-- A refused call changes the logs only. -/
theorem quiet_next_of_refuses {e : Engine} {c : Call} (h : e.Refuses c) :
    (e.next c).quiet = e.quiet := by
  cases c with
  | start slot declared =>
    obtain ⟨fault, hfault⟩ := h
    obtain ⟨-, hq⟩ | ⟨_, _, -, -, -, hok, -⟩ := e.start_cases slot declared
    · exact hq
    · exact nomatch hfault.symm.trans hok
  | write handle data =>
    obtain ⟨-, hq⟩ | ⟨s, -, -, -, -, -, -, htake⟩ := e.write_cases handle data
    · exact hq
    · rw [Refuses, htake] at h
      exact absurd rfl (take_fault h)
  | finish handle =>
    obtain ⟨-, heq⟩ | ⟨s, hlive, hphase⟩ := e.finish_cases handle
    · exact congrArg quiet heq
    · rw [Refuses, (finish_of_writing hlive hphase).1] at h
      exact absurd rfl (conclude_fault h)
  | cancel handle =>
    rw [Refuses] at h
    rw [next, cancel, h]
  | selectSlot slot =>
    rw [next, selectSlot, Store.selectSlot_eq_invalidSlot h]
  | status _ | currentSlot | setFaults _ => exact h.elim

end Engine

end BootSlots
