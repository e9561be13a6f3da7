import BootSlots.Proofs.Update.Runs

/-
  Calls that are turned down: a start that fails, a write or an end that is refused, and a cancel of a
  session that is not live. What a call answers and does hangs on the engine without its logs, and a call
  that is turned down changes the logs only, so it can be left out of any history.

  Proved:
  * `answer_congr`, `rejects_congr`, `quiet_next_congr`: two engines that agree but for their logs answer
    and act alike.
  * `rejected_left_out`: a history without the calls that were turned down answers all others as before and
    ends with the same sessions, numbers, arena and flash.

  A start that fails is left out whatever its fault. A write that fails the session is not: it answers with
  another fault, and it changes the flash.
-/

namespace BootSlots

/-- What is selected and stored does not hang on the store's log. -/
theorem Store.selectSlot_congr {s s' : Store} (h : s.flash = s'.flash) (slot : UInt8) :
    (s.selectSlot slot).1 = (s'.selectSlot slot).1 ∧
      (s.selectSlot slot).2.flash = (s'.selectSlot slot).2.flash := by
  have hload : s'.load = s.load := congrArg Flash.loadRecord h.symm
  unfold selectSlot
  rw [hload]
  cases s.load with
  | error fault => exact ⟨rfl, h⟩
  | ok r =>
    dsimp only
    by_cases hslot : r.count ≤ slot
    · rw [if_pos hslot, if_pos hslot]
      exact ⟨rfl, h⟩
    · rw [if_neg hslot, if_neg hslot, save, save, h]
      cases (s'.flash.saveRecord (r.select slot)).1 with
      | error fault => exact ⟨rfl, rfl⟩
      | ok _ => exact ⟨rfl, rfl⟩

namespace Engine

/-! ## Answers -/

/-- What a call answers. -/
inductive Answer where
  | started (result : Except UpdateFault Handle)
  | done (result : Except UpdateFault Unit)
  | selected (result : Except RecordFault Unit)
  | slot (slot : UInt8)
  | status (status : Status)
  | nothing

def answer (e : Engine) : Call → Answer
  | .start slot declared => .started (e.start slot declared).1
  | .write h data => .done (e.write h data).1
  | .finish h => .done (e.finish h).1
  | .cancel _ => .nothing
  | .status h => .status (e.status h)
  | .currentSlot => .slot e.currentSlot.1
  | .selectSlot slot => .selected (e.selectSlot slot).1
  | .setFaults _ => .nothing

/-- The call is turned down: it opens no session, is refused, or gives up a session that is not live. -/
def rejects (e : Engine) : Call → Bool
  | .start slot declared => ((e.start slot declared).1 matches .error _)
  | .write h data => ((e.write h data).1 matches .error .invalidArgs)
  | .finish h => ((e.finish h).1 matches .error .invalidArgs)
  | .cancel h => (e.live? h).isNone
  | _ => false

variable {e e' : Engine}

theorem refuses_of_rejects {c : Call} (h : e.rejects c = true) : e.Refuses c := by
  cases c with
  | start slot declared =>
    rw [rejects] at h
    split at h
    · rename_i fault hres
      exact ⟨fault, hres⟩
    · exact nomatch h
  | write handle data =>
    rw [rejects] at h
    split at h
    · rename_i hres
      exact hres
    · exact nomatch h
  | finish handle =>
    rw [rejects] at h
    split at h
    · rename_i hres
      exact hres
    · exact nomatch h
  | cancel handle => exact Option.isNone_iff_eq_none.mp h
  | _ => exact nomatch h

/-! ## Logs decide nothing -/

theorem start_quiet (e : Engine) (slot : UInt8) (declared : Nat) :
    (e.quiet.start slot declared).1 = (e.start slot declared).1 ∧
      (e.quiet.start slot declared).2.quiet = (e.start slot declared).2.quiet := by
  unfold start
  rw [show e.quiet.store.region? slot = e.store.region? slot from rfl,
    show e.quiet.isInProgress = e.isInProgress from rfl,
    show e.quiet.arenaUsable = e.arenaUsable from rfl]
  cases e.store.region? slot with
  | none => exact ⟨rfl, rfl⟩
  | some region =>
    dsimp only
    cases e.isInProgress with
    | true => exact ⟨rfl, rfl⟩
    | false =>
      cases e.arenaUsable with
      | true => exact ⟨rfl, rfl⟩
      | false => exact ⟨rfl, rfl⟩

theorem take_quiet (e : Engine) (s : Session) (data : List UInt8) (n : Nat) :
    (e.quiet.take s data n).1 = (e.take s data n).1 ∧
      (e.quiet.take s data n).2.quiet = (e.take s data n).2.quiet := by
  unfold take
  rw [show e.quiet.writer s = e.writer s from rfl]
  cases (e.writer s).push data with
  | mk result w =>
    cases result with
    | ok _ => exact ⟨rfl, rfl⟩
    | error fault => exact ⟨rfl, rfl⟩

theorem write_quiet (e : Engine) (h : Handle) (data : List UInt8) :
    (e.quiet.write h data).1 = (e.write h data).1 ∧
      (e.quiet.write h data).2.quiet = (e.write h data).2.quiet := by
  unfold write
  rw [show e.quiet.live? h = e.live? h from rfl, show e.quiet.settings = e.settings from rfl]
  cases e.live? h with
  | none => exact ⟨rfl, rfl⟩
  | some s =>
    dsimp only
    split
    · exact ⟨rfl, rfl⟩
    · split
      · exact ⟨rfl, rfl⟩
      · split
        · exact ⟨rfl, rfl⟩
        · exact e.take_quiet s data _

theorem commit_congr (h : e.quiet = e'.quiet) (s : Session) (length : Nat) :
    (e.commit s length).1 = (e'.commit s length).1 ∧
      (e.commit s length).2.quiet = (e'.commit s length).2.quiet := by
  obtain ⟨hres, hflash⟩ := Store.selectSlot_congr (flash_of_quiet_eq h) s.slot
  have hstore : { e.quiet with store := ⟨(e.store.selectSlot s.slot).2.flash, .empty⟩ } =
      { e'.quiet with store := ⟨(e'.store.selectSlot s.slot).2.flash, .empty⟩ } := by
    rw [h, hflash]
  unfold commit
  generalize e.store.selectSlot s.slot = selected at *
  generalize e'.store.selectSlot s.slot = selected' at *
  obtain ⟨result, store⟩ := selected
  obtain ⟨result', store'⟩ := selected'
  obtain rfl : result = result' := hres
  cases result with
  | error fault => exact ⟨rfl, hstore⟩
  | ok _ => exact ⟨rfl, hstore⟩

theorem conclude_quiet (e : Engine) (s : Session) :
    (e.quiet.conclude s).1 = (e.conclude s).1 ∧
      (e.quiet.conclude s).2.quiet = (e.conclude s).2.quiet := by
  unfold conclude
  rw [show e.quiet.writer s = e.writer s from rfl]
  obtain ⟨result, w⟩ := (e.writer s).flush
  cases result with
  | error fault => exact ⟨rfl, rfl⟩
  | ok _ =>
    dsimp only
    cases Image.check w.flash s.start w.cursor.total with
    | error fault => exact ⟨rfl, rfl⟩
    | ok header =>
      apply commit_congr
      rfl

theorem finish_quiet (e : Engine) (h : Handle) :
    (e.quiet.finish h).1 = (e.finish h).1 ∧ (e.quiet.finish h).2.quiet = (e.finish h).2.quiet := by
  unfold finish
  rw [show e.quiet.live? h = e.live? h from rfl]
  cases e.live? h with
  | none => exact ⟨rfl, rfl⟩
  | some s =>
    dsimp only
    by_cases hphase : s.phase = .writing
    · obtain ⟨hres, hq⟩ := e.conclude_quiet s
      rw [if_pos hphase, if_pos hphase]
      generalize e.quiet.conclude s = ended at *
      generalize e.conclude s = ended' at *
      obtain ⟨result, c⟩ := ended
      obtain ⟨result', c'⟩ := ended'
      obtain rfl : result = result' := hres
      have hreleased : ∀ phase, (c.release s phase).quiet = (c'.release s phase).quiet := fun phase =>
        congrArg (fun e : Engine => e.release s phase) hq
      cases result with
      | error fault => exact ⟨rfl, hreleased .failed⟩
      | ok _ => exact ⟨rfl, hreleased .complete⟩
    · rw [if_neg hphase, if_neg hphase]
      exact ⟨rfl, rfl⟩

theorem cancel_quiet (e : Engine) (h : Handle) : (e.quiet.cancel h).quiet = (e.cancel h).quiet := by
  unfold cancel
  rw [show e.quiet.live? h = e.live? h from rfl]
  cases e.live? h with
  | none => rfl
  | some s => rfl

theorem currentSlot_quiet (e : Engine) :
    e.quiet.currentSlot.1 = e.currentSlot.1 ∧ e.quiet.currentSlot.2.quiet = e.currentSlot.2.quiet := by
  refine ⟨?_, ?_⟩
  · unfold currentSlot Store.currentSlot
    rw [show e.quiet.store.load = e.store.load from rfl]
    cases e.store.load with
    | error fault => rfl
    | ok r => rfl
  · rw [quiet_currentSlot, quiet_currentSlot]
    rfl

theorem selectSlot_quiet (e : Engine) (slot : UInt8) :
    (e.quiet.selectSlot slot).1 = (e.selectSlot slot).1 ∧
      (e.quiet.selectSlot slot).2.quiet = (e.selectSlot slot).2.quiet := by
  have hsame : e.quiet.store.flash = e.store.flash := rfl
  obtain ⟨hres, hflash⟩ := Store.selectSlot_congr hsame slot
  refine ⟨hres, ?_⟩
  show { e.quiet with store := ⟨(e.quiet.store.selectSlot slot).2.flash, .empty⟩ } =
    { e.quiet with store := ⟨(e.store.selectSlot slot).2.flash, .empty⟩ }
  rw [hflash]

theorem answer_quiet (e : Engine) (c : Call) : e.quiet.answer c = e.answer c := by
  cases c with
  | start slot declared => exact congrArg Answer.started (e.start_quiet slot declared).1
  | write handle data => exact congrArg Answer.done (e.write_quiet handle data).1
  | finish handle => exact congrArg Answer.done (e.finish_quiet handle).1
  | currentSlot => exact congrArg Answer.slot e.currentSlot_quiet.1
  | selectSlot slot => exact congrArg Answer.selected (e.selectSlot_quiet slot).1
  | cancel | status | setFaults => rfl

theorem rejects_quiet (e : Engine) (c : Call) : e.quiet.rejects c = e.rejects c := by
  cases c with
  | start slot declared => rw [rejects, rejects, (e.start_quiet slot declared).1]
  | write handle data => rw [rejects, rejects, (e.write_quiet handle data).1]
  | finish handle => rw [rejects, rejects, (e.finish_quiet handle).1]
  | _ => rfl

theorem quiet_next_quiet (e : Engine) (c : Call) : (e.quiet.next c).quiet = (e.next c).quiet := by
  cases c with
  | start slot declared => exact (e.start_quiet slot declared).2
  | write handle data => exact (e.write_quiet handle data).2
  | finish handle => exact (e.finish_quiet handle).2
  | cancel handle => exact e.cancel_quiet handle
  | currentSlot => exact e.currentSlot_quiet.2
  | selectSlot slot => exact (e.selectSlot_quiet slot).2
  | status | setFaults => rfl

theorem answer_congr (h : e.quiet = e'.quiet) (c : Call) : e.answer c = e'.answer c := by
  rw [← answer_quiet, h, answer_quiet]

theorem rejects_congr (h : e.quiet = e'.quiet) (c : Call) : e.rejects c = e'.rejects c := by
  rw [← rejects_quiet, h, rejects_quiet]

theorem quiet_next_congr (h : e.quiet = e'.quiet) (c : Call) :
    (e.next c).quiet = (e'.next c).quiet := by
  rw [← quiet_next_quiet, h, quiet_next_quiet]

/-! ## Histories without rejected calls -/

/-- A call of a history with its answer. -/
structure Entry where
  call : Call
  answer : Answer
  rejected : Bool

/-- What a history answers, call by call. -/
def transcript (e : Engine) : List Call → List Entry
  | [] => []
  | c :: calls => ⟨c, e.answer c, e.rejects c⟩ :: (e.next c).transcript calls

/-- The calls of a history that are not rejected, with their answers. -/
def heeded (e : Engine) (calls : List Call) : List Entry :=
  (e.transcript calls).filter fun entry => !entry.rejected

/-- A history without its rejected calls. -/
def kept (e : Engine) (calls : List Call) : List Call :=
  (e.heeded calls).map (·.call)

theorem heeded_cons_of_rejects {c : Call} (h : e.rejects c = true) (calls : List Call) :
    e.heeded (c :: calls) = (e.next c).heeded calls := by
  rw [heeded, transcript, List.filter_cons_of_neg (by simp [h]), heeded]

theorem heeded_cons_of_not_rejects {c : Call} (h : e.rejects c = false) (calls : List Call) :
    e.heeded (c :: calls) = ⟨c, e.answer c, e.rejects c⟩ :: (e.next c).heeded calls := by
  rw [heeded, transcript, List.filter_cons_of_pos (by simp [h]), heeded]

theorem transcript_congr (h : e.quiet = e'.quiet) (calls : List Call) :
    e.transcript calls = e'.transcript calls := by
  induction calls generalizing e e' with
  | nil => rfl
  | cons c calls ih =>
    rw [transcript, transcript, answer_congr h, rejects_congr h, ih (quiet_next_congr h c)]

theorem quiet_after_congr (h : e.quiet = e'.quiet) (calls : List Call) :
    (e.after calls).quiet = (e'.after calls).quiet := by
  induction calls generalizing e e' with
  | nil => exact h
  | cons c calls ih => exact ih (quiet_next_congr h c)

theorem quiet_next_of_rejects {c : Call} (h : e.rejects c = true) : (e.next c).quiet = e.quiet :=
  quiet_next_of_refuses (refuses_of_rejects h)

theorem transcript_kept (e : Engine) (calls : List Call) :
    e.transcript (e.kept calls) = e.heeded calls := by
  induction calls generalizing e with
  | nil => rfl
  | cons c calls ih =>
    cases hc : e.rejects c with
    | true =>
      rw [kept, heeded_cons_of_rejects hc, transcript_congr (quiet_next_of_rejects hc).symm]
      exact ih (e.next c)
    | false =>
      rw [kept, heeded_cons_of_not_rejects hc, List.map_cons, transcript]
      exact congrArg _ (ih (e.next c))

theorem quiet_after_kept (e : Engine) (calls : List Call) :
    (e.after (e.kept calls)).quiet = (e.after calls).quiet := by
  induction calls generalizing e with
  | nil => rfl
  | cons c calls ih =>
    cases hc : e.rejects c with
    | true =>
      rw [kept, heeded_cons_of_rejects hc, quiet_after_congr (quiet_next_of_rejects hc).symm]
      exact ih (e.next c)
    | false =>
      rw [kept, heeded_cons_of_not_rejects hc, List.map_cons]
      exact ih (e.next c)

/-- A history without its rejected calls answers all others as before, and ends with the same sessions,
numbers, arena and flash. Each rejected call by itself changes the logs only. -/
theorem rejected_left_out (e : Engine) (calls : List Call) :
    e.transcript (e.kept calls) = (e.transcript calls).filter (fun entry => !entry.rejected) ∧
      (e.after (e.kept calls)).quiet = (e.after calls).quiet ∧
      ∀ pre c post, calls = pre ++ c :: post → (e.after pre).rejects c = true →
        (e.after (pre ++ [c])).quiet = (e.after pre).quiet := by
  refine ⟨e.transcript_kept calls, e.quiet_after_kept calls, fun pre c post _ hc => ?_⟩
  rw [after_append]
  exact quiet_next_of_rejects hc

/-- A second start while the first session is live is one of them. -/
theorem rejected_left_out_second_start :
    ((provisioned (.factory provisionedSize)).after [.start 1 0]).rejects (.start 0 0) = true ∧
      ((provisioned (.factory provisionedSize)).after ([.start 1 0] ++ [.start 0 0])).quiet =
        ((provisioned (.factory provisionedSize)).after [.start 1 0]).quiet := by
  have hload := load_provisioned_factory
  have hsecond : (Record.factory provisionedSize).address? 1 = some (10 * sectorSize) := by decide
  have hstart := start_eq_ok hload hsecond rfl (arenaUsable_provisioned _) 0
  obtain ⟨_, -, -, -, hlive⟩ := live_of_start hload hstart
  have hrejects : ((provisioned (.factory provisionedSize)).after [.start 1 0]).rejects (.start 0 0) =
      true := by
    rw [after_cons, after_nil, rejects, next, start_of_live hlive.active]
  obtain ⟨-, -, hsame⟩ :=
    rejected_left_out (provisioned (.factory provisionedSize)) [.start 1 0, .start 0 0]
  exact ⟨hrejects, hsame [.start 1 0] (.start 0 0) [] rfl hrejects⟩

end Engine

end BootSlots
