import BootSlots.Proofs.Update.Calls

/-
  What a call does to the engine's sessions. Whatever the call and whatever faults are on, it takes one of
  four turns: the sessions rest as they are, a session is opened, the live session takes in data or fails in
  it, or the live session is released.

  Proved:
  * `turn`: each call takes one of the four turns.
  * `live?_next_eq_none_iff`: which calls release a live session.
-/

namespace BootSlots

/-- The handle under which a session was handed out. -/
def Session.handle (s : Session) : Handle := ⟨s.id⟩

theorem Session.handle_eq_iff {s : Session} {h : Handle} : s.handle = h ↔ s.id = h.id :=
  ⟨congrArg Handle.id, congrArg Handle.mk⟩

namespace Engine

/-- The handle that a call hands out. -/
def issued? (e : Engine) : Call → Option Handle
  | .start slot declared => (e.start slot declared).1.toOption
  | _ => none

/-- The handle whose session a call releases: an end releases unless it is refused, a cancel releases the
live session. -/
def released? (e : Engine) : Call → Option Handle
  | .finish h =>
    match (e.finish h).1 with
    | .error .invalidArgs => none
    | _ => some h
  | .cancel h => (e.live? h).map fun _ => h
  | _ => none

/-- `e'` has the sessions and the next number of `e`. -/
structure Rests (e e' : Engine) : Prop where
  active : e'.active = e.active
  last : e'.last = e.last
  nextId : e'.nextId = e.nextId

theorem Rests.refl (e : Engine) : e.Rests e :=
  ⟨rfl, rfl, rfl⟩

theorem Rests.of_quiet {e e₁ e' : Engine} (h : e.Rests e₁) (hq : e'.quiet = e₁.quiet) : e.Rests e' where
  active := (active_of_quiet_eq hq).trans h.active
  last := (congrArg (·.last) hq).trans h.last
  nextId := (congrArg (·.nextId) hq).trans h.nextId

/-- All that a call can do to the sessions. -/
inductive Turn (e : Engine) (c : Call) : Prop where
  | rests (same : e.Rests (e.next c)) (issued : e.issued? c = none) (released : e.released? c = none)
  | opens (s : Session) (idle : e.active = none) (active : (e.next c).active = some s)
    (id : s.id = e.nextId) (phase : s.phase = .started) (last : (e.next c).last = e.last)
    (nextId : (e.next c).nextId = idAfter e.nextId) (issued : e.issued? c = some s.handle)
    (released : e.released? c = none)
  | takes (s s' : Session) (live : e.active = some s) (takesData : s.phase.takesData = true)
    (active : (e.next c).active = some s') (id : s'.id = s.id)
    (phase : s'.phase = .writing ∨ s'.phase = .failed) (last : (e.next c).last = e.last)
    (nextId : (e.next c).nextId = e.nextId) (issued : e.issued? c = none)
    (released : e.released? c = none)
  | ends (s : Session) (phase : Phase) (live : e.active = some s) (idle : (e.next c).active = none)
    (last : (e.next c).last = some { s with phase })
    (ending : phase = .failed ∨
      phase = .complete ∧ s.phase = .writing ∧ c = .finish s.handle ∧ (e.finish s.handle).1 = .ok ())
    (nextId : (e.next c).nextId = e.nextId) (issued : e.issued? c = none)
    (released : e.released? c = some s.handle)

variable {e : Engine}

theorem live?_handle {s : Session} (h : e.active = some s) : e.live? s.handle = some s :=
  live?_eq_some_iff.mpr ⟨h, rfl⟩

theorem handle_of_live? {h : Handle} {s : Session} (hlive : e.live? h = some s) : h = s.handle :=
  (Session.handle_eq_iff.mpr (live?_eq_some_iff.mp hlive).2).symm

/-! ## One lemma for each operation -/

theorem turn_start (e : Engine) (slot : UInt8) (declared : Nat) : e.Turn (.start slot declared) := by
  obtain ⟨⟨fault, hres⟩, hq⟩ | ⟨a, l, -, hidle, -, hok, hq⟩ := e.start_cases slot declared
  · refine .rests ((Rests.refl e).of_quiet hq) ?_ rfl
    rw [issued?, hres]
    rfl
  · refine .opens (e.opened slot declared a l) hidle (active_of_quiet_eq hq) rfl rfl
      (congrArg (·.last) hq) (congrArg (·.nextId) hq) ?_ rfl
    rw [issued?, hok]
    rfl

theorem turn_write (e : Engine) (h : Handle) (data : List UInt8) : e.Turn (.write h data) := by
  obtain ⟨-, hq⟩ | ⟨s, hlive, htakes, -, -, -, -, htake⟩ := e.write_cases h data
  · exact .rests ((Rests.refl e).of_quiet hq) rfl rfl
  · have hactive := (live?_eq_some_iff.mp hlive).1
    have hnext : e.next (.write h data) = (e.take s data (s.accepted + data.length)).2 := by
      rw [next, htake]
    obtain ⟨-, -, hq⟩ | ⟨-, hq⟩ := e.take_cases s data (s.accepted + data.length)
    · rw [← hnext] at hq
      exact .takes s _ hactive htakes (active_of_quiet_eq hq) rfl (.inl rfl) (congrArg (·.last) hq)
        (congrArg (·.nextId) hq) rfl rfl
    · rw [← hnext] at hq
      exact .takes s _ hactive htakes (active_of_quiet_eq hq) rfl (.inr rfl) (congrArg (·.last) hq)
        (congrArg (·.nextId) hq) rfl rfl

/-- An end touches neither the sessions nor the numbers before it releases. -/
theorem rests_conclude (e : Engine) (s : Session) : e.Rests (e.conclude s).2 := by
  obtain ⟨_, -, -, hq⟩ | ⟨-, -, -, hq⟩ | ⟨-, -, -, hq⟩ := e.conclude_cases s
  · refine Rests.of_quiet ?_ hq
    exact ⟨rfl, rfl, rfl⟩
  · refine Rests.of_quiet ?_ hq
    exact ⟨rfl, rfl, rfl⟩
  · refine Rests.of_quiet ?_ hq
    exact ⟨rfl, rfl, rfl⟩

theorem released?_finish_of_refused {h : Handle} (hres : (e.finish h).1 = .error .invalidArgs) :
    e.released? (.finish h) = none := by
  rw [released?, hres]

theorem released?_finish {h : Handle} (hres : (e.finish h).1 ≠ .error .invalidArgs) :
    e.released? (.finish h) = some h := by
  rw [released?]
  split
  · rename_i heq
    exact absurd heq hres
  · rfl

theorem turn_finish (e : Engine) (h : Handle) : e.Turn (.finish h) := by
  obtain ⟨hres, heq⟩ | ⟨s, hlive, hphase⟩ := e.finish_cases h
  · exact .rests ((Rests.refl e).of_quiet (congrArg quiet heq)) rfl (released?_finish_of_refused hres)
  · obtain ⟨hres, phase, heq, hend⟩ := finish_of_writing hlive hphase
    have hconclude := e.rests_conclude s
    obtain rfl := handle_of_live? hlive
    have hreleased : e.released? (.finish s.handle) = some s.handle := by
      refine released?_finish fun hrefused => ?_
      exact conclude_fault (hres.symm.trans hrefused) rfl
    have hnext : e.next (.finish s.handle) = (e.conclude s).2.release s phase := heq
    refine .ends s phase (live?_eq_some_iff.mp hlive).1 ?_ ?_ ?_ ?_ rfl hreleased
    · rw [hnext]
      rfl
    · rw [hnext]
      rfl
    · obtain ⟨hok, rfl⟩ | ⟨-, rfl⟩ := hend
      · exact .inr ⟨rfl, hphase, rfl, hres.trans hok⟩
      · exact .inl rfl
    · rw [hnext]
      exact hconclude.nextId

theorem turn_cancel (e : Engine) (h : Handle) : e.Turn (.cancel h) := by
  cases hlive : e.live? h with
  | none =>
    have hnext : e.next (.cancel h) = e := by rw [next, cancel, hlive]
    refine .rests (by rw [hnext]; exact .refl e) rfl ?_
    rw [released?, hlive]
    rfl
  | some s =>
    obtain rfl := handle_of_live? hlive
    have hnext : (e.next (.cancel s.handle)).quiet = (e.release s .failed).quiet := by
      rw [next, cancel, hlive]
      rfl
    refine .ends s .failed (live?_eq_some_iff.mp hlive).1 (active_of_quiet_eq hnext)
      (congrArg (·.last) hnext) (.inl rfl) (congrArg (·.nextId) hnext) rfl ?_
    rw [released?, hlive]
    rfl

/-- Each call takes one of the four turns. -/
theorem turn (e : Engine) (c : Call) : e.Turn c := by
  cases c with
  | start slot declared => exact e.turn_start slot declared
  | write h data => exact e.turn_write h data
  | finish h => exact e.turn_finish h
  | cancel h => exact e.turn_cancel h
  | currentSlot => exact .rests ((Rests.refl e).of_quiet e.quiet_currentSlot) rfl rfl
  | status | selectSlot | setFaults => exact .rests ⟨rfl, rfl, rfl⟩ rfl rfl

/-! ## Releases -/

theorem released?_eq_some_iff {c : Call} {h : Handle} :
    e.released? c = some h ↔
      c = .cancel h ∧ e.live? h ≠ none ∨ c = .finish h ∧ (e.finish h).1 ≠ .error .invalidArgs := by
  constructor
  · intro hreleased
    cases c with
    | finish h' =>
      by_cases hres : (e.finish h').1 = .error .invalidArgs
      · rw [released?_finish_of_refused hres] at hreleased
        exact nomatch hreleased
      · rw [released?_finish hres] at hreleased
        obtain rfl := Option.some.inj hreleased
        exact .inr ⟨rfl, hres⟩
    | cancel h' =>
      rw [released?, Option.map_eq_some_iff] at hreleased
      obtain ⟨s, hlive, rfl⟩ := hreleased
      exact .inl ⟨rfl, by rw [hlive]; exact Option.some_ne_none s⟩
    | _ => exact nomatch hreleased
  · rintro (⟨rfl, hlive⟩ | ⟨rfl, hres⟩)
    · obtain ⟨s, hs⟩ := Option.ne_none_iff_exists'.mp hlive
      rw [released?, hs]
      rfl
    · exact released?_finish hres

/-- A live session is released by a cancel or by an end that is not refused, and by nothing else. -/
theorem live?_next_eq_none_iff {c : Call} {h : Handle} (hlive : e.live? h ≠ none) :
    (e.next c).live? h = none ↔ e.released? c = some h := by
  obtain ⟨t, ht⟩ := Option.ne_none_iff_exists'.mp hlive
  obtain ⟨hactive, hid⟩ := live?_eq_some_iff.mp ht
  have hstays {s : Session} (hs : (e.next c).active = some s) (hsid : s.id = t.id) :
      (e.next c).live? h ≠ none := by
    rw [live?_eq_some_iff.mpr ⟨hs, hsid.trans hid⟩]
    exact Option.some_ne_none s
  obtain ⟨hsame, -, hreleased⟩ | ⟨_, hidle⟩ | ⟨s, s', hs, -, hs', hsid, -, -, -, -, hreleased⟩ |
    ⟨s, _, hs, hidle, -, -, -, -, hreleased⟩ := e.turn c
  · rw [hreleased]
    exact ⟨fun hnone => absurd hnone (hstays (hsame.active.trans hactive) rfl), nofun⟩
  · exact nomatch hidle.symm.trans hactive
  · obtain rfl := Option.some.inj (hs.symm.trans hactive)
    rw [hreleased]
    exact ⟨fun hnone => absurd hnone (hstays hs' hsid), nofun⟩
  · obtain rfl := Option.some.inj (hs.symm.trans hactive)
    rw [hreleased, Session.handle_eq_iff.mpr hid, live?, hidle]
    exact ⟨fun _ => rfl, fun _ => rfl⟩

end Engine

end BootSlots
