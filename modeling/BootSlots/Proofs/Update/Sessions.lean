import BootSlots.Proofs.Record.Sector
import BootSlots.Proofs.Update.Runs

/-
  Histories with any number of sessions, one after the other. What a call does to the flash is written for
  the live session or is a save of the record; which session is live, and from where to where it may write,
  was settled when it was opened.

  Proved:
  * `next_flash`: all that one call does to the flash.
  * `opened?_eq_some`: what a session is opened with.
  * `Follows.next`: after each call the live session is one of those that were opened.
-/

namespace BootSlots.Engine

variable {e : Engine} {started : List Session}

/-- The live session, if any, has failed or has taken in a stream. -/
def Sound (e : Engine) : Prop :=
  ∀ s, e.active = some s → s.phase = .failed ∨ ∃ d, e.Live s d

/-- The session that a call writes for: the live one, where the call hands it data or ends it. -/
def issuer? (e : Engine) : Call → Option Session
  | .write h _ | .finish h => e.live? h
  | _ => none

theorem active_of_issuer? {c : Call} {s : Session} (h : e.issuer? c = some s) : e.active = some s := by
  cases c with
  | write | finish => exact (live?_eq_some_iff.mp h).1
  | _ => exact nomatch h

/-- A call writes for its session, within the session's region, and then saves one record at most. -/
theorem next_flash (h : e.Sound) (c : Call) :
    ∃ image f, e.store.flash.After image f ∧ f.Saves (e.next c).store.flash ∧
      ∀ op ∈ image, ∃ s, e.issuer? c = some s ∧ firstImageAddress ≤ s.start ∧
        op.Within s.start s.limit := by
  have hsaves : e.store.flash.Saves (e.next c).store.flash →
      ∃ image f, e.store.flash.After image f ∧ f.Saves (e.next c).store.flash ∧
        ∀ op ∈ image, ∃ s, e.issuer? c = some s ∧ firstImageAddress ≤ s.start ∧
          op.Within s.start s.limit :=
    fun hs => ⟨[], _, .refl _, hs, List.forall_mem_nil _⟩
  have hsame (hflash : (e.next c).store.flash = e.store.flash) := hsaves (hflash ▸ .nothing)
  cases c with
  | start slot declared =>
    obtain ⟨-, hq⟩ | ⟨_, _, -, -, -, -, hq⟩ := e.start_cases slot declared
    · exact hsame (flash_of_quiet_eq hq)
    · exact hsame ((flash_of_quiet_eq hq).trans rfl)
  | write handle data =>
    obtain ⟨-, hq⟩ | ⟨s, hlive, htakes, hdata, -, -, hfits, htake⟩ := e.write_cases handle data
    · exact hsame (flash_of_quiet_eq hq)
    · obtain hfailed | ⟨d, hd⟩ := h s (live?_eq_some_iff.mp hlive).1
      · rw [hfailed] at htakes
        cases htakes
      · obtain ⟨_, ops, -, -, hflash, hops, -, -⟩ := hd.take hdata hfits
        rw [next, htake, hflash]
        exact ⟨ops, _, Flash.after_performAll _ ops, .nothing,
          fun op hop => ⟨s, hlive, hd.image, hops op hop⟩⟩
  | finish handle =>
    obtain ⟨-, heq⟩ | ⟨s, hlive, hphase⟩ := e.finish_cases handle
    · exact hsame (congrArg (·.store.flash) heq)
    · obtain ⟨-, phase, heq, -⟩ := finish_of_writing hlive hphase
      obtain hfailed | ⟨d, hd⟩ := h s (live?_eq_some_iff.mp hlive).1
      · cases hphase.symm.trans hfailed
      · obtain ⟨image, himage, -, hend⟩ := hd.conclude
        rw [next, heq, release]
        refine ⟨image, _, Flash.after_performAll _ image, ?_,
          fun op hop => ⟨s, hlive, hd.image, himage op hop⟩⟩
        rcases hend with ⟨-, hflash, -⟩ | ⟨-, -, store, hstore, hflash, -⟩
        · rw [hflash]
          exact .nothing
        · rw [hflash, ← hstore]
          exact store.saves_selectSlot s.slot
  | cancel handle =>
    apply hsame
    rw [next, cancel]
    split <;> rfl
  | status handle => exact hsame rfl
  | currentSlot => exact hsame (flash_of_quiet_eq e.quiet_currentSlot)
  | selectSlot slot => exact hsaves (e.store.saves_selectSlot slot)
  | setFaults faults =>
    exact ⟨[], (e.setFaults faults).store.flash, ⟨rfl, (List.append_nil _).symm, rfl⟩, .nothing,
      List.forall_mem_nil _⟩

/-! ## Sessions that are opened -/

/-- The session that a call opens. -/
def opened? (e : Engine) : Call → Option Session
  | .start slot declared =>
    match (e.start slot declared).1 with
    | .ok _ => (e.start slot declared).2.active
    | .error _ => none
  | _ => none

/-- A start that is not refused has loaded a record. -/
theorem load_of_start {slot : UInt8} {declared : Nat} {handle : Handle}
    (h : (e.start slot declared).1 = .ok handle) : ∃ r, e.store.load = .ok r := by
  obtain ⟨⟨_, hfault⟩, -⟩ | ⟨a, l, hregion, -⟩ := e.start_cases slot declared
  · cases h.symm.trans hfault
  · rw [Store.region?] at hregion
    cases hload : e.store.load with
    | ok r => exact ⟨r, rfl⟩
    | error fault =>
      rw [hload] at hregion
      cases hregion

/-- A session is opened with the region that its slot has in the record at that time. -/
theorem opened?_eq_some {c : Call} {s : Session} (h : e.opened? c = some s) :
    (e.next c).Live s [] ∧ ∃ r, e.store.load = .ok r ∧ r.address? s.slot = some s.start ∧
      r.limitOf e.store.flash.capacity s.start = s.limit := by
  cases c with
  | start slot declared =>
    rw [opened?] at h
    split at h
    · rename_i handle hstart
      obtain ⟨r, hload⟩ := load_of_start hstart
      obtain ⟨a, ha, -, -, hlive⟩ := live_of_start hload hstart
      obtain rfl := Option.some.inj (hlive.active.symm.trans h)
      exact ⟨hlive, r, hload, ha, rfl⟩
    · exact nomatch h
  | _ => exact nomatch h

theorem not_opens {c : Call} (h : e.opened? c = none) : ¬ e.Opens c := by
  cases c with
  | start slot declared =>
    rintro ⟨handle, hstart⟩
    obtain ⟨⟨_, hfault⟩, -⟩ | ⟨a, l, -, -, -, -, hq⟩ := e.start_cases slot declared
    · exact nomatch hstart.symm.trans hfault
    · rw [opened?, hstart] at h
      exact nomatch h.symm.trans (active_of_quiet_eq hq)
  | _ => exact id

/-- Without a session, a call that opens none leaves none. -/
theorem idle_next {c : Call} (h : e.active = none) (hc : e.opened? c = none) :
    (e.next c).active = none := by
  have hlive : ∀ handle, e.live? handle = none := fun handle => by rw [live?, h]
  cases c with
  | start slot declared =>
    obtain ⟨-, hq⟩ | ⟨_, _, -, -, -, hok, -⟩ := e.start_cases slot declared
    · exact (active_of_quiet_eq hq).trans h
    · exact absurd ⟨_, hok⟩ (not_opens hc)
  | write handle data => rw [next, write, hlive]; exact h
  | finish handle => rw [next, finish, hlive]; exact h
  | cancel handle => rw [next, cancel, hlive]; exact h
  | status | currentSlot | selectSlot | setFaults => exact h

/-- The live session, if any, is one of those that were opened. -/
def Follows (e : Engine) (started : List Session) : Prop :=
  e.active = none ∨ ∃ s ∈ started, ∃ d, e.Serves s d

theorem Serves.follows {s : Session} {d : List UInt8} (h : e.Serves s d) : e.Follows [s] :=
  .inr ⟨s, List.mem_cons_self, d, h⟩

theorem Follows.sound (h : e.Follows started) : e.Sound := by
  intro s hactive
  obtain hidle | ⟨_, -, d, hserves⟩ := h
  · exact nomatch hidle.symm.trans hactive
  · exact (hserves s hactive).2.imp_right fun hlive => ⟨d, hlive⟩

theorem Follows.issuer (h : e.Follows started) {c : Call} {s : Session}
    (hs : e.issuer? c = some s) : ∃ s₀ ∈ started, s₀.Continues s := by
  have hactive := active_of_issuer? hs
  obtain hidle | ⟨s₀, hmem, d, hserves⟩ := h
  · exact nomatch hidle.symm.trans hactive
  · exact ⟨s₀, hmem, (hserves s hactive).1⟩

theorem Follows.next (h : e.Follows started) (c : Call) :
    (e.next c).Follows (started ++ (e.opened? c).toList) := by
  cases hopen : e.opened? c with
  | none =>
    rw [Option.toList_none, List.append_nil]
    obtain hidle | ⟨s, hmem, d, hserves⟩ := h
    · exact .inl (idle_next hidle hopen)
    · exact .inr ⟨s, hmem, _, (hserves.next_of_not_opens (not_opens hopen)).1⟩
  | some s =>
    have hmem : s ∈ started ++ [s] := List.mem_append_right _ List.mem_cons_self
    exact .inr ⟨s, hmem, [], (opened?_eq_some hopen).1.serves⟩

end BootSlots.Engine
