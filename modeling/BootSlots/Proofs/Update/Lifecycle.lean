import BootSlots.Proofs.Update.Ledger
import BootSlots.Proofs.Update.Runs

/-
  The life of the sessions of one engine, over histories of any length and under any faults.

  Proved:
  * `Books.change`: all that one call can do to the phase that a session reports.
  * `Stuck.next`, `Stuck.after`: a live session that has failed stays until it is cancelled.
  * `session_lifecycle`: at every point of a history, what is true of the sessions and what a call may
    change about them.
-/

namespace BootSlots

/-- The ways in which the phase that a session reports may change. -/
inductive Phase.Moves : Phase → Phase → Prop where
  | stays (p : Phase) : Moves p p
  | takesFirst : Moves started writing
  | failsAtFirst : Moves started failed
  | fails : Moves writing failed
  | completes : Moves writing complete
  | displaced : Moves complete failed

theorem Phase.Moves.takes {p : Phase} (h : p.takesData = true) : p.Moves .writing := by
  cases p with
  | started => exact .takesFirst
  | writing => exact .stays _
  | _ => cases h

theorem Phase.Moves.breaks {p : Phase} (h : p.takesData = true) : p.Moves .failed := by
  cases p with
  | started => exact .failsAtFirst
  | writing => exact .fails
  | _ => cases h

namespace Engine

variable {e : Engine} {h : Handle} {s : Session} {issued released : List Handle}

/-! ## How a phase moves -/

/-- A complete session is the one released last. -/
theorem Books.last_of_settled (hb : e.Books issued released) (hphase : e.settled h = .complete) :
    released.getLast? = some h := by
  rw [settled] at hphase
  split at hphase
  · rename_i t hlast
    split at hphase
    · rename_i hid
      rw [← hb.last, hlast, Option.map_some, Session.handle_eq_iff.mpr hid]
    · cases hphase
  · cases hphase

/-- When `s` is released, the session released before it was opened before it. -/
theorem Books.sublist_issued (hb : e.Books issued released) (hlive : e.active = some s)
    (hlast : released.getLast? = some h) : [h, s.handle].Sublist issued := by
  obtain ⟨earlier, hreleased⟩ := List.getLast?_eq_some_iff.mp hlast
  rw [hb.live, hlive, hreleased, List.append_assoc]
  exact List.sublist_append_right earlier _

/-- All that one call can do to the phase that a session reports. -/
theorem Books.change (hb : e.Books issued released) (c : Call) (hmem : h ∈ issued) :
    (e.next c).phaseOf h = e.phaseOf h ∨
      ((e.phaseOf h).takesData = true ∧
        ((e.next c).phaseOf h = .writing ∨ (e.next c).phaseOf h = .failed)) ∨
      (e.phaseOf h = .writing ∧ (e.next c).phaseOf h = .complete ∧
        c = .finish h ∧ (e.finish h).1 = .ok ()) ∨
      (e.phaseOf h = .complete ∧ (e.next c).phaseOf h = .failed ∧
        ∃ h', e.released? c = some h' ∧ [h, h'].Sublist issued) := by
  obtain ⟨hsame, -, -⟩ | ⟨s, hidle, hactive, hid, -, hlast, -⟩ |
    ⟨s, s', hlive, htakes, hactive, hid, hphase, hlast, -⟩ |
    ⟨s, phase, hlive, hidle, hlast, hending, -, -, hreleased⟩ := e.turn c
  · exact .inl (hsame.phaseOf h)
  · -- `s` is another session, and `h` is not live
    have hne : s.id ≠ h.id := fun heq => hb.id_ne_nextId hmem (heq.symm.trans hid)
    refine .inl ?_
    rw [phaseOf_of_not_live (live?_eq_none_of_idle hidle h),
      phaseOf_of_not_live (live?_eq_none_of_ne hactive hne), settled_congr hlast]
  · by_cases heq : s.id = h.id
    · rw [phaseOf_of_live (live?_eq_some_iff.mpr ⟨hlive, heq⟩),
        phaseOf_of_live (live?_eq_some_iff.mpr ⟨hactive, hid.trans heq⟩)]
      exact .inr (.inl ⟨htakes, hphase⟩)
    · have hne : s'.id ≠ h.id := fun heq' => heq (hid.symm.trans heq')
      refine .inl ?_
      rw [phaseOf_of_not_live (live?_eq_none_of_ne hlive heq),
        phaseOf_of_not_live (live?_eq_none_of_ne hactive hne), settled_congr hlast]
  · rw [phaseOf_of_not_live (live?_eq_none_of_idle hidle h), settled, hlast]
    dsimp only
    by_cases heq : s.id = h.id
    · rw [phaseOf_of_live (live?_eq_some_iff.mpr ⟨hlive, heq⟩), if_pos heq]
      obtain rfl | ⟨rfl, hwriting, hfinish, hok⟩ := hending
      · obtain htakes | hfailed := hb.live_phase s hlive
        · exact .inr (.inl ⟨htakes, .inr rfl⟩)
        · exact .inl hfailed.symm
      · obtain rfl := Session.handle_eq_iff.mpr heq
        exact .inr (.inr (.inl ⟨hwriting, rfl, hfinish, hok⟩))
    · -- the session released last gives way to `s`
      rw [phaseOf_of_not_live (live?_eq_none_of_ne hlive heq), if_neg heq]
      have hterminal := hb.isTerminal_settled h
      cases hp : e.settled h with
      | complete =>
        have hearlier := hb.sublist_issued hlive (hb.last_of_settled hp)
        exact .inr (.inr (.inr ⟨rfl, rfl, s.handle, hreleased, hearlier⟩))
      | failed => exact .inl rfl
      | _ => rw [hp] at hterminal; cases hterminal

/-- One call moves the phase of a session along, or leaves it. -/
theorem Books.moves (hb : e.Books issued released) (c : Call) (hmem : h ∈ issued) :
    Phase.Moves (e.phaseOf h) ((e.next c).phaseOf h) := by
  obtain hsame | ⟨htakes, hwriting | hfailed⟩ | ⟨hwriting, hcomplete, -⟩ | ⟨hcomplete, hfailed, -⟩ :=
    hb.change c hmem
  · rw [hsame]
    exact .stays _
  · rw [hwriting]
    exact .takes htakes
  · rw [hfailed]
    exact .breaks htakes
  · rw [hwriting, hcomplete]
    exact .completes
  · rw [hcomplete, hfailed]
    exact .displaced

/-- A complete session counts as failed once a later one is released, and not before. -/
theorem Books.displaced (hb : e.Books issued released) {c : Call} (hmem : h ∈ issued)
    (hcomplete : e.phaseOf h = .complete) (hfailed : (e.next c).phaseOf h = .failed) :
    ∃ h', e.released? c = some h' ∧ [h, h'].Sublist issued := by
  obtain hsame | ⟨htakes, -⟩ | ⟨hwriting, -⟩ | ⟨-, -, hlater⟩ := hb.change c hmem
  · exact nomatch hcomplete.symm.trans (hsame.symm.trans hfailed)
  · rw [hcomplete] at htakes
    exact nomatch htakes
  · exact nomatch hcomplete.symm.trans hwriting
  · exact hlater

theorem phaseOf_of_finish_ok (hok : (e.finish h).1 = .ok ()) :
    (e.next (.finish h)).phaseOf h = .complete := by
  obtain ⟨hres, -⟩ | ⟨s, hlive, hphase⟩ := e.finish_cases h
  · cases hres.symm.trans hok
  · obtain ⟨hres, phase, heq, hend⟩ := finish_of_writing hlive hphase
    obtain ⟨-, rfl⟩ | ⟨⟨fault, hfault⟩, -⟩ := hend
    · rw [next, heq, phaseOf_of_not_live (live?_eq_none_of_idle rfl h), settled, release]
      exact if_pos (live?_eq_some_iff.mp hlive).2
    · cases hfault.symm.trans (hres.symm.trans hok)

/-- A session is first reported complete at the end that succeeded. -/
theorem Books.completes (hb : e.Books issued released) (c : Call) (hmem : h ∈ issued)
    (hbefore : e.phaseOf h ≠ .complete) :
    (e.next c).phaseOf h = .complete ↔ c = .finish h ∧ (e.finish h).1 = .ok () := by
  constructor
  · intro hcomplete
    obtain hsame | ⟨-, hwriting | hfailed⟩ | ⟨-, -, hended⟩ | ⟨hearlier, -⟩ := hb.change c hmem
    · exact absurd (hsame.symm.trans hcomplete) hbefore
    · exact nomatch hwriting.symm.trans hcomplete
    · exact nomatch hfailed.symm.trans hcomplete
    · exact hended
    · exact absurd hearlier hbefore
  · rintro ⟨rfl, hok⟩
    exact phaseOf_of_finish_ok hok

/-! ## Sessions that have failed and are still live -/

/-- The session of `h` is live and has failed. -/
def Stuck (e : Engine) (h : Handle) : Prop :=
  ∃ s, e.live? h = some s ∧ s.phase = .failed

/-- A write that fails leaves its session live. -/
theorem stuck_of_write {data : List UInt8} {fault : UpdateFault}
    (hres : (e.write h data).1 = .error fault) (hfault : fault ≠ .invalidArgs) :
    (e.next (.write h data)).Stuck h := by
  obtain ⟨hrefused, -⟩ | ⟨s, hlive, -, -, -, -, -, htake⟩ := e.write_cases h data
  · exact absurd (Except.error.inj (hres.symm.trans hrefused)) hfault
  · obtain ⟨-, hok, -⟩ | ⟨-, hq⟩ := e.take_cases s data (s.accepted + data.length)
    · rw [htake, hok] at hres
      exact nomatch hres
    · rw [next, htake]
      exact ⟨_, live?_eq_some_iff.mpr ⟨active_of_quiet_eq hq, (live?_eq_some_iff.mp hlive).2⟩, rfl⟩

/-- Only a cancel releases it. -/
theorem Stuck.next (hstuck : e.Stuck h) {c : Call} (hc : c ≠ .cancel h) : (e.next c).Stuck h := by
  obtain ⟨t, ht, hfailed⟩ := hstuck
  have hrefused : (e.finish h).1 = .error .invalidArgs := by
    refine (refused_of_terminal ?_).2
    rw [phaseOf_of_live ht, hfailed]
    rfl
  obtain ⟨hactive, hid⟩ := live?_eq_some_iff.mp ht
  obtain ⟨hsame, -, -⟩ | ⟨_, hidle, -⟩ | ⟨s, _, hlive, htakes, -⟩ |
    ⟨s, _, hlive, -, -, -, -, -, hreleased⟩ := e.turn c
  · exact ⟨t, live?_eq_some_iff.mpr ⟨hsame.active.trans hactive, hid⟩, hfailed⟩
  · exact nomatch hidle.symm.trans hactive
  · obtain rfl := Option.some.inj (hactive.symm.trans hlive)
    rw [hfailed] at htakes
    exact nomatch htakes
  · obtain rfl := Option.some.inj (hactive.symm.trans hlive)
    rw [Session.handle_eq_iff.mpr hid] at hreleased
    obtain ⟨hcancel, -⟩ | ⟨-, hres⟩ := released?_eq_some_iff.mp hreleased
    · exact absurd hcancel hc
    · exact absurd hrefused hres

theorem Stuck.after (hstuck : e.Stuck h) {calls : List Call} (hcalls : .cancel h ∉ calls) :
    (e.after calls).Stuck h := by
  induction calls generalizing e with
  | nil => exact hstuck
  | cons c calls ih =>
    rw [List.mem_cons, not_or] at hcalls
    exact ih (hstuck.next (Ne.symm hcalls.1)) hcalls.2

theorem Stuck.phaseOf (hstuck : e.Stuck h) : e.phaseOf h = .failed := by
  obtain ⟨s, hlive, hfailed⟩ := hstuck
  rw [phaseOf_of_live hlive, hfailed]

theorem idle_of_cancel (hlive : e.live? h = some s) : (e.next (.cancel h)).active = none := by
  rw [next, cancel, hlive]
  rfl

/-! ## The life of a session -/

/-- What holds of the sessions at the end of a history of `e`. -/
structure InOrder (e : Engine) (calls : List Call) : Prop where
  /-- Handles are pairwise distinct. -/
  distinct : (e.issued calls).Nodup
  /-- Sessions are released in the order in which they were opened, each by one call; the rest is live. -/
  once : e.issued calls = e.released calls ++ ((e.after calls).active.map Session.handle).toList
  phases : ∀ h, (e.after calls).phaseOf h ∈ [Phase.started, .writing, .complete, .failed]
  terminal : ∀ h, ((e.after calls).phaseOf h).isTerminal = true →
    (∀ data, ((e.after calls).write h data).1 = .error .invalidArgs) ∧
      ((e.after calls).finish h).1 = .error .invalidArgs
  /-- At most one session takes data. -/
  unique : ∀ h h', ((e.after calls).phaseOf h).takesData = true →
    ((e.after calls).phaseOf h').takesData = true → h = h'

/-- What the call `c` does to the sessions after a history of `e`. -/
structure Advances (e : Engine) (calls : List Call) (c : Call) : Prop where
  starts : ∀ h, (e.after calls).issued? c = some h → (e.after (calls ++ [c])).phaseOf h = .started
  moves : ∀ h ∈ e.issued calls,
    Phase.Moves ((e.after calls).phaseOf h) ((e.after (calls ++ [c])).phaseOf h)
  /-- A complete session counts as failed only once a session that was opened later is released. -/
  displaced : ∀ h ∈ e.issued calls, (e.after calls).phaseOf h = .complete →
    (e.after (calls ++ [c])).phaseOf h = .failed →
      ∃ h', (e.after calls).released? c = some h' ∧ [h, h'].Sublist (e.issued calls)
  completes : ∀ h ∈ e.issued calls, (e.after calls).phaseOf h ≠ .complete →
    ((e.after (calls ++ [c])).phaseOf h = .complete ↔
      c = .finish h ∧ ((e.after calls).finish h).1 = .ok ())
  releases : ∀ h, (e.after calls).live? h ≠ none →
    ((e.after (calls ++ [c])).live? h = none ↔
      c = .cancel h ∨ c = .finish h ∧ ((e.after calls).finish h).1 ≠ .error .invalidArgs)

/-- The session of `h` has failed, and no other is opened until it is cancelled. -/
structure Blocks (e : Engine) (h : Handle) : Prop where
  live : e.live? h ≠ none
  failed : e.phaseOf h = .failed
  starts : ∀ slot declared, (e.start slot declared).1 =
    .error (if (e.store.region? slot).isSome then .inProgress else .invalidArgs)
  cancelled : (e.next (.cancel h)).active = none

theorem Stuck.blocks (hstuck : e.Stuck h) : e.Blocks h := by
  obtain ⟨s, hs, -⟩ := id hstuck
  refine ⟨?_, hstuck.phaseOf, start_of_live (live?_eq_some_iff.mp hs).1, idle_of_cancel hs⟩
  rw [hs]
  exact Option.some_ne_none s

theorem inOrder (hfresh : e.Fresh) {calls : List Call}
    (hfew : (e.issued calls).length < UInt32.size - 1) : e.InOrder calls := by
  have hb := books_after hfresh hfew
  refine ⟨hb.nodup, hb.live, hb.phases, fun h hterminal => refused_of_terminal hterminal, ?_⟩
  intro h h' htakes htakes'
  obtain ⟨s, hs⟩ := hb.live_of_takesData htakes
  obtain ⟨s', hs'⟩ := hb.live_of_takesData htakes'
  obtain rfl : s = s' :=
    Option.some.inj ((live?_eq_some_iff.mp hs).1.symm.trans (live?_eq_some_iff.mp hs').1)
  rw [handle_of_live? hs, handle_of_live? hs']

theorem advances (hfresh : e.Fresh) {calls : List Call}
    (hfew : (e.issued calls).length < UInt32.size - 1) (c : Call) : e.Advances calls c := by
  have hb := books_after hfresh hfew
  have hnext : e.after (calls ++ [c]) = (e.after calls).next c := e.after_append calls [c]
  constructor
  · intro h hissued
    obtain ⟨s, hs, hphase⟩ := live_of_issued hissued
    rw [hnext, phaseOf_of_live hs, hphase]
  · intro h hmem
    rw [hnext]
    exact hb.moves c hmem
  · intro h hmem hcomplete hfailed
    rw [hnext] at hfailed
    exact hb.displaced hmem hcomplete hfailed
  · intro h hmem hbefore
    rw [hnext]
    exact hb.completes c hmem hbefore
  · intro h hlive
    rw [hnext, live?_next_eq_none_iff hlive, released?_eq_some_iff, and_iff_left hlive]

/-- The life of the sessions of a new engine, at every point of a history. A session that a write failed
stays live, and no other is opened, until it is cancelled. -/
theorem session_lifecycle (hfresh : e.Fresh) {calls : List Call}
    (hfew : (e.issued calls).length < UInt32.size - 1) :
    e.InOrder calls ∧
      ∀ pre c post, calls = pre ++ c :: post →
        e.InOrder pre ∧ e.Advances pre c ∧
          ∀ h data fault, c = .write h data → ((e.after pre).write h data).1 = .error fault →
            fault ≠ .invalidArgs →
              ∀ mid rest, post = mid ++ rest → .cancel h ∉ mid →
                (e.after (pre ++ c :: mid)).Blocks h := by
  refine ⟨inOrder hfresh hfew, ?_⟩
  rintro pre c post rfl
  have hpre : (e.issued pre).length < UInt32.size - 1 := by
    rw [issued_append, List.length_append] at hfew
    omega
  refine ⟨inOrder hfresh hpre, advances hfresh hpre c, ?_⟩
  rintro h data fault rfl hres hfault mid rest - hmid
  rw [after_append, after_cons]
  exact ((stuck_of_write hres hfault).after hmid).blocks

theorem fresh_provisioned (r : Record) : (provisioned r).Fresh :=
  ⟨rfl, rfl, rfl⟩

/-- A session that is started and cancelled at once. -/
theorem session_lifecycle_cancelled :
    (provisioned (.factory provisionedSize)).Fresh ∧
      ((provisioned (.factory provisionedSize)).issued [.start 1 0, .cancel ⟨1⟩]).length <
        UInt32.size - 1 ∧
      ((provisioned (.factory provisionedSize)).after [.start 1 0]).phaseOf ⟨1⟩ = .started ∧
      ((provisioned (.factory provisionedSize)).after [.start 1 0, .cancel ⟨1⟩]).live? ⟨1⟩ = none := by
  have hfresh := fresh_provisioned (.factory provisionedSize)
  have hfew : ((provisioned (.factory provisionedSize)).issued [.start 1 0, .cancel ⟨1⟩]).length <
      UInt32.size - 1 := Nat.lt_of_le_of_lt (length_issued_le _ _) (by decide)
  have hsecond : (Record.factory provisionedSize).address? 1 = some (10 * sectorSize) := by decide
  have hissued : (provisioned (.factory provisionedSize)).issued? (.start 1 0) = some ⟨1⟩ := by
    rw [issued?, start_eq_ok load_provisioned_factory hsecond rfl (arenaUsable_provisioned _),
      nextId_provisioned]
    rfl
  obtain ⟨-, hsteps⟩ := session_lifecycle hfresh hfew
  obtain ⟨-, hopening, -⟩ := hsteps [] (.start 1 0) [.cancel ⟨1⟩] rfl
  obtain ⟨-, hcancel, -⟩ := hsteps [.start 1 0] (.cancel ⟨1⟩) [] rfl
  have hlive : ((provisioned (.factory provisionedSize)).after [.start 1 0]).live? ⟨1⟩ ≠ none := by
    obtain ⟨s, hs, -⟩ := live_of_issued hissued
    rw [after_cons, after_nil, hs]
    exact Option.some_ne_none s
  exact ⟨hfresh, hfew, hopening.starts ⟨1⟩ hissued, (hcancel.releases ⟨1⟩ hlive).mpr (.inl rfl)⟩

end Engine

end BootSlots
