import BootSlots.Proofs.Update.Lifecycle
import Mathlib.Data.List.Induction

/-
  What the progress of a session counts. The engine keeps two numbers for each session that can still be
  asked for its status, the size declared at its start and the size taken in; both are what the calls of the
  history say, so the progress is a function of the calls that succeeded under the session's handle. Data of
  a write that fails do not count, though the writer may have taken in a part of them.

  Proved:
  * `tally`: what each call does to the two numbers.
  * `Tallied.concat`, `tallied`: each call keeps the numbers in step with the history, so a history does.
  * `progress_from_history`: progress at every point of a history, and that it never goes back.
-/

namespace BootSlots

/-! ## Percent -/

/-- The part that `taken` bytes are of `declared` ones, in percent; 0 where no size is declared. -/
def percent (taken declared : Nat) : Nat :=
  if 0 < declared then min 100 (100 * taken / declared) else 0

theorem percent_le (taken declared : Nat) : percent taken declared ≤ 100 := by
  unfold percent
  split
  · exact Nat.min_le_left _ _
  · exact Nat.zero_le _

theorem percent_mono {taken taken' : Nat} (h : taken ≤ taken') (declared : Nat) :
    percent taken declared ≤ percent taken' declared := by
  have hquotient : 100 * taken / declared ≤ 100 * taken' / declared :=
    Nat.div_le_div_right (Nat.mul_le_mul_left 100 h)
  unfold percent
  split
  · omega
  · exact Nat.le_refl 0

theorem percent_eq_hundred_iff {taken declared : Nat} (h : 0 < declared) :
    percent taken declared = 100 ↔ declared ≤ taken := by
  have hquotient : 100 ≤ 100 * taken / declared ↔ 100 * declared ≤ 100 * taken :=
    Nat.le_div_iff_mul_le h
  rw [percent, if_pos h]
  omega

theorem Session.progress_eq (s : Session) : s.progress = percent s.accepted s.declared := by
  rw [progress, percent, Nat.min_comm, Nat.mul_comm]

namespace Engine

/-! ## Sizes of a history -/

/-- The size that a call declares, if it hands out `h`. -/
def declares? (e : Engine) (h : Handle) : Call → Option Nat
  | .start slot declared => if e.issued? (.start slot declared) = some h then some declared else none
  | _ => none

/-- The size declared at the start that handed out `h`. -/
def declaredFor (e : Engine) (h : Handle) : List Call → Option Nat
  | [] => none
  | c :: calls => ((e.next c).declaredFor h calls).or (e.declares? h c)

/-- The data that a call under `h` takes in. -/
def takenUnder (e : Engine) (h : Handle) : Call → List UInt8
  | .write h' data => if h' = h then e.taken (.write h' data) else []
  | _ => []

/-- All data that the writes under `h` took in, in order. -/
def acceptedUnder (e : Engine) (h : Handle) : List Call → List UInt8
  | [] => []
  | c :: calls => e.takenUnder h c ++ (e.next c).acceptedUnder h calls

variable {e : Engine} {h : Handle} {s t : Session} {c : Call} {calls : List Call}
  {issued released : List Handle}

theorem after_concat (e : Engine) (calls : List Call) (c : Call) :
    e.after (calls ++ [c]) = (e.after calls).next c :=
  e.after_append calls [c]

theorem issued_concat (e : Engine) (calls : List Call) (c : Call) :
    e.issued (calls ++ [c]) = e.issued calls ++ ((e.after calls).issued? c).toList := by
  rw [issued_append, Engine.issued, Engine.issued, List.append_nil]

theorem declaredFor_concat (e : Engine) (h : Handle) (calls : List Call) (c : Call) :
    e.declaredFor h (calls ++ [c]) = ((e.after calls).declares? h c).or (e.declaredFor h calls) := by
  induction calls generalizing e with
  | nil => exact (Option.or_none).symm
  | cons c' calls ih => rw [List.cons_append, declaredFor, ih, Option.or_assoc, declaredFor, after_cons]

theorem acceptedUnder_concat (e : Engine) (h : Handle) (calls : List Call) (c : Call) :
    e.acceptedUnder h (calls ++ [c]) = e.acceptedUnder h calls ++ (e.after calls).takenUnder h c := by
  induction calls generalizing e with
  | nil => exact List.append_nil _
  | cons c' calls ih =>
    rw [List.cons_append, acceptedUnder, ih, acceptedUnder, List.append_assoc, after_cons]

theorem takenUnder_of_taken_nil (htaken : e.taken c = []) (h : Handle) : e.takenUnder h c = [] := by
  cases c with
  | write h' data =>
    rw [takenUnder, htaken]
    exact ite_self []
  | _ => rfl

theorem issued?_of_declares {m : Nat} (hdeclares : e.declares? h c = some m) : e.issued? c = some h := by
  cases c with
  | start slot declared =>
    rw [declares?] at hdeclares
    split at hdeclares
    · assumption
    · exact absurd hdeclares (Option.some_ne_none m).symm
  | _ => exact absurd hdeclares (Option.some_ne_none m).symm

theorem declares?_of_ne (hne : e.issued? c ≠ some h) : e.declares? h c = none := by
  cases hdeclares : e.declares? h c with
  | none => rfl
  | some m => exact absurd (issued?_of_declares hdeclares) hne

theorem declaredFor_concat_of_ne (hne : (e.after calls).issued? c ≠ some h) :
    e.declaredFor h (calls ++ [c]) = e.declaredFor h calls := by
  rw [declaredFor_concat, declares?_of_ne hne, Option.none_or]

theorem acceptedUnder_concat_of_nil (htaken : (e.after calls).takenUnder h c = []) :
    e.acceptedUnder h (calls ++ [c]) = e.acceptedUnder h calls := by
  rw [acceptedUnder_concat, htaken, List.append_nil]

theorem issued_concat_of_none (hissued : (e.after calls).issued? c = none) :
    e.issued (calls ++ [c]) = e.issued calls := by
  rw [issued_concat, hissued, Option.toList_none, List.append_nil]

/-! ## What a call does to the sizes -/

/-- No call changes the settings. -/
theorem settings_next (e : Engine) (c : Call) : (e.next c).settings = e.settings := by
  cases c with
  | start slot declared =>
    obtain ⟨-, hq⟩ | ⟨_, _, -, -, -, -, hq⟩ := e.start_cases slot declared
    · exact congrArg (·.settings) hq
    · exact congrArg (·.settings) hq
  | write handle data =>
    obtain ⟨-, hq⟩ | ⟨s, -, -, -, -, -, -, htake⟩ := e.write_cases handle data
    · exact congrArg (·.settings) hq
    · rw [next, htake]
      obtain ⟨-, -, hq⟩ | ⟨-, hq⟩ := e.take_cases s data (s.accepted + data.length)
      · exact congrArg (·.settings) hq
      · exact congrArg (·.settings) hq
  | finish handle =>
    obtain ⟨-, heq⟩ | ⟨s, hlive, hphase⟩ := e.finish_cases handle
    · rw [next, heq]
    · obtain ⟨-, phase, heq, -⟩ := finish_of_writing hlive hphase
      rw [next, heq]
      obtain ⟨_, -, -, hq⟩ | ⟨-, -, -, hq⟩ | ⟨-, -, -, hq⟩ := e.conclude_cases s
      · exact congrArg (·.settings) hq
      · exact congrArg (·.settings) hq
      · exact congrArg (·.settings) hq
  | cancel handle =>
    rw [next, cancel]
    split
    · rfl
    · rfl
  | status handle => rfl
  | currentSlot => exact congrArg (·.settings) e.quiet_currentSlot
  | selectSlot slot => rfl
  | setFaults faults => rfl

/-- All that a call can do to the sessions that can be asked for their status, and to their sizes. -/
inductive Tally (e : Engine) (c : Call) : Prop where
  | rests (active : (e.next c).active = e.active) (last : (e.next c).last = e.last)
    (taken : e.taken c = []) (issued : e.issued? c = none)
  | opens (s : Session) (active : (e.next c).active = some s) (last : (e.next c).last = e.last)
    (id : s.id = e.nextId) (accepted : s.accepted = 0) (taken : e.taken c = [])
    (issued : e.issued? c = some s.handle) (declares : e.declares? s.handle c = some s.declared)
  | takes (s s' : Session) (live : e.active = some s) (active : (e.next c).active = some s')
    (last : (e.next c).last = e.last) (handle : s'.handle = s.handle)
    (declared : s'.declared = s.declared)
    (accepted : s'.accepted = s.accepted + (e.takenUnder s.handle c).length)
    (others : ∀ h, h ≠ s.handle → e.takenUnder h c = [])
    (bounded : e.settings.enforceDeclaredSize = true → 0 < s.declared → s'.accepted ≤ s.declared)
    (issued : e.issued? c = none)
  | ends (s : Session) (phase : Phase) (live : e.active = some s) (idle : (e.next c).active = none)
    (last : (e.next c).last = some { s with phase }) (taken : e.taken c = [])
    (issued : e.issued? c = none)

theorem Tally.of_quiet (hq : (e.next c).quiet = e.quiet) (htaken : e.taken c = [])
    (hissued : e.issued? c = none) : e.Tally c :=
  .rests (active_of_quiet_eq hq) (congrArg (·.last) hq) htaken hissued

theorem tally_start (e : Engine) (slot : UInt8) (declared : Nat) : e.Tally (.start slot declared) := by
  obtain ⟨⟨fault, hres⟩, hq⟩ | ⟨a, l, -, -, -, hok, hq⟩ := e.start_cases slot declared
  · refine .of_quiet hq rfl ?_
    rw [issued?, hres]
    rfl
  · have hissued : e.issued? (.start slot declared) = some ⟨e.nextId⟩ := by
      rw [issued?, hok]
      rfl
    exact .opens (e.opened slot declared a l) (active_of_quiet_eq hq) (congrArg (·.last) hq) rfl rfl rfl
      hissued (if_pos hissued)

theorem tally_write (e : Engine) (handle : Handle) (data : List UInt8) : e.Tally (.write handle data) := by
  obtain ⟨hres, hq⟩ | ⟨s, hlive, -, -, -, hdeclared, -, htake⟩ := e.write_cases handle data
  · refine .of_quiet hq ?_ rfl
    rw [taken, hres]
  · obtain rfl := handle_of_live? hlive
    have hactive := (live?_eq_some_iff.mp hlive).1
    have hnext : e.next (.write s.handle data) = (e.take s data (s.accepted + data.length)).2 := by
      rw [next, htake]
    have hothers : ∀ h, h ≠ s.handle → e.takenUnder h (.write s.handle data) = [] :=
      fun h hne => if_neg hne.symm
    have hunder : e.takenUnder s.handle (.write s.handle data) = e.taken (.write s.handle data) := if_pos rfl
    have hbounded : e.settings.enforceDeclaredSize = true → 0 < s.declared →
        s.accepted + data.length ≤ s.declared := by
      intro henforced hpos
      exact Nat.not_lt.mp fun hover => hdeclared ⟨henforced, hpos, hover⟩
    obtain ⟨-, hok, hq⟩ | ⟨⟨fault, -, hfault⟩, hq⟩ := e.take_cases s data (s.accepted + data.length)
    · rw [← hnext] at hq
      refine .takes s _ hactive (active_of_quiet_eq hq) (congrArg (·.last) hq) rfl rfl ?_ hothers hbounded rfl
      rw [hunder, taken, htake, hok]
    · rw [← hnext] at hq
      refine .takes s _ hactive (active_of_quiet_eq hq) (congrArg (·.last) hq) rfl rfl ?_ hothers ?_ rfl
      · rw [hunder, taken, htake, hfault]
        rfl
      · intro henforced hpos
        exact Nat.le_trans (Nat.le_add_right _ _) (hbounded henforced hpos)

theorem tally (e : Engine) (c : Call) : e.Tally c := by
  cases c with
  | start slot declared => exact e.tally_start slot declared
  | write handle data => exact e.tally_write handle data
  | finish handle =>
    obtain ⟨-, heq⟩ | ⟨s, hlive, hphase⟩ := e.finish_cases handle
    · exact .of_quiet (congrArg quiet heq) rfl rfl
    · obtain ⟨-, phase, heq, -⟩ := finish_of_writing hlive hphase
      have hactive := (live?_eq_some_iff.mp hlive).1
      exact .ends s phase hactive (congrArg (·.active) heq) (congrArg (·.last) heq) rfl rfl
  | cancel handle =>
    cases hlive : e.live? handle with
    | none =>
      have hnext : e.next (.cancel handle) = e := by rw [next, cancel, hlive]
      exact .of_quiet (congrArg quiet hnext) rfl rfl
    | some s =>
      have hnext : (e.next (.cancel handle)).quiet = (e.release s .failed).quiet := by
        rw [next, cancel, hlive]
        rfl
      have hactive := (live?_eq_some_iff.mp hlive).1
      exact .ends s .failed hactive (active_of_quiet_eq hnext) (congrArg (·.last) hnext) rfl rfl
  | currentSlot => exact .of_quiet e.quiet_currentSlot rfl rfl
  | status | selectSlot | setFaults => exact .rests rfl rfl rfl rfl

/-! ## Sizes and sessions -/

/-- The session is live, or the one released last. -/
def Knows (e : Engine) (s : Session) : Prop :=
  e.active = some s ∨ e.last = some s

theorem Books.mem_of_active (hb : e.Books issued released) (hactive : e.active = some s) :
    s.handle ∈ issued := by
  rw [hb.live, hactive]
  exact List.mem_append_right _ (List.mem_singleton_self _)

theorem Books.mem_of_last (hb : e.Books issued released) (hlast : e.last = some t) :
    t.handle ∈ released := by
  have hreleased := hb.last
  rw [hlast] at hreleased
  exact List.mem_of_getLast? hreleased.symm

theorem Books.mem_of_knows (hb : e.Books issued released) (hknows : e.Knows s) : s.handle ∈ issued := by
  obtain hactive | hlast := hknows
  · exact hb.mem_of_active hactive
  · rw [hb.live]
    exact List.mem_append_left _ (hb.mem_of_last hlast)

/-- The live session is not the one released last. -/
theorem Books.ne_of_last (hb : e.Books issued released) (hactive : e.active = some s)
    (hlast : e.last = some t) : t.handle ≠ s.handle := by
  have hnodup := hb.nodup
  rw [hb.live, hactive] at hnodup
  have hnot := (List.nodup_append.mp hnodup).2.2
  exact hnot _ (hb.mem_of_last hlast) _ (List.mem_singleton_self _)

/-- A call declares nothing for a handle that is handed out already. -/
theorem Books.declares?_of_mem (hb : e.Books issued released) (hmem : h ∈ issued) (c : Call) :
    e.declares? h c = none := by
  apply declares?_of_ne
  intro hissued
  obtain ⟨-, hnone, -⟩ | ⟨s, -, -, hid, -, -, -, hsome, -⟩ | ⟨_, _, -, -, -, -, -, -, -, hnone, -⟩ |
    ⟨_, _, -, -, -, -, -, hnone, -⟩ := e.turn c
  · cases hnone.symm.trans hissued
  · obtain rfl := Option.some.inj (hsome.symm.trans hissued)
    exact hb.id_ne_nextId hmem hid
  · cases hnone.symm.trans hissued
  · cases hnone.symm.trans hissued

/-- The sizes of the sessions after a history of `e` are what its calls say. -/
structure Tallied (e : Engine) (calls : List Call) : Prop where
  declared : ∀ s, (e.after calls).Knows s → e.declaredFor s.handle calls = some s.declared
  accepted : ∀ s, (e.after calls).Knows s → (e.acceptedUnder s.handle calls).length = s.accepted
  unissued : ∀ h, h ∉ e.issued calls → e.acceptedUnder h calls = []
  bounded : e.settings.enforceDeclaredSize = true → ∀ h m, e.declaredFor h calls = some m → 0 < m →
    (e.acceptedUnder h calls).length ≤ m

theorem tallied_nil (hfresh : e.Fresh) : e.Tallied [] := by
  have hnone : ∀ s, ¬ e.Knows s := by
    intro s hknows
    obtain hactive | hlast := hknows
    · cases hfresh.idle.symm.trans hactive
    · cases hfresh.last.symm.trans hlast
  refine ⟨fun s hs => absurd hs (hnone s), fun s hs => absurd hs (hnone s), fun _ _ => rfl, ?_⟩
  intro _ _ _ _ _
  exact Nat.zero_le _

/-- A call without data, after which no other sessions are known. -/
theorem Tallied.concat_of_taken_nil (ht : e.Tallied calls) (htaken : (e.after calls).taken c = [])
    (hissued : (e.after calls).issued? c = none)
    (hknows : ∀ s, ((e.after calls).next c).Knows s →
      ∃ t, (e.after calls).Knows t ∧ t.handle = s.handle ∧ t.declared = s.declared ∧
        t.accepted = s.accepted) : e.Tallied (calls ++ [c]) := by
  have hdeclared : ∀ h, e.declaredFor h (calls ++ [c]) = e.declaredFor h calls := by
    intro h
    apply declaredFor_concat_of_ne
    rw [hissued]
    exact (Option.some_ne_none h).symm
  have haccepted : ∀ h, e.acceptedUnder h (calls ++ [c]) = e.acceptedUnder h calls :=
    fun h => acceptedUnder_concat_of_nil (takenUnder_of_taken_nil htaken h)
  refine ⟨?_, ?_, ?_, ?_⟩
  · intro s hs
    rw [after_concat] at hs
    obtain ⟨t, ht', hhandle, hsize, -⟩ := hknows s hs
    rw [hdeclared, ← hhandle, ht.declared t ht', hsize]
  · intro s hs
    rw [after_concat] at hs
    obtain ⟨t, ht', hhandle, -, hsize⟩ := hknows s hs
    rw [haccepted, ← hhandle, ht.accepted t ht', hsize]
  · intro h hnot
    rw [issued_concat_of_none hissued] at hnot
    rw [haccepted]
    exact ht.unissued h hnot
  · intro henforced h m
    rw [hdeclared, haccepted]
    exact ht.bounded henforced h m

/-- A start that hands out a handle. -/
theorem Tallied.concat_of_opens (ht : e.Tallied calls)
    (hb : (e.after calls).Books (e.issued calls) released)
    (hactive : ((e.after calls).next c).active = some s)
    (hlast : ((e.after calls).next c).last = (e.after calls).last) (hid : s.id = (e.after calls).nextId)
    (hzero : s.accepted = 0) (htaken : (e.after calls).taken c = [])
    (hissued : (e.after calls).issued? c = some s.handle)
    (hdeclares : (e.after calls).declares? s.handle c = some s.declared) : e.Tallied (calls ++ [c]) := by
  have hnew : s.handle ∉ e.issued calls := fun hmem => hb.id_ne_nextId hmem hid
  have haccepted : ∀ h, e.acceptedUnder h (calls ++ [c]) = e.acceptedUnder h calls :=
    fun h => acceptedUnder_concat_of_nil (takenUnder_of_taken_nil htaken h)
  have hnone : e.acceptedUnder s.handle (calls ++ [c]) = [] := by
    rw [haccepted]
    exact ht.unissued s.handle hnew
  have hdeclared : e.declaredFor s.handle (calls ++ [c]) = some s.declared := by
    rw [declaredFor_concat, hdeclares, Option.some_or]
  have hsame : ∀ h, h ≠ s.handle → e.declaredFor h (calls ++ [c]) = e.declaredFor h calls := by
    intro h hne
    apply declaredFor_concat_of_ne
    rw [hissued]
    exact fun heq => hne (Option.some.inj heq).symm
  -- the session released last keeps its sizes; the other one is `s`
  have hold : ∀ t, (e.after (calls ++ [c])).Knows t → t = s ∨ (e.after calls).Knows t := by
    intro t hknows
    rw [after_concat] at hknows
    obtain hlive | hreleased := hknows
    · exact .inl (Option.some.inj (hlive.symm.trans hactive))
    · exact .inr (.inr (hlast.symm.trans hreleased))
  refine ⟨?_, ?_, ?_, ?_⟩
  · intro t hknows
    obtain rfl | hknown := hold t hknows
    · exact hdeclared
    · have hne : t.handle ≠ s.handle := fun heq => hnew (heq ▸ hb.mem_of_knows hknown)
      rw [hsame _ hne]
      exact ht.declared t hknown
  · intro t hknows
    obtain rfl | hknown := hold t hknows
    · rw [hnone, hzero]
      rfl
    · rw [haccepted]
      exact ht.accepted t hknown
  · intro h hnot
    rw [issued_concat, List.mem_append, not_or] at hnot
    rw [haccepted]
    exact ht.unissued h hnot.1
  · intro henforced h m hm hpos
    by_cases hh : h = s.handle
    · rw [hh, hnone]
      exact Nat.zero_le m
    · rw [hsame h hh] at hm
      rw [haccepted]
      exact ht.bounded henforced h m hm hpos

/-- A write to the live session, which takes the data in or fails it. -/
theorem Tallied.concat_of_takes {s' : Session} (ht : e.Tallied calls)
    (hb : (e.after calls).Books (e.issued calls) released) (hlive : (e.after calls).active = some s)
    (hactive : ((e.after calls).next c).active = some s')
    (hlast : ((e.after calls).next c).last = (e.after calls).last) (hhandle : s'.handle = s.handle)
    (hdeclared : s'.declared = s.declared)
    (haccepted : s'.accepted = s.accepted + ((e.after calls).takenUnder s.handle c).length)
    (hothers : ∀ h, h ≠ s.handle → (e.after calls).takenUnder h c = [])
    (hbounded : e.settings.enforceDeclaredSize = true → 0 < s.declared → s'.accepted ≤ s.declared)
    (hissued : (e.after calls).issued? c = none) : e.Tallied (calls ++ [c]) := by
  have hsizes : ∀ h, e.declaredFor h (calls ++ [c]) = e.declaredFor h calls := by
    intro h
    apply declaredFor_concat_of_ne
    rw [hissued]
    exact (Option.some_ne_none h).symm
  have hsame : ∀ h, h ≠ s.handle → e.acceptedUnder h (calls ++ [c]) = e.acceptedUnder h calls :=
    fun h hne => acceptedUnder_concat_of_nil (hothers h hne)
  have htaken : (e.acceptedUnder s.handle (calls ++ [c])).length = s'.accepted := by
    rw [acceptedUnder_concat, List.length_append, ht.accepted s (.inl hlive), haccepted]
  have hold : ∀ t, (e.after (calls ++ [c])).Knows t →
      t = s' ∨ (e.after calls).Knows t ∧ t.handle ≠ s.handle := by
    intro t hknows
    rw [after_concat] at hknows
    obtain hlive' | hreleased := hknows
    · exact .inl (Option.some.inj (hlive'.symm.trans hactive))
    · have hreleased' := hlast.symm.trans hreleased
      exact .inr ⟨.inr hreleased', hb.ne_of_last hlive hreleased'⟩
  refine ⟨?_, ?_, ?_, ?_⟩
  · intro t hknows
    rw [hsizes]
    obtain rfl | ⟨hknown, -⟩ := hold t hknows
    · rw [hhandle, hdeclared]
      exact ht.declared s (.inl hlive)
    · exact ht.declared t hknown
  · intro t hknows
    obtain rfl | ⟨hknown, hne⟩ := hold t hknows
    · rw [hhandle, htaken]
    · rw [hsame _ hne]
      exact ht.accepted t hknown
  · intro h hnot
    rw [issued_concat_of_none hissued] at hnot
    have hne : h ≠ s.handle := fun heq => hnot (heq ▸ hb.mem_of_active hlive)
    rw [hsame h hne]
    exact ht.unissued h hnot
  · intro henforced h m hm hpos
    rw [hsizes] at hm
    by_cases hh : h = s.handle
    · subst hh
      obtain rfl := Option.some.inj ((ht.declared s (.inl hlive)).symm.trans hm)
      rw [htaken]
      exact hbounded henforced hpos
    · rw [hsame h hh]
      exact ht.bounded henforced h m hm hpos

theorem settings_after (e : Engine) (calls : List Call) : (e.after calls).settings = e.settings := by
  induction calls generalizing e with
  | nil => rfl
  | cons c calls ih => rw [after_cons, ih, settings_next]

/-- Each call keeps sizes and history in step. -/
theorem Tallied.concat (ht : e.Tallied calls) (hb : (e.after calls).Books (e.issued calls) released)
    (c : Call) : e.Tallied (calls ++ [c]) := by
  obtain ⟨hactive, hlast, htaken, hissued⟩ |
    ⟨s, hactive, hlast, hid, hzero, htaken, hissued, hdeclares⟩ |
    ⟨s, s', hlive, hactive, hlast, hhandle, hdeclared, haccepted, hothers, hbounded, hissued⟩ |
    ⟨s, phase, hlive, hidle, hlast, htaken, hissued⟩ := (e.after calls).tally c
  · refine ht.concat_of_taken_nil htaken hissued ?_
    intro s hknows
    rw [Knows, hactive, hlast] at hknows
    exact ⟨s, hknows, rfl, rfl, rfl⟩
  · exact ht.concat_of_opens hb hactive hlast hid hzero htaken hissued hdeclares
  · rw [settings_after] at hbounded
    exact ht.concat_of_takes hb hlive hactive hlast hhandle hdeclared haccepted hothers hbounded hissued
  · refine ht.concat_of_taken_nil htaken hissued ?_
    intro t hknows
    rw [Knows, hidle, hlast] at hknows
    obtain hnone | hsome := hknows
    · exact absurd hnone (Option.some_ne_none t).symm
    · rw [← Option.some.inj hsome]
      exact ⟨s, .inl hlive, rfl, rfl, rfl⟩

theorem tallied (hfresh : e.Fresh) (hfew : (e.issued calls).length < UInt32.size - 1) :
    e.Tallied calls := by
  induction calls using List.reverseRecOn with
  | nil => exact tallied_nil hfresh
  | append_singleton calls c ih =>
    have hpre : (e.issued calls).length < UInt32.size - 1 := by
      rw [issued_concat, List.length_append] at hfew
      omega
    exact (ih hpre).concat (books_after hfresh hpre) c

/-! ## Progress -/

/-- `h` is the handle of the live session or of the one released last, after a history of `e`. -/
def Names (e : Engine) (calls : List Call) (h : Handle) : Prop :=
  (e.after calls).live? h ≠ none ∨ (e.released calls).getLast? = some h

theorem Books.knows_of_names (hb : (e.after calls).Books issued (e.released calls))
    (hnames : e.Names calls h) : ∃ s, (e.after calls).Knows s ∧ s.handle = h := by
  obtain hlive | hreleased := hnames
  · obtain ⟨s, hs⟩ := Option.ne_none_iff_exists'.mp hlive
    exact ⟨s, .inl (live?_eq_some_iff.mp hs).1, (handle_of_live? hs).symm⟩
  · rw [← hb.last] at hreleased
    obtain ⟨s, hlast, hhandle⟩ := Option.map_eq_some_iff.mp hreleased
    exact ⟨s, .inr hlast, hhandle⟩

/-- The status under the handle of a known session is that of a known session with that handle. -/
theorem status_of_knows (hknows : e.Knows s) (hhandle : s.handle = h) :
    ∃ t, e.Knows t ∧ t.handle = h ∧ e.status h = t.status := by
  have hmem : s ∈ e.active.toList ++ e.last.toList := by
    rw [List.mem_append, Option.mem_toList, Option.mem_toList]
    exact hknows
  cases hfind : (e.active.toList ++ e.last.toList).find? (·.id == h.id) with
  | none =>
    have hnot := List.find?_eq_none.mp hfind s hmem
    exact absurd (beq_iff_eq.mpr (Session.handle_eq_iff.mp hhandle)) hnot
  | some t =>
    have hfound := List.mem_of_find?_eq_some hfind
    rw [List.mem_append, Option.mem_toList, Option.mem_toList] at hfound
    have hid := List.find?_some hfind
    refine ⟨t, hfound, Session.handle_eq_iff.mpr (eq_of_beq hid), ?_⟩
    rw [status, hfind]

/-- What the status under `h` shows after a history of `e`, where `m` is the declared size. -/
structure Shows (e : Engine) (calls : List Call) (h : Handle) (m : Nat) : Prop where
  exact : ((e.after calls).status h).progress = percent (e.acceptedUnder h calls).length m
  le : ((e.after calls).status h).progress ≤ 100
  full : 0 < m →
    (((e.after calls).status h).progress = 100 ↔ m ≤ (e.acceptedUnder h calls).length)

theorem Tallied.shows (ht : e.Tallied calls) (hb : (e.after calls).Books issued (e.released calls))
    (hnames : e.Names calls h) : ∃ m, e.declaredFor h calls = some m ∧ e.Shows calls h m := by
  obtain ⟨s, hs, hhandle⟩ := hb.knows_of_names hnames
  obtain ⟨t, hknows, rfl, hstatus⟩ := status_of_knows hs hhandle
  have hprogress : ((e.after calls).status t.handle).progress =
      percent (e.acceptedUnder t.handle calls).length t.declared := by
    rw [hstatus, ht.accepted t hknows]
    exact t.progress_eq
  refine ⟨t.declared, ht.declared t hknows, hprogress, ?_, ?_⟩
  · rw [hprogress]
    exact percent_le _ _
  · intro hpos
    rw [hprogress]
    exact percent_eq_hundred_iff hpos

/-- From one call to the next the progress of a session does not go back. -/
theorem Tallied.progress_le (ht : e.Tallied calls)
    (hb : (e.after calls).Books (e.issued calls) (e.released calls))
    (hb' : (e.after (calls ++ [c])).Books issued (e.released (calls ++ [c])))
    (hnames : e.Names calls h) (hnames' : e.Names (calls ++ [c]) h) :
    ((e.after calls).status h).progress ≤ ((e.after (calls ++ [c])).status h).progress := by
  obtain ⟨m, hm, hshows⟩ := ht.shows hb hnames
  obtain ⟨m', hm', hshows'⟩ := (ht.concat hb c).shows hb' hnames'
  obtain ⟨s, hs, rfl⟩ := hb.knows_of_names hnames
  rw [declaredFor_concat, hb.declares?_of_mem (hb.mem_of_knows hs), Option.none_or, hm] at hm'
  rw [hshows.exact, hshows'.exact, ← Option.some.inj hm', acceptedUnder_concat, List.length_append]
  exact percent_mono (Nat.le_add_right _ _) m

/-- At every point of a history of a new engine, the progress of the live session and of the one released last
is the part of the declared size that the successful writes under its handle took in; it never goes back. -/
theorem progress_from_history (hfresh : e.Fresh) (hfew : (e.issued calls).length < UInt32.size - 1) :
    (∀ h, e.Names calls h → ∃ m, e.declaredFor h calls = some m ∧ e.Shows calls h m) ∧
      (e.settings.enforceDeclaredSize = true → ∀ h m, e.declaredFor h calls = some m → 0 < m →
        (e.acceptedUnder h calls).length ≤ m) ∧
      ∀ pre c post, calls = pre ++ c :: post → ∀ h, e.Names pre h → e.Names (pre ++ [c]) h →
        ((e.after pre).status h).progress ≤ ((e.after (pre ++ [c])).status h).progress := by
  have ht := tallied hfresh hfew
  refine ⟨fun h hnames => ht.shows (books_after hfresh hfew) hnames, ht.bounded, ?_⟩
  intro pre c post hsplit h hnames hnames'
  have hprefix : ∀ part rest, calls = part ++ rest → (e.issued part).length < UInt32.size - 1 := by
    intro part rest heq
    rw [heq, issued_append, List.length_append] at hfew
    omega
  have hpre := hprefix pre (c :: post) hsplit
  have hpre' := hprefix (pre ++ [c]) post (by rw [hsplit, List.append_assoc, List.singleton_append])
  exact (tallied hfresh hpre).progress_le (books_after hfresh hpre) (books_after hfresh hpre') hnames
    hnames'

/-- What a history of one write and a cancel says. -/
theorem sizes_of_one_write {slot : UInt8} {m : Nat} {data : List UInt8}
    (hstart : (e.start slot m).1 = .ok h) (hwrite : ((e.start slot m).2.write h data).1 = .ok ())
    (hlive : (((e.start slot m).2.write h data).2).live? h ≠ none) :
    e.declaredFor h [.start slot m, .write h data, .cancel h] = some m ∧
      e.acceptedUnder h [.start slot m, .write h data, .cancel h] = data ∧
      e.Names [.start slot m, .write h data, .cancel h] h := by
  have hissued : e.issued? (.start slot m) = some h := by
    rw [issued?, hstart]
    rfl
  have htaken : (e.next (.start slot m)).taken (.write h data) = data := by
    rw [taken, next, hwrite]
  have hreleased : ((e.next (.start slot m)).next (.write h data)).released? (.cancel h) = some h :=
    released?_eq_some_iff.mpr (.inl ⟨rfl, hlive⟩)
  refine ⟨?_, ?_, .inr ?_⟩
  · simp [declaredFor, declares?, hissued]
  · simp [acceptedUnder, takenUnder, htaken]
  · rw [released, released, released, hreleased]
    rfl

/-- A session that declared two bytes, took in one of them and was cancelled. -/
theorem progress_from_history_half :
    (provisioned (.factory provisionedSize)).Fresh ∧
      ((provisioned (.factory provisionedSize)).issued
        [.start 1 2, .write ⟨1⟩ [Image.magic], .cancel ⟨1⟩]).length < UInt32.size - 1 ∧
      (((provisioned (.factory provisionedSize)).after
        [.start 1 2, .write ⟨1⟩ [Image.magic], .cancel ⟨1⟩]).status ⟨1⟩).progress = 50 := by
  have hfresh := fresh_provisioned (.factory provisionedSize)
  have hfew : ((provisioned (.factory provisionedSize)).issued
      [.start 1 2, .write ⟨1⟩ [Image.magic], .cancel ⟨1⟩]).length < UInt32.size - 1 :=
    Nat.lt_of_le_of_lt (length_issued_le _ _) (by decide)
  have hsecond : (Record.factory provisionedSize).address? 1 = some (10 * sectorSize) := by decide
  have hlimit : 10 * sectorSize + (0 + [Image.magic].length) ≤
      (Record.factory provisionedSize).limitOf provisionedSize (10 * sectorSize) := by decide
  have hfree : (provisioned (.factory provisionedSize)).store.flash.Unhindered
      (10 * sectorSize + (0 + [Image.magic].length)) := by
    refine ⟨by rw [faults_provisioned], by rw [faults_provisioned], ?_⟩
    rw [size_provisioned]
    decide
  have hstart := start_eq_ok load_provisioned_factory hsecond rfl (arenaUsable_provisioned _) 2
  obtain ⟨a, ha, -, hflash, hlive⟩ := live_of_start load_provisioned_factory hstart
  obtain rfl := Option.some.inj (hsecond.symm.trans ha)
  rw [capacity_provisioned] at hlive
  rw [← hflash] at hfree
  rw [nextId_provisioned] at hstart
  have hnumber := nextId_provisioned (.factory provisionedSize)
  have hdeclared : ¬ (2 < 0 + [Image.magic].length) := by decide
  obtain ⟨hok, s, _, hcont, hlive', -⟩ := hlive.write_eq_ok ⟨1⟩ hnumber
    (List.cons_ne_nil Image.magic []) (show 0 + [Image.magic].length < addressSpace by decide)
    (fun hover => hdeclared hover.2.2) hlimit hfree
  have hid : s.id = (⟨1⟩ : Handle).id := hcont.id.trans hnumber
  have hnow := live?_eq_some_iff.mpr ⟨hlive'.active, hid⟩
  obtain ⟨hsize, htaken, hnames⟩ :=
    sizes_of_one_write hstart hok (by rw [hnow]; exact Option.some_ne_none s)
  obtain ⟨hall, -, -⟩ := progress_from_history hfresh hfew
  obtain ⟨m, hm, hshows⟩ := hall ⟨1⟩ hnames
  obtain rfl := Option.some.inj (hsize.symm.trans hm)
  refine ⟨hfresh, hfew, ?_⟩
  rw [hshows.exact, htaken]
  decide

end Engine

end BootSlots
