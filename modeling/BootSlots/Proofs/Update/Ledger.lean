import BootSlots.Proofs.Update.Turns

/-
  The ledger of an engine. The handles that it handed out are kept in order; what a session reports hangs on
  its place among them: the latest may be live, the one released last is remembered, and all others count as
  failed.

  Proved:
  * `phaseOf_of_live`, `phaseOf_of_not_live`: where the phase that a session reports comes from.
  * `refused_of_terminal`: a session in a terminal phase takes in nothing and is not ended.
  * `Books.next`, `books_after`: each call keeps the ledger, so a history does.

  Handles are numbers of 32 bits. They come again once they have wrapped around, so a history is bounded in
  how many sessions it opens, not in how many calls it makes.
-/

namespace BootSlots

namespace Phase

variable {p : Phase}

theorem mem_of_takesData (h : p.takesData = true) : p ∈ [started, writing, complete, failed] := by
  cases p with
  | started | writing => decide
  | _ => exact nomatch h

theorem mem_of_isTerminal (h : p.isTerminal = true) : p ∈ [started, writing, complete, failed] := by
  cases p with
  | complete | failed => decide
  | _ => exact nomatch h

theorem not_takesData_of_isTerminal (h : p.isTerminal = true) : ¬ p.takesData = true := by
  cases p with
  | complete | failed => exact Bool.false_ne_true
  | _ => exact nomatch h

end Phase

namespace Engine

variable {e e' : Engine} {h : Handle} {s : Session}

/-! ## What a session reports -/

/-- The phase that a session reports. -/
def phaseOf (e : Engine) (h : Handle) : Phase :=
  (e.status h).phase

/-- The phase that a session reports once it is not live. -/
def settled (e : Engine) (h : Handle) : Phase :=
  match e.last with
  | some s => if s.id = h.id then s.phase else .failed
  | none => .failed

theorem live?_eq_none_of_idle (hidle : e.active = none) (h : Handle) : e.live? h = none := by
  rw [live?, hidle]

theorem live?_eq_none_of_ne (hactive : e.active = some s) (hid : s.id ≠ h.id) : e.live? h = none := by
  rw [live?, hactive]
  exact if_neg hid

theorem phaseOf_of_live (hlive : e.live? h = some s) : e.phaseOf h = s.phase := by
  obtain ⟨hactive, hid⟩ := live?_eq_some_iff.mp hlive
  have hfound : (s :: e.last.toList).find? (·.id == h.id) = some s :=
    List.find?_cons_of_pos (beq_iff_eq.mpr hid)
  rw [phaseOf, status, hactive, Option.toList_some, List.singleton_append, hfound]
  rfl

theorem phaseOf_of_not_live (hlive : e.live? h = none) : e.phaseOf h = e.settled h := by
  have hfind : (e.active.toList ++ e.last.toList).find? (·.id == h.id) =
      e.last.toList.find? (·.id == h.id) := by
    cases hactive : e.active with
    | none => rfl
    | some s =>
      refine List.find?_cons_of_neg fun hbeq => ?_
      rw [live?_eq_some_iff.mpr ⟨hactive, eq_of_beq hbeq⟩] at hlive
      exact nomatch hlive
  rw [phaseOf, status, hfind, settled]
  cases hlast : e.last with
  | none => rfl
  | some t =>
    rw [Option.toList_some, List.find?_singleton]
    by_cases hid : t.id = h.id
    · rw [if_pos (beq_iff_eq.mpr hid)]
      exact (if_pos hid).symm
    · rw [if_neg (fun hbeq => hid (eq_of_beq hbeq))]
      exact (if_neg hid).symm

theorem settled_congr (hlast : e'.last = e.last) (h : Handle) : e'.settled h = e.settled h := by
  rw [settled, settled, hlast]

/-- Once its phase is terminal, a session takes in nothing and cannot be ended. -/
theorem refused_of_terminal (hphase : (e.phaseOf h).isTerminal = true) :
    (∀ data, (e.write h data).1 = .error .invalidArgs) ∧ (e.finish h).1 = .error .invalidArgs := by
  refine ⟨fun data => ?_, ?_⟩
  · obtain ⟨hres, -⟩ | ⟨s, hlive, htakes, -⟩ := e.write_cases h data
    · exact hres
    · rw [phaseOf_of_live hlive] at hphase
      exact absurd htakes (Phase.not_takesData_of_isTerminal hphase)
  · obtain ⟨hres, -⟩ | ⟨s, hlive, hwriting⟩ := e.finish_cases h
    · exact hres
    · rw [phaseOf_of_live hlive, hwriting] at hphase
      exact nomatch hphase

theorem Rests.phaseOf (hrests : e.Rests e') (h : Handle) : e'.phaseOf h = e.phaseOf h := by
  have hlive : e'.live? h = e.live? h := by rw [live?, live?, hrests.active]
  cases hs : e.live? h with
  | some s => rw [phaseOf_of_live hs, phaseOf_of_live (hlive.trans hs)]
  | none =>
    rw [phaseOf_of_not_live hs, phaseOf_of_not_live (hlive.trans hs)]
    exact settled_congr hrests.last h

/-- A session whose handle is handed out is live and has no data yet. -/
theorem live_of_issued {c : Call} (hissued : e.issued? c = some h) :
    ∃ s, (e.next c).live? h = some s ∧ s.phase = .started := by
  obtain ⟨-, hnone, -⟩ | ⟨s, -, hactive, -, hphase, -, -, hsome, -⟩ |
    ⟨_, _, -, -, -, -, -, -, -, hnone, -⟩ | ⟨_, _, -, -, -, -, -, hnone, -⟩ := e.turn c
  · exact nomatch hnone.symm.trans hissued
  · obtain rfl := Option.some.inj (hsome.symm.trans hissued)
    exact ⟨s, live?_handle hactive, hphase⟩
  · exact nomatch hnone.symm.trans hissued
  · exact nomatch hnone.symm.trans hissued

/-! ## Handles of a history -/

/-- All handles that a history hands out, in order. -/
def issued (e : Engine) : List Call → List Handle
  | [] => []
  | c :: calls => (e.issued? c).toList ++ (e.next c).issued calls

/-- The handles of all sessions that a history releases, in order. -/
def released (e : Engine) : List Call → List Handle
  | [] => []
  | c :: calls => (e.released? c).toList ++ (e.next c).released calls

theorem issued_append (e : Engine) (calls calls' : List Call) :
    e.issued (calls ++ calls') = e.issued calls ++ (e.after calls).issued calls' := by
  induction calls generalizing e with
  | nil => rfl
  | cons c calls ih =>
    rw [List.cons_append, issued, ih, issued, List.append_assoc, after_cons]

theorem length_issued_le (e : Engine) (calls : List Call) : (e.issued calls).length ≤ calls.length := by
  induction calls generalizing e with
  | nil => exact Nat.le_refl 0
  | cons c calls ih =>
    have hrest := ih (e.next c)
    have hone : (e.issued? c).toList.length ≤ 1 := by
      cases e.issued? c with
      | none => exact Nat.zero_le 1
      | some _ => exact Nat.le_refl 1
    rw [issued, List.length_append, List.length_cons]
    omega

/-! ## The ledger -/

/-- The engine has had no session yet. -/
structure Fresh (e : Engine) : Prop where
  idle : e.active = none
  last : e.last = none
  nextId : e.nextId = 1

/-- The ledger of an engine: `issued` are the handles handed out so far, numbered from 1 on, and `released`
those of the sessions that were released. -/
structure Books (e : Engine) (issued released : List Handle) : Prop where
  numbered : issued.map (·.id.toNat) = List.range' 1 issued.length
  nextId : e.nextId.toNat = issued.length + 1
  live : issued = released ++ (e.active.map Session.handle).toList
  last : e.last.map Session.handle = released.getLast?
  live_phase : ∀ s, e.active = some s → s.phase.takesData = true ∨ s.phase = .failed
  last_phase : ∀ s, e.last = some s → s.phase.isTerminal = true

variable {issued released : List Handle}

theorem books_of_fresh (hfresh : e.Fresh) : e.Books [] [] where
  numbered := rfl
  nextId := by rw [hfresh.nextId]; rfl
  live := by rw [hfresh.idle]; rfl
  last := by rw [hfresh.last]; rfl
  live_phase _ hactive := nomatch hfresh.idle.symm.trans hactive
  last_phase _ hlast := nomatch hfresh.last.symm.trans hlast

theorem Books.nodup (hb : e.Books issued released) : issued.Nodup := by
  have hnodup : (issued.map (·.id.toNat)).Nodup := by
    rw [hb.numbered]
    exact List.nodup_range'
  exact List.Pairwise.of_map _ (fun a b hne heq => hne (congrArg (·.id.toNat) heq)) hnodup

/-- The next number is none of those handed out. -/
theorem Books.id_ne_nextId (hb : e.Books issued released) (hmem : h ∈ issued) : h.id ≠ e.nextId := by
  intro hid
  have hnum : h.id.toNat ∈ List.range' 1 issued.length := by
    rw [← hb.numbered]
    exact List.mem_map_of_mem hmem
  have hlt := (List.mem_range'_1.mp hnum).2
  rw [hid, hb.nextId] at hlt
  omega

theorem Books.isTerminal_settled (hb : e.Books issued released) (h : Handle) :
    (e.settled h).isTerminal = true := by
  rw [settled]
  split
  · rename_i t hlast
    split
    · exact hb.last_phase t hlast
    · rfl
  · rfl

/-- Only the live session can report that it takes data. -/
theorem Books.live_of_takesData (hb : e.Books issued released)
    (htakes : (e.phaseOf h).takesData = true) : ∃ s, e.live? h = some s := by
  cases hlive : e.live? h with
  | some s => exact ⟨s, rfl⟩
  | none =>
    rw [phaseOf_of_not_live hlive] at htakes
    exact absurd htakes (Phase.not_takesData_of_isTerminal (hb.isTerminal_settled h))

/-- No session reports that it is yet to be started, or that it is being checked. -/
theorem Books.phases (hb : e.Books issued released) (h : Handle) :
    e.phaseOf h ∈ [Phase.started, .writing, .complete, .failed] := by
  cases hlive : e.live? h with
  | some s =>
    rw [phaseOf_of_live hlive]
    obtain htakes | hfailed := hb.live_phase s (live?_eq_some_iff.mp hlive).1
    · exact Phase.mem_of_takesData htakes
    · rw [hfailed]
      decide
  | none =>
    rw [phaseOf_of_not_live hlive]
    exact Phase.mem_of_isTerminal (hb.isTerminal_settled h)

theorem toNat_idAfter {id : UInt32} (h : id.toNat + 1 < UInt32.size) :
    (idAfter id).toNat = id.toNat + 1 := by
  have hsum : (id + 1).toNat = id.toNat + 1 := by
    rw [UInt32.toNat_add]
    exact Nat.mod_eq_of_lt h
  have hne : id + 1 ≠ 0 := by
    intro hzero
    rw [hzero] at hsum
    exact nomatch hsum
  rw [idAfter, if_neg hne, hsum]

/-- The ledger where the sessions rest. -/
theorem Books.of_rests (hb : e.Books issued released) (hsame : e.Rests e') :
    e'.Books issued released where
  numbered := hb.numbered
  nextId := by rw [hsame.nextId, hb.nextId]
  live := by rw [hsame.active]; exact hb.live
  last := by rw [hsame.last]; exact hb.last
  live_phase := by rw [hsame.active]; exact hb.live_phase
  last_phase := by rw [hsame.last]; exact hb.last_phase

/-- The ledger where a session is opened under the next number. -/
theorem Books.of_opens (hb : e.Books issued released) (hidle : e.active = none)
    (hactive : e'.active = some s) (hid : s.id = e.nextId) (hphase : s.phase = .started)
    (hlast : e'.last = e.last) (hnext : e'.nextId = idAfter e.nextId)
    (hfew : issued.length + 1 < UInt32.size - 1) : e'.Books (issued ++ [s.handle]) released := by
  have hall := hb.live
  rw [hidle, Option.map_none, Option.toList_none, List.append_nil] at hall
  have hnumber : s.handle.id.toNat = 1 + issued.length := by
    rw [Session.handle, hid, hb.nextId, Nat.add_comm]
  refine ⟨?_, ?_, ?_, by rw [hlast]; exact hb.last, ?_, by rw [hlast]; exact hb.last_phase⟩
  · rw [List.map_append, hb.numbered, List.map_singleton, hnumber, List.length_append,
      List.length_singleton, List.range'_1_concat]
  · rw [hnext, toNat_idAfter (by rw [hb.nextId]; omega), hb.nextId, List.length_append,
      List.length_singleton]
  · rw [hactive, hall]
    rfl
  · intro t ht
    obtain rfl := Option.some.inj (hactive.symm.trans ht)
    rw [hphase]
    exact .inl rfl

/-- The ledger where the live session takes in data, or fails in it. -/
theorem Books.of_takes {s' : Session} (hb : e.Books issued released) (hlive : e.active = some s)
    (hactive : e'.active = some s') (hid : s'.id = s.id)
    (hphase : s'.phase = .writing ∨ s'.phase = .failed) (hlast : e'.last = e.last)
    (hnext : e'.nextId = e.nextId) : e'.Books issued released := by
  have hhandle : s'.handle = s.handle := congrArg Handle.mk hid
  refine ⟨hb.numbered, by rw [hnext, hb.nextId], ?_, by rw [hlast]; exact hb.last, ?_,
    by rw [hlast]; exact hb.last_phase⟩
  · rw [hactive, Option.map_some, hhandle, ← Option.map_some, ← hlive]
    exact hb.live
  · intro t ht
    obtain rfl := Option.some.inj (hactive.symm.trans ht)
    rcases hphase with hwriting | hfailed
    · rw [hwriting]
      exact .inl rfl
    · exact .inr hfailed

/-- The ledger where the live session is released. -/
theorem Books.of_ends {phase : Phase} (hb : e.Books issued released) (hlive : e.active = some s)
    (hidle : e'.active = none) (hlast : e'.last = some { s with phase })
    (hphase : phase.isTerminal = true) (hnext : e'.nextId = e.nextId) :
    e'.Books issued (released ++ [s.handle]) := by
  have hall := hb.live
  rw [hlive, Option.map_some, Option.toList_some] at hall
  refine ⟨hb.numbered, by rw [hnext, hb.nextId], ?_, ?_, ?_, ?_⟩
  · rw [hidle, ← hall]
    exact (List.append_nil issued).symm
  · rw [hlast, List.getLast?_concat]
    rfl
  · intro t ht
    exact nomatch hidle.symm.trans ht
  · intro t ht
    obtain rfl := Option.some.inj (hlast.symm.trans ht)
    exact hphase

/-- Each call keeps the ledger, as long as the numbers last. -/
theorem Books.next (hb : e.Books issued released) (c : Call)
    (hfew : (issued ++ (e.issued? c).toList).length < UInt32.size - 1) :
    (e.next c).Books (issued ++ (e.issued? c).toList) (released ++ (e.released? c).toList) := by
  obtain ⟨hsame, hissued, hreleased⟩ |
    ⟨s, hidle, hactive, hid, hphase, hlast, hnext, hissued, hreleased⟩ |
    ⟨s, s', hlive, -, hactive, hid, hphase, hlast, hnext, hissued, hreleased⟩ |
    ⟨s, phase, hlive, hidle, hlast, hending, hnext, hissued, hreleased⟩ := e.turn c
  · rw [hissued, hreleased, Option.toList_none, List.append_nil, List.append_nil]
    exact hb.of_rests hsame
  · rw [hissued, Option.toList_some] at hfew ⊢
    rw [hreleased, Option.toList_none, List.append_nil]
    rw [List.length_append] at hfew
    exact hb.of_opens hidle hactive hid hphase hlast hnext hfew
  · rw [hissued, hreleased, Option.toList_none, List.append_nil, List.append_nil]
    exact hb.of_takes hlive hactive hid hphase hlast hnext
  · rw [hissued, hreleased, Option.toList_none, Option.toList_some, List.append_nil]
    refine hb.of_ends hlive hidle hlast ?_ hnext
    obtain rfl | ⟨rfl, -⟩ := hending
    · rfl
    · rfl

theorem Books.after (hb : e.Books issued released) {calls : List Call}
    (hfew : (issued ++ e.issued calls).length < UInt32.size - 1) :
    (e.after calls).Books (issued ++ e.issued calls) (released ++ e.released calls) := by
  induction calls generalizing e issued released with
  | nil =>
    rw [Engine.issued, Engine.released, List.append_nil, List.append_nil]
    exact hb
  | cons c calls ih =>
    rw [Engine.issued, ← List.append_assoc] at hfew
    rw [Engine.issued, Engine.released, ← List.append_assoc, ← List.append_assoc, after_cons]
    refine ih (hb.next c ?_) hfew
    rw [List.length_append] at hfew
    omega

/-- The ledger after a history that began with a new engine. -/
theorem books_after (hfresh : e.Fresh) {calls : List Call}
    (hfew : (e.issued calls).length < UInt32.size - 1) :
    (e.after calls).Books (e.issued calls) (e.released calls) :=
  (books_of_fresh hfresh).after hfew

end Engine

end BootSlots
