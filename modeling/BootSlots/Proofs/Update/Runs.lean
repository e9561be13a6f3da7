import BootSlots.Proofs.Update.Live

/-
  What a history does to a session. A session takes in the data of its accepted writes and nothing else, and
  every operation on the flash keeps to its region or to the record's sector, whatever faults are switched
  and whatever calls are refused on the way.

  Proved:
  * `run_preserves`: the induction over a history, for any invariant that knows the data taken in.
  * `feeds_run`: a session that is not ended keeps to its region.
  * `uploads_run`: where every write is accepted or refused, the session does not fail.
  * `solo_run`: until another session is opened, only the region and the record's sector are touched.
-/

namespace BootSlots.Engine

/-! ## Histories -/

/-- `P` holds of each call of a history, at the engine that it comes to. -/
def Throughout (P : Engine → Call → Prop) : Engine → List Call → Prop
  | _, [] => True
  | e, c :: calls => P e c ∧ Throughout P (e.next c) calls

/-- The data that a call hands in and the engine takes in. -/
def taken (e : Engine) : Call → List UInt8
  | .write h data =>
    match (e.write h data).1 with
    | .ok _ => data
    | .error _ => []
  | _ => []

/-- All data that are taken in over a history, in order. -/
def accepted (e : Engine) : List Call → List UInt8
  | [] => []
  | c :: calls => e.taken c ++ (e.next c).accepted calls

/-- What each call keeps, and what its operations keep to, a whole history does. -/
theorem run_preserves {P : Engine → Call → Prop} {I : Engine → List UInt8 → Prop}
    {Q : FlashOp → Prop}
    (step : ∀ e d c, I e d → P e c →
      I (e.next c) (d ++ e.taken c) ∧ e.store.flash.Reaches Q (e.next c).store.flash)
    {e : Engine} {d : List UInt8} {calls : List Call} (h : I e d) (hrun : Throughout P e calls) :
    I (e.after calls) (d ++ e.accepted calls) ∧
      e.store.flash.Reaches Q (e.after calls).store.flash := by
  induction calls generalizing e d with
  | nil =>
    refine ⟨?_, .refl _ _⟩
    rw [after_nil, accepted, List.append_nil]
    exact h
  | cons c calls ih =>
    obtain ⟨hc, hrest⟩ := hrun
    obtain ⟨hnext, hreach⟩ := step e d c h hc
    obtain ⟨hend, hreach'⟩ := ih hnext hrest
    refine ⟨?_, hreach.trans hreach'⟩
    rw [after_cons, accepted, ← List.append_assoc]
    exact hend

variable {e e' : Engine} {s : Session} {d : List UInt8}

theorem taken_eq_nil_of_refuses {c : Call} (h : e.Refuses c) : e.taken c = [] := by
  cases c with
  | write handle data =>
    rw [Refuses] at h
    rw [taken, h]
  | _ => rfl

/-- A write is refused, taken in, or it fails the session. -/
theorem Live.write (h : e.Live s d) (handle : Handle) (data : List UInt8) :
    ∃ s' ops, s.Continues s' ∧ (e.write handle data).2.active = some s' ∧
      (e.write handle data).2.store.flash = e.store.flash.performAll ops ∧
      (∀ op ∈ ops, op.Within s.start s.limit) ∧
      ((e.write handle data).2.Live s' (d ++ e.taken (.write handle data)) ∨
        (∃ fault, fault ≠ .invalidArgs ∧ (e.write handle data).1 = .error fault) ∧
          s'.phase = .failed) := by
  obtain ⟨hres, hq⟩ | ⟨s', hlive, -, hdata, -, -, hfits, htake⟩ := e.write_cases handle data
  · refine ⟨s, [], .refl s, (active_of_quiet_eq hq).trans h.active, flash_of_quiet_eq hq, nofun, .inl ?_⟩
    rw [taken, hres, List.append_nil]
    exact h.of_quiet hq
  · obtain ⟨hactive, -⟩ := live?_eq_some_iff.mp hlive
    obtain rfl := Option.some.inj (h.active.symm.trans hactive)
    obtain ⟨s', ops, hcont, hactive', hflash, hops, hres, -⟩ := h.take hdata hfits
    rw [taken, htake]
    refine ⟨s', ops, hcont, hactive', hflash, hops, ?_⟩
    rcases hres with ⟨hok, hlive'⟩ | ⟨⟨fault, hfault⟩, hphase⟩
    · rw [hok]
      exact .inl hlive'
    · exact .inr ⟨⟨fault, take_fault hfault, hfault⟩, hphase⟩

/-! ## Sessions that are served, or have failed -/

/-- A live session is the one opened as `s₀`; it has failed, or it has taken in the stream `d`. -/
def Serves (e : Engine) (s₀ : Session) (d : List UInt8) : Prop :=
  ∀ s, e.active = some s → s₀.Continues s ∧ (s.phase = .failed ∨ e.Live s d)

variable {s₀ : Session}

theorem Live.serves (h : e.Live s d) : e.Serves s d := by
  intro s' hactive
  obtain rfl := Option.some.inj (h.active.symm.trans hactive)
  exact ⟨.refl _, .inr h⟩

theorem serves_of_idle (h : e.active = none) : e.Serves s₀ d :=
  fun _ hactive => nomatch h.symm.trans hactive

theorem Serves.congr (h : e.Serves s₀ d) (hactive : e'.active = e.active)
    (harena : e'.arena = e.arena)
    (hcells : ∀ x, firstImageAddress ≤ x → e'.store.flash.cells[x]? = e.store.flash.cells[x]?) :
    e'.Serves s₀ d := by
  intro s hs
  obtain ⟨hcont, hstate⟩ := h s (hactive.symm.trans hs)
  exact ⟨hcont, hstate.imp_right fun hlive => hlive.congr hactive harena hcells⟩

theorem Serves.of_quiet (h : e.Serves s₀ d) (hq : e'.quiet = e.quiet) : e'.Serves s₀ d :=
  h.congr (active_of_quiet_eq hq) (arena_of_quiet_eq hq) fun x _ => by rw [flash_of_quiet_eq hq]

/-- A call without data leaves the stream as it was. -/
theorem Serves.of_taken_nil (h : e'.Serves s₀ d) {c : Call} (htaken : e.taken c = []) :
    e'.Serves s₀ (d ++ e.taken c) := by
  rw [htaken, List.append_nil]
  exact h

theorem reaches_of_quiet {Q : FlashOp → Prop} (hq : e'.quiet = e.quiet) :
    e.store.flash.Reaches Q e'.store.flash := by
  rw [flash_of_quiet_eq hq]
  exact .refl _ _

theorem reaches_setFaults (e : Engine) (faults : FlashFaults) (Q : FlashOp → Prop) :
    e.store.flash.Reaches Q (e.setFaults faults).store.flash :=
  ⟨[], ⟨rfl, (List.append_nil _).symm, rfl⟩, nofun⟩

theorem Serves.write (h : e.Serves s₀ d) (handle : Handle) (data : List UInt8) :
    (e.write handle data).2.Serves s₀ (d ++ e.taken (.write handle data)) ∧
      e.store.flash.Reaches (·.Within s₀.start s₀.limit) (e.write handle data).2.store.flash := by
  obtain ⟨hres, hq⟩ | ⟨s, hlive, htakes, -⟩ := e.write_cases handle data
  · rw [taken, hres, List.append_nil]
    exact ⟨h.of_quiet hq, reaches_of_quiet hq⟩
  · obtain ⟨hcont, hfailed | hlive'⟩ := h s (live?_eq_some_iff.mp hlive).1
    · rw [hfailed] at htakes
      exact nomatch htakes
    · obtain ⟨s', ops, hcont', hactive, hflash, hops, hstate⟩ := hlive'.write handle data
      refine ⟨?_, ?_⟩
      · intro s'' hactive''
        obtain rfl := Option.some.inj (hactive.symm.trans hactive'')
        refine ⟨hcont.trans hcont', ?_⟩
        rcases hstate with hlive'' | ⟨-, hphase⟩
        · exact .inr hlive''
        · exact .inl hphase
      · rw [hflash]
        refine Flash.reaches_performAll _ fun op hop => ?_
        rw [← hcont.start, ← hcont.limit]
        exact hops op hop

/-- The call does not end the session: it writes, asks for something, switches faults, or is refused. -/
def Feeds (e : Engine) : Call → Prop
  | .write _ _ | .status _ | .currentSlot | .setFaults _ => True
  | c => e.Refuses c

theorem Serves.next_of_feeds (h : e.Serves s₀ d) {c : Call} (hc : e.Feeds c) :
    (e.next c).Serves s₀ (d ++ e.taken c) ∧
      e.store.flash.Reaches (·.Within s₀.start s₀.limit) (e.next c).store.flash := by
  have hrefused : e.Refuses c → (e.next c).Serves s₀ (d ++ e.taken c) ∧
      e.store.flash.Reaches (·.Within s₀.start s₀.limit) (e.next c).store.flash := by
    intro hr
    have hq := quiet_next_of_refuses hr
    exact ⟨(h.of_quiet hq).of_taken_nil (taken_eq_nil_of_refuses hr), reaches_of_quiet hq⟩
  cases c with
  | write handle data => exact h.write handle data
  | status handle => exact ⟨h.of_taken_nil rfl, .refl _ _⟩
  | currentSlot =>
    exact ⟨(h.of_quiet e.quiet_currentSlot).of_taken_nil rfl, reaches_of_quiet e.quiet_currentSlot⟩
  | setFaults faults =>
    have hserves : (e.setFaults faults).Serves s₀ d := h.congr rfl rfl fun _ _ => rfl
    exact ⟨hserves.of_taken_nil rfl, e.reaches_setFaults faults _⟩
  | start | finish | cancel | selectSlot => exact hrefused hc

/-- A session that is not ended keeps to its region, whatever fails. -/
theorem feeds_run {calls : List Call} (h : e.Live s []) (hrun : Throughout Feeds e calls) :
    (e.after calls).Serves s (e.accepted calls) ∧
      e.store.flash.Reaches (·.Within s.start s.limit) (e.after calls).store.flash := by
  have hstep : ∀ (e : Engine) (d : List UInt8) (c : Call), e.Serves s d → e.Feeds c →
      (e.next c).Serves s (d ++ e.taken c) ∧
        e.store.flash.Reaches (·.Within s.start s.limit) (e.next c).store.flash :=
    fun _ _ _ hserves hc => hserves.next_of_feeds hc
  exact run_preserves hstep h.serves hrun

/-! ## Uploads -/

/-- The call takes in data, asks for something, or is refused. -/
def Uploads (e : Engine) : Call → Prop
  | .write h data => (e.write h data).1 = .ok () ∨ e.Refuses (.write h data)
  | .status _ | .currentSlot => True
  | c => e.Refuses c

theorem Live.next_of_uploads (h : e.Live s d) {c : Call} (hc : e.Uploads c) :
    ∃ s' ops, s.Continues s' ∧ (e.next c).Live s' (d ++ e.taken c) ∧
      (e.next c).store.flash = e.store.flash.performAll ops ∧
      ∀ op ∈ ops, op.Within s.start s.limit := by
  have hquiet : e.taken c = [] → (e.next c).quiet = e.quiet → ∃ s' ops, s.Continues s' ∧
      (e.next c).Live s' (d ++ e.taken c) ∧
      (e.next c).store.flash = e.store.flash.performAll ops ∧
      ∀ op ∈ ops, op.Within s.start s.limit := by
    intro htaken hq
    rw [htaken, List.append_nil]
    exact ⟨s, [], .refl s, h.of_quiet hq, flash_of_quiet_eq hq, nofun⟩
  have hrefused (hr : e.Refuses c) := hquiet (taken_eq_nil_of_refuses hr) (quiet_next_of_refuses hr)
  cases c with
  | write handle data =>
    rcases hc with hok | hr
    · obtain ⟨s', ops, hcont, -, hflash, hops, hlive | ⟨⟨fault, -, hfault⟩, -⟩⟩ := h.write handle data
      · exact ⟨s', ops, hcont, hlive, hflash, hops⟩
      · exact nomatch hok.symm.trans hfault
    · exact hrefused hr
  | status handle => exact hquiet rfl rfl
  | currentSlot => exact hquiet rfl e.quiet_currentSlot
  | start | finish | cancel | selectSlot | setFaults => exact hrefused hc

/-- Where every write is taken in or refused, the session stays live and keeps to its region. -/
theorem uploads_run {calls : List Call} (h : e.Live s []) (hrun : Throughout Uploads e calls) :
    ∃ s', s.Continues s' ∧ (e.after calls).Live s' (e.accepted calls) ∧
      (e.after calls).store.flash.faults = e.store.flash.faults ∧
      e.store.flash.Reaches (·.Within s.start s.limit) (e.after calls).store.flash := by
  have hstep : ∀ (e₁ : Engine) (d : List UInt8) (c : Call),
      ((∃ s', s.Continues s' ∧ e₁.Live s' d) ∧ e₁.store.flash.faults = e.store.flash.faults) →
      e₁.Uploads c →
      ((∃ s', s.Continues s' ∧ (e₁.next c).Live s' (d ++ e₁.taken c)) ∧
          (e₁.next c).store.flash.faults = e.store.flash.faults) ∧
        e₁.store.flash.Reaches (·.Within s.start s.limit) (e₁.next c).store.flash := by
    rintro e₁ d c ⟨⟨s₁, hcont, hlive⟩, hfaults⟩ hc
    obtain ⟨s₂, ops, hcont', hlive', hflash, hops⟩ := hlive.next_of_uploads hc
    refine ⟨⟨⟨s₂, hcont.trans hcont', hlive'⟩, ?_⟩, ?_⟩
    · rw [hflash, Flash.faults_performAll, hfaults]
    · rw [hflash]
      refine Flash.reaches_performAll _ fun op hop => ?_
      rw [← hcont.start, ← hcont.limit]
      exact hops op hop
  obtain ⟨⟨⟨s', hcont, hlive⟩, hfaults⟩, hreach⟩ :=
    run_preserves hstep ⟨⟨s, .refl s, h⟩, rfl⟩ hrun
  exact ⟨s', hcont, hlive, hfaults, hreach⟩

/-! ## Runs with one session -/

/-- The call opens a session. -/
def Opens (e : Engine) : Call → Prop
  | .start slot declared => ∃ h, (e.start slot declared).1 = .ok h
  | _ => False

/-- No call of the history opens a session. -/
def Solo (e : Engine) (calls : List Call) : Prop :=
  e.Throughout (fun e c => ¬ e.Opens c) calls

/-- The operation keeps to the session's region or to the record's sector. -/
def Admits (s : Session) (op : FlashOp) : Prop :=
  op.Within s.start s.limit ∨ op.Within recordAddress firstImageAddress

theorem Live.reaches_conclude (h : e.Live s d) :
    e.store.flash.Reaches (Admits s) (e.conclude s).2.store.flash := by
  obtain ⟨image, himage, -, ⟨-, hflash, -⟩ | ⟨-, -, store, hstore, hflash, -⟩⟩ := h.conclude
  · rw [hflash]
    exact Flash.reaches_performAll _ fun op hop => .inl (himage op hop)
  · rw [hflash]
    have hrecord := (store.reaches_selectSlot s.slot).mono fun op hop => (.inr hop : Admits s op)
    rw [hstore] at hrecord
    exact (Flash.reaches_performAll _ fun op hop => .inl (himage op hop)).trans hrecord

theorem Serves.finish (h : e.Serves s₀ d) (handle : Handle) :
    (e.finish handle).2.Serves s₀ d ∧
      e.store.flash.Reaches (Admits s₀) (e.finish handle).2.store.flash := by
  obtain ⟨-, heq⟩ | ⟨s, hlive, hphase⟩ := e.finish_cases handle
  · rw [heq]
    exact ⟨h, .refl _ _⟩
  · obtain ⟨-, phase, heq, -⟩ := finish_of_writing hlive hphase
    rw [heq]
    refine ⟨serves_of_idle rfl, ?_⟩
    obtain ⟨hcont, hfailed | hlive'⟩ := h s (live?_eq_some_iff.mp hlive).1
    · exact nomatch hphase.symm.trans hfailed
    · have hadmits : Admits s = Admits s₀ := by
        funext op
        rw [Admits, Admits, hcont.start, hcont.limit]
      rw [← hadmits]
      exact hlive'.reaches_conclude

theorem Serves.next_of_not_opens (h : e.Serves s₀ d) {c : Call} (hc : ¬ e.Opens c) :
    (e.next c).Serves s₀ (d ++ e.taken c) ∧
      e.store.flash.Reaches (Admits s₀) (e.next c).store.flash := by
  have hfeeds : e.Feeds c → (e.next c).Serves s₀ (d ++ e.taken c) ∧
      e.store.flash.Reaches (Admits s₀) (e.next c).store.flash := by
    intro hf
    obtain ⟨hserves, hreach⟩ := h.next_of_feeds hf
    exact ⟨hserves, hreach.mono fun _ hop => .inl hop⟩
  cases c with
  | start slot declared =>
    apply hfeeds
    cases hres : (e.start slot declared).1 with
    | ok handle => exact absurd ⟨handle, hres⟩ hc
    | error fault => exact ⟨fault, hres⟩
  | finish handle =>
    obtain ⟨hserves, hreach⟩ := h.finish handle
    exact ⟨hserves.of_taken_nil rfl, hreach⟩
  | cancel handle =>
    cases hlive : e.live? handle with
    | none => exact hfeeds hlive
    | some s =>
      rw [next, cancel, hlive]
      exact ⟨serves_of_idle rfl, .refl _ _⟩
  | selectSlot slot =>
    have hreach := e.store.reaches_selectSlot slot
    have hserves : (e.selectSlot slot).2.Serves s₀ d := h.congr rfl rfl fun x hx =>
      hreach.getElem?_cells fun op hop => hop.not_covers_of_ge (by decide) hx
    exact ⟨hserves.of_taken_nil rfl, hreach.mono fun _ hop => .inr hop⟩
  | write | status | currentSlot | setFaults => exact hfeeds trivial

/-- Over a history with one session, only its region and the record's sector are touched. -/
theorem solo_run {calls : List Call} (h : e.Live s []) (hrun : e.Solo calls) :
    (e.after calls).Serves s (e.accepted calls) ∧
      e.store.flash.Reaches (Admits s) (e.after calls).store.flash := by
  have hstep : ∀ (e : Engine) (d : List UInt8) (c : Call), e.Serves s d → ¬ e.Opens c →
      (e.next c).Serves s (d ++ e.taken c) ∧
        e.store.flash.Reaches (Admits s) (e.next c).store.flash :=
    fun _ _ _ hserves hc => hserves.next_of_not_opens hc
  exact run_preserves hstep h.serves hrun

/-! ## Whole sessions -/

/-- A whole session: a start, the calls of a history, and an end. -/
def runSession (e : Engine) (slot : UInt8) (declared : Nat) (calls : List Call) :
    Except UpdateFault Unit × Engine :=
  ((e.start slot declared).2.after calls).finish ⟨e.nextId⟩

/-- What a whole session takes in. -/
def sessionData (e : Engine) (slot : UInt8) (declared : Nat) (calls : List Call) : List UInt8 :=
  (e.start slot declared).2.accepted calls

/-! ## Provisioned devices -/

/-- Size of a provisioned flash. -/
def provisionedSize : Nat := 16 * sectorSize

/-- A flash on which nothing but the record was stored. -/
def provisionedFlash (r : Record) : Flash :=
  Flash.performAll
    { cells := Array.replicate (provisionedSize) erased
      size_mod := by simp [provisionedSize]
      size_lt := by simp [provisionedSize]; decide } r.saveOps

/-- An idle engine on a provisioned flash, with an arena of one sector. -/
def provisioned (r : Record) : Engine where
  store := { flash := provisionedFlash r }
  arena := Array.replicate sectorSize 0

theorem nextId_provisioned (r : Record) : (provisioned r).nextId = 1 := rfl

theorem faults_provisioned (r : Record) : (provisioned r).store.flash.faults = {} :=
  Flash.faults_performAll _ _

theorem claimed_provisioned (r : Record) : (provisioned r).store.flash.claimed = none :=
  Flash.claimed_performAll _ _

theorem size_provisioned (r : Record) :
    (provisioned r).store.flash.cells.size = provisionedSize := by
  rw [provisioned, provisionedFlash, Flash.cells_performAll, Memory.size_replay, Array.size_replicate]

theorem capacity_provisioned (r : Record) :
    (provisioned r).store.flash.capacity = provisionedSize := by
  rw [provisioned, provisionedFlash, Flash.capacity_performAll, Flash.capacity, Array.size_replicate]

theorem getElem?_provisioned {r : Record} {x : Nat} (hx : firstImageAddress ≤ x)
    (hx' : x < provisionedSize) : (provisioned r).store.flash.cells[x]? = some erased := by
  rw [provisioned, provisionedFlash, Flash.cells_performAll, Memory.getElem?_replay_of_not_covers
    fun op hop => (Record.within_of_mem_saveOps hop).not_covers_of_ge (by decide) hx]
  rw [Array.getElem?_replicate, if_pos hx']

theorem load_provisioned {r : Record} (hm : r.magic = recordMagic) (hv : r.version = recordVersion)
    (hvalid : r.validate (provisionedSize) = .ok ()) : (provisioned r).store.load = .ok r := by
  refine Flash.loadRecord_performAll_saveOps hm hv ?_ ?_ rfl
  · rw [Flash.capacity, Array.size_replicate]
    exact hvalid
  · rw [Array.size_replicate]
    decide

/-- The second slot lies elsewhere than in the factory record. -/
def movedRecord : Record :=
  { Record.factory provisionedSize with
    addresses := #v[UInt32.ofNat firstImageAddress, UInt32.ofNat (4 * sectorSize), 0, 0] }

theorem load_provisioned_factory :
    (provisioned (.factory provisionedSize)).store.load = .ok (.factory provisionedSize) :=
  load_provisioned rfl rfl ((Record.validate_eq_ok_iff _ _).mpr (by decide))

theorem arenaUsable_provisioned (r : Record) : (provisioned r).arenaUsable = true := by
  rw [arenaUsable, provisioned, Array.size_replicate]
  rfl

end BootSlots.Engine
