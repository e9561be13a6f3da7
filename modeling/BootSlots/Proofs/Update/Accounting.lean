import BootSlots.Proofs.Image.Fills
import BootSlots.Proofs.Update.Sessions

/-
  What a live session has on its books. Two counters run beside each other, that of the session and that of
  its writer, over an arena that is used again and again; at any time in a history, whatever failed before,
  they say what was taken in, which part of it is on the flash and which part is still in the arena.

  Proved:
  * `Tracks.write`: a write keeps the books, or fails the session.
  * `Tracked.next`, `Tracked.after`: each call does, so a history does.
  * `session_accounts`: the books of a session that still takes data.

  A session that has failed keeps no such books: its writer may have taken in a part of the last data.
-/

namespace BootSlots.Engine

variable {e e' : Engine} {s : Session} {d : List UInt8}

/-! ## Data of the latest session -/

/-- What the latest session has taken in after a call, where it was `d` before. -/
def gathered (e : Engine) (d : List UInt8) (c : Call) : List UInt8 :=
  match e.opened? c with
  | some _ => []
  | none => d ++ e.taken c

/-- What the latest session has taken in after a history, where it was `d` before. -/
def intake (e : Engine) (d : List UInt8) : List Call → List UInt8
  | [] => d
  | c :: calls => (e.next c).intake (e.gathered d c) calls

theorem gathered_of_opens {c : Call} (hopens : e.opened? c = some s) (d : List UInt8) :
    e.gathered d c = [] := by
  rw [gathered, hopens]

theorem gathered_of_not_opens {c : Call} (hopens : e.opened? c = none) (d : List UInt8) :
    e.gathered d c = d ++ e.taken c := by
  rw [gathered, hopens]

theorem opened?_of_not_opens {c : Call} (hc : ¬ e.Opens c) : e.opened? c = none := by
  cases c with
  | start slot declared =>
    rw [opened?]
    split
    · rename_i handle hstart
      exact absurd ⟨handle, hstart⟩ hc
    · rfl
  | _ => rfl

/-- As long as no other session is opened, all data that are taken in are added. -/
theorem intake_of_solo {calls : List Call} (hrun : e.Solo calls) (d : List UInt8) :
    e.intake d calls = d ++ e.accepted calls := by
  induction calls generalizing e d with
  | nil => exact (List.append_nil d).symm
  | cons c calls ih =>
    obtain ⟨hc, hrest⟩ := hrun
    rw [intake, gathered_of_not_opens (opened?_of_not_opens hc), ih hrest, accepted, List.append_assoc]

theorem intake_append (d : List UInt8) (calls calls' : List Call) :
    e.intake d (calls ++ calls') = (e.after calls).intake (e.intake d calls) calls' := by
  induction calls generalizing e d with
  | nil => rfl
  | cons c calls ih => exact ih (e.gathered d c)

/-- What the latest session has taken in is what was taken in since it was opened. -/
theorem intake_of_opens {pre post : List Call} {c : Call} (hopens : (e.after pre).opened? c = some s)
    (hpost : ((e.after pre).next c).Solo post) (d : List UInt8) :
    e.intake d (pre ++ c :: post) = ((e.after pre).next c).accepted post := by
  rw [intake_append, intake, gathered_of_opens hopens, intake_of_solo hpost, List.nil_append]

/-- Without faults, an image that fits is taken in by the first write after the start. -/
theorem live_of_first_write {r : Record} {slot : UInt8} {a : Nat} {image : List UInt8}
    (hload : e.store.load = .ok r) (hidle : e.active = none) (harena : e.arenaUsable = true)
    (ha : r.address? slot = some a) (himage : image ≠ [])
    (hlimit : a + image.length ≤ r.limitOf e.store.flash.capacity a)
    (hfree : e.store.flash.Unhindered (a + image.length)) :
    ∃ s, (e.after [.start slot 0, .write ⟨e.nextId⟩ image]).Live s image ∧
      e.intake [] [.start slot 0, .write ⟨e.nextId⟩ image] = image := by
  have hstart := start_eq_ok hload ha hidle harena 0
  obtain ⟨a', ha', -, hflash, hlive⟩ := live_of_start hload hstart
  obtain rfl := Option.some.inj (ha.symm.trans ha')
  rw [← hflash] at hfree
  obtain ⟨hok, s, _, -, hlive', -⟩ := hlive.write_first ⟨e.nextId⟩ rfl himage rfl hlimit hfree
  have hopens : e.opened? (.start slot 0) = (e.start slot 0).2.active := by rw [opened?, hstart]
  refine ⟨s, hlive', ?_⟩
  rw [intake, gathered_of_opens (hopens.trans hlive.active), intake, gathered_of_not_opens rfl, intake,
    taken, next, hok]
  exact List.nil_append image

/-! ## The books of a session -/

/-- `e'` has the live session, the arena, the settings and the images of `e`. -/
structure Spares (e e' : Engine) : Prop where
  active : e'.active = e.active
  arena : e'.arena = e.arena
  settings : e'.settings = e.settings
  capacity : e'.store.flash.capacity = e.store.flash.capacity
  cells : ∀ x, firstImageAddress ≤ x → e'.store.flash.cells[x]? = e.store.flash.cells[x]?

theorem spares_of_quiet (hq : e'.quiet = e.quiet) : e.Spares e' where
  active := active_of_quiet_eq hq
  arena := arena_of_quiet_eq hq
  settings := congrArg (·.settings) hq
  capacity := congrArg Flash.capacity (flash_of_quiet_eq hq)
  cells x _ := by rw [flash_of_quiet_eq hq]

/-- The session `s` is live and takes data, with its books in order. -/
structure Tracks (e : Engine) (s : Session) (d : List UInt8) : Prop where
  live : e.Live s d
  whole : (e.writer s).Whole
  arena : e.arena.size % sectorSize = 0
  limit_le : s.limit ≤ e.store.flash.capacity
  limit_mod : e.store.flash.capacity % sectorSize = 0 → s.limit % sectorSize = 0
  declared : e.settings.enforceDeclaredSize = true → 0 < s.declared → d.length ≤ s.declared

theorem Tracks.of_spares (h : e.Tracks s d) (hsame : e.Spares e') : e'.Tracks s d where
  live := h.live.congr hsame.active hsame.arena hsame.cells
  whole := by rw [writer, hsame.arena]; exact h.whole
  arena := by rw [hsame.arena]; exact h.arena
  limit_le := by rw [hsame.capacity]; exact h.limit_le
  limit_mod := by rw [hsame.capacity]; exact h.limit_mod
  declared := by rw [hsame.settings]; exact h.declared

/-- A session is opened with empty books. -/
theorem tracks_of_opens {c : Call} (hopens : e.opened? c = some s) : (e.next c).Tracks s [] := by
  obtain ⟨hlive, r, hload, -, hlimit⟩ := opened?_eq_some hopens
  have hlayout := Flash.layoutOk_of_load hload
  cases c with
  | start slot declared =>
    obtain ⟨⟨fault, hfault⟩, -⟩ | ⟨_, _, -, -, harena, -, hq⟩ := e.start_cases slot declared
    · rw [opened?, hfault] at hopens
      cases hopens
    · have hsize : (e.next (.start slot declared)).arena.size = e.arena.size :=
        congrArg Array.size ((arena_of_quiet_eq hq).trans rfl)
      have hcapacity : (e.next (.start slot declared)).store.flash.capacity =
          e.store.flash.capacity := congrArg Flash.capacity ((flash_of_quiet_eq hq).trans rfl)
      have hflushed : s.cursor.flushed = 0 := by
        have htotal : s.cursor.flushed + s.cursor.pending = 0 := hlive.stream.total
        omega
      refine ⟨hlive, ?_, ?_, ?_, ?_, fun _ _ => Nat.zero_le _⟩
      · show s.cursor.flushed % _ = 0
        rw [hflushed, Nat.zero_mod]
      · simp only [arenaUsable, Bool.and_eq_true, decide_eq_true_eq] at harena
        rw [hsize]
        exact harena.2
      · rw [hcapacity, ← hlimit]
        exact r.limitOf_le_flashSize _ _
      · rw [hcapacity, ← hlimit]
        exact fun hmod => Record.limitOf_mod hlayout hmod _
  | _ => cases hopens

/-- A write keeps the books, or fails the session. -/
theorem Tracks.write (h : e.Tracks s d) (handle : Handle) (data : List UInt8) :
    ∃ s', (e.write handle data).2.active = some s' ∧
      (s'.phase = .failed ∨
        (e.write handle data).2.Tracks s' (d ++ e.taken (.write handle data))) := by
  obtain ⟨hres, hq⟩ | ⟨s₀, hlive₀, -, hdata, -, hdeclared, hfits, htake⟩ := e.write_cases handle data
  · have hsame := h.of_spares (spares_of_quiet hq)
    refine ⟨s, hsame.live.active, .inr ?_⟩
    rw [taken, hres, List.append_nil]
    exact hsame
  · obtain rfl := Option.some.inj (h.live.active.symm.trans (live?_eq_some_iff.mp hlive₀).1)
    obtain ⟨s', ops, hcont, hactive, hflash, -, ⟨hok, hlive⟩ | ⟨-, hfailed⟩, -⟩ :=
      h.live.take hdata hfits
    · rw [taken, htake, hok]
      refine ⟨s', hactive, .inr ?_⟩
      have hroom := Nat.lt_of_le_of_lt (Nat.zero_le _) h.live.room
      obtain ⟨-, -, -, -, hleads, -, -⟩ := h.live.stream.push hroom data
      obtain ⟨hpush, -, hq⟩ | ⟨⟨_, -, hfault⟩, -⟩ := e.take_cases s data (s.accepted + data.length)
      · -- arena and cursor are those that the push left
        have harena := arena_of_quiet_eq hq
        obtain rfl := Option.some.inj (hactive.symm.trans (active_of_quiet_eq hq))
        have hwhole := h.live.stream.whole_push hroom h.whole hpush
        have hcapacity := (congrArg Flash.capacity hflash).trans (Flash.capacity_performAll _ ops)
        refine ⟨hlive, ?_, ?_, ?_, ?_, ?_⟩
        · rw [writer, harena]
          exact hwhole
        · rw [harena]
          exact (congrArg (· % sectorSize) hleads.room).trans h.arena
        · rw [hcapacity]
          exact h.limit_le
        · rw [hcapacity]
          exact h.limit_mod
        · intro henforce hpos
          have hsettings : (e.take s data (s.accepted + data.length)).2.settings = e.settings :=
            congrArg (·.settings) hq
          rw [hsettings] at henforce
          rw [List.length_append, ← h.live.accepted]
          exact Nat.not_lt.mp fun hlt => hdeclared ⟨henforce, hpos, hlt⟩
      · cases hok.symm.trans hfault
    · rw [htake]
      exact ⟨s', hactive, .inl hfailed⟩

/-! ## The books over a history -/

/-- The live session, if any, has failed or has its books in order. -/
def Tracked (e : Engine) (d : List UInt8) : Prop :=
  ∀ s, e.active = some s → s.phase = .failed ∨ e.Tracks s d

theorem tracked_of_idle (hidle : e.active = none) (d : List UInt8) : e.Tracked d :=
  fun _ hactive => nomatch hidle.symm.trans hactive

theorem Tracked.of_spares (h : e.Tracked d) (hsame : e.Spares e') : e'.Tracked d :=
  fun s hs => (h s (hsame.active.symm.trans hs)).imp_right fun ht => ht.of_spares hsame

theorem Tracked.of_quiet (h : e.Tracked d) (hq : e'.quiet = e.quiet) : e'.Tracked d :=
  h.of_spares (spares_of_quiet hq)

/-- A call without data leaves the books as they were. -/
theorem Tracked.of_taken_nil (h : e'.Tracked d) {c : Call} (htaken : e.taken c = []) :
    e'.Tracked (d ++ e.taken c) := by
  rw [htaken, List.append_nil]
  exact h

theorem Tracked.write (h : e.Tracked d) (handle : Handle) (data : List UInt8) :
    (e.write handle data).2.Tracked (d ++ e.taken (.write handle data)) := by
  obtain ⟨hres, hq⟩ | ⟨s, hlive, htakes, -⟩ := e.write_cases handle data
  · rw [taken, hres, List.append_nil]
    exact h.of_quiet hq
  · obtain hfailed | htracks := h s (live?_eq_some_iff.mp hlive).1
    · rw [hfailed] at htakes
      cases htakes
    · obtain ⟨s', hactive, hstate⟩ := htracks.write handle data
      intro s'' hactive''
      obtain rfl := Option.some.inj (hactive.symm.trans hactive'')
      exact hstate

/-- Each call keeps the books. -/
theorem Tracked.next (h : e.Tracked d) (c : Call) : (e.next c).Tracked (e.gathered d c) := by
  cases hopens : e.opened? c with
  | some s₀ =>
    rw [gathered_of_opens hopens]
    have htracks := tracks_of_opens hopens
    intro s hs
    obtain rfl := Option.some.inj (htracks.live.active.symm.trans hs)
    exact .inr htracks
  | none =>
    rw [gathered_of_not_opens hopens]
    cases c with
    | start slot declared =>
      obtain ⟨-, hq⟩ | ⟨_, _, -, -, -, hok, -⟩ := e.start_cases slot declared
      · exact (h.of_quiet hq).of_taken_nil rfl
      · exact absurd ⟨_, hok⟩ (not_opens hopens)
    | write handle data => exact h.write handle data
    | finish handle =>
      refine Tracked.of_taken_nil ?_ rfl
      obtain ⟨-, heq⟩ | ⟨s, hlive, hphase⟩ := e.finish_cases handle
      · rw [Engine.next, heq]
        exact h
      · obtain ⟨-, phase, heq, -⟩ := finish_of_writing hlive hphase
        rw [Engine.next, heq]
        exact tracked_of_idle rfl d
    | cancel handle =>
      refine Tracked.of_taken_nil ?_ rfl
      rw [Engine.next, cancel]
      cases e.live? handle with
      | none => exact h
      | some s => exact tracked_of_idle rfl d
    | status handle => exact h.of_taken_nil rfl
    | currentSlot => exact (h.of_quiet e.quiet_currentSlot).of_taken_nil rfl
    | selectSlot slot =>
      have hreach := e.store.reaches_selectSlot slot
      obtain ⟨_, hafter, -⟩ := id hreach
      have hsame : e.Spares (e.selectSlot slot).2 := ⟨rfl, rfl, rfl, hafter.capacity, fun x hx =>
        hreach.getElem?_cells fun op hop => hop.not_covers_of_ge (by decide) hx⟩
      exact (h.of_spares hsame).of_taken_nil rfl
    | setFaults faults =>
      have hsame : e.Spares (e.setFaults faults) := ⟨rfl, rfl, rfl, rfl, fun _ _ => rfl⟩
      exact (h.of_spares hsame).of_taken_nil rfl

/-- A history keeps the books. -/
theorem Tracked.after (h : e.Tracked d) (calls : List Call) :
    (e.after calls).Tracked (e.intake d calls) := by
  induction calls generalizing e d with
  | nil => exact h
  | cons c calls ih => exact ih (h.next c)

/-- What the books of a live session that takes data say, with `d` what it has taken in. -/
structure Accounts (e : Engine) (s : Session) (d : List UInt8) : Prop where
  accepted : s.accepted = d.length
  total : s.cursor.flushed + s.cursor.pending = d.length
  phase : s.phase = .started ↔ d = []
  room : s.cursor.pending < e.arena.size
  fills : s.cursor.flushed % e.arena.size = 0
  /-- The arena holds the last bytes. -/
  staged : e.arena.slice 0 s.cursor.pending = d.drop (d.length - s.cursor.pending)
  /-- The flash holds the first bytes. -/
  stored : e.store.flash.cells.slice s.start s.cursor.flushed = d.take s.cursor.flushed
  front : s.cursor.erasedEnd = s.start + s.cursor.flushed
  fits : s.start + d.length ≤ s.limit
  limit_le : s.limit ≤ e.store.flash.capacity
  start_mod : s.start % sectorSize = 0
  limit_mod : e.store.flash.capacity % sectorSize = 0 → s.limit % sectorSize = 0
  declared : e.settings.enforceDeclaredSize = true → 0 < s.declared → d.length ≤ s.declared

theorem Tracks.accounts (h : e.Tracks s d) : e.Accounts s d := by
  have htotal : s.cursor.flushed + s.cursor.pending = d.length := h.live.stream.total
  refine ⟨h.live.accepted, htotal, ?_, h.live.room, h.whole, ?_, h.live.stream.slice_flushed,
    h.live.stream.erasedEnd_eq h.live.tight h.whole h.arena, h.live.fits, h.limit_le,
    h.live.stream.laid.base_mod, h.limit_mod, h.declared⟩
  · rw [h.live.phase]
    constructor
    · intro hstarted
      by_cases hnil : d = []
      · exact hnil
      · rw [if_neg hnil] at hstarted
        exact nomatch hstarted
    · exact fun hnil => if_pos hnil
  · have hstaged : e.arena.slice 0 s.cursor.pending = d.drop s.cursor.flushed := h.live.stream.staged
    rw [hstaged, ← htotal, Nat.add_sub_cancel]

/-- At any time in a history, the books of a live session that has not failed are in order. -/
theorem session_accounts (hidle : e.active = none) {calls : List Call}
    (hactive : (e.after calls).active = some s) (htakes : s.phase.takesData = true) :
    (e.after calls).Accounts s (e.intake [] calls) := by
  obtain hfailed | htracks := (tracked_of_idle hidle []).after calls s hactive
  · rw [hfailed] at htakes
    exact nomatch htakes
  · exact htracks.accounts

/-- A session that has taken in one byte. -/
theorem session_accounts_first_byte :
    (provisioned (.factory provisionedSize)).active = none ∧
      ∃ s, ((provisioned (.factory provisionedSize)).after
          [.start 1 0, .write ⟨1⟩ [Image.magic]]).active = some s ∧
        s.phase.takesData = true ∧ s.accepted = 1 ∧ s.cursor.total = 1 ∧ s.phase ≠ .started := by
  have hsecond : (Record.factory provisionedSize).address? 1 = some (10 * sectorSize) := by decide
  have hfree : (provisioned (.factory provisionedSize)).store.flash.Unhindered
      (10 * sectorSize + [Image.magic].length) := by
    refine ⟨by rw [faults_provisioned], by rw [faults_provisioned], ?_⟩
    rw [size_provisioned]
    decide
  obtain ⟨s, hlive, hdata⟩ := live_of_first_write load_provisioned_factory rfl
    (arenaUsable_provisioned _) hsecond (List.cons_ne_nil Image.magic [])
    (by rw [capacity_provisioned]; decide) hfree
  rw [nextId_provisioned] at hlive hdata
  have haccounts := session_accounts rfl hlive.active hlive.takesData
  rw [hdata] at haccounts
  exact ⟨rfl, s, hlive.active, hlive.takesData, haccounts.accepted, haccounts.total,
    fun hstarted => nomatch haccounts.phase.mp hstarted⟩

end BootSlots.Engine
