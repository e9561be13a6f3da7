import BootSlots.Board
import BootSlots.Proofs.Update.Sessions

/-
  Histories of a whole board. Its components take turns on the same flash, in any order: the record store,
  the update engine, the factory reset and the start-up sequence. Faults may be switched and the board may be
  restarted in between.

  Proved:
  * `next_ops`, `run_ops`: all that a call does to the flash, whichever component it goes to, and from it all
    that a history does.
  * `follows_next`, `follows_after`: the live session is always one that the history opened.
-/

namespace BootSlots

/-! ## The components' saves -/

theorem FactoryReset.saves_prepare (r : FactoryReset) (store : Store) :
    store.flash.Saves (r.prepare store).2.2.flash := by
  rw [prepare_eq]
  dsimp only
  split <;> rename_i hsave
  · exact (Store.saves_of_save hsave :)
  · have hflash := Store.saves_of_save hsave
    split
    · exact hflash
    · exact hflash

theorem FactoryReset.saves_perform (r : FactoryReset) (store : Store) :
    store.flash.Saves (r.perform store).2.flash := by
  have hprepare := r.saves_prepare store
  unfold perform
  split <;> rename_i heq <;> rw [heq] at hprepare
  · exact hprepare
  · dsimp only
    split
    · exact hprepare
    · exact hprepare

theorem Startup.saves_boot (s : Startup) : s.store.flash.Saves s.boot.2.store.flash := by
  have hensure := s.store.saves_ensureValid (s.store.flash.bootSize s.layout.defaultFlashSize)
  unfold boot
  dsimp only
  split <;> rename_i heq <;> rw [heq] at hensure
  · exact hensure
  · rename_i repair store
    cases repair with
    | kept | defaults | selection => exact hensure

theorem Startup.saves_run (s : Startup) : s.store.flash.Saves s.run.2.store.flash := by
  unfold run
  dsimp only
  split
  · exact FactoryReset.saves_perform _ s.store
  · exact (s.signal .init).saves_boot

namespace Board

/-! ## Histories -/

/-- One call to a component of the board, or an event outside of them. -/
inductive Call where
  | saveRecord (r : Record)
  | selectSlot (slot : UInt8)
  | ensureValid (flashSize : Nat)
  | currentSlot
  /-- A call of the engine, or a switch of the flash's faults. -/
  | engine (c : Engine.Call)
  | requestReset (on : Bool)
  | prepareReset
  | performReset
  | startUp
  /-- Switches the failure of all accesses to the scratch memory. -/
  | failScratch (fail : Bool)
  | restart

/-- The board after one call. -/
def next (b : Board) : Call → Board
  | .saveRecord r => b.withStore (b.store.save r).2
  | .selectSlot slot => b.withStore (b.store.selectSlot slot).2
  | .ensureValid flashSize => b.withStore (b.store.ensureValid flashSize).2
  | .currentSlot => b.withStore b.store.currentSlot.2
  | .engine c => b.withEngine (b.mountedEngine.next c)
  | .requestReset on => b.withReset (b.mountedReset.request on).2
  | .prepareReset =>
    (b.withReset (b.mountedReset.prepare b.store).2.1).withStore (b.mountedReset.prepare b.store).2.2
  | .performReset =>
    (b.withReset (b.mountedReset.perform b.store).1).withStore (b.mountedReset.perform b.store).2
  | .startUp => b.withStartup b.mountedStartup.run.2
  | .failScratch fail => { b with scratch := b.scratch.failAccess fail }
  | .restart => b.restart

/-- The board after a history. -/
def after (b : Board) (calls : List Call) : Board :=
  calls.foldl next b

@[simp] theorem after_nil (b : Board) : b.after [] = b := rfl

@[simp] theorem after_cons (b : Board) (c : Call) (calls : List Call) :
    b.after (c :: calls) = (b.next c).after calls := rfl

theorem after_append (b : Board) (calls calls' : List Call) :
    b.after (calls ++ calls') = (b.after calls).after calls' :=
  List.foldl_append

/-- The session that a call opens. -/
def opened? (b : Board) : Call → Option Session
  | .engine c => b.mountedEngine.opened? c
  | _ => none

/-- The session that a call writes for. -/
def issuer? (b : Board) : Call → Option Session
  | .engine c => b.mountedEngine.issuer? c
  | _ => none

/-- The data that a call hands in and the engine takes in. -/
def taken (b : Board) : Call → List UInt8
  | .engine c => b.mountedEngine.taken c
  | _ => []

/-- The sessions that a history opens, in order. -/
def started (b : Board) : List Call → List Session
  | [] => []
  | c :: calls => (b.opened? c).toList ++ (b.next c).started calls

/-- All data that are taken in over a history, in order. -/
def accepted (b : Board) : List Call → List UInt8
  | [] => []
  | c :: calls => b.taken c ++ (b.next c).accepted calls

variable {b : Board} {sessions : List Session}

/-- A session of a history was opened by one of its calls. -/
theorem exists_of_mem_started {calls : List Call} {s : Session} (h : s ∈ b.started calls) :
    ∃ pre c post, calls = pre ++ c :: post ∧ (b.after pre).opened? c = some s := by
  induction calls generalizing b with
  | nil => exact nomatch h
  | cons c calls ih =>
    rcases List.mem_append.mp h with hfirst | hlater
    · exact ⟨[], c, calls, rfl, Option.mem_toList.mp hfirst⟩
    · obtain ⟨pre, c', post, rfl, hopen⟩ := ih hlater
      exact ⟨c :: pre, c', post, rfl, hopen⟩

/-! ## One call -/

/-- What a component other than the engine does: one save at most, and the engine stays or is built anew. -/
structure Aside (b b' : Board) : Prop where
  saves : b.flash.Saves b'.flash
  engine : b'.engine = b.engine ∨ b'.engine.active = none

theorem next_cases (b : Board) (c : Call) :
    (∃ c', c = .engine c') ∨ b.opened? c = none ∧ b.taken c = [] ∧ b.Aside (b.next c) := by
  cases c with
  | engine c => exact .inl ⟨c, rfl⟩
  | saveRecord r => exact .inr ⟨rfl, rfl, b.flash.saves_saveRecord r, .inl rfl⟩
  | selectSlot slot => exact .inr ⟨rfl, rfl, b.store.saves_selectSlot slot, .inl rfl⟩
  | ensureValid flashSize => exact .inr ⟨rfl, rfl, b.store.saves_ensureValid flashSize, .inl rfl⟩
  | currentSlot => exact .inr ⟨rfl, rfl, b.store.saves_currentSlot, .inl rfl⟩
  | prepareReset => exact .inr ⟨rfl, rfl, b.mountedReset.saves_prepare b.store, .inl rfl⟩
  | performReset => exact .inr ⟨rfl, rfl, b.mountedReset.saves_perform b.store, .inl rfl⟩
  | startUp => exact .inr ⟨rfl, rfl, b.mountedStartup.saves_run, .inl rfl⟩
  | requestReset | failScratch => exact .inr ⟨rfl, rfl, .nothing, .inl rfl⟩
  | restart => exact .inr ⟨rfl, rfl, .nothing, .inr rfl⟩

/-- A call writes within the region of its session, and saves one sound record at most. -/
theorem next_ops (h : b.mountedEngine.Sound) (c : Call) :
    ∃ ops, b.flash.After ops (b.next c).flash ∧
      Orderly (·.validate b.flash.capacity = .ok ()) ops ∧
      ∀ op ∈ ops, op.Within recordAddress firstImageAddress ∨
        ∃ s, b.issuer? c = some s ∧ op.Within s.start s.limit := by
  obtain ⟨c, rfl⟩ | ⟨-, -, haside⟩ := b.next_cases c
  · obtain ⟨image, f, hafter, hsaves, himage⟩ := Engine.next_flash h c
    obtain ⟨record, hf, horderly, hrecord⟩ := hsaves.performAll
    have hflash : (b.next (.engine c)).flash = f.performAll record := hf
    rw [hafter.capacity] at horderly
    refine ⟨image ++ record, ?_, ?_, fun op hop => ?_⟩
    · rw [hflash]
      exact hafter.trans (Flash.after_performAll f record)
    · refine Orderly.append (Orderly.of_above fun op hop => ?_) horderly
      obtain ⟨s, -, hstart, hwithin⟩ := himage op hop
      exact hwithin.above hstart
    · rcases List.mem_append.mp hop with hop | hop
      · obtain ⟨s, hs, -, hwithin⟩ := himage op hop
        exact .inr ⟨s, hs, hwithin⟩
      · exact .inl (hrecord op hop)
  · obtain ⟨record, hf, horderly, hrecord⟩ := haside.saves.performAll
    rw [hf]
    exact ⟨record, Flash.after_performAll _ record, horderly, fun op hop => .inl (hrecord op hop)⟩

/-- What another component does keeps a session served, unless the restart ends it. -/
theorem Aside.serves {b' : Board} (h : b.Aside b') {s : Session} {d : List UInt8}
    (hserves : b.mountedEngine.Serves s d) : b'.mountedEngine.Serves s d := by
  rcases h.engine with hengine | hidle
  · exact hserves.congr (congrArg (·.active) hengine) (congrArg (·.arena) hengine) fun x hx =>
      h.saves.getElem?_cells hx
  · exact Engine.serves_of_idle hidle

theorem follows_next (h : b.mountedEngine.Follows sessions) (c : Call) :
    (b.next c).mountedEngine.Follows (sessions ++ (b.opened? c).toList) := by
  obtain ⟨c, rfl⟩ | ⟨hopen, -, haside⟩ := b.next_cases c
  · exact h.next c
  · rw [hopen, Option.toList_none, List.append_nil]
    obtain hidle | ⟨s, hmem, d, hserves⟩ := h
    · exact .inl (haside.engine.elim (fun hengine => (congrArg (·.active) hengine).trans hidle) id)
    · exact .inr ⟨s, hmem, d, haside.serves hserves⟩

theorem issuer_of_follows (h : b.mountedEngine.Follows sessions) {c : Call} {s : Session}
    (hs : b.issuer? c = some s) : ∃ s₀ ∈ sessions, s₀.Continues s := by
  cases c with
  | engine c => exact h.issuer hs
  | _ => exact nomatch hs

/-! ## Whole histories -/

theorem follows_after (h : b.mountedEngine.Follows sessions) (calls : List Call) :
    (b.after calls).mountedEngine.Follows (sessions ++ b.started calls) := by
  induction calls generalizing b sessions with
  | nil =>
    rw [after_nil, started, List.append_nil]
    exact h
  | cons c calls ih =>
    rw [after_cons, started, ← List.append_assoc]
    exact ih (follows_next h c)

/-- A history writes within the regions of its sessions, and saves sound records. -/
theorem run_ops (h : b.mountedEngine.Follows sessions) (calls : List Call) :
    ∃ ops, b.flash.After ops (b.after calls).flash ∧
      Orderly (·.validate b.flash.capacity = .ok ()) ops ∧
      ∀ op ∈ ops, op.Within recordAddress firstImageAddress ∨
        ∃ s ∈ sessions ++ b.started calls, op.Within s.start s.limit := by
  induction calls generalizing b sessions with
  | nil => exact ⟨[], .refl _, .nil, nofun⟩
  | cons c calls ih =>
    obtain ⟨ops, hafter, horderly, hops⟩ := next_ops h.sound c
    obtain ⟨ops', hafter', horderly', hops'⟩ := ih (follows_next h c)
    rw [hafter.capacity] at horderly'
    rw [List.append_assoc] at hops'
    refine ⟨ops ++ ops', hafter.trans hafter', horderly.append horderly', fun op hop => ?_⟩
    rcases List.mem_append.mp hop with hop | hop
    · refine (hops op hop).imp_right fun ⟨s, hs, hwithin⟩ => ?_
      obtain ⟨s₀, hmem, hcont⟩ := issuer_of_follows h hs
      rw [hcont.start, hcont.limit] at hwithin
      exact ⟨s₀, List.mem_append_left _ hmem, hwithin⟩
    · exact hops' op hop

theorem capacity_after (h : b.mountedEngine.Follows sessions) (calls : List Call) :
    (b.after calls).flash.capacity = b.flash.capacity := by
  obtain ⟨_, hafter, -, -⟩ := run_ops h calls
  exact hafter.capacity

/-! ## The factory board -/

/-- A board on whose flash nothing but the factory record was stored, with an arena of one sector. -/
def factoryBoard : Board :=
  .assemble (Engine.provisionedFlash (.factory Engine.provisionedSize)) sectorSize {}

theorem mountedEngine_factoryBoard :
    factoryBoard.mountedEngine = Engine.provisioned (.factory Engine.provisionedSize) := rfl

theorem active_factoryBoard : factoryBoard.engine.active = none := rfl

theorem nextId_factoryBoard : factoryBoard.engine.nextId = 1 := rfl

theorem capacity_factoryBoard : factoryBoard.flash.capacity = Engine.provisionedSize :=
  Engine.capacity_provisioned (.factory Engine.provisionedSize)

theorem size_factoryBoard : factoryBoard.flash.cells.size = Engine.provisionedSize :=
  Engine.size_provisioned (.factory Engine.provisionedSize)

theorem faults_factoryBoard : factoryBoard.flash.faults = {} :=
  Engine.faults_provisioned (.factory Engine.provisionedSize)

theorem load_factoryBoard :
    factoryBoard.mountedEngine.store.load = .ok (.factory Engine.provisionedSize) := by
  rw [mountedEngine_factoryBoard]
  exact Engine.load_provisioned_factory

theorem arenaUsable_factoryBoard : factoryBoard.mountedEngine.arenaUsable = true := by
  rw [mountedEngine_factoryBoard]
  exact Engine.arenaUsable_provisioned _

end Board

end BootSlots
