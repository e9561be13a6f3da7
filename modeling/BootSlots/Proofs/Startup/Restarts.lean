import BootSlots.Proofs.Startup.Reset

/-
  Start-ups one after the other. A start-up that finds a request for a reset ends in a restart, and so may
  come to the same request again. A reset that fails takes its request back all the same, and a scratch
  memory that cannot be written cannot be read either, so whatever fails there is one restart at most.

  Proved:
  * `run_restarts_iff`: when a start-up ends in a restart.
  * `requested_run`: no start-up leaves a request behind.
  * `no_reset_loop`: of start-ups in turn, only the first can end in a restart.

  The faults of the scratch memory are taken to stay as they are from one start-up to the next. A request
  that could not be read for a fault is found again when the fault is gone.
-/

namespace BootSlots

/-- A request that is read comes from a scratch memory that does not fail. -/
theorem FactoryReset.failing_of_requested {r : FactoryReset} (h : r.requested = true) :
    r.scratch.failing = false := by
  unfold requested at h
  split at h
  · rename_i word hword
    unfold Scratch.readWord at hword
    split at hword
    · exact nomatch hword
    · rename_i bytes hread
      obtain ⟨hopen, -⟩ := Scratch.read_eq_ok_iff.mp hread
      exact (Scratch.refusal_eq_none_iff.mp hopen).1
  · exact nomatch h

/-- A record's sector that cannot be erased keeps what it holds. -/
theorem Flash.saveRecord_of_stuck {f : Flash} (h : f.faults.erase = some recordSector) (r : Record) :
    (f.saveRecord r).2 = f := by
  rw [saveRecord_eq]
  split
  · rfl
  · split
    · rfl
    · rename_i g hg
      obtain ⟨-, hfree, -⟩ := erase_eq_ok_iff.mp hg
      exact absurd h hfree

namespace Startup

/-! ## One start-up -/

/-- The sequence without a pending reset hands a record on or reports a fault. -/
theorem boot_returns (s : Startup) :
    ((∃ report, s.boot.1 = .booting report) ∨ ∃ fault, s.boot.1 = .failed fault) ∧
      s.boot.2.reset.scratch = s.reset.scratch := by
  cases hrepair : (s.store.ensureValid (s.store.flash.bootSize s.layout.defaultFlashSize)).1 with
  | error fault =>
    obtain ⟨hfailed, -, hreset⟩ := boot_of_error hrepair
    exact ⟨.inr ⟨_, hfailed⟩, congrArg FactoryReset.scratch hreset⟩
  | ok res =>
    obtain ⟨hbooting, -, hreset, -⟩ := boot_of_ok hrepair
    refine ⟨.inl ⟨_, hbooting⟩, ?_⟩
    rw [hreset]
    rfl

theorem run_returns {s : Startup} (h : s.reset.requested = false) :
    ((∃ report, s.run.1 = .booting report) ∨ ∃ fault, s.run.1 = .failed fault) ∧
      s.run.2.reset.scratch = s.reset.scratch := by
  rw [run_of_not_requested h]
  exact (s.signal .init).boot_returns

/-- A start-up ends in a restart exactly where it finds a request. -/
theorem run_restarts_iff (s : Startup) : s.run.1 = .restarted ↔ s.reset.requested = true := by
  cases h : s.reset.requested with
  | true => exact ⟨fun _ => rfl, fun _ => (run_of_requested h (FactoryReset.failing_of_requested h)).1⟩
  | false =>
    obtain ⟨⟨report, hres⟩ | ⟨fault, hres⟩, -⟩ := run_returns h <;> rw [hres] <;> exact ⟨nofun, nofun⟩

/-- A start-up on the scratch memory that another one left finds no request. -/
theorem requested_of_scratch_run {s s' : Startup} (h : s'.reset.scratch = s.run.2.reset.scratch) :
    s'.reset.requested = false := by
  rw [FactoryReset.requested, h, ← FactoryReset.requested]
  cases hpending : s.reset.requested with
  | true => exact (run_of_requested hpending (FactoryReset.failing_of_requested hpending)).2.1
  | false =>
    rw [FactoryReset.requested, (run_returns hpending).2]
    exact hpending

/-! ## Start-ups in turn -/

/-- Each start-up finds the scratch memory as the one before left it. All else, the flash and its faults
among it, may be any. -/
def InTurn : Startup → List Startup → Prop
  | _, [] => True
  | s, s' :: later => s'.reset.scratch = s.run.2.reset.scratch ∧ InTurn s' later

/-- After the first start-up none finds a request, by induction on the start-ups. -/
theorem InTurn.requested {s : Startup} {later : List Startup} (h : s.InTurn later) :
    ∀ s' ∈ later, s'.reset.requested = false := by
  induction later generalizing s with
  | nil => exact List.forall_mem_nil _
  | cons s₁ later ih =>
    obtain ⟨hscratch, hlater⟩ := h
    exact List.forall_mem_cons.mpr ⟨requested_of_scratch_run hscratch, ih hlater⟩

/-- Whatever flash and scratch memory hold, and whatever fails, a start-up ends in a restart exactly where it
finds a request. It leaves none behind, so each start-up after it comes to a result. -/
theorem no_reset_loop {s : Startup} {later : List Startup} (hlater : s.InTurn later) :
    (s.run.1 = .restarted ↔ s.reset.requested = true) ∧ s.run.2.reset.requested = false ∧
      ∀ s' ∈ later, s'.reset.requested = false ∧
        ((∃ report, s'.run.1 = .booting report) ∨ ∃ fault, s'.run.1 = .failed fault) := by
  refine ⟨s.run_restarts_iff, requested_of_scratch_run rfl, fun s' hs' => ?_⟩
  have hnone := hlater.requested s' hs'
  exact ⟨hnone, (run_returns hnone).1⟩

/-- A pending request on a flash whose record cannot be erased. -/
def stuck (r : Record) : Startup :=
  { pending r with store := { flash := (Engine.provisionedFlash r).failErase recordSector } }

/-- A reset that cannot write its record restarts the device once, and the next two start-ups come to
results. -/
theorem no_reset_loop_stuck :
    (stuck customRecord).run.1 = .restarted ∧
      (stuck customRecord).run.2.store.flash = (stuck customRecord).store.flash ∧
      (stuck customRecord).following.run.1 ≠ .restarted ∧
      (stuck customRecord).following.following.run.1 ≠ .restarted := by
  have hzeroed : ({ scratch := .zeroed, indicator := {} } : FactoryReset).scratch.failing = false := rfl
  obtain ⟨scratch, hrequest, hon, -⟩ := FactoryReset.request_of_free hzeroed true
  have hreset : (stuck customRecord).reset = { scratch, indicator := {} } := congrArg Prod.snd hrequest
  have hrequested : (stuck customRecord).reset.requested = true := by rw [hreset]; exact hon
  have hturn : (stuck customRecord).InTurn
      [(stuck customRecord).following, (stuck customRecord).following.following] :=
    ⟨scratch_following _, scratch_following _, trivial⟩
  obtain ⟨hrestarts, -, hresults⟩ := no_reset_loop hturn
  rw [List.forall_mem_cons, List.forall_mem_singleton] at hresults
  obtain ⟨⟨hfirst, -⟩, ⟨hsecond, -⟩⟩ := hresults
  have hkept := (run_of_requested hrequested (FactoryReset.failing_of_requested hrequested)).2.2
  refine ⟨hrestarts.mpr hrequested, hkept.trans (Flash.saveRecord_of_stuck rfl _), ?_, ?_⟩
  · rw [Ne, run_restarts_iff, hfirst]
    exact Bool.false_ne_true
  · rw [Ne, run_restarts_iff, hsecond]
    exact Bool.false_ne_true

end Startup

end BootSlots
