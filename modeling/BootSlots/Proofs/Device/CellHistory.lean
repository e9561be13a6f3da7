import BootSlots.Proofs.Device.FlashHistory
import Mathlib.Data.List.DropRight

/-
  What a cell of a flash holds, told by the calls that came to it. A cell is set by an erase of its sector, or
  from outside by a preload; between two such calls each program of the cell keeps the bits that are set in
  its byte too. Calls that fail leave no trace.

  Proved:
  * `make_of_accepts`, `make_of_not_accepts`: which calls succeed, what such a call does to one cell and to the
    operation list, and that any other call does nothing.
  * `Recorded.make`: each call that succeeds keeps cells and operation list in step with the history.
  * `clears_of_program`, `program_again`: programming clears bits only, and the same bytes once more change
    nothing.
  * `cells_from_history`: all of it, after any history of a new device.
-/

namespace BootSlots

namespace Memory

/-- The byte that comes to `x` where `bytes` are laid out from `start` on. -/
def laidAt (start : Nat) (bytes : List UInt8) (x : Nat) : Option UInt8 :=
  if start ≤ x then bytes[x - start]? else none

theorem getElem?_overlay_laidAt (f : UInt8 → UInt8 → UInt8) (m : Memory) (start : Nat)
    (bytes : List UInt8) (x : Nat) :
    (m.overlay f start bytes)[x]? = (laidAt start bytes x).elim m[x]? fun b => m[x]?.map (f · b) := by
  rw [getElem?_overlay]
  unfold laidAt
  by_cases hx : start ≤ x
  · rw [if_pos hx, if_pos hx]
    cases bytes[x - start]? <;> rfl
  · rw [if_neg hx, if_neg hx]
    rfl

end Memory

namespace Flash

open Memory (laidAt getElem?_overlay_laidAt)

/-! ## Histories -/

/-- A call to a flash, or a switch of its faults. -/
inductive Call where
  | program (address : Nat) (bytes : List UInt8)
  | erase (sector : Nat)
  /-- Places bytes from outside, past the NOR rule. -/
  | preload (address : Nat) (bytes : List UInt8)
  | failErase (sector : Nat)
  | failProgram (sector : Nat)
  | failReads (fail : Bool)
  | clearFaults
  | clearOps

/-- Makes a call: whether it succeeds, and the flash after it. -/
def make (f : Flash) : Call → Bool × Flash
  | .program address bytes =>
    ((f.carryOut (.program address bytes)).1.isOk, (f.carryOut (.program address bytes)).2)
  | .erase sector => ((f.carryOut (.erase sector)).1.isOk, (f.carryOut (.erase sector)).2)
  | .preload address bytes => ((f.preload? address bytes).isSome, (f.preload? address bytes).getD f)
  | .failErase sector => (true, f.failErase sector)
  | .failProgram sector => (true, f.failProgram sector)
  | .failReads fail => (true, f.failReads fail)
  | .clearFaults => (true, f.clearFaults)
  | .clearOps => (true, f.clearOps)

/-- The flash after a history. -/
def after (f : Flash) (calls : List Call) : Flash :=
  calls.foldl (fun f c => (f.make c).2) f

/-- The calls of a history that succeed. -/
def succeeded (f : Flash) : List Call → List Call
  | [] => []
  | c :: calls =>
    if (f.make c).1 then c :: (f.make c).2.succeeded calls else (f.make c).2.succeeded calls

/-- The call keeps to the device and meets no fault. -/
def Accepts (f : Flash) : Call → Prop
  | .program address bytes => f.Admits (.program address bytes)
  | .erase sector => f.Admits (.erase sector)
  | .preload address bytes => address + bytes.length ≤ f.cells.size
  | _ => True

namespace Call

/-- The byte that the cell at `x` is set to, whatever it held. -/
def stores? (x : Nat) : Call → Option UInt8
  | erase sector => if sectorOf x = sector then some erased else none
  | preload address bytes => laidAt address bytes x
  | _ => none

/-- The byte that the cell at `x` is programmed with. -/
def programs? (x : Nat) : Call → Option UInt8
  | program address bytes => laidAt address bytes x
  | _ => none

/-- The operation that the device keeps in its list. -/
def op? : Call → Option FlashOp
  | program address bytes => some (.program address bytes)
  | erase sector => some (.erase sector)
  | _ => none

/-- The call empties the operation list. -/
def forgets : Call → Bool
  | clearOps => true
  | _ => false

/-- What the call makes of the faults that are switched on. -/
def switch (faults : FlashFaults) : Call → FlashFaults
  | failErase sector => { faults with erase := some sector }
  | failProgram sector => { faults with program := some sector }
  | failReads fail => { faults with read := fail }
  | clearFaults => {}
  | _ => faults

end Call

/-- The byte that the cell at `x` was last set to; a new device is erased. -/
def baseAt (x : Nat) (done : List Call) : UInt8 :=
  (done.filterMap (·.stores? x)).getLast?.getD erased

/-- The bytes that the cell at `x` was programmed with since it was last set. -/
def programmedAt (x : Nat) (done : List Call) : List UInt8 :=
  (done.rtakeWhile fun c => (c.stores? x).isNone).filterMap (·.programs? x)

/-- What the cell at `x` holds by the history of calls. -/
def byteAt (x : Nat) (done : List Call) : UInt8 :=
  (programmedAt x done).foldl (· &&& ·) (baseAt x done)

/-- The operations since the list was last emptied. -/
def recordedOps (done : List Call) : List FlashOp :=
  (done.rtakeWhile (!·.forgets)).filterMap (·.op?)

/-- The faults that are switched on after a history. -/
def switchedOn (done : List Call) : FlashFaults :=
  done.foldl Call.switch {}

/-- What a call that succeeds makes of the byte `b` at `x`. -/
def Call.leaves (c : Call) (x : Nat) (b : UInt8) : UInt8 :=
  match c.stores? x with
  | some stored => stored
  | none => (c.programs? x).elim b (b &&& ·)

theorem byteAt_concat (x : Nat) (done : List Call) (c : Call) :
    byteAt x (done ++ [c]) = c.leaves x (byteAt x done) := by
  unfold byteAt programmedAt baseAt Call.leaves
  cases hstores : c.stores? x with
  | some b =>
    rw [List.rtakeWhile_concat_neg _ _ _ (by simp [hstores]), List.filterMap_append]
    simp [hstores]
  | none =>
    rw [List.rtakeWhile_concat_pos _ _ _ (by simp [hstores]), List.filterMap_append,
      List.filterMap_append, List.foldl_append]
    cases hprograms : c.programs? x <;> simp [hstores, hprograms]

theorem recordedOps_concat (done : List Call) (c : Call) :
    recordedOps (done ++ [c]) = if c.forgets then [] else recordedOps done ++ c.op?.toList := by
  unfold recordedOps
  by_cases hforgets : c.forgets
  · rw [List.rtakeWhile_concat_neg _ _ _ (by simp [hforgets]), if_pos hforgets]
    rfl
  · rw [List.rtakeWhile_concat_pos _ _ _ (by simp [hforgets]), List.filterMap_append, if_neg hforgets]
    cases hop : c.op? <;> simp [hop]

/-! ## One call -/

variable {f g : Flash} {c : Call} {x : Nat} {b : UInt8}

/-- All that a call that succeeds does to the cells, to the operation list and to the faults. -/
structure Made (f : Flash) (c : Call) (g : Flash) : Prop where
  size : g.cells.size = f.cells.size
  cells : ∀ x b, f.cells[x]? = some b → g.cells[x]? = some (c.leaves x b)
  ops : g.ops.toList = if c.forgets then [] else f.ops.toList ++ c.op?.toList
  faults : g.faults = c.switch f.faults

/-- A call that leaves cells and list alone. -/
theorem made_of_same (hcells : g.cells = f.cells) (hops : g.ops = f.ops) (hstores : ∀ x, c.stores? x = none)
    (hprograms : ∀ x, c.programs? x = none) (hforgets : c.forgets = false) (hop : c.op? = none)
    (hfaults : g.faults = c.switch f.faults) : f.Made c g := by
  refine ⟨congrArg Array.size hcells, ?_, ?_, hfaults⟩
  · intro x b hb
    unfold Call.leaves
    rw [hcells, hstores, hprograms, hb]
    rfl
  · rw [hops, hforgets, hop]
    exact (List.append_nil _).symm

theorem made_program (f : Flash) (address : Nat) (bytes : List UInt8) :
    f.Made (.program address bytes) (f.perform (.program address bytes)) := by
  refine ⟨by rw [cells_perform, FlashOp.size_applyTo], ?_, Array.toList_push, rfl⟩
  intro x b hb
  rw [cells_perform, FlashOp.applyTo, getElem?_overlay_laidAt, hb]
  show _ = some ((laidAt address bytes x).elim b (b &&& ·))
  cases laidAt address bytes x <;> rfl

theorem made_erase (f : Flash) (sector : Nat) : f.Made (.erase sector) (f.perform (.erase sector)) := by
  refine ⟨by rw [cells_perform, FlashOp.size_applyTo], ?_, Array.toList_push, by rw [faults_perform]; rfl⟩
  intro x b hb
  obtain ⟨hlt, -⟩ := Array.getElem?_eq_some_iff.mp hb
  have hstores : (Call.erase sector).stores? x = if sectorOf x = sector then some erased else none := rfl
  unfold Call.leaves
  rw [hstores, cells_perform]
  by_cases hx : sectorOf x = sector
  · rw [if_pos hx, ← hx, FlashOp.getElem?_applyTo_erase hlt]
  · have hkept : ¬ (FlashOp.erase sector).Covers x := hx
    rw [if_neg hx, FlashOp.getElem?_applyTo_of_not_covers hkept, hb]
    rfl

theorem made_preload {address : Nat} {bytes : List UInt8} (h : f.preload? address bytes = some g) :
    f.Made (.preload address bytes) g := by
  unfold preload? at h
  split at h
  · have hg := Option.some.inj h
    subst hg
    refine ⟨Memory.size_put _ _ _, ?_, (List.append_nil _).symm, rfl⟩
    intro x b hb
    have hstores : (Call.preload address bytes).stores? x = laidAt address bytes x := rfl
    show (f.cells.overlay (fun _ b => b) address bytes)[x]? = _
    unfold Call.leaves
    rw [getElem?_overlay_laidAt, hb, hstores]
    cases laidAt address bytes x <;> rfl
  · exact absurd h (Option.some_ne_none g).symm

theorem preload?_of_le {address : Nat} {bytes : List UInt8} (h : address + bytes.length ≤ f.cells.size) :
    ∃ g, f.preload? address bytes = some g :=
  ⟨_, if_pos h⟩

/-- A call that keeps to the device and meets no fault is carried out. -/
theorem make_of_accepts (h : f.Accepts c) : (f.make c).1 = true ∧ f.Made c (f.make c).2 := by
  cases c with
  | program address bytes =>
    have hadmits : f.Admits (.program address bytes) := h
    rw [make, carryOut_of_admits hadmits]
    exact ⟨rfl, f.made_program address bytes⟩
  | erase sector =>
    have hadmits : f.Admits (.erase sector) := h
    rw [make, carryOut_of_admits hadmits]
    exact ⟨rfl, f.made_erase sector⟩
  | preload address bytes =>
    obtain ⟨g, hg⟩ := preload?_of_le h
    rw [make, hg]
    exact ⟨rfl, made_preload hg⟩
  | clearOps => exact ⟨rfl, rfl, fun x b hb => hb, rfl, rfl⟩
  | failErase | failProgram | failReads | clearFaults =>
    exact ⟨rfl, made_of_same rfl rfl (fun _ => rfl) (fun _ => rfl) rfl rfl rfl⟩

/-- Any other call changes nothing at all. -/
theorem make_of_not_accepts (h : ¬ f.Accepts c) : f.make c = (false, f) := by
  cases c with
  | program address bytes =>
    have hrefused : ¬ f.Admits (.program address bytes) := h
    obtain ⟨fault, hfails⟩ := carryOut_of_not_admits hrefused
    rw [make, hfails]
    rfl
  | erase sector =>
    have hrefused : ¬ f.Admits (.erase sector) := h
    obtain ⟨fault, hfails⟩ := carryOut_of_not_admits hrefused
    rw [make, hfails]
    rfl
  | preload address bytes =>
    have hnone : f.preload? address bytes = none := if_neg h
    rw [make, hnone]
    rfl
  | clearOps | failErase | failProgram | failReads | clearFaults => exact absurd trivial h

theorem make_fst_iff (f : Flash) (c : Call) : (f.make c).1 = true ↔ f.Accepts c := by
  by_cases h : f.Accepts c
  · exact iff_of_true (make_of_accepts h).1 h
  · rw [make_of_not_accepts h]
    exact iff_of_false Bool.false_ne_true h

theorem leaves_program (address : Nat) (bytes : List UInt8) (x : Nat) (b : UInt8) :
    (Call.program address bytes).leaves x b = (laidAt address bytes x).elim b (b &&& ·) := rfl

/-- No bit is set in `g` that is not set in `f`. -/
def Clears (f g : Flash) : Prop :=
  ∀ (x : Nat) (b b' : UInt8), f.cells[x]? = some b → g.cells[x]? = some b' → b' &&& b = b'

/-- Programming clears bits only. -/
theorem clears_of_program {address : Nat} {bytes : List UInt8} (h : f.program address bytes = .ok g) :
    f.Clears g := by
  intro x b b' hb hb'
  obtain ⟨-, -, rfl⟩ := program_eq_ok_iff.mp h
  have hleft := (f.made_program address bytes).cells x b hb
  rw [hb', Option.some.injEq, leaves_program] at hleft
  rw [hleft]
  cases laidAt address bytes x with
  | none => exact UInt8.and_self
  | some p =>
    show b &&& p &&& b = b &&& p
    rw [UInt8.and_comm, ← UInt8.and_assoc, UInt8.and_self]

theorem leaves_program_again (address : Nat) (bytes : List UInt8) (x : Nat) (b : UInt8) :
    (Call.program address bytes).leaves x ((Call.program address bytes).leaves x b) =
      (Call.program address bytes).leaves x b := by
  rw [leaves_program, leaves_program]
  cases laidAt address bytes x with
  | none => rfl
  | some p =>
    show b &&& p &&& p = b &&& p
    rw [UInt8.and_assoc, UInt8.and_self]

/-- The same bytes once more are programmed too, and change nothing. -/
theorem program_again {address : Nat} {bytes : List UInt8} (h : f.program address bytes = .ok g) :
    ∃ g', g.program address bytes = .ok g' ∧ g'.cells = g.cells := by
  obtain ⟨hfits, hfault, rfl⟩ := program_eq_ok_iff.mp h
  have hmade := f.made_program address bytes
  have hagain : (f.perform (.program address bytes)).program address bytes =
      .ok ((f.perform (.program address bytes)).perform (.program address bytes)) := by
    refine program_eq_ok_iff.mpr ⟨?_, hfault, rfl⟩
    rw [hmade.size]
    exact hfits
  have hmade' := (f.perform (.program address bytes)).made_program address bytes
  refine ⟨_, hagain, ?_⟩
  apply Array.ext_getElem?
  intro x
  by_cases hx : x < f.cells.size
  · have hfirst := hmade.cells x _ (Array.getElem?_eq_getElem hx)
    rw [hmade'.cells x _ hfirst, hfirst, leaves_program_again]
  · rw [Array.getElem?_eq_none (by rw [hmade'.size, hmade.size]; omega),
      Array.getElem?_eq_none (by rw [hmade.size]; omega)]

/-! ## Histories of a new device -/

/-- Cells, operation list and faults of a device of `capacity` bytes are what the history `done` says. -/
structure Recorded (f : Flash) (capacity : Nat) (done : List Call) : Prop where
  size : f.cells.size = capacity
  cells : ∀ x, x < capacity → f.cells[x]? = some (byteAt x done)
  ops : f.ops.toList = recordedOps done
  faults : f.faults = switchedOn done

variable {capacity : Nat} {done : List Call}

theorem recorded_of_blank (hnew : blank? capacity = some f) : f.Recorded capacity [] := by
  unfold blank? at hnew
  split at hnew
  · have hf := Option.some.inj hnew
    subst hf
    refine ⟨Array.size_replicate, ?_, rfl, rfl⟩
    intro x hx
    rw [Array.getElem?_replicate, if_pos hx]
    rfl
  · exact absurd hnew (Option.some_ne_none f).symm

theorem Recorded.make (h : f.Recorded capacity done) (hc : f.Accepts c) :
    (f.make c).2.Recorded capacity (done ++ [c]) := by
  obtain ⟨-, hmade⟩ := make_of_accepts hc
  refine ⟨hmade.size.trans h.size, ?_, ?_, ?_⟩
  · intro x hx
    rw [byteAt_concat]
    exact hmade.cells x _ (h.cells x hx)
  · rw [recordedOps_concat, hmade.ops, h.ops]
  · rw [hmade.faults, h.faults, switchedOn, switchedOn, List.foldl_concat]

theorem succeeded_of_accepts (h : f.Accepts c) (calls : List Call) :
    f.succeeded (c :: calls) = c :: (f.make c).2.succeeded calls := by
  rw [succeeded, if_pos (make_of_accepts h).1]

theorem succeeded_of_not_accepts (h : ¬ f.Accepts c) (calls : List Call) :
    f.succeeded (c :: calls) = f.succeeded calls := by
  rw [succeeded, make_of_not_accepts h]
  rfl

/-- A history keeps cells and operation list in step with its calls that succeed, by induction on the calls. -/
theorem Recorded.after (h : f.Recorded capacity done) (calls : List Call) :
    (f.after calls).Recorded capacity (done ++ f.succeeded calls) := by
  induction calls generalizing f done with
  | nil =>
    rw [succeeded, List.append_nil]
    exact h
  | cons c calls ih =>
    rw [Flash.after, List.foldl_cons]
    by_cases hc : f.Accepts c
    · have hnext := ih (h.make hc)
      rw [List.append_assoc] at hnext
      rw [succeeded_of_accepts hc]
      exact hnext
    · rw [succeeded_of_not_accepts hc, make_of_not_accepts hc]
      exact ih h

theorem Recorded.slice (h : f.Recorded capacity done) {address length : Nat}
    (hfits : address + length ≤ capacity) :
    f.cells.slice address length = (List.range' address length).map (byteAt · done) := by
  apply List.ext_getElem?
  intro i
  rw [Memory.getElem?_slice, List.getElem?_map]
  by_cases hi : i < length
  · rw [if_pos hi, h.cells _ (by omega), List.getElem?_range' hi]
    simp
  · rw [if_neg hi, List.getElem?_eq_none (by simp; omega)]
    rfl

/-- A read gives the bytes that the history says, wherever it does not fail. -/
theorem Recorded.read_iff (h : f.Recorded capacity done) (address length : Nat) (bytes : List UInt8) :
    f.read address length = .ok bytes ↔
      f.faults.read = false ∧ address + length ≤ capacity ∧
        bytes = (List.range' address length).map (byteAt · done) := by
  rw [read_eq_ok_iff, h.size]
  constructor
  · intro hread
    obtain ⟨hfault, hfits, hbytes⟩ := hread
    exact ⟨hfault, hfits, hbytes.symm.trans (h.slice hfits)⟩
  · intro hread
    obtain ⟨hfault, hfits, hbytes⟩ := hread
    exact ⟨hfault, hfits, (h.slice hfits).trans hbytes.symm⟩

/-- What holds of a device of `capacity` bytes on which the calls `done` have succeeded. -/
structure Keeps (f : Flash) (capacity : Nat) (done : List Call) : Prop where
  recorded : f.Recorded capacity done
  reads : ∀ address length bytes, f.read address length = .ok bytes ↔
    f.faults.read = false ∧ address + length ≤ capacity ∧
      bytes = (List.range' address length).map (byteAt · done)
  clears : ∀ address bytes g, f.program address bytes = .ok g → f.Clears g
  again : ∀ address bytes g, f.program address bytes = .ok g →
    ∃ g', g.program address bytes = .ok g' ∧ g'.cells = g.cells
  /-- Those calls succeed that keep to the device and meet no fault. -/
  succeeds : ∀ c, (f.make c).1 = true ↔ f.Accepts c
  /-- A call that fails leaves all as it was. -/
  fails : ∀ c, (f.make c).1 = false → (f.make c).2 = f

/-- After any history of a new device the cells, the operation list and the reads are what the calls say that
succeeded in it. -/
theorem cells_from_history (hnew : blank? capacity = some f) (calls : List Call) :
    (f.after calls).Keeps capacity (f.succeeded calls) := by
  have hrecorded : (f.after calls).Recorded capacity (f.succeeded calls) :=
    (recorded_of_blank hnew).after calls
  refine ⟨hrecorded, hrecorded.read_iff, fun _ _ _ h => clears_of_program h, fun _ _ _ h => program_again h,
    make_fst_iff _, fun c hfails => ?_⟩
  have hrefused : ¬ (f.after calls).Accepts c := by
    rw [← make_fst_iff, hfails]
    exact Bool.false_ne_true
  rw [make_of_not_accepts hrefused]

/-- A program, an erase, a preload and a program after it; then the sector can no longer be erased. -/
def variedCalls : List Call :=
  [.program 16 [0x0F], .erase 0, .preload 16 [0xF5], .program 16 [0x3C], .failErase 0, .erase 0]

/-- All of these calls succeed on a device of one sector, but for the last. -/
theorem succeeded_variedCalls (hnew : blank? sectorSize = some f) :
    f.succeeded variedCalls = variedCalls.take 5 := by
  have h := recorded_of_blank hnew
  have hprogram : f.Accepts (.program 16 [0x0F]) :=
    ⟨by rw [h.size]; decide, by rw [programFault, h.faults]; rfl⟩
  have h₁ := h.make hprogram
  rw [variedCalls, succeeded_of_accepts hprogram]
  generalize (f.make (.program 16 [0x0F])).2 = f₁ at h₁ ⊢
  have herase : f₁.Accepts (.erase 0) := ⟨by rw [h₁.size]; decide, by rw [h₁.faults]; decide⟩
  have h₂ := h₁.make herase
  rw [succeeded_of_accepts herase]
  generalize (f₁.make (.erase 0)).2 = f₂ at h₂ ⊢
  have hpreload : f₂.Accepts (.preload 16 [0xF5]) := by
    rw [Accepts, h₂.size]
    decide
  have h₃ := h₂.make hpreload
  rw [succeeded_of_accepts hpreload]
  generalize (f₂.make (.preload 16 [0xF5])).2 = f₃ at h₃ ⊢
  have hagain : f₃.Accepts (.program 16 [0x3C]) :=
    ⟨by rw [h₃.size]; decide, by rw [programFault, h₃.faults]; rfl⟩
  have h₄ := h₃.make hagain
  rw [succeeded_of_accepts hagain]
  generalize (f₃.make (.program 16 [0x3C])).2 = f₄ at h₄ ⊢
  have hswitch : f₄.Accepts (.failErase 0) := trivial
  have h₅ := h₄.make hswitch
  rw [succeeded_of_accepts hswitch]
  generalize (f₄.make (.failErase 0)).2 = f₅ at h₅ ⊢
  have hrefused : ¬ f₅.Accepts (.erase 0) := fun hc => hc.2 (by rw [h₅.faults]; rfl)
  rw [succeeded_of_not_accepts hrefused]
  rfl

/-- The cell has the bits of the preload that the program after it has, too. -/
theorem cells_from_history_varied :
    ∃ f, blank? sectorSize = some f ∧ f.succeeded variedCalls = variedCalls.take 5 ∧
      (f.after variedCalls).cells[16]? = some 0x34 ∧
      (f.after variedCalls).ops.toList = [.program 16 [0x0F], .erase 0, .program 16 [0x3C]] := by
  obtain ⟨f, hnew⟩ : ∃ f, blank? sectorSize = some f := ⟨_, dif_pos (by decide)⟩
  have hdone := succeeded_variedCalls hnew
  have hkeeps := cells_from_history hnew variedCalls
  rw [hdone] at hkeeps
  refine ⟨f, hnew, hdone, ?_, ?_⟩
  · rw [hkeeps.recorded.cells 16 (by decide)]
    rfl
  · rw [hkeeps.recorded.ops]
    rfl

end Flash

end BootSlots
