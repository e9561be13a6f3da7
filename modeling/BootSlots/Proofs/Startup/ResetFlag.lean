import BootSlots.Proofs.Device.Attempts
import BootSlots.Proofs.Device.CellHistory
import BootSlots.Proofs.Startup.Reset

/-
  The word in scratch memory that requests a factory reset, among all the other writes to that memory. The
  word lies at a multiple of four and accesses keep to multiples of four, so a write that succeeds either
  lays the whole word down or does not touch it, however long it is. The request is then told by the last
  write that did.

  Proved:
  * `Scratch.getElem?_of_write`: a write changes the cells that it addresses and no other.
  * `Scratch.flagWord_of_write`: what one write leaves in the word of the request.
  * `FactoryReset.Told.attempt`: each call that succeeds keeps word and failure switch in step with the history.
  * `FactoryReset.requested_from_history`: whether a reset is asked for, after any history.
-/

namespace BootSlots

/-! ## Writes to scratch memory -/

namespace Memory

variable {m : Memory} {start a n : Nat} {bytes : List UInt8}

theorem getElem?_put (h : start + bytes.length ≤ m.size) (x : Nat) :
    (m.put start bytes)[x]? = (laidAt start bytes x).or m[x]? := by
  rw [put, getElem?_overlay_laidAt]
  cases hx : laidAt start bytes x with
  | none => rfl
  | some b =>
    unfold laidAt at hx
    split at hx
    · obtain ⟨hlt, -⟩ := List.getElem?_eq_some_iff.mp hx
      rw [Array.getElem?_eq_getElem (show x < m.size by omega)]
      rfl
    · exact absurd hx (Option.some_ne_none b).symm

theorem laidAt_of_apart {x : Nat} (h : x < start ∨ start + bytes.length ≤ x) :
    laidAt start bytes x = none := by
  unfold laidAt
  split
  · exact List.getElem?_eq_none (by omega)
  · rfl

theorem slice_put_of_apart (hfits : start + bytes.length ≤ m.size)
    (h : a + n ≤ start ∨ start + bytes.length ≤ a) : (m.put start bytes).slice a n = m.slice a n := by
  apply slice_congr
  intro x hx hx'
  rw [getElem?_put hfits, laidAt_of_apart (by omega), Option.none_or]

theorem slice_put_of_covers (hfits : start + bytes.length ≤ m.size) (hstart : start ≤ a)
    (hend : a + n ≤ start + bytes.length) :
    (m.put start bytes).slice a n = (bytes.drop (a - start)).take n := by
  apply List.ext_getElem?
  intro i
  rw [getElem?_slice, List.getElem?_take]
  split
  · have hat : a + i - start = a - start + i := by omega
    rw [getElem?_put hfits, List.getElem?_drop, laidAt, if_pos (by omega), hat,
      List.getElem?_eq_getElem (by omega)]
    rfl
  · rfl

end Memory

namespace Scratch

variable {s t : Scratch} {offset : Nat} {bytes : List UInt8}

/-- A write changes the cells that it addresses and no other. -/
theorem getElem?_of_write (h : s.write offset bytes = .ok t) (x : Nat) :
    t.cells[x]? = (Memory.laidAt offset bytes x).or s.cells[x]? := by
  obtain ⟨hopen, hcells, -⟩ := write_eq_ok h
  obtain ⟨-, hfits, -, -⟩ := refusal_eq_none_iff.mp hopen
  rw [hcells, Memory.getElem?_put (by rw [s.size_eq]; exact hfits)]

/-- The word that requests a reset, as it is stored. -/
def flagWord (s : Scratch) : UInt32 :=
  (Word.ofList? (s.cells.slice resetFlagOffset 4)).getD 0

/-- The word that a write lays down there. -/
def laidFlag? (offset : Nat) (bytes : List UInt8) : Option UInt32 :=
  if offset ≤ resetFlagOffset ∧ resetFlagOffset + 4 ≤ offset + bytes.length then
    Word.ofList? ((bytes.drop (resetFlagOffset - offset)).take 4)
  else none

theorem flagWord_failAccess (s : Scratch) (fail : Bool) : (s.failAccess fail).flagWord = s.flagWord := by
  rw [flagWord, failAccess, flagWord]

theorem flagWord_zeroed : zeroed.flagWord = 0 := by
  decide +kernel

theorem ofList?_of_length {bytes : List UInt8} (h : bytes.length = 4) :
    ∃ word, Word.ofList? bytes = some word := by
  obtain ⟨b0, b1, b2, b3, rfl⟩ := List.length_eq_four.mp h
  exact ⟨_, rfl⟩

theorem readWord_flag (h : s.failing = false) : s.readWord resetFlagOffset = .ok s.flagWord := by
  have hopen : s.refusal resetFlagOffset 4 = none :=
    refusal_eq_none_iff.mpr ⟨h, by decide, by decide, by decide⟩
  have hlength : (s.cells.slice resetFlagOffset 4).length = 4 := by
    rw [Memory.length_slice, s.size_eq]
    decide
  obtain ⟨word, hword⟩ := ofList?_of_length hlength
  have hread : s.read resetFlagOffset 4 = .ok (s.cells.slice resetFlagOffset 4) :=
    read_eq_ok_iff.mpr ⟨hopen, rfl⟩
  rw [readWord, hread, flagWord]
  dsimp only
  rw [hword, Option.getD_some]

theorem readWord_of_failing (h : s.failing = true) (offset : Nat) :
    s.readWord offset = .error .scratchOutOfBounds := by
  rw [readWord, read, refusal, h]
  rfl

/-- A write that keeps to whole words lays the word of the request down or leaves it alone. -/
theorem flagWord_of_write (h : s.write offset bytes = .ok t) :
    t.flagWord = (laidFlag? offset bytes).getD s.flagWord := by
  obtain ⟨hopen, hcells, -⟩ := write_eq_ok h
  obtain ⟨-, hfits, hoffset, hlength⟩ := refusal_eq_none_iff.mp hopen
  rw [← s.size_eq] at hfits
  have hflag : resetFlagOffset % 4 = 0 := rfl
  unfold flagWord laidFlag?
  rw [hcells]
  split
  · rename_i hcovers
    have hfour : ((bytes.drop (resetFlagOffset - offset)).take 4).length = 4 := by
      rw [List.length_take, List.length_drop]
      omega
    obtain ⟨word, hword⟩ := ofList?_of_length hfour
    rw [Memory.slice_put_of_covers hfits hcovers.1 hcovers.2, hword, Option.getD_some, Option.getD_some]
  · rw [Memory.slice_put_of_apart hfits (by omega), Option.getD_none]

/-- The word may stand in the middle of a longer write. -/
example : laidFlag? 0x17C [0, 0, 0, 0, 0xE7, 0xF5, 0xC3, 0x1A, 0, 0, 0, 0] = some resetMagic := by decide

end Scratch

/-! ## Histories -/

namespace FactoryReset

/-- A call to the scratch memory, a switch of its failure, or a call to the reset. -/
inductive ScratchCall where
  | write (offset : Nat) (bytes : List UInt8)
  | writeWord (offset : Nat) (word : UInt32)
  | read (offset length : Nat)
  | failAccess (fail : Bool)
  | request (on : Bool)

namespace ScratchCall

/-- The bytes that a call lays down where it succeeds. -/
def laid? : ScratchCall → Option (Nat × List UInt8)
  | write offset bytes => some (offset, bytes)
  | writeWord offset word => some (offset, Word.toBytes word)
  | request on => some (resetFlagOffset, Word.toBytes (if on then resetMagic else 0))
  | _ => none

/-- The word of the request that a call lays down where it succeeds. -/
def flag? (c : ScratchCall) : Option UInt32 :=
  c.laid?.bind fun p => Scratch.laidFlag? p.1 p.2

/-- What a call switches the failure to. -/
def switch? : ScratchCall → Option Bool
  | failAccess fail => some fail
  | _ => none

/-- A write apart from the word of the request, or a read. -/
def Apart : ScratchCall → Prop
  | write offset bytes => offset + bytes.length ≤ resetFlagOffset ∨ resetFlagOffset + 4 ≤ offset
  | writeWord offset _ => offset + 4 ≤ resetFlagOffset ∨ resetFlagOffset + 4 ≤ offset
  | read _ _ => True
  | failAccess _ | request _ => False

end ScratchCall

/-- The reset after a call that succeeds. -/
def attempt (r : FactoryReset) : ScratchCall → Option FactoryReset
  | .write offset bytes => (r.scratch.write offset bytes).toOption.map ({ r with scratch := · })
  | .writeWord offset word => (r.scratch.writeWord offset word).toOption.map ({ r with scratch := · })
  | .read offset length => (r.scratch.read offset length).toOption.map fun _ => r
  | .failAccess fail => some { r with scratch := r.scratch.failAccess fail }
  | .request on =>
    match r.request on with
    | (.ok (), r) => some r
    | (.error _, _) => none

/-! ## One call -/

variable {r t : FactoryReset} {c : ScratchCall} {on : Bool}

theorem request_eq_ok (h : (r.request on).1 = .ok ()) :
    r.scratch.writeWord resetFlagOffset (if on then resetMagic else 0) = .ok (r.request on).2.scratch := by
  rw [request_eq] at h ⊢
  split at h
  · cases h
  · rename_i scratch hwrite
    rw [hwrite]

/-- A request that is refused leaves everything as it was. -/
theorem request_of_error {fault : Fault} (h : (r.request on).1 = .error fault) : (r.request on).2 = r := by
  rw [request_eq] at h ⊢
  split
  · rfl
  · rename_i scratch hwrite
    rw [hwrite] at h
    cases h

/-- A call that succeeds writes what it lays down, or at most switches the failure. -/
theorem attempt_cases (h : r.attempt c = some t) :
    (∃ offset bytes, c.laid? = some (offset, bytes) ∧ c.switch? = none ∧
      r.scratch.write offset bytes = .ok t.scratch) ∨
    (c.laid? = none ∧ t.scratch = r.scratch.failAccess (c.switch?.getD r.scratch.failing)) := by
  cases c with
  | write offset bytes =>
    obtain ⟨scratch, hwrite, hnext⟩ := Option.map_eq_some_iff.mp h
    rw [← hnext]
    exact .inl ⟨offset, bytes, rfl, rfl, eq_ok_of_toOption hwrite⟩
  | writeWord offset word =>
    obtain ⟨scratch, hwrite, hnext⟩ := Option.map_eq_some_iff.mp h
    rw [← hnext]
    exact .inl ⟨offset, Word.toBytes word, rfl, rfl, eq_ok_of_toOption hwrite⟩
  | read offset length =>
    obtain ⟨bytes, -, hnext⟩ := Option.map_eq_some_iff.mp h
    rw [← hnext]
    exact .inr ⟨rfl, rfl⟩
  | failAccess fail =>
    rw [← Option.some.inj h]
    exact .inr ⟨rfl, rfl⟩
  | request on =>
    rw [attempt] at h
    split at h
    · rename_i r' hrequest
      have hwrite := request_eq_ok (congrArg Prod.fst hrequest)
      rw [hrequest, Option.some.inj h] at hwrite
      exact .inl ⟨resetFlagOffset, _, rfl, rfl, hwrite⟩
    · exact absurd h (Option.some_ne_none t).symm

/-- Word and failure switch after a call that succeeds. -/
theorem flag_of_attempt (h : r.attempt c = some t) :
    t.scratch.flagWord = c.flag?.getD r.scratch.flagWord ∧
      t.scratch.failing = c.switch?.getD r.scratch.failing := by
  unfold ScratchCall.flag?
  obtain ⟨offset, bytes, hlaid, hswitch, hwrite⟩ | ⟨hlaid, hnext⟩ := attempt_cases h
  · rw [hlaid, hswitch]
    exact ⟨Scratch.flagWord_of_write hwrite, (Scratch.write_eq_ok hwrite).2.2⟩
  · rw [hlaid, hnext, Scratch.flagWord_failAccess, Option.bind_none, Option.getD_none]
    exact ⟨rfl, rfl⟩

/-- A reset is asked for where the word can be read and is the right one. -/
theorem requested_iff :
    r.requested = true ↔ r.scratch.failing = false ∧ r.scratch.flagWord = resetMagic := by
  unfold requested
  cases hfailing : r.scratch.failing with
  | false =>
    rw [Scratch.readWord_flag hfailing]
    simp
  | true =>
    rw [Scratch.readWord_of_failing hfailing]
    simp

theorem flagWord_of_request (h : (r.request on).1 = .ok ()) :
    (r.request on).2.scratch.flagWord = (if on then resetMagic else 0) ∧
      (r.request on).2.scratch.failing = false := by
  have hwrite := request_eq_ok h
  obtain ⟨hopen, -, hfailing⟩ := Scratch.write_eq_ok hwrite
  refine ⟨?_, hfailing.trans (Scratch.refusal_eq_none_iff.mp hopen).1⟩
  have hlaid : Scratch.laidFlag? resetFlagOffset (Word.toBytes (if on then resetMagic else 0)) =
      some (if on then resetMagic else 0) := Word.ofList?_toBytes _
  rw [Scratch.flagWord_of_write hwrite, hlaid, Option.getD_some]

/-- A request touches no byte but those of its word. -/
theorem getElem?_of_request (r : FactoryReset) (on : Bool) {x : Nat}
    (h : x < resetFlagOffset ∨ resetFlagOffset + 4 ≤ x) :
    (r.request on).2.scratch.cells[x]? = r.scratch.cells[x]? := by
  cases hanswer : (r.request on).1 with
  | error fault => rw [request_of_error hanswer]
  | ok _ => rw [Scratch.getElem?_of_write (request_eq_ok hanswer), Memory.laidAt_of_apart h, Option.none_or]

theorem ScratchCall.flag?_of_apart (h : c.Apart) : c.flag? = none ∧ c.switch? = none := by
  have hapart : ∀ offset (bytes : List UInt8),
      offset + bytes.length ≤ resetFlagOffset ∨ resetFlagOffset + 4 ≤ offset →
      Scratch.laidFlag? offset bytes = none := fun _ _ h => if_neg (by omega)
  cases c with
  | write offset bytes => exact ⟨hapart _ _ h, rfl⟩
  | writeWord offset word => exact ⟨hapart _ _ h, rfl⟩
  | read offset length => exact ⟨rfl, rfl⟩
  | failAccess fail => exact h.elim
  | request on => exact h.elim

/-! ## Whole histories -/

/-- Word and failure switch of `t` are what the calls `done` say that came to `r` and succeeded. -/
structure Told (r : FactoryReset) (done : List ScratchCall) (t : FactoryReset) : Prop where
  word : t.scratch.flagWord = lastSet (·.flag?) r.scratch.flagWord done
  failing : t.scratch.failing = lastSet (·.switch?) r.scratch.failing done

theorem Told.attempt {u : FactoryReset} {done : List ScratchCall} (h : r.Told done t)
    (hc : t.attempt c = some u) : r.Told (done ++ [c]) u := by
  obtain ⟨hword, hfailing⟩ := flag_of_attempt hc
  refine ⟨?_, ?_⟩
  · rw [lastSet_concat, hword, h.word]
  · rw [lastSet_concat, hfailing, h.failing]

theorem told (r : FactoryReset) (calls : List ScratchCall) :
    r.Told (carriedOut attempt r calls) (attemptAll attempt r calls) := by
  have hfirst : r.Told [] r := ⟨(lastSet_nil _ _).symm, (lastSet_nil _ _).symm⟩
  exact attemptAll_induction (P := fun t done => r.Told done t) (fun _ _ _ _ h hc => h.attempt hc) hfirst calls

/-- A request that was made stays, whatever is written apart from it. -/
theorem requested_of_apart (h : (r.request on).1 = .ok ()) {later : List ScratchCall}
    (hapart : ∀ c ∈ carriedOut attempt (r.request on).2 later, c.Apart) :
    (attemptAll attempt (r.request on).2 later).requested = on := by
  obtain ⟨hword, hfailing⟩ := flagWord_of_request h
  have htold := told (r.request on).2 later
  have hflags := lastSet_of_forall_none fun c hc => (ScratchCall.flag?_of_apart (hapart c hc)).1
  have hswitches := lastSet_of_forall_none fun c hc => (ScratchCall.flag?_of_apart (hapart c hc)).2
  rw [Bool.eq_iff_iff, requested_iff, htold.word, htold.failing, hflags, hswitches, hword, hfailing]
  cases on with
  | true => simp
  | false => simp [resetMagic]

/-- What holds of a reset `t` since it was `r`, where the calls `done` succeeded in between. -/
structure Keeps (r : FactoryReset) (done : List ScratchCall) (t : FactoryReset) : Prop where
  requested : t.requested = true ↔
    t.scratch.failing = false ∧ lastSet (·.flag?) r.scratch.flagWord done = resetMagic
  /-- Zeroed memory asks for nothing. -/
  zeroed : r.scratch = .zeroed → (t.requested = true ↔
    t.scratch.failing = false ∧ (done.filterMap (·.flag?)).getLast? = some resetMagic)
  failing : t.scratch.failing = lastSet (·.switch?) r.scratch.failing done
  stays : ∀ on later, (t.request on).1 = .ok () →
    (∀ c ∈ carriedOut attempt (t.request on).2 later, c.Apart) →
    (attemptAll attempt (t.request on).2 later).requested = on
  writes : ∀ offset bytes s, t.scratch.write offset bytes = .ok s →
    ∀ x, s.cells[x]? = (Memory.laidAt offset bytes x).or t.scratch.cells[x]?
  writesWord : ∀ offset word s, t.scratch.writeWord offset word = .ok s →
    ∀ x, s.cells[x]? = (Memory.laidAt offset (Word.toBytes word) x).or t.scratch.cells[x]?
  readsBack : ∀ offset word, t.scratch.failing = false → offset + 4 ≤ scratchSize → offset % 4 = 0 →
    ∃ s, t.scratch.writeWord offset word = .ok s ∧ s.readWord offset = .ok word
  requests : ∀ on x, x < resetFlagOffset ∨ resetFlagOffset + 4 ≤ x →
    (t.request on).2.scratch.cells[x]? = t.scratch.cells[x]?
  refused : ∀ on fault, (t.request on).1 = .error fault → (t.request on).2 = t
  fails : ∀ c, t.attempt c = none → attemptAll attempt t [c] = t

/-- After any history of calls to the scratch memory and of requests, a reset is asked for exactly where the
memory can be read and the last write over the word of the request left the right value in it. -/
theorem requested_from_history (r : FactoryReset) (calls : List ScratchCall) :
    r.Keeps (carriedOut attempt r calls) (attemptAll attempt r calls) := by
  have htold := told r calls
  generalize carriedOut attempt r calls = done at htold ⊢
  generalize attemptAll attempt r calls = t at htold ⊢
  have hrequested : t.requested = true ↔
      t.scratch.failing = false ∧ lastSet (·.flag?) r.scratch.flagWord done = resetMagic := by
    rw [requested_iff, htold.word]
  refine
    { requested := hrequested
      zeroed := ?_
      failing := htold.failing
      stays := fun on later hmade hapart => requested_of_apart hmade hapart
      writes := fun offset bytes s h => Scratch.getElem?_of_write h
      writesWord := fun offset word s h => Scratch.getElem?_of_write h
      readsBack := ?_
      requests := fun on x hx => getElem?_of_request t on hx
      refused := fun on fault h => request_of_error h
      fails := fun c h => attemptAll_of_none h }
  · intro hzeroed
    rw [hrequested, hzeroed, Scratch.flagWord_zeroed]
    unfold lastSet
    cases (done.filterMap (·.flag?)).getLast? <;> simp [resetMagic]
  · intro offset word hfree hfits haligned
    obtain ⟨s, hwrite, -⟩ := Scratch.writeWord_of_free hfree hfits haligned word
    exact ⟨s, hwrite, Scratch.readWord_of_writeWord hwrite⟩

/-- Writes on both sides of a request leave it as it is. -/
theorem requested_from_history_neighbours :
    ∃ r : FactoryReset, r.scratch = .zeroed ∧ (r.request true).1 = .ok () ∧
      (attemptAll attempt (r.request true).2
        [.writeWord 0x17C 0, .write 0x184 [1, 2, 3, 4], .read resetFlagOffset 4]).requested = true := by
  let r : FactoryReset := { scratch := .zeroed, indicator := {} }
  have hfree : r.scratch.failing = false := rfl
  obtain ⟨scratch, hrequest, -, -⟩ := request_of_free hfree true
  have hmade : (r.request true).1 = .ok () := congrArg Prod.fst hrequest
  refine ⟨r, rfl, hmade, (requested_from_history r []).stays true _ hmade ?_⟩
  intro c hc
  obtain rfl | rfl | rfl :
      c = .writeWord 0x17C 0 ∨ c = .write 0x184 [1, 2, 3, 4] ∨ c = .read resetFlagOffset 4 := by
    simpa using (carriedOut_sublist _ _ _).subset hc
  · exact .inl (by decide)
  · exact .inr (by decide)
  · exact trivial

end FactoryReset

end BootSlots
