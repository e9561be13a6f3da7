import BootSlots.Proofs.Image.Stream

/-
  What a flush sets out to do, and how far it gets. The erased front and the pieces of the staged bytes tell
  all its operations beforehand; the flash only tells where they end. So what holds of each initial part of
  that list holds after a flush, whatever it came to.

  Proved:
  * `tries_programPieces`: pieces are programmed by the list, up to the first step that the flash refuses.
  * `flush_cases`: the same of a flush, with what it leaves.
  * `exists_piece_of_steps`: each step of the list is one for a piece, and all pieces before are programmed.
  * `pairwise_rank_steps`: the steps go up through the flash, so none is in the list twice.
-/

namespace BootSlots

/-- The flash does not carry out the operation. -/
def Flash.Refuses (f : Flash) : FlashOp → Prop
  | .erase sector => ∃ fault, f.erase sector = .error fault
  | .program address bytes => ∃ fault, f.program address bytes = .error fault

/-- Place of an operation among others: by its address, and a sector is erased before it is programmed. -/
def FlashOp.rank : FlashOp → Nat
  | .erase sector => 2 * (sector * sectorSize)
  | .program address _ => 2 * address + 1

namespace Image

/-! ## The list of steps -/

/-- What a writer reports where its flash refuses the operation. -/
def faultOf : FlashOp → WriteFault
  | .erase _ => .eraseFailed
  | .program _ _ => .programFailed

/-- The step for a piece that a fault is about. -/
def WriteFault.step (piece : Nat × List UInt8) : WriteFault → FlashOp
  | .eraseFailed => .erase (sectorOf piece.1)
  | .programFailed => .program piece.1 piece.2

/-- What comes before a piece is programmed: its sector is erased, if it lies beyond the erased front. -/
def opening (front address : Nat) : List FlashOp :=
  if front ≤ address then [.erase (sectorOf address)] else []

def pieceSteps (front : Nat) (piece : Nat × List UInt8) : List FlashOp :=
  opening front piece.1 ++ [.program piece.1 piece.2]

/-- The erased front after operations. -/
def frontAfter (front : Nat) : List FlashOp → Nat
  | [] => front
  | .erase sector :: ops => frontAfter ((sector + 1) * sectorSize) ops
  | .program _ _ :: ops => frontAfter front ops

/-- All steps for pieces in order. -/
def steps (front : Nat) : List (Nat × List UInt8) → List FlashOp
  | [] => []
  | piece :: rest =>
    pieceSteps front piece ++ steps (frontAfter front (pieceSteps front piece)) rest

variable {front x : Nat} {bytes : List UInt8}

@[simp] theorem frontAfter_nil (front : Nat) : frontAfter front [] = front := rfl

theorem frontAfter_append (front : Nat) (ops ops' : List FlashOp) :
    frontAfter front (ops ++ ops') = frontAfter (frontAfter front ops) ops' := by
  induction ops generalizing front with
  | nil => rfl
  | cons op ops ih => cases op <;> exact ih _

/-- A piece starts at the front, and its sector is erased, or its sector lies below the front. -/
theorem pieceSteps_cases (hmod : front % sectorSize = 0) (hx : x ≤ front) (bytes : List UInt8) :
    x = front ∧ pieceSteps front (x, bytes) = [.erase (sectorOf x), .program x bytes] ∧
        frontAfter front (pieceSteps front (x, bytes)) = sectorEnd x ∨
      sectorEnd x ≤ front ∧ pieceSteps front (x, bytes) = [.program x bytes] ∧
        frontAfter front (pieceSteps front (x, bytes)) = front := by
  rcases Nat.eq_or_lt_of_le hx with rfl | hlt
  · have hsteps : pieceSteps x (x, bytes) = [.erase (sectorOf x), .program x bytes] := by
      simp [pieceSteps, opening]
    exact .inl ⟨rfl, hsteps, by rw [hsteps]; rfl⟩
  · have hsteps : pieceSteps front (x, bytes) = [.program x bytes] := by
      simp [pieceSteps, opening, Nat.not_le.mpr hlt]
    refine .inr ⟨?_, hsteps, by rw [hsteps]; rfl⟩
    simp only [sectorEnd, sectorOf, sectorSize_eq] at *
    omega

/-- The front stays at the end of a sector, and beyond the piece's. -/
theorem frontAfter_pieceSteps (hmod : front % sectorSize = 0) (hx : x ≤ front) (bytes : List UInt8) :
    frontAfter front (pieceSteps front (x, bytes)) % sectorSize = 0 ∧
      sectorEnd x ≤ frontAfter front (pieceSteps front (x, bytes)) := by
  obtain ⟨-, -, hfront⟩ | ⟨hend, -, hfront⟩ := pieceSteps_cases hmod hx bytes <;> rw [hfront]
  · exact ⟨sectorEnd_mod x, Nat.le_refl _⟩
  · exact ⟨hmod, hend⟩

theorem step_of_mem_pieceSteps {step : FlashOp} {piece : Nat × List UInt8}
    (h : step ∈ pieceSteps front piece) : step = (faultOf step).step piece := by
  rw [pieceSteps, opening] at h
  split at h <;> simp only [List.cons_append, List.nil_append, List.mem_cons, List.not_mem_nil,
    or_false] at h
  · rcases h with rfl | rfl <;> rfl
  · rw [h]
    rfl

/-- Where a step comes, it is one for a piece, and the steps before have programmed all pieces before. -/
theorem exists_piece_of_steps {ps : List (Nat × List UInt8)} {ops rest : List FlashOp} {step : FlashOp}
    (h : steps front ps = ops ++ step :: rest) :
    ∃ before piece after, ps = before ++ piece :: after ∧ step = (faultOf step).step piece ∧
      ∀ p ∈ before, .program p.1 p.2 ∈ ops := by
  induction ps generalizing front ops with
  | nil => simp [steps] at h
  | cons piece ps ih =>
    have hprogram : .program piece.1 piece.2 ∈ pieceSteps front piece := by simp [pieceSteps]
    rw [steps, List.append_eq_append_iff] at h
    obtain ⟨ops', rfl, hrest⟩ | ⟨others, hpiece, hrest⟩ := h
    · obtain ⟨before, piece', after, rfl, hstep, hbefore⟩ := ih hrest
      refine ⟨piece :: before, piece', after, rfl, hstep, ?_⟩
      simp only [List.mem_cons, forall_eq_or_imp, List.mem_append]
      exact ⟨.inl hprogram, fun p hp => .inr (hbefore p hp)⟩
    · cases others with
      | nil =>
        -- the piece is done, and the step is the first one for the next piece
        rw [List.append_nil] at hpiece
        have hnext : steps (frontAfter front (pieceSteps front piece)) ps = [] ++ step :: rest := hrest.symm
        obtain ⟨before, piece', after, rfl, hstep, hbefore⟩ := ih hnext
        refine ⟨piece :: before, piece', after, rfl, hstep, ?_⟩
        simp only [List.mem_cons, forall_eq_or_imp]
        exact ⟨hpiece ▸ hprogram, fun p hp => absurd (hbefore p hp) List.not_mem_nil⟩
      | cons op others =>
        obtain ⟨rfl, -⟩ := List.cons.inj hrest
        have hmem : step ∈ pieceSteps front piece := by simp [hpiece]
        exact ⟨[], piece, ps, rfl, step_of_mem_pieceSteps hmem, by simp⟩

/-! ## The order of the steps -/

theorem rank_pieceSteps (hmod : front % sectorSize = 0) (hx : x ≤ front) (bytes : List UInt8) :
    (pieceSteps front (x, bytes)).Pairwise (·.rank < ·.rank) ∧
      ∀ op ∈ pieceSteps front (x, bytes), 2 * x ≤ op.rank ∧ op.rank ≤ 2 * x + 1 := by
  obtain ⟨rfl, hsteps, -⟩ | ⟨-, hsteps, -⟩ := pieceSteps_cases hmod hx bytes <;> rw [hsteps]
  · have hstart : sectorOf x * sectorSize = x := Nat.div_mul_cancel (Nat.dvd_of_mod_eq_zero hmod)
    simp [FlashOp.rank, hstart]
  · simp [FlashOp.rank]

/-- The steps for a run of bytes go up from its first byte to its last. -/
theorem pairwise_rank_steps (hmod : front % sectorSize = 0) (hx : x ≤ front) :
    (steps front (pieces x bytes)).Pairwise (·.rank < ·.rank) ∧
      ∀ op ∈ steps front (pieces x bytes), 2 * x ≤ op.rank ∧ op.rank < 2 * (x + bytes.length) := by
  fun_induction pieces x bytes generalizing front with
  | case1 x => simp [steps]
  | case2 x b bs ih =>
    have hlt := lt_sectorEnd x
    obtain ⟨hpair, hpiece⟩ := rank_pieceSteps hmod hx ((b :: bs).take (sectorEnd x - x))
    obtain ⟨hmod', hend⟩ := frontAfter_pieceSteps hmod hx ((b :: bs).take (sectorEnd x - x))
    obtain ⟨hpair', hrest⟩ := ih hmod' hend
    have hlength : ((b :: bs).drop (sectorEnd x - x)).length = bs.length + 1 - (sectorEnd x - x) := by
      simp
    rw [hlength] at hrest
    rw [steps, List.pairwise_append]
    refine ⟨⟨hpair, hpair', fun op hop op' hop' => ?_⟩, fun op hop => ?_⟩
    · have := (hpiece op hop).2
      have := (hrest op' hop').1
      omega
    · rw [List.length_cons]
      rcases List.mem_append.mp hop with hop | hop
      · have := hpiece op hop
        omega
      · have := hrest op hop
        omega

namespace Writer

variable {w : Writer}

/-! ## What comes of the steps -/

/-- `w` after operations that it has brought about. -/
def carryOut (w : Writer) (ops : List FlashOp) : Writer :=
  w.advance (frontAfter w.cursor.erasedEnd ops) ops

@[simp] theorem carryOut_nil (w : Writer) : w.carryOut [] = w := rfl

theorem carryOut_append (w : Writer) (ops ops' : List FlashOp) :
    w.carryOut (ops ++ ops') = (w.carryOut ops).carryOut ops' := by
  rw [carryOut, carryOut, carryOut, advance_advance, erasedEnd_advance, frontAfter_append]

@[simp] theorem flash_carryOut (w : Writer) (ops : List FlashOp) :
    (w.carryOut ops).flash = w.flash.performAll ops := rfl

/-- Goes on where all went well so far; a fault is the end. -/
def resume (r : Except WriteFault Unit × Writer) (next : Writer → Except WriteFault Unit × Writer) :
    Except WriteFault Unit × Writer :=
  match r with
  | (.ok (), w) => next w
  | (.error fault, w) => (.error fault, w)

@[simp] theorem resume_ok (w : Writer) (next : Writer → Except WriteFault Unit × Writer) :
    resume (.ok (), w) next = next w := rfl

@[simp] theorem resume_error (fault : WriteFault) (w : Writer)
    (next : Writer → Except WriteFault Unit × Writer) :
    resume (.error fault, w) next = (.error fault, w) := rfl

/-- What comes of steps in order: all are carried out, or those before the first that the flash refuses. -/
inductive Tries (w : Writer) (todo : List FlashOp) : Except WriteFault Unit × Writer → Prop where
  | done : Tries w todo (.ok (), w.carryOut todo)
  | stopped {ops rest : List FlashOp} {step : FlashOp} (split : todo = ops ++ step :: rest)
      (refused : (w.carryOut ops).flash.Refuses step) :
      Tries w todo (.error (faultOf step), w.carryOut ops)

theorem Tries.resume {todo todo' : List FlashOp} {r : Except WriteFault Unit × Writer}
    {next : Writer → Except WriteFault Unit × Writer} (h : w.Tries todo r)
    (hnext : (w.carryOut todo).Tries todo' (next (w.carryOut todo))) :
    w.Tries (todo ++ todo') (resume r next) := by
  cases h with
  | stopped split refused => exact .stopped (by rw [split, List.append_assoc, List.cons_append]) refused
  | done =>
    rw [resume_ok]
    generalize next (w.carryOut todo) = r at hnext
    cases hnext with
    | done =>
      rw [← carryOut_append]
      exact .done
    | stopped split refused =>
      rw [← carryOut_append] at refused ⊢
      exact .stopped (by rw [split, List.append_assoc]) refused

theorem tries_openSector (w : Writer) (x : Nat) :
    w.Tries (opening w.cursor.erasedEnd x) (w.openSector x) := by
  unfold openSector opening
  split
  · split
    · rename_i fault herase
      have hrefused : (w.carryOut []).flash.Refuses (.erase (sectorOf x)) := ⟨fault, herase⟩
      exact .stopped rfl hrefused
    · rename_i g hg
      obtain ⟨-, -, rfl⟩ := Flash.erase_eq_ok_iff.mp hg
      exact .done
  · exact .done

theorem tries_programPiece (w : Writer) (piece : Nat × List UInt8) :
    w.Tries (pieceSteps w.cursor.erasedEnd piece) (w.programPiece piece.1 piece.2) := by
  have hopen := w.tries_openSector piece.1
  unfold programPiece pieceSteps
  generalize w.openSector piece.1 = r at hopen ⊢
  cases hopen with
  | stopped split refused => exact .stopped (by rw [split, List.append_assoc, List.cons_append]) refused
  | done =>
    dsimp only
    split
    · rename_i fault hprogram
      exact .stopped rfl ⟨fault, hprogram⟩
    · rename_i g hg
      obtain ⟨-, -, rfl⟩ := Flash.program_eq_ok_iff.mp hg
      have hdone : w.Tries (opening w.cursor.erasedEnd piece.1 ++ [.program piece.1 piece.2]) _ := .done
      rw [carryOut_append] at hdone
      exact hdone

theorem programPieces_cons (w : Writer) (piece : Nat × List UInt8) (rest : List (Nat × List UInt8)) :
    w.programPieces (piece :: rest) = resume (w.programPiece piece.1 piece.2) (·.programPieces rest) := by
  rw [programPieces]
  split <;> rename_i hpiece <;> rw [hpiece] <;> rfl

/-- Pieces are programmed step by step, by induction on the pieces. -/
theorem tries_programPieces (w : Writer) (ps : List (Nat × List UInt8)) :
    w.Tries (steps w.cursor.erasedEnd ps) (w.programPieces ps) := by
  induction ps generalizing w with
  | nil => exact .done
  | cons piece ps ih =>
    rw [programPieces_cons, steps]
    exact (w.tries_programPiece piece).resume (ih _)

/-! ## A flush -/

/-- The steps of a flush. -/
def plan (w : Writer) : List FlashOp :=
  steps w.cursor.erasedEnd (pieces (w.cursor.base + w.cursor.flushed) w.staged)

/-- The staged bytes count as programmed. -/
def drain (w : Writer) : Writer :=
  { w with cursor := { w.cursor with flushed := w.cursor.flushed + w.cursor.pending, pending := 0 } }

theorem drain_eq_self (h : w.cursor.pending = 0) : w.drain = w := by
  obtain ⟨⟨base, flushed, pending, front⟩, arena, flash⟩ := w
  obtain rfl : pending = 0 := h
  rfl

/-- A flush carries out its plan, or the steps before one that the flash refuses, and then its bytes stay
staged. -/
theorem flush_cases (w : Writer) :
    w.flush = (.ok (), (w.carryOut w.plan).drain) ∨
      ∃ ops step rest, w.plan = ops ++ step :: rest ∧ (w.carryOut ops).flash.Refuses step ∧
        w.flush = (.error (faultOf step), w.carryOut ops) := by
  unfold flush
  split
  · rename_i hpending
    have hplan : w.plan = [] := by
      rw [plan, staged_eq_nil hpending, pieces_nil]
      rfl
    rw [hplan, carryOut_nil, drain_eq_self hpending]
    exact .inl rfl
  · have htries : w.Tries w.plan _ := w.tries_programPieces _
    generalize w.programPieces (pieces (w.cursor.base + w.cursor.flushed) w.staged) = r at htries ⊢
    cases htries with
    | done => exact .inl rfl
    | stopped split refused => exact .inr ⟨_, _, _, split, refused, rfl⟩

end Writer

end Image

end BootSlots
