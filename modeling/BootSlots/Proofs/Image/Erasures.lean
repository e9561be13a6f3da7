import BootSlots.Proofs.Image.Chunks
import BootSlots.Proofs.Image.Retries

/-
  Each sector once, and before anything is programmed there. The erased front moves between an erase and a
  program that may fail, and a flush that is tried again starts below it; still the operations of a writer
  erase one sector after the other and program erased sectors only, whatever fails and is tried again.

  Proved:
  * `ErasedFirst.of_append`: what is shown of operations holds of each initial part of them.
  * `ErasedFirst.steps`: the steps of a flush go on with it, from any place below the front.
  * `Does.flush`, `Does.push`: so does a call, whatever comes of it. A call that fails stops in a flush, with
    nothing done for the step that it stops at.
  * `Keeps.next`, `Keeps.after`: one call of a run, and the run.
  * `erased_once_before_programmed`: all of this at any time in a run.

  Addresses are not bounded here. On a flash that ends within the address space the writer stops at the end
  of the flash, as every operation beyond is refused.
-/

namespace BootSlots

/-! ## Erased sectors -/

/-- The sectors that operations erase, in order. -/
def erasures (ops : List FlashOp) : List Nat :=
  ops.filterMap fun
    | .erase sector => some sector
    | .program _ _ => none

/-- The operations erase one sector after the other from that of `base` on, none twice, and each program
keeps to one sector, which is erased before. -/
structure ErasedFirst (base : Nat) (ops : List FlashOp) : Prop where
  ascending : erasures ops = List.range' (sectorOf base) (erasures ops).length
  once : (erasures ops).Nodup
  programmed : ∀ before address bytes after, ops = before ++ .program address bytes :: after →
    sectorOf address ∈ erasures before ∧ address + bytes.length ≤ sectorEnd address

/-- First address from `base` on that the operations have not erased. -/
def erasedFront (base : Nat) (ops : List FlashOp) : Nat :=
  base + sectorSize * (erasures ops).length

@[simp] theorem erasures_nil : erasures [] = [] := rfl

@[simp] theorem erasures_append (ops ops' : List FlashOp) :
    erasures (ops ++ ops') = erasures ops ++ erasures ops' :=
  List.filterMap_append

@[simp] theorem erasures_erase (sector : Nat) (ops : List FlashOp) :
    erasures (.erase sector :: ops) = sector :: erasures ops := rfl

@[simp] theorem erasures_program (address : Nat) (bytes : List UInt8) (ops : List FlashOp) :
    erasures (.program address bytes :: ops) = erasures ops := rfl

variable {base : Nat} {ops ops' : List FlashOp}

theorem erasedFront_erase (base : Nat) (ops : List FlashOp) (sector : Nat) :
    erasedFront base (ops ++ [.erase sector]) = erasedFront base ops + sectorSize := by
  simp only [erasedFront, erasures_append, erasures_erase, erasures_nil, List.length_append,
    List.length_singleton, Nat.mul_succ, Nat.add_assoc]

theorem erasedFront_program (base : Nat) (ops : List FlashOp) (address : Nat) (bytes : List UInt8) :
    erasedFront base (ops ++ [.program address bytes]) = erasedFront base ops := by
  simp [erasedFront]

theorem erasedFront_mod (hbase : base % sectorSize = 0) (ops : List FlashOp) :
    erasedFront base ops % sectorSize = 0 := by
  simp only [erasedFront, sectorSize_eq] at *
  omega

theorem erasedFirst_nil (base : Nat) : ErasedFirst base [] where
  ascending := rfl
  once := List.nodup_nil
  programmed before address bytes after h := by simp at h

theorem ErasedFirst.mem_erasures_iff (h : ErasedFirst base ops) {sector : Nat} :
    sector ∈ erasures ops ↔
      sectorOf base ≤ sector ∧ sector < sectorOf base + (erasures ops).length := by
  rw [h.ascending, List.length_range', List.mem_range'_1]

theorem ErasedFirst.of_append (h : ErasedFirst base (ops ++ ops')) : ErasedFirst base ops where
  ascending := by
    have hsplit := h.ascending
    rw [erasures_append, eq_comm, List.range'_eq_append_iff] at hsplit
    obtain ⟨k, -, hfirst, -⟩ := hsplit
    rw [hfirst, List.length_range']
  once := by
    have honce := h.once
    rw [erasures_append] at honce
    exact (List.nodup_append.mp honce).1
  programmed before address bytes after heq := by
    refine h.programmed before address bytes (after ++ ops') ?_
    rw [heq, List.append_assoc, List.cons_append]

theorem eq_or_split_of_concat {op op' : FlashOp} {before after : List FlashOp}
    (h : ops ++ [op] = before ++ op' :: after) :
    ops = before ∧ op = op' ∨ ∃ after', ops = before ++ op' :: after' := by
  rcases List.eq_nil_or_concat after with rfl | ⟨after', last, rfl⟩
  · obtain ⟨hops, hlast⟩ := List.append_inj' h rfl
    exact .inl ⟨hops, List.head_eq_of_cons_eq hlast⟩
  · rw [List.concat_eq_append, ← List.cons_append, ← List.append_assoc] at h
    exact .inr ⟨after', (List.append_inj' h rfl).1⟩

/-- The next sector is erased. -/
theorem ErasedFirst.erase (h : ErasedFirst base ops) :
    ErasedFirst base (ops ++ [.erase (sectorOf base + (erasures ops).length)]) := by
  have hascending : erasures (ops ++ [.erase (sectorOf base + (erasures ops).length)]) =
      List.range' (sectorOf base) ((erasures ops).length + 1) := by
    rw [erasures_append, List.range'_1_concat, ← h.ascending]
    rfl
  refine ⟨?_, ?_, fun before address bytes after heq => ?_⟩
  · rw [hascending, List.length_range']
  · rw [hascending]
    exact List.nodup_range'
  · obtain ⟨-, hop⟩ | ⟨after', rfl⟩ := eq_or_split_of_concat heq
    · cases hop
    · exact h.programmed before address bytes after' rfl

/-- An erased sector is programmed. -/
theorem ErasedFirst.program (h : ErasedFirst base ops) {address : Nat} {bytes : List UInt8}
    (herased : sectorOf address ∈ erasures ops) (hend : address + bytes.length ≤ sectorEnd address) :
    ErasedFirst base (ops ++ [.program address bytes]) := by
  have hsame : erasures (ops ++ [.program address bytes]) = erasures ops := by simp
  refine ⟨?_, ?_, fun before address' bytes' after heq => ?_⟩
  · rw [hsame]
    exact h.ascending
  · rw [hsame]
    exact h.once
  · obtain ⟨rfl, hop⟩ | ⟨after', rfl⟩ := eq_or_split_of_concat heq
    · obtain ⟨rfl, rfl⟩ := FlashOp.program.inj hop
      exact ⟨herased, hend⟩
    · exact h.programmed before address' bytes' after' rfl

/-! ## The steps of a flush -/

namespace Image

/-- Where the next sector was erased, the front is at its end. -/
theorem frontAfter_eq (hbase : base % sectorSize = 0) (h : ErasedFirst base (ops ++ ops')) :
    frontAfter (erasedFront base ops) ops' = erasedFront base (ops ++ ops') := by
  induction ops' generalizing ops with
  | nil => rw [List.append_nil, frontAfter_nil]
  | cons op ops' ih =>
    rw [List.append_cons] at h ⊢
    rw [← ih h]
    cases op with
    | program address bytes => rw [frontAfter, erasedFront_program]
    | erase sector =>
      have hascending := h.of_append.ascending
      rw [erasures_append, erasures_erase, erasures_nil, List.length_append, List.length_singleton,
        List.range'_1_concat] at hascending
      obtain ⟨-, hlast⟩ := List.append_inj' hascending rfl
      obtain rfl := List.head_eq_of_cons_eq hlast
      have hnext : (sectorOf base + (erasures ops).length + 1) * sectorSize =
          erasedFront base ops + sectorSize := by
        simp only [erasedFront, sectorOf, sectorSize_eq] at *
        omega
      rw [frontAfter, erasedFront_erase, hnext]

theorem ErasedFirst.pieceSteps (hbase : base % sectorSize = 0) (h : ErasedFirst base ops) {x : Nat}
    (hx : base ≤ x) (hx' : x ≤ erasedFront base ops) {bytes : List UInt8}
    (hend : x + bytes.length ≤ sectorEnd x) :
    ErasedFirst base (ops ++ pieceSteps (erasedFront base ops) (x, bytes)) := by
  obtain ⟨hfront, hsteps, -⟩ | ⟨hlt, hsteps, -⟩ :=
    pieceSteps_cases (erasedFront_mod hbase ops) hx' bytes <;> rw [hsteps]
  · have hsector : sectorOf x = sectorOf base + (erasures ops).length := by
      simp only [erasedFront, sectorOf, sectorSize_eq] at *
      omega
    rw [List.append_cons]
    refine ErasedFirst.program ?_ (by simp) hend
    rw [hsector]
    exact h.erase
  · refine h.program ?_ hend
    rw [h.mem_erasures_iff]
    simp only [erasedFront, sectorEnd, sectorOf, sectorSize_eq] at *
    omega

/-- A flush from a place below the front goes on, by induction on the pieces. -/
theorem ErasedFirst.steps (hbase : base % sectorSize = 0) (h : ErasedFirst base ops) {x : Nat}
    (hx : base ≤ x) (hx' : x ≤ erasedFront base ops) (bytes : List UInt8) :
    ErasedFirst base (ops ++ steps (erasedFront base ops) (pieces x bytes)) := by
  fun_induction pieces x bytes generalizing ops with
  | case1 x =>
    rw [Image.steps, List.append_nil]
    exact h
  | case2 x b bs ih =>
    have hlt := lt_sectorEnd x
    have hlength : x + ((b :: bs).take (sectorEnd x - x)).length ≤ sectorEnd x := by
      rw [List.length_take]
      omega
    have hpiece := ErasedFirst.pieceSteps hbase h hx hx' hlength
    obtain ⟨-, hfront⟩ := frontAfter_pieceSteps (erasedFront_mod hbase ops) hx'
      ((b :: bs).take (sectorEnd x - x))
    have hnext := frontAfter_eq hbase hpiece
    rw [Image.steps, ← List.append_assoc, hnext]
    rw [hnext] at hfront
    exact ih hpiece (by omega) hfront

namespace Writer

variable {before : Flash} {w w₁ : Writer} {done : List FlashOp}

/-! ## One call -/

/-- The writer has carried out `ops` since its flash was `before`, and its front is where they say. -/
structure Keeps (base : Nat) (before : Flash) (ops : List FlashOp) (w : Writer) : Prop where
  stream : ∃ d, w.Stream d
  room : 0 < w.arena.size
  start : w.cursor.base = base
  flash : before.After ops w.flash
  erased : ErasedFirst base ops
  front : w.cursor.erasedEnd = erasedFront base ops

/-- Some piece of the staged bytes is not programmed, as the flash refuses a step for it. The pieces before
are among the operations `done`, the step is not. -/
def Halts (done : List FlashOp) (fault : WriteFault) (w : Writer) : Prop :=
  ∃ passed piece rest, pieces (w.cursor.base + w.cursor.flushed) w.staged = passed ++ piece :: rest ∧
    (∀ p ∈ passed, .program p.1 p.2 ∈ done) ∧ w.flash.Refuses (fault.step piece) ∧
      fault.step piece ∉ done

/-- A call that was begun at `w` after `ops` has come to `r`, and has carried out `done` so far. -/
structure Does (base : Nat) (before : Flash) (ops : List FlashOp) (w : Writer) (done : List FlashOp)
    (r : Except WriteFault Unit × Writer) : Prop where
  flash : r.2.flash = w.flash.performAll done
  keeps : r.2.Keeps base before (ops ++ done)
  /-- Where nothing failed, all of them are below the first byte to be programmed next. -/
  below : r.1 = .ok () → ∀ op ∈ done, op.rank < 2 * (base + r.2.cursor.flushed)
  halts : ∀ fault, r.1 = .error fault → r.2.Halts done fault

theorem keeps_start (hbase : base % sectorSize = 0) {arena : Memory} (harena : 0 < arena.size)
    (flash : Flash) : Keeps base flash [] ⟨.start base, arena, flash⟩ where
  stream := ⟨[], .start hbase arena flash⟩
  room := harena
  start := rfl
  flash := .refl flash
  erased := erasedFirst_nil base
  front := rfl

theorem Keeps.base_mod (h : w.Keeps base before ops) : base % sectorSize = 0 := by
  obtain ⟨d, hstream⟩ := h.stream
  rw [← h.start]
  exact hstream.laid.base_mod

/-- Operations that go on so leave another writer that keeps to them. -/
theorem Keeps.advance {w' : Writer} (h : w.Keeps base before ops) (herased : ErasedFirst base (ops ++ ops'))
    (hstream : ∃ d, w'.Stream d) (hroom : w'.arena.size = w.arena.size)
    (hstart : w'.cursor.base = w.cursor.base) (hflash : w'.flash = w.flash.performAll ops')
    (hfront : w'.cursor.erasedEnd = frontAfter w.cursor.erasedEnd ops') :
    w'.Keeps base before (ops ++ ops') where
  stream := hstream
  room := by
    rw [hroom]
    exact h.room
  start := hstart.trans h.start
  flash := by
    rw [hflash]
    exact h.flash.trans (Flash.after_performAll w.flash ops')
  erased := herased
  front := by rw [hfront, h.front, frontAfter_eq h.base_mod herased]

theorem Keeps.does (h : w.Keeps base before ops) : w.Does base before ops [] (.ok (), w) where
  flash := rfl
  keeps := by
    rw [List.append_nil]
    exact h
  below _ := List.forall_mem_nil _
  halts fault hfault := by cases hfault

/-- The plan of a flush goes on with what was done, and goes up from the first byte it is to program. -/
theorem Keeps.plan (h : w.Keeps base before ops) :
    ErasedFirst base (ops ++ w.plan) ∧ w.plan.Pairwise (·.rank < ·.rank) ∧
      ∀ op ∈ w.plan, 2 * (base + w.cursor.flushed) ≤ op.rank ∧
        op.rank < 2 * (base + w.cursor.flushed + w.cursor.pending) := by
  obtain ⟨d, hstream⟩ := h.stream
  have hfront : base + w.cursor.flushed ≤ erasedFront base ops := by
    rw [← h.front, ← h.start]
    exact hstream.laid.le_front
  have hstaged : w.staged.length ≤ w.cursor.pending := by
    rw [staged, Memory.length_slice]
    exact Nat.min_le_left _ _
  rw [Writer.plan, h.start, h.front]
  obtain ⟨hpair, hrank⟩ := pairwise_rank_steps (erasedFront_mod h.base_mod ops) hfront
  refine ⟨ErasedFirst.steps h.base_mod h.erased (Nat.le_add_right _ _) hfront _, hpair, fun op hop => ?_⟩
  have := hrank op hop
  omega

theorem Does.flush (h : w.Does base before ops done (.ok (), w₁)) :
    ∃ done', w.Does base before ops done' w₁.flush := by
  have hkeeps : w₁.Keeps base before (ops ++ done) := h.keeps
  have hbelow : ∀ op ∈ done, op.rank < 2 * (base + w₁.cursor.flushed) := h.below rfl
  obtain ⟨d, hstream⟩ := hkeeps.stream
  obtain ⟨hflushed, -⟩ := hstream.flush
  obtain ⟨herased, hpair, hrank⟩ := hkeeps.plan
  have hflash (ops' : List FlashOp) : (w₁.carryOut ops').flash = w.flash.performAll (done ++ ops') := by
    rw [Flash.performAll_append, ← h.flash]
    rfl
  obtain heq | ⟨ops', step, rest, hplan, hrefused, heq⟩ := w₁.flush_cases <;> rw [heq] at hflushed ⊢
  · refine ⟨done ++ w₁.plan, hflash w₁.plan, ?_, fun _ op hop => ?_, fun fault hfault => ?_⟩
    · rw [← List.append_assoc]
      exact hkeeps.advance herased ⟨d, hflushed⟩ rfl rfl rfl rfl
    · show op.rank < 2 * (base + (w₁.cursor.flushed + w₁.cursor.pending))
      rcases List.mem_append.mp hop with hop | hop
      · have := hbelow op hop
        omega
      · have := hrank op hop
        omega
    · cases hfault
  · rw [hplan, ← List.append_assoc] at herased
    refine ⟨done ++ ops', hflash ops', ?_, fun hok => ?_, fun fault hfault => ?_⟩
    · rw [← List.append_assoc]
      exact hkeeps.advance herased.of_append ⟨d, hflushed⟩ rfl rfl rfl rfl
    · cases hok
    · obtain rfl := Except.error.inj hfault
      obtain ⟨passed, piece, rest', hpieces, hstep, hpassed⟩ := exists_piece_of_steps hplan
      -- all that the call has done comes before the step
      have hpast : ∀ op ∈ done ++ ops', op.rank < step.rank := by
        intro op hop
        rw [hplan, List.pairwise_append] at hpair
        rcases List.mem_append.mp hop with hop | hop
        · have := hbelow op hop
          have := hrank step (by simp [hplan])
          omega
        · exact hpair.2.2 op hop step List.mem_cons_self
      refine ⟨passed, piece, rest', hpieces, fun p hp => List.mem_append_right done (hpassed p hp), ?_, ?_⟩
      · rw [← hstep]
        exact hrefused
      · rw [← hstep]
        exact fun hmem => Nat.lt_irrefl _ (hpast step hmem)

theorem Does.settle (h : w.Does base before ops done (.ok (), w₁)) :
    ∃ done', w.Does base before ops done' w₁.settle := by
  unfold Writer.settle
  split
  · exact h.flush
  · exact ⟨done, h⟩

theorem Does.stage (h : w.Does base before ops done (.ok (), w₁)) (hp : w₁.cursor.pending < w₁.arena.size)
    (byte : UInt8) : w.Does base before ops done (.ok (), w₁.stage byte) where
  flash := h.flash
  keeps := by
    obtain ⟨d, hstream⟩ := h.keeps.stream
    refine ⟨⟨_, hstream.stage hp byte⟩, ?_, h.keeps.start, h.keeps.flash, h.keeps.erased, h.keeps.front⟩
    rw [(leads_stage w₁ byte 0).room]
    exact h.keeps.room
  below := h.below
  halts fault hfault := by cases hfault

theorem Does.put (h : w.Does base before ops done (.ok (), w₁)) (byte : UInt8) :
    ∃ done', w.Does base before ops done' (w₁.put byte) := by
  obtain ⟨d, hstream⟩ := h.keeps.stream
  obtain ⟨-, hleads, hsettled, -⟩ := hstream.settle h.keeps.room
  obtain ⟨done', hsettle⟩ := h.settle
  rw [put_eq]
  generalize w₁.settle = r at hleads hsettled hsettle ⊢
  obtain ⟨_ | _, w₂⟩ := r
  · exact ⟨done', hsettle⟩
  · have hp : w₂.cursor.pending < w₂.arena.size := hleads.room ▸ (hsettled rfl).1
    exact (hsettle.stage hp byte).settle

/-- A push, by induction on the data. -/
theorem Does.push (h : w.Does base before ops done (.ok (), w₁)) (data : List UInt8) :
    ∃ done', w.Does base before ops done' (w₁.push data) := by
  induction data generalizing w₁ done with
  | nil => exact ⟨done, h⟩
  | cons byte data ih =>
    obtain ⟨done', hput⟩ := h.put byte
    rw [push_cons]
    generalize w₁.put byte = r at hput ⊢
    obtain ⟨_ | _, w₂⟩ := r
    · exact ⟨done', hput⟩
    · exact ih hput

/-! ## Runs -/

/-- What a call answers. -/
def answer (w : Writer) : Call → Except WriteFault Unit
  | .push data => (w.push data).1
  | .flush => w.flush.1
  | .setFaults _ => .ok ()

theorem Keeps.next (h : w.Keeps base before ops) (c : Call) :
    ∃ done, (w.next c).Keeps base before (ops ++ done) ∧ ∀ fault, w.answer c = .error fault →
      (w.next c).flash = w.flash.performAll done ∧ (w.next c).Halts done fault := by
  cases c with
  | push data =>
    obtain ⟨done, hdoes⟩ := h.does.push data
    exact ⟨done, hdoes.keeps, fun fault hfault => ⟨hdoes.flash, hdoes.halts fault hfault⟩⟩
  | flush =>
    obtain ⟨done, hdoes⟩ := h.does.flush
    exact ⟨done, hdoes.keeps, fun fault hfault => ⟨hdoes.flash, hdoes.halts fault hfault⟩⟩
  | setFaults faults =>
    obtain ⟨d, hstream⟩ := h.stream
    refine ⟨[], ?_, fun fault hfault => by cases hfault⟩
    rw [List.append_nil]
    exact ⟨⟨d, hstream.congr_flash fun _ _ => rfl⟩, h.room, h.start,
      ⟨h.flash.cells, h.flash.ops, h.flash.claimed⟩, h.erased, h.front⟩

theorem Keeps.after (h : w.Keeps base before ops) (calls : List Call) :
    ∃ done, (w.after calls).Keeps base before (ops ++ done) := by
  induction calls generalizing w ops with
  | nil =>
    refine ⟨[], ?_⟩
    rw [List.append_nil]
    exact h
  | cons c calls ih =>
    obtain ⟨done, hnext, -⟩ := h.next c
    obtain ⟨done', hrest⟩ := ih hnext
    exact ⟨done ++ done', by rw [← List.append_assoc]; exact hrest⟩

/-- A run of a new writer with any arena that is not empty, over faults that come and go, whatever fails and
is tried again: at any time each sector is erased once and before it is programmed, and a call that fails
has carried out nothing for the step that failed. -/
theorem erased_once_before_programmed (hbase : base % sectorSize = 0) {arena : Memory} {flash : Flash}
    (harena : 0 < arena.size) (calls : List Call) :
    (∃ log, flash.After log (after ⟨.start base, arena, flash⟩ calls).flash ∧
        ∀ log', log' <+: log → ErasedFirst base log') ∧
      ∀ c fault, (after ⟨.start base, arena, flash⟩ calls).answer c = .error fault →
        ∃ done, ((after ⟨.start base, arena, flash⟩ calls).next c).flash =
            (after ⟨.start base, arena, flash⟩ calls).flash.performAll done ∧
          ((after ⟨.start base, arena, flash⟩ calls).next c).Halts done fault := by
  obtain ⟨log, hrun⟩ := (keeps_start hbase harena flash).after calls
  rw [List.nil_append] at hrun
  refine ⟨⟨log, hrun.flash, ?_⟩, fun c fault hfault => ?_⟩
  · rintro log' ⟨rest, rfl⟩
    exact hrun.erased.of_append
  · obtain ⟨done, -, hhalts⟩ := hrun.next c
    exact ⟨done, hhalts fault hfault⟩

theorem pieces_two_bytes : pieces firstImageAddress [1, 2] = [(firstImageAddress, [1, 2])] := by
  have hroom : sectorEnd firstImageAddress - firstImageAddress = 4096 := by decide
  rw [pieces, hroom]
  simp

/-- A flush of two bytes into a sector that cannot be programmed. -/
theorem erased_once_before_programmed_hampered :
    firstImageAddress % sectorSize = 0 ∧ 0 < smallWriter.arena.size ∧
      ∃ fault done, (smallWriter.after (hamperedCalls.take 2)).flush.1 = .error fault ∧
        (smallWriter.after (hamperedCalls.take 2)).flush.2.flash =
          (smallWriter.after (hamperedCalls.take 2)).flash.performAll done ∧
        fault.step (firstImageAddress, [1, 2]) ∉ done := by
  have hbase : firstImageAddress % sectorSize = 0 := by decide
  have harena : 0 < smallWriter.arena.size := by decide
  have hstart : (⟨.start firstImageAddress, smallWriter.arena, staleFlash⟩ : Writer) = smallWriter := rfl
  obtain ⟨-, hfails⟩ := erased_once_before_programmed hbase harena (hamperedCalls.take 2)
  rw [hstart] at hfails
  have hstuck : (smallWriter.after (hamperedCalls.take 2)).flush.1 ≠ .ok () :=
    flush_of_stuck (by decide) rfl
  obtain heq | ⟨ops, step, -, -, -, heq⟩ := (smallWriter.after (hamperedCalls.take 2)).flush_cases
  · exact absurd (congrArg Prod.fst heq) hstuck
  · have hfault : (smallWriter.after (hamperedCalls.take 2)).flush.1 = .error (faultOf step) := by
      rw [heq]
    obtain ⟨done, hflash, passed, piece, rest, hpieces, -, -, hnot⟩ :=
      hfails .flush _ (by rw [answer]; exact hfault)
    rw [next] at hflash
    have hstaged : pieces firstImageAddress [1, 2] = passed ++ piece :: rest := by
      rw [next, heq] at hpieces
      exact hpieces
    rw [pieces_two_bytes] at hstaged
    cases passed with
    | nil =>
      obtain rfl := List.head_eq_of_cons_eq hstaged
      exact ⟨hbase, harena, _, done, hfault, hflash, hnot⟩
    | cons _ _ => simp at hstaged

end Writer

end Image

end BootSlots
