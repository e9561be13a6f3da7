import BootSlots.Proofs.Device.FlashHistory
import BootSlots.Image.Writer

/-
  A stream on its way to the flash, piece by piece. Each sector is erased when the first byte for it comes,
  so the erased front runs ahead of the programmed bytes by less than a sector.

  Between the programmed bytes and the front a cell is blank or already holds its byte: a piece that fails
  after its sector was erased, or a flush that is tried again, leaves it so, and programming the same byte
  once more changes nothing.

  Proved:
  * `Laid.openSector`, `Laid.programPiece`: one sector, one piece.
  * `Laid.programPieces`: the rest of the stream, up to the piece that fails. Where it does not fail, the
    whole stream is on the flash; without faults it does not fail.
-/

namespace BootSlots.Image

@[simp] theorem pieces_nil (address : Nat) : pieces address [] = [] := by
  rw [pieces]

namespace Writer

/-- The first `n` bytes of the stream `d` are programmed, and no sector beyond the stream is erased. -/
structure Laid (w : Writer) (d : List UInt8) (n : Nat) : Prop where
  base_mod : w.cursor.base % sectorSize = 0
  front_mod : w.cursor.erasedEnd % sectorSize = 0
  le_front : w.cursor.base + n ≤ w.cursor.erasedEnd
  front_lt : w.cursor.erasedEnd < w.cursor.base + d.length + sectorSize
  cell : ∀ i, w.cursor.base + i < w.cursor.erasedEnd →
    n ≤ i ∧ w.flash.cells[w.cursor.base + i]? = some erased ∨
      i < d.length ∧ w.flash.cells[w.cursor.base + i]? = d[i]?

/-- `w'` goes on where `w` was, after operations in sectors that start in `[base, limit)`. -/
structure Leads (w : Writer) (limit : Nat) (w' : Writer) : Prop where
  base : w'.cursor.base = w.cursor.base
  room : w'.arena.size = w.arena.size
  flash : ∃ ops, w'.flash = w.flash.performAll ops ∧ ∀ op ∈ ops, op.Within w.cursor.base limit

theorem Leads.refl (w : Writer) (limit : Nat) : w.Leads limit w :=
  ⟨rfl, rfl, [], rfl, nofun⟩

theorem Leads.trans {w w' w'' : Writer} {limit limit' : Nat} (h : w.Leads limit w')
    (h' : w'.Leads limit' w'') (hle : limit ≤ limit') : w.Leads limit' w'' := by
  obtain ⟨ops, hf, hops⟩ := h.flash
  obtain ⟨ops', hf', hops'⟩ := h'.flash
  refine ⟨h'.base.trans h.base, h'.room.trans h.room, ops ++ ops', ?_, ?_⟩
  · rw [hf', hf, Flash.performAll_append]
  · intro op hop
    rcases List.mem_append.mp hop with hop | hop
    · exact (hops op hop).mono hle
    · exact h.base ▸ hops' op hop

theorem Leads.mono {w w' : Writer} {limit limit' : Nat} (h : w.Leads limit w') (hle : limit ≤ limit') :
    w.Leads limit' w' :=
  h.trans (.refl w' limit') hle

theorem Leads.unhindered {w w' : Writer} {limit limit' : Nat} (hl : w.Leads limit' w')
    (h : w.flash.Unhindered limit) : w'.flash.Unhindered limit := by
  obtain ⟨ops, hf, -⟩ := hl.flash
  rw [hf]
  exact h.performAll ops

/-! ## One sector -/

variable {w : Writer} {d : List UInt8} {n : Nat}

/-- `w` after operations on its flash, with another erased front. -/
def advance (w : Writer) (front : Nat) (ops : List FlashOp) : Writer :=
  { w with cursor := { w.cursor with erasedEnd := front }, flash := w.flash.performAll ops }

@[simp] theorem base_advance (w : Writer) (front : Nat) (ops : List FlashOp) :
    (w.advance front ops).cursor.base = w.cursor.base := rfl

@[simp] theorem erasedEnd_advance (w : Writer) (front : Nat) (ops : List FlashOp) :
    (w.advance front ops).cursor.erasedEnd = front := rfl

@[simp] theorem cells_advance (w : Writer) (front : Nat) (ops : List FlashOp) :
    (w.advance front ops).flash.cells = w.flash.cells.replay ops :=
  Flash.cells_performAll _ _

theorem advance_advance (w : Writer) (front front' : Nat) (ops ops' : List FlashOp) :
    (w.advance front ops).advance front' ops' = w.advance front' (ops ++ ops') := by
  simp only [advance, Flash.performAll_append]

theorem leads_advance (front : Nat) {limit : Nat} {ops : List FlashOp}
    (h : ∀ op ∈ ops, op.Within w.cursor.base limit) : w.Leads limit (w.advance front ops) :=
  ⟨rfl, rfl, ops, rfl, h⟩

theorem Laid.mono {m : Nat} (h : w.Laid d m) (hle : n ≤ m) : w.Laid d n where
  base_mod := h.base_mod
  front_mod := h.front_mod
  le_front := Nat.le_trans (Nat.add_le_add_left hle _) h.le_front
  front_lt := h.front_lt
  cell i hi := (h.cell i hi).imp_left fun hl => ⟨Nat.le_trans hle hl.1, hl.2⟩

/-- Only the two ends of the cursor and the cells from the base on matter. -/
theorem Laid.congr {w' : Writer} (h : w.Laid d n) (hbase : w'.cursor.base = w.cursor.base)
    (hfront : w'.cursor.erasedEnd = w.cursor.erasedEnd)
    (hcells : ∀ x, w.cursor.base ≤ x → w'.flash.cells[x]? = w.flash.cells[x]?) : w'.Laid d n := by
  refine ⟨?_, ?_, ?_, ?_, ?_⟩
  · rw [hbase]
    exact h.base_mod
  · rw [hfront]
    exact h.front_mod
  · rw [hbase, hfront]
    exact h.le_front
  · rw [hbase, hfront]
    exact h.front_lt
  · intro i hi
    rw [hbase, hfront] at hi
    rw [hbase, hcells _ (Nat.le_add_right _ _)]
    exact h.cell i hi

/-- The bytes programmed so far are in their cells. -/
theorem Laid.getElem?_cells (h : w.Laid d n) {i : Nat} (hi : i < n) :
    w.flash.cells[w.cursor.base + i]? = d[i]? := by
  rcases h.cell i (Nat.lt_of_lt_of_le (Nat.add_lt_add_left hi _) h.le_front) with hl | hr
  · omega
  · exact hr.2

/-- A freshly erased sector joins the front. -/
theorem Laid.erase (h : w.Laid d n) (hn : n < d.length)
    (hfront : w.cursor.erasedEnd = w.cursor.base + n)
    (hsize : sectorOf (w.cursor.base + n) < w.flash.cells.size / sectorSize) :
    (w.advance (sectorEnd (w.cursor.base + n)) [.erase (sectorOf (w.cursor.base + n))]).Laid d n := by
  have hmod : (w.cursor.base + n) % sectorSize = 0 := hfront ▸ h.front_mod
  have hend : sectorEnd (w.cursor.base + n) = w.cursor.base + n + sectorSize := by
    simp only [sectorEnd, sectorOf, sectorSize_eq] at *
    omega
  constructor
  · rw [base_advance]
    exact h.base_mod
  · rw [erasedEnd_advance]
    exact sectorEnd_mod _
  · rw [base_advance, erasedEnd_advance]
    exact Nat.le_of_lt (lt_sectorEnd _)
  · rw [base_advance, erasedEnd_advance, hend]
    omega
  · intro i hi
    rw [base_advance, erasedEnd_advance, hend] at hi
    rw [base_advance, cells_advance, Memory.replay_cons, Memory.replay_nil]
    by_cases hin : i < n
    · have hout : ¬ (FlashOp.erase (sectorOf (w.cursor.base + n))).Covers (w.cursor.base + i) := by
        simp only [FlashOp.Covers, sectorOf, sectorSize_eq] at *
        omega
      rw [FlashOp.getElem?_applyTo_of_not_covers hout, h.getElem?_cells hin]
      exact .inr ⟨by omega, rfl⟩
    · have hsec : sectorOf (w.cursor.base + n) = sectorOf (w.cursor.base + i) := by
        simp only [sectorOf, sectorSize_eq] at *
        omega
      refine .inl ⟨Nat.not_lt.mp hin, ?_⟩
      rw [hsec]
      apply FlashOp.getElem?_applyTo_erase
      simp only [sectorOf, sectorSize_eq] at *
      omega

theorem Laid.openSector (h : w.Laid d n) (hn : n < d.length) :
    ∃ front ops, (w.openSector (w.cursor.base + n)).2 = w.advance front ops ∧
      (∀ op ∈ ops, op.Within w.cursor.base (w.cursor.base + d.length)) ∧
      (w.advance front ops).Laid d n ∧
      ((w.openSector (w.cursor.base + n)).1 = .ok () → sectorEnd (w.cursor.base + n) ≤ front) ∧
      (w.flash.Unhindered (w.cursor.base + d.length) →
        (w.openSector (w.cursor.base + n)).1 = .ok ()) := by
  have hsize : w.flash.Unhindered (w.cursor.base + d.length) →
      sectorOf (w.cursor.base + n) < w.flash.cells.size / sectorSize := by
    intro hu
    have := hu.fits
    have := w.flash.size_mod
    simp only [sectorOf, sectorSize_eq] at *
    omega
  unfold Writer.openSector
  split
  · rename_i hle
    have hfront := Nat.le_antisymm hle h.le_front
    split
    · rename_i fault herr
      refine ⟨w.cursor.erasedEnd, [], rfl, List.forall_mem_nil _, h, fun hok => ?_, fun hu => ?_⟩
      · cases hok
      · have hfree : w.flash.faults.erase ≠ some (sectorOf (w.cursor.base + n)) := by simp [hu.erase]
        cases herr.symm.trans (Flash.erase_eq_ok_iff.mpr ⟨hsize hu, hfree, rfl⟩)
    · rename_i g hg
      obtain ⟨hlt, -, rfl⟩ := Flash.erase_eq_ok_iff.mp hg
      refine ⟨_, [.erase (sectorOf (w.cursor.base + n))], rfl, ?_, h.erase hn hfront hlt,
        fun _ => Nat.le_refl _, fun _ => rfl⟩
      intro op hop x hx
      obtain rfl := List.mem_singleton.mp hop
      have hmod := hfront ▸ h.front_mod
      simp only [FlashOp.Covers] at hx
      rw [sectorStart, hx, ← sectorStart, sectorStart_eq hmod]
      omega
  · rename_i hlt
    refine ⟨w.cursor.erasedEnd, [], rfl, List.forall_mem_nil _, h, fun _ => ?_, fun _ => rfl⟩
    have := h.front_mod
    simp only [sectorEnd, sectorOf, sectorSize_eq] at *
    omega

/-- The bytes that follow are programmed below the front. -/
theorem Laid.program (h : w.Laid d n) {bytes : List UInt8}
    (hend : w.cursor.base + n + bytes.length ≤ w.cursor.erasedEnd)
    (hbytes : ∀ j < bytes.length, bytes[j]? = d[n + j]?) :
    (w.advance w.cursor.erasedEnd [.program (w.cursor.base + n) bytes]).Laid d (n + bytes.length) := by
  refine ⟨h.base_mod, h.front_mod, ?_, h.front_lt, ?_⟩
  · rwa [advance, ← Nat.add_assoc]
  · intro i hi
    simp only [advance, Flash.cells_performAll, Memory.replay_cons, Memory.replay_nil] at hi ⊢
    by_cases hin : n ≤ i ∧ i < n + bytes.length
    · obtain ⟨j, rfl⟩ := Nat.exists_eq_add_of_le hin.1
      have hj : j < bytes.length := by omega
      have hb := List.getElem?_eq_getElem hj
      have hd : d[n + j]? = some bytes[j] := (hbytes j hj).symm.trans hb
      -- the cell is blank or holds the byte already, so programming the byte leaves the byte
      have hcell : ∃ c, w.flash.cells[w.cursor.base + n + j]? = some c ∧ c &&& bytes[j] = bytes[j] := by
        rw [Nat.add_assoc]
        rcases h.cell (n + j) hi with hl | hr
        · exact ⟨erased, hl.2, erased_and _⟩
        · exact ⟨bytes[j], hr.2.trans hd, UInt8.and_self⟩
      obtain ⟨c, hc, hand⟩ := hcell
      refine .inr ⟨(List.getElem?_eq_some_iff.mp hd).1, ?_⟩
      rw [← Nat.add_assoc, FlashOp.getElem?_applyTo_program hb hc, hand, hd]
    · rw [FlashOp.getElem?_applyTo_of_not_covers (by simp only [FlashOp.Covers]; omega)]
      rcases h.cell i hi with hl | hr
      · exact .inl ⟨by omega, hl.2⟩
      · exact .inr hr

theorem Laid.programPiece (h : w.Laid d n) (bytes : List UInt8) (hn : n < d.length)
    (hend : w.cursor.base + n + bytes.length ≤ sectorEnd (w.cursor.base + n))
    (hlen : n + bytes.length ≤ d.length) (hbytes : ∀ j < bytes.length, bytes[j]? = d[n + j]?) :
    ∃ front ops, (w.programPiece (w.cursor.base + n) bytes).2 = w.advance front ops ∧
      (∀ op ∈ ops, op.Within w.cursor.base (w.cursor.base + d.length)) ∧
      (w.advance front ops).Laid d n ∧
      ((w.programPiece (w.cursor.base + n) bytes).1 = .ok () →
        (w.advance front ops).Laid d (n + bytes.length)) ∧
      (w.flash.Unhindered (w.cursor.base + d.length) →
        (w.programPiece (w.cursor.base + n) bytes).1 = .ok ()) := by
  obtain ⟨front, ops, heq, hops, hlaid, hok, hfree⟩ := h.openSector hn
  unfold Writer.programPiece
  split
  · rename_i fault w' hopen
    rw [hopen] at heq hfree
    exact ⟨front, ops, heq, hops, hlaid, nofun, fun hu => nomatch hfree hu⟩
  · rename_i w' hopen
    rw [hopen] at heq hok
    obtain rfl : w' = w.advance front ops := heq
    split
    · rename_i fault herr
      refine ⟨front, ops, rfl, hops, hlaid, nofun, fun hu => ?_⟩
      have hu' := (leads_advance front hops).unhindered hu
      have hfits : w.cursor.base + n + bytes.length ≤ (w.advance front ops).flash.cells.size :=
        Nat.le_trans (by omega) hu'.fits
      have hokp := Flash.program_eq_ok_iff.mpr
        ⟨hfits, by rw [Flash.programFault, hu'.program], rfl⟩
      exact nomatch herr.symm.trans hokp
    · rename_i g hg
      obtain ⟨-, -, rfl⟩ := Flash.program_eq_ok_iff.mp hg
      have hprog := hlaid.program (Nat.le_trans hend (hok rfl)) hbytes
      rw [advance_advance, erasedEnd_advance, base_advance] at hprog
      refine ⟨front, ops ++ [.program (w.cursor.base + n) bytes], ?_, ?_, ?_, fun _ => hprog,
        fun _ => rfl⟩
      · rw [← advance_advance]
        rfl
      · intro op hop x hx
        rcases List.mem_append.mp hop with hop | hop
        · exact hops op hop x hx
        · obtain rfl := List.mem_singleton.mp hop
          have := le_sectorStart h.base_mod (Nat.le_trans (Nat.le_add_right _ n) hx.1)
          have := sectorStart_le x
          have := hx.2
          omega
      · exact hprog.mono (Nat.le_add_right _ _)

/-! ## The rest of the stream -/

/-- Programs what of the stream is not programmed yet, or stops at the piece that fails. -/
theorem Laid.programPieces (h : w.Laid d n) (hn : n ≤ d.length) :
    ∃ front ops, (w.programPieces (pieces (w.cursor.base + n) (d.drop n))).2 = w.advance front ops ∧
      (∀ op ∈ ops, op.Within w.cursor.base (w.cursor.base + d.length)) ∧
      (w.advance front ops).Laid d n ∧
      ((w.programPieces (pieces (w.cursor.base + n) (d.drop n))).1 = .ok () →
        (w.advance front ops).Laid d d.length) ∧
      (w.flash.Unhindered (w.cursor.base + d.length) →
        (w.programPieces (pieces (w.cursor.base + n) (d.drop n))).1 = .ok ()) := by
  generalize hl : d.drop n = l
  generalize hx : w.cursor.base + n = x
  fun_induction pieces x l generalizing w n with
  | case1 x =>
    have hend : n = d.length := Nat.le_antisymm hn (List.drop_eq_nil_iff.mp hl)
    exact ⟨_, [], rfl, List.forall_mem_nil _, h, fun _ => hend ▸ h, fun _ => rfl⟩
  | case2 x b bs ih =>
    subst hx
    generalize hk : sectorEnd (w.cursor.base + n) - (w.cursor.base + n) = k at *
    have hkpos : 0 < k := by
      have := lt_sectorEnd (w.cursor.base + n)
      omega
    have hlen : d.length - n = bs.length + 1 := by
      rw [← List.length_drop, hl, List.length_cons]
    have htake : ((b :: bs).take k).length = min k (bs.length + 1) := by
      rw [List.length_take, List.length_cons]
    have hbytes : ∀ j < ((b :: bs).take k).length, ((b :: bs).take k)[j]? = d[n + j]? := by
      intro j hj
      rw [List.getElem?_take, if_pos (by omega), ← hl, List.getElem?_drop]
    obtain ⟨front, ops, heq, hops, hlaid, hok, hfree⟩ :=
      h.programPiece ((b :: bs).take k) (by omega) (by omega) (by omega) hbytes
    unfold Writer.programPieces
    split
    · rename_i fault w' hpiece
      rw [hpiece] at heq hfree
      refine ⟨front, ops, heq, hops, hlaid, fun hok => ?_, fun hu => ?_⟩
      · cases hok
      · cases hfree hu
    · rename_i w' hpiece
      rw [hpiece] at heq hok
      obtain rfl : w' = w.advance front ops := heq
      by_cases hmore : k < bs.length + 1
      · have hnext := hok rfl
        rw [htake, Nat.min_eq_left (Nat.le_of_lt hmore)] at hnext
        obtain ⟨front', ops', heq', hops', hlaid', hok', hfree'⟩ := ih hnext (by omega)
          (by rw [← List.drop_drop, hl]) (by simp only [advance]; omega)
        rw [advance_advance] at heq' hlaid' hok'
        refine ⟨front', ops ++ ops', heq', ?_, hlaid'.mono (Nat.le_add_right _ _), hok',
          fun hu => hfree' ((leads_advance front hops).unhindered hu)⟩
        intro op hop
        rcases List.mem_append.mp hop with hop | hop
        · exact hops op hop
        · exact hops' op hop
      · -- the last piece
        have hnil : (b :: bs).drop k = [] := List.drop_eq_nil_iff.mpr (Nat.not_lt.mp hmore)
        rw [hnil, pieces_nil]
        have hdone := hok rfl
        rw [htake, Nat.min_eq_right (Nat.not_lt.mp hmore), show n + (bs.length + 1) = d.length by omega]
          at hdone
        exact ⟨front, ops, rfl, hops, hlaid, fun _ => hdone, fun _ => rfl⟩

end Writer

end BootSlots.Image
