import BootSlots.Device.Flash

/-
  What a list of flash operations makes of the cells, and which cells it can touch at all. Everything that
  the engine does to a flash is such a list, so statements about power loss are statements on its initial
  parts, and "nothing else changes" is a statement on the sectors that its operations cover.

  Proved:
  * `getElem?_replay_of_not_covers`: a cell that no operation covers keeps its byte.
  * `After.trans`, `Reaches.trans`: device states linked by lists of operations, whatever faults are
    switched in between.
-/

namespace BootSlots

/-! ## Sectors -/

/-- First address of the sector that holds `address`. -/
def sectorStart (address : Nat) : Nat := sectorOf address * sectorSize

theorem sectorStart_le (address : Nat) : sectorStart address ≤ address :=
  Nat.div_mul_le_self _ _

theorem sectorStart_eq {address : Nat} (h : address % sectorSize = 0) :
    sectorStart address = address := by
  rw [sectorStart, sectorOf, Nat.div_mul_cancel (Nat.dvd_of_mod_eq_zero h)]

theorem le_sectorStart {start address : Nat} (hs : start % sectorSize = 0) (h : start ≤ address) :
    start ≤ sectorStart address := by
  simp only [sectorStart, sectorOf, sectorSize_eq] at *
  omega

theorem sectorOf_eq_iff {address sector : Nat} :
    sectorOf address = sector ↔
      sector * sectorSize ≤ address ∧ address < sector * sectorSize + sectorSize := by
  simp only [sectorOf, sectorSize_eq]
  omega

/-! ## One operation -/

theorem erased_and (b : UInt8) : erased &&& b = b := by
  apply UInt8.toNat_inj.mp
  have hb := b.toNat_lt
  rw [UInt8.toNat_and, Nat.and_comm, show erased.toNat = 2 ^ 8 - 1 from rfl,
    Nat.and_two_pow_sub_one_eq_mod, Nat.mod_eq_of_lt hb]

namespace FlashOp

/-- The operation may change the cell at that address. -/
def Covers : FlashOp → Nat → Prop
  | erase sector, x => sectorOf x = sector
  | program address bytes, x => address ≤ x ∧ x < address + bytes.length

/-- The operation keeps to sectors that start in `[start, limit)`. -/
def Within (start limit : Nat) (op : FlashOp) : Prop :=
  ∀ x, op.Covers x → start ≤ sectorStart x ∧ sectorStart x < limit

theorem Within.mono {start limit limit' : Nat} {op : FlashOp} (h : op.Within start limit)
    (hle : limit ≤ limit') : op.Within start limit' :=
  fun x hx => ⟨(h x hx).1, Nat.lt_of_lt_of_le (h x hx).2 hle⟩

theorem Within.not_covers_of_lt {start limit x : Nat} {op : FlashOp} (h : op.Within start limit)
    (hx : x < start) : ¬ op.Covers x :=
  fun hc => Nat.not_le.mpr (Nat.lt_of_le_of_lt (sectorStart_le x) hx) (h x hc).1

theorem Within.not_covers_of_ge {start limit x : Nat} {op : FlashOp} (h : op.Within start limit)
    (hl : limit % sectorSize = 0) (hx : limit ≤ x) : ¬ op.Covers x :=
  fun hc => Nat.not_lt.mpr (le_sectorStart hl hx) (h x hc).2

theorem getElem?_applyTo_of_not_covers {op : FlashOp} {x : Nat} (h : ¬ op.Covers x) (m : Memory) :
    (op.applyTo m)[x]? = m[x]? := by
  cases op with
  | erase sector =>
    rw [Covers, sectorOf_eq_iff] at h
    rw [applyTo, Memory.put]
    by_cases hx : x < sector * sectorSize
    · exact Memory.getElem?_overlay_of_lt hx
    · apply Memory.getElem?_overlay_of_ge
      rw [List.length_replicate]
      omega
  | program address bytes =>
    rw [Covers] at h
    rw [applyTo]
    by_cases hx : x < address
    · exact Memory.getElem?_overlay_of_lt hx
    · exact Memory.getElem?_overlay_of_ge (by omega)

theorem getElem?_applyTo_erase {m : Memory} {x : Nat} (hx : x < m.size) :
    ((erase (sectorOf x)).applyTo m)[x]? = some erased := by
  obtain ⟨hle, hlt⟩ := sectorOf_eq_iff.mp (rfl : sectorOf x = sectorOf x)
  rw [applyTo, Memory.put, Memory.getElem?_overlay, if_pos hle,
    List.getElem?_replicate_of_lt (by omega), Array.getElem?_eq_getElem hx]
  rfl

theorem getElem?_applyTo_program {m : Memory} {address i : Nat} {bytes : List UInt8} {b c : UInt8}
    (hb : bytes[i]? = some b) (hc : m[address + i]? = some c) :
    ((program address bytes).applyTo m)[address + i]? = some (c &&& b) := by
  rw [applyTo, Memory.getElem?_overlay, if_pos (Nat.le_add_right _ _), Nat.add_sub_cancel_left, hb, hc]
  rfl

end FlashOp

/-! ## Lists of operations -/

/-- What operations, carried out in order, make of the cells. -/
def Memory.replay (m : Memory) (ops : List FlashOp) : Memory :=
  ops.foldl (fun m op => op.applyTo m) m

namespace Memory

@[simp] theorem replay_nil (m : Memory) : m.replay [] = m := rfl

@[simp] theorem replay_cons (m : Memory) (op : FlashOp) (ops : List FlashOp) :
    m.replay (op :: ops) = (op.applyTo m).replay ops := rfl

theorem replay_append (m : Memory) (ops ops' : List FlashOp) :
    m.replay (ops ++ ops') = (m.replay ops).replay ops' :=
  List.foldl_append

@[simp] theorem size_replay (m : Memory) (ops : List FlashOp) : (m.replay ops).size = m.size := by
  induction ops generalizing m with
  | nil => rfl
  | cons op ops ih => rw [replay_cons, ih, FlashOp.size_applyTo]

theorem getElem?_replay_of_not_covers {ops : List FlashOp} {x : Nat}
    (h : ∀ op ∈ ops, ¬ op.Covers x) (m : Memory) : (m.replay ops)[x]? = m[x]? := by
  induction ops generalizing m with
  | nil => rfl
  | cons op ops ih =>
    rw [replay_cons, ih (fun o ho => h o (List.mem_cons_of_mem _ ho)),
      FlashOp.getElem?_applyTo_of_not_covers (h op List.mem_cons_self)]

/-- A slice hangs on the cells in its range only. -/
theorem slice_congr {m m' : Memory} {start length : Nat}
    (h : ∀ x, start ≤ x → x < start + length → m[x]? = m'[x]?) :
    m.slice start length = m'.slice start length := by
  apply List.ext_getElem?
  intro i
  rw [getElem?_slice, getElem?_slice]
  split
  · exact h _ (by omega) (by omega)
  · rfl

theorem getElem?_of_slice_eq_singleton {m : Memory} {start : Nat} {b : UInt8}
    (h : m.slice start [b].length = [b]) : m[start]? = some b := by
  have hfirst := congrArg (·[0]?) h
  rw [getElem?_slice, if_pos (show 0 < [b].length from Nat.one_pos), Nat.add_zero] at hfirst
  exact hfirst

theorem slice_replay_of_not_covers {ops : List FlashOp} {start length : Nat}
    (h : ∀ op ∈ ops, ∀ x, start ≤ x → x < start + length → ¬ op.Covers x) (m : Memory) :
    (m.replay ops).slice start length = m.slice start length :=
  slice_congr fun x hx hx' => getElem?_replay_of_not_covers (fun op hop => h op hop x hx hx') m

end Memory

namespace Flash

/-- Carries out operations in order. -/
def performAll (f : Flash) (ops : List FlashOp) : Flash :=
  ops.foldl perform f

@[simp] theorem performAll_nil (f : Flash) : f.performAll [] = f := rfl

@[simp] theorem performAll_cons (f : Flash) (op : FlashOp) (ops : List FlashOp) :
    f.performAll (op :: ops) = (f.perform op).performAll ops := rfl

theorem performAll_append (f : Flash) (ops ops' : List FlashOp) :
    f.performAll (ops ++ ops') = (f.performAll ops).performAll ops' :=
  List.foldl_append

@[simp] theorem cells_performAll (f : Flash) (ops : List FlashOp) :
    (f.performAll ops).cells = f.cells.replay ops := by
  induction ops generalizing f with
  | nil => rfl
  | cons op ops ih => rw [performAll_cons, ih, cells_perform, Memory.replay_cons]

@[simp] theorem toList_ops_performAll (f : Flash) (ops : List FlashOp) :
    (f.performAll ops).ops.toList = f.ops.toList ++ ops := by
  induction ops generalizing f with
  | nil => rw [performAll_nil, List.append_nil]
  | cons op ops ih =>
    rw [performAll_cons, ih, ops_perform, Array.toList_push, List.append_assoc, List.singleton_append]

@[simp] theorem faults_performAll (f : Flash) (ops : List FlashOp) :
    (f.performAll ops).faults = f.faults := by
  induction ops generalizing f with
  | nil => rfl
  | cons op ops ih => rw [performAll_cons, ih, faults_perform]

@[simp] theorem claimed_performAll (f : Flash) (ops : List FlashOp) :
    (f.performAll ops).claimed = f.claimed := by
  induction ops generalizing f with
  | nil => rfl
  | cons op ops ih => rw [performAll_cons, ih]; rfl

@[simp] theorem capacity_performAll (f : Flash) (ops : List FlashOp) :
    (f.performAll ops).capacity = f.capacity := by
  induction ops generalizing f with
  | nil => rfl
  | cons op ops ih => rw [performAll_cons, ih, capacity_perform]

theorem capacity_of_claimed {f : Flash} (h : f.claimed = none) : f.capacity = f.cells.size := by
  rw [capacity, h]

/-- Nothing stands against erasing and programming below `limit`. -/
structure Unhindered (f : Flash) (limit : Nat) : Prop where
  erase : f.faults.erase = none
  program : f.faults.program = none
  fits : limit ≤ f.cells.size

theorem Unhindered.mono {f : Flash} {limit limit' : Nat} (h : f.Unhindered limit) (hle : limit' ≤ limit) :
    f.Unhindered limit' :=
  ⟨h.erase, h.program, Nat.le_trans hle h.fits⟩

theorem Unhindered.performAll {f : Flash} {limit : Nat} (h : f.Unhindered limit)
    (ops : List FlashOp) : (f.performAll ops).Unhindered limit := by
  refine ⟨?_, ?_, ?_⟩
  · rw [faults_performAll]
    exact h.erase
  · rw [faults_performAll]
    exact h.program
  · rw [cells_performAll, Memory.size_replay]
    exact h.fits

/-! ## Across switched faults -/

/-- `g` is `f` after `ops`. Faults may have been switched on or off on the way. -/
structure After (f : Flash) (ops : List FlashOp) (g : Flash) : Prop where
  cells : g.cells = f.cells.replay ops
  ops : g.ops.toList = f.ops.toList ++ ops
  claimed : g.claimed = f.claimed

theorem After.refl (f : Flash) : f.After [] f :=
  ⟨rfl, (List.append_nil _).symm, rfl⟩

theorem after_performAll (f : Flash) (ops : List FlashOp) : f.After ops (f.performAll ops) :=
  ⟨cells_performAll _ _, toList_ops_performAll _ _, claimed_performAll _ _⟩

theorem After.trans {f g h : Flash} {ops ops' : List FlashOp} (h₁ : f.After ops g)
    (h₂ : g.After ops' h) : f.After (ops ++ ops') h where
  cells := by rw [h₂.cells, h₁.cells, Memory.replay_append]
  ops := by rw [h₂.ops, h₁.ops, List.append_assoc]
  claimed := h₂.claimed.trans h₁.claimed

theorem After.size_cells {f g : Flash} {ops : List FlashOp} (h : f.After ops g) :
    g.cells.size = f.cells.size := by
  rw [h.cells, Memory.size_replay]

theorem After.capacity {f g : Flash} {ops : List FlashOp} (h : f.After ops g) :
    g.capacity = f.capacity := by
  simp only [Flash.capacity, h.claimed, h.size_cells]

/-- `g` is `f` after operations that all have the property `Q`. -/
def Reaches (f : Flash) (Q : FlashOp → Prop) (g : Flash) : Prop :=
  ∃ ops, f.After ops g ∧ ∀ op ∈ ops, Q op

theorem Reaches.refl (f : Flash) (Q : FlashOp → Prop) : f.Reaches Q f :=
  ⟨[], .refl f, nofun⟩

theorem reaches_performAll (f : Flash) {Q : FlashOp → Prop} {ops : List FlashOp}
    (h : ∀ op ∈ ops, Q op) : f.Reaches Q (f.performAll ops) :=
  ⟨ops, after_performAll f ops, h⟩

theorem Reaches.trans {f g h : Flash} {Q : FlashOp → Prop} (h₁ : f.Reaches Q g)
    (h₂ : g.Reaches Q h) : f.Reaches Q h := by
  obtain ⟨ops, hafter, hops⟩ := h₁
  obtain ⟨ops', hafter', hops'⟩ := h₂
  refine ⟨ops ++ ops', hafter.trans hafter', ?_⟩
  intro op hop
  rcases List.mem_append.mp hop with hop | hop
  · exact hops op hop
  · exact hops' op hop

theorem Reaches.mono {f g : Flash} {Q Q' : FlashOp → Prop} (h : f.Reaches Q g)
    (himp : ∀ op, Q op → Q' op) : f.Reaches Q' g := by
  obtain ⟨ops, hafter, hops⟩ := h
  exact ⟨ops, hafter, fun op hop => himp op (hops op hop)⟩

/-- A cell that no operation with the property covers keeps its byte. -/
theorem Reaches.getElem?_cells {f g : Flash} {Q : FlashOp → Prop} (h : f.Reaches Q g) {x : Nat}
    (hx : ∀ op, Q op → ¬ op.Covers x) : g.cells[x]? = f.cells[x]? := by
  obtain ⟨ops, hafter, hops⟩ := h
  rw [hafter.cells]
  exact Memory.getElem?_replay_of_not_covers (fun op hop => hx op (hops op hop)) _

theorem Reaches.size_cells {f g : Flash} {Q : FlashOp → Prop} (h : f.Reaches Q g) :
    g.cells.size = f.cells.size := by
  obtain ⟨ops, hafter, -⟩ := h
  exact hafter.size_cells

end Flash

end BootSlots
