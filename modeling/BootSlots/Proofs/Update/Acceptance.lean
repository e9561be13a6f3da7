import BootSlots.Proofs.Update.Accounting

/-
  What a live session takes in. A write is measured by three rules: there are data, they keep to the declared
  size where that counts, and they end within the slot's region. On a flash without faults nothing else is in
  the way: data that fit are taken in, other data are refused as bad arguments, and no write comes back with
  a fault of the flash. So a region can be filled to its last byte, in pieces of any sizes, and then it is full.

  Proved:
  * `write_of_not_fits`: data that do not fit are refused, whatever state the flash is in.
  * `Tracks.write_of_fits`: data that fit are taken in, and the books stay in order.
  * `Tracks.fill`: so are all pieces of a stream that fits, one after another.
  * `accepts_what_fits`: both sides, at any time in a history.

  The last address need not be looked after: a region ends within the flash, which ends within the address
  space, so a sum that runs over the address space does not fit either.
-/

namespace BootSlots

/-- There are data, and they keep to the declared size, where it counts, and to the region. -/
structure Session.Fits (s : Session) (enforced : Bool) (data : List UInt8) : Prop where
  nonempty : data ≠ []
  declared : enforced = true → 0 < s.declared → s.accepted + data.length ≤ s.declared
  limit : s.start + s.accepted + data.length ≤ s.limit

namespace Engine

variable {e : Engine} {s : Session} {d data : List UInt8} {handle : Handle}

/-! ## One write -/

theorem write_of_not_fits (hlive : e.live? handle = some s)
    (hnot : ¬ s.Fits e.settings.enforceDeclaredSize data) :
    (e.write handle data).1 = .error .invalidArgs := by
  obtain ⟨hres, -⟩ | ⟨s', hlive', -, hdata, -, hdeclared, hlimit, -⟩ := e.write_cases handle data
  · exact hres
  · obtain rfl := Option.some.inj (hlive.symm.trans hlive')
    refine absurd ⟨hdata, fun henforced hpos => ?_, ?_⟩ hnot
    · exact Nat.not_lt.mp fun hover => hdeclared ⟨henforced, hpos, hover⟩
    · rw [Nat.add_assoc]
      exact hlimit

/-- The flash goes as far as the region. -/
theorem Tracks.unhindered (h : e.Tracks s d) (hfaults : e.store.flash.faults = {})
    (hclaimed : e.store.flash.claimed = none) : e.store.flash.Unhindered s.limit where
  erase := by rw [hfaults]
  program := by rw [hfaults]
  fits := by
    rw [← Flash.capacity_of_claimed hclaimed]
    exact h.limit_le

/-- Without faults, data that fit are taken in, and the books stay in order. -/
theorem Tracks.write_of_fits (h : e.Tracks s d) (hfree : e.store.flash.Unhindered s.limit)
    (hid : s.id = handle.id) (hfits : s.Fits e.settings.enforceDeclaredSize data) :
    (e.write handle data).1 = .ok () ∧ ∃ s', s.Continues s' ∧
      (e.write handle data).2.Tracks s' (d ++ data) ∧
      (e.write handle data).2.store.flash.Unhindered s'.limit := by
  have hlimit : s.start + (s.accepted + data.length) ≤ s.limit := by
    rw [← Nat.add_assoc]
    exact hfits.limit
  have hspace : s.accepted + data.length < addressSpace := by
    have := hfree.fits
    have := e.store.flash.size_lt
    omega
  have hdeclared : ¬ (e.settings.enforceDeclaredSize = true ∧ 0 < s.declared ∧
      s.declared < s.accepted + data.length) := by
    rintro ⟨henforced, hpos, hover⟩
    exact Nat.not_lt.mpr (hfits.declared henforced hpos) hover
  obtain ⟨hok, s', ops, hcont, hlive, hflash, -⟩ :=
    h.live.write_eq_ok handle hid hfits.nonempty hspace hdeclared hlimit (hfree.mono hlimit)
  refine ⟨hok, s', hcont, ?_, ?_⟩
  · obtain ⟨s'', hactive, hstate⟩ := h.write handle data
    obtain rfl := Option.some.inj (hlive.active.symm.trans hactive)
    rw [taken, hok] at hstate
    refine hstate.resolve_left fun hfailed => ?_
    have htakes := hlive.takesData
    rw [hfailed] at htakes
    cases htakes
  · rw [hflash, hcont.limit]
    exact hfree.performAll ops

/-! ## A stream in pieces -/

/-- The call hands in data, and they are taken in. -/
def Accepts (e : Engine) : Call → Prop
  | .write handle data => (e.write handle data).1 = .ok ()
  | _ => False

/-- Without a declared size, all pieces of a stream that fits are taken in. -/
theorem Tracks.fill {pieces : List (List UInt8)} (h : e.Tracks s d)
    (hfree : e.store.flash.Unhindered s.limit) (hid : s.id = handle.id) (hdeclared : s.declared = 0)
    (hpieces : ∀ piece ∈ pieces, piece ≠ [])
    (hlimit : s.start + s.accepted + pieces.flatten.length ≤ s.limit) :
    e.Throughout Accepts (pieces.map (.write handle)) ∧ ∃ s', s.Continues s' ∧
      (e.after (pieces.map (.write handle))).Tracks s' (d ++ pieces.flatten) := by
  induction pieces generalizing e s d with
  | nil =>
    refine ⟨trivial, s, .refl s, ?_⟩
    simpa using h
  | cons piece pieces ih =>
    simp only [List.flatten_cons, List.length_append] at hlimit
    have hfits : s.Fits e.settings.enforceDeclaredSize piece := by
      refine ⟨hpieces piece List.mem_cons_self, fun _ hpos => ?_, by omega⟩
      omega
    obtain ⟨hok, s₁, hcont, htracks, hfree₁⟩ := h.write_of_fits hfree hid hfits
    have haccepted : s₁.accepted = s.accepted + piece.length := by
      rw [htracks.live.accepted, List.length_append, h.live.accepted]
    obtain ⟨hrest, s₂, hcont', htracks'⟩ := ih htracks hfree₁ (hcont.id.trans hid)
      (hcont.declared.trans hdeclared) (fun p hp => hpieces p (List.mem_cons_of_mem piece hp))
      (by rw [hcont.start, hcont.limit, haccepted]; omega)
    refine ⟨⟨hok, hrest⟩, s₂, hcont.trans hcont', ?_⟩
    rw [List.flatten_cons, ← List.append_assoc]
    exact htracks'

/-- At any time in a history, a live session on a flash without faults takes in exactly the data that fit. If
no size was declared, it takes in the rest of its region in any pieces, and nothing after that. -/
theorem accepts_what_fits (hidle : e.active = none) {calls : List Call}
    (hlive : (e.after calls).live? handle = some s) (htakes : s.phase.takesData = true)
    (hfaults : (e.after calls).store.flash.faults = {})
    (hclaimed : (e.after calls).store.flash.claimed = none) :
    (∀ data,
        (((e.after calls).write handle data).1 = .ok () ↔
          s.Fits (e.after calls).settings.enforceDeclaredSize data) ∧
        (((e.after calls).write handle data).1 ≠ .ok () →
          ((e.after calls).write handle data).1 = .error .invalidArgs)) ∧
      (s.declared = 0 → ∀ pieces : List (List UInt8), (∀ piece ∈ pieces, piece ≠ []) →
        s.start + s.accepted + pieces.flatten.length = s.limit →
          (e.after calls).Throughout Accepts (pieces.map (.write handle)) ∧
            ∀ data, (((e.after calls).after (pieces.map (.write handle))).write handle data).1 =
              .error .invalidArgs) := by
  obtain ⟨hactive, hid⟩ := live?_eq_some_iff.mp hlive
  have htracks : (e.after calls).Tracks s (e.intake [] calls) := by
    refine ((tracked_of_idle hidle []).after calls s hactive).resolve_left fun hfailed => ?_
    rw [hfailed] at htakes
    cases htakes
  have hfree := htracks.unhindered hfaults hclaimed
  constructor
  · intro data
    by_cases hfits : s.Fits (e.after calls).settings.enforceDeclaredSize data
    · obtain ⟨hok, -⟩ := htracks.write_of_fits hfree hid hfits
      exact ⟨iff_of_true hok hfits, fun hne => absurd hok hne⟩
    · have hres := write_of_not_fits hlive hfits
      refine ⟨iff_of_false (fun hok => ?_) hfits, fun _ => hres⟩
      cases hok.symm.trans hres
  · intro hdeclared pieces hpieces hlimit
    obtain ⟨haccepts, s', hcont, htracks'⟩ :=
      htracks.fill hfree hid hdeclared hpieces (Nat.le_of_eq hlimit)
    refine ⟨haccepts, fun data => ?_⟩
    have hlive' := live?_eq_some_iff.mpr ⟨htracks'.live.active, hcont.id.trans hid⟩
    refine write_of_not_fits hlive' fun hfits => ?_
    -- the region is full, and what fits is not empty
    have hover := hfits.limit
    have hpos := List.length_pos_iff.mpr hfits.nonempty
    rw [hcont.start, hcont.limit, htracks'.live.accepted, List.length_append, ← htracks.live.accepted]
      at hover
    omega

/-- A region of six sectors, filled by one write. -/
theorem accepts_what_fits_six_sectors :
    (provisioned (.factory provisionedSize)).active = none ∧
      (∃ s, ((provisioned (.factory provisionedSize)).after [.start 1 0]).live? ⟨1⟩ = some s ∧
        s.phase.takesData = true) ∧
      (((provisioned (.factory provisionedSize)).after [.start 1 0]).write ⟨1⟩
        (List.replicate (6 * sectorSize) Image.magic)).1 = .ok () ∧
      ((((provisioned (.factory provisionedSize)).after [.start 1 0]).after
        [.write ⟨1⟩ (List.replicate (6 * sectorSize) Image.magic)]).write ⟨1⟩ [0]).1 =
          .error .invalidArgs := by
  have hsecond : (Record.factory provisionedSize).address? 1 = some (10 * sectorSize) := by decide
  have hlimit : (Record.factory provisionedSize).limitOf
      (provisioned (.factory provisionedSize)).store.flash.capacity (10 * sectorSize) =
        16 * sectorSize := by
    rw [capacity_provisioned]
    decide
  have hstart := start_eq_ok load_provisioned_factory hsecond rfl (arenaUsable_provisioned _) 0
  obtain ⟨a, ha, -, hflash, hopened⟩ := live_of_start load_provisioned_factory hstart
  obtain rfl := Option.some.inj (hsecond.symm.trans ha)
  rw [hlimit] at hopened
  have hlive : ((provisioned (.factory provisionedSize)).after [.start 1 0]).live? ⟨1⟩ = some
      ((provisioned (.factory provisionedSize)).opened 1 0 (10 * sectorSize) (16 * sectorSize)) := by
    rw [after_cons, after_nil, next]
    exact live?_eq_some_iff.mpr ⟨hopened.active, rfl⟩
  obtain ⟨-, hfill⟩ := accepts_what_fits rfl hlive rfl
    (by rw [after_cons, after_nil, next, hflash, faults_provisioned])
    (by rw [after_cons, after_nil, next, hflash, claimed_provisioned])
  have hpieces : ∀ piece ∈ [List.replicate (6 * sectorSize) Image.magic], piece ≠ [] := by
    simp only [List.mem_singleton, forall_eq, ne_eq, List.replicate_eq_nil_iff]
    decide
  obtain ⟨⟨hok, -⟩, hfull⟩ := hfill rfl [List.replicate (6 * sectorSize) Image.magic] hpieces (by
    rw [List.flatten_singleton, List.length_replicate]
    rfl)
  exact ⟨rfl, ⟨_, hlive, rfl⟩, hok, hfull [0]⟩

end Engine

end BootSlots
