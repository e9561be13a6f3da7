import BootSlots.Device.Work

/-
  The states that devices pass through while work is done on them, where the power may go at any of them.

  Proved:
  * `mem_states`, `getLast?_states`: the states begin with the first one and end with the one that the work leaves.
  * `forall_states`: what each call of the work keeps is true at all times.
  * `mem_states_bind`: the second part of work begins where the first has ended, and only by its result.
  * `states_mapCalls`: work on a part of the devices passes through states of that part.
-/

namespace BootSlots.Work

variable {κ κ' α β σ τ : Type} {make : σ → κ → Except DeviceFault Unit × σ} {P : κ → Prop} {d d' : σ}

theorem mem_states (w : Work κ α) (d : σ) : d ∈ w.states make d := by
  cases w <;> exact List.mem_cons_self

theorem states_ne_nil (w : Work κ α) (d : σ) : w.states make d ≠ [] :=
  List.ne_nil_of_mem (w.mem_states d)

theorem getLast?_states (w : Work κ α) (d : σ) : (w.states make d).getLast? = some (w.run make d).2 := by
  induction w generalizing d with
  | done result => rfl
  | call c next ih =>
    rw [states_call, run_call, List.getLast?_cons_of_ne_nil (states_ne_nil _ _)]
    exact ih _ _

theorem run_mem_states (w : Work κ α) (d : σ) : (w.run make d).2 ∈ w.states make d :=
  List.mem_of_getLast? (w.getLast?_states d)

/-- All calls of the work are such calls, whatever the devices answer. -/
def Only (P : κ → Prop) : Work κ α → Prop
  | done _ => True
  | call c next => P c ∧ ∀ answer, (next answer).Only P

/-- What each call of the work keeps is true at all times. -/
theorem forall_states {w : Work κ α} {Q : σ → Prop} (hw : w.Only P)
    (step : ∀ d c, P c → Q d → Q (make d c).2) (h : Q d) : ∀ d' ∈ w.states make d, Q d' := by
  induction w generalizing d with
  | done result =>
    intro d' hmem
    rw [List.mem_singleton.mp hmem]
    exact h
  | call c next ih =>
    obtain ⟨hc, hnext⟩ := hw
    exact List.forall_mem_cons.mpr ⟨h, ih _ (hnext _) (step d c hc h)⟩

/-- The second part of work begins where the first has ended, and only by its result. -/
theorem mem_states_bind {w : Work κ α} {k : α → Work κ β} (h : d' ∈ (w.bind k).states make d) :
    d' ∈ w.states make d ∨ d' ∈ (k (w.run make d).1).states make (w.run make d).2 := by
  induction w generalizing d with
  | done result => exact .inr h
  | call c next ih =>
    rcases List.mem_cons.mp h with rfl | hmem
    · exact .inl List.mem_cons_self
    · exact (ih _ hmem).imp_left (List.mem_cons_of_mem _)

theorem states_mapCalls {make' : τ → κ' → Except DeviceFault Unit × τ} {g : κ → κ'} (put : σ → τ)
    (h : ∀ d c, make' (put d) (g c) = ((make d c).1, put (make d c).2)) (w : Work κ α) (d : σ) :
    (w.mapCalls g).states make' (put d) = (w.states make d).map put := by
  induction w generalizing d with
  | done result => rfl
  | call c next ih =>
    rw [mapCalls, states_call, states_call, h, List.map_cons, ih]

end BootSlots.Work
