/-
  Devices that take calls, each of which may fail and then leaves the device as it was. What holds after a
  history is told by the calls that succeeded in it, in their order.

  Proved:
  * `attemptAll_induction`: what each call that succeeds keeps, a history does.
  * `lastSet_concat`: the value that a history leaves, call by call.
-/

namespace BootSlots

variable {σ κ : Type}

/-- The device after a history, where `attempt` is the device after one call, if the call succeeds. -/
def attemptAll (attempt : σ → κ → Option σ) (d : σ) (calls : List κ) : σ :=
  calls.foldl (fun d c => (attempt d c).getD d) d

/-- The calls of a history that succeed. -/
def carriedOut (attempt : σ → κ → Option σ) (d : σ) : List κ → List κ
  | [] => []
  | c :: calls =>
    match attempt d c with
    | some d' => c :: carriedOut attempt d' calls
    | none => carriedOut attempt d calls

theorem attemptAll_induction {attempt : σ → κ → Option σ} {P : σ → List κ → Prop}
    (step : ∀ d done c d', P d done → attempt d c = some d' → P d' (done ++ [c]))
    {d : σ} {done : List κ} (h : P d done) (calls : List κ) :
    P (attemptAll attempt d calls) (done ++ carriedOut attempt d calls) := by
  induction calls generalizing d done with
  | nil =>
    rw [carriedOut, List.append_nil]
    exact h
  | cons c calls ih =>
    unfold carriedOut attemptAll
    rw [List.foldl_cons]
    cases hc : attempt d c with
    | none => exact ih h
    | some d' =>
      have hnext := ih (step d done c d' h hc)
      rw [List.append_assoc] at hnext
      exact hnext

/-- A call that fails leaves the device as it was. -/
theorem attemptAll_of_none {attempt : σ → κ → Option σ} {d : σ} {c : κ} (h : attempt d c = none) :
    attemptAll attempt d [c] = d := by
  rw [attemptAll, List.foldl_cons, h]
  rfl

theorem carriedOut_sublist (attempt : σ → κ → Option σ) (d : σ) (calls : List κ) :
    (carriedOut attempt d calls).Sublist calls := by
  induction calls generalizing d with
  | nil => exact .slnil
  | cons c calls ih =>
    unfold carriedOut
    cases attempt d c with
    | none => exact (ih d).cons c
    | some d' => exact (ih d').cons_cons c

/-- What a history last sets a value to, where `f` is what one call sets it to; `first` is the value before. -/
def lastSet {β : Type} (f : κ → Option β) (first : β) (done : List κ) : β :=
  (done.filterMap f).getLast?.getD first

@[simp] theorem lastSet_nil {β : Type} (f : κ → Option β) (first : β) : lastSet f first [] = first := rfl

theorem lastSet_concat {β : Type} (f : κ → Option β) (first : β) (done : List κ) (c : κ) :
    lastSet f first (done ++ [c]) = (f c).getD (lastSet f first done) := by
  unfold lastSet
  rw [List.filterMap_append]
  cases h : f c <;> simp [h]

/-- A history of calls that leave the value alone. -/
theorem lastSet_of_forall_none {β : Type} {f : κ → Option β} {done : List κ}
    (h : ∀ c ∈ done, f c = none) (first : β) : lastSet f first done = first := by
  rw [lastSet, List.filterMap_eq_nil_iff.mpr h]
  rfl

theorem eq_ok_of_toOption {ε : Type} {r : Except ε σ} {d : σ} (h : r.toOption = some d) : r = .ok d := by
  cases r with
  | error fault => exact absurd h (Option.some_ne_none d).symm
  | ok d' => rw [Option.some.inj h]

end BootSlots
