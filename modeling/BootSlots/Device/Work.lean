import BootSlots.Device.Fault

/-
  Work on devices as a program: it makes a call, sees whether that succeeds, and goes on by the answer. Both
  what comes of the work in the end and the states that the devices pass through are told by the program, so
  a step that it makes cannot be missing from either.
-/

namespace BootSlots

/-- A program that makes calls `κ` and has a result `α`. -/
inductive Work (κ α : Type) where
  | done (result : α)
  | call (c : κ) (next : Except DeviceFault Unit → Work κ α)

namespace Work

variable {κ κ' α β σ τ : Type}

/-- Goes on with the result. -/
def bind (w : Work κ α) (k : α → Work κ β) : Work κ β :=
  match w with
  | done result => k result
  | call c next => call c fun answer => (next answer).bind k

/-- The same program with other calls in place of its own. -/
def mapCalls (g : κ → κ') : Work κ α → Work κ' α
  | done result => done result
  | call c next => call (g c) fun answer => (next answer).mapCalls g

/-- Does the work, where `make` is what comes of one call: its answer, and the devices after it. -/
def run (make : σ → κ → Except DeviceFault Unit × σ) (d : σ) : Work κ α → α × σ
  | done result => (result, d)
  | call c next => (next (make d c).1).run make (make d c).2

/-- The devices at first, and after each call of the work. -/
def states (make : σ → κ → Except DeviceFault Unit × σ) (d : σ) : Work κ α → List σ
  | done _ => [d]
  | call c next => d :: (next (make d c).1).states make (make d c).2

variable {make : σ → κ → Except DeviceFault Unit × σ}

@[simp] theorem run_done (d : σ) (result : α) : (done result : Work κ α).run make d = (result, d) := rfl

@[simp] theorem run_call (d : σ) (c : κ) (next : Except DeviceFault Unit → Work κ α) :
    (call c next).run make d = (next (make d c).1).run make (make d c).2 := rfl

@[simp] theorem states_done (d : σ) (result : α) : (done result : Work κ α).states make d = [d] := rfl

@[simp] theorem states_call (d : σ) (c : κ) (next : Except DeviceFault Unit → Work κ α) :
    (call c next).states make d = d :: (next (make d c).1).states make (make d c).2 := rfl

/-- Work that goes on from a result does so on the devices that the first part left. -/
theorem run_bind (w : Work κ α) (k : α → Work κ β) (d : σ) :
    (w.bind k).run make d = (k (w.run make d).1).run make (w.run make d).2 := by
  induction w generalizing d with
  | done result => rfl
  | call c next ih => exact ih _ _

/-- Work on a part of the devices does to that part what it does to it alone. -/
theorem run_mapCalls {make' : τ → κ' → Except DeviceFault Unit × τ} {g : κ → κ'} (put : σ → τ)
    (h : ∀ d c, make' (put d) (g c) = ((make d c).1, put (make d c).2)) (w : Work κ α) (d : σ) :
    (w.mapCalls g).run make' (put d) = ((w.run make d).1, put (w.run make d).2) := by
  induction w generalizing d with
  | done result => rfl
  | call c next ih =>
    rw [mapCalls, run_call, h]
    exact ih _ _

end Work

end BootSlots
