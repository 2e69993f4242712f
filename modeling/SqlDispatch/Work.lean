set_option autoImplicit false

/-!
Work on a state in place. What a piece of work has done by the time it fails stays done: nothing
takes it back, so that a failure leaves the state alone has to be proved of the work.
-/

namespace SqlDispatch

abbrev Work (σ ε : Type) := ExceptT ε (StateM σ)

namespace Work

variable {σ ε α β : Type}

def on (work : Work σ ε α) (state : σ) : Except ε α × σ := work.run.run state

theorem on_bind_of_ok {work : Work σ ε α} {state later : σ} {a : α}
    (h : on work state = (.ok a, later)) (next : α → Work σ ε β) :
    on (work >>= next) state = on (next a) later := by
  change (match work.run.run state with
    | (outcome, later) => (ExceptT.bindCont next outcome).run later) = _
  rw [show work.run.run state = (.ok a, later) from h]
  rfl

/-- The state that the work leaves, if it does not fail. -/
def result (work : Work σ ε Unit) (state : σ) : Except ε σ :=
  let (outcome, later) := on work state
  outcome.map fun _ => later

theorem result_modify (f : σ → σ) (state : σ) :
    result (modify f : Work σ ε Unit) state = .ok (f state) := rfl

theorem result_modify_bind (f : σ → σ) (next : Unit → Work σ ε Unit) (state : σ) :
    result (modify f >>= next) state = result (next ()) (f state) := rfl

theorem result_lift_bind (answer : Except ε α) (next : α → Work σ ε Unit) (state : σ) :
    result (liftM answer >>= next) state = answer >>= fun a => result (next a) state := by
  cases answer <;> rfl

end Work

end SqlDispatch
