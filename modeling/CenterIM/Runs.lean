import Mathlib.Logic.Relation

/-!
# Runs

The states that a system reaches when every step of the run meets a condition on the state
before it, and the rule that carries an invariant from one step to a whole run.
-/
namespace CenterIM.Runs

variable {State Action : Type*}

/-- A state at the end of a run from `init` whose steps all meet `ok`. -/
inductive Reached (init : State → Prop) (step : State → Action → State → Prop)
    (ok : State → Action → Prop) : State → Prop
  | init {s : State} : init s → Reached init step ok s
  | step {s t : State} {a : Action} : Reached init step ok s → ok s a → step s a t →
      Reached init step ok t

variable {init : State → Prop} {step : State → Action → State → Prop}
  {ok : State → Action → Prop} {s t : State} {a : Action}

/-- What holds at the start and is kept by every step that meets the condition holds in
every state that is reached. -/
theorem Reached.invariant {I : State → Prop} (hinit : ∀ s, init s → I s)
    (hstep : ∀ s a t, I s → ok s a → step s a t → I t) (h : Reached init step ok s) : I s := by
  induction h with
  | init h => exact hinit _ h
  | step _ hok hst ih => exact hstep _ _ _ ih hok hst

end CenterIM.Runs
