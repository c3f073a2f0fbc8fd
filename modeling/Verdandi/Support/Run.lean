import Mathlib

/-! Runs of a partial step function and the induction rule for their invariants. -/

namespace Support

universe u v

variable {State : Type u} {Action : Type v}

/-- Take the steps of `actions` in order; a run stops to exist where a step is disabled. -/
def run (step : State → Action → Option State) (start : State) (actions : List Action)
    : Option State :=
  actions.foldlM step start

@[simp]
theorem run_nil (step : State → Action → Option State) (start : State)
    : run step start [] = some start := rfl

@[simp]
theorem run_cons (step : State → Action → Option State) (start : State) (action : Action)
    (rest : List Action)
    : run step start (action :: rest) = (step start action).bind (run step · rest) := rfl

/-- A property kept by every enabled step holds at the end of every run. Witness: induction
over the actions, generalizing the starting state.
-/
theorem run_invariant {step : State → Action → Option State} {Inv : State → Prop}
    (keeps : ∀ state action next, Inv state → step state action = some next → Inv next)
    {start finish : State} {actions : List Action} (holds : Inv start)
    (reached : run step start actions = some finish)
    : Inv finish := by
  induction actions generalizing start with
  | nil =>
      cases reached
      exact holds
  | cons action rest ih =>
      obtain ⟨middle, stepped, continued⟩ := Option.bind_eq_some_iff.mp reached
      exact ih (keeps start action middle holds stepped) continued

/-- Runs compose: the actions of an appended run continue from the first run's end. -/
theorem run_append (step : State → Action → Option State) (start : State)
    (first second : List Action)
    : run step start (first ++ second) = (run step start first).bind (run step · second) := by
  induction first generalizing start with
  | nil => rfl
  | cons action rest ih =>
      simp only [List.cons_append, run_cons, Option.bind_assoc]
      exact congrArg _ (funext fun middle => ih middle)

/-- Every action of a run meets a condition in the state it is taken in. -/
def Along (step : State → Action → Option State) (meets : State → Action → Prop)
    : State → List Action → Prop
  | _, [] => True
  | state, action :: rest =>
      meets state action ∧ ∀ next, step state action = some next → Along step meets next rest

instance decidableAlong (step : State → Action → Option State)
    (meets : State → Action → Prop) [∀ state action, Decidable (meets state action)]
    : (state : State) → (actions : List Action) → Decidable (Along step meets state actions)
  | _, [] => .isTrue trivial
  | state, action :: rest =>
      match stepped : step state action with
      | none => decidable_of_iff (meets state action) (by simp [Along, stepped])
      | some next =>
          have := decidableAlong step meets next rest
          decidable_of_iff (meets state action ∧ Along step meets next rest)
            (by simp [Along, stepped])

/-- A property kept by every step that meets a condition holds in every step of a run of such
steps. Witness: induction over the actions.
-/
theorem along_invariant {step : State → Action → Option State}
    {meets : State → Action → Prop} {Inv : State → Prop}
    (keeps : ∀ state action next, Inv state → meets state action
      → step state action = some next → Inv next)
    {start middle : State} {actions : List Action} {last : Action} (holds : Inv start)
    (along : Along step meets start (actions ++ [last]))
    (reached : run step start actions = some middle)
    : Inv middle ∧ meets middle last := by
  induction actions generalizing start with
  | nil =>
      cases reached
      exact ⟨holds, along.1⟩
  | cons action rest ih =>
      obtain ⟨next, stepped, continued⟩ := Option.bind_eq_some_iff.mp reached
      exact ih (keeps start action next holds along.1 stepped) (along.2 next stepped) continued

/-- A result that has a value was not an error. -/
theorem ok_of_toOption {Error Value : Type} {result : Except Error Value} {value : Value}
    (found : result.toOption = some value)
    : result = .ok value := by
  cases result with
  | error => cases found
  | ok => exact congrArg Except.ok (Option.some.inj found)

end Support
