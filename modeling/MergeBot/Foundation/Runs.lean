import Mathlib.Logic.Basic

/-!
# Runs of a labelled transition system

A system moves by a step function: a label names the party that moves and what
its environment answers, and `none` means that the party cannot move now.
`Steps` are its finite runs, in any order of the parties. `Steps.invariant`
carries an invariant through a run, `Steps.relation` what holds between its
ends, and `Steps.invariant_within` is the rule for runs whose steps all meet a
condition.
-/

namespace MergeBot.Foundation

universe u v

variable {State : Type u} {Label : Type v}

/-- The runs of a system, from a state to a state. -/
inductive Steps (move : State → Label → Option State) (start : State) : List Label → State → Prop
  | refl : Steps move start [] start
  | step {state next : State} {labels : List Label} {label : Label}
      (prior : Steps move start labels state) (moved : move state label = some next) :
      Steps move start (labels ++ [label]) next

/-- The state after moves with given labels, if each of them is possible. -/
def replay (move : State → Label → Option State) : State → List Label → Option State
  | state, [] => some state
  | state, label :: rest => (move state label).bind fun next => replay move next rest

/-- Moves are replayed one part after the other. -/
theorem replay_append (move : State → Label → Option State) (start : State)
    (labels more : List Label) :
    replay move start (labels ++ more) =
      (replay move start labels).bind fun state => replay move state more := by
  induction labels generalizing start with
  | nil => rfl
  | cons label rest ih =>
      rw [List.cons_append, replay, replay, Option.bind_assoc]
      exact congrArg _ (funext fun next => ih next)

/-- A move that was possible under a guard. -/
theorem of_guarded {guard : Prop} [Decidable guard] {target next : State}
    (moved : (if guard then some target else none) = some next) : guard ∧ target = next := by
  obtain ⟨holds, same⟩ := Option.ite_none_right_eq_some.mp moved
  exact ⟨holds, Option.some.inj same⟩

/-- Every step of the run meets the condition in the state in which it is taken. -/
inductive Steps.Within {move : State → Label → Option State} {start : State}
    (allowed : State → Label → Prop) :
    {labels : List Label} → {final : State} → Steps move start labels final → Prop
  | refl : Steps.Within allowed .refl
  | step {state next : State} {labels : List Label} {label : Label}
      {prior : Steps move start labels state} (moved : move state label = some next)
      (before : Steps.Within allowed prior) (meets : allowed state label) :
      Steps.Within allowed (.step prior moved)

/-- A run whose labels meet the condition in every state. -/
theorem Steps.Within.of_labels {move : State → Label → Option State} {start final : State}
    {labels : List Label} {allowed : State → Label → Prop} (run : Steps move start labels final)
    (always : ∀ state, ∀ label ∈ labels, allowed state label) : run.Within allowed := by
  induction run with
  | refl => exact .refl
  | step prior moved ih =>
      refine .step moved (ih fun state label member => always state label ?_) (always _ _ ?_)
      · exact List.mem_append_left _ member
      · exact List.mem_append_right _ List.mem_cons_self

namespace Steps

variable {move : State → Label → Option State} {start middle final : State}
  {labels more : List Label}

/-- Runs compose. -/
theorem trans (first : Steps move start labels middle) (second : Steps move middle more final) :
    Steps move start (labels ++ more) final := by
  induction second with
  | refl => simpa using first
  | step prior moved ih =>
      rw [← List.append_assoc]
      exact .step ih moved

/-- A run may begin with a step. -/
theorem head {label : Label} (moved : move start label = some middle)
    (rest : Steps move middle more final) : Steps move start (label :: more) final := by
  have single : Steps move start [label] middle := .step .refl moved
  exact single.trans rest

/-- What is replayed is a run. -/
theorem of_replay {labels : List Label} {start : State}
    (replayed : replay move start labels = some final) : Steps move start labels final := by
  induction labels generalizing start with
  | nil =>
      obtain rfl : start = final := Option.some.inj replayed
      exact .refl
  | cons label rest ih =>
      obtain ⟨next, moved, later⟩ := Option.bind_eq_some_iff.mp replayed
      exact head moved (ih later)

/-- A run is replayed. -/
theorem replay_eq (run : Steps move start labels final) : replay move start labels = some final := by
  induction run with
  | refl => rfl
  | step _ moved ih => rw [replay_append, ih, Option.bind_some, replay, moved]; rfl

/-- What every step preserves holds along the run. -/
theorem invariant {holds : State → Prop}
    (preserved : ∀ {state label next}, holds state → move state label = some next → holds next)
    (run : Steps move start labels final) (initially : holds start) : holds final := by
  induction run with
  | refl => exact initially
  | step _ moved ih => exact preserved ih moved

/-- What every step preserves under a condition holds along a run within it. -/
theorem invariant_within {allowed : State → Label → Prop} {holds : State → Prop}
    (preserved : ∀ {state label next}, holds state → allowed state label →
      move state label = some next → holds next)
    {run : Steps move start labels final} (within : run.Within allowed) (initially : holds start) :
    holds final := by
  induction within with
  | refl => exact initially
  | step moved _ meets ih => exact preserved ih meets moved

/-- A reflexive and transitive relation that every step respects holds between
the ends of a run. -/
theorem relation (related : State → State → Prop) (refl : ∀ state, related state state)
    (trans : ∀ {first second third}, related first second → related second third →
      related first third)
    (step : ∀ {state label next}, move state label = some next → related state next)
    (run : Steps move start labels final) : related start final := by
  induction run with
  | refl => exact refl start
  | step _ moved ih => exact trans ih (step moved)

end Steps

/-- A run each of whose labels meets the condition in the state that the labels before it lead
to. -/
theorem Steps.Within.of_take {move : State → Label → Option State} {start final : State}
    {labels : List Label} {allowed : State → Label → Prop} (run : Steps move start labels final)
    (meets : ∀ (place : Nat) (inside : place < labels.length) (state : State),
      replay move start (labels.take place) = some state → allowed state labels[place]) :
    run.Within allowed := by
  induction run with
  | refl => exact .refl
  | @step state _ labels label prior moved ih =>
      refine .step moved (ih fun place inside state replayed => ?_) ?_
      · have longer : place < (labels ++ [label]).length := by
          rw [List.length_append]
          exact Nat.lt_add_right _ inside
        have here := meets place longer state
        rw [List.take_append_of_le_length (Nat.le_of_lt inside),
          List.getElem_append_left inside] at here
        exact here replayed
      · have here := meets labels.length (by simp) state
        rw [List.take_left, List.getElem_concat_length rfl] at here
        exact here prior.replay_eq

end MergeBot.Foundation
