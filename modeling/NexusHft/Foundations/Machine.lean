import NexusHft.Foundations.LabelledRun
import Mathlib.Data.List.Forall2

namespace NexusHft
namespace Foundations

/-!
# Machines and their refinements

A machine answers every input and moves on.  It is what a sequential component
is for: it has no memory to lay out, no loops to bound and no choices to make.

A labelled system refines a machine through a relation of their states if every
step shows what the machine answers to the input of its label, and keeps the
relation.  Then every run shows what the machine answers to all of its inputs.
-/

universe u v

/-- A deterministic machine: what it answers to an input and how it goes on.  It
is the specification that a system of steps is compared with. -/
structure Machine (Model Input Answer : Type) where
  initial : Model
  respond : Model -> Input -> Answer × Model

namespace Machine

variable {Model Input Answer : Type} (machine : Machine Model Input Answer)

/-- The answers to a sequence of inputs, and the model after them. -/
def run : Model -> List Input -> List Answer × Model
  | model, [] => ([], model)
  | model, input :: rest =>
      let here := machine.respond model input
      let later := run here.2 rest
      (here.1 :: later.1, later.2)

def answers (inputs : List Input) : List Answer := (machine.run machine.initial inputs).1

def after (inputs : List Input) : Model := (machine.run machine.initial inputs).2

theorem run_append (model : Model) (front back : List Input) :
    machine.run model (front ++ back) =
      ((machine.run model front).1 ++ (machine.run (machine.run model front).2 back).1,
        (machine.run (machine.run model front).2 back).2) := by
  induction front generalizing model with
  | nil => rfl
  | cons input front inductionHypothesis =>
      rw [List.cons_append, run, inductionHypothesis]
      rfl

theorem answers_concat (inputs : List Input) (input : Input) :
    machine.answers (inputs ++ [input]) =
      machine.answers inputs ++ [(machine.respond (machine.after inputs) input).1] := by
  rw [answers, run_append]
  rfl

theorem after_concat (inputs : List Input) (input : Input) :
    machine.after (inputs ++ [input]) = (machine.respond (machine.after inputs) input).2 := by
  rw [after, run_append]
  rfl

/-- What the inputs of a machine do not break holds after all of them. -/
theorem after_invariant (Inv : Model -> Prop) (initial : Inv machine.initial)
    (preserved : forall model input, Inv model -> Inv (machine.respond model input).2)
    (inputs : List Input) : Inv (machine.after inputs) := by
  induction inputs using List.reverseRecOn with
  | nil => exact initial
  | append_singleton inputs input inductionHypothesis =>
      rw [after_concat]
      exact preserved _ input inductionHypothesis

/-- Every step of the system shows the answer of the machine and keeps the
relation.  By induction all that a run shows is what the machine answers to the
same inputs. -/
structure Refines {State : Type u} {Label : Type v} (system : LabelledSystem State Label)
    (machine : Machine Model Input Answer) (input : Label -> Input)
    (Shows : Label -> Answer -> Prop) (Related : State -> Model -> Prop) : Prop where
  starts : forall state, system.starts state -> Related state machine.initial
  step : forall state model label next, Related state model -> system.step state label next ->
    Shows label (machine.respond model (input label)).1 ∧
      Related next (machine.respond model (input label)).2

section Refines

variable {State : Type u} {Label : Type v} {system : LabelledSystem State Label}
  {machine : Machine Model Input Answer} {input : Label -> Input}
  {Shows : Label -> Answer -> Prop} {Related : State -> Model -> Prop}

/-- Every run shows the answers to its inputs. -/
theorem Refines.run (refines : Refines system machine input Shows Related) {past : List Label}
    {state : State} (run : system.Run past state) :
    List.Forall₂ Shows past (machine.answers (past.map input)) ∧
      Related state (machine.after (past.map input)) := by
  induction run with
  | start begins => exact ⟨.nil, refines.starts _ begins⟩
  | @step past before next label _ moved inductionHypothesis =>
      have here := refines.step before _ label next inductionHypothesis.2 moved
      rw [List.map_append, List.map_singleton, answers_concat, after_concat]
      exact ⟨List.rel_append inductionHypothesis.1 (.cons here.1 .nil), here.2⟩

/-- Around any of its labels, a run is related to the machine. -/
theorem Refines.cut (refines : Refines system machine input Shows Related)
    {early late : List Label} {label : Label} {state : State}
    (run : system.Run (early ++ label :: late) state) :
    Exists fun before => Exists fun next => Exists fun model =>
      system.step before label next ∧ model = machine.after (early.map input) ∧
      Related before model ∧ Shows label (machine.respond model (input label)).1 ∧
      Related next (machine.respond model (input label)).2 := by
  rcases run.cut with ⟨before, next, earlier, moved⟩
  have related := (refines.run earlier).2
  have here := refines.step before _ label next related moved
  exact ⟨before, next, _, moved, rfl, related, here.1, here.2⟩

/-- After a label that brings the machine back to its start, the run shows what the
machine answers from its start. -/
theorem Refines.since_reset (refines : Refines system machine input Shows Related)
    {early late : List Label} {label : Label}
    (resets : forall model, (machine.respond model (input label)).2 = machine.initial)
    {state : State} (run : system.Run (early ++ label :: late) state) :
    List.Forall₂ Shows late (machine.answers (late.map input)) ∧
      Related state (machine.after (late.map input)) := by
  induction late using List.reverseRecOn generalizing state with
  | nil =>
      rcases run.last with ⟨before, earlier, moved⟩
      have here := refines.step before _ label state (refines.run earlier).2 moved
      rw [resets] at here
      exact ⟨.nil, here.2⟩
  | append_singleton init last inductionHypothesis =>
      rw [← List.cons_append, ← List.append_assoc] at run
      rcases run.last with ⟨before, earlier, moved⟩
      rcases inductionHypothesis earlier with ⟨shown, related⟩
      have here := refines.step before _ last state related moved
      rw [List.map_append, List.map_singleton, answers_concat, after_concat]
      exact ⟨List.rel_append shown (.cons here.1 .nil), here.2⟩

end Refines
end Machine
end Foundations
end NexusHft
