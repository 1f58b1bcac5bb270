import Mathlib.Algebra.Order.BigOperators.Group.List
import Mathlib.Algebra.Order.Ring.Nat

namespace NexusHft
namespace Foundations

/-!
# Transducers

A machine that reads one input after another; each input gives outputs and
changes the state.  How the inputs are grouped into blocks makes no difference,
and neither do inputs that are read as nothing.
-/

section Transduce

variable {State Input Symbol Output : Type}

/-- All outputs, and the state at the end. -/
def transduce (step : State -> Input -> List Output × State) :
    State -> List Input -> List Output × State
  | state, [] => ([], state)
  | state, input :: rest =>
      let here := step state input
      let later := transduce step here.2 rest
      (here.1 ++ later.1, later.2)

theorem transduce_append (step : State -> Input -> List Output × State) (state : State)
    (front back : List Input) :
    transduce step state (front ++ back) =
      ((transduce step state front).1 ++ (transduce step (transduce step state front).2 back).1,
        (transduce step (transduce step state front).2 back).2) := by
  induction front generalizing state with
  | nil => rfl
  | cons input front inductionHypothesis =>
      rw [List.cons_append, transduce, inductionHypothesis, transduce, List.append_assoc]

/-- Reading blocks is reading what they consist of. -/
theorem transduce_blocks (step : State -> Symbol -> List Output × State)
    (block : Input -> List Symbol) (state : State) (inputs : List Input) :
    transduce (fun state input => transduce step state (block input)) state inputs =
      transduce step state (inputs.flatMap block) := by
  induction inputs generalizing state with
  | nil => rfl
  | cons input inputs inductionHypothesis =>
      rw [List.flatMap_cons, transduce_append, transduce, inductionHypothesis]

/-- Inputs that are read as nothing can be left out. -/
theorem transduce_filterMap {step : State -> Input -> List Output × State}
    {act : State -> Symbol -> List Output × State} {read : Input -> Option Symbol}
    (reads : forall state input,
      step state input = (read input).elim ([], state) (act state))
    (state : State) (inputs : List Input) :
    transduce step state inputs = transduce act state (inputs.filterMap read) := by
  induction inputs generalizing state with
  | nil => rfl
  | cons input inputs inductionHypothesis =>
      rw [transduce, reads, inductionHypothesis]
      cases found : read input with
      | none => rw [List.filterMap_cons_none found, Option.elim_none, List.nil_append]
      | some symbol => rw [List.filterMap_cons_some found, Option.elim_some, transduce]

end Transduce

/-- Where every block of outputs is at most as long as it should be, and all of them
together are long enough, every block is as it should be. -/
theorem flatMap_blocks {Item Value : Type} {few many : Item -> List Value} {items : List Item}
    {rest : List Value} (shorter : forall item, item ∈ items -> (few item).length ≤ (many item).length)
    (same : items.flatMap few = items.flatMap many ++ rest) :
    forall item, item ∈ items -> few item = many item := by
  induction items generalizing rest with
  | nil =>
      intro item listed
      exact absurd listed List.not_mem_nil
  | cons first items inductionHypothesis =>
      have shorterRest := fun item listed => shorter item (List.mem_cons_of_mem first listed)
      have lengths : (items.flatMap few).length ≤ (items.flatMap many).length := by
        rw [List.length_flatMap, List.length_flatMap]
        exact List.sum_le_sum shorterRest
      have here := shorter first List.mem_cons_self
      rw [List.flatMap_cons, List.flatMap_cons, List.append_assoc] at same
      have total := congrArg List.length same
      simp only [List.length_append] at total
      rcases List.append_inj same (by omega) with ⟨sameFirst, sameRest⟩
      intro item listed
      rcases List.mem_cons.mp listed with isFirst | later
      · rw [isFirst, sameFirst]
      · exact inductionHypothesis shorterRest sameRest item later
end Foundations
end NexusHft
