import Mathlib.Data.Nat.Basic

namespace NexusHft
namespace Foundations

/-!
# Loops with a pass budget

A `while` loop whose body may `break` is a body that answers either `done`
with the final state or `yield` with the state of the next pass.  The budget
bounds the passes: a loop that needs more answers `none`, so that nothing
about a result is ever concluded from a loop that does not return.  The body
itself may fail to return, since it can contain another loop.

A result does not depend on the budget, so that some budget with a result is the
statement that the loop returns.
-/

namespace BoundedLoop

universe u

variable {State : Type u}

/-- Run the body until it answers `done`. -/
def run (body : State -> Option (ForInStep State)) : Nat -> State -> Option State
  | 0, _ => none
  | budget + 1, state =>
      match body state with
      | none => none
      | some (.done final) => some final
      | some (.yield next) => run body budget next

theorem run_done {body : State -> Option (ForInStep State)} {state final : State}
    (pass : body state = some (.done final)) (budget : Nat) :
    run body (budget + 1) state = some final := by
  rw [run, pass]

theorem run_yield {body : State -> Option (ForInStep State)} {state next : State}
    (pass : body state = some (.yield next)) (budget : Nat) :
    run body (budget + 1) state = run body budget next := by
  rw [run, pass]

/-- A result does not depend on the budget that found it, also when the body
was itself given a larger budget. -/
theorem run_mono {body larger : State -> Option (ForInStep State)}
    (agrees : forall state answer, body state = some answer -> larger state = some answer)
    {budget more : Nat} (enough : budget ≤ more) {state final : State}
    (returned : run body budget state = some final) :
    run larger more state = some final := by
  induction budget generalizing more state with
  | zero => exact absurd returned (by simp [run])
  | succ budget inductionHypothesis =>
      obtain ⟨rest, rfl⟩ : Exists fun rest => more = rest + 1 :=
        ⟨more - 1, by omega⟩
      cases pass : body state with
      | none => exact absurd returned (by simp [run, pass])
      | some answer =>
          have same := agrees state answer pass
          cases answer with
          | done last =>
              rw [run_done pass] at returned
              rw [run_done same]
              exact returned
          | yield next =>
              rw [run_yield pass] at returned
              rw [run_yield same]
              exact inductionHypothesis (by omega) returned

/-! ## Counted passes -/

/-- The loop goes on exactly this many times before it answers `done`.  This says
of a loop that it returns and after how many passes, without a budget. -/
inductive Passes (body : State -> Option (ForInStep State)) : Nat -> State -> State -> Prop
  | done {state final : State} : body state = some (.done final) -> Passes body 0 state final
  | yield {count : Nat} {state next final : State} : body state = some (.yield next) ->
      Passes body count next final -> Passes body (count + 1) state final

/-- A budget beyond the passes finds the result. -/
theorem Passes.run {body : State -> Option (ForInStep State)} {count : Nat} {state final : State}
    (passes : Passes body count state final) {budget : Nat} (enough : count < budget) :
    BoundedLoop.run body budget state = some final := by
  induction passes generalizing budget with
  | done ends =>
      obtain ⟨fewer, rfl⟩ : Exists fun fewer => budget = fewer + 1 := ⟨budget - 1, by omega⟩
      exact run_done ends fewer
  | yield goesOn _ inductionHypothesis =>
      obtain ⟨fewer, rfl⟩ : Exists fun fewer => budget = fewer + 1 := ⟨budget - 1, by omega⟩
      rw [run_yield goesOn]
      exact inductionHypothesis (by omega)

/-! ## Translating states -/

section Translation

universe v

variable {State' : Type v}

/-- Translate the state that a pass ends in. -/
def translateStep (translate : State -> State') : ForInStep State -> ForInStep State'
  | .done final => .done (translate final)
  | .yield next => .yield (translate next)

/-- Two loops whose passes correspond run alike. -/
theorem run_translate (translate : State -> State') {body : State -> Option (ForInStep State)}
    {body' : State' -> Option (ForInStep State')}
    (corresponds : forall state,
      body' (translate state) = (body state).map (translateStep translate))
    (budget : Nat) (state : State) :
    run body' budget (translate state) = (run body budget state).map translate := by
  induction budget generalizing state with
  | zero => rfl
  | succ budget inductionHypothesis =>
      rw [run, run, corresponds state]
      cases body state with
      | none => rfl
      | some answer =>
          cases answer with
          | done final => rfl
          | yield next => exact inductionHypothesis next

end Translation
end BoundedLoop
end Foundations
end NexusHft
