import Mathlib.Data.List.Induction

namespace NexusHft
namespace Foundations

/-!
# Finite runs of a labelled transition system

A run records its labels oldest first, so that a property of a run can speak
of what happened before a given step.  An invariant may therefore inspect the
labels already recorded as well as the state: accounting identities need the
past, not only the present.

Nothing here fixes the states or the labels.  An interleaving of parties is a
system whose labels name the party that moved; a sequential program is a
system whose labels are its requests together with their answers.
-/

universe u v w

/-- Start states and labelled steps.  A label that a state refuses has no step,
and one that it can answer in several ways has several. -/
structure LabelledSystem (State : Type u) (Label : Type v) where
  starts : State -> Prop
  step : State -> Label -> State -> Prop

namespace LabelledSystem

variable {State : Type u} {Label : Type v}

/-- A finite run from a start state, with its labels oldest first.  Invariants are
proved by induction on it, about the labels and the state together. -/
inductive Run (system : LabelledSystem State Label) : List Label -> State -> Prop
  | start {state : State} : system.starts state -> Run system [] state
  | step {past : List Label} {state next : State} {label : Label} :
      Run system past state -> system.step state label next ->
        Run system (past ++ [label]) next

/-- The induction on runs, stated once: what holds at the start and is kept by
every step of a run holds at the end of every run.  The step may use the run
that leads to it, hence every invariant proved before. -/
theorem Run.invariant {system : LabelledSystem State Label}
    (Inv : List Label -> State -> Prop)
    (initial : forall state, system.starts state -> Inv [] state)
    (preserved : forall past state label next, system.Run past state ->
      Inv past state -> system.step state label next -> Inv (past ++ [label]) next)
    {labels : List Label} {state : State} (run : system.Run labels state) :
    Inv labels state := by
  induction run with
  | start begins => exact initial _ begins
  | step earlier moved inductionHypothesis =>
      exact preserved _ _ _ _ earlier inductionHypothesis moved

/-- An invariant of the state alone. -/
theorem Run.stateInvariant {system : LabelledSystem State Label} (Inv : State -> Prop)
    (initial : forall state, system.starts state -> Inv state)
    (preserved : forall state label next, Inv state ->
      system.step state label next -> Inv next)
    {labels : List Label} {state : State} (run : system.Run labels state) : Inv state :=
  run.invariant (fun _ state => Inv state) initial
    (fun _ state label next _ holds moved => preserved state label next holds moved)

/-- Cut a run before its last label. -/
theorem Run.last {system : LabelledSystem State Label} {past : List Label}
    {label : Label} {next : State} (run : system.Run (past ++ [label]) next) :
    Exists fun state => system.Run past state ∧ system.step state label next := by
  generalize labels : past ++ [label] = all at run
  cases run with
  | start begins => exact absurd labels (by simp)
  | step earlier moved =>
      have parts := List.append_inj' labels rfl
      have same := List.singleton_inj.mp parts.2
      rw [parts.1, same]
      exact ⟨_, earlier, moved⟩

/-- A run without labels is at its start. -/
theorem Run.begins {system : LabelledSystem State Label} {state : State}
    (run : system.Run [] state) : system.starts state := by
  generalize labels : ([] : List Label) = none at run
  cases run with
  | start begins => exact begins
  | step earlier moved => exact absurd labels (by simp)

/-- What is observed of the labels determines a run, if it determines each step.
The states need not be observed; they follow. -/
theorem Run.unique {system : LabelledSystem State Label} {Observed : Type w}
    (observe : Label -> Observed)
    (starts : forall start start', system.starts start -> system.starts start' -> start = start')
    (determined : forall state label label' next next', system.step state label next ->
      system.step state label' next' -> observe label = observe label' ->
        label = label' ∧ next = next')
    {labels labels' : List Label} {state state' : State} (run : system.Run labels state)
    (run' : system.Run labels' state') (same : labels.map observe = labels'.map observe) :
    labels = labels' ∧ state = state' := by
  induction run generalizing labels' state' with
  | start begins =>
      have empty : labels' = [] := List.map_eq_nil_iff.mp same.symm
      subst empty
      exact ⟨rfl, starts _ _ begins run'.begins⟩
  | @step past before next label earlier moved inductionHypothesis =>
      cases labels' using List.reverseRecOn with
      | nil => exact absurd same (by simp)
      | append_singleton past' label' =>
          rw [List.map_append, List.map_append] at same
          have parts := List.append_inj' same rfl
          rcases run'.last with ⟨before', earlier', moved'⟩
          rcases inductionHypothesis earlier' parts.1 with ⟨samePast, sameBefore⟩
          rw [← sameBefore] at moved'
          rcases determined before label label' next state' moved moved'
            (List.singleton_inj.mp parts.2) with ⟨sameLabel, sameNext⟩
          rw [samePast, sameLabel]
          exact ⟨rfl, sameNext⟩

/-- What one label brings about and every later label keeps holds at the end. -/
theorem Run.since {system : LabelledSystem State Label} (Post : State -> Prop)
    (Occurs Keeps : Label -> Prop)
    (brought : forall past state label next, system.Run past state ->
      system.step state label next -> Occurs label -> Post next)
    (kept : forall past state label next, system.Run past state ->
      system.step state label next -> Keeps label -> Post state -> Post next)
    {early late : List Label} {label : Label} (occurs : Occurs label)
    (keeps : forall later, later ∈ late -> Keeps later) {state : State}
    (run : system.Run (early ++ label :: late) state) : Post state := by
  induction late using List.reverseRecOn generalizing state with
  | nil =>
      rcases run.last with ⟨before, earlier, moved⟩
      exact brought early before label state earlier moved occurs
  | append_singleton init last inductionHypothesis =>
      rw [← List.cons_append, ← List.append_assoc] at run
      rcases run.last with ⟨before, earlier, moved⟩
      refine kept _ before last state earlier moved (keeps last (by simp)) ?_
      exact inductionHypothesis (fun later member => keeps later (by simp [member])) earlier

/-- A system that allows more from the states of an invariant has all the runs
of the smaller one. -/
theorem Run.widen {small large : LabelledSystem State Label} (Inv : State -> Prop)
    (starts : forall state, small.starts state -> large.starts state)
    (kept : forall {labels state}, small.Run labels state -> Inv state)
    (step : forall state label next, Inv state -> small.step state label next ->
      large.step state label next)
    {labels : List Label} {state : State} (run : small.Run labels state) :
    large.Run labels state := by
  induction run with
  | start begins => exact Run.start (starts _ begins)
  | step earlier moved inductionHypothesis =>
      exact Run.step inductionHypothesis (step _ _ _ (kept earlier) moved)

/-- A run can be gone on with from where it has ended. -/
theorem Run.append {system : LabelledSystem State Label} {labels more : List Label}
    {state next : State} (run : system.Run labels state)
    (rest : Run { system with starts := fun start => start = state } more next) :
    system.Run (labels ++ more) next := by
  induction rest with
  | @start last begins =>
      have same : last = state := begins
      rw [List.append_nil, same]
      exact run
  | step earlier moved inductionHypothesis =>
      rw [← List.append_assoc]
      exact inductionHypothesis.step moved

/-- Cut a run at any of its labels. -/
theorem Run.cut {system : LabelledSystem State Label} {early late : List Label} {label : Label}
    {state : State} (run : system.Run (early ++ label :: late) state) :
    Exists fun before => Exists fun next =>
      system.Run early before ∧ system.step before label next := by
  induction late using List.reverseRecOn generalizing state with
  | nil =>
      rcases run.last with ⟨before, earlier, moved⟩
      exact ⟨before, state, earlier, moved⟩
  | append_singleton init last inductionHypothesis =>
      rw [← List.cons_append, ← List.append_assoc] at run
      rcases run.last with ⟨before, earlier, -⟩
      exact inductionHypothesis earlier

end LabelledSystem

/-! ## What was written last -/

section LastWritten

variable {Label : Type v} {Value : Type w}

/-- The value that the last writing label wrote. -/
def LastWritten (writes : Label -> Option Value) (past : List Label) (value : Value) : Prop :=
  Exists fun early => Exists fun label => Exists fun late =>
    past = early ++ label :: late ∧ writes label = some value ∧
      forall later, later ∈ late -> writes later = none

variable {writes : Label -> Option Value} {past : List Label} {label : Label} {value : Value}

theorem not_lastWritten_nil : ¬ LastWritten writes [] value := by
  rintro ⟨early, label, late, cut, -⟩
  exact absurd cut.symm (by simp)

/-- A label that writes nothing leaves the last value. -/
theorem lastWritten_of_silent (silent : writes label = none) :
    LastWritten writes (past ++ [label]) value <-> LastWritten writes past value := by
  constructor
  · rintro ⟨early, writer, late, cut, wrote, quiet⟩
    cases late using List.reverseRecOn with
    | nil =>
        have last := (List.append_inj' cut rfl).2
        rw [List.singleton_inj.mp last] at silent
        exact absurd (wrote.symm.trans silent) (by simp)
    | append_singleton init last =>
        rw [← List.cons_append, ← List.append_assoc] at cut
        refine ⟨early, writer, init, (List.append_inj' cut rfl).1, wrote, ?_⟩
        exact fun later member => quiet later (List.mem_append_left [last] member)
  · rintro ⟨early, writer, late, cut, wrote, quiet⟩
    refine ⟨early, writer, late ++ [label], by rw [cut, List.append_assoc, List.cons_append],
      wrote, ?_⟩
    intro later member
    rcases List.mem_append.mp member with earlier | last
    · exact quiet later earlier
    · rw [List.mem_singleton.mp last]
      exact silent

/-- A label that writes replaces the last value. -/
theorem lastWritten_of_writes {written : Value} (wrote : writes label = some written) :
    LastWritten writes (past ++ [label]) value <-> written = value := by
  constructor
  · rintro ⟨early, writer, late, cut, wrote', quiet⟩
    cases late using List.reverseRecOn with
    | nil =>
        have last := (List.append_inj' cut rfl).2
        rw [List.singleton_inj.mp last] at wrote
        exact Option.some.inj (wrote.symm.trans wrote')
    | append_singleton init last =>
        rw [← List.cons_append, ← List.append_assoc] at cut
        have isLast := List.singleton_inj.mp (List.append_inj' cut rfl).2
        have silent := quiet last (by simp)
        rw [← isLast, wrote] at silent
        exact absurd silent (by simp)
  · rintro rfl
    exact ⟨past, label, [], rfl, wrote, fun _ member => absurd member List.not_mem_nil⟩

end LastWritten
end Foundations
end NexusHft
