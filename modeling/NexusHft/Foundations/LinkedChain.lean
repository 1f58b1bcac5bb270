import Mathlib.Data.List.Induction
import Mathlib.Data.List.Nodup
import Mathlib.Logic.Function.Basic
import NexusHft.Foundations.FreeList

namespace NexusHft
namespace Foundations

/-!
# Doubly linked chains

The cells of a doubly linked list, read off two link functions.  `Chain prev
next before cells after` says that the cells are linked to one another in both
directions, that the first one points back to `before` and that the last one
points on to `after`.  A whole list is a chain between `none` and `none`.

The link functions are the only heap there is: a program whose cells hold
other data instantiates them with two projections of its own heap.  The
lemmas say which link writes turn one chain into another, and what a chain
does not depend on.
-/

universe u

variable {Cell : Type u}

/-- Cells linked in both directions, entered from `before` and left to `after`. -/
def Chain (prev next : Cell -> Option Cell) :
    Option Cell -> List Cell -> Option Cell -> Prop
  | _, [], _ => True
  | before, cell :: cells, after =>
      prev cell = before ∧ next cell = cells.head?.or after ∧
        Chain prev next (some cell) cells after

/-- A cell that one meets on the way from a first cell along the next links.  It
is defined on links alone, so a list that loops would still be described. -/
inductive Reaches (next : Cell -> Option Cell) : Option Cell -> Cell -> Prop
  | here (cell : Cell) : Reaches next (some cell) cell
  | later {first cell : Cell} : Reaches next (next first) cell ->
      Reaches next (some first) cell

namespace Chain

variable {prev next prev' next' : Cell -> Option Cell}

/-- A chain depends only on the links of its own cells. -/
theorem congr {cells : List Cell} {before after : Option Cell}
    (samePrev : forall cell, cell ∈ cells -> prev' cell = prev cell)
    (sameNext : forall cell, cell ∈ cells -> next' cell = next cell)
    (chain : Chain prev next before cells after) :
    Chain prev' next' before cells after := by
  induction cells generalizing before with
  | nil => trivial
  | cons cell cells inductionHypothesis =>
      refine ⟨(samePrev cell List.mem_cons_self).trans chain.1,
        (sameNext cell List.mem_cons_self).trans chain.2.1, ?_⟩
      exact inductionHypothesis
        (fun other member => samePrev other (List.mem_cons_of_mem cell member))
        (fun other member => sameNext other (List.mem_cons_of_mem cell member)) chain.2.2

/-- A chain can be cut anywhere; the cut cells point at each other. -/
theorem append {front back : List Cell} {before after : Option Cell} :
    Chain prev next before (front ++ back) after <->
      Chain prev next before front (back.head?.or after) ∧
        Chain prev next (front.getLast?.or before) back after := by
  induction front generalizing before with
  | nil => simp [Chain]
  | cons cell front inductionHypothesis =>
      have last : (cell :: front).getLast?.or before = front.getLast?.or (some cell) := by
        cases front with
        | nil => rfl
        | cons second rest => simp [List.getLast?_cons]
      have head : (front ++ back).head?.or after = front.head?.or (back.head?.or after) := by
        cases front <;> rfl
      simp only [List.cons_append, Chain, inductionHypothesis, last, head, and_assoc]

/-- The cells of a chain and its two ends determine the links. -/
theorem same_links {cells : List Cell} {before after : Option Cell}
    (first : Chain prev next before cells after) (second : Chain prev' next' before cells after) :
    forall cell, cell ∈ cells -> prev cell = prev' cell ∧ next cell = next' cell := by
  induction cells generalizing before with
  | nil => exact fun _ member => absurd member List.not_mem_nil
  | cons cell cells inductionHypothesis =>
      intro other member
      rcases List.mem_cons.mp member with same | later
      · rw [same]
        exact ⟨first.1.trans second.1.symm, first.2.1.trans second.2.1.symm⟩
      · exact inductionHypothesis first.2.2 second.2.2 other later

/-- Point the last cell of a chain somewhere else. -/
theorem relinkNext {cells : List Cell} {before middle after : Option Cell}
    (samePrev : forall cell, cell ∈ cells -> prev' cell = prev cell)
    (sameNext : forall cell, cell ∈ cells -> cells.getLast? ≠ some cell ->
      next' cell = next cell)
    (lastNext : forall cell, cells.getLast? = some cell -> next' cell = after)
    (distinct : cells.Nodup) (chain : Chain prev next before cells middle) :
    Chain prev' next' before cells after := by
  induction cells generalizing before with
  | nil => trivial
  | cons cell cells inductionHypothesis =>
      have parts := List.nodup_cons.mp distinct
      refine ⟨(samePrev cell List.mem_cons_self).trans chain.1, ?_, ?_⟩
      · cases cells with
        | nil => exact lastNext cell rfl
        | cons second rest =>
            have notLast : (cell :: second :: rest).getLast? ≠ some cell := by
              rw [List.getLast?_cons_cons]
              exact fun equal => parts.1 (List.mem_of_getLast? equal)
            exact (sameNext cell List.mem_cons_self notLast).trans chain.2.1
      · cases cells with
        | nil => trivial
        | cons second rest =>
            have last : (cell :: second :: rest).getLast? = (second :: rest).getLast? :=
              List.getLast?_cons_cons
            exact inductionHypothesis
              (fun other member => samePrev other (List.mem_cons_of_mem cell member))
              (fun other member different => sameNext other
                (List.mem_cons_of_mem cell member) (last ▸ different))
              (fun other equal => lastNext other (last.trans equal)) parts.2 chain.2.2

/-- Point the first cell of a chain back to somewhere else. -/
theorem relinkPrev {cells : List Cell} {before middle after : Option Cell}
    (samePrev : forall cell, cell ∈ cells -> cells.head? ≠ some cell ->
      prev' cell = prev cell)
    (sameNext : forall cell, cell ∈ cells -> next' cell = next cell)
    (firstPrev : forall cell, cells.head? = some cell -> prev' cell = before)
    (distinct : cells.Nodup) (chain : Chain prev next middle cells after) :
    Chain prev' next' before cells after := by
  cases cells with
  | nil => trivial
  | cons cell cells =>
      have parts := List.nodup_cons.mp distinct
      refine ⟨firstPrev cell rfl, (sameNext cell List.mem_cons_self).trans chain.2.1, ?_⟩
      refine congr (fun other member => samePrev other (List.mem_cons_of_mem cell member) ?_)
        (fun other member => sameNext other (List.mem_cons_of_mem cell member)) chain.2.2
      intro equal
      exact parts.1 (Option.some.inj equal ▸ member)

/-- What follows a cell of a chain, and what precedes it. -/
theorem links {front back : List Cell} {cell : Cell} {before after : Option Cell}
    (chain : Chain prev next before (front ++ cell :: back) after) :
    prev cell = front.getLast?.or before ∧ next cell = back.head?.or after := by
  have parts := (append.mp chain).2
  exact ⟨parts.1, parts.2.1⟩

/-- The next links of a whole list visit its cells and no others.  So what a
reader of the links finds is the list, and the walk ends. -/
theorem reaches_iff {cells : List Cell} {before : Option Cell}
    (chain : Chain prev next before cells none) (cell : Cell) :
    Reaches next cells.head? cell <-> cell ∈ cells := by
  induction cells generalizing before with
  | nil =>
      constructor
      · intro found; cases found
      · intro member; cases member
  | cons first cells inductionHypothesis =>
      have follows : next first = cells.head? := chain.2.1.trans (Option.or_none)
      constructor
      · intro found
        cases found with
        | here => exact List.mem_cons_self
        | later rest =>
            rw [follows] at rest
            exact List.mem_cons_of_mem first ((inductionHypothesis chain.2.2).mp rest)
      · intro member
        rcases List.mem_cons.mp member with same | later
        · subst same
          exact Reaches.here cell
        · refine Reaches.later ?_
          rw [follows]
          exact (inductionHypothesis chain.2.2).mpr later

/-- The next links of a whole list lead from its first cell to null. -/
theorem forward {cells : List Cell} {before : Option Cell}
    (chain : Chain prev next before cells none) : Threaded next cells.head? cells := by
  induction cells generalizing before with
  | nil => rfl
  | cons cell cells inductionHypothesis =>
      apply And.intro rfl
      rw [chain.2.1, Option.or_none]
      exact inductionHypothesis chain.2.2

/-- Its prev links lead from the last cell to null, through the cells in reverse. -/
theorem backward {cells : List Cell} {after : Option Cell}
    (chain : Chain prev next none cells after) :
    Threaded prev cells.getLast? cells.reverse := by
  induction cells using List.reverseRecOn generalizing after with
  | nil => rfl
  | append_singleton init last inductionHypothesis =>
      have parts := append.mp chain
      rw [List.getLast?_concat, List.reverse_append, List.reverse_singleton]
      apply And.intro rfl
      rw [parts.2.1, Option.or_none]
      exact inductionHypothesis parts.1

/-- A first cell and the next links determine the cells of a whole list. -/
theorem unique {left right : List Cell} {before before' : Option Cell}
    (first : Chain prev next before left none) (second : Chain prev next before' right none)
    (sameHead : left.head? = right.head?) : left = right := by
  induction left generalizing right before before' with
  | nil =>
      cases right with
      | nil => rfl
      | cons cell cells => cases sameHead
  | cons cell cells inductionHypothesis =>
      cases right with
      | nil => cases sameHead
      | cons other others =>
          have same : cell = other := Option.some.inj sameHead
          subst same
          have follows := first.2.1.symm.trans second.2.1
          rw [Option.or_none, Option.or_none] at follows
          rw [inductionHypothesis first.2.2 second.2.2 follows]

end Chain
end Foundations
end NexusHft
