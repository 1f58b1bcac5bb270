import Mathlib.Algebra.Order.BigOperators.Group.List
import Mathlib.Algebra.Order.Ring.Int
import Mathlib.Data.List.Forall2
import Mathlib.Tactic.Linarith

namespace NexusHft
namespace Foundations

/-!
# Filling from a list in turn

A quantity is taken from items one after another, from each as much as is wanted
and as it can give.  If the items are listed by their cost, no other way of
taking the same quantity from them costs less: the cost of the item at which the
taking stops separates the items that give all they can from those that give
nothing.
-/

section Greedy

variable {Item : Type} (capacity : Item -> Nat) (cost : Item -> Int)

/-- What each item gives. -/
def greedyFill : Nat -> List Item -> List Nat
  | _, [] => []
  | wanted, item :: items => min wanted (capacity item) :: greedyFill (wanted - capacity item) items

/-- No item gives more than it can. -/
def Feasible (fills : List Nat) (items : List Item) : Prop :=
  List.Forall₂ (fun fill item => fill ≤ capacity item) fills items

def totalCost : List Nat -> List Item -> Int
  | fill :: fills, item :: items => fill * cost item + totalCost fills items
  | _, _ => 0

/-- As much is given as is wanted and as there is. -/
theorem greedyFill_sum (wanted : Nat) (items : List Item) :
    (greedyFill capacity wanted items).sum = min wanted (items.map capacity).sum := by
  induction items generalizing wanted with
  | nil => exact (Nat.min_zero wanted).symm
  | cons item items inductionHypothesis =>
      rw [greedyFill, List.sum_cons, inductionHypothesis, List.map_cons, List.sum_cons]
      omega

variable {capacity cost}

/-- When nothing is wanted nothing is paid. -/
theorem greedyFill_zero_cost (items : List Item) :
    totalCost cost (greedyFill capacity 0 items) items = 0 := by
  induction items with
  | nil => rfl
  | cons item items inductionHypothesis =>
      rw [greedyFill, Nat.zero_min, Nat.zero_sub, totalCost, inductionHypothesis]
      simp

theorem greedyFill_zero_sum (items : List Item) : (greedyFill capacity 0 items).sum = 0 := by
  rw [greedyFill_sum, Nat.zero_min]

/-- Items that all cost a margin at least are paid the margin for everything they give. -/
theorem margin_le_totalCost {margin : Int} {fills : List Nat} {items : List Item}
    (feasible : Feasible capacity fills items) (above : forall item, item ∈ items -> margin ≤ cost item) :
    margin * fills.sum ≤ totalCost cost fills items := by
  induction feasible with
  | nil => simp [totalCost]
  | @cons fill item fills items _ _ inductionHypothesis =>
      have rest := inductionHypothesis fun other listed => above other (List.mem_cons_of_mem item listed)
      have here := mul_le_mul_of_nonneg_left (above item List.mem_cons_self) (Int.natCast_nonneg fill)
      rw [totalCost, List.sum_cons, Nat.cast_add]
      linarith

/-- The margin of a taking: measured from it, no feasible way of taking is better. -/
theorem exists_margin {items : List Item}
    (sorted : items.Pairwise fun first second => cost first ≤ cost second) (wanted : Nat)
    {bound : Int} (above : forall item, item ∈ items -> bound ≤ cost item) :
    Exists fun margin => bound ≤ margin ∧ forall fills, Feasible capacity fills items ->
      totalCost cost (greedyFill capacity wanted items) items + margin * fills.sum ≤
        totalCost cost fills items + margin * (greedyFill capacity wanted items).sum := by
  induction items generalizing wanted bound with
  | nil =>
      refine ⟨bound, le_refl _, fun fills feasible => ?_⟩
      cases feasible
      exact le_refl _
  | cons item items inductionHypothesis =>
      rcases List.pairwise_cons.mp sorted with ⟨dearer, sortedRest⟩
      have least := above item List.mem_cons_self
      by_cases stops : wanted ≤ capacity item
      · -- the item covers what is wanted, and the rest gives nothing
        refine ⟨cost item, least, fun fills feasible => ?_⟩
        rcases List.forall₂_cons_right_iff.mp feasible with ⟨fill, rest, -, feasibleRest, isFills⟩
        have paid := margin_le_totalCost feasibleRest dearer
        subst isFills
        rw [greedyFill, Nat.min_eq_left stops, Nat.sub_eq_zero_of_le stops, totalCost, totalCost,
          greedyFill_zero_cost, List.sum_cons, List.sum_cons, greedyFill_zero_sum, Nat.cast_add,
          Nat.cast_add, Nat.cast_zero]
        linarith
      · -- the item gives all it can, at no more than the margin of the rest
        rcases inductionHypothesis sortedRest (wanted - capacity item) dearer with
          ⟨margin, aboveItem, best⟩
        refine ⟨margin, le_trans least aboveItem, fun fills feasible => ?_⟩
        rcases List.forall₂_cons_right_iff.mp feasible with
          ⟨fill, rest, within, feasibleRest, isFills⟩
        subst isFills
        have here : (fill : Int) * (margin - cost item) ≤ capacity item * (margin - cost item) :=
          mul_le_mul_of_nonneg_right (Int.ofNat_le.mpr within) (by linarith)
        have later := best rest feasibleRest
        rw [greedyFill, Nat.min_eq_right (by omega), totalCost, totalCost, List.sum_cons,
          List.sum_cons, Nat.cast_add, Nat.cast_add]
        linarith

/-- Nothing is cheaper than taking from the items in the order of their cost. -/
theorem greedyFill_cheapest {items : List Item}
    (sorted : items.Pairwise fun first second => cost first ≤ cost second) {wanted : Nat}
    {fills : List Nat} (feasible : Feasible capacity fills items)
    (same : fills.sum = (greedyFill capacity wanted items).sum) :
    totalCost cost (greedyFill capacity wanted items) items ≤ totalCost cost fills items := by
  cases items with
  | nil =>
      cases feasible
      exact le_refl _
  | cons item items =>
      have above : forall other, other ∈ item :: items -> cost item ≤ cost other := by
        intro other listed
        rcases List.mem_cons.mp listed with isItem | later
        · rw [isItem]
        · exact (List.pairwise_cons.mp sorted).1 other later
      rcases exists_margin sorted wanted above with ⟨margin, -, best⟩
      have bound := best fills feasible
      rw [same] at bound
      linarith

end Greedy
end Foundations
end NexusHft
