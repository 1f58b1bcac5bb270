import NexusHft.Engine.Commutation
import NexusHft.Engine.Depth
import NexusHft.Engine.PositiveQuantities
import NexusHft.Foundations.GreedyFill

namespace NexusHft

open Foundations

/-!
# Best execution

An incoming order takes from the resting orders it accepts in the order of their
price, as much as it wants and as there is.  So it executes all it could, and no
other way of executing as much costs a buyer less or brings a seller more.
-/

namespace Side

/-- What one unit at a price costs an order of the side. -/
def unitCost : Side -> Price -> Int
  | Buy, price => price.toNat
  | Sell, price => -price.toNat

theorem unitCost_lt_iff (side : Side) (first second : Price) :
    side.unitCost first < side.unitCost second <-> side.opposite.precedes first second := by
  cases side with
  | Buy =>
      change (first.toNat : Int) < second.toNat <-> first < second
      rw [UInt64.lt_iff_toNat_lt, Int.ofNat_lt]
  | Sell =>
      change -(first.toNat : Int) < -second.toNat <-> first > second
      rw [neg_lt_neg_iff, Int.ofNat_lt, gt_iff_lt, UInt64.lt_iff_toNat_lt]

theorem unitCost_le_iff (side : Side) (first second : Price) :
    side.unitCost first ≤ side.unitCost second <-> ¬ side.opposite.precedes second first := by
  rw [← unitCost_lt_iff, not_lt]

end Side

/-- How much trades have executed. -/
def tradedQty (trades : List Trade) : Nat := (trades.map fun trade => trade.qty.toNat).sum

/-- What they cost an order of a side. -/
def tradedCost (side : Side) (trades : List Trade) : Int :=
  (trades.map fun trade => (trade.qty.toNat : Int) * side.unitCost trade.price).sum

/-- How much a resting order can give. -/
def RestingOrder.capacity (maker : RestingOrder) : Nat := maker.qty.toNat

/-- The resting orders whose price is acceptable. -/
def LimitOrder.offers (incoming : LimitOrder) (makers : List RestingOrder) : List RestingOrder :=
  makers.filter fun maker => incoming.accepts maker.price

def LimitOrder.makerCost (incoming : LimitOrder) (maker : RestingOrder) : Int :=
  incoming.side.unitCost maker.price

section Sweep

variable (incoming : LimitOrder)

/-- Prices that only get worse are refused from the first refusal on. -/
theorem offers_of_refused {maker : RestingOrder} {makers : List RestingOrder}
    (sorted : (maker :: makers).Pairwise fun first second =>
      ¬ incoming.side.opposite.precedes second.price first.price)
    (refused : incoming.accepts maker.price ≠ true) : incoming.offers (maker :: makers) = [] := by
  have away : incoming.side.opposite.precedes incoming.price maker.price := by
    rw [ne_eq, LimitOrder.accepts_iff, not_not] at refused
    exact refused
  apply List.filter_eq_nil_iff.mpr
  intro other listed
  rw [LimitOrder.accepts_iff, not_not]
  rcases List.mem_cons.mp listed with isMaker | later
  · rw [isMaker]
    exact away
  · exact precedes_of_not_precedes away ((List.pairwise_cons.mp sorted).1 other later)

/-- A sweep takes from the offers in turn, from each as much as it wants and the
offer has.  It is the general filling of the library, with the makers' quantities
as capacities. -/
theorem sweep_greedy {makers : List RestingOrder}
    (sorted : makers.Pairwise fun first second =>
      ¬ incoming.side.opposite.precedes second.price first.price) (qty : Quantity) :
    tradedQty (sweep incoming qty makers).trades =
        (greedyFill RestingOrder.capacity qty.toNat (incoming.offers makers)).sum ∧
      tradedCost incoming.side (sweep incoming qty makers).trades =
        totalCost incoming.makerCost
          (greedyFill RestingOrder.capacity qty.toNat (incoming.offers makers))
          (incoming.offers makers) := by
  induction makers generalizing qty with
  | nil => exact ⟨rfl, rfl⟩
  | cons maker makers inductionHypothesis =>
      by_cases remains : qty > 0
      · by_cases accepted : incoming.accepts maker.price = true
        · have offered : incoming.offers (maker :: makers) = maker :: incoming.offers makers :=
            List.filter_cons_of_pos accepted
          have traded : (min qty maker.qty).toNat = min qty.toNat maker.capacity := toNat_min _ _
          rw [offered, greedyFill, totalCost, List.sum_cons]
          by_cases filled : maker.qty - min qty maker.qty = 0
          · have rest := inductionHypothesis (List.pairwise_cons.mp sorted).2
              (qty - min qty maker.qty)
            rw [toNat_sub_min_left] at rest
            rw [sweep_fill incoming maker remains accepted filled, tradedQty, tradedCost,
              List.map_cons, List.map_cons, List.sum_cons, List.sum_cons, traded]
            exact ⟨congrArg _ rest.1, congrArg _ rest.2⟩
          · have exhausted : qty.toNat - maker.capacity = 0 := by
              rw [eq_zero_iff_toNat, toNat_sub_min_right] at filled
              exact Nat.sub_eq_zero_of_le (by rw [RestingOrder.capacity]; omega)
            rw [sweep_unfilled incoming maker remains accepted filled, exhausted,
              greedyFill_zero_sum, greedyFill_zero_cost, tradedQty, tradedCost, List.map_singleton,
              List.map_singleton, List.sum_singleton, List.sum_singleton, traded, Nat.add_zero,
              add_zero]
            exact ⟨rfl, rfl⟩
        · rw [sweep_stop incoming accepted, offers_of_refused incoming sorted accepted]
          exact ⟨rfl, rfl⟩
      · have nothing : qty = 0 := eq_zero_of_not_pos remains
        rw [nothing, sweep_zero]
        exact ⟨(greedyFill_zero_sum _).symm, (greedyFill_zero_cost _).symm⟩

/-- The trades of a sweep are within the limit, and made best first. -/
theorem sweep_best_first {makers : List RestingOrder}
    (sorted : makers.Pairwise fun first second =>
      ¬ incoming.side.opposite.precedes second.price first.price) (qty : Quantity) :
    ((sweep incoming qty makers).trades.map fun trade => trade.price).Sublist
        ((incoming.offers makers).map fun maker => maker.price) := by
  induction makers generalizing qty with
  | nil => exact List.Sublist.refl _
  | cons maker makers inductionHypothesis =>
      by_cases going : qty > 0 ∧ incoming.accepts maker.price = true
      · have offered : incoming.offers (maker :: makers) = maker :: incoming.offers makers :=
          List.filter_cons_of_pos going.2
        rw [offered, List.map_cons]
        by_cases filled : maker.qty - min qty maker.qty = 0
        · rw [sweep_fill incoming maker going.1 going.2 filled, List.map_cons]
          exact (inductionHypothesis (List.pairwise_cons.mp sorted).2 _).cons_cons _
        · rw [sweep_unfilled incoming maker going.1 going.2 filled, List.map_singleton]
          exact (List.nil_sublist _).cons_cons _
      · rw [sweep, if_neg going]
        exact List.nil_sublist _

end Sweep

namespace PriorityBook

/-- The trades of an order are the best there are for it: they execute all that
can be executed within its limit, best price first, and no other way of taking as
much from the acceptable orders is cheaper. -/
structure BestExecution (book : PriorityBook) (order : LimitOrder) (trades : List Trade) : Prop where
  qty : tradedQty trades = min order.qty.toNat
    (((order.offers (book order.side.opposite)).map RestingOrder.capacity).sum)
  limit : forall trade, trade ∈ trades -> order.accepts trade.price = true
  bestFirst : trades.Pairwise fun first second =>
    order.side.unitCost first.price ≤ order.side.unitCost second.price
  cheapest : forall fills, Feasible RestingOrder.capacity fills
      (order.offers (book order.side.opposite)) -> fills.sum = tradedQty trades ->
    tradedCost order.side trades ≤
      totalCost order.makerCost fills (order.offers (book order.side.opposite))

theorem process_bestExecution {book : PriorityBook} (incoming : RestingOrder)
    (sorted : (book incoming.side.opposite).Pairwise fun first second =>
      ¬ incoming.side.opposite.precedes second.price first.price) :
    book.BestExecution incoming.toLimitOrder (book.process incoming).1 := by
  have ascending : ((incoming.offers (book incoming.side.opposite)).map fun maker =>
      maker.price).Pairwise fun first second =>
        incoming.side.unitCost first ≤ incoming.side.unitCost second := by
    rw [List.pairwise_map]
    refine (sorted.sublist List.filter_sublist).imp fun worse => ?_
    exact (Side.unitCost_le_iff _ _ _).mpr worse
  have greedy := sweep_greedy incoming.toLimitOrder sorted incoming.qty
  have within := sweep_best_first incoming.toLimitOrder sorted incoming.qty
  rw [process_trades rfl]
  constructor
  · rw [greedy.1, greedyFill_sum]
  · intro trade listed
    have priced := within.subset (List.mem_map_of_mem listed)
    rcases List.mem_map.mp priced with ⟨maker, offered, same⟩
    rw [← same]
    exact (List.mem_filter.mp offered).2
  · have ordered := ascending.sublist within
    rw [List.pairwise_map] at ordered
    exact ordered
  · intro fills feasible same
    rw [greedy.1] at same
    rw [greedy.2]
    rw [List.pairwise_map] at ascending
    exact greedyFill_cheapest ascending feasible same

end PriorityBook
end NexusHft
