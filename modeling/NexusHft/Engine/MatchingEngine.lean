import NexusHft.Core.OrderBook
import NexusHft.Foundations.BoundedLoop

namespace NexusHft

open Foundations

/-!
# The matching engine

`matchBuyOrder` and `matchSellOrder` are written out twice in the source with
opposite comparisons.  Here they are one loop, `matchAgainst`, applied to the
map each one reads and to the test each one breaks on.  The loops read the
incoming and the resting quantities from memory in every pass, as the source
does, so nothing is assumed about a node that is both.

The passes of a loop are budgeted; see `BoundedLoop`.  A result with one
budget is a result with every larger one.
-/

/-- A trade as the engine reports it, always at the price of the level at which
the maker stands. -/
structure Trade where
  makerOrderId : OrderId
  takerOrderId : OrderId
  price : Price
  qty : Quantity
  deriving DecidableEq, Repr

/-- The book with the memory its order nodes live in.  The nodes belong to the
caller, who may put anything into those that do not rest. -/
structure Engine where
  heap : Heap
  book : OrderBook := {}

/-- What the inner loop changes: memory, the level it walks, the trades so far,
and the node it stands at, which is read before the node is unlinked. -/
structure LevelPass where
  heap : Heap
  level : PriceLevel
  trades : List Trade
  resting : Option OrderPtr

/-- What the outer loop changes: the engine, from whose map it erases the levels
that are used up, and the trades so far. -/
structure Matching where
  engine : Engine
  trades : List Trade := []

namespace Engine

/-- One pass of the inner loop, `while (resting_order && incoming_order->qty > 0)`. -/
def fillResting (incoming : OrderPtr) (pass : LevelPass) : Option (ForInStep LevelPass) :=
  match pass.resting with
  | none => some (.done pass)
  | some resting =>
      if (pass.heap incoming).qty > 0 then
        let tradeQty := min (pass.heap incoming).qty (pass.heap resting).qty
        let trade : Trade :=
          ⟨(pass.heap resting).id, (pass.heap incoming).id, pass.level.price, tradeQty⟩
        let taken := pass.heap.setQty incoming ((pass.heap incoming).qty - tradeQty)
        let filled := taken.setQty resting ((taken resting).qty - tradeQty)
        let nextOrder := (filled resting).next
        let removed :=
          if (filled resting).qty = 0 then pass.level.orders.remove filled resting
          else (filled, pass.level.orders)
        some (.yield {
          heap := removed.1
          level := { pass.level with
            totalVolume := pass.level.totalVolume - tradeQty, orders := removed.2 }
          trades := pass.trades ++ [trade]
          resting := nextOrder })
      else some (.done pass)

/-- One pass of the outer loop, `while (incoming_order->qty > 0)`, over the levels
of one side.  `stops best limit` is the test the loop breaks on. -/
def matchLevel (side : Side) (stops : Price -> Price -> Bool) (budget : Nat)
    (incoming : OrderPtr) (state : Matching) : Option (ForInStep Matching) :=
  let heap := state.engine.heap
  let levels := state.engine.book.levels side
  if (heap incoming).qty > 0 then
    match levels.first with
    | none => some (.done state)
    | some (key, best) =>
        if stops best.price (heap incoming).price then some (.done state)
        else
          match BoundedLoop.run (fillResting incoming) budget
              { heap := heap, level := best, trades := state.trades,
                resting := best.orders.head } with
          | none => none
          | some walked =>
              let book := state.engine.book.setLevels side (levels.set key walked.level)
              some (.yield {
                engine := {
                  heap := walked.heap, book := book.checkRemoveLevel walked.level side }
                trades := walked.trades })
  else some (.done state)

def matchAgainst (side : Side) (stops : Price -> Price -> Bool) (budget : Nat)
    (engine : Engine) (incoming : OrderPtr) : Option Matching :=
  BoundedLoop.run (matchLevel side stops budget incoming) budget { engine := engine }

def matchBuyOrder (budget : Nat) (engine : Engine) (incoming : OrderPtr) : Option Matching :=
  matchAgainst .Sell (fun best limit => decide (best > limit)) budget engine incoming

def matchSellOrder (budget : Nat) (engine : Engine) (incoming : OrderPtr) : Option Matching :=
  matchAgainst .Buy (fun best limit => decide (best < limit)) budget engine incoming

/-- If the order has remaining quantity, add it to the resting order book. -/
def restRemainder (incoming : OrderPtr) (final : Matching) : List Trade × Engine :=
  if (final.engine.heap incoming).qty > 0 then
    let inserted := final.engine.book.insertOrder final.engine.heap incoming
    (final.trades, ⟨inserted.1, inserted.2⟩)
  else (final.trades, final.engine)

def processLimitOrder (budget : Nat) (engine : Engine) (incoming : OrderPtr) :
    Option (List Trade × Engine) :=
  match (engine.heap incoming).side with
  | .Buy => (matchBuyOrder budget engine incoming).map (restRemainder incoming)
  | .Sell => (matchSellOrder budget engine incoming).map (restRemainder incoming)

def cancelOrder (engine : Engine) (node : OrderPtr) : Engine :=
  let cancelled := engine.book.cancelOrder engine.heap node
  ⟨cancelled.1, cancelled.2⟩

def reduceOrder (engine : Engine) (node : OrderPtr) (newQty : Quantity) : Engine :=
  let reduced := engine.book.reduceOrder engine.heap node newQty
  ⟨reduced.1, reduced.2⟩

/-! ## Both sides at once -/

/-- The break test of both matching functions: the limit precedes the best
price in the order of the side that is read. -/
def stopsAt (side : Side) (best limit : Price) : Bool := decide (side.precedes limit best)

theorem processLimitOrder_eq (budget : Nat) (engine : Engine) (incoming : OrderPtr) :
    processLimitOrder budget engine incoming =
      (matchAgainst (engine.heap incoming).side.opposite
        (stopsAt (engine.heap incoming).side.opposite) budget engine incoming).map
        (restRemainder incoming) := by
  unfold processLimitOrder
  cases side : (engine.heap incoming).side <;> rfl

end Engine
end NexusHft
