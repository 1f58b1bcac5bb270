import NexusHft.Core.IntrusiveList
import NexusHft.Foundations.OrderedMap

namespace NexusHft

open Foundations

/-!
# The limit order book

Two price maps, each in its own key order, whose values are the price levels.
The source writes the bodies of `insert_order`, `cancel_order` and
`reduce_order` twice, once for each map, with the same text; here the map is
selected by the side of the node.  A reference to a level, such as the
iterator `it` or a `PriceLevel*`, is the key of its entry together with the
level itself, and a write through it replaces the value of that key.
-/

/-- A single price level holding all orders at this price: its key once more, the
sum of the quantities (modulo `2 ^ 64`, as the source keeps it), and the queue. -/
structure PriceLevel where
  price : Price
  totalVolume : Quantity := 0
  orders : IntrusiveList := {}
  deriving DecidableEq, Repr

/-- `orders.remove(node)` and `total_volume -= node->qty`. -/
def PriceLevel.unlink (level : PriceLevel) (heap : Heap) (node : OrderPtr) : Heap × PriceLevel :=
  let removed := level.orders.remove heap node
  (removed.1, { level with
    orders := removed.2, totalVolume := level.totalVolume - (removed.1 node).qty })

/-- `BidMap` for the buy side and `AskMap` for the sell side. -/
abbrev Levels (side : Side) := OrderedMap Price PriceLevel side.precedes

/-- The two maps of a book.  Their key orders differ, so that the best level of a
side always comes first: bids from the highest price, asks from the lowest. -/
structure OrderBook where
  bids : Levels .Buy := OrderedMap.empty
  asks : Levels .Sell := OrderedMap.empty

namespace OrderBook

def levels (book : OrderBook) : (side : Side) -> Levels side
  | .Buy => book.bids
  | .Sell => book.asks

def setLevels (book : OrderBook) : (side : Side) -> Levels side -> OrderBook
  | .Buy, levels => { book with bids := levels }
  | .Sell, levels => { book with asks := levels }

@[simp] theorem levels_setLevels (book : OrderBook) (side : Side) (levels : Levels side) :
    (book.setLevels side levels).levels side = levels := by
  cases side <;> rfl

theorem levels_setLevels_of_ne (book : OrderBook) {side other : Side} (levels : Levels side)
    (different : other ≠ side) : (book.setLevels side levels).levels other = book.levels other := by
  cases side <;> cases other <;> first | rfl | exact absurd rfl different

/-- `find`, and `emplace` if there is no level at the price: the map, and the
level the iterator refers to. -/
def levelFor (book : OrderBook) (side : Side) (price : Price) : Levels side × PriceLevel :=
  match (book.levels side).find price with
  | some level => (book.levels side, level)
  | none => ((book.levels side).emplace price { price := price }, { price := price })

def insertOrder (book : OrderBook) (heap : Heap) (node : OrderPtr) : Heap × OrderBook :=
  let side := (heap node).side
  let price := (heap node).price
  let found := book.levelFor side price
  let pushed := found.2.orders.pushBack heap node
  let level := { found.2 with
    orders := pushed.2, totalVolume := found.2.totalVolume + (pushed.1 node).qty }
  (pushed.1, book.setLevels side (found.1.set price level))

/-- Erase a level that holds no order, by the price written in the level. -/
def checkRemoveLevel (book : OrderBook) (level : PriceLevel) (side : Side) : OrderBook :=
  if level.orders.isEmpty then book.setLevels side ((book.levels side).erase level.price)
  else book

def cancelOrder (book : OrderBook) (heap : Heap) (node : OrderPtr) : Heap × OrderBook :=
  let side := (heap node).side
  let price := (heap node).price
  match (book.levels side).find price with
  | none => (heap, book)
  | some found =>
      let unlinked := found.unlink heap node
      (unlinked.1, (book.setLevels side
        ((book.levels side).set price unlinked.2)).checkRemoveLevel unlinked.2 side)

/-- Only reductions are allowed, so that the order keeps its time priority. -/
def reduceOrder (book : OrderBook) (heap : Heap) (node : OrderPtr) (newQty : Quantity) :
    Heap × OrderBook :=
  if newQty ≥ (heap node).qty then (heap, book)
  else
    let diff := (heap node).qty - newQty
    let side := (heap node).side
    let price := (heap node).price
    match (book.levels side).find price with
    | none => (heap.setQty node newQty, book)
    | some found =>
        let level := { found with totalVolume := found.totalVolume - diff }
        (heap.setQty node newQty, book.setLevels side ((book.levels side).set price level))

/-- The level `bids_.begin()` refers to, with its key. -/
def getBestBid (book : OrderBook) : Option (Price × PriceLevel) := book.bids.first

def getBestAsk (book : OrderBook) : Option (Price × PriceLevel) := book.asks.first

/-! ## Operations on a level that is or is not there -/

section Find

variable {book : OrderBook} {heap : Heap} {node : OrderPtr} {level : PriceLevel}

theorem cancelOrder_of_find
    (found : (book.levels (heap node).side).find (heap node).price = some level) :
    book.cancelOrder heap node = ((level.unlink heap node).1,
      (book.setLevels (heap node).side ((book.levels (heap node).side).set (heap node).price
        (level.unlink heap node).2)).checkRemoveLevel (level.unlink heap node).2
        (heap node).side) := by
  unfold cancelOrder
  simp only [found]

theorem cancelOrder_of_absent
    (absent : (book.levels (heap node).side).find (heap node).price = none) :
    book.cancelOrder heap node = (heap, book) := by
  unfold cancelOrder
  simp only [absent]

variable {newQty : Quantity}

theorem reduceOrder_of_le (le : (heap node).qty ≤ newQty) :
    book.reduceOrder heap node newQty = (heap, book) :=
  if_pos le

theorem reduceOrder_of_find (less : newQty < (heap node).qty)
    (found : (book.levels (heap node).side).find (heap node).price = some level) :
    book.reduceOrder heap node newQty = (heap.setQty node newQty,
      book.setLevels (heap node).side ((book.levels (heap node).side).set (heap node).price
        { level with totalVolume := level.totalVolume - ((heap node).qty - newQty) })) := by
  unfold reduceOrder
  simp only [if_neg (UInt64.not_le.mpr less), found]

theorem reduceOrder_of_absent (less : newQty < (heap node).qty)
    (absent : (book.levels (heap node).side).find (heap node).price = none) :
    book.reduceOrder heap node newQty = (heap.setQty node newQty, book) := by
  unfold reduceOrder
  simp only [if_neg (UInt64.not_le.mpr less), absent]

end Find

/-! ## Writing a level back -/

section WriteBack

variable {book : OrderBook} {side : Side}

/-- A level that is written through its reference and then checked: its entry
is replaced, or erased when the level holds no order any more. -/
theorem writeBack_levels (written : PriceLevel) {front back : List (Price × PriceLevel)} {found : PriceLevel} {key : Price}
    (split : (book.levels side).entries = front ++ (key, found) :: back)
    (price : written.price = key) :
    (((book.setLevels side ((book.levels side).set key written)).checkRemoveLevel written side).levels
        side).entries =
      front ++ (if written.orders.isEmpty then [] else [(key, written)]) ++ back := by
  have replaced := OrderedMap.set_entries split written
  unfold checkRemoveLevel
  split
  · rw [levels_setLevels, levels_setLevels, price, List.append_nil]
    exact OrderedMap.erase_entries replaced
  · rw [levels_setLevels, List.append_assoc]
    exact replaced

theorem writeBack_others {written : PriceLevel} {levels : Levels side} {other : Side} (different : other ≠ side) :
    ((book.setLevels side levels).checkRemoveLevel written side).levels other =
      book.levels other := by
  unfold checkRemoveLevel
  split
  · rw [levels_setLevels_of_ne _ _ different, levels_setLevels_of_ne _ _ different]
  · rw [levels_setLevels_of_ne _ _ different]

end WriteBack
end OrderBook
end NexusHft
