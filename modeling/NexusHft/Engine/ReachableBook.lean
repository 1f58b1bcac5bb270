import NexusHft.Engine.Requests
import Mathlib.Data.List.Flatten

namespace NexusHft

open Foundations

/-!
# What holds of every reachable book

The engine refines the priority book; its levels, lists, links and volumes stay
consistent; and no bid ever meets an ask.  Each result is about every run of
requests from the empty book.
-/

namespace Engine

/-! ## Refinement of price-time priority -/

/-- A reachable engine shows the priority book of the requests that led to it. -/
theorem reachable_shows {past : List Served} {engine : Engine} (run : system.Run past engine) :
    engine.Shows (PriorityBook.afterRequests (past.map Served.request)) := by
  refine run.invariant (fun past engine =>
    engine.Shows (PriorityBook.afterRequests (past.map Served.request))) ?_ ?_
  · exact fun engine empty => ⟨_, represents_of_empty empty, rfl⟩
  · rintro past before served next - ⟨layout, represents, shown⟩ ⟨-, admits, answers⟩
    rcases serve_spec represents admits answers with ⟨layout', effect, meaning⟩
    refine ⟨layout', effect.represents, ?_⟩
    rw [List.map_append, List.map_singleton, PriorityBook.afterRequests_concat, ← shown, ← meaning]

/-- A reachable engine shows the priority book that the requests before have led to, and
an order submitted to it trades and comes to rest as in that book.  The loops return
for every large enough budget, and memory that is neither resting nor the order's
own is left alone. -/
theorem processLimitOrder_priceTime {past : List Served} {engine : Engine}
    (run : system.Run past engine) :
    engine.Shows (PriorityBook.afterRequests (past.map Served.request)) ∧
      forall node order, ¬ engine.Resting node ->
        Exists fun next => Exists fun enough =>
          (forall budget, enough ≤ budget ->
            (engine.prepared (.submit node order)).processLimitOrder budget node =
              some (((PriorityBook.afterRequests (past.map Served.request)).process
                { order with node := node }).1, next)) ∧
          next.Shows ((PriorityBook.afterRequests (past.map Served.request)).process
            { order with node := node }).2 ∧
          forall other, other ≠ node -> ¬ engine.Resting other ->
            next.heap other = engine.heap other := by
  refine ⟨reachable_shows run, fun node order free => ?_⟩
  rcases reachable_shows run with ⟨layout, represents, shown⟩
  rcases serve_run (.submit node order) represents free with
    ⟨trades, next, layout', enough, served, effect, meaning⟩
  change _ = (layout.orders engine.heap).process { order with node := node } at meaning
  rw [shown] at meaning
  rw [← meaning]
  refine ⟨next, enough, served, ⟨layout', effect.represents, rfl⟩, ?_⟩
  intro other different away
  refine (effect.frame other ?_ different).trans (Heap.construct_of_ne _ _ different)
  exact represents.not_mem_of_not_resting away

/-- A buy of nine meets three asks at its price, of which the first has been cut. -/
theorem processLimitOrder_priceTime_busy :
    Exists fun next => Exists fun enough =>
      (forall budget, enough ≤ budget ->
        (busyEngine.prepared (.submit 7 ⟨7, 101, 9, .Buy⟩)).processLimitOrder budget 7 =
          some ([⟨1, 7, 101, 3⟩, ⟨2, 7, 101, 4⟩, ⟨3, 7, 101, 2⟩], next)) ∧
      next.Shows ((PriorityBook.afterRequests (submits busyOrders)).process
        ⟨⟨7, 101, 9, .Buy⟩, 7⟩).2 := by
  have unused : ¬ busyEngine.Resting 7 := busy_served.2 7 (by decide)
  rcases (processLimitOrder_priceTime busyRun).2 7 ⟨7, 101, 9, .Buy⟩ unused with
    ⟨next, enough, served, shows, -⟩
  exact ⟨next, enough, served, shows⟩

/-! ## The representation invariant -/

/-- One entry of a map, with the queue its list holds: it is not empty, its nodes
belong to this price and side, and the volume is their sum as the word keeps it.
-/
structure EntryShape (heap : Heap) (side : Side) (entry : Price × PriceLevel)
    (queue : List OrderPtr) : Prop where
  nonempty : queue ≠ []
  holds : IntrusiveList.Holds heap entry.2.orders queue
  key : entry.2.price = entry.1
  placed : forall node, node ∈ queue -> (heap node).price = entry.1 ∧ (heap node).side = side
  volume : entry.2.totalVolume.toNat = quantitySum heap queue % 2 ^ 64

/-- A book is well formed: each entry has the shape of a level, and no node is in
the lists of two of them.  This is said of the maps and links alone, as a reader
of the source would check it. -/
structure WellFormed (engine : Engine) : Prop where
  entries : forall side entry, entry ∈ (engine.book.levels side).entries ->
    Exists fun queue => EntryShape engine.heap side entry queue
  once : forall node side entry side' entry',
    entry ∈ (engine.book.levels side).entries -> entry' ∈ (engine.book.levels side').entries ->
    Reaches engine.heap.nextLink entry.2.orders.head node ->
    Reaches engine.heap.nextLink entry'.2.orders.head node -> side = side' ∧ entry = entry'

theorem Represents.entryShape {engine : Engine} {layout : Layout}
    (represents : engine.Represents layout) {side : Side} {entry : Price × PriceLevel}
    (listed : entry ∈ (engine.book.levels side).entries) :
    Exists fun level => level ∈ layout side ∧ levelEntry engine.heap level = entry ∧
      EntryShape engine.heap side entry level.2 := by
  rw [represents.entries side] at listed
  rcases List.mem_map.mp listed with ⟨level, member, same⟩
  have shape := represents.shape side level member
  refine ⟨level, member, same, ?_⟩
  subst same
  exact ⟨shape.nonempty, shape.holds, rfl, shape.placed, UInt64.toNat_ofNat'⟩

theorem Represents.wellFormed {engine : Engine} {layout : Layout}
    (represents : engine.Represents layout) : engine.WellFormed where
  entries := by
    intro side entry listed
    rcases represents.entryShape listed with ⟨level, -, -, shape⟩
    exact ⟨level.2, shape⟩
  once := by
    intro node side entry side' entry' listed listed' reached reached'
    rcases represents.entryShape listed with ⟨level, member, same, shape⟩
    rcases represents.entryShape listed' with ⟨level', member', same', shape'⟩
    have queued := (shape.holds.reaches_iff node).mp reached
    have queued' := (shape'.holds.reaches_iff node).mp reached'
    have sides : side = side' := (shape.placed node queued).2.symm.trans (shape'.placed node queued').2
    subst sides
    refine ⟨rfl, ?_⟩
    by_contra different
    rcases List.append_of_mem member with ⟨front, back, split⟩
    have elsewhere : level' ∈ front ++ back := by
      rw [split] at member'
      rcases List.mem_append.mp member' with early | late
      · exact List.mem_append_left _ early
      · rcases List.mem_cons.mp late with equal | later
        · exact absurd (by rw [← same, ← same', equal]) different
        · exact List.mem_append_right _ later
    exact represents.level_unique split elsewhere queued' queued

/-- Every reachable book is well formed, whatever orders, cancels and reductions
it was asked to serve. -/
theorem reachable_wellFormed {past : List Served} {engine : Engine} (run : system.Run past engine) :
    engine.WellFormed := by
  rcases reachable_represents run with ⟨layout, represents⟩
  exact represents.wellFormed

theorem reachable_wellFormed_short : shortEngine.WellFormed :=
  reachable_wellFormed shortRun

/-! ## The book is never crossed or locked -/

end Engine

namespace PriorityBook

/-- Every resting order of a side is strictly away from every resting order of the other. -/
def Apart (book : PriorityBook) (side : Side) : Prop := forall mine other, mine ∈ book side ->
  other ∈ book side.opposite -> side.opposite.precedes mine.price other.price

theorem Apart.opposite {book : PriorityBook} {side : Side} (apart : book.Apart side) :
    book.Apart side.opposite := by
  intro mine other mineIn otherIn
  rw [Side.opposite_opposite] at otherIn ⊢
  exact (Side.precedes_opposite side other.price mine.price).mp (apart other mine otherIn mineIn)

theorem Apart.of_prices {book book' : PriorityBook} {side : Side} (apart : book.Apart side)
    (kept : forall other order, order ∈ book' other ->
      Exists fun earlier => earlier ∈ book other ∧ earlier.price = order.price) :
    book'.Apart side := by
  intro mine other mineIn otherIn
  rcases kept side mine mineIn with ⟨mine', mineIn', samePrice⟩
  rcases kept side.opposite other otherIn with ⟨other', otherIn', samePrice'⟩
  rw [← samePrice, ← samePrice']
  exact apart mine' other' mineIn' otherIn'

/-- Processing keeps the sides apart: an order comes to rest only when the whole
other side refuses its price. -/
theorem process_apart {book : PriorityBook} (incoming : RestingOrder)
    (sorted : (book incoming.side.opposite).Pairwise (fun first second =>
      ¬ incoming.side.opposite.precedes second.price first.price))
    (apart : book.Apart incoming.side) : (book.process incoming).2.Apart incoming.side := by
  generalize sweptEq : sweep incoming.toLimitOrder incoming.qty (book incoming.side.opposite) = swept
  have ownSide := incoming.side.opposite_ne.symm
  have left : forall order, order ∈ swept.left -> Exists fun maker =>
      maker ∈ book incoming.side.opposite ∧ maker.price = order.price := by
    intro order member
    rw [← sweptEq] at member
    exact sweep_left_price incoming.toLimitOrder member
  have apartLeft : forall mine other, mine ∈ book incoming.side -> other ∈ swept.left ->
      incoming.side.opposite.precedes mine.price other.price := by
    intro mine other mineIn otherIn
    rcases left other otherIn with ⟨maker, listed, same⟩
    rw [← same]
    exact apart mine maker mineIn listed
  by_cases remains : swept.qty > 0
  · rw [process_rests sweptEq remains]
    intro mine other mineIn otherIn
    dsimp only at mineIn otherIn
    rw [Function.update_self] at mineIn
    rw [Function.update_of_ne incoming.side.opposite_ne, Function.update_self] at otherIn
    rcases mem_place.mp mineIn with isIncoming | earlier
    · rw [isIncoming]
      have refuses := sweep_refuses incoming.toLimitOrder sorted (by rw [sweptEq]; exact remains)
      rw [sweptEq] at refuses
      exact refuses other otherIn
    · exact apartLeft mine other earlier otherIn
  · rw [process_used sweptEq remains]
    intro mine other mineIn otherIn
    dsimp only at mineIn otherIn
    rw [Function.update_of_ne ownSide] at mineIn
    rw [Function.update_self] at otherIn
    exact apartLeft mine other mineIn otherIn

theorem serve_apart {book : PriorityBook} (request : Request)
    (sorted : forall side, (book side).Pairwise (fun first second =>
      ¬ side.precedes second.price first.price))
    (apart : book.Apart .Buy) : (book.serve request).2.Apart .Buy := by
  cases request with
  | submit node order =>
      have facing : book.Apart order.side := by
        cases order.side with
        | Buy => exact apart
        | Sell => exact apart.opposite
      have after := process_apart { order with node := node }
        (sorted order.side.opposite) facing
      cases sideEq : order.side with
      | Buy =>
          simp only [sideEq] at after
          exact after
      | Sell =>
          simp only [sideEq] at after
          exact after.opposite
  | cancel node =>
      exact apart.of_prices (fun other order member => ⟨order, List.mem_of_mem_filter member, rfl⟩)
  | reduce node newQty =>
      refine apart.of_prices (fun other order member => ?_)
      rcases List.mem_map.mp member with ⟨earlier, listed, same⟩
      refine ⟨earlier, listed, ?_⟩
      rw [← same, shrunk_price]

end PriorityBook

namespace Engine

/-- The orders of a represented book are listed best first. -/
theorem Represents.sorted {engine : Engine} {layout : Layout} (represents : engine.Represents layout)
    (side : Side) : (layout.orders engine.heap side).Pairwise (fun first second =>
      ¬ side.precedes second.price first.price) := by
  rw [Layout.orders, List.pairwise_map, Layout.nodes, List.pairwise_flatMap]
  constructor
  · intro level listed
    refine List.pairwise_of_forall_mem_list (fun first inFirst second inSecond => ?_)
    have placed := (represents.shape side level listed).placed
    change ¬ side.precedes (engine.heap second).price (engine.heap first).price
    rw [(placed first inFirst).1, (placed second inSecond).1]
    exact irrefl_of side.precedes level.1
  · refine (represents.prices_ordered side).imp_of_mem ?_
    intro level level' listed listed' before first inFirst second inSecond
    change ¬ side.precedes (engine.heap second).price (engine.heap first).price
    rw [((represents.shape side level listed).placed first inFirst).1,
      ((represents.shape side level' listed').placed second inSecond).1]
    exact not_precedes_of_precedes before

theorem reachable_apart {past : List Served} {engine : Engine} (run : system.Run past engine) :
    Exists fun layout => engine.Represents layout ∧
      PriorityBook.Apart (layout.orders engine.heap) .Buy := by
  refine run.stateInvariant (fun engine => Exists fun layout => engine.Represents layout ∧
    PriorityBook.Apart (layout.orders engine.heap) .Buy) ?_ ?_
  · intro engine empty
    exact ⟨_, represents_of_empty empty, fun mine _ member => absurd member List.not_mem_nil⟩
  · rintro before served next ⟨layout, represents, apart⟩ ⟨-, admits, answers⟩
    rcases serve_spec represents admits answers with ⟨layout', effect, meaning⟩
    refine ⟨layout', effect.represents, ?_⟩
    have books : layout'.orders next.heap = _ := congrArg Prod.snd meaning
    rw [books]
    exact PriorityBook.serve_apart served.request represents.sorted apart

/-- In every reachable book each resting bid is strictly below each resting ask,
and so are the best prices when there are any. -/
theorem reachable_uncrossed {past : List Served} {engine : Engine} (run : system.Run past engine) :
    (forall bid ask, engine.Resting bid -> (engine.heap bid).side = .Buy ->
      engine.Resting ask -> (engine.heap ask).side = .Sell ->
        (engine.heap bid).price < (engine.heap ask).price) ∧
    forall bestBid bestAsk, engine.book.getBestBid = some bestBid ->
      engine.book.getBestAsk = some bestAsk -> bestBid.2.price < bestAsk.2.price := by
  rcases reachable_apart run with ⟨layout, represents, apart⟩
  have listed : forall node side, engine.Resting node -> (engine.heap node).side = side ->
      engine.heap.resting node ∈ layout.orders engine.heap side := by
    intro node side rests onSide
    rcases (represents.resting_iff node).mp rests with ⟨other, member⟩
    rw [(represents.side_of_mem member).symm.trans onSide] at member
    exact List.mem_map_of_mem member
  have below : forall bid ask, engine.Resting bid -> (engine.heap bid).side = .Buy ->
      engine.Resting ask -> (engine.heap ask).side = .Sell ->
        (engine.heap bid).price < (engine.heap ask).price :=
    fun bid ask bidRests onBuy askRests onSell => apart (engine.heap.resting bid)
      (engine.heap.resting ask) (listed bid .Buy bidRests onBuy) (listed ask .Sell askRests onSell)
  refine ⟨below, fun bestBid bestAsk bidFirst askFirst => ?_⟩
  have headed : forall side entry, entry ∈ (engine.book.levels side).entries ->
      Exists fun node => engine.Resting node ∧ (engine.heap node).side = side ∧
        (engine.heap node).price = entry.2.price := by
    intro side entry member
    rcases represents.entryShape member with ⟨level, -, -, shape⟩
    rcases List.exists_mem_of_ne_nil level.2 shape.nonempty with ⟨node, queued⟩
    exact ⟨node, ⟨side, entry, member, (shape.holds.reaches_iff node).mpr queued⟩,
      (shape.placed node queued).2, ((shape.placed node queued).1).trans shape.key.symm⟩
  rcases headed .Buy bestBid (List.mem_of_mem_head? bidFirst) with ⟨bid, bidRests, onBuy, bidPrice⟩
  rcases headed .Sell bestAsk (List.mem_of_mem_head? askFirst) with
    ⟨ask, askRests, onSell, askPrice⟩
  rw [← bidPrice, ← askPrice]
  exact below bid ask bidRests onBuy askRests onSell

theorem reachable_uncrossed_short :
    (forall bid ask, shortEngine.Resting bid -> (shortEngine.heap bid).side = .Buy ->
      shortEngine.Resting ask -> (shortEngine.heap ask).side = .Sell ->
        (shortEngine.heap bid).price < (shortEngine.heap ask).price) ∧
    forall bestBid bestAsk, shortEngine.book.getBestBid = some bestBid ->
      shortEngine.book.getBestAsk = some bestAsk -> bestBid.2.price < bestAsk.2.price :=
  reachable_uncrossed shortRun

end Engine
end NexusHft
