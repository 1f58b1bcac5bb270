import NexusHft.Engine.LevelReadings

namespace NexusHft

open Foundations

/-!
# Cancels and unrelated orders

An order that a sweep does not trade with is behind everything the sweep
reaches, or on the other side of the book.  Taking it away changes neither the
trades nor what they leave of the other orders, so that the cancel may come
before or after the incoming order.
-/

/-- The orders of a side without the one of a node. -/
def without (node : OrderPtr) (orders : List RestingOrder) : List RestingOrder :=
  orders.filter (fun order => decide (order.node ≠ node))

theorem without_cons_of_ne {node : OrderPtr} {order : RestingOrder} (different : order.node ≠ node)
    (orders : List RestingOrder) :
    without node (order :: orders) = order :: without node orders :=
  List.filter_cons_of_pos (decide_eq_true different)

theorem without_append (node : OrderPtr) (front back : List RestingOrder) :
    without node (front ++ back) = without node front ++ without node back :=
  List.filter_append front back

theorem without_of_absent {node : OrderPtr} {orders : List RestingOrder}
    (absent : forall order, order ∈ orders -> order.node ≠ node) : without node orders = orders :=
  List.filter_eq_self.mpr (fun order member => decide_eq_true (absent order member))

/-- What a sweep does, without the order of a node. -/
def Swept.without (node : OrderPtr) (swept : Swept) : Swept :=
  ⟨swept.trades, NexusHft.without node swept.left, swept.qty⟩

section Sweep

variable (incoming : LimitOrder)

/-- Prices only get worse along a side, so a refusal is one of everything behind it. -/
theorem refused_behind {maker : RestingOrder} {makers : List RestingOrder}
    (sorted : (maker :: makers).Pairwise (fun first second =>
      ¬ incoming.side.opposite.precedes second.price first.price))
    (refused : incoming.accepts maker.price ≠ true) :
    forall other, other ∈ maker :: makers -> incoming.accepts other.price ≠ true := by
  rw [ne_eq, LimitOrder.accepts_iff, not_not] at refused
  intro other member
  rw [ne_eq, LimitOrder.accepts_iff, not_not]
  rcases List.mem_cons.mp member with same | later
  · rw [same]
    exact refused
  · exact precedes_of_not_precedes refused ((List.pairwise_cons.mp sorted).1 other later)

/-- A maker that no trade names is left as it was. -/
theorem sweep_left_of_unnamed {makers : List RestingOrder} {qty : Quantity} {order : RestingOrder}
    (listed : order ∈ makers) (unnamed : forall trade, trade ∈ (sweep incoming qty makers).trades ->
      trade.makerOrderId ≠ order.id) : order ∈ (sweep incoming qty makers).left := by
  induction makers generalizing qty with
  | nil => exact listed
  | cons maker makers inductionHypothesis =>
      by_cases going : qty > 0 ∧ incoming.accepts maker.price = true
      · by_cases filled : maker.qty - min qty maker.qty = 0
        · rw [sweep_fill incoming maker going.1 going.2 filled] at unnamed ⊢
          rcases List.mem_cons.mp listed with same | later
          · exact absurd (by rw [same]) (unnamed _ List.mem_cons_self)
          · exact inductionHypothesis later
              (fun trade member => unnamed trade (List.mem_cons_of_mem _ member))
        · rw [sweep_unfilled incoming maker going.1 going.2 filled] at unnamed ⊢
          rcases List.mem_cons.mp listed with same | later
          · exact absurd (by rw [same]) (unnamed _ List.mem_cons_self)
          · exact List.mem_cons_of_mem _ later
      · rw [sweep, if_neg going]
        exact listed

/-- A maker that is left with less than it had is not as it was. -/
theorem partly_filled_ne {maker : RestingOrder} {qty : Quantity} (remains : qty > 0)
    (unfilled : maker.qty - min qty maker.qty ≠ 0) :
    maker ≠ { maker with qty := maker.qty - min qty maker.qty } := by
  intro same
  have kept := congrArg (fun order : RestingOrder => order.qty.toNat) same
  have left := toNat_sub_min_right qty maker.qty
  rw [pos_iff_toNat_pos] at remains
  rw [ne_eq, eq_zero_iff_toNat] at unfilled
  dsimp only at kept
  omega

/-- A sweep that leaves an order as it was does the same without it.  Only orders
that trade matter to a sweep, and the quantity that goes on is the same behind
this one. -/
theorem sweep_without {makers : List RestingOrder} {qty : Quantity} {order : RestingOrder}
    (sorted : makers.Pairwise (fun first second =>
      ¬ incoming.side.opposite.precedes second.price first.price))
    (distinct : (makers.map RestingOrder.node).Nodup) (listed : order ∈ makers)
    (kept : order ∈ (sweep incoming qty makers).left) :
    sweep incoming qty (without order.node makers) =
      (sweep incoming qty makers).without order.node := by
  induction makers generalizing qty with
  | nil => exact absurd listed List.not_mem_nil
  | cons maker makers inductionHypothesis =>
      rw [List.map_cons, List.nodup_cons] at distinct
      have elsewhere (same : maker.node = order.node) : order ∉ makers := by
        intro member
        exact distinct.1 (by rw [same]; exact List.mem_map_of_mem member)
      by_cases remains : qty > 0
      · by_cases accepted : incoming.accepts maker.price = true
        · by_cases filled : maker.qty - min qty maker.qty = 0
          · rw [sweep_fill incoming maker remains accepted filled] at kept ⊢
            have different : maker.node ≠ order.node := by
              intro same
              refine distinct.1 ?_
              rw [same]
              exact (sweep_left_sublist incoming RestingOrder.node (fun _ _ => rfl) _ makers).subset
                (List.mem_map_of_mem kept)
            have later : order ∈ makers :=
              (List.mem_cons.mp listed).resolve_left (fun same => different (by rw [same]))
            rw [without_cons_of_ne different, sweep_fill incoming maker remains accepted filled,
              inductionHypothesis (List.pairwise_cons.mp sorted).2 distinct.2 later kept]
            rfl
          · rw [sweep_unfilled incoming maker remains accepted filled] at kept ⊢
            have different : maker.node ≠ order.node := by
              intro same
              have isMaker := (List.mem_cons.mp listed).resolve_right (elsewhere same)
              have isLeft := (List.mem_cons.mp kept).resolve_right (elsewhere same)
              exact partly_filled_ne remains filled (isMaker.symm.trans isLeft)
            rw [without_cons_of_ne different, sweep_unfilled incoming maker remains accepted filled,
              Swept.without, without_cons_of_ne]
            exact different
        · have refused := refused_behind incoming sorted accepted
          have refusedRest : sweep incoming qty (without order.node (maker :: makers)) = _ :=
            sweep_refused incoming qty
              (fun other member => refused other (List.mem_of_mem_filter member))
          rw [sweep_refused incoming qty refused, refusedRest]
          rfl
      · have none : qty = 0 := eq_zero_of_not_pos remains
        rw [none, sweep_zero, sweep_zero]
        rfl

end Sweep

/-- Where an order is placed in a side that is listed best first. -/
theorem place_split (side : Side) (order : RestingOrder) {resting : List RestingOrder}
    (sorted : resting.Pairwise (fun first second => ¬ side.precedes second.price first.price)) :
    Exists fun front => Exists fun back => resting = front ++ back ∧
      (forall other, other ∈ front -> ¬ side.precedes order.price other.price) ∧
      forall other, other ∈ back -> side.precedes order.price other.price := by
  induction resting with
  | nil =>
      exact ⟨[], [], rfl, fun _ member => absurd member List.not_mem_nil,
        fun _ member => absurd member List.not_mem_nil⟩
  | cons first rest inductionHypothesis =>
      have parts := List.pairwise_cons.mp sorted
      by_cases before : side.precedes order.price first.price
      · refine ⟨[], first :: rest, rfl, fun _ member => absurd member List.not_mem_nil, ?_⟩
        intro other member
        rcases List.mem_cons.mp member with same | later
        · rw [same]
          exact before
        · exact precedes_of_not_precedes before (parts.1 other later)
      · rcases inductionHypothesis parts.2 with ⟨front, back, split, early, late⟩
        refine ⟨first :: front, back, by rw [split]; rfl, ?_, late⟩
        intro other member
        rcases List.mem_cons.mp member with same | later
        · rw [same]
          exact before
        · exact early other later

theorem place_without {side : Side} {order : RestingOrder} {resting : List RestingOrder}
    (sorted : resting.Pairwise (fun first second => ¬ side.precedes second.price first.price))
    {node : OrderPtr} (different : order.node ≠ node) :
    place side order (without node resting) = without node (place side order resting) := by
  rcases place_split side order sorted with ⟨front, back, split, early, late⟩
  have keeps (orders : List RestingOrder) {other : RestingOrder}
      (member : other ∈ without node orders) : other ∈ orders := List.mem_of_mem_filter member
  rw [split, place_eq early late, without_append, without_append, without_cons_of_ne different,
    place_eq (fun other member => early other (keeps front member))
      (fun other member => late other (keeps back member))]

namespace PriorityBook

/-- What the books of the engine have in common, as far as two operations on one
book have to be exchanged: best price first, one node for each order, each order
on its own side. -/
structure Ordered (book : PriorityBook) : Prop where
  sorted : forall side, (book side).Pairwise (fun first second =>
    ¬ side.precedes second.price first.price)
  distinct : forall side, ((book side).map RestingOrder.node).Nodup
  sided : forall side order, order ∈ book side -> order.side = side
  once : forall side order other, order ∈ book side -> other ∈ book side.opposite ->
    order.node ≠ other.node

/-- An order that the processing of another one leaves as it is may be cancelled
before or after it.  The incoming order is placed between the same neighbours
either way. -/
theorem cancel_process {book : PriorityBook} (ordered : book.Ordered) {order : RestingOrder}
    (incoming : RestingOrder) (listed : order ∈ book order.side) (fresh : incoming.node ≠ order.node)
    (kept : order ∈ (book.process incoming).2 order.side) :
    (book.cancel order.node).process incoming =
      ((book.process incoming).1, (book.process incoming).2.cancel order.node) := by
  generalize sweptEq : sweep incoming.toLimitOrder incoming.qty
    (book incoming.side.opposite) = swept
  have sweptWithout : sweep incoming.toLimitOrder incoming.qty
      ((book.cancel order.node) incoming.side.opposite) = swept.without order.node := by
    by_cases own : order.side = incoming.side
    · have absent : forall other, other ∈ book incoming.side.opposite ->
          other.node ≠ order.node := by
        intro other member
        rw [own] at listed
        exact (ordered.once incoming.side order other listed member).symm
      have absentLeft : forall other, other ∈ swept.left -> other.node ≠ order.node := by
        intro other member
        rw [← sweptEq] at member
        have before := (sweep_left_sublist incoming.toLimitOrder RestingOrder.node
          (fun _ _ => rfl) _ _).subset (List.mem_map_of_mem member)
        rcases List.mem_map.mp before with ⟨maker, inBook, same⟩
        rw [← same]
        exact absent maker inBook
      change sweep _ _ (without order.node _) = _
      rw [without_of_absent absent, sweptEq, Swept.without, without_of_absent absentLeft]
    · have facing : order.side = incoming.side.opposite := Side.eq_opposite_of_ne own
      rw [facing] at listed kept
      rw [process_opposite sweptEq, ← sweptEq] at kept
      rw [← sweptEq]
      exact sweep_without incoming.toLimitOrder (ordered.sorted _) (ordered.distinct _) listed kept
  refine Prod.ext ((process_trades sweptWithout).trans (process_trades sweptEq).symm) ?_
  funext side
  change ((book.cancel order.node).process incoming).2 side =
    without order.node ((book.process incoming).2 side)
  by_cases own : side = incoming.side
  · rw [own, process_own sweptWithout, process_own sweptEq]
    by_cases remains : swept.qty > 0
    · rw [if_pos (show (swept.without order.node).qty > 0 from remains), if_pos remains]
      exact place_without (ordered.sorted incoming.side) fresh
    · rw [if_neg (show ¬ (swept.without order.node).qty > 0 from remains), if_neg remains]
      rfl
  · rw [Side.eq_opposite_of_ne own, process_opposite sweptWithout, process_opposite sweptEq]
    rfl

/-- An order that no trade names is left as it is. -/
theorem process_keeps {book : PriorityBook} {order incoming : RestingOrder}
    (listed : order ∈ book order.side)
    (unnamed : forall trade, trade ∈ (book.process incoming).1 -> trade.makerOrderId ≠ order.id) :
    order ∈ (book.process incoming).2 order.side := by
  generalize sweptEq : sweep incoming.toLimitOrder incoming.qty
    (book incoming.side.opposite) = swept
  rw [process_trades sweptEq] at unnamed
  by_cases own : order.side = incoming.side
  · rw [own] at listed ⊢
    rw [process_own sweptEq]
    split
    · exact mem_place.mpr (Or.inr listed)
    · exact listed
  · have facing : order.side = incoming.side.opposite := Side.eq_opposite_of_ne own
    rw [facing] at listed ⊢
    rw [process_opposite sweptEq, ← sweptEq]
    rw [← sweptEq] at unnamed
    exact sweep_left_of_unnamed incoming.toLimitOrder listed unnamed

end PriorityBook

namespace Engine

theorem Represents.ordered {engine : Engine} {layout : Layout}
    (represents : engine.Represents layout) : (layout.orders engine.heap).Ordered where
  sorted := represents.sorted
  distinct := by
    intro side
    rw [Layout.orders, List.map_map]
    exact (represents.nodes_nodup side).map (fun _ _ same => same)
  sided := by
    intro side order member
    rcases List.mem_map.mp member with ⟨node, queued, same⟩
    rw [← same]
    exact represents.side_of_mem queued
  once := by
    intro side order other member member' equal
    rcases List.mem_map.mp member with ⟨node, queued, same⟩
    rcases List.mem_map.mp member' with ⟨node', queued', same'⟩
    rw [← same, ← same'] at equal
    change node = node' at equal
    rw [← equal] at queued'
    exact side.opposite_ne ((represents.side_of_mem queued').symm.trans
      (represents.side_of_mem queued))

/-- No trade has the order of a resting node as its maker: none carries its id or, where
ids are not unique, the order rests on with all of its quantity. -/
def Untraded (engine : Engine) (node : OrderPtr) (trades : List Trade) (next : Engine) : Prop :=
  (forall trade, trade ∈ trades -> trade.makerOrderId ≠ (engine.heap node).id) ∨
    (next.Resting node ∧ (next.heap node).qty = (engine.heap node).qty)

theorem limitOrder_eq {left right : LimitOrder} (id : left.id = right.id)
    (price : left.price = right.price) (qty : left.qty = right.qty)
    (side : left.side = right.side) : left = right := by
  cases left
  cases right
  rw [LimitOrder.mk.injEq]
  exact ⟨id, price, qty, side⟩

/-- A node that rests on with its quantity carries the same order. -/
theorem Effect.kept {engine processed : Engine} {layout layout' : Layout} {node fresh : OrderPtr}
    {order : LimitOrder} {answer : List Trade × PriorityBook} {trades : List Trade}
    (effect : Effect fresh layout layout' (engine.prepared (.submit fresh order)) processed)
    (meaning : (trades, layout'.orders processed.heap) = answer) (different : fresh ≠ node)
    (rests : processed.Resting node)
    (sameQty : (processed.heap node).qty = (engine.heap node).qty) :
    engine.heap.resting node ∈ answer.2 (engine.heap.resting node).side := by
  rcases (effect.represents.resting_iff node).mp rests with ⟨side, member⟩
  have terms := effect.terms node
  have unwritten : (engine.prepared (.submit fresh order)).heap node = engine.heap node :=
    Heap.construct_of_ne _ _ different.symm
  rw [unwritten] at terms
  have same : processed.heap.resting node = engine.heap.resting node :=
    congrArg (fun order => RestingOrder.mk order node)
      (limitOrder_eq terms.1 terms.2.1 sameQty terms.2.2)
  have isSide : (engine.heap.resting node).side = side :=
    terms.2.2.symm.trans (effect.represents.side_of_mem member)
  rw [← meaning, isSide, ← same]
  exact List.mem_map_of_mem member

/-- On every reachable book, a cancel commutes with an incoming order that does
not trade with the order to be cancelled: the same trades are made, and the two
books are the same, down to the memory of the nodes that rest. -/
theorem cancel_commutes {past : List Served} {engine : Engine} (run : system.Run past engine)
    {node fresh : OrderPtr} (rests : engine.Resting node) (free : ¬ engine.Resting fresh)
    (order : LimitOrder) {trades : List Trade} {processed : Engine}
    (answered : engine.Answers (.submit fresh order) trades processed)
    (untraded : Untraded engine node trades processed) :
    processed.Resting node ∧ ¬ (engine.cancelOrder node).Resting fresh ∧
      Exists fun final => (engine.cancelOrder node).Answers (.submit fresh order) trades final ∧
        SameBook final (processed.cancelOrder node) := by
  rcases reachable_represents run with ⟨layout, represents⟩
  have admits : engine.Admits (.submit fresh order) := free
  rcases serve_spec represents admits answered with ⟨layout', effect, meaning⟩
  rcases (represents.resting_iff node).mp rests with ⟨side, member⟩
  have isSide := represents.side_of_mem member
  subst isSide
  have different : fresh ≠ node := fun same => free (same ▸ rests)
  have listed : engine.heap.resting node ∈
      layout.orders engine.heap (engine.heap.resting node).side := List.mem_map_of_mem member
  change _ = (layout.orders engine.heap).process { order with node := fresh } at meaning
  have kept : engine.heap.resting node ∈ ((layout.orders engine.heap).process
      { order with node := fresh }).2 (engine.heap.resting node).side := by
    rcases untraded with unnamed | ⟨restsOn, sameQty⟩
    · refine PriorityBook.process_keeps listed ?_
      rw [← meaning]
      exact unnamed
    · exact effect.kept meaning different restsOn sameQty
  have restsAfter : node ∈ layout'.nodes (engine.heap node).side := by
    rw [← meaning] at kept
    rcases List.mem_map.mp kept with ⟨cell, queued, same⟩
    have isNode : cell = node := congrArg RestingOrder.node same
    rw [isNode] at queued
    exact queued
  rcases cancelOrder_run represents member with ⟨layoutC, effectC, ordersC⟩
  rcases cancelOrder_run effect.represents restsAfter with ⟨layoutP, effectP, ordersP⟩
  have stillFree : ¬ (engine.cancelOrder node).Resting fresh := by
    intro present
    rcases (effectC.represents.resting_iff fresh).mp present with ⟨otherSide, queued⟩
    rcases effectC.subset otherSide fresh queued with before | same
    · exact free ((represents.resting_iff fresh).mpr ⟨otherSide, before⟩)
    · exact different same
  rcases submit_spec effectC.represents stillFree order with
    ⟨trades', final, layoutF, answeredF, representsF, meaningF⟩
  have commutes := PriorityBook.cancel_process represents.ordered { order with node := fresh }
    listed different kept
  rw [ordersC] at meaningF
  have both := meaningF.trans commutes
  rw [← meaning] at both
  have sameTrades : trades' = trades := congrArg Prod.fst both
  have sameOrders : layoutF.orders final.heap = (layout'.orders processed.heap).cancel node :=
    congrArg Prod.snd both
  subst sameTrades
  refine ⟨(effect.represents.resting_iff node).mpr ⟨_, restsAfter⟩, stillFree, final, answeredF, ?_⟩
  exact representsF.sameBook effectP.represents (sameOrders.trans ordersP.symm)

theorem short_free : ¬ shortEngine.Resting 7 := by
  have free := not_resting_of_empty blank rfl
  have begins : system.Run [] blank := .start rfl
  have asked := submit_run begins ⟨1, 101, 5, .Sell⟩ (free 0) rfl
  have bought := submit_run asked.1 ⟨2, 101, 2, .Buy⟩
    (asked.2 1 (by decide) (free 1)) rfl
  exact (submit_run bought.1 ⟨3, 99, 4, .Buy⟩
    (bought.2 2 (by decide) (asked.2 2 (by decide) (free 2))) rfl).2 7 (by decide)
      (bought.2 7 (by decide) (asked.2 7 (by decide) (free 7)))

/-- A buy of one at 101 takes from the ask and has nothing to do with the bid. -/
theorem cancel_commutes_short :
    (shortEngine.answer (.submit 7 ⟨4, 101, 1, .Buy⟩)).2.Resting 2 ∧
      ¬ (shortEngine.cancelOrder 2).Resting 7 ∧
      Exists fun final =>
        (shortEngine.cancelOrder 2).Answers (.submit 7 ⟨4, 101, 1, .Buy⟩) [⟨1, 4, 101, 1⟩] final ∧
        SameBook final ((shortEngine.answer (.submit 7 ⟨4, 101, 1, .Buy⟩)).2.cancelOrder 2) :=
  cancel_commutes shortRun ⟨.Buy, _, List.mem_cons_self, Reaches.here 2⟩ short_free _ ⟨4, rfl⟩
    (Or.inl (by decide))

end Engine
end NexusHft
