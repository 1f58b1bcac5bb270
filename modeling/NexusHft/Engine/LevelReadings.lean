import NexusHft.Engine.ReachableBook

namespace NexusHft

open Foundations

/-!
# Levels read from the orders

The level at a price holds the resting orders of that price, in the order in
which they rest, and shows the sum of their quantities; there is no level where
no order rests.  The levels of a side, the links of its nodes and everything
else in memory about them are therefore determined by its sequence of orders,
so that two books with the same orders are the same book.
-/

/-- The nodes of a side whose orders have a price. -/
def Layout.queue (layout : Layout) (heap : Heap) (side : Side) (price : Price) : List OrderPtr :=
  (layout.nodes side).filter (fun node => decide ((heap node).price = price))

theorem Layout.mem_queue {layout : Layout} {heap : Heap} {side : Side} {price : Price}
    {node : OrderPtr} : node ∈ layout.queue heap side price <->
      node ∈ layout.nodes side ∧ (heap node).price = price := by
  rw [queue, List.mem_filter, decide_eq_true_iff]

namespace Engine

/-- The level at a price, if there is one. -/
def levelAt (engine : Engine) (side : Side) (price : Price) : Option PriceLevel :=
  (engine.book.levels side).find price

/-- The queue of the level at a price. -/
def QueueAt (engine : Engine) (side : Side) (price : Price) (queue : List OrderPtr) : Prop :=
  Exists fun level => engine.levelAt side price = some level ∧
    IntrusiveList.Holds engine.heap level.orders queue

section Readings

variable {engine : Engine} {layout : Layout}

theorem Represents.queue_of_mem (represents : engine.Represents layout) {side : Side}
    {level : Price × List OrderPtr} (listed : level ∈ layout side) :
    layout.queue engine.heap side level.1 = level.2 := by
  rcases List.append_of_mem listed with ⟨front, back, split⟩
  have ordered := represents.prices_ordered side
  have placed : forall other, other ∈ layout side -> forall node, node ∈ other.2 ->
      (engine.heap node).price = other.1 :=
    fun other member node queued => ((represents.shape side other member).placed node queued).1
  rw [split] at ordered placed
  have parts := List.pairwise_append.mp ordered
  have none_of (levels : List (Price × List OrderPtr))
      (away : forall other, other ∈ levels -> other.1 ≠ level.1)
      (here : forall other, other ∈ levels -> other ∈ front ++ level :: back) :
      (levels.flatMap Prod.snd).filter
        (fun node => decide ((engine.heap node).price = level.1)) = [] := by
    rw [List.filter_eq_nil_iff]
    intro node member
    rcases List.mem_flatMap.mp member with ⟨other, inLevels, queued⟩
    rw [decide_eq_true_iff, placed other (here other inLevels) node queued]
    exact away other inLevels
  rw [Layout.queue, Layout.nodes, split, List.flatMap_append, List.flatMap_cons,
    List.filter_append, List.filter_append, none_of front, none_of back, List.nil_append,
    List.append_nil, List.filter_eq_self]
  · intro node queued
    exact decide_eq_true (placed level (List.mem_append_right front List.mem_cons_self) node queued)
  · intro other late same
    have after := (List.pairwise_cons.mp parts.2.1).1 other late
    rw [same] at after
    exact irrefl_of side.precedes level.1 after
  · exact fun other late => List.mem_append_right front (List.mem_cons_of_mem level late)
  · intro other early same
    have before := parts.2.2 other early level List.mem_cons_self
    rw [same] at before
    exact irrefl_of side.precedes level.1 before
  · exact fun other early => List.mem_append_left _ early

/-- The orders of a price are a level of the layout. -/
theorem Represents.queue_mem (represents : engine.Represents layout) {side : Side} {price : Price}
    (some_order : layout.queue engine.heap side price ≠ []) :
    (price, layout.queue engine.heap side price) ∈ layout side := by
  rcases List.exists_mem_of_ne_nil _ some_order with ⟨node, member⟩
  rcases Layout.mem_queue.mp member with ⟨queued, atPrice⟩
  rcases Layout.mem_nodes.mp queued with ⟨level, listed, inLevel⟩
  have here := ((represents.shape side level listed).placed node inLevel).1
  have queue := represents.queue_of_mem listed
  have same : level.1 = price := here.symm.trans atPrice
  rw [same] at queue
  rw [queue, ← same]
  exact listed

/-- What the book shows at a price. -/
theorem Represents.levelAt_eq (represents : engine.Represents layout) (side : Side)
    (price : Price) : engine.levelAt side price =
      if layout.queue engine.heap side price = [] then none
      else some (levelEntry engine.heap (price, layout.queue engine.heap side price)).2 := by
  unfold levelAt
  by_cases empty : layout.queue engine.heap side price = []
  · rw [if_pos empty, OrderedMap.find_eq_none, represents.entries side]
    intro entry listed atPrice
    rcases List.mem_map.mp listed with ⟨level, member, same⟩
    have key : level.1 = price := by rw [← atPrice, ← same]; rfl
    have queue := represents.queue_of_mem member
    rw [key, empty] at queue
    exact (represents.shape side level member).nonempty queue.symm
  · rw [if_neg empty]
    have entry : levelEntry engine.heap (price, layout.queue engine.heap side price) ∈
        (engine.book.levels side).entries := by
      rw [represents.entries side]
      exact List.mem_map_of_mem (represents.queue_mem empty)
    exact OrderedMap.mem_entries_iff.mp entry

theorem Represents.queueAt_iff (represents : engine.Represents layout) {side : Side}
    {price : Price} {nodes : List OrderPtr} : engine.QueueAt side price nodes <->
      nodes ≠ [] ∧ layout.queue engine.heap side price = nodes := by
  have level := represents.levelAt_eq side price
  constructor
  · rintro ⟨found, located, holds⟩
    by_cases empty : layout.queue engine.heap side price = []
    · rw [level, if_pos empty] at located
      cases located
    · rw [level, if_neg empty] at located
      have shape := represents.shape side _ (represents.queue_mem empty)
      rw [← Option.some.inj located] at holds
      have same := shape.holds.unique holds
      change layout.queue engine.heap side price = nodes at same
      exact ⟨same ▸ empty, same⟩
  · rintro ⟨nonempty, same⟩
    subst same
    rw [if_neg nonempty] at level
    exact ⟨_, level, (represents.shape side _ (represents.queue_mem nonempty)).holds⟩

end Readings

/-! ## Books with the same orders -/

/-- A node rests on a side. -/
def RestsOn (engine : Engine) (side : Side) (node : OrderPtr) : Prop :=
  Exists fun entry => entry ∈ (engine.book.levels side).entries ∧
    Reaches engine.heap.nextLink entry.2.orders.head node

/-- Two engines agree on a side: its levels and the memory of its nodes are the
same.  Memory elsewhere may differ, as after runs with other takers. -/
structure SameSide (side : Side) (engine engine' : Engine) : Prop where
  levels : engine.book.levels side = engine'.book.levels side
  nodes : forall node, engine.RestsOn side node -> engine.heap node = engine'.heap node

/-- Two engines have the same book: the same levels, and the same memory of all
nodes that rest.  Nodes that do not rest may hold anything. -/
structure SameBook (engine engine' : Engine) : Prop where
  book : engine.book = engine'.book
  nodes : forall node, engine.Resting node -> engine.heap node = engine'.heap node

section Same

variable {engine engine' : Engine} {layout layout' : Layout} {side : Side}

theorem Represents.restsOn_iff (represents : engine.Represents layout) {node : OrderPtr} :
    engine.RestsOn side node <-> node ∈ layout.nodes side := by
  constructor
  · rintro ⟨entry, listed, reached⟩
    rcases represents.entryShape listed with ⟨level, member, -, shape⟩
    exact Layout.mem_nodes.mpr ⟨level, member, (shape.holds.reaches_iff node).mp reached⟩
  · intro queued
    rcases Layout.mem_nodes.mp queued with ⟨level, listed, inLevel⟩
    refine ⟨levelEntry engine.heap level, ?_, ?_⟩
    · rw [represents.entries side]
      exact List.mem_map_of_mem listed
    · exact ((represents.shape side level listed).holds.reaches_iff node).mpr inLevel

/-- The orders of a side determine its nodes and what they carry. -/
theorem nodes_of_orders (same : layout.orders engine.heap side = layout'.orders engine'.heap side) :
    layout.nodes side = layout'.nodes side ∧
      forall node, node ∈ layout.nodes side -> engine.heap.order node = engine'.heap.order node := by
  have nodes : layout.nodes side = layout'.nodes side := by
    have listed := congrArg (List.map RestingOrder.node) same
    rw [Layout.orders, Layout.orders, List.map_map, List.map_map] at listed
    exact (List.map_id _).symm.trans (listed.trans (List.map_id _))
  refine ⟨nodes, fun node member => ?_⟩
  rw [Layout.orders, Layout.orders, ← nodes, List.map_inj_left] at same
  exact congrArg RestingOrder.toLimitOrder (same node member)

theorem node_eq_of_order {left right : OrderNode}
    (order : left.toLimitOrder = right.toLimitOrder) (prev : left.prev = right.prev)
    (next : left.next = right.next) : left = right := by
  cases left
  cases right
  rw [OrderNode.mk.injEq]
  exact ⟨order, prev, next⟩

/-- A side is determined by its orders: two engines that show the same orders on a
side have the same levels there, the same volumes and the same links. -/
theorem Represents.sameSide (represents : engine.Represents layout)
    (represents' : engine'.Represents layout')
    (same : layout.orders engine.heap side = layout'.orders engine'.heap side) :
    SameSide side engine engine' := by
  rcases nodes_of_orders same with ⟨nodes, carried⟩
  have queues (price : Price) :
      layout.queue engine.heap side price = layout'.queue engine'.heap side price := by
    rw [Layout.queue, Layout.queue, ← nodes]
    refine List.filter_congr (fun node member => ?_)
    rw [show (engine.heap node).price = (engine'.heap node).price from
      congrArg LimitOrder.price (carried node member)]
  constructor
  · apply OrderedMap.ext_find
    intro price
    have here := represents.levelAt_eq side price
    have there := represents'.levelAt_eq side price
    rw [← queues] at there
    refine here.trans (Eq.trans ?_ there.symm)
    have entries : levelEntry engine.heap (price, layout.queue engine.heap side price) =
        levelEntry engine'.heap (price, layout.queue engine.heap side price) := by
      apply levelEntry_congr
      intro node member
      exact congrArg LimitOrder.qty (carried node (Layout.mem_queue.mp member).1)
    rw [entries]
  · intro node rests
    have member := represents.restsOn_iff.mp rests
    have queued : node ∈ layout.queue engine.heap side (engine.heap node).price :=
      Layout.mem_queue.mpr ⟨member, rfl⟩
    have nonempty := List.ne_nil_of_mem queued
    have shape := represents.shape side _ (represents.queue_mem nonempty)
    rw [queues] at queued nonempty shape
    have links := Chain.same_links shape.chained
      (represents'.shape side _ (represents'.queue_mem nonempty)).chained node queued
    have order := carried node member
    exact node_eq_of_order order links.1 links.2

/-- A book is determined by its orders. -/
theorem Represents.sameBook (represents : engine.Represents layout)
    (represents' : engine'.Represents layout')
    (same : layout.orders engine.heap = layout'.orders engine'.heap) :
    SameBook engine engine' := by
  have onSide (side : Side) : SameSide side engine engine' :=
    represents.sameSide represents' (congrFun same side)
  constructor
  · have bids : engine.book.bids = engine'.book.bids := (onSide .Buy).levels
    have asks : engine.book.asks = engine'.book.asks := (onSide .Sell).levels
    cases here : engine.book
    cases there : engine'.book
    rw [here, there] at bids asks
    rw [OrderBook.mk.injEq]
    exact ⟨bids, asks⟩
  · rintro node ⟨side, rests⟩
    exact (onSide side).nodes node rests

end Same

/-- The orders after a submission. -/
theorem submit_spec {engine : Engine} {layout : Layout} (represents : engine.Represents layout)
    {node : OrderPtr} (free : ¬ engine.Resting node) (order : LimitOrder) :
    Exists fun trades => Exists fun next => Exists fun layout' =>
      engine.Answers (.submit node order) trades next ∧ next.Represents layout' ∧
        (trades, layout'.orders next.heap) =
          (layout.orders engine.heap).process { order with node := node } := by
  rcases serve_run (.submit node order) represents free with
    ⟨trades, next, layout', enough, served, effect, meaning⟩
  exact ⟨trades, next, layout', ⟨enough, served enough (Nat.le_refl enough)⟩,
    effect.represents, meaning⟩

end Engine
end NexusHft
