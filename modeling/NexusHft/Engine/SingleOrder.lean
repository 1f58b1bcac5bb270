import NexusHft.Engine.LevelReadings

namespace NexusHft

open Foundations

/-!
# Requests about a single order

A cancel takes one node out of one queue; a reduction changes one quantity and
one volume.  The two structures say what such a request changes and, with the
same precision, what it leaves alone: every other order, the sequence of every
queue, and every other level as it stands in its map.
-/

namespace Engine

/-- The effect of cancelling a resting node: `front` and `back` are the nodes
before and behind it in its queue.  Its level loses its quantity, or disappears
with it; every other level and its queue stay as they are. -/
structure Cancelled (node : OrderPtr) (front back : List OrderPtr) (level : PriceLevel)
    (engine next : Engine) : Prop where
  found : engine.levelAt (engine.heap node).side (engine.heap node).price = some level
  queue : IntrusiveList.Holds engine.heap level.orders (front ++ node :: back)
  orders : next.heap.order = engine.heap.order
  resting : forall other, next.Resting other <-> engine.Resting other ∧ other ≠ node
  unlinked : next.heap.Detached node
  removed : next.levelAt (engine.heap node).side (engine.heap node).price = none <->
    front ++ back = []
  lowered : front ++ back ≠ [] -> Exists fun left =>
    next.levelAt (engine.heap node).side (engine.heap node).price = some left ∧
      left.price = level.price ∧
      left.totalVolume = level.totalVolume - (engine.heap node).qty ∧
      IntrusiveList.Holds next.heap left.orders (front ++ back)
  levels : forall side price,
    (side, price) ≠ ((engine.heap node).side, (engine.heap node).price) ->
      next.levelAt side price = engine.levelAt side price ∧
        forall queue, engine.QueueAt side price queue -> next.QueueAt side price queue

/-- The effect of a reduction to a smaller quantity: the node keeps its place, its
level loses the difference, and no queue and no other level changes. -/
structure Reduced (node : OrderPtr) (newQty : Quantity) (level : PriceLevel)
    (engine next : Engine) : Prop where
  found : engine.levelAt (engine.heap node).side (engine.heap node).price = some level
  heap : next.heap = engine.heap.setQty node newQty
  lowered : next.levelAt (engine.heap node).side (engine.heap node).price =
    some { level with totalVolume := level.totalVolume - ((engine.heap node).qty - newQty) }
  levels : forall side price,
    (side, price) ≠ ((engine.heap node).side, (engine.heap node).price) ->
      next.levelAt side price = engine.levelAt side price
  queues : forall side price queue,
    engine.QueueAt side price queue -> next.QueueAt side price queue
  resting : forall other, next.Resting other <-> engine.Resting other

section Queues

variable {engine : Engine} {layout : Layout}

/-- Where a resting node stands. -/
theorem Represents.queue_split (represents : engine.Represents layout) {node : OrderPtr}
    (rests : engine.Resting node) : Exists fun front => Exists fun back =>
      layout.queue engine.heap (engine.heap node).side (engine.heap node).price =
        front ++ node :: back := by
  rcases (represents.resting_iff node).mp rests with ⟨side, member⟩
  rw [represents.side_of_mem member]
  exact List.append_of_mem (Layout.mem_queue.mpr ⟨member, rfl⟩)

theorem Represents.not_mem_queue (represents : engine.Represents layout) {node : OrderPtr}
    {side : Side} {price : Price}
    (elsewhere : (side, price) ≠ ((engine.heap node).side, (engine.heap node).price)) :
    node ∉ layout.queue engine.heap side price := by
  intro member
  rcases Layout.mem_queue.mp member with ⟨queued, atPrice⟩
  exact elsewhere (by rw [represents.side_of_mem queued, atPrice])

end Queues

/-! ## Cancelling -/

theorem filter_ne_of_split {front back : List OrderPtr} {node : OrderPtr}
    (distinct : (front ++ node :: back).Nodup) :
    (front ++ node :: back).filter (fun cell => decide (cell ≠ node)) = front ++ back := by
  have parts := List.nodup_append.mp distinct
  have notFront : forall cell, cell ∈ front -> cell ≠ node :=
    fun cell early => parts.2.2 cell early node List.mem_cons_self
  have notBack : forall cell, cell ∈ back -> cell ≠ node :=
    fun cell late same => (List.nodup_cons.mp parts.2.1).1 (same ▸ late)
  rw [List.filter_append, List.filter_cons_of_neg (by simp),
    List.filter_eq_self.mpr (fun cell early => decide_eq_true (notFront cell early)),
    List.filter_eq_self.mpr (fun cell late => decide_eq_true (notBack cell late))]

section Cancel

variable {engine next : Engine} {layout layout' : Layout} {node : OrderPtr}
variable (order : next.heap.order = engine.heap.order)
variable (nodes : forall side, layout'.nodes side =
  (layout.nodes side).filter (fun cell => decide (cell ≠ node)))
include order nodes

/-- Every queue is the one before without the node. -/
theorem queue_of_filter (side : Side) (price : Price) : layout'.queue next.heap side price =
    (layout.queue engine.heap side price).filter (fun cell => decide (cell ≠ node)) := by
  have prices : (fun cell => decide ((next.heap cell).price = price)) =
      fun cell => decide ((engine.heap cell).price = price) := by
    funext cell
    have price : (next.heap cell).price = (engine.heap cell).price :=
      congrArg LimitOrder.price (congrFun order cell)
    rw [price]
  rw [Layout.queue, nodes side, prices, List.filter_comm, Layout.queue]

/-- A level without the node is as it was. -/
theorem levelAt_of_filter (represents : engine.Represents layout)
    (represents' : next.Represents layout') {side : Side} {price : Price}
    (elsewhere : node ∉ layout.queue engine.heap side price) :
    next.levelAt side price = engine.levelAt side price ∧
      forall queue, engine.QueueAt side price queue -> next.QueueAt side price queue := by
  have same : layout'.queue next.heap side price = layout.queue engine.heap side price := by
    rw [queue_of_filter order nodes, List.filter_eq_self]
    exact fun cell member => decide_eq_true (fun equal => elsewhere (equal ▸ member))
  constructor
  · rw [represents.levelAt_eq, represents'.levelAt_eq, same, levelEntry_congr]
    exact fun cell _ => congrArg LimitOrder.qty (congrFun order cell)
  · intro queue
    rw [represents.queueAt_iff, represents'.queueAt_iff, same]
    exact id

end Cancel

section Requests

variable {engine : Engine} {layout : Layout} {node : OrderPtr}

/-- Cancelling a resting node, seen through the maps: its level is found at its
price, loses its quantity, and disappears when it was the only order. -/
theorem Represents.cancelled (represents : engine.Represents layout)
    (rests : engine.Resting node) : Exists fun front => Exists fun back => Exists fun level =>
      Cancelled node front back level engine (engine.cancelOrder node) := by
  rcases represents.queue_split rests with ⟨front, back, split⟩
  rcases (represents.resting_iff node).mp rests with ⟨side, member⟩
  rcases cancelOrder_represents represents member with ⟨layout', effect, order, nodes⟩
  generalize engine.cancelOrder node = next at effect order
  have queued : layout.queue engine.heap (engine.heap node).side (engine.heap node).price ≠ [] := by
    rw [split]
    simp
  have shape := represents.shape _ _ (represents.queue_mem queued)
  have located := represents.levelAt_eq (engine.heap node).side (engine.heap node).price
  have left := effect.represents.levelAt_eq (engine.heap node).side (engine.heap node).price
  rw [if_neg queued, split] at located
  rw [split] at shape
  rw [queue_of_filter order nodes, split, filter_ne_of_split shape.distinct] at left
  refine ⟨front, back, _, located, shape.holds, order, ?_, ?_, ?_, ?_, ?_⟩
  · intro other
    rw [represents.resting_iff, effect.represents.resting_iff]
    simp only [nodes, List.mem_filter, decide_eq_true_iff]
    exact ⟨fun ⟨at_side, inside, different⟩ => ⟨⟨at_side, inside⟩, different⟩,
      fun ⟨⟨at_side, inside⟩, different⟩ => ⟨at_side, inside, different⟩⟩
  · refine effect.released node (Or.inr rfl) (fun other inside => ?_)
    rw [nodes other, List.mem_filter, decide_eq_true_iff] at inside
    exact inside.2 rfl
  · rw [left]
    by_cases empty : front ++ back = []
    · rw [if_pos empty]
      exact ⟨fun _ => empty, fun _ => rfl⟩
    · rw [if_neg empty]
      exact ⟨fun absent => (by cases absent), fun none => absurd none empty⟩
  · intro remains
    rw [if_neg remains] at left
    refine ⟨_, left, rfl, ?_, ?_⟩
    · exact (volume_without order front back).symm
    · have queue := queue_of_filter order nodes (engine.heap node).side (engine.heap node).price
      rw [split, filter_ne_of_split shape.distinct] at queue
      have shaped := effect.represents.shape _ _
        (effect.represents.queue_mem (by rw [queue]; exact remains))
      rw [queue] at shaped
      exact shaped.holds
  · intro otherSide price elsewhere
    exact levelAt_of_filter order nodes represents effect.represents
      (represents.not_mem_queue elsewhere)

/-! ## Reducing -/

theorem Represents.reduced (represents : engine.Represents layout) (rests : engine.Resting node)
    {newQty : Quantity} (less : newQty < (engine.heap node).qty) :
    Exists fun level => Reduced node newQty level engine (engine.reduceOrder node newQty) := by
  rcases represents.queue_split rests with ⟨front, back, split⟩
  rcases (represents.resting_iff node).mp rests with ⟨side, member⟩
  rcases reduceOrder_represents represents member less with ⟨effect, memory⟩
  generalize engine.reduceOrder node newQty = next at effect memory
  have queues (side : Side) (price : Price) :
      layout.queue next.heap side price = layout.queue engine.heap side price := by
    refine List.filter_congr (fun cell _ => ?_)
    rw [(effect.terms cell).2.1]
  have queued : layout.queue engine.heap (engine.heap node).side (engine.heap node).price ≠ [] := by
    rw [split]
    simp
  have shape := represents.shape _ _ (represents.queue_mem queued)
  have located := represents.levelAt_eq (engine.heap node).side (engine.heap node).price
  have left := effect.represents.levelAt_eq (engine.heap node).side (engine.heap node).price
  rw [if_neg queued, split] at located
  rw [queues, if_neg queued, split] at left
  rw [split] at shape
  have unique := shape.holds.node_unique
  refine ⟨_, located, memory, ?_, ?_, ?_, ?_⟩
  · rw [left, memory]
    have volume := (volume_setQty unique.1 unique.2.1 less).symm
    exact congrArg (fun volume => some (PriceLevel.mk _ volume _)) volume
  · intro otherSide price elsewhere
    rw [represents.levelAt_eq, effect.represents.levelAt_eq, queues, levelEntry_congr]
    intro cell inQueue
    have different : cell ≠ node :=
      fun same => represents.not_mem_queue elsewhere (same ▸ inQueue)
    rw [memory, Heap.setQty_of_ne _ _ _ _ different]
  · intro otherSide price queue
    rw [represents.queueAt_iff, effect.represents.queueAt_iff, queues]
    exact id
  · intro other
    rw [represents.resting_iff, effect.represents.resting_iff]

theorem reduceOrder_of_le {newQty : Quantity} (le : (engine.heap node).qty ≤ newQty) :
    engine.reduceOrder node newQty = engine := by
  unfold reduceOrder
  rw [OrderBook.reduceOrder_of_le le]

end Requests

/-- On a reachable book, a cancel and a reduction of a resting node touch that order
only, and a reduction to no less than its quantity touches nothing. -/
theorem touches_one_order {past : List Served} {engine : Engine} (run : system.Run past engine)
    {node : OrderPtr} (rests : engine.Resting node) :
    (Exists fun front => Exists fun back => Exists fun level =>
      Cancelled node front back level engine (engine.cancelOrder node)) ∧
    forall newQty,
      (newQty < (engine.heap node).qty -> Exists fun level =>
        Reduced node newQty level engine (engine.reduceOrder node newQty)) ∧
      ((engine.heap node).qty ≤ newQty -> engine.reduceOrder node newQty = engine) := by
  rcases reachable_represents run with ⟨layout, represents⟩
  exact ⟨represents.cancelled rests, fun newQty =>
    ⟨fun less => represents.reduced rests less, fun le => reduceOrder_of_le le⟩⟩

/-- The second of three asks at a price is cancelled or reduced. -/
theorem touches_one_order_busy :
    (Exists fun front => Exists fun back => Exists fun level =>
      Cancelled 1 front back level busyEngine (busyEngine.cancelOrder 1)) ∧
    forall newQty,
      (newQty < (busyEngine.heap 1).qty -> Exists fun level =>
        Reduced 1 newQty level busyEngine (busyEngine.reduceOrder 1 newQty)) ∧
      ((busyEngine.heap 1).qty ≤ newQty -> busyEngine.reduceOrder 1 newQty = busyEngine) :=
  touches_one_order busyRun busy_resting

end Engine
end NexusHft
