import NexusHft.Engine.MatchingEngine
import Mathlib.Data.List.Basic

namespace NexusHft

open Foundations

/-!
# What a book in memory represents

A layout lists, for each side and in map order, the prices of the levels and
the nodes queued at each of them.  `Engine.Represents` relates an engine to a
layout: the map entries are exactly those of the layout, with the volume each
level has to show, and every queue is a doubly linked list of nodes that carry
the level's price and side.  The layout is determined by the engine.

Every operation of the book rewrites one level and leaves the others alone.
`Represents.rewrite` states that argument once; each operation then only has
to say which entries replace which, and that its own level is well formed.
-/

abbrev Layout := Side -> List (Price × List OrderPtr)

/-- The exact sum of the quantities of some nodes. -/
def quantitySum (heap : Heap) (nodes : List OrderPtr) : Nat :=
  (nodes.map (fun node => (heap node).qty.toNat)).sum

/-- The map entry of a level, given its price and queue. -/
def levelEntry (heap : Heap) (level : Price × List OrderPtr) : Price × PriceLevel :=
  (level.1, {
    price := level.1
    totalVolume := UInt64.ofNat (quantitySum heap level.2)
    orders := ⟨level.2.head?, level.2.getLast?⟩ })

/-- A queue that may stand at a level: it is not empty, its nodes have the price
and the side of the level, and the links chain them in its order. -/
structure LevelShape (heap : Heap) (side : Side) (level : Price × List OrderPtr) : Prop where
  nonempty : level.2 ≠ []
  distinct : level.2.Nodup
  placed : forall node, node ∈ level.2 -> (heap node).price = level.1 ∧ (heap node).side = side
  chained : Chain heap.prevLink heap.nextLink none level.2 none

namespace Layout

def nodes (layout : Layout) (side : Side) : List OrderPtr := (layout side).flatMap Prod.snd

theorem mem_nodes {layout : Layout} {side : Side} {node : OrderPtr} :
    node ∈ layout.nodes side <->
      Exists fun level => level ∈ layout side ∧ node ∈ level.2 :=
  List.mem_flatMap

end Layout

namespace Engine

/-- The engine's maps and memory are what a layout says.  A layout is the book
with the queues written out as lists; this relation is the one invariant from
which well-formedness, order and all effects of the operations are derived. -/
structure Represents (engine : Engine) (layout : Layout) : Prop where
  entries : forall side,
    (engine.book.levels side).entries = (layout side).map (levelEntry engine.heap)
  shape : forall side level, level ∈ layout side -> LevelShape engine.heap side level

/-- A node is met when the queue of some level is followed from its head. -/
def Resting (engine : Engine) (node : OrderPtr) : Prop :=
  Exists fun side => Exists fun entry => entry ∈ (engine.book.levels side).entries ∧
    Reaches engine.heap.nextLink entry.2.orders.head node

end Engine

/-! ## Levels read from memory -/

theorem quantitySum_congr {heap heap' : Heap} {nodes : List OrderPtr}
    (same : forall node, node ∈ nodes -> (heap' node).qty = (heap node).qty) :
    quantitySum heap' nodes = quantitySum heap nodes := by
  unfold quantitySum
  rw [List.map_congr_left (fun node member => congrArg UInt64.toNat (same node member))]

@[simp] theorem quantitySum_nil (heap : Heap) : quantitySum heap [] = 0 := rfl

@[simp] theorem quantitySum_cons (heap : Heap) (node : OrderPtr) (nodes : List OrderPtr) :
    quantitySum heap (node :: nodes) = (heap node).qty.toNat + quantitySum heap nodes := rfl

@[simp] theorem quantitySum_append (heap : Heap) (front back : List OrderPtr) :
    quantitySum heap (front ++ back) = quantitySum heap front + quantitySum heap back := by
  simp [quantitySum]

theorem levelEntry_congr {heap heap' : Heap} {level : Price × List OrderPtr}
    (same : forall node, node ∈ level.2 -> (heap' node).qty = (heap node).qty) :
    levelEntry heap' level = levelEntry heap level := by
  rw [levelEntry, quantitySum_congr same, levelEntry]

theorem levelEntry_isEmpty (heap : Heap) (level : Price × List OrderPtr) :
    (levelEntry heap level).2.orders.isEmpty = decide (level.2 = []) := by
  rw [IntrusiveList.isEmpty]
  change level.2.head?.isNone = _
  cases level.2 <;> rfl

/-- The level of a queue, if any order is in it. -/
def remainingLevel (price : Price) (queue : List OrderPtr) : List (Price × List OrderPtr) :=
  if queue = [] then [] else [(price, queue)]

@[simp] theorem remainingLevel_nil (price : Price) : remainingLevel price [] = [] := rfl

theorem remainingLevel_of_ne_nil {price : Price} {queue : List OrderPtr} (some : queue ≠ []) :
    remainingLevel price queue = [(price, queue)] := if_neg some

theorem mem_remainingLevel {price : Price} {queue : List OrderPtr} {level : Price × List OrderPtr} :
    level ∈ remainingLevel price queue <-> queue ≠ [] ∧ level = (price, queue) := by
  by_cases empty : queue = []
  · simp [empty]
  · simp [remainingLevel_of_ne_nil empty, empty]

@[simp] theorem nodes_remainingLevel (price : Price) (queue : List OrderPtr) :
    (remainingLevel price queue).flatMap Prod.snd = queue := by
  by_cases empty : queue = []
  · rw [empty]
    rfl
  · rw [remainingLevel_of_ne_nil empty]
    exact List.append_nil queue

/-- What `check_remove_level` leaves of a level. -/
theorem entries_remainingLevel (heap : Heap) (price : Price) (queue : List OrderPtr) :
    (remainingLevel price queue).map (levelEntry heap) =
      if (levelEntry heap (price, queue)).2.orders.isEmpty then []
      else [levelEntry heap (price, queue)] := by
  rw [levelEntry_isEmpty]
  by_cases empty : queue = []
  · simp [empty]
  · simp [remainingLevel_of_ne_nil empty, empty]

namespace LevelShape

variable {heap : Heap} {side : Side} {level : Price × List OrderPtr}

theorem congr {heap' : Heap} (shape : LevelShape heap side level)
    (same : forall node, node ∈ level.2 -> heap' node = heap node) :
    LevelShape heap' side level where
  nonempty := shape.nonempty
  distinct := shape.distinct
  placed := fun node member => by rw [same node member]; exact shape.placed node member
  chained := shape.chained.congr
    (fun node member => congrArg OrderNode.prev (same node member))
    (fun node member => congrArg OrderNode.next (same node member))

theorem holds (shape : LevelShape heap side level) :
    IntrusiveList.Holds heap (levelEntry heap level).2.orders level.2 :=
  ⟨rfl, rfl, shape.distinct, shape.chained⟩

end LevelShape

namespace Engine
namespace Represents

variable {engine : Engine} {layout : Layout}

/-- The nodes met from the levels' heads are the nodes of the layout. -/
theorem resting_iff (represents : engine.Represents layout) (node : OrderPtr) :
    engine.Resting node <-> Exists fun side => node ∈ layout.nodes side := by
  constructor
  · rintro ⟨side, entry, listed, reached⟩
    rw [represents.entries side] at listed
    rcases List.mem_map.mp listed with ⟨level, member, same⟩
    subst same
    exact ⟨side, Layout.mem_nodes.mpr
      ⟨level, member, ((represents.shape side level member).holds.reaches_iff node).mp reached⟩⟩
  · rintro ⟨side, member⟩
    rcases Layout.mem_nodes.mp member with ⟨level, listed, queued⟩
    refine ⟨side, levelEntry engine.heap level, ?_, ?_⟩
    · rw [represents.entries side]
      exact List.mem_map_of_mem listed
    · exact ((represents.shape side level listed).holds.reaches_iff node).mpr queued

/-- The side of a node of the layout is the side it is listed under. -/
theorem side_of_mem (represents : engine.Represents layout) {side : Side} {node : OrderPtr}
    (member : node ∈ layout.nodes side) : (engine.heap node).side = side := by
  rcases Layout.mem_nodes.mp member with ⟨level, listed, queued⟩
  exact ((represents.shape side level listed).placed node queued).2

theorem not_mem_of_not_resting (represents : engine.Represents layout) {node : OrderPtr}
    (free : ¬ engine.Resting node) (side : Side) : node ∉ layout.nodes side :=
  fun member => free ((represents.resting_iff node).mpr ⟨side, member⟩)

/-- The prices of a side are strictly ordered by its map. -/
theorem prices_ordered (represents : engine.Represents layout) (side : Side) :
    (layout side).Pairwise (fun first second => side.precedes first.1 second.1) := by
  have ordered := (engine.book.levels side).ordered
  rw [represents.entries side, List.pairwise_map] at ordered
  exact ordered

/-- Each node rests in at most one level: its price and side are in its own
memory, and a side has one level at a price. -/
theorem level_unique (represents : engine.Represents layout) {side : Side}
    {front back : List (Price × List OrderPtr)} {level : Price × List OrderPtr}
    (split : layout side = front ++ level :: back) {other : Price × List OrderPtr}
    (listed : other ∈ front ++ back) {node : OrderPtr} (inOther : node ∈ other.2) :
    node ∉ level.2 := by
  intro inLevel
  have ordered := represents.prices_ordered side
  rw [split] at ordered
  have parts := List.pairwise_append.mp ordered
  have levelHere : level ∈ layout side := split ▸ List.mem_append_right front List.mem_cons_self
  have otherHere : other ∈ layout side := by
    rw [split]
    rcases List.mem_append.mp listed with early | late
    · exact List.mem_append_left _ early
    · exact List.mem_append_right _ (List.mem_cons_of_mem _ late)
  have samePrice : other.1 = level.1 :=
    ((represents.shape side other otherHere).placed node inOther).1.symm.trans
      ((represents.shape side level levelHere).placed node inLevel).1
  rcases List.mem_append.mp listed with early | late
  · have before := parts.2.2 other early level List.mem_cons_self
    rw [samePrice] at before
    exact irrefl_of side.precedes level.1 before
  · have after := (List.pairwise_cons.mp parts.2.1).1 other late
    rw [samePrice] at after
    exact irrefl_of side.precedes level.1 after

/-- No node is listed twice on a side. -/
theorem nodes_nodup (represents : engine.Represents layout) (side : Side) :
    (layout.nodes side).Nodup := by
  apply List.nodup_flatMap.mpr
  constructor
  · exact fun level listed => (represents.shape side level listed).distinct
  · apply List.Pairwise.imp_of_mem _ (represents.prices_ordered side)
    intro first second firstListed secondListed before node inFirst inSecond
    have samePrice := ((represents.shape side first firstListed).placed node inFirst).1.symm.trans
      ((represents.shape side second secondListed).placed node inSecond).1
    rw [samePrice] at before
    exact irrefl_of side.precedes second.1 before

/-- The same across sides: no other level of the book holds a node of this one. -/
theorem level_disjoint (represents : engine.Represents layout) {side : Side}
    {front back : List (Price × List OrderPtr)} {level : Price × List OrderPtr}
    (split : layout side = front ++ level :: back) {otherSide : Side}
    {other : Price × List OrderPtr} (listed : other ∈ layout otherSide)
    (onSide : otherSide = side -> other ∈ front ++ back) {node : OrderPtr}
    (inOther : node ∈ other.2) : node ∉ level.2 := by
  by_cases same : otherSide = side
  · exact represents.level_unique split (onSide same) inOther
  · intro inLevel
    have levelHere : level ∈ layout side := split ▸ List.mem_append_right front List.mem_cons_self
    exact same (((represents.shape otherSide other listed).placed node inOther).2.symm.trans
      ((represents.shape side level levelHere).placed node inLevel).2)

/-- Replace some levels of one side.  Memory may change only at nodes that no
other level holds.  Every operation on a book is an instance, so the other levels
are framed once. -/
theorem rewrite (represents : engine.Represents layout) {side : Side}
    (front middle middle' back : List (Price × List OrderPtr)) (engine' : Engine)
    (split : layout side = front ++ middle ++ back)
    (entries : (engine'.book.levels side).entries =
      front.map (levelEntry engine.heap) ++ middle'.map (levelEntry engine'.heap) ++
        back.map (levelEntry engine.heap))
    (others : forall other, other ≠ side -> engine'.book.levels other = engine.book.levels other)
    (frame : forall other level node, level ∈ layout other ->
      (other = side -> level ∈ front ++ back) -> node ∈ level.2 ->
        engine'.heap node = engine.heap node)
    (shaped : forall level, level ∈ middle' -> LevelShape engine'.heap side level) :
    engine'.Represents (Function.update layout side (front ++ middle' ++ back)) := by
  have unchanged : forall level, level ∈ front ++ back ->
      forall node, node ∈ level.2 -> engine'.heap node = engine.heap node := by
    intro level listed node member
    refine frame side level node ?_ (fun _ => listed) member
    rw [split, List.append_assoc]
    rcases List.mem_append.mp listed with early | late
    · exact List.mem_append_left _ early
    · exact List.mem_append_right _ (List.mem_append_right _ late)
  have sameEntries : forall levels : List (Price × List OrderPtr),
      (forall level, level ∈ levels -> level ∈ front ++ back) ->
        levels.map (levelEntry engine'.heap) = levels.map (levelEntry engine.heap) := by
    intro levels within
    exact List.map_congr_left (fun level member => levelEntry_congr
      (fun node queued => congrArg (fun cell => cell.qty)
        (unchanged level (within level member) node queued)))
  constructor
  · intro other
    by_cases same : other = side
    · subst same
      rw [entries, Function.update_self, List.map_append, List.map_append,
        sameEntries front (fun level member => List.mem_append_left _ member),
        sameEntries back (fun level member => List.mem_append_right _ member)]
    · rw [others other same, represents.entries other, Function.update_of_ne same]
      refine List.map_congr_left (fun level member => (levelEntry_congr ?_).symm)
      intro node queued
      rw [frame other level node member (fun equal => absurd equal same) queued]
  · intro other level member
    by_cases same : other = side
    · subst same
      rw [Function.update_self] at member
      rcases List.mem_append.mp member with early | late
      · rcases List.mem_append.mp early with inFront | inMiddle
        · refine (represents.shape other level ?_).congr
            (unchanged level (List.mem_append_left _ inFront))
          rw [split, List.append_assoc]
          exact List.mem_append_left _ inFront
        · exact shaped level inMiddle
      · refine (represents.shape other level ?_).congr
          (unchanged level (List.mem_append_right _ late))
        rw [split]
        exact List.mem_append_right _ late
    · rw [Function.update_of_ne same] at member
      exact (represents.shape other level member).congr
        (fun node queued => frame other level node member (fun equal => absurd equal same) queued)

end Represents
end Engine
end NexusHft
