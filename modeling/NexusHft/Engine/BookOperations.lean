import NexusHft.Engine.Matching

namespace NexusHft

open Foundations

/-!
# Operations on a represented book

Each operation on memory takes a represented book to a represented book and
computes its meaning on the priority book.  `Engine.Effect` collects what is
common to all of them: which nodes may rest afterwards, that a node which
stops resting is left without links, and that memory outside the book and the
node of the request is untouched.
-/

/-- The priority book of a layout in memory. -/
def Layout.orders (layout : Layout) (heap : Heap) : PriorityBook :=
  fun side => (layout.nodes side).map heap.resting

/-- Passes enough for both loops: one for each resting order of the side that
is swept, and two more to stop. -/
def Layout.passes (layout : Layout) (side : Side) : Nat := (layout.nodes side).length + 2

namespace Engine

/-- The engine's book is this priority book. -/
def Shows (engine : Engine) (book : PriorityBook) : Prop :=
  Exists fun layout => engine.Represents layout ∧ layout.orders engine.heap = book

/-- What an operation on behalf of `node` may change.  The layout stands for the
book afterwards; nodes that left it are detached, terms stay, and memory outside
the book is untouched.  This one frame serves every operation and every run. -/
structure Effect (node : OrderPtr) (layout layout' : Layout) (engine engine' : Engine) : Prop where
  represents : engine'.Represents layout'
  subset : forall side other, other ∈ layout'.nodes side ->
    other ∈ layout.nodes side ∨ other = node
  released : forall other, ((Exists fun side => other ∈ layout.nodes side) ∨ other = node) ->
    (forall side, other ∉ layout'.nodes side) -> engine'.heap.Detached other
  terms : forall other, (engine'.heap other).id = (engine.heap other).id ∧
    (engine'.heap other).price = (engine.heap other).price ∧
      (engine'.heap other).side = (engine.heap other).side
  frame : forall other, (forall side, other ∉ layout.nodes side) -> other ≠ node ->
    engine'.heap other = engine.heap other

section Operations

variable {engine : Engine} {layout : Layout} {node : OrderPtr}

theorem terms_of_order {heap heap' : Heap} (same : heap'.order = heap.order) (other : OrderPtr) :
    (heap' other).id = (heap other).id ∧ (heap' other).price = (heap other).price ∧
      (heap' other).side = (heap other).side := by
  have here := congrFun same other
  exact ⟨congrArg LimitOrder.id here, congrArg LimitOrder.price here, congrArg LimitOrder.side here⟩

theorem resting_of_order {heap heap' : Heap} (same : heap'.order = heap.order) :
    heap'.resting = heap.resting := by
  funext other
  rw [Heap.resting, same, Heap.resting]

theorem quantitySum_of_order {heap heap' : Heap} (same : heap'.order = heap.order)
    (nodes : List OrderPtr) : quantitySum heap' nodes = quantitySum heap nodes :=
  quantitySum_congr (fun other _ => congrArg LimitOrder.qty (congrFun same other))

/-- The volume of a queue without one of its orders. -/
theorem volume_without {heap heap' : Heap} (same : heap'.order = heap.order)
    (front back : List OrderPtr) : UInt64.ofNat (quantitySum heap (front ++ node :: back)) -
      (heap node).qty = UInt64.ofNat (quantitySum heap' (front ++ back)) := by
  have sum : quantitySum heap (front ++ node :: back) =
      quantitySum heap (front ++ back) + (heap node).qty.toNat := by
    simp only [quantitySum_append, quantitySum_cons]
    omega
  rw [ofNat_sub_word _ _ (by omega), quantitySum_of_order same, sum, Nat.add_sub_cancel]

/-- The level an entry of the map belongs to. -/
theorem Represents.level_of_entry (represents : engine.Represents layout) {side : Side}
    {front back : List (Price × PriceLevel)} {entry : Price × PriceLevel}
    (split : (engine.book.levels side).entries = front ++ entry :: back) :
    Exists fun early => Exists fun level => Exists fun late =>
      layout side = early ++ level :: late ∧ early.map (levelEntry engine.heap) = front ∧
        levelEntry engine.heap level = entry ∧ late.map (levelEntry engine.heap) = back := by
  rw [represents.entries side] at split
  rcases List.map_eq_append_iff.mp split with ⟨early, rest, parts, atFront, atRest⟩
  rcases List.map_eq_cons_iff.mp atRest with ⟨level, late, tail, atLevel, atBack⟩
  exact ⟨early, level, late, by rw [parts, tail], atFront, atLevel, atBack⟩

/-! ## `insert_order` -/

/-- The level an order is inserted at, present or just created, and the levels
around it.  Either way the price is found between better and worse ones. -/
theorem Represents.levelFor (represents : engine.Represents layout) (side : Side) (price : Price) :
    Exists fun early => Exists fun queue => Exists fun late =>
      layout side = early ++ remainingLevel price queue ++ late ∧
      (engine.book.levelFor side price).2 = (levelEntry engine.heap (price, queue)).2 ∧
      (engine.book.levelFor side price).1.entries = early.map (levelEntry engine.heap) ++
        (price, (engine.book.levelFor side price).2) :: late.map (levelEntry engine.heap) := by
  unfold OrderBook.levelFor
  cases found : (engine.book.levels side).find price with
  | none =>
      rcases OrderedMap.emplace_entries found ({ price := price } : PriceLevel) with
        ⟨entriesFront, entriesBack, split, emplaced⟩
      rw [represents.entries side] at split
      rcases List.map_eq_append_iff.mp split with ⟨early, late, parts, atFront, atBack⟩
      refine ⟨early, [], late, by simpa using parts, rfl, ?_⟩
      rw [atFront, atBack]
      exact emplaced
  | some level =>
      rcases OrderedMap.find_eq_some found with ⟨entriesFront, entriesBack, split⟩
      rcases represents.level_of_entry split with
        ⟨early, ⟨levelPrice, queue⟩, late, parts, atFront, atLevel, atBack⟩
      have key : levelPrice = price := congrArg Prod.fst atLevel
      subst key
      have nonempty : queue ≠ [] := (represents.shape side (levelPrice, queue)
        (parts ▸ List.mem_append_right early List.mem_cons_self)).nonempty
      refine ⟨early, queue, late, ?_, (congrArg Prod.snd atLevel).symm, ?_⟩
      · rw [parts, remainingLevel_of_ne_nil nonempty, List.append_assoc]
        rfl
      · rw [atFront, atBack]
        exact split

/-- Two prices cannot precede each other. -/
theorem not_precedes_of_precedes {side : Side} {first second : Price}
    (before : side.precedes first second) : ¬ side.precedes second first := fun after =>
  irrefl_of side.precedes first (Trans.trans before after)

/-- What queueing a node at a level does to memory: it stands behind the queue of
the level, and only links change. -/
structure Queued (node : OrderPtr) (side : Side) (price : Price) (queue : List OrderPtr)
    (heap heap' : Heap) : Prop where
  order : heap'.order = heap.order
  frame : forall other, other ∉ queue -> other ≠ node -> heap' other = heap other
  shape : LevelShape heap' side (price, queue ++ [node])

/-- A level with one more order: its queue ends with the node, its volume is the
sum of the longer queue, and all other levels are as they were. -/
theorem push_level {heap : Heap} {side : Side} {price : Price} {queue : List OrderPtr}
    (shaped : queue ≠ [] -> LevelShape heap side (price, queue)) (fresh : node ∉ queue)
    (atPrice : (heap node).price = price) (onSide : (heap node).side = side) :
    Exists fun heap' => Exists fun orders =>
      (levelEntry heap (price, queue)).2.orders.pushBack heap node = (heap', orders) ∧
      { (levelEntry heap (price, queue)).2 with
        orders := orders
        totalVolume := (levelEntry heap (price, queue)).2.totalVolume + (heap' node).qty } =
          (levelEntry heap' (price, queue ++ [node])).2 ∧
      Queued node side price queue heap heap' := by
  have holds : IntrusiveList.Holds heap (levelEntry heap (price, queue)).2.orders queue := by
    by_cases empty : queue = []
    · rw [empty]
      exact IntrusiveList.holds_empty heap
    · exact (shaped empty).holds
  have pushed := holds.pushBack fresh
  have order := IntrusiveList.pushBack_order (levelEntry heap (price, queue)).2.orders heap node
  have frame : forall other, other ∉ queue -> other ≠ node ->
      ((levelEntry heap (price, queue)).2.orders.pushBack heap node).1 other = heap other :=
    fun other away different => holds.pushBack_frame away different
  generalize (levelEntry heap (price, queue)).2.orders.pushBack heap node = result at pushed order frame
  have ends : result.2 = ⟨(queue ++ [node]).head?, (queue ++ [node]).getLast?⟩ :=
    congrArg₂ IntrusiveList.mk pushed.head pushed.tail
  have nodeQty : (result.1 node).qty = (heap node).qty :=
    congrArg LimitOrder.qty (congrFun order node)
  refine ⟨result.1, result.2, rfl, ?_, order, frame, by simp, pushed.distinct, ?_, pushed.links⟩
  · simp only [levelEntry, ends, ofNat_add_word, quantitySum_append, quantitySum_cons,
      quantitySum_nil, Nat.add_zero, quantitySum_of_order order, nodeQty]
  · intro other member
    have terms := terms_of_order order other
    rw [terms.2.1, terms.2.2]
    rcases List.mem_append.mp member with queued | isNode
    · exact (shaped (List.ne_nil_of_mem queued)).placed other queued
    · rw [List.mem_singleton.mp isNode]
      exact ⟨atPrice, onSide⟩

/-- What inserting a node does to memory and to the queues of its side: it comes
to rest behind the orders of its own price and before the first worse one. -/
structure Inserted (node : OrderPtr) (layout layout' : Layout) (engine engine' : Engine) : Prop where
  represents : engine'.Represents layout'
  order : engine'.heap.order = engine.heap.order
  others : forall other, other ≠ (engine.heap node).side -> layout' other = layout other
  placed : Exists fun front => Exists fun back =>
    layout.nodes (engine.heap node).side = front ++ back ∧
    layout'.nodes (engine.heap node).side = front ++ node :: back ∧
    (forall other, other ∈ front ->
      ¬ (engine.heap node).side.precedes (engine.heap node).price (engine.heap other).price) ∧
    forall other, other ∈ back ->
      (engine.heap node).side.precedes (engine.heap node).price (engine.heap other).price
  frame : forall other, other ∉ layout.nodes (engine.heap node).side -> other ≠ node ->
    engine'.heap other = engine.heap other

/-- The orders around a level: those before it and in it are no worse than its
price, those behind it are. -/
theorem Represents.around_level (represents : engine.Represents layout) {side : Side}
    {early late : List (Price × List OrderPtr)} {price : Price} {queue : List OrderPtr}
    (split : layout side = early ++ remainingLevel price queue ++ late) {level : PriceLevel}
    {levels : Levels side} (entries : levels.entries = early.map (levelEntry engine.heap) ++
      (price, level) :: late.map (levelEntry engine.heap)) :
    (forall other, other ∈ early.flatMap Prod.snd ++ queue ->
      ¬ side.precedes price (engine.heap other).price) ∧
    forall other, other ∈ late.flatMap Prod.snd ->
      side.precedes price (engine.heap other).price := by
  have around := OrderedMap.keys_around entries
  have priceOf {entry : Price × List OrderPtr} {other : OrderPtr} (listed : entry ∈ layout side)
      (queued : other ∈ entry.2) : (engine.heap other).price = entry.1 :=
    ((represents.shape side entry listed).placed other queued).1
  constructor
  · intro other member
    rcases List.mem_append.mp member with inEarly | queued
    · rcases List.mem_flatMap.mp inEarly with ⟨entry, listed, queued⟩
      rw [priceOf (by rw [split]; simp [listed]) queued]
      exact not_precedes_of_precedes (around.1 (levelEntry engine.heap entry)
        (List.mem_map_of_mem listed))
    · have here : (price, queue) ∈ layout side := by
        rw [split]
        simp [mem_remainingLevel, List.ne_nil_of_mem queued]
      rw [priceOf here queued]
      exact irrefl_of side.precedes price
  · intro other member
    rcases List.mem_flatMap.mp member with ⟨entry, listed, queued⟩
    rw [priceOf (by rw [split]; simp [listed]) queued]
    exact around.2 (levelEntry engine.heap entry) (List.mem_map_of_mem listed)

theorem insertOrder_represents (represents : engine.Represents layout)
    (outside : forall side, node ∉ layout.nodes side) :
    Exists fun layout' => Inserted node layout layout' engine
      ⟨(engine.book.insertOrder engine.heap node).1,
        (engine.book.insertOrder engine.heap node).2⟩ := by
  generalize sideEq : (engine.heap node).side = side
  generalize priceEq : (engine.heap node).price = price
  rcases represents.levelFor side price with ⟨early, queue, late, parts, level, entries⟩
  have queueHere (nonempty : queue ≠ []) : (price, queue) ∈ layout side := by
    rw [parts]
    simp [mem_remainingLevel, nonempty]
  have fresh : node ∉ queue := fun queued => outside side (Layout.mem_nodes.mpr
    ⟨(price, queue), queueHere (List.ne_nil_of_mem queued), queued⟩)
  rcases push_level (fun nonempty => represents.shape side _ (queueHere nonempty)) fresh priceEq
    sideEq with ⟨heap', orders, pushEq, newLevel, queued⟩
  have insertEq : engine.book.insertOrder engine.heap node =
      (heap', engine.book.setLevels side ((engine.book.levelFor side price).1.set price
        (levelEntry heap' (price, queue ++ [node])).2)) := by
    subst sideEq priceEq
    unfold OrderBook.insertOrder
    simp only [level, pushEq, newLevel]
  rw [insertEq]
  have rewritten := represents.rewrite early (remainingLevel price queue)
    [(price, queue ++ [node])] late
    ⟨heap', engine.book.setLevels side ((engine.book.levelFor side price).1.set price
      (levelEntry heap' (price, queue ++ [node])).2)⟩
    parts ?_ (fun other different => OrderBook.levels_setLevels_of_ne _ _ different) ?_ ?_
  · refine ⟨_, rewritten, queued.order, ?_, ?_, ?_⟩
    · intro other different
      rw [sideEq] at different
      exact Function.update_of_ne different _ _
    · rw [sideEq, priceEq]
      refine ⟨early.flatMap Prod.snd ++ queue, late.flatMap Prod.snd, ?_, ?_,
        represents.around_level parts entries⟩
      · rw [Layout.nodes, parts, List.flatMap_append, List.flatMap_append, nodes_remainingLevel]
      · rw [nodes_update]
        simp
    · intro other away notNode
      rw [sideEq] at away
      refine queued.frame other (fun inQueue => away (Layout.mem_nodes.mpr
        ⟨_, queueHere (List.ne_nil_of_mem inQueue), inQueue⟩)) notNode
  · rw [OrderBook.levels_setLevels, OrderedMap.set_entries entries, List.append_assoc]
    rfl
  · intro other entry cell listed onSide member
    refine queued.frame cell ?_ ?_
    · intro inQueue
      have nonempty := List.ne_nil_of_mem inQueue
      rw [remainingLevel_of_ne_nil nonempty, List.append_assoc] at parts
      exact represents.level_disjoint parts listed onSide member inQueue
    · intro same
      exact outside other (same ▸ Layout.mem_nodes.mpr ⟨entry, listed, member⟩)
  · intro other member
    rw [List.mem_singleton.mp member]
    exact queued.shape

/-! ## `cancel_order` -/

theorem filter_ne_of_not_mem {nodes : List OrderPtr} (absent : node ∉ nodes) :
    nodes.filter (fun other => decide (other ≠ node)) = nodes :=
  List.filter_eq_self.mpr (fun _ member => decide_eq_true (fun same => absent (same ▸ member)))

/-- The level a resting node is queued at, with what is around the level and
around the node. -/
theorem Represents.locate (represents : engine.Represents layout) {side : Side}
    (member : node ∈ layout.nodes side) :
    Exists fun early => Exists fun late => Exists fun front => Exists fun back =>
      layout side = early ++ ((engine.heap node).price, front ++ node :: back) :: late := by
  rcases Layout.mem_nodes.mp member with ⟨level, listed, queued⟩
  rcases List.append_of_mem listed with ⟨early, late, split⟩
  rcases List.append_of_mem queued with ⟨front, back, queue⟩
  refine ⟨early, late, front, back, ?_⟩
  rw [((represents.shape side level listed).placed node queued).1, ← queue]
  exact split

/-- What unlinking a node from its queue does to memory: the two parts of the
queue are joined, the node is detached, and only links change. -/
structure Unlinked (node : OrderPtr) (side : Side) (price : Price) (front back : List OrderPtr)
    (heap heap' : Heap) : Prop where
  order : heap'.order = heap.order
  detached : heap'.Detached node
  frame : forall other, other ∉ front ++ node :: back -> heap' other = heap other
  shape : front ++ back ≠ [] -> LevelShape heap' side (price, front ++ back)

section Unlink

variable {heap : Heap} {side : Side} {price : Price} {front back : List OrderPtr}

theorem mem_of_mem_rest {other : OrderPtr} (member : other ∈ front ++ back) :
    other ∈ front ++ node :: back := by
  rcases List.mem_append.mp member with inFront | inBack
  · exact List.mem_append_left _ inFront
  · exact List.mem_append_right _ (List.mem_cons_of_mem node inBack)

/-- A level without one of its orders: the two parts of the queue are joined, and
the volume is the sum of what is left, or the level is empty and about to be
erased. -/
theorem unlink_level (shape : LevelShape heap side (price, front ++ node :: back)) :
    Exists fun heap' =>
      (levelEntry heap (price, front ++ node :: back)).2.unlink heap node =
        (heap', (levelEntry heap' (price, front ++ back)).2) ∧
      Unlinked node side price front back heap heap' := by
  have holds := shape.holds
  have removed := holds.remove
  generalize resultEq : (levelEntry heap (price, front ++ node :: back)).2.orders.remove heap node =
    result at removed
  have order : result.1.order = heap.order := by
    rw [← resultEq]
    exact IntrusiveList.remove_order _ _ _
  have nodeQty : (result.1 node).qty = (heap node).qty :=
    congrArg LimitOrder.qty (congrFun order node)
  have ends : result.2 = ⟨(front ++ back).head?, (front ++ back).getLast?⟩ :=
    congrArg₂ IntrusiveList.mk removed.head removed.tail
  refine ⟨result.1, ?_, order, ?_, ?_, fun nonempty => ⟨nonempty, removed.distinct, ?_,
    removed.links⟩⟩
  · unfold PriceLevel.unlink
    simp only [resultEq, nodeQty, ends]
    simp only [levelEntry, volume_without order]
  · rw [← resultEq]
    exact IntrusiveList.remove_detached _ _ _
  · intro other away
    rw [← resultEq]
    exact holds.remove_frame away
  · intro other queued
    have terms := terms_of_order order other
    rw [terms.2.1, terms.2.2]
    exact shape.placed other (mem_of_mem_rest queued)

end Unlink

/-- The queues without a node. -/
theorem Represents.nodes_without (represents : engine.Represents layout) {side : Side}
    {early late : List (Price × List OrderPtr)} {price : Price} {front back : List OrderPtr}
    (split : layout side = early ++ (price, front ++ node :: back) :: late) (other : Side) :
    Layout.nodes (Function.update layout side
        (early ++ remainingLevel price (front ++ back) ++ late)) other =
      (layout.nodes other).filter (fun cell => decide (cell ≠ node)) := by
  have here : (price, front ++ node :: back) ∈ layout side :=
    split ▸ List.mem_append_right early List.mem_cons_self
  have queued : node ∈ front ++ node :: back := List.mem_append_right front List.mem_cons_self
  by_cases same : other = side
  · subst same
    have unique := (represents.shape other _ here).holds.node_unique
    have elsewhere {levels : List (Price × List OrderPtr)}
        (around : forall level, level ∈ levels -> level ∈ early ++ late) :
        node ∉ levels.flatMap Prod.snd := by
      intro inside
      rcases List.mem_flatMap.mp inside with ⟨level, listed, member⟩
      exact represents.level_unique split (around level listed) member queued
    have inEarly := elsewhere fun level listed => List.mem_append_left late listed
    have inLate := elsewhere fun level listed => List.mem_append_right early listed
    rw [nodes_update, Layout.nodes, split]
    simp only [List.flatMap_append, List.flatMap_cons, List.filter_append, nodes_remainingLevel,
      filter_ne_of_not_mem inEarly, filter_ne_of_not_mem inLate, filter_ne_of_not_mem unique.1]
    rw [List.filter_cons_of_neg (by simp), filter_ne_of_not_mem unique.2.1, List.append_assoc,
      List.append_assoc]
  · rw [Layout.nodes, Function.update_of_ne same]
    refine (filter_ne_of_not_mem fun inside => same ?_).symm
    have onSide := represents.side_of_mem (Layout.mem_nodes.mpr ⟨_, here, queued⟩)
    exact (represents.side_of_mem inside).symm.trans onSide

section Located

variable {side : Side} {price : Price} {early late : List (Price × List OrderPtr)}
  {front back : List OrderPtr} (represents : engine.Represents layout)
  (split : layout side = early ++ (price, front ++ node :: back) :: late)
  (onSide : (engine.heap node).side = side) (atPrice : (engine.heap node).price = price)
include represents split

theorem Represents.entries_located : (engine.book.levels side).entries =
    early.map (levelEntry engine.heap) ++
      levelEntry engine.heap (price, front ++ node :: back) :: late.map (levelEntry engine.heap) := by
  rw [represents.entries side, split, List.map_append, List.map_cons]

include onSide atPrice

/-- The level of the node is unlinked from it and written back. -/
theorem Represents.cancelOrder_eq {heap' : Heap}
    (unlinked : (levelEntry engine.heap (price, front ++ node :: back)).2.unlink engine.heap node =
      (heap', (levelEntry heap' (price, front ++ back)).2)) :
    engine.cancelOrder node = ⟨heap', (engine.book.setLevels side
      ((engine.book.levels side).set price (levelEntry heap' (price, front ++ back)).2)).checkRemoveLevel
        (levelEntry heap' (price, front ++ back)).2 side⟩ := by
  have found : (engine.book.levels side).find price =
      some (levelEntry engine.heap (price, front ++ node :: back)).2 :=
    OrderedMap.find_of_split (represents.entries_located split)
  subst onSide atPrice
  unfold cancelOrder
  rw [OrderBook.cancelOrder_of_find found, unlinked]

end Located

theorem cancelOrder_represents (represents : engine.Represents layout) {side : Side}
    (member : node ∈ layout.nodes side) :
    Exists fun layout' => Effect node layout layout' engine (engine.cancelOrder node) ∧
      (engine.cancelOrder node).heap.order = engine.heap.order ∧
      forall other, layout'.nodes other =
        (layout.nodes other).filter (fun cell => decide (cell ≠ node)) := by
  have sideEq := represents.side_of_mem member
  rcases represents.locate member with ⟨early, late, front, back, split⟩
  generalize priceEq : (engine.heap node).price = price at split
  have here : (price, front ++ node :: back) ∈ layout side :=
    split ▸ List.mem_append_right early List.mem_cons_self
  rcases unlink_level (represents.shape side _ here) with ⟨heap', unlinkEq, unlinked⟩
  rw [represents.cancelOrder_eq split sideEq priceEq unlinkEq]
  have written := OrderBook.writeBack_levels (levelEntry heap' (price, front ++ back)).2
    (represents.entries_located split) rfl
  have rewritten := represents.rewrite early [(price, front ++ node :: back)]
    (remainingLevel price (front ++ back)) late
    ⟨heap', (engine.book.setLevels side ((engine.book.levels side).set price
      (levelEntry heap' (price, front ++ back)).2)).checkRemoveLevel
      (levelEntry heap' (price, front ++ back)).2 side⟩
    (by rw [split, List.append_assoc]; rfl) ?_
    (fun other different => OrderBook.writeBack_others different) ?_ ?_
  · have nodes := represents.nodes_without split
    refine ⟨_, ⟨rewritten, ?_, ?_, terms_of_order unlinked.order, ?_⟩, unlinked.order, nodes⟩
    · intro other cell inside
      rw [nodes other] at inside
      exact Or.inl (List.mem_of_mem_filter inside)
    · intro cell known gone
      have isNode : cell = node := by
        rcases known with ⟨other, queued⟩ | same
        · by_contra different
          exact gone other (by
            rw [nodes other]
            exact List.mem_filter.mpr ⟨queued, decide_eq_true different⟩)
        · exact same
      exact isNode ▸ unlinked.detached
    · intro cell away _
      refine unlinked.frame cell (fun queued => away side ?_)
      exact Layout.mem_nodes.mpr ⟨_, here, queued⟩
  · rw [written, entries_remainingLevel]
    rfl
  · intro other level cell listed onSide queued
    exact unlinked.frame cell (represents.level_disjoint split listed onSide queued)
  · intro level inMiddle
    rcases mem_remainingLevel.mp inMiddle with ⟨nonempty, same⟩
    rw [same]
    exact unlinked.shape nonempty

theorem cancelOrder_run (represents : engine.Represents layout) {side : Side}
    (member : node ∈ layout.nodes side) :
    Exists fun layout' => Effect node layout layout' engine (engine.cancelOrder node) ∧
      layout'.orders (engine.cancelOrder node).heap = (layout.orders engine.heap).cancel node := by
  rcases cancelOrder_represents represents member with ⟨layout', effect, order, nodes⟩
  refine ⟨layout', effect, ?_⟩
  funext other
  rw [Layout.orders, nodes other, resting_of_order order, PriorityBook.cancel, Layout.orders,
    List.filter_map]
  rfl

/-! ## `reduce_order` -/

theorem quantitySum_setQty {heap : Heap} {qty : Quantity} {front back : List OrderPtr}
    (inFront : node ∉ front) (inBack : node ∉ back) :
    quantitySum (heap.setQty node qty) (front ++ node :: back) =
      quantitySum heap front + (qty.toNat + quantitySum heap back) := by
  have kept : forall nodes : List OrderPtr, node ∉ nodes ->
      quantitySum (heap.setQty node qty) nodes = quantitySum heap nodes := by
    intro nodes absent
    refine quantitySum_congr (fun other member => ?_)
    rw [Heap.setQty_of_ne _ _ _ _ (fun same => absent (by rw [← same]; exact member))]
  rw [quantitySum_append, quantitySum_cons, kept front inFront, kept back inBack, Heap.setQty_self]

theorem terms_setQty (heap : Heap) (node : OrderPtr) (qty : Quantity) (other : OrderPtr) :
    (heap.setQty node qty other).id = (heap other).id ∧
      (heap.setQty node qty other).price = (heap other).price ∧
        (heap.setQty node qty other).side = (heap other).side := by
  by_cases same : other = node
  · subst same
    rw [Heap.setQty_self]
    exact ⟨rfl, rfl, rfl⟩
  · rw [Heap.setQty_of_ne _ _ _ _ same]
    exact ⟨rfl, rfl, rfl⟩

/-- A quantity says nothing about the queue an order is in. -/
theorem levelShape_setQty {heap : Heap} {side : Side} {level : Price × List OrderPtr}
    (shape : LevelShape heap side level) (node : OrderPtr) (qty : Quantity) :
    LevelShape (heap.setQty node qty) side level := by
  refine ⟨shape.nonempty, shape.distinct, ?_, ?_⟩
  · intro other queued
    have terms := terms_setQty heap node qty other
    rw [terms.2.1, terms.2.2]
    exact shape.placed other queued
  · rw [Heap.prevLink_setQty, Heap.nextLink_setQty]
    exact shape.chained

/-- The volume of a queue one of whose orders shrinks. -/
theorem volume_setQty {heap : Heap} {front back : List OrderPtr} (inFront : node ∉ front)
    (inBack : node ∉ back) {newQty : Quantity} (less : newQty < (heap node).qty) :
    UInt64.ofNat (quantitySum heap (front ++ node :: back)) - ((heap node).qty - newQty) =
      UInt64.ofNat (quantitySum (heap.setQty node newQty) (front ++ node :: back)) := by
  have smaller := UInt64.lt_iff_toNat_lt.mp less
  have difference := toNat_sub_of_toNat_le (Nat.le_of_lt smaller)
  have sum : quantitySum heap (front ++ node :: back) =
      quantitySum heap front + ((heap node).qty.toNat + quantitySum heap back) := by
    rw [quantitySum_append, quantitySum_cons]
  rw [quantitySum_setQty inFront inBack, ofNat_sub_word _ _ (by omega), difference, sum]
  congr 1
  omega

/-- An operation that leaves every queue as it was. -/
theorem effect_of_same_layout {engine' : Engine} {side : Side} (member : node ∈ layout.nodes side)
    (represents : engine'.Represents layout)
    (terms : forall other, (engine'.heap other).id = (engine.heap other).id ∧
      (engine'.heap other).price = (engine.heap other).price ∧
        (engine'.heap other).side = (engine.heap other).side)
    (frame : forall other, other ≠ node -> engine'.heap other = engine.heap other) :
    Effect node layout layout engine engine' where
  represents := represents
  subset := fun _ _ inside => Or.inl inside
  released := by
    intro other known gone
    rcases known with ⟨otherSide, queued⟩ | same
    · exact absurd queued (gone otherSide)
    · exact absurd (same ▸ member) (gone side)
  terms := terms
  frame := fun other _ different => frame other different

/-- The volume of the level falls by what the node loses. -/
theorem Represents.reduceOrder_eq (represents : engine.Represents layout) {side : Side}
    {price : Price} {early late : List (Price × List OrderPtr)} {front back : List OrderPtr}
    (split : layout side = early ++ (price, front ++ node :: back) :: late)
    (onSide : (engine.heap node).side = side) (atPrice : (engine.heap node).price = price)
    {newQty : Quantity} (less : newQty < (engine.heap node).qty) :
    engine.reduceOrder node newQty = ⟨engine.heap.setQty node newQty,
      engine.book.setLevels side ((engine.book.levels side).set price
        (levelEntry (engine.heap.setQty node newQty) (price, front ++ node :: back)).2)⟩ := by
  have here : (price, front ++ node :: back) ∈ layout side :=
    split ▸ List.mem_append_right early List.mem_cons_self
  have unique := (represents.shape side _ here).holds.node_unique
  have newLevel : ({ (levelEntry engine.heap (price, front ++ node :: back)).2 with
      totalVolume := (levelEntry engine.heap (price, front ++ node :: back)).2.totalVolume -
        ((engine.heap node).qty - newQty) } : PriceLevel) =
      (levelEntry (engine.heap.setQty node newQty) (price, front ++ node :: back)).2 :=
    congrArg (fun volume => PriceLevel.mk price volume _) (volume_setQty unique.1 unique.2.1 less)
  have found : (engine.book.levels side).find price =
      some (levelEntry engine.heap (price, front ++ node :: back)).2 :=
    OrderedMap.find_of_split (represents.entries_located split)
  subst onSide atPrice
  unfold reduceOrder
  rw [OrderBook.reduceOrder_of_find less found, newLevel]

theorem reduceOrder_represents (represents : engine.Represents layout) {side : Side}
    (member : node ∈ layout.nodes side) {newQty : Quantity} (less : newQty < (engine.heap node).qty) :
    Effect node layout layout engine (engine.reduceOrder node newQty) ∧
      (engine.reduceOrder node newQty).heap = engine.heap.setQty node newQty := by
  have sideEq := represents.side_of_mem member
  rcases represents.locate member with ⟨early, late, front, back, split⟩
  generalize priceEq : (engine.heap node).price = price at split
  have here : (price, front ++ node :: back) ∈ layout side :=
    split ▸ List.mem_append_right early List.mem_cons_self
  have shape := represents.shape side _ here
  have entries := represents.entries_located split
  rw [represents.reduceOrder_eq split sideEq priceEq less]
  have rewritten := represents.rewrite early [(price, front ++ node :: back)]
    [(price, front ++ node :: back)] late
    ⟨engine.heap.setQty node newQty, engine.book.setLevels side
      ((engine.book.levels side).set price
        (levelEntry (engine.heap.setQty node newQty) (price, front ++ node :: back)).2)⟩
    (by rw [split, List.append_assoc]; rfl) ?_
    (fun other different => OrderBook.levels_setLevels_of_ne _ _ different) ?_ ?_
  · have sameLayout : Function.update layout side
        (early ++ [(price, front ++ node :: back)] ++ late) = layout := by
      rw [List.append_assoc, List.singleton_append, ← split]
      exact Function.update_eq_self side layout
    rw [sameLayout] at rewritten
    exact ⟨effect_of_same_layout member rewritten (terms_setQty engine.heap node newQty)
      (fun _ different => Heap.setQty_of_ne _ _ _ _ different), rfl⟩
  · rw [OrderBook.levels_setLevels, OrderedMap.set_entries entries, List.append_assoc]
    rfl
  · intro other level cell listed onSide queued
    refine Heap.setQty_of_ne _ _ _ _ (fun same => ?_)
    exact represents.level_disjoint split listed onSide queued (by simp [same])
  · intro level inMiddle
    rw [List.mem_singleton.mp inMiddle]
    exact levelShape_setQty shape node newQty

theorem reduceOrder_run (represents : engine.Represents layout) {side : Side}
    (member : node ∈ layout.nodes side) (newQty : Quantity) :
    Effect node layout layout engine (engine.reduceOrder node newQty) ∧
      layout.orders (engine.reduceOrder node newQty).heap =
        (layout.orders engine.heap).reduce node newQty := by
  by_cases less : newQty < (engine.heap node).qty
  · rcases reduceOrder_represents represents member less with ⟨effect, memory⟩
    refine ⟨effect, ?_⟩
    funext other
    rw [Layout.orders, memory, PriorityBook.reduce_eq, Layout.orders, List.map_map]
    refine List.map_congr_left (fun cell _ => ?_)
    by_cases same : cell = node
    · subst same
      have shrinks : PriorityBook.shrunk cell newQty (engine.heap.resting cell) =
          { engine.heap.resting cell with qty := newQty } := PriorityBook.shrunk_of_less less
      rw [Function.comp, shrinks, Heap.resting, Heap.order, Heap.setQty_self]
      rfl
    · rw [Function.comp, PriorityBook.shrunk_of_not fun both => same both.1]
      exact congrArg (fun found : OrderNode => RestingOrder.mk found.toLimitOrder cell)
        (Heap.setQty_of_ne _ _ _ _ same)
  · have unchanged : engine.reduceOrder node newQty = engine := by
      unfold reduceOrder
      rw [OrderBook.reduceOrder_of_le (UInt64.not_lt.mp less)]
    rw [unchanged]
    refine ⟨effect_of_same_layout member represents (fun _ => ⟨rfl, rfl, rfl⟩) (fun _ _ => rfl), ?_⟩
    funext other
    rw [PriorityBook.reduce_eq, Layout.orders, List.map_map]
    refine List.map_congr_left (fun cell _ => (PriorityBook.shrunk_of_not ?_).symm)
    rintro ⟨same, smaller⟩
    have here : cell = node := same
    subst here
    exact less smaller

/-! ## `process_limit_order` -/

theorem Represents.enough (represents : engine.Represents layout) {side : Side} {budget : Nat}
    (enough : layout.passes side ≤ budget) :
    (forall level, level ∈ layout side -> level.2.length + 1 < budget) ∧
      (layout side).length + 1 < budget := by
  have shape := represents.shape side
  unfold Layout.passes Layout.nodes at enough
  generalize layout side = levels at shape enough
  suffices bound : (forall level, level ∈ levels ->
      level.2.length ≤ (levels.flatMap Prod.snd).length) ∧
        levels.length ≤ (levels.flatMap Prod.snd).length by
    refine ⟨fun level listed => ?_, by omega⟩
    have := bound.1 level listed
    omega
  clear enough
  induction levels with
  | nil => exact ⟨fun _ listed => absurd listed List.not_mem_nil, Nat.le_refl 0⟩
  | cons level rest inductionHypothesis =>
      have bounds := inductionHypothesis (fun other listed => shape other (List.mem_cons_of_mem _ listed))
      have longer := List.length_pos_of_ne_nil (shape level List.mem_cons_self).nonempty
      rw [List.flatMap_cons, List.length_append, List.length_cons]
      refine ⟨fun other listed => ?_, by omega⟩
      rcases List.mem_cons.mp listed with same | later
      · rw [same]
        omega
      · have := bounds.1 other later
        omega

/-- Two effects on behalf of the same node in a row.  Matching and resting are put
together by this, so that a whole request has one frame. -/
theorem Effect.trans {middle layout' : Layout} {between engine' : Engine}
    (first : Effect node layout middle engine between)
    (second : Effect node middle layout' between engine') :
    Effect node layout layout' engine engine' where
  represents := second.represents
  subset := fun side other member => (second.subset side other member).elim
    (fun inMiddle => first.subset side other inMiddle) Or.inr
  released := by
    intro other known gone
    by_cases inMiddle : (Exists fun side => other ∈ middle.nodes side) ∨ other = node
    · exact second.released other inMiddle gone
    · have away : forall side, other ∉ middle.nodes side :=
        fun side member => inMiddle (Or.inl ⟨side, member⟩)
      have unchanged := second.frame other away (fun same => inMiddle (Or.inr same))
      exact (first.released other known away).congr (congrArg OrderNode.prev unchanged)
        (congrArg OrderNode.next unchanged)
  terms := fun other =>
    ⟨(second.terms other).1.trans (first.terms other).1,
      (second.terms other).2.1.trans (first.terms other).2.1,
      (second.terms other).2.2.trans (first.terms other).2.2⟩
  frame := by
    intro other away different
    refine (second.frame other (fun side member => ?_) different).trans
      (first.frame other away different)
    exact (first.subset side other member).elim (away side) different

theorem Inserted.effect {layout' : Layout} {engine' : Engine}
    (inserted : Inserted node layout layout' engine engine') :
    Effect node layout layout' engine engine' := by
  rcases inserted.placed with ⟨front, back, before, after, -, -⟩
  have kept : forall side other, other ∈ layout.nodes side -> other ∈ layout'.nodes side := by
    intro side other member
    by_cases own : side = (engine.heap node).side
    · subst own
      rw [before] at member
      rw [after]
      rcases List.mem_append.mp member with inFront | inBack
      · exact List.mem_append_left _ inFront
      · exact List.mem_append_right _ (List.mem_cons_of_mem node inBack)
    · rw [Layout.nodes, inserted.others side own]
      exact member
  refine ⟨inserted.represents, ?_, ?_, terms_of_order inserted.order, ?_⟩
  · intro side other member
    by_cases own : side = (engine.heap node).side
    · subst own
      rw [after] at member
      rw [before]
      rcases List.mem_append.mp member with inFront | later
      · exact Or.inl (List.mem_append_left _ inFront)
      · rcases List.mem_cons.mp later with same | inBack
        · exact Or.inr same
        · exact Or.inl (List.mem_append_right _ inBack)
    · rw [Layout.nodes, inserted.others side own] at member
      exact Or.inl member
  · intro other known gone
    rcases known with ⟨side, member⟩ | same
    · exact absurd (kept side other member) (gone side)
    · refine absurd ?_ (gone (engine.heap node).side)
      rw [after, same]
      exact List.mem_append_right front List.mem_cons_self
  · intro other away different
    exact inserted.frame other (away _) different

/-- Inserting a node places its order. -/
theorem Inserted.orders {layout' : Layout} {engine' : Engine}
    (inserted : Inserted node layout layout' engine engine') :
    layout'.orders engine'.heap = Function.update (layout.orders engine.heap)
      (engine.heap node).side (place (engine.heap node).side (engine.heap.resting node)
        (layout.orders engine.heap (engine.heap node).side)) := by
  rcases inserted.placed with ⟨front, back, before, after, early, late⟩
  funext side
  rw [Layout.orders, resting_of_order inserted.order]
  by_cases own : side = (engine.heap node).side
  · subst own
    rw [Function.update_self, Layout.orders, before, after, List.map_append, List.map_append,
      List.map_cons]
    refine (place_eq ?_ ?_).symm
    · intro order member
      rcases List.mem_map.mp member with ⟨other, inFront, same⟩
      rw [← same]
      exact early other inFront
    · intro order member
      rcases List.mem_map.mp member with ⟨other, inBack, same⟩
      rw [← same]
      exact late other inBack
  · rw [Function.update_of_ne own, Layout.orders, Layout.nodes, inserted.others side own]
    rfl

section Matched

variable {order : LimitOrder} {side : Side} {layout' : Layout} {state final : Matching}

theorem SideMatched.within (matched : SideMatched order node side layout layout' state final)
    {other : Side} {cell : OrderPtr} (member : cell ∈ layout'.nodes other) :
    cell ∈ layout.nodes other := by
  by_cases same : other = side
  · subst same
    exact matched.subset cell member
  · rw [Layout.nodes, matched.others other same] at member
    exact member

theorem SideMatched.effect (matched : SideMatched order node side layout layout' state final)
    (detached : state.engine.heap.Detached node) :
    Effect node layout layout' state.engine final.engine where
  represents := matched.represents
  subset := fun _ _ member => Or.inl (matched.within member)
  released := by
    intro other known gone
    rcases known with ⟨otherSide, member⟩ | same
    · by_cases onSide : otherSide = side
      · subst onSide
        exact matched.detached other member (gone otherSide)
      · refine absurd ?_ (gone otherSide)
        rw [Layout.nodes, matched.others otherSide onSide]
        exact member
    · rw [same]
      refine detached.congr ?_ ?_ <;> rw [matched.remaining]
  terms := matched.terms
  frame := fun other away different => matched.frame other (away side) different

/-- Matching sweeps one side and leaves the other as it was. -/
theorem SideMatched.orders (matched : SideMatched order node side layout layout' state final)
    (represents : state.engine.Represents layout)
    (outside : forall other, node ∉ layout.nodes other) :
    layout'.orders final.engine.heap = Function.update (layout.orders state.engine.heap) side
      (sweep order (state.engine.heap node).qty (layout.orders state.engine.heap side)).left := by
  funext other
  by_cases same : other = side
  · subst same
    rw [Function.update_self]
    exact matched.queued
  · rw [Function.update_of_ne same, Layout.orders, Layout.orders, Layout.nodes,
      matched.others other same]
    refine List.map_congr_left (fun cell member => ?_)
    have unchanged : final.engine.heap cell = state.engine.heap cell := by
      refine matched.frame cell (fun onSide => ?_) (fun isNode => ?_)
      · exact same ((represents.side_of_mem member).symm.trans (represents.side_of_mem onSide))
      · exact outside other (by rw [← isNode]; exact member)
    rw [Heap.resting, Heap.order, unchanged]
    rfl

end Matched

/-- A fresh order is processed, whatever its side, price and quantity: the loops
return, the trades are those of the priority book, and the engine shows the
priority book afterwards. -/
theorem processLimitOrder_run (represents : engine.Represents layout)
    (outside : forall side, node ∉ layout.nodes side) (detached : engine.heap.Detached node)
    {budget : Nat} (enough : layout.passes (engine.heap node).side.opposite ≤ budget) :
    Exists fun trades => Exists fun engine' => Exists fun layout' =>
      engine.processLimitOrder budget node = some (trades, engine') ∧
      Effect node layout layout' engine engine' ∧
      (trades, layout'.orders engine'.heap) =
        (layout.orders engine.heap).process (engine.heap.resting node) := by
  have budgets := represents.enough enough
  rcases matchLevel_run (engine.heap.order node) node (engine.heap node).side.opposite
    { engine := engine } represents outside rfl rfl rfl budgets.1 budgets.2 with ⟨final, middle, ran, matched⟩
  have effect := matched.effect detached
  have orders := matched.orders represents outside
  have trades := matched.trades
  have remaining := matched.remaining
  rw [processLimitOrder_eq, matchAgainst, ran, Option.map_some]
  generalize sweptEq : sweep (engine.heap.resting node).toLimitOrder (engine.heap.resting node).qty
    (layout.orders engine.heap (engine.heap.resting node).side.opposite) = swept
  change final.trades = [] ++ (sweep (engine.heap.resting node).toLimitOrder
    (engine.heap.resting node).qty (layout.orders engine.heap
      (engine.heap.resting node).side.opposite)).trades at trades
  change final.engine.heap node = { engine.heap node with
    qty := (sweep (engine.heap.resting node).toLimitOrder (engine.heap.resting node).qty
      (layout.orders engine.heap (engine.heap.resting node).side.opposite)).qty } at remaining
  change middle.orders final.engine.heap = Function.update (layout.orders engine.heap)
    (engine.heap.resting node).side.opposite (sweep (engine.heap.resting node).toLimitOrder
      (engine.heap.resting node).qty (layout.orders engine.heap
        (engine.heap.resting node).side.opposite)).left at orders
  rw [sweptEq] at orders trades remaining
  have qty : (final.engine.heap node).qty = swept.qty := by rw [remaining]
  unfold restRemainder
  by_cases remains : swept.qty > 0
  · rw [qty, if_pos remains, PriorityBook.process_rests sweptEq remains]
    rcases insertOrder_represents effect.represents
      (fun side member => outside side (matched.within member)) with ⟨layout', inserted⟩
    refine ⟨_, _, layout', rfl, effect.trans inserted.effect, Prod.ext trades ?_⟩
    have order : final.engine.heap.resting node =
        { engine.heap.resting node with qty := swept.qty } := by
      rw [Heap.resting, Heap.order, remaining]
      rfl
    have side : (final.engine.heap node).side = (engine.heap.resting node).side :=
      (matched.terms node).2.2
    have placed := inserted.orders
    rw [orders, side, order,
      Function.update_of_ne (engine.heap.resting node).side.opposite_ne.symm] at placed
    exact placed
  · rw [qty, if_neg remains, PriorityBook.process_used sweptEq remains]
    exact ⟨_, _, middle, rfl, effect, Prod.ext trades orders⟩

end Operations
end Engine
end NexusHft
