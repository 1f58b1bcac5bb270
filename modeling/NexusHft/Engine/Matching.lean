import NexusHft.Engine.LevelWalk

namespace NexusHft

open Foundations

/-!
# The outer loop sweeps the opposite side

Each pass takes the best level, walks it, and either erases it or leaves the
incoming order without quantity.  The book is a represented one before and
after every pass; only inside the walk is a level out of step with its map
entry.  The induction is on the levels of the side.
-/

namespace Engine

/-- How sweeping one side changes memory, the book and the trades.  As for a
single level, all that is observable is what `sweep` does to the orders of the
side in price-time order. -/
structure SideMatched (order : LimitOrder) (incoming : OrderPtr) (side : Side)
    (layout layout' : Layout) (before after : Matching) : Prop where
  represents : after.engine.Represents layout'
  others : forall other, other ≠ side -> layout' other = layout other
  trades : after.trades = before.trades ++ (sweep order (before.engine.heap incoming).qty
    ((layout.nodes side).map before.engine.heap.resting)).trades
  queued : (layout'.nodes side).map after.engine.heap.resting =
    (sweep order (before.engine.heap incoming).qty
      ((layout.nodes side).map before.engine.heap.resting)).left
  remaining : after.engine.heap incoming = { before.engine.heap incoming with
    qty := (sweep order (before.engine.heap incoming).qty
      ((layout.nodes side).map before.engine.heap.resting)).qty }
  subset : forall node, node ∈ layout'.nodes side -> node ∈ layout.nodes side
  detached : forall node, node ∈ layout.nodes side -> node ∉ layout'.nodes side ->
    after.engine.heap.Detached node
  terms : forall node, (after.engine.heap node).id = (before.engine.heap node).id ∧
    (after.engine.heap node).price = (before.engine.heap node).price ∧
      (after.engine.heap node).side = (before.engine.heap node).side
  frame : forall node, node ∉ layout.nodes side -> node ≠ incoming ->
    after.engine.heap node = before.engine.heap node

/-- No pass changes anything when the sweep does nothing. -/
theorem SideMatched.stay {order : LimitOrder} {incoming : OrderPtr} {side : Side}
    {layout : Layout} {state : Matching} (represents : state.engine.Represents layout)
    (unswept : sweep order (state.engine.heap incoming).qty
        ((layout.nodes side).map state.engine.heap.resting) =
      ⟨[], (layout.nodes side).map state.engine.heap.resting, (state.engine.heap incoming).qty⟩) :
    SideMatched order incoming side layout layout state state where
  represents := represents
  others := fun _ _ => rfl
  trades := by rw [unswept, List.append_nil]
  queued := by rw [unswept]
  remaining := by rw [unswept]
  subset := fun _ member => member
  detached := fun _ member away => absurd member away
  terms := fun _ => ⟨rfl, rfl, rfl⟩
  frame := fun _ _ _ => rfl

theorem matchLevel_exhausted {side : Side} {stops : Price -> Price -> Bool} {inner : Nat}
    {incoming : OrderPtr} {state : Matching} (none : (state.engine.heap incoming).qty = 0) :
    matchLevel side stops inner incoming state = some (.done state) := by
  unfold matchLevel
  exact if_neg (by rw [none]; decide)

section Pass

variable {order : LimitOrder} {incoming : OrderPtr} {side : Side} {layout : Layout}
  {state : Matching} {level : Price × List OrderPtr} {rest : List (Price × List OrderPtr)}

/-- What a represented book offers first. -/
theorem Represents.first {engine : Engine} (represents : engine.Represents layout)
    (levels : layout side = level :: rest) :
    (engine.book.levels side).first = some (levelEntry engine.heap level) := by
  rw [OrderedMap.first, represents.entries side, levels]
  rfl

/-- A walked level and what it leaves, as a represented book: the level with the
rest of its queue is written back, or erased when nothing is left of it. -/
theorem LevelWalked.represents {left : List OrderPtr} {engine : Engine} {before walked : LevelPass}
    (represents : engine.Represents layout) (levels : layout side = level :: rest)
    (outside : forall other, incoming ∉ layout.nodes other)
    (memory : before.heap = engine.heap) (start : before.level = (levelEntry engine.heap level).2)
    (shape : LevelWalked order incoming level.2 left before walked) :
    Engine.Represents
      ⟨walked.heap, (engine.book.setLevels side ((engine.book.levels side).set level.1
        walked.level)).checkRemoveLevel walked.level side⟩
      (Function.update layout side (remainingLevel level.1 left ++ rest)) := by
  have price : walked.level.price = level.1 := by
    rw [shape.price, start]
    rfl
  have here : level ∈ layout side := levels ▸ List.mem_cons_self
  have levelShape := represents.shape side level here
  have listing : layout side = [] ++ level :: rest := levels
  have entries : (engine.book.levels side).entries =
      [] ++ (level.1, (levelEntry engine.heap level).2) :: rest.map (levelEntry engine.heap) := by
    rw [represents.entries side, levels]
    rfl
  have written := OrderBook.writeBack_levels walked.level entries price
  have kept : left ⊆ level.2 := shape.suffix.subset
  have newEntry : (level.1, walked.level) = levelEntry walked.heap (level.1, left) := by
    refine Prod.ext rfl ?_
    have ends := shape.ends
    have volume := shape.volume
    cases parts : walked.level with
    | mk walkedPrice totalVolume orders =>
        rw [parts] at price ends volume
        simp only at price ends volume
        subst price ends volume
        rfl
  refine represents.rewrite [] [level] (remainingLevel level.1 left) rest
    ⟨walked.heap, (engine.book.setLevels side ((engine.book.levels side).set level.1
      walked.level)).checkRemoveLevel walked.level side⟩ levels ?_ ?_ ?_ ?_
  · rw [written, entries_remainingLevel, ← newEntry]
    rfl
  · intro other different
    exact OrderBook.writeBack_others different
  · intro other otherLevel node listed onSide queued
    refine (shape.frame node ?_ ?_).trans (congrFun memory node)
    · exact represents.level_disjoint listing listed onSide queued
    · intro equal
      exact outside other (equal ▸ Layout.mem_nodes.mpr ⟨otherLevel, listed, queued⟩)
  · intro other member
    rcases mem_remainingLevel.mp member with ⟨nonempty, same⟩
    subst same
    refine ⟨nonempty, levelShape.distinct.sublist shape.suffix.sublist, ?_, shape.chained⟩
    intro node queued
    have terms := shape.terms node
    have placed := levelShape.placed node (kept queued)
    rw [memory] at terms
    exact ⟨terms.2.1.trans placed.1, terms.2.2.trans placed.2⟩

/-- A pass over a level whose price is acceptable. -/
theorem matchLevel_walks (represents : state.engine.Represents layout)
    (levels : layout side = level :: rest)
    (outside : forall other, incoming ∉ layout.nodes other)
    (taker : order.id = (state.engine.heap incoming).id)
    (limit : order.price = (state.engine.heap incoming).price)
    (facing : side = order.side.opposite)
    (remains : (state.engine.heap incoming).qty > 0)
    (accepted : order.accepts level.1 = true) {inner : Nat} (enough : level.2.length + 1 < inner) :
    Exists fun next : Matching => Exists fun left =>
      matchLevel side (stopsAt side) inner incoming state = some (.yield next) ∧
        next.engine.Represents
          (Function.update layout side (remainingLevel level.1 left ++ rest)) ∧
        LevelWalked order incoming level.2 left
          ⟨state.engine.heap, (levelEntry state.engine.heap level).2, state.trades, level.2.head?⟩
          ⟨next.engine.heap, (levelEntry next.engine.heap (level.1, left)).2, next.trades, none⟩ := by
  have here : level ∈ layout side := levels ▸ List.mem_cons_self
  have shape := represents.shape side level here
  have notIn : incoming ∉ level.2 := fun queued =>
    outside side (Layout.mem_nodes.mpr ⟨level, here, queued⟩)
  rcases fillResting_run ⟨state.engine.heap, (levelEntry state.engine.heap level).2, state.trades,
      level.2.head?⟩ ⟨rfl, rfl, shape.chained, shape.distinct, notIn, rfl, taker, accepted,
      fun node queued => (shape.placed node queued).1⟩ enough with ⟨walked, left, ran, walk⟩
  have goes : stopsAt side (levelEntry state.engine.heap level).2.price
      (state.engine.heap incoming).price = false := by
    rw [stopsAt, facing, ← limit]
    exact decide_eq_false ((order.accepts_iff level.1).mp accepted)
  refine ⟨⟨⟨walked.heap, (state.engine.book.setLevels side ((state.engine.book.levels side).set
    level.1 walked.level)).checkRemoveLevel walked.level side⟩, walked.trades⟩, left, ?_,
    LevelWalked.represents represents levels outside rfl rfl walk, ?_⟩
  · unfold matchLevel
    simp only [if_pos remains, represents.first levels, goes, Bool.false_eq_true, if_false]
    have start : (levelEntry state.engine.heap level).2.orders.head = level.2.head? := rfl
    have key : (levelEntry state.engine.heap level).1 = level.1 := rfl
    rw [start, key, ran]
  · exact ⟨rfl, rfl, rfl, walk.chained, walk.suffix, walk.detached, walk.trades, walk.queued,
      walk.remaining, walk.terms, walk.frame⟩

/-- The flat queue of a side, level by level. -/
theorem nodes_cons (levels : layout side = level :: rest) :
    layout.nodes side = level.2 ++ rest.flatMap Prod.snd := by
  rw [Layout.nodes, levels]
  rfl

theorem nodes_update (levels : List (Price × List OrderPtr)) :
    Layout.nodes (Function.update layout side levels) side = levels.flatMap Prod.snd := by
  rw [Layout.nodes, Function.update_self]

/-- Orders behind the level are neither of the level nor the incoming one. -/
theorem Represents.apart_level {engine : Engine} (represents : engine.Represents layout)
    (levels : layout side = level :: rest) (outside : forall other, incoming ∉ layout.nodes other)
    {node : OrderPtr} (member : node ∈ rest.flatMap Prod.snd) : node ∉ level.2 ∧ node ≠ incoming := by
  have listing : layout side = [] ++ level :: rest := levels
  rcases List.mem_flatMap.mp member with ⟨other, listed, queued⟩
  refine ⟨represents.level_unique listing listed queued, fun same => ?_⟩
  refine outside side (Layout.mem_nodes.mpr ⟨other, ?_, same ▸ queued⟩)
  rw [levels]
  exact List.mem_cons_of_mem level listed

section Walked

variable {next : Matching} {left : List OrderPtr}
  (represents : state.engine.Represents layout) (levels : layout side = level :: rest)
  (outside : forall other, incoming ∉ layout.nodes other)
  (walk : LevelWalked order incoming level.2 left
    ⟨state.engine.heap, (levelEntry state.engine.heap level).2, state.trades, level.2.head?⟩
    ⟨next.engine.heap, (levelEntry next.engine.heap (level.1, left)).2, next.trades, none⟩)

include represents levels outside walk

/-- A pass does not reach behind its level. -/
theorem LevelWalked.behind : (rest.flatMap Prod.snd).map next.engine.heap.resting =
    (rest.flatMap Prod.snd).map state.engine.heap.resting := by
  refine List.map_congr_left (fun node member => ?_)
  have apart := represents.apart_level levels outside member
  have same := walk.frame node apart.1 apart.2
  exact congrArg (fun cell : OrderNode => RestingOrder.mk cell.toLimitOrder node) same

/-- A sweep that empties the level goes on behind it. -/
theorem LevelWalked.sweep_on (emptied : left = []) :
    sweep order (state.engine.heap incoming).qty
        ((layout.nodes side).map state.engine.heap.resting) =
      ⟨(sweep order (state.engine.heap incoming).qty
          (level.2.map state.engine.heap.resting)).trades ++
        (sweep order (next.engine.heap incoming).qty
          ((rest.flatMap Prod.snd).map next.engine.heap.resting)).trades,
        (sweep order (next.engine.heap incoming).qty
          ((rest.flatMap Prod.snd).map next.engine.heap.resting)).left,
        (sweep order (next.engine.heap incoming).qty
          ((rest.flatMap Prod.snd).map next.engine.heap.resting)).qty⟩ := by
  have remains := congrArg (fun cell : OrderNode => cell.qty) walk.remaining
  have consumed := walk.queued.symm
  simp only [emptied] at remains consumed
  rw [nodes_cons levels, List.map_append, sweep_append, walk.behind represents levels outside,
    remains]
  simp only [consumed, List.map_nil, if_true]

/-- A sweep that does not empty the level stops there. -/
theorem LevelWalked.sweep_ends (some : left ≠ []) :
    sweep order (state.engine.heap incoming).qty
        ((layout.nodes side).map state.engine.heap.resting) =
      ⟨(sweep order (state.engine.heap incoming).qty
          (level.2.map state.engine.heap.resting)).trades,
        (left ++ rest.flatMap Prod.snd).map next.engine.heap.resting,
        (sweep order (state.engine.heap incoming).qty
          (level.2.map state.engine.heap.resting)).qty⟩ := by
  have queued := walk.queued
  have unfinished : (sweep order (state.engine.heap incoming).qty
      (level.2.map state.engine.heap.resting)).left ≠ [] := by
    intro none
    exact some (List.map_eq_nil_iff.mp (queued.trans none))
  simp only at queued
  rw [nodes_cons levels, List.map_append, sweep_append]
  simp only [if_neg unfinished, List.map_append, walk.behind represents levels outside, queued]

end Walked

/-- A pass that empties its level, followed by the rest of the sweep.  The orders
of the side are those of this level and the ones behind it, and `sweep` goes
through both. -/
theorem SideMatched.afterLevel {next after : Matching} {layout' : Layout}
    (represents : state.engine.Represents layout) (levels : layout side = level :: rest)
    (outside : forall other, incoming ∉ layout.nodes other)
    (walk : LevelWalked order incoming level.2 []
      ⟨state.engine.heap, (levelEntry state.engine.heap level).2, state.trades, level.2.head?⟩
      ⟨next.engine.heap, (levelEntry next.engine.heap (level.1, [])).2, next.trades, none⟩)
    (matched : SideMatched order incoming side (Function.update layout side rest) layout' next after) :
    SideMatched order incoming side layout layout' state after := by
  have whole := walk.sweep_on represents levels outside rfl
  have levelTrades : next.trades = state.trades ++ (sweep order (state.engine.heap incoming).qty
      (level.2.map state.engine.heap.resting)).trades := walk.trades
  have levelRemaining : next.engine.heap incoming = { state.engine.heap incoming with
      qty := (sweep order (state.engine.heap incoming).qty
        (level.2.map state.engine.heap.resting)).qty } := walk.remaining
  have trades := matched.trades
  have queued := matched.queued
  have remaining := matched.remaining
  rw [nodes_update] at trades queued remaining
  refine ⟨matched.represents, ?_, ?_, ?_, ?_, ?_, ?_, ?_, ?_⟩
  · intro other different
    rw [matched.others other different, Function.update_of_ne different]
  · rw [trades, levelTrades, whole, List.append_assoc]
  · rw [queued, whole]
  · rw [remaining, whole, levelRemaining]
  · intro node member
    have inRest := matched.subset node member
    rw [nodes_update] at inRest
    rw [nodes_cons levels]
    exact List.mem_append_right _ inRest
  · intro node member gone
    rw [nodes_cons levels] at member
    by_cases inRest : node ∈ rest.flatMap Prod.snd
    · refine matched.detached node ?_ gone
      rw [nodes_update]
      exact inRest
    · have inLevel := (List.mem_append.mp member).resolve_right inRest
      have same : after.engine.heap node = next.engine.heap node := by
        refine matched.frame node (by rw [nodes_update]; exact inRest) ?_
        intro equal
        exact outside side (by rw [nodes_cons levels, ← equal]; exact List.mem_append_left _ inLevel)
      have detached := walk.detached node inLevel List.not_mem_nil
      exact detached.congr (congrArg OrderNode.prev same) (congrArg OrderNode.next same)
  · intro node
    have first := walk.terms node
    have second := matched.terms node
    exact ⟨second.1.trans first.1, second.2.1.trans first.2.1, second.2.2.trans first.2.2⟩
  · intro node away notIncoming
    rw [nodes_cons levels, List.mem_append, not_or] at away
    rw [matched.frame node (by rw [nodes_update]; exact away.2) notIncoming]
    exact walk.frame node away.1 notIncoming

/-- A pass that leaves orders at its level: the incoming order is used up, and
nothing behind the level would have been touched. -/
theorem SideMatched.atLevel {next : Matching} {left : List OrderPtr}
    (represents : state.engine.Represents layout) (levels : layout side = level :: rest)
    (outside : forall other, incoming ∉ layout.nodes other) (some : left ≠ [])
    (walk : LevelWalked order incoming level.2 left
      ⟨state.engine.heap, (levelEntry state.engine.heap level).2, state.trades, level.2.head?⟩
      ⟨next.engine.heap, (levelEntry next.engine.heap (level.1, left)).2, next.trades, none⟩)
    (rewritten : next.engine.Represents
      (Function.update layout side (remainingLevel level.1 left ++ rest))) :
    SideMatched order incoming side layout
      (Function.update layout side (remainingLevel level.1 left ++ rest)) state next := by
  have whole := walk.sweep_ends represents levels outside some
  have nodes : Layout.nodes (Function.update layout side (remainingLevel level.1 left ++ rest))
      side = left ++ rest.flatMap Prod.snd := by
    rw [nodes_update, List.flatMap_append, nodes_remainingLevel]
  refine ⟨rewritten, ?_, ?_, ?_, ?_, ?_, ?_, walk.terms, ?_⟩
  · intro other different
    rw [Function.update_of_ne different]
  · rw [whole]
    exact walk.trades
  · rw [nodes, whole]
  · rw [whole]
    exact walk.remaining
  · intro node member
    rw [nodes] at member
    rw [nodes_cons levels]
    rcases List.mem_append.mp member with inLeft | inRest
    · exact List.mem_append_left _ (walk.suffix.subset inLeft)
    · exact List.mem_append_right _ inRest
  · intro node member gone
    rw [nodes, List.mem_append, not_or] at gone
    rw [nodes_cons levels] at member
    exact walk.detached node ((List.mem_append.mp member).resolve_right gone.2) gone.1
  · intro node away notIncoming
    rw [nodes_cons levels, List.mem_append, not_or] at away
    exact walk.frame node away.1 notIncoming

/-- An incoming order that leaves orders at an acceptable level is used up. -/
theorem LevelWalked.exhausted {next : Matching} {left : List OrderPtr}
    (represents : state.engine.Represents layout) (levels : layout side = level :: rest)
    (accepted : order.accepts level.1 = true) (some : left ≠ [])
    (walk : LevelWalked order incoming level.2 left
      ⟨state.engine.heap, (levelEntry state.engine.heap level).2, state.trades, level.2.head?⟩
      ⟨next.engine.heap, (levelEntry next.engine.heap (level.1, left)).2, next.trades, none⟩) :
    (next.engine.heap incoming).qty = 0 := by
  have shape := represents.shape side level (levels ▸ List.mem_cons_self)
  have remains := congrArg (fun cell : OrderNode => cell.qty) walk.remaining
  have acceptable : forall maker, maker ∈ level.2.map state.engine.heap.resting ->
      order.accepts maker.price = true := by
    intro maker member
    rcases List.mem_map.mp member with ⟨node, queued, same⟩
    subst same
    change order.accepts (state.engine.heap node).price = true
    rw [(shape.placed node queued).1]
    exact accepted
  rcases sweep_accepted order _ (state.engine.heap incoming).qty acceptable with zero | none
  · exact remains.trans zero
  · exact absurd (List.map_eq_nil_iff.mp (walk.queued.trans none)) some

/-- A level whose price is not acceptable ends the sweep. -/
theorem Represents.sweep_refuses_level (represents : state.engine.Represents layout)
    (levels : layout side = level :: rest) (refused : order.accepts level.1 ≠ true) (qty : Quantity) :
    sweep order qty ((layout.nodes side).map state.engine.heap.resting) =
      ⟨[], (layout.nodes side).map state.engine.heap.resting, qty⟩ := by
  have shape := represents.shape side level (levels ▸ List.mem_cons_self)
  rw [nodes_cons levels]
  cases queue : level.2 with
  | nil => exact absurd queue shape.nonempty
  | cons maker makers =>
      have placed := (shape.placed maker (queue ▸ List.mem_cons_self)).1
      refine sweep_stop order ?_ _ _
      change order.accepts (state.engine.heap maker).price ≠ true
      rw [placed]
      exact refused

/-- A node outside stays outside when the first level is gone. -/
theorem outside_update (levels : layout side = level :: rest)
    (outside : forall other, incoming ∉ layout.nodes other) (other : Side) :
    incoming ∉ Layout.nodes (Function.update layout side rest) other := by
  by_cases same : other = side
  · subst same
    rw [nodes_update]
    intro member
    exact outside other (by rw [nodes_cons levels]; exact List.mem_append_right _ member)
  · rw [Layout.nodes, Function.update_of_ne same]
    exact outside other

end Pass

/-- The outer loop, from any represented book the incoming order is not in,
returns and does what `sweep` does to the whole side.  The induction is on the
levels of the layout. -/
theorem matchLevel_run (order : LimitOrder) (incoming : OrderPtr) (side : Side)
    (state : Matching) {layout : Layout} (represents : state.engine.Represents layout)
    (outside : forall other, incoming ∉ layout.nodes other)
    (taker : order.id = (state.engine.heap incoming).id)
    (limit : order.price = (state.engine.heap incoming).price)
    (facing : side = order.side.opposite) {inner budget : Nat}
    (innerEnough : forall level, level ∈ layout side -> level.2.length + 1 < inner)
    (enough : (layout side).length + 1 < budget) :
    Exists fun final => Exists fun layout' =>
      BoundedLoop.run (matchLevel side (stopsAt side) inner incoming) budget state = some final ∧
        SideMatched order incoming side layout layout' state final := by
  obtain ⟨budget, rfl⟩ : Exists fun fewer => budget = fewer + 1 := ⟨budget - 1, by omega⟩
  generalize levels : layout side = queue at innerEnough enough
  induction queue generalizing layout state budget with
  | nil =>
      have noNodes : layout.nodes side = [] := by rw [Layout.nodes, levels]; rfl
      refine ⟨state, layout, BoundedLoop.run_done ?_ budget, SideMatched.stay represents ?_⟩
      · have noFirst : (state.engine.book.levels side).first = none := by
          rw [OrderedMap.first, represents.entries side, levels]
          rfl
        unfold matchLevel
        simp only [noFirst, ite_self]
      · rw [noNodes]
        exact sweep_nil _ _
  | cons level rest inductionHypothesis =>
      by_cases remains : (state.engine.heap incoming).qty > 0
      · by_cases accepted : order.accepts level.1 = true
        · rcases matchLevel_walks represents levels outside taker limit facing remains accepted
            (innerEnough level List.mem_cons_self) with ⟨next, left, step, rewritten, walk⟩
          obtain ⟨fewer, rfl⟩ : Exists fun fewer => budget = fewer + 1 :=
            ⟨budget - 1, by simp at enough; omega⟩
          by_cases emptied : left = []
          · subst emptied
            rw [remainingLevel_nil, List.nil_append] at rewritten
            have kept := walk.terms incoming
            rcases inductionHypothesis next rewritten (outside_update levels outside)
              (taker.trans kept.1.symm) (limit.trans kept.2.1.symm) fewer
              (Function.update_self _ _ _)
              (fun other member => innerEnough other (List.mem_cons_of_mem level member))
              (by simp at enough ⊢; omega) with ⟨final, layout', ran, matched⟩
            exact ⟨final, layout', (BoundedLoop.run_yield step _).trans ran,
              SideMatched.afterLevel represents levels outside walk matched⟩
          · have exhausted := walk.exhausted represents levels accepted emptied
            refine ⟨next, _, ?_, SideMatched.atLevel represents levels outside emptied walk rewritten⟩
            rw [BoundedLoop.run_yield step]
            exact BoundedLoop.run_done (matchLevel_exhausted exhausted) fewer
        · have stops : stopsAt side (levelEntry state.engine.heap level).2.price
              (state.engine.heap incoming).price = true := by
            rw [stopsAt, facing, ← limit]
            exact decide_eq_true (Decidable.not_not.mp (fun go => accepted ((order.accepts_iff _).mpr go)))
          refine ⟨state, layout, BoundedLoop.run_done ?_ budget, SideMatched.stay represents
            (represents.sweep_refuses_level levels accepted _)⟩
          unfold matchLevel
          simp only [if_pos remains, represents.first levels, stops, if_true]
      · have none : (state.engine.heap incoming).qty = 0 := eq_zero_of_not_pos remains
        refine ⟨state, layout, BoundedLoop.run_done (matchLevel_exhausted none) budget,
          SideMatched.stay represents ?_⟩
        rw [none, sweep_zero]

end Engine
end NexusHft
