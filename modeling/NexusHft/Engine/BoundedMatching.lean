import Mathlib.Data.List.Flatten
import NexusHft.Engine.LevelWalk
import NexusHft.Engine.Requests

namespace NexusHft

open Foundations

/-!
# Matching does bounded work

Neither matching loop has a counter, and a trade may be for nothing: a resting
order may have no quantity, and a level may hold no order.  What decreases is
the queue of the level in the inner loop, by one order for each trade, and the
map in the outer one, by one level for each pass, unless the incoming order is
used up.

`AllShelved` asks of a book only that every level stands under its own price and
holds a list of nodes of its own.  Nothing is assumed of quantities, volumes or
of the prices the nodes carry.
-/

/-- What a trade takes from its maker. -/
def Trade.sold (trade : Trade) : OrderId × Quantity := (trade.makerOrderId, trade.qty)

/-- What a node has lost. -/
def soldBy (before after : Heap) (maker : OrderPtr) : OrderId × Quantity :=
  ((before maker).id, (before maker).qty - (after maker).qty)

theorem soldBy_congr {before before' after after' : Heap} {maker : OrderPtr}
    (id : (before' maker).id = (before maker).id) (qty : (before' maker).qty = (before maker).qty)
    (later : (after' maker).qty = (after maker).qty) :
    soldBy before' after' maker = soldBy before after maker := by
  rw [soldBy, id, qty, later, soldBy]

/-- The new trades are with the makers, one each, and have taken what these lost. -/
def Records (before after : Heap) (old new : List Trade) (makers : List OrderPtr) : Prop :=
  Exists fun added => new = old ++ added ∧ added.map Trade.sold = makers.map (soldBy before after)

theorem Records.refl (heap : Heap) (trades : List Trade) : Records heap heap trades trades [] :=
  ⟨[], (List.append_nil trades).symm, rfl⟩

/-- Makers that lose nothing after their trades, and others that have lost nothing
before theirs. -/
theorem Records.append {before between after : Heap} {old middle new : List Trade}
    {makers later : List OrderPtr} (first : Records before between old middle makers)
    (second : Records between after middle new later)
    (settled : forall maker, maker ∈ makers -> (after maker).qty = (between maker).qty)
    (untouched : forall maker, maker ∈ later ->
      (between maker).id = (before maker).id ∧ (between maker).qty = (before maker).qty) :
    Records before after old new (makers ++ later) := by
  rcases first with ⟨added, isMiddle, sales⟩
  rcases second with ⟨added', isNew, sales'⟩
  refine ⟨added ++ added', ?_, ?_⟩
  · rw [isNew, isMiddle, List.append_assoc]
  · rw [List.map_append, List.map_append, sales, sales']
    congr 1
    · apply List.map_congr_left
      intro maker member
      exact soldBy_congr rfl rfl (settled maker member).symm
    · apply List.map_congr_left
      intro maker member
      exact soldBy_congr (untouched maker member).1 (untouched maker member).2 rfl

/-- All but the last of two lists together. -/
theorem mem_dropLast_append {Item : Type} {front back : List Item} {item : Item}
    (member : item ∈ (front ++ back).dropLast) : item ∈ front ∨ item ∈ back.dropLast := by
  cases back with
  | nil =>
      rw [List.append_nil] at member
      exact Or.inl (List.mem_of_mem_dropLast member)
  | cons first rest =>
      rw [List.dropLast_append_of_ne_nil (List.cons_ne_nil first rest)] at member
      exact List.mem_append.mp member

namespace Engine

/-! ## One level -/

/-- What walking the queue of a level leaves: the `makers` have traded, the orders
`left` are still queued.  At most one order is both, the last maker, if the taker
was used up on it.  Quantities may be zero, so trades are counted and not summed.
-/
structure LevelSpent (incoming : OrderPtr) (nodes : List OrderPtr) (before after : LevelPass)
    (makers left : List OrderPtr) : Prop where
  price : after.level.price = before.level.price
  holds : IntrusiveList.Holds after.heap after.level.orders left
  traded : makers <+: nodes
  queued : left <:+ nodes
  whole : left = [] -> makers = nodes
  trades : Records before.heap after.heap before.trades after.trades makers
  filled : forall maker, maker ∈ makers -> maker ∉ left -> (after.heap maker).qty = 0
  unlinked : forall maker, maker ∈ makers.dropLast -> maker ∉ left
  ended : left = [] ∨ (after.heap incoming).qty = 0
  limit : (after.heap incoming).price = (before.heap incoming).price
  frame : forall node, node ∉ nodes -> node ≠ incoming -> after.heap node = before.heap node

/-- What a pass over a maker that is filled leaves: one more trade, and a queue
that is shorter by this maker.  That is what bounds the inner loop. -/
structure MakerFilled (incoming maker : OrderPtr) (rest : List OrderPtr) (before after : LevelPass) :
    Prop where
  holds : IntrusiveList.Holds after.heap after.level.orders rest
  stands : after.resting = rest.head?
  price : after.level.price = before.level.price
  trades : Records before.heap after.heap before.trades after.trades [maker]
  empty : (after.heap maker).qty = 0
  behind : forall node, node ∈ rest ->
    (after.heap node).id = (before.heap node).id ∧ (after.heap node).qty = (before.heap node).qty
  limit : (after.heap incoming).price = (before.heap incoming).price
  frame : forall node, node ∉ maker :: rest -> node ≠ incoming ->
    after.heap node = before.heap node

section Level

variable {incoming maker : OrderPtr} {rest : List OrderPtr} {pass next : LevelPass}

/-- A walk that trades with nobody. -/
theorem LevelSpent.stay {nodes : List OrderPtr}
    (holds : IntrusiveList.Holds pass.heap pass.level.orders nodes)
    (ended : nodes = [] ∨ (pass.heap incoming).qty = 0) :
    LevelSpent incoming nodes pass pass [] nodes where
  price := rfl
  holds := holds
  traded := List.nil_prefix
  queued := List.suffix_refl nodes
  whole := fun empty => empty.symm
  trades := .refl _ _
  filled := fun _ member => absurd member List.not_mem_nil
  unlinked := fun _ member => absurd member List.not_mem_nil
  ended := ended
  limit := rfl
  frame := fun _ _ _ => rfl

/-- What is traded with a maker that is left with the rest of its quantity. -/
theorem sub_sub_min (taker maker : UInt64) : maker - (maker - min taker maker) = min taker maker := by
  apply UInt64.toNat_inj.mp
  have least := toNat_min taker maker
  rw [toNat_sub_of_toNat_le, toNat_sub_min_right]
  · omega
  · rw [toNat_sub_min_right]
    omega

section Pass

variable (holds : IntrusiveList.Holds pass.heap pass.level.orders (maker :: rest))
  (outside : incoming ∉ maker :: rest)
include holds

/-- The list after the quantities of a pass are written. -/
theorem holds_afterFill :
    IntrusiveList.Holds (afterFill pass.heap incoming maker) pass.level.orders (maker :: rest) := by
  refine ⟨holds.head, holds.tail, holds.distinct, ?_⟩
  rw [afterFill_links.1, afterFill_links.2]
  exact holds.links

include outside

theorem afterFill_behind {node : OrderPtr} (member : node ∈ rest) :
    afterFill pass.heap incoming maker node = pass.heap node := by
  apply afterFill_of_ne
  · exact fun same => outside (same ▸ List.mem_cons_of_mem maker member)
  · exact fun same => (List.nodup_cons.mp holds.distinct).1 (same ▸ member)

/-- A maker that keeps quantity has used up the incoming order, so the walk ends
at it and the maker stays at the head of its queue. -/
theorem LevelSpent.last (remains : (pass.heap incoming).qty > 0) (stands : pass.resting = some maker)
    (part : (pass.heap maker).qty - min (pass.heap incoming).qty (pass.heap maker).qty ≠ 0) :
    Exists fun next => fillResting incoming pass = some (.yield next) ∧
      (next.heap incoming).qty = 0 ∧
      LevelSpent incoming (maker :: rest) pass next [maker] (maker :: rest) := by
  have apart : incoming ≠ maker := fun same => outside (same ▸ List.mem_cons_self)
  have step := fillResting_eq apart stands remains
  simp only [if_neg part] at step
  have used : (afterFill pass.heap incoming maker incoming).qty = 0 := by
    rw [ne_eq, eq_zero_iff_toNat, toNat_sub_min_right] at part
    rw [afterFill_incoming apart]
    change (pass.heap incoming).qty - _ = 0
    rw [eq_zero_iff_toNat, toNat_sub_min_left]
    omega
  refine ⟨_, step, used, rfl, holds_afterFill holds, ?_, List.suffix_refl _, ?_, ?_, ?_, ?_,
    Or.inr used, (afterFill_terms apart incoming).2.1, ?_⟩
  · exact List.prefix_append [maker] rest
  · exact fun empty => absurd empty (List.cons_ne_nil maker rest)
  · refine ⟨_, rfl, ?_⟩
    have kept : (afterFill pass.heap incoming maker maker).qty =
        (pass.heap maker).qty - min (pass.heap incoming).qty (pass.heap maker).qty := by
      rw [afterFill_maker apart]
    rw [List.map_singleton, List.map_singleton, soldBy]
    dsimp only
    rw [kept, sub_sub_min]
    rfl
  · intro other member kept
    exact absurd (List.mem_singleton.mp member ▸ List.mem_cons_self) kept
  · exact fun _ member => absurd member List.not_mem_nil
  · intro node away notIncoming
    exact afterFill_of_ne notIncoming (fun same => away (same ▸ List.mem_cons_self))

/-- A maker that is filled is unlinked, and the walk goes on behind it.  Its
quantity may have been zero from the start: the trade is for nothing, but the
queue is shorter. -/
theorem fillResting_unlinks (remains : (pass.heap incoming).qty > 0)
    (stands : pass.resting = some maker)
    (whole : (pass.heap maker).qty - min (pass.heap incoming).qty (pass.heap maker).qty = 0) :
    Exists fun next => fillResting incoming pass = some (.yield next) ∧
      MakerFilled incoming maker rest pass next := by
  have apart : incoming ≠ maker := fun same => outside (same ▸ List.mem_cons_self)
  have linked : IntrusiveList.Holds (afterFill pass.heap incoming maker) pass.level.orders
      ([] ++ maker :: rest) := holds_afterFill holds
  have step := fillResting_eq apart stands remains
  simp only [if_pos whole] at step
  have all : min (pass.heap incoming).qty (pass.heap maker).qty = (pass.heap maker).qty := by
    have undone := sub_sub_min (pass.heap incoming).qty (pass.heap maker).qty
    rw [whole, UInt64.sub_zero] at undone
    exact undone.symm
  have terms (node : OrderPtr) :=
    congrFun (IntrusiveList.remove_order pass.level.orders (afterFill pass.heap incoming maker)
      maker) node
  have empty : (afterFill pass.heap incoming maker maker).qty = 0 := by
    rw [afterFill_maker apart]
    exact whole
  have gone : ((pass.level.orders.remove (afterFill pass.heap incoming maker) maker).1 maker).qty =
      0 := (congrArg LimitOrder.qty (terms maker)).trans empty
  refine ⟨_, step, linked.remove, ?_, rfl, ⟨_, rfl, ?_⟩, gone, ?_, ?_, ?_⟩
  · exact holds.links.2.1.trans Option.or_none
  · rw [List.map_singleton, List.map_singleton, soldBy]
    dsimp only
    rw [gone, UInt64.sub_zero]
    exact congrArg (fun qty => [((pass.heap maker).id, qty)]) all
  · intro node member
    have kept := afterFill_behind holds outside member
    exact ⟨(congrArg LimitOrder.id (terms node)).trans (congrArg (fun cell => cell.id) kept),
      (congrArg LimitOrder.qty (terms node)).trans (congrArg (fun cell => cell.qty) kept)⟩
  · exact (congrArg LimitOrder.price (terms incoming)).trans (afterFill_terms apart incoming).2.1
  · intro node away notIncoming
    exact (linked.remove_frame away).trans
      (afterFill_of_ne notIncoming (fun same => away (same ▸ List.mem_cons_self)))

/-- A filled maker, followed by the rest of the walk, which never sees it again
because it is no longer in the queue. -/
theorem LevelSpent.fill {makers left : List OrderPtr} {after : LevelPass}
    (filled : MakerFilled incoming maker rest pass next)
    (spent : LevelSpent incoming rest next after makers left) :
    LevelSpent incoming (maker :: rest) pass after (maker :: makers) left := by
  have notIncoming : maker ≠ incoming := fun same => outside (same ▸ List.mem_cons_self)
  have notBehind : maker ∉ rest := (List.nodup_cons.mp holds.distinct).1
  have settled : after.heap maker = next.heap maker := spent.frame maker notBehind notIncoming
  have makerEmpty : (after.heap maker).qty = 0 := by
    rw [settled]
    exact filled.empty
  have notLeft : maker ∉ left := fun member => notBehind (spent.queued.subset member)
  refine ⟨spent.price.trans filled.price, spent.holds, ?_,
    spent.queued.trans (List.suffix_cons maker rest), ?_, ?_, ?_, ?_, spent.ended,
    spent.limit.trans filled.limit, ?_⟩
  · exact (List.prefix_cons_inj maker).mpr spent.traded
  · exact fun empty => congrArg (List.cons maker) (spent.whole empty)
  · refine filled.trades.append spent.trades ?_ ?_
    · intro other member
      rw [List.mem_singleton.mp member, settled]
    · exact fun other member => filled.behind other (spent.traded.subset member)
  · intro other member kept
    rcases List.mem_cons.mp member with isMaker | later
    · rw [isMaker]
      exact makerEmpty
    · exact spent.filled other later kept
  · intro other member
    cases makers with
    | nil => exact absurd member List.not_mem_nil
    | cons second others =>
        rcases List.mem_cons.mp member with isMaker | later
        · rw [isMaker]
          exact notLeft
        · exact spent.unlinked other later
  · intro node away elsewhere
    rw [spent.frame node (fun member => away (List.mem_cons_of_mem maker member)) elsewhere]
    exact filled.frame node away elsewhere

end Pass

/-- The inner loop goes on once for each trade, and ends.  The induction is on the
queue, of which every pass but the last one takes the head away. -/
theorem fillResting_passes {nodes : List OrderPtr} (pass : LevelPass)
    (holds : IntrusiveList.Holds pass.heap pass.level.orders nodes) (outside : incoming ∉ nodes)
    (stands : pass.resting = nodes.head?) :
    Exists fun after => Exists fun makers => Exists fun left =>
      BoundedLoop.Passes (fillResting incoming) makers.length pass after ∧
        LevelSpent incoming nodes pass after makers left := by
  induction nodes generalizing pass with
  | nil =>
      have done : fillResting incoming pass = some (.done pass) := by
        unfold fillResting
        rw [stands]
        rfl
      exact ⟨pass, [], [], .done done, LevelSpent.stay holds (Or.inl rfl)⟩
  | cons maker rest inductionHypothesis =>
      by_cases remains : (pass.heap incoming).qty > 0
      · by_cases whole : (pass.heap maker).qty -
            min (pass.heap incoming).qty (pass.heap maker).qty = 0
        · rcases fillResting_unlinks holds outside remains stands whole with
            ⟨next, step, filled⟩
          rcases inductionHypothesis next filled.holds
            (fun member => outside (List.mem_cons_of_mem maker member)) filled.stands with
            ⟨after, makers, left, passes, spent⟩
          exact ⟨after, maker :: makers, left, .yield step passes,
            LevelSpent.fill holds outside filled spent⟩
        · rcases LevelSpent.last holds outside remains stands whole with ⟨next, step, used, spent⟩
          exact ⟨next, [maker], maker :: rest, .yield step (.done (fillResting_exhausted used)), spent⟩
      · have used : (pass.heap incoming).qty = 0 := eq_zero_of_not_pos remains
        exact ⟨pass, [], maker :: rest, .done (fillResting_exhausted used),
          LevelSpent.stay holds (Or.inr used)⟩

end Level

/-! ## All levels of a side -/

/-- The orders queued at some levels, given the queue of each price. -/
def queuedAt (queue : Price -> List OrderPtr) (entries : List (Price × PriceLevel)) :
    List OrderPtr :=
  entries.flatMap fun entry => queue entry.1

/-- Every level stands under its own price and holds its queue, and no node is
queued twice.  This is all that termination and the bounds need; the volumes and
the prices of the nodes may be anything. -/
structure Shelved (heap : Heap) (entries : List (Price × PriceLevel))
    (queue : Price -> List OrderPtr) : Prop where
  priced : forall entry, entry ∈ entries -> entry.2.price = entry.1
  held : forall entry, entry ∈ entries ->
    IntrusiveList.Holds heap entry.2.orders (queue entry.1)
  distinct : (queuedAt queue entries).Nodup

/-- Both sides of the book are shelved. -/
def AllShelved (engine : Engine) (queue : Side -> Price -> List OrderPtr) : Prop :=
  forall side, Shelved engine.heap (engine.book.levels side).entries (queue side)

/-- The levels whose price does not stop a loop with this limit. -/
def acceptable (side : Side) (limit : Price) (entries : List (Price × PriceLevel)) :
    List (Price × PriceLevel) :=
  entries.filter fun entry => !stopsAt side entry.1 limit

/-- What sweeping one side with some passes leaves.  The passes are bounded by the
acceptable levels and the makers begin the orders queued there, so neither loop
can meet the same order twice. -/
structure SideSpent (incoming : OrderPtr) (side : Side) (queue : Price -> List OrderPtr)
    (entries : List (Price × PriceLevel)) (before after : Matching) (passes : Nat)
    (makers : List OrderPtr) : Prop where
  bounded : passes ≤ (acceptable side (before.engine.heap incoming).price entries).length
  traded : makers <+: queuedAt queue (acceptable side (before.engine.heap incoming).price entries)
  trades : Records before.engine.heap after.engine.heap before.trades after.trades makers
  filled : forall maker, maker ∈ makers.dropLast -> (after.engine.heap maker).qty = 0
  shelved : Exists fun queue' =>
    Shelved after.engine.heap (after.engine.book.levels side).entries queue' ∧
      queuedAt queue' (after.engine.book.levels side).entries ⊆ queuedAt queue entries ∧
      forall maker, maker ∈ makers.dropLast ->
        maker ∉ queuedAt queue' (after.engine.book.levels side).entries
  frame : forall node, node ∉ queuedAt queue entries -> node ≠ incoming ->
    after.engine.heap node = before.engine.heap node

section Side

variable {incoming : OrderPtr} {side : Side} {queue : Price -> List OrderPtr} {state : Matching}
  {key : Price} {level : PriceLevel} {rest : List (Price × PriceLevel)}

theorem acceptable_cons {limit : Price} (accepted : stopsAt side key limit = false) :
    acceptable side limit ((key, level) :: rest) = (key, level) :: acceptable side limit rest := by
  rw [acceptable, List.filter_cons_of_pos]
  · rfl
  · rw [accepted]
    rfl

theorem mem_queuedAt_of_acceptable {limit : Price} {entries : List (Price × PriceLevel)}
    {node : OrderPtr} (member : node ∈ queuedAt queue (acceptable side limit entries)) :
    node ∈ queuedAt queue entries := by
  rcases List.mem_flatMap.mp member with ⟨entry, listed, queued⟩
  exact List.mem_flatMap.mpr ⟨entry, List.mem_of_mem_filter listed, queued⟩

theorem length_queue_le (queue : Price -> List OrderPtr) {entries : List (Price × PriceLevel)}
    {entry : Price × PriceLevel} (listed : entry ∈ entries) :
    (queue entry.1).length ≤ (queuedAt queue entries).length := by
  rcases List.append_of_mem listed with ⟨front, back, cut⟩
  rw [cut, queuedAt, List.flatMap_append, List.flatMap_cons, List.length_append,
    List.length_append]
  omega

/-- The queues when the first level has been shortened. -/
theorem queuedAt_update {left : List OrderPtr}
    (keys : forall entry, entry ∈ rest -> entry.1 ≠ key) :
    queuedAt (Function.update queue key left) ((key, level) :: rest) =
      left ++ queuedAt queue rest := by
  have others : forall entry, entry ∈ rest ->
      Function.update queue key left entry.1 = queue entry.1 := by
    intro entry member
    exact Function.update_of_ne (keys entry member) left queue
  rw [queuedAt, List.flatMap_cons, Function.update_self, List.flatMap_congr others]
  rfl

theorem SideSpent.stay {entries : List (Price × PriceLevel)}
    (listed : (state.engine.book.levels side).entries = entries)
    (shelved : Shelved state.engine.heap entries queue) :
    SideSpent incoming side queue entries state state 0 [] where
  bounded := Nat.zero_le _
  traded := List.nil_prefix
  trades := .refl _ _
  filled := fun _ member => absurd member List.not_mem_nil
  shelved := by
    rw [listed]
    exact ⟨queue, shelved, List.Subset.refl _, fun _ member => absurd member List.not_mem_nil⟩
  frame := fun _ _ _ => rfl

namespace Shelved

variable {heap heap' : Heap}

theorem tail (shelved : Shelved heap ((key, level) :: rest) queue)
    (same : forall node, node ∈ queuedAt queue rest -> heap' node = heap node) :
    Shelved heap' rest queue where
  priced := fun entry member => shelved.priced entry (List.mem_cons_of_mem _ member)
  held := by
    intro entry member
    apply (shelved.held entry (List.mem_cons_of_mem _ member)).congr
    intro node queued
    exact same node (List.mem_flatMap.mpr ⟨entry, member, queued⟩)
  distinct := (List.nodup_append.mp shelved.distinct).2.1

/-- The first level keeps some of its orders, and the others all of theirs. -/
theorem shorten {left : List OrderPtr} {level' : PriceLevel}
    (shelved : Shelved heap ((key, level) :: rest) queue)
    (same : forall node, node ∈ queuedAt queue rest -> heap' node = heap node)
    (keys : forall entry, entry ∈ rest -> entry.1 ≠ key) (price : level'.price = key)
    (holds : IntrusiveList.Holds heap' level'.orders left) (kept : left <:+ queue key) :
    Shelved heap' ((key, level') :: rest) (Function.update queue key left) := by
  have behind := shelved.tail same
  refine ⟨?_, ?_, ?_⟩
  · intro entry member
    rcases List.mem_cons.mp member with isFirst | later
    · rw [isFirst]
      exact price
    · exact behind.priced entry later
  · intro entry member
    rcases List.mem_cons.mp member with isFirst | later
    · rw [isFirst]
      change IntrusiveList.Holds heap' level'.orders (Function.update queue key left key)
      rw [Function.update_self]
      exact holds
    · rw [Function.update_of_ne (keys entry later)]
      exact behind.held entry later
  · rw [queuedAt_update keys]
    exact shelved.distinct.sublist (kept.sublist.append_right _)

end Shelved

/-- One pass over a level whose price is acceptable: the walk of its queue, then
the level is erased or written back. -/
theorem matchLevel_spends (listed : (state.engine.book.levels side).entries = (key, level) :: rest)
    (shelved : Shelved state.engine.heap ((key, level) :: rest) queue)
    (outside : incoming ∉ queuedAt queue ((key, level) :: rest))
    (remains : (state.engine.heap incoming).qty > 0)
    (accepted : stopsAt side key (state.engine.heap incoming).price = false) {inner : Nat}
    (enough : (queue key).length < inner) :
    Exists fun next : Matching => Exists fun walked : LevelPass =>
      Exists fun makers => Exists fun left =>
        matchLevel side (stopsAt side) inner incoming state = some (.yield next) ∧
        next.engine.heap = walked.heap ∧ next.trades = walked.trades ∧
        (next.engine.book.levels side).entries =
          (if left = [] then [] else [(key, walked.level)]) ++ rest ∧
        LevelSpent incoming (queue key)
          ⟨state.engine.heap, level, state.trades, level.orders.head⟩ walked makers left := by
  have holds := shelved.held (key, level) List.mem_cons_self
  have notQueued : incoming ∉ queue key := fun member => outside (List.mem_append_left _ member)
  have price : level.price = key := shelved.priced (key, level) List.mem_cons_self
  rcases fillResting_passes ⟨state.engine.heap, level, state.trades, level.orders.head⟩ holds
    notQueued holds.head with ⟨walked, makers, left, passes, spent⟩
  have ran := passes.run (lt_of_le_of_lt spent.traded.length_le enough)
  have first : (state.engine.book.levels side).first = some (key, level) := by
    rw [OrderedMap.first, listed]
    rfl
  have split : (state.engine.book.levels side).entries = [] ++ (key, level) :: rest := listed
  have written := OrderBook.writeBack_levels walked.level split (spent.price.trans price)
  refine ⟨⟨⟨walked.heap, (state.engine.book.setLevels side ((state.engine.book.levels side).set key
    walked.level)).checkRemoveLevel walked.level side⟩, walked.trades⟩, walked, makers, left, ?_,
    rfl, rfl, ?_, spent⟩
  · unfold matchLevel
    simp only [if_pos remains, first, price, accepted, Bool.false_eq_true, if_false, ran]
  · have isEmpty : walked.level.orders.isEmpty = decide (left = []) := by
      rw [IntrusiveList.isEmpty, spent.holds.head]
      cases left <;> rfl
    rw [written, isEmpty]
    by_cases empty : left = [] <;> simp [empty]

section Pass

variable {next after : Matching} {walked : LevelPass} {makers left : List OrderPtr}
  (shelved : Shelved state.engine.heap ((key, level) :: rest) queue)
  (accepted : stopsAt side key (state.engine.heap incoming).price = false)
  (memory : next.engine.heap = walked.heap) (recorded : next.trades = walked.trades)
  (spent : LevelSpent incoming (queue key)
    ⟨state.engine.heap, level, state.trades, level.orders.head⟩ walked makers left)

include shelved memory spent in
/-- A pass does not reach behind its level. -/
theorem LevelSpent.behind (outside : incoming ∉ queuedAt queue ((key, level) :: rest)) :
    forall node, node ∈ queuedAt queue rest -> next.engine.heap node = state.engine.heap node := by
  intro node member
  rw [memory]
  apply spent.frame node
  · intro here
    exact (List.nodup_append.mp shelved.distinct).2.2 node here node member rfl
  · intro same
    exact outside (List.mem_append_right (queue key) (same ▸ member))

include shelved accepted memory recorded spent

/-- A pass that leaves orders at its level, and none to match. -/
theorem SideSpent.last (outside : incoming ∉ queuedAt queue ((key, level) :: rest))
    (keys : forall entry, entry ∈ rest -> entry.1 ≠ key)
    (written : (next.engine.book.levels side).entries = (key, walked.level) :: rest) :
    SideSpent incoming side queue ((key, level) :: rest) state next 1 makers := by
  have behind := LevelSpent.behind shelved memory spent outside
  have price : walked.level.price = key :=
    spent.price.trans (shelved.priced (key, level) List.mem_cons_self)
  have holds := spent.holds
  rw [← memory] at holds
  refine ⟨?_, ?_, ?_, ?_, ⟨Function.update queue key left, ?_⟩, ?_⟩
  · rw [acceptable_cons accepted]
    exact Nat.succ_le_succ (Nat.zero_le _)
  · rw [acceptable_cons accepted]
    exact spent.traded.trans (List.prefix_append _ _)
  · rw [recorded, memory]
    exact spent.trades
  · intro maker member
    rw [memory]
    exact spent.filled maker (List.mem_of_mem_dropLast member) (spent.unlinked maker member)
  · rw [written, queuedAt_update keys]
    refine ⟨shelved.shorten behind keys price holds spent.queued, ?_, ?_⟩
    · intro node member
      rcases List.mem_append.mp member with here | later
      · exact List.mem_append_left _ (spent.queued.subset here)
      · exact List.mem_append_right _ later
    · intro maker member listed
      rcases List.mem_append.mp listed with here | later
      · exact spent.unlinked maker member here
      · have atLevel : maker ∈ queue key :=
          spent.traded.subset (List.mem_of_mem_dropLast member)
        exact (List.nodup_append.mp shelved.distinct).2.2 maker atLevel maker later rfl
  · intro node away notIncoming
    rw [memory]
    exact spent.frame node (fun member => away (List.mem_append_left _ member)) notIncoming

/-- A pass that empties its level, followed by the passes behind it.  The level is
erased, so its orders are met once, and the levels behind it are as they were. -/
theorem SideSpent.onward (outside : incoming ∉ queuedAt queue ((key, level) :: rest))
    (emptied : left = []) {passes : Nat} {later : List OrderPtr}
    (spentBehind : SideSpent incoming side queue rest next after passes later) :
    SideSpent incoming side queue ((key, level) :: rest) state after (passes + 1)
      (makers ++ later) := by
  subst emptied
  have behind := LevelSpent.behind shelved memory spent outside
  have apart := (List.nodup_append.mp shelved.distinct).2.2
  have limit : (next.engine.heap incoming).price = (state.engine.heap incoming).price := by
    rw [memory]
    exact spent.limit
  have bounded := spentBehind.bounded
  have traded := spentBehind.traded
  rw [limit] at bounded traded
  -- The makers of this level are not touched behind it.
  have settled : forall maker, maker ∈ makers ->
      after.engine.heap maker = next.engine.heap maker := by
    intro maker member
    have here := spent.traded.subset member
    apply spentBehind.frame maker
    · exact fun inRest => apart maker here maker inRest rfl
    · exact fun same => outside (List.mem_append_left _ (same ▸ here))
  have empty : forall maker, maker ∈ makers -> (after.engine.heap maker).qty = 0 := by
    intro maker member
    rw [settled maker member, memory]
    exact spent.filled maker member List.not_mem_nil
  refine ⟨?_, ?_, ?_, ?_, ?_, ?_⟩
  · rw [acceptable_cons accepted]
    exact Nat.succ_le_succ bounded
  · rw [acceptable_cons accepted, spent.whole rfl]
    exact (List.prefix_append_right_inj (queue key)).mpr traded
  · have here := spent.trades
    rw [← memory, ← recorded] at here
    refine here.append spentBehind.trades ?_ ?_
    · intro maker member
      rw [settled maker member]
    · intro maker member
      have same := behind maker (mem_queuedAt_of_acceptable (traded.subset member))
      exact ⟨congrArg (fun cell => cell.id) same, congrArg (fun cell => cell.qty) same⟩
  · intro maker member
    rcases mem_dropLast_append member with here | behindIt
    · exact empty maker here
    · exact spentBehind.filled maker behindIt
  · rcases spentBehind.shelved with ⟨queue', shelved', fewer, gone⟩
    refine ⟨queue', shelved', fun node member => List.mem_append_right _ (fewer member), ?_⟩
    intro maker member listed
    rcases mem_dropLast_append member with here | behindIt
    · exact apart maker (spent.traded.subset here) maker (fewer listed) rfl
    · exact gone maker behindIt listed
  · intro node away notIncoming
    rw [spentBehind.frame node (fun member => away (List.mem_append_right _ member)) notIncoming,
      memory]
    exact spent.frame node (fun member => away (List.mem_append_left _ member)) notIncoming

end Pass

/-- The outer loop goes on at most once for each acceptable level, and ends.  The
induction is on the levels of the map, of which every pass but the last one erases
the first. -/
theorem matchLevel_passes {entries : List (Price × PriceLevel)} (state : Matching)
    (listed : (state.engine.book.levels side).entries = entries)
    (shelved : Shelved state.engine.heap entries queue) (outside : incoming ∉ queuedAt queue entries)
    {inner : Nat} (enough : forall entry, entry ∈ entries -> (queue entry.1).length < inner) :
    Exists fun after => Exists fun passes => Exists fun makers =>
      BoundedLoop.Passes (matchLevel side (stopsAt side) inner incoming) passes state after ∧
        SideSpent incoming side queue entries state after passes makers := by
  induction entries generalizing state with
  | nil =>
      have done : matchLevel side (stopsAt side) inner incoming state = some (.done state) := by
        unfold matchLevel OrderedMap.first
        simp only [listed, List.head?_nil, ite_self]
      exact ⟨state, 0, [], .done done, SideSpent.stay listed shelved⟩
  | cons entry rest inductionHypothesis =>
      rcases entry with ⟨key, level⟩
      by_cases remains : (state.engine.heap incoming).qty > 0
      · cases accepted : stopsAt side key (state.engine.heap incoming).price with
        | true =>
            have price : level.price = key := shelved.priced (key, level) List.mem_cons_self
            have done : matchLevel side (stopsAt side) inner incoming state = some (.done state) := by
              unfold matchLevel OrderedMap.first
              simp only [listed, List.head?_cons, price, accepted, if_true, ite_self]
            exact ⟨state, 0, [], .done done, SideSpent.stay listed shelved⟩
        | false =>
            have split : (state.engine.book.levels side).entries = [] ++ (key, level) :: rest :=
              listed
            have keys := (OrderedMap.keys_ne split).2
            rcases matchLevel_spends listed shelved outside remains accepted
              (enough (key, level) List.mem_cons_self) with
              ⟨next, walked, makers, left, step, memory, recorded, written, spent⟩
            by_cases emptied : left = []
            · rw [if_pos emptied, List.nil_append] at written
              have behind := LevelSpent.behind shelved memory spent outside
              rcases inductionHypothesis next written (shelved.tail behind)
                (fun member => outside (List.mem_append_right _ member))
                (fun entry member => enough entry (List.mem_cons_of_mem _ member)) with
                ⟨after, passes, later, ran, spentBehind⟩
              exact ⟨after, passes + 1, makers ++ later, .yield step ran,
                SideSpent.onward shelved accepted memory recorded spent outside emptied spentBehind⟩
            · rw [if_neg emptied] at written
              have used : (next.engine.heap incoming).qty = 0 := by
                rw [memory]
                exact spent.ended.resolve_left emptied
              exact ⟨next, 1, makers, .yield step (.done (matchLevel_exhausted used)),
                SideSpent.last shelved accepted memory recorded spent outside keys written⟩
      · have used : (state.engine.heap incoming).qty = 0 := eq_zero_of_not_pos remains
        exact ⟨state, 0, [], .done (matchLevel_exhausted used), SideSpent.stay listed shelved⟩

end Side

/-! ## Represented books -/

/-- The queue a layout lists at a price. -/
def layoutQueue (layout : Layout) (side : Side) (price : Price) : List OrderPtr :=
  ((layout side).find? fun level => decide (level.1 = price)).elim [] Prod.snd

theorem Represents.layoutQueue_eq {engine : Engine} {layout : Layout}
    (represents : engine.Represents layout) {side : Side} {level : Price × List OrderPtr}
    (member : level ∈ layout side) : layoutQueue layout side level.1 = level.2 := by
  rcases List.append_of_mem member with ⟨front, back, split⟩
  have ordered := represents.prices_ordered side
  rw [split] at ordered
  have skipped : front.find? (fun other => decide (other.1 = level.1)) = none := by
    rw [List.find?_eq_none]
    intro other inFront
    have before := (List.pairwise_append.mp ordered).2.2 other inFront level List.mem_cons_self
    intro same
    rw [of_decide_eq_true same] at before
    exact irrefl_of side.precedes level.1 before
  simp [layoutQueue, split, List.find?_append, skipped]

/-- A represented book is shelved: what is proved here holds for every reachable
one.  The queue at a price is the one the layout lists there. -/
theorem Represents.allShelved {engine : Engine} {layout : Layout}
    (represents : engine.Represents layout) : engine.AllShelved (layoutQueue layout) := by
  intro side
  have entries := represents.entries side
  refine ⟨?_, ?_, ?_⟩
  · intro entry listed
    rw [entries] at listed
    rcases List.mem_map.mp listed with ⟨level, -, same⟩
    rw [← same]
    rfl
  · intro entry listed
    rw [entries] at listed
    rcases List.mem_map.mp listed with ⟨level, member, same⟩
    rw [← same]
    change IntrusiveList.Holds engine.heap _ (layoutQueue layout side level.1)
    rw [represents.layoutQueue_eq member]
    exact (represents.shape side level member).holds
  · have queues : queuedAt (layoutQueue layout side) (engine.book.levels side).entries =
        layout.nodes side := by
      rw [queuedAt, entries, List.flatMap_map]
      exact List.flatMap_congr fun level member => represents.layoutQueue_eq member
    rw [queues]
    exact represents.nodes_nodup side

/-- The same over runs: no order of a reachable book is lost from its level. -/
theorem reachable_allShelved {past : List Served} {engine : Engine}
    (run : system.Run past engine) : Exists fun queue => engine.AllShelved queue := by
  rcases reachable_represents run with ⟨layout, represents⟩
  exact ⟨layoutQueue layout, represents.allShelved⟩

/-! ## The whole call -/

/-- Resting the remainder changes links only. -/
theorem restRemainder_order (incoming : OrderPtr) (final : Matching) :
    (restRemainder incoming final).2.heap.order = final.engine.heap.order := by
  unfold restRemainder OrderBook.insertOrder
  split
  · exact IntrusiveList.pushBack_order _ _ _
  · rfl

theorem restRemainder_trades (incoming : OrderPtr) (final : Matching) :
    (restRemainder incoming final).1 = final.trades := by
  unfold restRemainder
  split
  · rfl
  · rfl

/-- Nor does it change what the makers have sold. -/
theorem SideSpent.sales {engine : Engine} {incoming : OrderPtr} {side : Side}
    {queue : Price -> List OrderPtr} {entries : List (Price × PriceLevel)} {final : Matching}
    {passes : Nat} {makers : List OrderPtr}
    (spent : SideSpent incoming side queue entries { engine := engine } final passes makers) :
    (restRemainder incoming final).1.map Trade.sold =
      makers.map (soldBy engine.heap (restRemainder incoming final).2.heap) := by
  rcases spent.trades with ⟨new, areNew, sold⟩
  rw [List.nil_append] at areNew
  rw [restRemainder_trades, areNew, sold]
  apply List.map_congr_left
  intro maker member
  exact soldBy_congr rfl rfl
    (congrArg LimitOrder.qty (congrFun (restRemainder_order incoming final) maker)).symm

/-- The opposite levels at prices that the incoming order accepts. -/
def acceptableLevels (engine : Engine) (incoming : OrderPtr) : List (Price × PriceLevel) :=
  acceptable (engine.heap incoming).side.opposite (engine.heap incoming).price
    (engine.book.levels (engine.heap incoming).side.opposite).entries

/-- The orders queued at them. -/
def acceptableOrders (engine : Engine) (queue : Side -> Price -> List OrderPtr)
    (incoming : OrderPtr) : List OrderPtr :=
  queuedAt (queue (engine.heap incoming).side.opposite) (engine.acceptableLevels incoming)

/-- Passes enough for either loop of one call. -/
def callBudget (engine : Engine) (queue : Side -> Price -> List OrderPtr) (side : Side) : Nat :=
  (queuedAt (queue side) (engine.book.levels side).entries).length +
    (engine.book.levels side).entries.length + 1

theorem length_queue_lt_callBudget (engine : Engine) (queue : Side -> Price -> List OrderPtr)
    {side : Side} {entry : Price × PriceLevel}
    (listed : entry ∈ (engine.book.levels side).entries) :
    (queue side entry.1).length < callBudget engine queue side := by
  have length := length_queue_le (queue side) listed
  unfold callBudget
  omega

/-- From any shelved book the matching loops return.  The outer one goes on at
most once for each acceptable level, the trades are with the first of the orders
queued at these levels, one trade each, and every maker but the last ends
without quantity. -/
theorem matching_bounded {engine : Engine} {queue : Side -> Price -> List OrderPtr}
    {incoming : OrderPtr} (shelved : engine.AllShelved queue)
    (outside : forall side,
      incoming ∉ queuedAt (queue side) (engine.book.levels side).entries) :
    Exists fun budget => Exists fun final => Exists fun passes => Exists fun makers =>
      Exists fun trades => Exists fun after =>
        BoundedLoop.Passes (matchLevel (engine.heap incoming).side.opposite
          (stopsAt (engine.heap incoming).side.opposite) budget incoming) passes
          { engine := engine } final ∧
        passes ≤ (engine.acceptableLevels incoming).length ∧
        (forall more, budget ≤ more ->
          engine.processLimitOrder more incoming = some (trades, after)) ∧
        restRemainder incoming final = (trades, after) ∧
        makers <+: engine.acceptableOrders queue incoming ∧ makers.Nodup ∧
        trades.map Trade.sold = makers.map (soldBy engine.heap after.heap) ∧
        trades.length ≤ (engine.acceptableOrders queue incoming).length ∧
        (((engine.acceptableOrders queue incoming).map fun node => (engine.heap node).id).Nodup ->
          (trades.map Trade.makerOrderId).Nodup) ∧
        forall maker, maker ∈ makers.dropLast -> (after.heap maker).qty = 0 := by
  rcases matchLevel_passes { engine := engine } rfl
    (shelved (engine.heap incoming).side.opposite)
    (outside (engine.heap incoming).side.opposite)
    (fun _ listed => length_queue_lt_callBudget engine queue listed) with
    ⟨final, passes, makers, ran, spent⟩
  have traded : makers <+: engine.acceptableOrders queue incoming := spent.traded
  have few : (engine.acceptableLevels incoming).length ≤
      (engine.book.levels (engine.heap incoming).side.opposite).entries.length :=
    List.length_filter_le _ _
  have enough : passes < callBudget engine queue (engine.heap incoming).side.opposite := by
    have bounded : passes ≤ (engine.acceptableLevels incoming).length := spent.bounded
    unfold callBudget
    omega
  have sales := spent.sales
  refine ⟨_, final, passes, makers, (restRemainder incoming final).1,
    (restRemainder incoming final).2, ran, spent.bounded, ?_, rfl, traded, ?_, sales, ?_, ?_, ?_⟩
  · intro more le
    apply processLimitOrder_mono le
    rw [processLimitOrder_eq, matchAgainst, ran.run enough]
    rfl
  · apply List.Nodup.sublist traded.sublist
    exact (shelved _).distinct.sublist (List.filter_sublist.flatMap _)
  · have lengths := congrArg List.length sales
    rw [List.length_map, List.length_map] at lengths
    rw [lengths]
    exact traded.length_le
  · intro distinct
    have ids := congrArg (List.map Prod.fst) sales
    rw [List.map_map, List.map_map] at ids
    have named : (restRemainder incoming final).1.map Trade.makerOrderId =
        makers.map fun node => (engine.heap node).id := ids
    rw [named]
    exact distinct.sublist (traded.sublist.map _)
  · intro maker member
    have same := congrArg LimitOrder.qty (congrFun (restRemainder_order incoming final) maker)
    exact same.trans (spent.filled maker member)

/-- Asks with an empty level at the best price and an order for nothing behind it. -/
def hollowBook : Engine where
  heap
    | 1 => { id := 11, price := 100, qty := 0, side := .Sell, next := some 2 }
    | 2 => { id := 12, price := 100, qty := 5, side := .Sell, prev := some 1 }
    | 3 => { id := 13, price := 101, qty := 5, side := .Sell }
    | _ => { id := 19, price := 101, qty := 7, side := .Buy }
  book := { asks := ⟨[(99, { price := 99 }),
    (100, { price := 100, totalVolume := 5, orders := ⟨some 1, some 2⟩ }),
    (101, { price := 101, totalVolume := 5, orders := ⟨some 3, some 3⟩ })], by decide⟩ }

def hollowQueue : Side -> Price -> List OrderPtr
  | .Sell, price => if price = 100 then [1, 2] else if price = 101 then [3] else []
  | .Buy, _ => []

theorem hollowBook_shelved : hollowBook.AllShelved hollowQueue := by
  intro side
  cases side with
  | Buy =>
      refine ⟨?_, ?_, List.nodup_nil⟩
      · exact fun _ member => absurd member List.not_mem_nil
      · exact fun _ member => absurd member List.not_mem_nil
  | Sell =>
      refine ⟨by decide, ?_, by decide⟩
      intro entry member
      change entry ∈ [_, _, _] at member
      rcases List.mem_cons.mp member with isFirst | member
      · rw [isFirst]
        exact ⟨rfl, rfl, by decide, trivial⟩
      · rcases List.mem_cons.mp member with isSecond | member
        · rw [isSecond]
          exact ⟨rfl, rfl, by decide, ⟨rfl, rfl, rfl, rfl, trivial⟩⟩
        · rw [List.mem_singleton.mp member]
          exact ⟨rfl, rfl, by decide, ⟨rfl, rfl, trivial⟩⟩

/-- Three trades at most, of which the first is for nothing. -/
theorem matching_bounded_hollow :
    Exists fun budget => Exists fun trades => Exists fun after =>
      hollowBook.processLimitOrder budget 9 = some (trades, after) ∧ trades.length ≤ 3 := by
  have outside : forall side,
      9 ∉ queuedAt (hollowQueue side) (hollowBook.book.levels side).entries := by
    intro side
    cases side <;> decide
  rcases matching_bounded hollowBook_shelved outside with
    ⟨budget, final, passes, makers, trades, after, -, -, returns, -, -, -, -, few, -, -⟩
  exact ⟨budget, trades, after, returns budget (Nat.le_refl budget), few⟩

end Engine
end NexusHft
