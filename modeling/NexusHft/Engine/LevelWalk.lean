import NexusHft.Engine.PriorityBook

namespace NexusHft

open Foundations

/-!
# The inner loop walks one level

Before each pass that fills an order, every node already visited has been
filled and unlinked, so the level's list is exactly the part of the queue that
has not been visited.  A pass that leaves quantity on its node also uses up
the incoming order and is the last one.  The induction is therefore on the
queue, with the list pointers of the level following it.
-/

namespace Engine

/-- How walking the queue of one level changes memory and the level, and which
nodes it leaves queued.  Trades, quantities and what is left are those of `sweep`
over the same orders; the walk refines it. -/
structure LevelWalked (order : LimitOrder) (incoming : OrderPtr) (nodes left : List OrderPtr)
    (before after : LevelPass) : Prop where
  price : after.level.price = before.level.price
  ends : after.level.orders = ⟨left.head?, left.getLast?⟩
  volume : after.level.totalVolume = UInt64.ofNat (quantitySum after.heap left)
  chained : Chain after.heap.prevLink after.heap.nextLink none left none
  suffix : left <:+ nodes
  detached : forall node, node ∈ nodes -> node ∉ left -> after.heap.Detached node
  trades : after.trades =
    before.trades ++ (sweep order (before.heap incoming).qty (nodes.map before.heap.resting)).trades
  queued : left.map after.heap.resting =
    (sweep order (before.heap incoming).qty (nodes.map before.heap.resting)).left
  remaining : after.heap incoming = { before.heap incoming with
    qty := (sweep order (before.heap incoming).qty (nodes.map before.heap.resting)).qty }
  terms : forall node, (after.heap node).id = (before.heap node).id ∧
    (after.heap node).price = (before.heap node).price ∧
      (after.heap node).side = (before.heap node).side
  frame : forall node, node ∉ nodes -> node ≠ incoming -> after.heap node = before.heap node

/-- Where the loop stands before a pass: the level's list is the part of the queue
that has not been visited, and all of it is at the level's price. -/
structure Unvisited (order : LimitOrder) (incoming : OrderPtr) (nodes : List OrderPtr)
    (pass : LevelPass) : Prop where
  ends : pass.level.orders = ⟨nodes.head?, nodes.getLast?⟩
  volume : pass.level.totalVolume = UInt64.ofNat (quantitySum pass.heap nodes)
  chained : Chain pass.heap.prevLink pass.heap.nextLink none nodes none
  distinct : nodes.Nodup
  outside : incoming ∉ nodes
  stands : pass.resting = nodes.head?
  taker : order.id = (pass.heap incoming).id
  accepted : order.accepts pass.level.price = true
  priced : forall node, node ∈ nodes -> (pass.heap node).price = pass.level.price

section Walk

variable {order : LimitOrder} {incoming : OrderPtr}

/-- The loop stops at once when the incoming order has no quantity. -/
theorem fillResting_exhausted {pass : LevelPass} (none : (pass.heap incoming).qty = 0) :
    fillResting incoming pass = some (.done pass) := by
  unfold fillResting
  cases pass.resting with
  | none => rfl
  | some resting => exact if_neg (by rw [none]; decide)

/-- Nothing is walked: the queue is as it was. -/
theorem Unvisited.stay {nodes : List OrderPtr} {pass : LevelPass}
    (unvisited : Unvisited order incoming nodes pass)
    (unswept : sweep order (pass.heap incoming).qty (nodes.map pass.heap.resting) =
      ⟨[], nodes.map pass.heap.resting, (pass.heap incoming).qty⟩) :
    LevelWalked order incoming nodes nodes pass pass where
  price := rfl
  ends := unvisited.ends
  volume := unvisited.volume
  chained := unvisited.chained
  suffix := List.suffix_refl nodes
  detached := fun _ member away => absurd member away
  trades := by rw [unswept, List.append_nil]
  queued := by rw [unswept]
  remaining := by rw [unswept]
  terms := fun _ => ⟨rfl, rfl, rfl⟩
  frame := fun _ _ _ => rfl

/-- Memory after the quantities of one pass are written. -/
def afterFill (heap : Heap) (incoming maker : OrderPtr) : Heap :=
  (heap.setQty incoming ((heap incoming).qty - min (heap incoming).qty (heap maker).qty)).setQty
    maker ((heap maker).qty - min (heap incoming).qty (heap maker).qty)

section Fill

variable {heap : Heap} {maker : OrderPtr} (apart : incoming ≠ maker)
include apart

theorem afterFill_maker : afterFill heap incoming maker maker =
    { heap maker with qty := (heap maker).qty - min (heap incoming).qty (heap maker).qty } := by
  simp [afterFill, Ne.symm apart]

theorem afterFill_incoming : afterFill heap incoming maker incoming =
    { heap incoming with qty := (heap incoming).qty - min (heap incoming).qty (heap maker).qty } := by
  simp [afterFill, apart]

omit apart in
theorem afterFill_of_ne {node : OrderPtr} (notIncoming : node ≠ incoming) (notMaker : node ≠ maker) :
    afterFill heap incoming maker node = heap node := by
  simp [afterFill, notIncoming, notMaker]

omit apart in
theorem afterFill_links : (afterFill heap incoming maker).prevLink = heap.prevLink ∧
    (afterFill heap incoming maker).nextLink = heap.nextLink := by
  simp [afterFill]

theorem afterFill_terms (node : OrderPtr) :
    (afterFill heap incoming maker node).id = (heap node).id ∧
      (afterFill heap incoming maker node).price = (heap node).price ∧
        (afterFill heap incoming maker node).side = (heap node).side := by
  by_cases isMaker : node = maker
  · subst isMaker
    rw [afterFill_maker apart]
    exact ⟨rfl, rfl, rfl⟩
  · by_cases isIncoming : node = incoming
    · subst isIncoming
      rw [afterFill_incoming apart]
      exact ⟨rfl, rfl, rfl⟩
    · rw [afterFill_of_ne isIncoming isMaker]
      exact ⟨rfl, rfl, rfl⟩

/-- The pass of the source, with the quantities written once.  The source computes
the match quantity and subtracts it in three places. -/
theorem fillResting_eq {pass : LevelPass} (stands : pass.resting = some maker)
    (remains : (pass.heap incoming).qty > 0) :
    fillResting incoming pass =
      let traded := min (pass.heap incoming).qty (pass.heap maker).qty
      let filled := afterFill pass.heap incoming maker
      let removed := if (pass.heap maker).qty - traded = 0
        then pass.level.orders.remove filled maker else (filled, pass.level.orders)
      some (.yield {
        heap := removed.1
        level := { pass.level with
          totalVolume := pass.level.totalVolume - traded, orders := removed.2 }
        trades := pass.trades ++ [⟨(pass.heap maker).id, (pass.heap incoming).id,
          pass.level.price, traded⟩]
        resting := pass.heap.nextLink maker }) := by
  have makerQty : (afterFill pass.heap incoming maker maker).qty =
      (pass.heap maker).qty - min (pass.heap incoming).qty (pass.heap maker).qty := by
    rw [afterFill_maker apart]
  have unread : (pass.heap.setQty incoming
      ((pass.heap incoming).qty - min (pass.heap incoming).qty (pass.heap maker).qty)) maker =
        pass.heap maker := by
    simp [Ne.symm apart]
  unfold fillResting
  rw [stands]
  simp only [if_pos remains, unread]
  have makerNext : (afterFill pass.heap incoming maker maker).next = pass.heap.nextLink maker :=
    congrFun afterFill_links.2 maker
  unfold afterFill at makerQty makerNext ⊢
  rw [makerQty, makerNext]

end Fill

/-- The trade of one pass. -/
def passTrade (pass : LevelPass) (incoming maker : OrderPtr) : Trade :=
  ⟨(pass.heap maker).id, (pass.heap incoming).id, pass.level.price,
    min (pass.heap incoming).qty (pass.heap maker).qty⟩

/-- What a pass does that fills and unlinks the first node of the queue: one case
of the inner loop, as the induction over the queue uses it. -/
structure Filled (incoming maker : OrderPtr) (rest : List OrderPtr) (pass next : LevelPass) :
    Prop where
  price : next.level.price = pass.level.price
  ends : next.level.orders = ⟨rest.head?, rest.getLast?⟩
  volume : next.level.totalVolume = UInt64.ofNat (quantitySum next.heap rest)
  chained : Chain next.heap.prevLink next.heap.nextLink none rest none
  detached : next.heap.Detached maker
  stands : next.resting = rest.head?
  trades : next.trades = pass.trades ++ [passTrade pass incoming maker]
  orders : next.heap.order = (afterFill pass.heap incoming maker).order
  frame : forall node, node ∉ maker :: rest ->
    next.heap node = afterFill pass.heap incoming maker node

/-- What a pass does that leaves quantity on the first node of the queue: the
other case of the inner loop, which ends it because the incoming order is used up.
-/
structure Unfilled (incoming maker : OrderPtr) (pass next : LevelPass) : Prop where
  heap : next.heap = afterFill pass.heap incoming maker
  level : next.level = { pass.level with
    totalVolume := pass.level.totalVolume - min (pass.heap incoming).qty (pass.heap maker).qty }
  trades : next.trades = pass.trades ++ [passTrade pass incoming maker]
  exhausted : (next.heap incoming).qty = 0

section Pass

variable {maker : OrderPtr} {rest : List OrderPtr} {pass next : LevelPass}
  (unvisited : Unvisited order incoming (maker :: rest) pass)
  (remains : (pass.heap incoming).qty > 0)
include unvisited

theorem Unvisited.apart : incoming ≠ maker :=
  fun same => unvisited.outside (same ▸ List.mem_cons_self)

theorem Unvisited.maker_accepted : order.accepts (pass.heap maker).price = true := by
  rw [unvisited.priced maker List.mem_cons_self]
  exact unvisited.accepted

/-- A pass touches no later node of the queue. -/
theorem Unvisited.afterFill_rest {node : OrderPtr} (member : node ∈ rest) :
    afterFill pass.heap incoming maker node = pass.heap node := by
  refine afterFill_of_ne ?_ ?_
  · exact fun same => unvisited.outside (same ▸ List.mem_cons_of_mem maker member)
  · exact fun same => (List.nodup_cons.mp unvisited.distinct).1 (same ▸ member)

/-- What stands behind the first node is unvisited once that one is filled. -/
theorem Unvisited.behind (filled : Filled incoming maker rest pass next) :
    Unvisited order incoming rest next where
  ends := filled.ends
  volume := filled.volume
  chained := filled.chained
  distinct := (List.nodup_cons.mp unvisited.distinct).2
  outside := fun member => unvisited.outside (List.mem_cons_of_mem maker member)
  stands := filled.stands
  taker := by
    rw [filled.frame incoming unvisited.outside, afterFill_incoming unvisited.apart]
    exact unvisited.taker
  accepted := by
    rw [filled.price]
    exact unvisited.accepted
  priced := by
    intro node member
    have same := congrArg LimitOrder.price (congrFun filled.orders node)
    have kept := (@afterFill_terms incoming pass.heap maker unvisited.apart node).2.1
    rw [filled.price, ← unvisited.priced node (List.mem_cons_of_mem maker member)]
    exact same.trans kept

include remains

/-- The pass that fills and unlinks the first node of the queue. -/
theorem fillResting_filled
    (whole : (pass.heap maker).qty - min (pass.heap incoming).qty (pass.heap maker).qty = 0) :
    Exists fun next => fillResting incoming pass = some (.yield next) ∧
      Filled incoming maker rest pass next := by
  have holds : IntrusiveList.Holds (afterFill pass.heap incoming maker) pass.level.orders
      ([] ++ maker :: rest) := by
    rw [unvisited.ends]
    refine ⟨rfl, rfl, unvisited.distinct, ?_⟩
    rw [afterFill_links.1, afterFill_links.2]
    exact unvisited.chained
  have step := fillResting_eq unvisited.apart unvisited.stands remains
  simp only [if_pos whole] at step
  refine ⟨_, step, rfl, ?_, ?_, holds.remove.links, IntrusiveList.remove_detached _ _ _, ?_, rfl,
    IntrusiveList.remove_order _ _ _, ?_⟩
  · exact congrArg₂ IntrusiveList.mk holds.remove.head holds.remove.tail
  · have orders := IntrusiveList.remove_order pass.level.orders (afterFill pass.heap incoming maker) maker
    have kept : quantitySum (pass.level.orders.remove (afterFill pass.heap incoming maker) maker).1 rest =
        quantitySum pass.heap rest := by
      refine quantitySum_congr (fun node member => ?_)
      have same := congrArg LimitOrder.qty (congrFun orders node)
      exact same.trans (congrArg (fun cell => cell.qty) (unvisited.afterFill_rest member))
    have traded : (min (pass.heap incoming).qty (pass.heap maker).qty).toNat =
        (pass.heap maker).qty.toNat := by
      rw [eq_zero_iff_toNat, toNat_sub_min_right] at whole
      rw [toNat_min]
      omega
    simp only [kept, unvisited.volume, quantitySum_cons]
    rw [ofNat_sub_word _ _ (by omega), traded, Nat.add_sub_cancel_left]
  · exact unvisited.chained.2.1.trans Option.or_none
  · intro node away
    exact holds.remove_frame away

/-- The pass that leaves quantity on the first node of the queue, and none on
the incoming order. -/
theorem fillResting_unfilled
    (part : (pass.heap maker).qty - min (pass.heap incoming).qty (pass.heap maker).qty ≠ 0) :
    Exists fun next => fillResting incoming pass = some (.yield next) ∧
      Unfilled incoming maker pass next := by
  have step := fillResting_eq unvisited.apart unvisited.stands remains
  simp only [if_neg part] at step
  refine ⟨_, step, rfl, rfl, rfl, ?_⟩
  rw [ne_eq, eq_zero_iff_toNat, toNat_sub_min_right] at part
  simp only [afterFill_incoming unvisited.apart]
  rw [eq_zero_iff_toNat, toNat_sub_min_left]
  omega

/-- Sweeping the queue starts with the trade of the pass. -/
theorem Unvisited.sweep_filled
    (whole : (pass.heap maker).qty - min (pass.heap incoming).qty (pass.heap maker).qty = 0)
    (filled : Filled incoming maker rest pass next) :
    sweep order (pass.heap incoming).qty ((maker :: rest).map pass.heap.resting) =
      ⟨passTrade pass incoming maker ::
          (sweep order (next.heap incoming).qty (rest.map next.heap.resting)).trades,
        (sweep order (next.heap incoming).qty (rest.map next.heap.resting)).left,
        (sweep order (next.heap incoming).qty (rest.map next.heap.resting)).qty⟩ := by
  have sameQueue : rest.map next.heap.resting = rest.map pass.heap.resting := by
    refine List.map_congr_left (fun node member => ?_)
    unfold Heap.resting
    rw [filled.orders]
    exact congrArg (fun cell : OrderNode => RestingOrder.mk cell.toLimitOrder node)
      (unvisited.afterFill_rest member)
  rw [List.map_cons, sweep_fill order (pass.heap.resting maker) remains unvisited.maker_accepted whole,
    sameQueue, filled.frame incoming unvisited.outside, afterFill_incoming unvisited.apart,
    passTrade, ← unvisited.priced maker List.mem_cons_self, ← unvisited.taker]
  rfl

/-- Walking on from a filled first node: what the rest of the walk does, and this
pass before it, is what the whole walk does. -/
theorem Unvisited.fill {left : List OrderPtr} {after : LevelPass}
    (whole : (pass.heap maker).qty - min (pass.heap incoming).qty (pass.heap maker).qty = 0)
    (filled : Filled incoming maker rest pass next)
    (walked : LevelWalked order incoming rest left next after) :
    LevelWalked order incoming (maker :: rest) left pass after := by
  have apart := unvisited.apart
  have swept := unvisited.sweep_filled remains whole filled
  have incomingNext := (filled.frame incoming unvisited.outside).trans (afterFill_incoming apart)
  refine ⟨walked.price.trans filled.price, walked.ends, walked.volume, walked.chained,
    walked.suffix.trans (List.suffix_cons maker rest), ?_, ?_, ?_, ?_, ?_, ?_⟩
  · intro node member notLeft
    rcases List.mem_cons.mp member with isMaker | later
    · subst isMaker
      have same := walked.frame node (List.nodup_cons.mp unvisited.distinct).1 (Ne.symm apart)
      exact filled.detached.congr (congrArg OrderNode.prev same) (congrArg OrderNode.next same)
    · exact walked.detached node later notLeft
  · rw [walked.trades, filled.trades, swept, List.append_assoc]
    rfl
  · rw [walked.queued, swept]
  · rw [walked.remaining, swept, incomingNext]
  · intro node
    have same := congrFun filled.orders node
    have kept := @afterFill_terms incoming pass.heap maker apart node
    have later := walked.terms node
    exact ⟨later.1.trans ((congrArg LimitOrder.id same).trans kept.1),
      later.2.1.trans ((congrArg LimitOrder.price same).trans kept.2.1),
      later.2.2.trans ((congrArg LimitOrder.side same).trans kept.2.2)⟩
  · intro node away notIncoming
    rw [walked.frame node (fun member => away (List.mem_cons_of_mem maker member)) notIncoming,
      filled.frame node away,
      afterFill_of_ne notIncoming (fun same => away (same ▸ List.mem_cons_self))]

/-- Sweeping the queue ends with the trade of the pass. -/
theorem Unvisited.sweep_unfilled
    (part : (pass.heap maker).qty - min (pass.heap incoming).qty (pass.heap maker).qty ≠ 0)
    (unfilled : Unfilled incoming maker pass next) :
    sweep order (pass.heap incoming).qty ((maker :: rest).map pass.heap.resting) =
      ⟨[passTrade pass incoming maker], (maker :: rest).map next.heap.resting, 0⟩ := by
  have sameRest : rest.map next.heap.resting = rest.map pass.heap.resting := by
    refine List.map_congr_left (fun node member => ?_)
    rw [unfilled.heap]
    exact congrArg (fun cell : OrderNode => RestingOrder.mk cell.toLimitOrder node)
      (unvisited.afterFill_rest member)
  have makerResting : next.heap.resting maker = { pass.heap.resting maker with
      qty := (pass.heap maker).qty - min (pass.heap incoming).qty (pass.heap maker).qty } := by
    rw [unfilled.heap]
    exact congrArg (fun cell : OrderNode => RestingOrder.mk cell.toLimitOrder maker)
      (afterFill_maker unvisited.apart)
  rw [List.map_cons,
    NexusHft.sweep_unfilled order (pass.heap.resting maker) remains unvisited.maker_accepted part,
    List.map_cons, sameRest, makerResting, passTrade,
    ← unvisited.priced maker List.mem_cons_self, ← unvisited.taker]
  rfl

/-- The pass that uses up the incoming order ends the walk at its own node. -/
theorem Unvisited.finish
    (part : (pass.heap maker).qty - min (pass.heap incoming).qty (pass.heap maker).qty ≠ 0)
    (unfilled : Unfilled incoming maker pass next) :
    LevelWalked order incoming (maker :: rest) (maker :: rest) pass next := by
  have apart := unvisited.apart
  have swept := unvisited.sweep_unfilled remains part unfilled
  refine ⟨by rw [unfilled.level], by rw [unfilled.level]; exact unvisited.ends, ?_, ?_,
    List.suffix_refl _, fun _ member away => absurd member away, by rw [unfilled.trades, swept],
    by rw [swept], ?_, ?_, ?_⟩
  · have sums : quantitySum next.heap rest = quantitySum pass.heap rest := by
      refine quantitySum_congr (fun node member => ?_)
      rw [unfilled.heap, unvisited.afterFill_rest member]
    have least : (min (pass.heap incoming).qty (pass.heap maker).qty).toNat ≤
        (pass.heap maker).qty.toNat := by
      rw [toNat_min]
      omega
    rw [unfilled.level]
    simp only [unvisited.volume, quantitySum_cons, sums]
    rw [unfilled.heap, afterFill_maker apart, ofNat_sub_word _ _ (by omega),
      toNat_sub_of_toNat_le least]
    congr 1
    omega
  · rw [unfilled.heap, afterFill_links.1, afterFill_links.2]
    exact unvisited.chained
  · have exhausted := unfilled.exhausted
    rw [swept]
    rw [unfilled.heap, afterFill_incoming apart] at exhausted ⊢
    exact congrArg (fun qty => { pass.heap incoming with qty := qty }) exhausted
  · intro node
    rw [unfilled.heap]
    exact afterFill_terms apart node
  · intro node away notIncoming
    rw [unfilled.heap, afterFill_of_ne notIncoming (fun same => away (same ▸ List.mem_cons_self))]

end Pass

/-- The inner loop, from the head of a level's queue, returns and does what
`sweep` does to the orders of this queue.  The induction is on the queue. -/
theorem fillResting_run {nodes : List OrderPtr} (pass : LevelPass)
    (unvisited : Unvisited order incoming nodes pass)
    {budget : Nat} (enough : nodes.length + 1 < budget) :
    Exists fun walked => Exists fun left =>
      BoundedLoop.run (fillResting incoming) budget pass = some walked ∧
        LevelWalked order incoming nodes left pass walked := by
  obtain ⟨budget, rfl⟩ : Exists fun fewer => budget = fewer + 1 := ⟨budget - 1, by omega⟩
  induction nodes generalizing pass budget with
  | nil =>
      have done : fillResting incoming pass = some (.done pass) := by
        unfold fillResting
        rw [unvisited.stands]
        rfl
      exact ⟨pass, [], BoundedLoop.run_done done budget, unvisited.stay (sweep_nil _ _)⟩
  | cons maker rest inductionHypothesis =>
      by_cases remains : (pass.heap incoming).qty > 0
      · obtain ⟨fewer, rfl⟩ : Exists fun fewer => budget = fewer + 1 :=
          ⟨budget - 1, by simp at enough; omega⟩
        by_cases whole : (pass.heap maker).qty -
            min (pass.heap incoming).qty (pass.heap maker).qty = 0
        · rcases fillResting_filled unvisited remains whole with ⟨next, step, filled⟩
          rcases inductionHypothesis next (unvisited.behind filled) fewer
            (by simp at enough ⊢; omega) with ⟨walked, left, ran, shape⟩
          exact ⟨walked, left, (BoundedLoop.run_yield step _).trans ran,
            unvisited.fill remains whole filled shape⟩
        · rcases fillResting_unfilled unvisited remains whole with ⟨next, step, unfilled⟩
          refine ⟨next, maker :: rest, ?_, unvisited.finish remains whole unfilled⟩
          rw [BoundedLoop.run_yield step]
          exact BoundedLoop.run_done (fillResting_exhausted unfilled.exhausted) fewer
      · have none : (pass.heap incoming).qty = 0 := eq_zero_of_not_pos remains
        exact ⟨pass, maker :: rest, BoundedLoop.run_done (fillResting_exhausted none) budget,
          unvisited.stay (by rw [none, sweep_zero])⟩

end Walk
end Engine
end NexusHft
