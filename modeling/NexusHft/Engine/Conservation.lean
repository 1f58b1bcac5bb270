import NexusHft.Engine.Ledger

namespace NexusHft

open Foundations

/-!
# Conservation of quantity

`Kept` relates a history to the book it leads to: every submitted order has
been spent or rests, the resting orders are not over, and no trade came too
late.  One lemma for each kind of request says that its events keep this
relation; the result about runs is the induction over them.
-/

/-- What the resting orders of a book hold for an id. -/
def restingQty (book : PriorityBook) (id : OrderId) : Nat :=
  total (RestingOrder.heldQty id) (book .Buy) + total (RestingOrder.heldQty id) (book .Sell)

/-- The ids of a book, one side after the other. -/
def bookIds (book : PriorityBook) (side : Side) : List OrderId :=
  (book side ++ book side.opposite).map (fun order => order.id)

/-- The invariant of a history: every order's quantity is what was taken from it
and what still rests, an order rests only while it is neither filled nor
cancelled, and whatever the history names was submitted before it was named. -/
structure Kept (history : List Event) (book : PriorityBook) : Prop where
  conserved : forall order, .submit order ∈ history ->
    order.qty.toNat = spent history order.id + restingQty book order.id
  known : forall side resting, resting ∈ book side -> Exists fun order =>
    .submit order ∈ history ∧ order.id = resting.id ∧ order.side = side ∧ ¬ Over order history
  distinct : (bookIds book .Buy).Nodup
  named : forall event, event ∈ history -> forall id, event.Concerns id ->
    Exists fun order => .submit order ∈ history ∧ order.id = id
  timely : Timely history
  twoSided : forall trade, .trade trade ∈ history -> Exists fun maker => Exists fun taker =>
    .submit maker ∈ history ∧ .submit taker ∈ history ∧ trade.makerOrderId = maker.id ∧
      trade.takerOrderId = taker.id ∧ maker.side = taker.side.opposite

/-! ## What a book holds -/

section Held

variable {book : PriorityBook}

theorem restingQty_sides (book : PriorityBook) (side : Side) (id : OrderId) :
    restingQty book id = total (RestingOrder.heldQty id) (book side) +
      total (RestingOrder.heldQty id) (book side.opposite) := by
  cases side with
  | Buy => rfl
  | Sell => exact Nat.add_comm _ _

theorem bookIds_nodup {side : Side} (distinct : (bookIds book side).Nodup) (other : Side) :
    (bookIds book other).Nodup := by
  by_cases same : other = side
  · rw [same]
    exact distinct
  · rw [Side.eq_opposite_of_ne (Ne.symm same), bookIds, Side.opposite_opposite] at distinct
    exact (List.perm_append_comm.map _).nodup_iff.mp distinct

theorem held_of_absent {orders : List RestingOrder} {id : OrderId}
    (absent : forall order, order ∈ orders -> order.id ≠ id) :
    total (RestingOrder.heldQty id) orders = 0 :=
  total_eq_zero _ (fun order member => if_neg (absent order member))

theorem held_of_mem {orders : List RestingOrder}
    (distinct : (orders.map (fun order => order.id)).Nodup) {order : RestingOrder}
    (member : order ∈ orders) : total (RestingOrder.heldQty order.id) orders = order.qty.toNat := by
  induction orders with
  | nil => exact absurd member List.not_mem_nil
  | cons first rest inductionHypothesis =>
      have parts := List.nodup_cons.mp distinct
      rw [total_cons]
      rcases List.mem_cons.mp member with same | later
      · subst same
        rw [held_of_absent (fun other listed same => parts.1 (List.mem_map.mpr ⟨other, listed, same⟩)),
          RestingOrder.heldQty, if_pos rfl]
        rfl
      · have different : first.id ≠ order.id := fun same =>
          parts.1 (List.mem_map.mpr ⟨order, later, same.symm⟩)
        rw [inductionHypothesis parts.2 later, RestingOrder.heldQty, if_neg different, Nat.zero_add]

theorem restingQty_of_mem (distinct : (bookIds book .Buy).Nodup) {side : Side}
    {order : RestingOrder} (member : order ∈ book side) :
    restingQty book order.id = order.qty.toNat := by
  rw [restingQty_sides book side, ← total_append]
  exact held_of_mem (bookIds_nodup distinct side) (List.mem_append_left _ member)

theorem restingQty_of_absent {id : OrderId}
    (absent : forall side order, order ∈ book side -> order.id ≠ id) : restingQty book id = 0 := by
  rw [restingQty, held_of_absent (absent .Buy), held_of_absent (absent .Sell)]

/-- Orders of a book with distinct ids are the same when their ids are. -/
theorem same_of_ids (distinct : (bookIds book .Buy).Nodup) {side side' : Side}
    {order order' : RestingOrder} (member : order ∈ book side) (member' : order' ∈ book side')
    (same : order.id = order'.id) : order = order' := by
  have whole : forall otherSide found, found ∈ book otherSide ->
      found ∈ book .Buy ++ book (Side.opposite .Buy) := by
    intro otherSide found listed
    cases otherSide with
    | Buy => exact List.mem_append_left _ listed
    | Sell => exact List.mem_append_right _ listed
  exact List.inj_on_of_nodup_map distinct (whole side order member) (whole side' order' member') same

end Held

namespace Kept

variable {history : List Event} {book : PriorityBook}

/-- A resting order is open in the ledger. -/
theorem isOpen (kept : Kept history book) (distinct : DistinctIds history) {side : Side}
    {resting : RestingOrder} (member : resting ∈ book side) :
    Open history resting.id resting.qty.toNat := by
  intro order submitted same
  rcases kept.known side resting member with ⟨order', submitted', same', -, notOver⟩
  rw [distinct.unique submitted submitted' (same.trans same'.symm)]
  refine ⟨notOver, ?_⟩
  rw [kept.conserved order' submitted', same', restingQty_of_mem kept.distinct member]

/-- No event is about an id that no order was submitted with. -/
theorem unconcerned (kept : Kept history book) {id : OrderId}
    (fresh : forall order, .submit order ∈ history -> order.id ≠ id) :
    forall event, event ∈ history -> ¬ event.Concerns id := by
  intro event member concerns
  rcases kept.named event member id concerns with ⟨order, submitted, same⟩
  exact fresh order submitted same

/-- A submission by itself: nothing rests yet, so the order is only on its way,
and all of its quantity is still its own. -/
theorem submitted (kept : Kept history book) {incoming : LimitOrder}
    (fresh : forall order, .submit order ∈ history -> order.id ≠ incoming.id) :
    Timely (history ++ [.submit incoming]) ∧
      Open (history ++ [.submit incoming]) incoming.id incoming.qty.toNat := by
  have away := kept.unconcerned fresh
  constructor
  · apply timely_snoc kept.timely
    intro trade order same
    exact absurd same (by simp)
  · intro order submitted same
    have isIncoming : order = incoming := by
      rcases List.mem_append.mp submitted with earlier | last
      · exact absurd same (fresh order earlier)
      · exact Event.submit.inj (List.mem_singleton.mp last)
    subst isIncoming
    constructor
    · intro ended
      rcases over_snoc ended with earlier | ⟨_, isCancel⟩ | ⟨_, isTrade, -⟩
      · exact not_over_of_unconcerned away earlier
      · exact absurd isCancel (by simp)
      · exact absurd isTrade (by simp)
    · rw [spent_append, spent_of_unconcerned away]
      exact (Nat.zero_add _).symm

/-! ## One request -/

theorem held_place (side : Side) (order : RestingOrder) (resting : List RestingOrder)
    (id : OrderId) : total (RestingOrder.heldQty id) (place side order resting) =
      order.heldQty id + total (RestingOrder.heldQty id) resting :=
  ((place_perm side order resting).map _).sum_nat

/-- What an id holds once an order has been processed. -/
theorem restingQty_process (incoming : RestingOrder) {swept : Swept}
    (sweptEq : sweep incoming.toLimitOrder incoming.qty (book incoming.side.opposite) = swept)
    (id : OrderId) : restingQty (book.process incoming).2 id =
      (if incoming.id = id then swept.qty.toNat else 0) +
        total (RestingOrder.heldQty id) (book incoming.side) +
          total (RestingOrder.heldQty id) swept.left := by
  rw [restingQty_sides _ incoming.side, PriorityBook.process_own sweptEq,
    PriorityBook.process_opposite sweptEq]
  by_cases remains : swept.qty > 0
  · rw [if_pos remains, held_place]
    rfl
  · have none : swept.qty.toNat = 0 := (eq_zero_iff_toNat _).mp (eq_zero_of_not_pos remains)
    rw [if_neg remains, none, ite_self, Nat.zero_add]

section Process

variable (incoming : RestingOrder) {swept : Swept}
  (sweptEq : sweep incoming.toLimitOrder incoming.qty (book incoming.side.opposite) = swept)
  (absent : forall side order, order ∈ book side -> order.id ≠ incoming.id)
include sweptEq

theorem left_ids : (swept.left.map (fun order => order.id)).Sublist
    ((book incoming.side.opposite).map (fun order => order.id)) := by
  rw [← sweptEq]
  exact sweep_left_sublist incoming.toLimitOrder (fun order => order.id) (fun _ _ => rfl) _ _

theorem swept_named {trade : Trade} (member : trade ∈ swept.trades) :
    trade.takerOrderId = incoming.id ∧ Exists fun maker =>
      maker ∈ book incoming.side.opposite ∧ trade.makerOrderId = maker.id := by
  rw [← sweptEq] at member
  exact sweep_trades incoming.toLimitOrder member

/-- An order rests after the processing because it did before, or because it is
the incoming one. -/
theorem mem_process {side : Side} {resting : RestingOrder}
    (member : resting ∈ (book.process incoming).2 side) :
    (side = incoming.side.opposite ∧ resting ∈ swept.left) ∨
      (side = incoming.side ∧ resting ∈ book side) ∨
        (side = incoming.side ∧ swept.qty > 0 ∧ resting = { incoming with qty := swept.qty }) := by
  by_cases own : side = incoming.side
  · subst own
    rw [PriorityBook.process_own sweptEq] at member
    by_cases remains : swept.qty > 0
    · rw [if_pos remains] at member
      rcases mem_place.mp member with placed | earlier
      · exact Or.inr (Or.inr ⟨rfl, remains, placed⟩)
      · exact Or.inr (Or.inl ⟨rfl, earlier⟩)
    · rw [if_neg remains] at member
      exact Or.inr (Or.inl ⟨rfl, member⟩)
  · have facing : side = incoming.side.opposite := Side.eq_opposite_of_ne own
    subst facing
    rw [PriorityBook.process_opposite sweptEq] at member
    exact Or.inl ⟨rfl, member⟩

include absent

theorem process_distinct (distinct : (bookIds book .Buy).Nodup) :
    (bookIds (book.process incoming).2 .Buy).Nodup := by
  suffices here : (bookIds (book.process incoming).2 incoming.side).Nodup from
    bookIds_nodup here .Buy
  rw [bookIds, PriorityBook.process_own sweptEq, PriorityBook.process_opposite sweptEq,
    List.map_append]
  have kept : ((book incoming.side).map (fun order => order.id) ++
      swept.left.map (fun order => order.id)).Nodup := by
    have before := bookIds_nodup distinct incoming.side
    rw [bookIds, List.map_append] at before
    exact before.sublist ((List.Sublist.refl _).append (left_ids incoming sweptEq))
  by_cases remains : swept.qty > 0
  · rw [if_pos remains]
    have moved := ((place_perm incoming.side { incoming with qty := swept.qty }
      (book incoming.side)).map (fun order => order.id)).append_right
        (swept.left.map (fun order => order.id))
    refine moved.nodup_iff.mpr (List.nodup_cons.mpr ⟨fun member => ?_, kept⟩)
    rcases List.mem_append.mp member with own | left
    · rcases List.mem_map.mp own with ⟨order, listed, same⟩
      exact absent _ order listed same
    · rcases List.mem_map.mp ((left_ids incoming sweptEq).subset left) with ⟨order, listed, same⟩
      exact absent _ order listed same
  · rw [if_neg remains]
    exact kept

end Process

/-! ### The history of a processed order -/

/-- A history once an order has been processed. -/
def processed (history : List Event) (incoming : LimitOrder) (swept : Swept) : List Event :=
  history ++ [.submit incoming] ++ swept.trades.map .trade

section Processed

variable {incoming order : LimitOrder} {swept : Swept}

theorem mem_processed {event : Event} (member : event ∈ processed history incoming swept) :
    event ∈ history ∨ event = .submit incoming ∨
      Exists fun trade => trade ∈ swept.trades ∧ event = .trade trade := by
  rcases List.mem_append.mp member with before | traded
  · rcases List.mem_append.mp before with earlier | last
    · exact Or.inl earlier
    · exact Or.inr (Or.inl (List.mem_singleton.mp last))
  · rcases List.mem_map.mp traded with ⟨trade, listed, same⟩
    exact Or.inr (Or.inr ⟨trade, listed, same.symm⟩)

theorem submit_mem_processed {event : Event} (earlier : event ∈ history) :
    event ∈ processed history incoming swept :=
  List.mem_append_left _ (List.mem_append_left _ earlier)

theorem incoming_mem_processed : .submit incoming ∈ processed history incoming swept :=
  List.mem_append_left _ (List.mem_append_right _ List.mem_cons_self)

theorem submitted_processed (submitted : .submit order ∈ processed history incoming swept) :
    .submit order ∈ history ∨ order = incoming := by
  rcases mem_processed submitted with earlier | last | ⟨trade, -, same⟩
  · exact Or.inl earlier
  · exact Or.inr (Event.submit.inj last)
  · exact absurd same (by simp)

theorem spent_processed (id : OrderId) : spent (processed history incoming swept) id =
    spent history id + spent (swept.trades.map .trade) id := by
  rw [processed, spent_append, spent_append]
  exact congrArg (· + _) (Nat.add_zero _)

end Processed

theorem book_absent (kept : Kept history book) {incoming : LimitOrder}
    (distinct : DistinctIds (history ++ [.submit incoming])) {side : Side} {order : RestingOrder}
    (member : order ∈ book side) : order.id ≠ incoming.id := by
  rcases kept.known side order member with ⟨found, submitted, same, -⟩
  rw [← same]
  exact distinct.fresh submitted

/-- The two sides of a book share no id. -/
theorem sides_apart (distinct : (bookIds book .Buy).Nodup) (side : Side) {own other : RestingOrder}
    (onSide : own ∈ book side) (facing : other ∈ book side.opposite) : own.id ≠ other.id := by
  have ids := bookIds_nodup distinct side
  rw [bookIds, List.map_append] at ids
  exact (List.nodup_append.mp ids).2.2 _ (List.mem_map_of_mem onSide) _ (List.mem_map_of_mem facing)

section Process

variable (kept : Kept history book) (incoming : RestingOrder)
  (distinct : DistinctIds (history ++ [.submit incoming.toLimitOrder])) {swept : Swept}
  (sweptEq : sweep incoming.toLimitOrder incoming.qty (book incoming.side.opposite) = swept)
include kept distinct sweptEq

theorem process_timely : Timely (processed history incoming.toLimitOrder swept) ∧
    (forall order, order ∈ swept.left ->
      Open (processed history incoming.toLimitOrder swept) order.id order.qty.toNat) ∧
    (swept.qty > 0 ->
      Open (processed history incoming.toLimitOrder swept) incoming.id swept.qty.toNat) := by
  have onItsWay := kept.submitted (fun _ submitted => distinct.fresh submitted)
  have ids := bookIds_nodup kept.distinct incoming.side
  rw [bookIds, List.map_append] at ids
  have timely := sweep_timely incoming.toLimitOrder onItsWay.1
    (fun maker member => (kept.isOpen distinct.before member).append (by
      intro event listed
      rw [List.mem_singleton.mp listed]
      exact (kept.book_absent distinct member).symm))
    (fun _ => onItsWay.2) (fun maker member => kept.book_absent distinct member)
    (List.nodup_append.mp ids).2.1
  rw [sweptEq] at timely
  exact timely

/-- What trades take from an order, the book no longer holds for it.  This is said
of each id by itself, for the makers and for the taker. -/
theorem process_conserved {order : LimitOrder}
    (submitted : .submit order ∈ processed history incoming.toLimitOrder swept) :
    order.qty.toNat = spent (processed history incoming.toLimitOrder swept) order.id +
      restingQty (book.process incoming).2 order.id := by
  rw [spent_processed, restingQty_process incoming sweptEq]
  rcases submitted_processed submitted with earlier | isIncoming
  · have different := distinct.fresh earlier
    have balance := kept.conserved order earlier
    have conserved := sweep_conserves incoming.toLimitOrder different.symm incoming.qty
      (book incoming.side.opposite)
    rw [sweptEq] at conserved
    rw [restingQty_sides book incoming.side] at balance
    rw [if_neg different.symm]
    omega
  · have spends := sweep_spends incoming.toLimitOrder incoming.qty (book incoming.side.opposite)
    rw [sweptEq] at spends
    have noOwn : total (RestingOrder.heldQty incoming.id) (book incoming.side) = 0 :=
      held_of_absent (fun _ member => kept.book_absent distinct member)
    have noLeft : total (RestingOrder.heldQty incoming.id) swept.left = 0 := by
      apply held_of_absent
      intro order member same
      rcases List.mem_map.mp ((left_ids incoming sweptEq).subset (List.mem_map_of_mem member)) with
        ⟨maker, listed, sameId⟩
      exact kept.book_absent distinct listed (sameId.trans same)
    have noSpent : spent history incoming.id = 0 :=
      spent_of_unconcerned (kept.unconcerned fun _ submitted => distinct.fresh submitted)
    rw [isIncoming, if_pos rfl]
    omega

/-- An order that is not swept is in none of the new events. -/
theorem process_unconcerned {resting : RestingOrder} (own : resting ∈ book incoming.side) :
    forall event : Event, event ∈ [Event.submit incoming.toLimitOrder] ++
      swept.trades.map Event.trade -> ¬ event.Concerns resting.id := by
  have absent := kept.book_absent distinct own
  intro event listed
  rcases List.mem_append.mp listed with last | traded
  · rw [List.mem_singleton.mp last]
    exact absent.symm
  · rcases List.mem_map.mp traded with ⟨trade, inTrades, sameEvent⟩
    rw [← sameEvent]
    rcases swept_named incoming sweptEq inTrades with ⟨isTaker, maker, inMakers, isMaker⟩
    rintro (ofMaker | ofTaker)
    · exact sides_apart kept.distinct incoming.side own inMakers (ofMaker.symm.trans isMaker)
    · exact absent (ofTaker.symm.trans isTaker)

theorem process_known {side : Side} {resting : RestingOrder}
    (member : resting ∈ (book.process incoming).2 side) : Exists fun order =>
      .submit order ∈ processed history incoming.toLimitOrder swept ∧ order.id = resting.id ∧
        order.side = side ∧ ¬ Over order (processed history incoming.toLimitOrder swept) := by
  have timely := kept.process_timely incoming distinct sweptEq
  rcases mem_process incoming sweptEq member with
    ⟨facing, left⟩ | ⟨own, earlier⟩ | ⟨own, remains, placed⟩
  · rcases List.mem_map.mp ((left_ids incoming sweptEq).subset (List.mem_map_of_mem left)) with
      ⟨maker, listed, sameId⟩
    rcases kept.known _ maker listed with ⟨order, submitted, same, onSide, -⟩
    have stillOpen := timely.2.1 resting left order (submit_mem_processed submitted)
      (same.trans sameId)
    exact ⟨order, submit_mem_processed submitted, same.trans sameId, onSide.trans facing.symm,
      stillOpen.1⟩
  · rcases kept.known side resting earlier with ⟨order, submitted, same, onSide, -⟩
    have stays := (kept.isOpen distinct.before earlier).append
      (kept.process_unconcerned incoming distinct sweptEq (own ▸ earlier))
    rw [← List.append_assoc] at stays
    exact ⟨order, submit_mem_processed submitted, same, onSide,
      (stays order (submit_mem_processed submitted) same).1⟩
  · exact ⟨incoming.toLimitOrder, incoming_mem_processed, by rw [placed], own.symm,
      (timely.2.2 remains incoming.toLimitOrder incoming_mem_processed rfl).1⟩

omit distinct

theorem process_named {event : Event}
    (member : event ∈ processed history incoming.toLimitOrder swept) {id : OrderId}
    (concerns : event.Concerns id) : Exists fun order =>
      .submit order ∈ processed history incoming.toLimitOrder swept ∧ order.id = id := by
  rcases mem_processed member with earlier | last | ⟨trade, listed, same⟩
  · rcases kept.named event earlier id concerns with ⟨order, submitted, same⟩
    exact ⟨order, submit_mem_processed submitted, same⟩
  · rw [last] at concerns
    exact ⟨incoming.toLimitOrder, incoming_mem_processed, concerns⟩
  · rw [same] at concerns
    rcases swept_named incoming sweptEq listed with ⟨isTaker, maker, resting, isMaker⟩
    rcases concerns with ofMaker | ofTaker
    · rcases kept.known _ maker resting with ⟨order, submitted, sameId, -⟩
      exact ⟨order, submit_mem_processed submitted, sameId.trans (isMaker.symm.trans ofMaker)⟩
    · exact ⟨incoming.toLimitOrder, incoming_mem_processed, isTaker.symm.trans ofTaker⟩

theorem process_twoSided {trade : Trade}
    (member : .trade trade ∈ processed history incoming.toLimitOrder swept) :
    Exists fun maker => Exists fun taker =>
      .submit maker ∈ processed history incoming.toLimitOrder swept ∧
        .submit taker ∈ processed history incoming.toLimitOrder swept ∧
          trade.makerOrderId = maker.id ∧ trade.takerOrderId = taker.id ∧
            maker.side = taker.side.opposite := by
  rcases mem_processed member with earlier | last | ⟨found, listed, same⟩
  · rcases kept.twoSided trade earlier with ⟨maker, taker, makerIn, takerIn, rest⟩
    exact ⟨maker, taker, submit_mem_processed makerIn, submit_mem_processed takerIn, rest⟩
  · exact absurd last (by simp)
  · rw [← Event.trade.inj same] at listed
    rcases swept_named incoming sweptEq listed with ⟨isTaker, maker, resting, isMaker⟩
    rcases kept.known _ maker resting with ⟨order, submitted, sameId, onSide, -⟩
    exact ⟨order, incoming.toLimitOrder, submit_mem_processed submitted, incoming_mem_processed,
      isMaker.trans sameId.symm, isTaker, onSide⟩

end Process

theorem process (kept : Kept history book) (incoming : RestingOrder)
    (distinct : DistinctIds (history ++ [.submit incoming.toLimitOrder])) :
    Kept (history ++ .submit incoming.toLimitOrder :: (book.process incoming).1.map .trade)
      (book.process incoming).2 := by
  generalize sweptEq : sweep incoming.toLimitOrder incoming.qty (book incoming.side.opposite) = swept
  rw [List.append_cons, PriorityBook.process_trades sweptEq]
  exact {
    conserved := fun _ submitted => kept.process_conserved incoming distinct sweptEq submitted
    known := fun _ _ member => kept.process_known incoming distinct sweptEq member
    distinct := process_distinct incoming sweptEq
      (fun _ _ member => kept.book_absent distinct member) kept.distinct
    named := fun _ member _ concerns => kept.process_named incoming sweptEq member concerns
    timely := (kept.process_timely incoming distinct sweptEq).1
    twoSided := fun _ member => kept.process_twoSided incoming sweptEq member }

/-- One event that is neither a submission nor a trade: it is enough that the
accounts still balance, and that what rests rested before and is not cancelled. -/
theorem post (kept : Kept history book) {event : Event} {book' : PriorityBook}
    (notTrade : forall trade, event ≠ .trade trade)
    (notSubmit : forall order, event ≠ .submit order)
    (balance : forall order, .submit order ∈ history ->
      order.qty.toNat = spent (history ++ [event]) order.id + restingQty book' order.id)
    (earlier : forall side resting, resting ∈ book' side -> Exists fun before =>
      before ∈ book side ∧ before.id = resting.id ∧ forall qty, event ≠ .cancel resting.id qty)
    (distinct : (bookIds book' .Buy).Nodup)
    (concerns : forall id, event.Concerns id -> Exists fun side => Exists fun resting =>
      resting ∈ book side ∧ resting.id = id) : Kept (history ++ [event]) book' := by
  have submittedBefore : forall order, .submit order ∈ history ++ [event] ->
      .submit order ∈ history := by
    intro order member
    rcases List.mem_append.mp member with inHistory | last
    · exact inHistory
    · exact absurd (List.mem_singleton.mp last).symm (notSubmit order)
  refine ⟨fun order submitted => balance order (submittedBefore order submitted), ?_, distinct, ?_,
    ?_, ?_⟩
  · intro side resting member
    rcases earlier side resting member with ⟨before, listed, same, notCancelled⟩
    rcases kept.known side before listed with ⟨order, submitted, sameId, onSide, notOver⟩
    refine ⟨order, List.mem_append_left _ submitted, sameId.trans same, onSide, fun ended => ?_⟩
    rcases over_snoc ended with already | ⟨qty, isCancel⟩ | ⟨trade, isTrade, -⟩
    · exact notOver already
    · rw [sameId.trans same] at isCancel
      exact notCancelled qty isCancel
    · exact notTrade trade isTrade
  · intro found member id about
    rcases List.mem_append.mp member with inHistory | last
    · rcases kept.named found inHistory id about with ⟨order, submitted, same⟩
      exact ⟨order, List.mem_append_left _ submitted, same⟩
    · rw [List.mem_singleton.mp last] at about
      rcases concerns id about with ⟨side, resting, listed, same⟩
      rcases kept.known side resting listed with ⟨order, submitted, sameId, -⟩
      exact ⟨order, List.mem_append_left _ submitted, sameId.trans same⟩
  · apply timely_snoc kept.timely
    intro trade order isTrade
    exact absurd isTrade (notTrade trade)
  · intro trade member
    rcases List.mem_append.mp member with inHistory | last
    · rcases kept.twoSided trade inHistory with ⟨maker, taker, makerIn, takerIn, rest⟩
      exact ⟨maker, taker, List.mem_append_left _ makerIn, List.mem_append_left _ takerIn, rest⟩
    · exact absurd (List.mem_singleton.mp last).symm (notTrade trade)

theorem bookIds_reduce (book : PriorityBook) (node : OrderPtr) (newQty : Quantity) (side : Side) :
    bookIds (book.reduce node newQty) side = bookIds book side := by
  rw [bookIds, PriorityBook.reduce_eq, PriorityBook.reduce_eq, ← List.map_append, List.map_map,
    bookIds]
  exact List.map_congr_left (fun order _ => PriorityBook.shrunk_id node newQty order)

section Only

variable {resting : RestingOrder}
  (only : forall otherSide other, other ∈ book otherSide -> other.node = resting.node ->
    other = resting)
include only

/-- The other orders hold what they held. -/
theorem restingQty_reduce {newQty : Quantity} {id : OrderId} (different : resting.id ≠ id) :
    restingQty (book.reduce resting.node newQty) id = restingQty book id := by
  have held : forall otherSide, total (RestingOrder.heldQty id)
      (book.reduce resting.node newQty otherSide) =
        total (RestingOrder.heldQty id) (book otherSide) := by
    intro otherSide
    rw [PriorityBook.reduce_eq]
    apply total_map
    intro other listed
    by_cases isResting : other.id = resting.id
    · rw [RestingOrder.heldQty, RestingOrder.heldQty, PriorityBook.shrunk_id, isResting,
        if_neg different, if_neg different]
    · rw [PriorityBook.shrunk_of_not fun both => isResting (by rw [only otherSide other listed both.1])]
  rw [restingQty, held, held, restingQty]

/-- A reduction to no less changes nothing. -/
theorem reduce_of_le {newQty : Quantity} (notLess : ¬ newQty < resting.qty) :
    book.reduce resting.node newQty = book := by
  funext otherSide
  refine (List.map_congr_left (fun other listed => PriorityBook.shrunk_of_not ?_)).trans
    (List.map_id _)
  intro both
  rw [only otherSide other listed both.1] at both
  exact notLess both.2

end Only

section Resting

variable {side : Side} {resting : RestingOrder} (member : resting ∈ book side)
  (only : forall otherSide other, other ∈ book otherSide -> other.node = resting.node ->
    other = resting)
include member only

theorem cancel (kept : Kept history book) :
    Kept (history ++ [.cancel resting.id resting.qty]) (book.cancel resting.node) := by
  have left : forall otherSide other, other ∈ book.cancel resting.node otherSide ->
      other ∈ book otherSide ∧ other.id ≠ resting.id := by
    intro otherSide other inCancelled
    rcases List.mem_filter.mp inCancelled with ⟨listed, notNode⟩
    refine ⟨listed, fun same => of_decide_eq_true notNode ?_⟩
    rw [same_of_ids kept.distinct listed member same]
  apply kept.post
  · intro trade
    simp
  · intro order
    simp
  · intro order submitted
    have balance := kept.conserved order submitted
    rw [spent_append]
    by_cases same : resting.id = order.id
    · rw [← same] at balance ⊢
      have cleared := restingQty_of_absent (fun otherSide other inCancelled =>
        (left otherSide other inCancelled).2)
      have taken : spent [.cancel resting.id resting.qty] resting.id = resting.qty.toNat := by
        simp [spent, Event.tradedQty, Event.reducedQty, Event.cancelledQty]
      rw [restingQty_of_mem kept.distinct member] at balance
      rw [cleared, taken]
      exact balance
    · have taken : spent [.cancel resting.id resting.qty] order.id = 0 := by
        simp [spent, Event.tradedQty, Event.reducedQty, Event.cancelledQty, same]
      have held : forall otherSide, total (RestingOrder.heldQty order.id)
          (book.cancel resting.node otherSide) = total (RestingOrder.heldQty order.id)
            (book otherSide) := by
        intro otherSide
        apply total_filter
        intro other listed dropped
        have isResting := only otherSide other listed (not_not.mp (of_decide_eq_false dropped))
        rw [isResting]
        exact if_neg same
      rw [taken, restingQty, held, held]
      exact balance
  · intro otherSide other inCancelled
    rcases left otherSide other inCancelled with ⟨listed, different⟩
    exact ⟨other, listed, rfl, fun qty same => different (Event.cancel.inj same).1.symm⟩
  · exact kept.distinct.sublist ((List.filter_sublist.append List.filter_sublist).map _)
  · intro id about
    exact ⟨side, resting, member, about⟩

theorem reduce (kept : Kept history book) {newQty : Quantity} (less : newQty < resting.qty) :
    Kept (history ++ [.reduce resting.id (resting.qty - newQty)])
      (book.reduce resting.node newQty) := by
  have distinct : (bookIds (book.reduce resting.node newQty) .Buy).Nodup := by
    rw [bookIds_reduce]
    exact kept.distinct
  apply kept.post
  · intro trade
    simp
  · intro order
    simp
  · intro order submitted
    have balance := kept.conserved order submitted
    rw [spent_append]
    by_cases same : resting.id = order.id
    · have now : { resting with qty := newQty } ∈ book.reduce resting.node newQty side := by
        rw [PriorityBook.reduce_eq, ← PriorityBook.shrunk_of_less less]
        exact List.mem_map_of_mem member
      have holds := restingQty_of_mem distinct now
      have held := restingQty_of_mem kept.distinct member
      have smaller := UInt64.lt_iff_toNat_lt.mp less
      have taken : spent [.reduce resting.id (resting.qty - newQty)] resting.id =
          resting.qty.toNat - newQty.toNat := by
        rw [← toNat_sub_of_toNat_le (by omega)]
        simp [spent, Event.tradedQty, Event.reducedQty, Event.cancelledQty]
      rw [← same] at balance ⊢
      dsimp only at holds
      omega
    · have taken : spent [.reduce resting.id (resting.qty - newQty)] order.id = 0 := by
        simp [spent, Event.tradedQty, Event.reducedQty, Event.cancelledQty, same]
      rw [taken, restingQty_reduce only same]
      exact balance
  · intro otherSide other listed
    rcases List.mem_map.mp listed with ⟨before, inBook, same⟩
    refine ⟨before, inBook, ?_, fun qty => by simp⟩
    rw [← same]
    exact (PriorityBook.shrunk_id resting.node newQty before).symm
  · exact distinct
  · intro id about
    exact ⟨side, resting, member, about⟩

end Resting
end Kept

/-! ## Runs -/

/-- Before anything has happened. -/
theorem Kept.empty {book : PriorityBook} (none : forall side, book side = []) : Kept [] book where
  conserved := fun _ submitted => absurd submitted List.not_mem_nil
  known := by
    intro side resting member
    rw [none side] at member
    exact absurd member List.not_mem_nil
  distinct := by
    rw [bookIds, none, none]
    exact List.nodup_nil
  named := fun _ member => absurd member List.not_mem_nil
  timely := fun _ _ _ _ split => absurd split (by simp)
  twoSided := fun _ member => absurd member List.not_mem_nil

/-- The events of an answered request, with the quantities the order had before it. -/
def Served.events (served : Served) : List Event :=
  match served.request with
  | .submit _ order => .submit order :: served.trades.map .trade
  | .cancel node =>
      let order := served.before.heap node
      [.cancel order.id order.qty]
  | .reduce node newQty =>
      let order := served.before.heap node
      if newQty < order.qty then [.reduce order.id (order.qty - newQty)] else []

def historyOf (past : List Served) : List Event := past.flatMap Served.events

namespace Engine

theorem historyOf_snoc (past : List Served) (served : Served) :
    historyOf (past ++ [served]) = historyOf past ++ served.events := by
  rw [historyOf, List.flatMap_append, List.flatMap_singleton]
  rfl

/-- A resting order of a represented book is the one its node carries. -/
theorem resting_of_mem {heap : Heap} {layout : Layout} {side : Side} {order : RestingOrder}
    (member : order ∈ layout.orders heap side) :
    order.node ∈ layout.nodes side ∧ order = heap.resting order.node := by
  rcases List.mem_map.mp member with ⟨node, listed, same⟩
  subst same
  exact ⟨listed, rfl⟩

theorem kept_step {past : List Served} {engine next : Engine} {served : Served} {layout : Layout}
    (represents : engine.Represents layout) (moved : system.step engine served next)
    (distinct : DistinctIds (historyOf (past ++ [served])))
    (kept : Kept (historyOf past) (layout.orders engine.heap)) :
    Exists fun layout' => next.Represents layout' ∧
      Kept (historyOf (past ++ [served])) (layout'.orders next.heap) := by
  rcases served with ⟨before, request, trades⟩
  rcases moved with ⟨same, admits, answers⟩
  have same : before = engine := same
  subst same
  rcases serve_spec represents admits answers with ⟨layout', effect, meaning⟩
  refine ⟨layout', effect.represents, ?_⟩
  rw [historyOf_snoc] at distinct ⊢
  have books : layout'.orders next.heap = ((layout.orders before.heap).serve request).2 :=
    congrArg Prod.snd meaning
  have answered : trades = ((layout.orders before.heap).serve request).1 :=
    congrArg Prod.fst meaning
  have only : forall node otherSide other, other ∈ layout.orders before.heap otherSide ->
      other.node = (before.heap.resting node).node -> other = before.heap.resting node := by
    intro node otherSide other listed sameNode
    rw [(resting_of_mem listed).2, sameNode]
    rfl
  cases request with
  | submit node order =>
      have early : DistinctIds (historyOf past ++ [.submit order]) := by
        change DistinctIds (historyOf past ++ .submit order :: trades.map .trade) at distinct
        rw [List.append_cons] at distinct
        exact distinct.before
      rw [books]
      change Kept (historyOf past ++ .submit order :: trades.map .trade) _
      rw [answered]
      exact kept.process { order with node := node } early
  | cancel node =>
      rcases (represents.resting_iff node).mp admits with ⟨side, member⟩
      rw [books]
      exact kept.cancel (List.mem_map_of_mem member) (only node)
  | reduce node newQty =>
      rcases (represents.resting_iff node).mp admits with ⟨side, member⟩
      rw [books, Served.events]
      by_cases less : newQty < (before.heap node).qty
      · simp only [if_pos less]
        exact kept.reduce (List.mem_map_of_mem member) (only node) less
      · simp only [if_neg less, List.append_nil]
        have unchanged : (layout.orders before.heap).reduce node newQty = layout.orders before.heap :=
          Kept.reduce_of_le (only node) less
        change Kept _ ((layout.orders before.heap).reduce node newQty)
        rw [unchanged]
        exact kept

/-- Over every run whose submitted orders have distinct ids: what an order was
submitted with is what trades took from it, what reductions took from it, what
it had when it was cancelled and what it now holds in the book; every trade
names a buy and a sell; and no order trades after it is over. -/
theorem orders_accounted {past : List Served} {engine : Engine} (run : system.Run past engine)
    (distinct : DistinctIds (historyOf past)) : Exists fun book => engine.Shows book ∧
      (forall order, .submit order ∈ historyOf past ->
        order.qty.toNat = total (Event.tradedQty order.id) (historyOf past) +
          total (Event.reducedQty order.id) (historyOf past) +
            total (Event.cancelledQty order.id) (historyOf past) + restingQty book order.id) ∧
      (forall trade, .trade trade ∈ historyOf past -> Exists fun buy => Exists fun sell =>
        .submit buy ∈ historyOf past ∧ .submit sell ∈ historyOf past ∧ buy.side = .Buy ∧
          sell.side = .Sell ∧ ((trade.makerOrderId = buy.id ∧ trade.takerOrderId = sell.id) ∨
            (trade.makerOrderId = sell.id ∧ trade.takerOrderId = buy.id))) ∧
      Timely (historyOf past) := by
  have invariant := run.invariant (fun past engine => DistinctIds (historyOf past) ->
    Exists fun layout => engine.Represents layout ∧
      Kept (historyOf past) (layout.orders engine.heap)) ?_ ?_
  · rcases invariant distinct with ⟨layout, represents, kept⟩
    refine ⟨_, ⟨layout, represents, rfl⟩, kept.conserved, fun trade member => ?_, kept.timely⟩
    rcases kept.twoSided trade member with ⟨maker, taker, makerIn, takerIn, isMaker, isTaker, facing⟩
    cases onSide : taker.side with
    | Buy =>
        rw [onSide] at facing
        exact ⟨taker, maker, takerIn, makerIn, onSide, facing, Or.inr ⟨isMaker, isTaker⟩⟩
    | Sell =>
        rw [onSide] at facing
        exact ⟨maker, taker, makerIn, takerIn, facing, onSide, Or.inl ⟨isMaker, isTaker⟩⟩
  · intro engine empty _
    exact ⟨_, represents_of_empty empty, Kept.empty fun _ => rfl⟩
  · intro past before served next _ inductionHypothesis moved distinct
    have earlier := distinct
    rw [historyOf_snoc] at earlier
    rcases inductionHypothesis earlier.before with ⟨layout, represents, kept⟩
    exact kept_step represents moved distinct kept

theorem orders_accounted_short : Exists fun book => shortEngine.Shows book ∧
    (forall order, .submit order ∈ historyOf shortPast ->
      order.qty.toNat = total (Event.tradedQty order.id) (historyOf shortPast) +
        total (Event.reducedQty order.id) (historyOf shortPast) +
          total (Event.cancelledQty order.id) (historyOf shortPast) + restingQty book order.id) ∧
    (forall trade, .trade trade ∈ historyOf shortPast -> Exists fun buy => Exists fun sell =>
      .submit buy ∈ historyOf shortPast ∧ .submit sell ∈ historyOf shortPast ∧ buy.side = .Buy ∧
        sell.side = .Sell ∧ ((trade.makerOrderId = buy.id ∧ trade.takerOrderId = sell.id) ∨
          (trade.makerOrderId = sell.id ∧ trade.takerOrderId = buy.id))) ∧
    Timely (historyOf shortPast) :=
  orders_accounted shortRun (by decide)

end Engine
end NexusHft
