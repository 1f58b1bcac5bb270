import NexusHft.Engine.Requests
import Mathlib.Data.List.Induction
import Mathlib.Data.List.Nodup

namespace NexusHft

/-!
# The ledger of a run

What happens to orders is written down as events, one for each submission,
trade, effective reduction and cancellation.  `spent` adds up what the events
took from an order.  An order is `Over` once it has been cancelled or a trade
has taken the last of it.

Nothing here looks at memory.  The results say how the events of one sweep
change the accounts of the orders that take part in it, and that a sweep only
ever trades orders that are not over.
-/

/-- What happens to orders, as a history records it: nothing here depends on the
book, so that a history can be judged by itself. -/
inductive Event where
  | submit (order : LimitOrder)
  | trade (trade : Trade)
  | reduce (id : OrderId) (amount : Quantity)
  | cancel (id : OrderId) (qty : Quantity)
  deriving DecidableEq, Repr

/-- The trade has the order as its maker or its taker. -/
def Trade.names (trade : Trade) (id : OrderId) : Prop :=
  trade.makerOrderId = id ∨ trade.takerOrderId = id

instance (trade : Trade) (id : OrderId) : Decidable (trade.names id) :=
  inferInstanceAs (Decidable (_ ∨ _))

/-- A sum over a list. -/
def total {Item : Type} (measure : Item -> Nat) (items : List Item) : Nat :=
  (items.map measure).sum

section Total

variable {Item : Type} (measure : Item -> Nat)

@[simp] theorem total_nil : total measure [] = 0 := rfl

@[simp] theorem total_cons (item : Item) (items : List Item) :
    total measure (item :: items) = measure item + total measure items := rfl

@[simp] theorem total_append (front back : List Item) :
    total measure (front ++ back) = total measure front + total measure back := by
  simp [total]

theorem total_eq_zero {items : List Item} (none : forall item, item ∈ items -> measure item = 0) :
    total measure items = 0 := by
  induction items with
  | nil => rfl
  | cons item items inductionHypothesis =>
      rw [total_cons, none item List.mem_cons_self,
        inductionHypothesis (fun other member => none other (List.mem_cons_of_mem item member))]

/-- Items that measure nothing may be left out. -/
theorem total_filter {keep : Item -> Bool} {items : List Item}
    (dropped : forall item, item ∈ items -> keep item = false -> measure item = 0) :
    total measure (items.filter keep) = total measure items := by
  induction items with
  | nil => rfl
  | cons item items inductionHypothesis =>
      have rest := inductionHypothesis
        (fun other member => dropped other (List.mem_cons_of_mem item member))
      cases kept : keep item with
      | true => rw [List.filter_cons_of_pos kept, total_cons, total_cons, rest]
      | false =>
          rw [List.filter_cons_of_neg (by rw [kept]; exact Bool.false_ne_true), total_cons,
            dropped item List.mem_cons_self kept, rest, Nat.zero_add]

theorem total_map {change : Item -> Item} {items : List Item}
    (same : forall item, item ∈ items -> measure (change item) = measure item) :
    total measure (items.map change) = total measure items := by
  rw [total, List.map_map, total]
  exact congrArg List.sum (List.map_congr_left same)

end Total

namespace Event

def tradedQty (id : OrderId) : Event -> Nat
  | trade found => if found.names id then found.qty.toNat else 0
  | _ => 0

def reducedQty (id : OrderId) : Event -> Nat
  | reduce other amount => if other = id then amount.toNat else 0
  | _ => 0

def cancelledQty (id : OrderId) : Event -> Nat
  | cancel other qty => if other = id then qty.toNat else 0
  | _ => 0

/-- The event is about the order. -/
def Concerns (id : OrderId) : Event -> Prop
  | submit order => order.id = id
  | trade found => found.names id
  | reduce other _ => other = id
  | cancel other _ => other = id

def order? : Event -> Option LimitOrder
  | submit order => some order
  | _ => none

end Event

/-- What trades, reductions and a cancellation have taken from an order. -/
def spent (history : List Event) (id : OrderId) : Nat :=
  total (Event.tradedQty id) history + total (Event.reducedQty id) history +
    total (Event.cancelledQty id) history

/-- The order was cancelled, or a trade took the last of it.  After that its name
may not appear in any event. -/
inductive Over (order : LimitOrder) : List Event -> Prop
  | cancelled {past : List Event} {qty : Quantity} : Over order (past ++ [.cancel order.id qty])
  | filled {past : List Event} {trade : Trade} : trade.names order.id ->
      spent (past ++ [.trade trade]) order.id = order.qty.toNat -> Over order (past ++ [.trade trade])
  | later {past : List Event} {event : Event} : Over order past -> Over order (past ++ [event])

/-- No order trades after it is over. -/
def Timely (history : List Event) : Prop :=
  forall early trade late order, history = early ++ .trade trade :: late ->
    .submit order ∈ early -> trade.names order.id -> ¬ Over order early

/-- The submitted orders have distinct ids. -/
def DistinctIds (history : List Event) : Prop :=
  ((history.filterMap Event.order?).map (fun order => order.id)).Nodup

instance (history : List Event) : Decidable (DistinctIds history) :=
  inferInstanceAs (Decidable (List.Nodup _))

/-! ## One more event -/

section Snoc

variable {history : List Event} {order : LimitOrder} {id : OrderId}

theorem spent_append (first second : List Event) :
    spent (first ++ second) id = spent first id + spent second id := by
  simp only [spent, total_append]
  omega

theorem spent_of_unconcerned (away : forall event, event ∈ history -> ¬ event.Concerns id) :
    spent history id = 0 := by
  have none : forall event, event ∈ history -> event.tradedQty id = 0 ∧ event.reducedQty id = 0 ∧
      event.cancelledQty id = 0 := by
    intro event member
    have notHere := away event member
    cases event with
    | submit order => exact ⟨rfl, rfl, rfl⟩
    | trade found => exact ⟨if_neg notHere, rfl, rfl⟩
    | reduce other amount => exact ⟨rfl, if_neg notHere, rfl⟩
    | cancel other qty => exact ⟨rfl, rfl, if_neg notHere⟩
  rw [spent, total_eq_zero _ (fun event member => (none event member).1),
    total_eq_zero _ (fun event member => (none event member).2.1),
    total_eq_zero _ (fun event member => (none event member).2.2)]

/-- What the last event has to be for an order to become over with it. -/
theorem over_snoc {event : Event} (ended : Over order (history ++ [event])) :
    Over order history ∨ (Exists fun qty => event = .cancel order.id qty) ∨
      Exists fun trade => event = .trade trade ∧ trade.names order.id ∧
        spent (history ++ [event]) order.id = order.qty.toNat := by
  generalize whole : history ++ [event] = events at ended
  cases ended with
  | cancelled =>
      exact Or.inr (Or.inl ⟨_, List.singleton_inj.mp (List.append_inj' whole rfl).2⟩)
  | filled named used =>
      exact Or.inr (Or.inr ⟨_, List.singleton_inj.mp (List.append_inj' whole rfl).2, named, used⟩)
  | later ended =>
      rw [(List.append_inj' whole rfl).1]
      exact Or.inl ended

theorem over_snoc_of_unconcerned {event : Event} (away : ¬ event.Concerns order.id)
    (ended : Over order (history ++ [event])) : Over order history := by
  rcases over_snoc ended with earlier | ⟨qty, same⟩ | ⟨trade, same, named, -⟩
  · exact earlier
  · exact absurd (by rw [same]; exact rfl) away
  · exact absurd (by rw [same]; exact named) away

theorem not_over_of_unconcerned (away : forall event, event ∈ history -> ¬ event.Concerns order.id) :
    ¬ Over order history := by
  intro ended
  induction ended with
  | cancelled => exact away _ (List.mem_append_right _ List.mem_cons_self) rfl
  | filled named used => exact away _ (List.mem_append_right _ List.mem_cons_self) named
  | later ended inductionHypothesis =>
      exact inductionHypothesis (fun event member => away event (List.mem_append_left _ member))

theorem timely_snoc {event : Event} (timely : Timely history)
    (last : forall trade order, event = .trade trade -> .submit order ∈ history ->
      trade.names order.id -> ¬ Over order history) : Timely (history ++ [event]) := by
  intro early trade late order split submitted named
  rcases List.eq_nil_or_concat late with isLast | ⟨init, final, concat⟩
  · rw [isLast] at split
    have parts := List.append_inj' split rfl
    rw [← parts.1] at submitted ⊢
    exact last trade order (List.singleton_inj.mp parts.2) submitted named
  · rw [concat, List.concat_eq_append, ← List.cons_append, ← List.append_assoc] at split
    exact timely early trade init order (List.append_inj' split rfl).1 submitted named

theorem DistinctIds.unique (distinct : DistinctIds history) {order' : LimitOrder}
    (submitted : .submit order ∈ history) (submitted' : .submit order' ∈ history)
    (same : order.id = order'.id) : order = order' :=
  List.inj_on_of_nodup_map distinct (List.mem_filterMap.mpr ⟨_, submitted, rfl⟩)
    (List.mem_filterMap.mpr ⟨_, submitted', rfl⟩) same

theorem DistinctIds.before {extra : List Event} (distinct : DistinctIds (history ++ extra)) :
    DistinctIds history := by
  rw [DistinctIds, List.filterMap_append, List.map_append] at distinct
  exact (List.nodup_append.mp distinct).1

theorem DistinctIds.fresh {extra : List Event}
    (distinct : DistinctIds (history ++ .submit order :: extra)) {order' : LimitOrder}
    (submitted : .submit order' ∈ history) : order'.id ≠ order.id := by
  rw [DistinctIds, List.filterMap_append, List.map_append] at distinct
  refine (List.nodup_append.mp distinct).2.2 _ ?_ _ List.mem_cons_self
  exact List.mem_map.mpr ⟨order', List.mem_filterMap.mpr ⟨_, submitted, rfl⟩, rfl⟩

end Snoc

/-! ## A sweep in the ledger -/

section Sweep

variable (taker : LimitOrder)

/-- What a resting order holds for an id. -/
def RestingOrder.heldQty (id : OrderId) (order : RestingOrder) : Nat :=
  if order.id = id then order.qty.toNat else 0

theorem spent_trade (trade : Trade) (rest : List Event) (id : OrderId) :
    spent (.trade trade :: rest) id = (if trade.names id then trade.qty.toNat else 0) +
      spent rest id := by
  simp only [spent, total_cons, Event.tradedQty, Event.reducedQty, Event.cancelledQty]
  omega

/-- The makers of an id lose to the trades what they no longer hold.  Ids may be
shared by several makers here; the sums still agree. -/
theorem sweep_conserves {id : OrderId} (other : taker.id ≠ id) (qty : Quantity)
    (makers : List RestingOrder) :
    total (RestingOrder.heldQty id) makers =
      spent ((sweep taker qty makers).trades.map Event.trade) id +
        total (RestingOrder.heldQty id) (sweep taker qty makers).left := by
  induction makers generalizing qty with
  | nil => rfl
  | cons maker makers inductionHypothesis =>
      by_cases going : qty > 0 ∧ taker.accepts maker.price = true
      · have named : Trade.names ⟨maker.id, taker.id, maker.price, min qty maker.qty⟩ id <->
            maker.id = id := or_iff_left other
        have exact := toNat_sub_min_right qty maker.qty
        have least := toNat_min qty maker.qty
        by_cases filled : maker.qty - min qty maker.qty = 0
        · rw [eq_zero_iff_toNat] at filled
          have earlier := inductionHypothesis (qty - min qty maker.qty)
          rw [sweep_fill taker maker going.1 going.2 ((eq_zero_iff_toNat _).mpr filled), total_cons,
            List.map_cons, spent_trade, RestingOrder.heldQty]
          simp only [named]
          split <;> omega
        · rw [sweep_unfilled taker maker going.1 going.2 filled, total_cons, total_cons,
            List.map_cons, spent_trade, RestingOrder.heldQty, RestingOrder.heldQty]
          have nothing : spent (List.map Event.trade []) id = 0 := rfl
          simp only [named, nothing]
          split <;> omega
      · rw [sweep, if_neg going]
        exact (Nat.zero_add _).symm

/-- The taker loses to the trades what it no longer has. -/
theorem sweep_spends (qty : Quantity) (makers : List RestingOrder) :
    qty.toNat = spent ((sweep taker qty makers).trades.map Event.trade) taker.id +
      (sweep taker qty makers).qty.toNat := by
  induction makers generalizing qty with
  | nil => exact (Nat.zero_add _).symm
  | cons maker makers inductionHypothesis =>
      by_cases going : qty > 0 ∧ taker.accepts maker.price = true
      · have named : Trade.names ⟨maker.id, taker.id, maker.price, min qty maker.qty⟩ taker.id :=
          Or.inr rfl
        have exact := toNat_sub_min_left qty maker.qty
        have least := toNat_min qty maker.qty
        by_cases filled : maker.qty - min qty maker.qty = 0
        · have earlier := inductionHypothesis (qty - min qty maker.qty)
          rw [sweep_fill taker maker going.1 going.2 filled, List.map_cons, spent_trade, if_pos named]
          simp only []
          omega
        · have unfilled := toNat_sub_min_right qty maker.qty
          rw [sweep_unfilled taker maker going.1 going.2 filled, List.map_cons, spent_trade,
            if_pos named]
          rw [eq_zero_iff_toNat] at filled
          have nothing : spent (List.map Event.trade []) taker.id = 0 := rfl
          have zero : (0 : Quantity).toNat = 0 := rfl
          simp only [nothing, zero]
          omega
      · rw [sweep, if_neg going]
        exact (Nat.zero_add _).symm

/-- The order of an id is not over, and this much of it is left. -/
def Open (history : List Event) (id : OrderId) (qty : Nat) : Prop :=
  forall order, .submit order ∈ history -> order.id = id ->
    ¬ Over order history ∧ order.qty.toNat = spent history id + qty

theorem mem_of_mem_snoc_trade {history : List Event} {trade : Trade} {order : LimitOrder}
    (member : .submit order ∈ history ++ [.trade trade]) : .submit order ∈ history := by
  rcases List.mem_append.mp member with earlier | last
  · exact earlier
  · exact absurd (List.mem_singleton.mp last) (by simp)

/-- An order stays open under events about other orders. -/
theorem Open.append {history extra : List Event} {id : OrderId} {qty : Nat}
    (isOpen : Open history id qty) (away : forall event, event ∈ extra -> ¬ event.Concerns id) :
    Open (history ++ extra) id qty := by
  induction extra using List.reverseRecOn with
  | nil =>
      rw [List.append_nil]
      exact isOpen
  | append_singleton init last inductionHypothesis =>
      have earlier := inductionHypothesis
        (fun event member => away event (List.mem_append_left _ member))
      have notLast := away last (List.mem_append_right _ List.mem_cons_self)
      have nothing : spent [last] id = 0 := by
        apply spent_of_unconcerned
        intro event member
        rw [List.mem_singleton.mp member]
        exact notLast
      rw [← List.append_assoc]
      intro order submitted same
      have before : .submit order ∈ history ++ init := by
        rcases List.mem_append.mp submitted with before | isLast
        · exact before
        · rw [← List.mem_singleton.mp isLast] at notLast
          exact absurd same notLast
      rcases earlier order before same with ⟨notOver, balance⟩
      refine ⟨fun ended => notOver (over_snoc_of_unconcerned ?_ ended), ?_⟩
      · rw [same]
        exact notLast
      · rw [spent_append, nothing]
        exact balance

theorem Open.unnamed {history : List Event} {id : OrderId} {qty : Nat} (isOpen : Open history id qty)
    {trade : Trade} (unnamed : ¬ trade.names id) : Open (history ++ [.trade trade]) id qty := by
  apply isOpen.append
  intro event listed
  rw [List.mem_singleton.mp listed]
  exact unnamed

/-- A trade is on time when the orders it names are open. -/
theorem Timely.trade {history : List Event} (timely : Timely history) {trade : Trade}
    {makerQty takerQty : Nat} (makerOpen : Open history trade.makerOrderId makerQty)
    (takerOpen : Open history trade.takerOrderId takerQty) :
    Timely (history ++ [.trade trade]) := by
  apply timely_snoc timely
  intro found order same submitted named
  rw [← Event.trade.inj same] at named
  rcases named with isMaker | isTaker
  · exact (makerOpen order submitted isMaker.symm).1
  · exact (takerOpen order submitted isTaker.symm).1

/-- An order stays open under a trade of its own that leaves some of it. -/
theorem Open.traded {history : List Event} {id : OrderId} {qty left : Nat}
    (isOpen : Open history id qty) {trade : Trade} (named : trade.names id)
    (leaves : qty = trade.qty.toNat + left) (some : 0 < left) :
    Open (history ++ [.trade trade]) id left := by
  intro order submitted same
  rcases isOpen order (mem_of_mem_snoc_trade submitted) same with ⟨notOver, balance⟩
  have after : order.qty.toNat = spent (history ++ [.trade trade]) id + left := by
    rw [spent_append, spent_trade, if_pos named]
    have nothing : spent [] id = 0 := rfl
    omega
  refine ⟨fun ended => ?_, after⟩
  rcases over_snoc ended with already | ⟨_, isCancel⟩ | ⟨_, -, -, used⟩
  · exact notOver already
  · exact absurd isCancel (by simp)
  · rw [same] at used
    omega

/-- The trades of a sweep keep the ledger timely, and leave open what keeps some
quantity.  A maker is filled by its last trade and is not met again. -/
theorem sweep_timely {history : List Event} {qty : Quantity} {makers : List RestingOrder}
    (timely : Timely history)
    (makersOpen : forall maker, maker ∈ makers -> Open history maker.id maker.qty.toNat)
    (takerOpen : qty > 0 -> Open history taker.id qty.toNat)
    (apart : forall maker, maker ∈ makers -> maker.id ≠ taker.id)
    (distinct : (makers.map (fun maker => maker.id)).Nodup) :
    Timely (history ++ (sweep taker qty makers).trades.map .trade) ∧
      (forall order, order ∈ (sweep taker qty makers).left ->
        Open (history ++ (sweep taker qty makers).trades.map .trade) order.id order.qty.toNat) ∧
      ((sweep taker qty makers).qty > 0 ->
        Open (history ++ (sweep taker qty makers).trades.map .trade) taker.id
          (sweep taker qty makers).qty.toNat) := by
  induction makers generalizing history qty with
  | nil =>
      rw [sweep_nil, List.map_nil, List.append_nil]
      exact ⟨timely, fun _ member => absurd member List.not_mem_nil, takerOpen⟩
  | cons maker makers inductionHypothesis =>
      by_cases going : qty > 0 ∧ taker.accepts maker.price = true
      · have makerOpen := makersOpen maker List.mem_cons_self
        have fresh := List.nodup_cons.mp distinct
        generalize tradeEq : Trade.mk maker.id taker.id maker.price (min qty maker.qty) = trade
        have ofMaker : trade.names maker.id := Or.inl (by rw [← tradeEq])
        have ofTaker : trade.names taker.id := Or.inr (by rw [← tradeEq])
        have traded : trade.qty.toNat = min qty.toNat maker.qty.toNat := by
          rw [← tradeEq]
          exact toNat_min qty maker.qty
        have takerLeft := toNat_sub_min_left qty maker.qty
        have makerLeft := toNat_sub_min_right qty maker.qty
        have onTime : Timely (history ++ [.trade trade]) := by
          rw [← tradeEq]
          exact timely.trade makerOpen (takerOpen going.1)
        have othersOpen : forall other, other ∈ makers ->
            Open (history ++ [.trade trade]) other.id other.qty.toNat := by
          intro other member
          apply (makersOpen other (List.mem_cons_of_mem maker member)).unnamed
          rw [← tradeEq]
          rintro (isMaker | isTaker)
          · exact fresh.1 (List.mem_map.mpr ⟨other, member, isMaker.symm⟩)
          · exact apart other (List.mem_cons_of_mem maker member) isTaker.symm
        by_cases filled : maker.qty - min qty maker.qty = 0
        · rw [sweep_fill taker maker going.1 going.2 filled, tradeEq]
          simp only [List.map_cons]
          rw [List.append_cons]
          refine inductionHypothesis onTime othersOpen (fun remains => ?_)
            (fun other member => apart other (List.mem_cons_of_mem maker member)) fresh.2
          rw [pos_iff_toNat_pos] at remains
          exact (takerOpen going.1).traded ofTaker (by omega) remains
        · rw [sweep_unfilled taker maker going.1 going.2 filled, tradeEq]
          rw [eq_zero_iff_toNat] at filled
          refine ⟨onTime, fun order member => ?_, fun remains => absurd remains (UInt64.lt_irrefl 0)⟩
          rcases List.mem_cons.mp member with same | later
          · rw [same]
            change Open _ maker.id (maker.qty - min qty maker.qty).toNat
            exact makerOpen.traded ofMaker (by omega) (by omega)
          · exact othersOpen order later
      · rw [sweep, if_neg going, List.map_nil, List.append_nil]
        exact ⟨timely, makersOpen, takerOpen⟩

end Sweep
end NexusHft
