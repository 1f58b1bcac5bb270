import NexusHft.Engine.Layout

namespace NexusHft

/-!
# Price-time priority, without a book in memory

The abstract state of an exchange for one instrument: for each side, the
resting orders with the best price first and, within a price, in the order
they came to rest.  There are no levels, no links and no stored volumes.

`sweep` is what an incoming order does to the resting orders of the other
side, `place` is where its remainder comes to rest.  Together they are the
meaning of `process_limit_order`; the operations on memory are proved to
compute them.
-/

/-- An order at rest, together with the node that carries it.  The abstract book
consists of these alone, without levels, links or volumes. -/
structure RestingOrder extends LimitOrder where
  node : OrderPtr
  deriving DecidableEq, Repr

def Heap.resting (heap : Heap) (node : OrderPtr) : RestingOrder :=
  { toLimitOrder := heap.order node, node := node }

/-- A price the order is willing to trade at: `<=` its limit for a buy, `>=` its
limit for a sell. -/
def LimitOrder.accepts (order : LimitOrder) (price : Price) : Bool :=
  match order.side with
  | .Buy => decide (price ≤ order.price)
  | .Sell => decide (price ≥ order.price)

/-- What a sweep leaves: the trades it made, the resting orders that remain, and
the quantity the incoming order still has. -/
structure Swept where
  trades : List Trade
  left : List RestingOrder
  qty : Quantity
  deriving DecidableEq, Repr

/-- Trade with the resting orders in turn while there is quantity left and the
next price is acceptable.  A resting order whose quantity becomes zero is dropped. -/
def sweep (incoming : LimitOrder) : Quantity -> List RestingOrder -> Swept
  | qty, [] => ⟨[], [], qty⟩
  | qty, maker :: makers =>
      if qty > 0 ∧ incoming.accepts maker.price = true then
        let traded := min qty maker.qty
        let rest := sweep incoming (qty - traded) makers
        { trades := ⟨maker.id, incoming.id, maker.price, traded⟩ :: rest.trades
          left := if maker.qty - traded = 0 then rest.left
            else { maker with qty := maker.qty - traded } :: rest.left
          qty := rest.qty }
      else ⟨[], maker :: makers, qty⟩

/-- The resting orders of one side with one more at the tail of its own price:
behind every order whose price does not come after it. -/
def place (side : Side) (order : RestingOrder) (resting : List RestingOrder) :
    List RestingOrder :=
  resting.takeWhile (fun other => !decide (side.precedes order.price other.price)) ++
    order :: resting.dropWhile (fun other => !decide (side.precedes order.price other.price))

/-- The resting orders of each side, best first. -/
abbrev PriorityBook := Side -> List RestingOrder

namespace PriorityBook

/-- The meaning of `process_limit_order`: the trades and the book after it. -/
def process (book : PriorityBook) (incoming : RestingOrder) : List Trade × PriorityBook :=
  let swept := sweep incoming.toLimitOrder incoming.qty (book incoming.side.opposite)
  let matched := Function.update book incoming.side.opposite swept.left
  (swept.trades,
    if swept.qty > 0 then
      Function.update matched incoming.side
        (place incoming.side { incoming with qty := swept.qty } (matched incoming.side))
    else matched)

section Process

variable {book : PriorityBook} {incoming : RestingOrder} {swept : Swept}

/-- An order with quantity left comes to rest on its own side. -/
theorem process_rests (sweptEq : sweep incoming.toLimitOrder incoming.qty
    (book incoming.side.opposite) = swept) (remains : swept.qty > 0) :
    book.process incoming = (swept.trades,
      Function.update (Function.update book incoming.side.opposite swept.left) incoming.side
        (place incoming.side { incoming with qty := swept.qty } (book incoming.side))) := by
  unfold process
  simp only [sweptEq, if_pos remains,
    Function.update_of_ne incoming.side.opposite_ne.symm]

theorem process_used (sweptEq : sweep incoming.toLimitOrder incoming.qty
    (book incoming.side.opposite) = swept) (used : ¬ swept.qty > 0) :
    book.process incoming =
      (swept.trades, Function.update book incoming.side.opposite swept.left) := by
  unfold process
  simp only [sweptEq, if_neg used]

theorem process_trades (sweptEq : sweep incoming.toLimitOrder incoming.qty
    (book incoming.side.opposite) = swept) : (book.process incoming).1 = swept.trades := by
  rw [← sweptEq]
  rfl

/-- The other side keeps what the sweep leaves. -/
theorem process_opposite (sweptEq : sweep incoming.toLimitOrder incoming.qty
    (book incoming.side.opposite) = swept) :
    (book.process incoming).2 incoming.side.opposite = swept.left := by
  by_cases remains : swept.qty > 0
  · rw [process_rests sweptEq remains]
    exact (Function.update_of_ne incoming.side.opposite_ne _ _).trans (Function.update_self _ _ _)
  · rw [process_used sweptEq remains]
    exact Function.update_self _ _ _

/-- Its own side gains the incoming order, if any of it is left. -/
theorem process_own (sweptEq : sweep incoming.toLimitOrder incoming.qty
    (book incoming.side.opposite) = swept) :
    (book.process incoming).2 incoming.side = if swept.qty > 0 then
      place incoming.side { incoming with qty := swept.qty } (book incoming.side)
        else book incoming.side := by
  by_cases remains : swept.qty > 0
  · rw [process_rests sweptEq remains, if_pos remains]
    exact Function.update_self _ _ _
  · rw [process_used sweptEq remains, if_neg remains]
    exact Function.update_of_ne incoming.side.opposite_ne.symm _ _

end Process

/-- The order of a node leaves the book. -/
def cancel (book : PriorityBook) (node : OrderPtr) : PriorityBook := fun side =>
  (book side).filter (fun order => decide (order.node ≠ node))

/-- What a reduction makes of one resting order: that of the node shrinks, and a larger
quantity is ignored. -/
def shrunk (node : OrderPtr) (newQty : Quantity) (order : RestingOrder) : RestingOrder :=
  if order.node = node ∧ newQty < order.qty then { order with qty := newQty } else order

/-- The order of a node shrinks in place. -/
def reduce (book : PriorityBook) (node : OrderPtr) (newQty : Quantity) : PriorityBook :=
  fun side => (book side).map (shrunk node newQty)

section Shrunk

variable {node : OrderPtr} {newQty : Quantity} {order : RestingOrder}

theorem reduce_eq (book : PriorityBook) (node : OrderPtr) (newQty : Quantity) (side : Side) :
    book.reduce node newQty side = (book side).map (shrunk node newQty) := rfl

theorem shrunk_of_less (less : newQty < order.qty) :
    shrunk order.node newQty order = { order with qty := newQty } := if_pos ⟨rfl, less⟩

theorem shrunk_of_not (other : ¬ (order.node = node ∧ newQty < order.qty)) :
    shrunk node newQty order = order := if_neg other

@[simp] theorem shrunk_id (node : OrderPtr) (newQty : Quantity) (order : RestingOrder) :
    (shrunk node newQty order).id = order.id := by
  unfold shrunk
  split <;> rfl

@[simp] theorem shrunk_price (node : OrderPtr) (newQty : Quantity) (order : RestingOrder) :
    (shrunk node newQty order).price = order.price := by
  unfold shrunk
  split <;> rfl

end Shrunk
end PriorityBook

/-! ## Sweeping -/

/-- A price before another is before everything the other is not worse than. -/
theorem precedes_of_not_precedes {side : Side} {first second third : Price}
    (before : side.precedes first second) (notAfter : ¬ side.precedes third second) :
    side.precedes first third := by
  by_cases after : side.precedes second third
  · exact Trans.trans before after
  · rw [← Std.Trichotomous.trichotomous second third after notAfter]
    exact before

theorem LimitOrder.accepts_iff (order : LimitOrder) (price : Price) :
    order.accepts price = true <-> ¬ order.side.opposite.precedes order.price price := by
  unfold accepts
  cases order.side with
  | Buy => simp [Side.opposite, Side.precedes]
  | Sell => simp [Side.opposite, Side.precedes]

section Sweep

variable (incoming : LimitOrder)

@[simp] theorem sweep_nil (qty : Quantity) : sweep incoming qty [] = ⟨[], [], qty⟩ := by
  rw [sweep]

/-- Without quantity nothing happens. -/
@[simp] theorem sweep_zero (makers : List RestingOrder) :
    sweep incoming 0 makers = ⟨[], makers, 0⟩ := by
  cases makers with
  | nil => rfl
  | cons maker makers => rw [sweep, if_neg (fun both => absurd both.1 (by decide))]

theorem sweep_stop {maker : RestingOrder} (refused : incoming.accepts maker.price ≠ true)
    (qty : Quantity) (makers : List RestingOrder) :
    sweep incoming qty (maker :: makers) = ⟨[], maker :: makers, qty⟩ := by
  rw [sweep, if_neg (fun both => refused both.2)]

/-- When no price is acceptable nothing happens. -/
theorem sweep_refused {makers : List RestingOrder} (qty : Quantity)
    (refused : forall maker, maker ∈ makers -> incoming.accepts maker.price ≠ true) :
    sweep incoming qty makers = ⟨[], makers, qty⟩ := by
  cases makers with
  | nil => rfl
  | cons maker makers => exact sweep_stop incoming (refused maker List.mem_cons_self) qty makers

/-- The first maker is filled and dropped. -/
theorem sweep_fill (maker : RestingOrder) {qty : Quantity} (remains : qty > 0)
    (accepted : incoming.accepts maker.price = true)
    (filled : maker.qty - min qty maker.qty = 0) (makers : List RestingOrder) :
    sweep incoming qty (maker :: makers) =
      let rest := sweep incoming (qty - min qty maker.qty) makers
      ⟨⟨maker.id, incoming.id, maker.price, min qty maker.qty⟩ :: rest.trades, rest.left,
        rest.qty⟩ := by
  rw [sweep, if_pos ⟨remains, accepted⟩]
  simp only [if_pos filled]

/-- A maker that keeps some quantity ends the sweep. -/
theorem sweep_unfilled (maker : RestingOrder) {qty : Quantity} (remains : qty > 0)
    (accepted : incoming.accepts maker.price = true)
    (unfilled : maker.qty - min qty maker.qty ≠ 0) (makers : List RestingOrder) :
    sweep incoming qty (maker :: makers) =
      ⟨[⟨maker.id, incoming.id, maker.price, min qty maker.qty⟩],
        { maker with qty := maker.qty - min qty maker.qty } :: makers, 0⟩ := by
  have exhausted : qty - min qty maker.qty = 0 := by
    rw [ne_eq, eq_zero_iff_toNat, toNat_sub_min_right] at unfilled
    rw [eq_zero_iff_toNat, toNat_sub_min_left]
    omega
  rw [sweep, if_pos ⟨remains, accepted⟩]
  simp only [if_neg unfilled, exhausted, sweep_zero]

/-- Sweeping two lists in a row goes on to the second only when nothing of the
first is left.  By this a side is swept level by level. -/
theorem sweep_append (qty : Quantity) (front back : List RestingOrder) :
    sweep incoming qty (front ++ back) =
      let swept := sweep incoming qty front
      if swept.left = [] then
        let rest := sweep incoming swept.qty back
        ⟨swept.trades ++ rest.trades, rest.left, rest.qty⟩
      else { swept with left := swept.left ++ back } := by
  induction front generalizing qty with
  | nil => simp
  | cons maker front inductionHypothesis =>
      rw [List.cons_append]
      by_cases going : qty > 0 ∧ incoming.accepts maker.price = true
      · by_cases filled : maker.qty - min qty maker.qty = 0
        · rw [sweep_fill incoming maker going.1 going.2 filled, sweep_fill incoming maker going.1 going.2 filled,
            inductionHypothesis]
          simp only []
          split <;> rfl
        · rw [sweep_unfilled incoming maker going.1 going.2 filled,
            sweep_unfilled incoming maker going.1 going.2 filled]
          simp
      · rw [sweep, if_neg going, sweep, if_neg going]
        simp

/-- When every price is acceptable, a sweep ends because the quantity or the
list is used up. -/
theorem sweep_accepted (makers : List RestingOrder) (qty : Quantity)
    (accepted : forall maker, maker ∈ makers -> incoming.accepts maker.price = true) :
    (sweep incoming qty makers).qty = 0 ∨ (sweep incoming qty makers).left = [] := by
  induction makers generalizing qty with
  | nil => exact Or.inr rfl
  | cons maker makers inductionHypothesis =>
      have here := accepted maker List.mem_cons_self
      by_cases remains : qty > 0
      · by_cases filled : maker.qty - min qty maker.qty = 0
        · rw [sweep_fill incoming maker remains here filled]
          exact inductionHypothesis _ (fun other member =>
            accepted other (List.mem_cons_of_mem maker member))
        · rw [sweep_unfilled incoming maker remains here filled]
          exact Or.inl rfl
      · have none : qty = 0 := eq_zero_of_not_pos remains
        rw [none, sweep_zero]
        exact Or.inl rfl

/-- A sweep drops orders and changes quantities; anything else about the orders
that remain, and their sequence, is kept. -/
theorem sweep_left_sublist {Key : Type} (key : RestingOrder -> Key)
    (ignores : forall order qty, key { order with qty := qty } = key order) (qty : Quantity)
    (makers : List RestingOrder) :
    ((sweep incoming qty makers).left.map key).Sublist (makers.map key) := by
  induction makers generalizing qty with
  | nil => exact List.Sublist.refl _
  | cons maker makers inductionHypothesis =>
      by_cases going : qty > 0 ∧ incoming.accepts maker.price = true
      · by_cases filled : maker.qty - min qty maker.qty = 0
        · rw [sweep_fill incoming maker going.1 going.2 filled]
          exact (inductionHypothesis _).cons _
        · rw [sweep_unfilled incoming maker going.1 going.2 filled, List.map_cons, List.map_cons,
            ignores]
      · rw [sweep, if_neg going]

/-- The trades of a sweep are made by makers of the list, with the incoming order
as their taker. -/
theorem sweep_trades {makers : List RestingOrder} {qty : Quantity} {trade : Trade}
    (member : trade ∈ (sweep incoming qty makers).trades) :
    trade.takerOrderId = incoming.id ∧
      Exists fun maker => maker ∈ makers ∧ trade.makerOrderId = maker.id := by
  induction makers generalizing qty with
  | nil => exact absurd member List.not_mem_nil
  | cons maker makers inductionHypothesis =>
      by_cases going : qty > 0 ∧ incoming.accepts maker.price = true
      · by_cases filled : maker.qty - min qty maker.qty = 0
        · rw [sweep_fill incoming maker going.1 going.2 filled] at member
          rcases List.mem_cons.mp member with first | later
          · rw [first]
            exact ⟨rfl, maker, List.mem_cons_self, rfl⟩
          · rcases inductionHypothesis later with ⟨taker, other, listed, named⟩
            exact ⟨taker, other, List.mem_cons_of_mem maker listed, named⟩
        · rw [sweep_unfilled incoming maker going.1 going.2 filled] at member
          rw [List.mem_singleton.mp member]
          exact ⟨rfl, maker, List.mem_cons_self, rfl⟩
      · rw [sweep, if_neg going] at member
        exact absurd member List.not_mem_nil

/-- What remains of a swept side is not better than before at any price. -/
theorem sweep_left_price {makers : List RestingOrder} {qty : Quantity} {order : RestingOrder}
    (member : order ∈ (sweep incoming qty makers).left) :
    Exists fun maker => maker ∈ makers ∧ maker.price = order.price := by
  have kept := (sweep_left_sublist incoming (fun order => order.price)
    (fun _ _ => rfl) qty makers).subset (List.mem_map_of_mem member)
  rcases List.mem_map.mp kept with ⟨maker, listed, same⟩
  exact ⟨maker, listed, same⟩

/-- An order that keeps quantity accepts no price that is left.  Prices only get
worse along the list, so the first refusal refuses the rest. -/
theorem sweep_refuses {makers : List RestingOrder} {qty : Quantity}
    (sorted : makers.Pairwise (fun first second =>
      ¬ incoming.side.opposite.precedes second.price first.price))
    (remains : (sweep incoming qty makers).qty > 0) :
    forall order, order ∈ (sweep incoming qty makers).left ->
      incoming.side.opposite.precedes incoming.price order.price := by
  induction makers generalizing qty with
  | nil => exact fun _ member => absurd member List.not_mem_nil
  | cons maker makers inductionHypothesis =>
      have parts := List.pairwise_cons.mp sorted
      by_cases going : qty > 0
      · by_cases accepted : incoming.accepts maker.price = true
        · by_cases filled : maker.qty - min qty maker.qty = 0
          · rw [sweep_fill incoming maker going accepted filled] at remains ⊢
            exact inductionHypothesis parts.2 remains
          · rw [sweep_unfilled incoming maker going accepted filled] at remains
            exact absurd remains (UInt64.lt_irrefl 0)
        · rw [sweep_stop incoming accepted]
          have refused : incoming.side.opposite.precedes incoming.price maker.price := by
            rw [LimitOrder.accepts_iff, not_not] at accepted
            exact accepted
          intro order member
          rcases List.mem_cons.mp member with same | later
          · rw [same]
            exact refused
          · exact precedes_of_not_precedes refused (parts.1 order later)
      · have exhausted : qty = 0 := eq_zero_of_not_pos going
        rw [exhausted, sweep_zero] at remains
        exact absurd remains (UInt64.lt_irrefl 0)

end Sweep

/-! ## Placing -/

theorem mem_place {side : Side} {order other : RestingOrder} {resting : List RestingOrder} :
    other ∈ place side order resting <-> other = order ∨ other ∈ resting := by
  unfold place
  rw [List.mem_append, List.mem_cons, or_left_comm, ← List.mem_append, List.takeWhile_append_dropWhile]

theorem place_perm (side : Side) (order : RestingOrder) (resting : List RestingOrder) :
    (place side order resting).Perm (order :: resting) := by
  unfold place
  refine List.perm_middle.trans (List.Perm.cons order ?_)
  rw [List.takeWhile_append_dropWhile]

theorem place_eq {side : Side} {order : RestingOrder} {front back : List RestingOrder}
    (before : forall other, other ∈ front -> ¬ side.precedes order.price other.price)
    (after : forall other, other ∈ back -> side.precedes order.price other.price) :
    place side order (front ++ back) = front ++ order :: back := by
  have passed : forall other, other ∈ front ->
      (!decide (side.precedes order.price other.price)) = true := by
    intro other member
    simpa using before other member
  unfold place
  rw [List.takeWhile_append_of_pos passed, List.dropWhile_append_of_pos passed]
  cases back with
  | nil => simp
  | cons first rest =>
      have stops := decide_eq_true (after first List.mem_cons_self)
      rw [List.takeWhile_cons, List.dropWhile_cons, stops]
      simp

/-! ## Counting the orders of a book -/

namespace PriorityBook

/-- How many orders rest. -/
def size (book : PriorityBook) : Nat := (book .Buy).length + (book .Sell).length

theorem size_sides (book : PriorityBook) (side : Side) :
    book.size = (book side).length + (book side.opposite).length := by
  cases side with
  | Buy => rfl
  | Sell => exact Nat.add_comm _ _

theorem process_size (book : PriorityBook) (incoming : RestingOrder) {swept : Swept}
    (sweptEq : sweep incoming.toLimitOrder incoming.qty (book incoming.side.opposite) = swept) :
    (book.process incoming).2.size = (book incoming.side).length +
      (if swept.qty > 0 then 1 else 0) + swept.left.length := by
  rw [size_sides _ incoming.side, process_opposite sweptEq, process_own sweptEq]
  by_cases remains : swept.qty > 0
  · rw [if_pos remains, if_pos remains, (place_perm _ _ _).length_eq, List.length_cons]
  · rw [if_neg remains, if_neg remains, Nat.add_zero]

/-- An order that meets nothing acceptable comes to rest. -/
theorem process_size_of_refused {book : PriorityBook} {incoming : RestingOrder}
    (remains : incoming.qty > 0) (refused : forall maker,
      (book incoming.side.opposite).head? = some maker -> incoming.accepts maker.price ≠ true) :
    (book.process incoming).2.size = book.size + 1 := by
  have nothing : sweep incoming.toLimitOrder incoming.qty (book incoming.side.opposite) =
      ⟨[], book incoming.side.opposite, incoming.qty⟩ := by
    cases makers : book incoming.side.opposite with
    | nil => rfl
    | cons maker rest => exact sweep_stop _ (refused maker (by rw [makers]; rfl)) _ _
  rw [process_size book incoming nothing, if_pos remains, size_sides book incoming.side]
  exact Nat.add_right_comm _ _ _

/-- An order that trades leaves no more orders than there were: it fills the
first maker, or is filled itself. -/
theorem process_size_of_accepted {book : PriorityBook} {incoming maker : RestingOrder}
    {makers : List RestingOrder} (remains : incoming.qty > 0)
    (best : book incoming.side.opposite = maker :: makers)
    (accepted : incoming.accepts maker.price = true) :
    (book.process incoming).2.size ≤ book.size := by
  rw [process_size book incoming rfl, size_sides book incoming.side, best]
  by_cases filled : maker.qty - min incoming.qty maker.qty = 0
  · have fewer := (sweep_left_sublist incoming.toLimitOrder (fun order => order.price)
      (fun _ _ => rfl) (incoming.qty - min incoming.qty maker.qty) makers).length_le
    rw [List.length_map, List.length_map] at fewer
    rw [sweep_fill incoming.toLimitOrder maker remains accepted filled, List.length_cons]
    simp only []
    split <;> omega
  · rw [sweep_unfilled incoming.toLimitOrder maker remains accepted filled, List.length_cons,
      List.length_cons, if_neg (UInt64.lt_irrefl 0)]
    exact Nat.le_refl _

end PriorityBook
end NexusHft
