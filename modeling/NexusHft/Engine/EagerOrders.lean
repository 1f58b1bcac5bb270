import NexusHft.Engine.BestExecution
import NexusHft.Engine.Slicing

namespace NexusHft

/-!
# More eager orders

An order is more eager than another one of its side if its limit accepts the limit of
the other and its quantity is not less.  In the same book it does all that the other
would do, and goes on from there: the trades of the other one begin its own, and what
rests on the opposite side afterwards would also rest after the other.
-/

/-- Trades begin others: the same makers at the same prices for the same
quantities, up to the last of the first, which may be for less since its taker was
used up. -/
inductive BeginsAs : List Trade -> List Trade -> Prop
  | nothing {others : List Trade} : BeginsAs [] others
  | last {trade other : Trade} {others : List Trade} :
      trade.makerOrderId = other.makerOrderId -> trade.price = other.price ->
        trade.qty ≤ other.qty -> BeginsAs [trade] (other :: others)
  | cons {trade other : Trade} {trades others : List Trade} :
      trade.makerOrderId = other.makerOrderId -> trade.price = other.price ->
        trade.qty = other.qty -> BeginsAs trades others ->
          BeginsAs (trade :: trades) (other :: others)

namespace BeginsAs

variable {trades others : List Trade}

/-- No maker sells less to the more eager order. -/
theorem executed_le (begins : BeginsAs trades others) (maker : OrderId) :
    executed maker trades ≤ executed maker others := by
  induction begins with
  | nothing => exact Nat.zero_le _
  | @last trade other others sameMaker _ less =>
      simp only [executed_cons, sameMaker]
      have less' := UInt64.le_iff_toNat_le.mp less
      split
      · simp [executed]
        omega
      · simp [executed]
  | cons sameMaker _ sameQty _ inductionHypothesis =>
      simp only [executed_cons, sameMaker, sameQty]
      omega

theorem tradedQty_le (begins : BeginsAs trades others) : tradedQty trades ≤ tradedQty others := by
  induction begins with
  | nothing => exact Nat.zero_le _
  | last _ _ less =>
      have less' := UInt64.le_iff_toNat_le.mp less
      simp [tradedQty]
      omega
  | cons _ _ sameQty _ inductionHypothesis =>
      simp only [tradedQty, List.map_cons, List.sum_cons, sameQty] at inductionHypothesis ⊢
      omega

theorem length_le (begins : BeginsAs trades others) : trades.length ≤ others.length := by
  induction begins with
  | nothing => exact Nat.zero_le _
  | last => simp
  | cons _ _ _ _ inductionHypothesis => simpa using inductionHypothesis

end BeginsAs

/-! ## Sweeping -/

/-- A resting order with less left of it. -/
def RestingOrder.IsPart (part order : RestingOrder) : Prop :=
  part = { order with qty := part.qty } ∧ part.qty ≤ order.qty

theorem RestingOrder.isPart_self (order : RestingOrder) : order.IsPart order :=
  ⟨rfl, UInt64.le_refl _⟩

/-- Orders are some of the others, with less left of them. -/
def PartsOf : List RestingOrder -> List RestingOrder -> Prop :=
  List.SublistForall₂ RestingOrder.IsPart

theorem partsOf_self (orders : List RestingOrder) : PartsOf orders orders := by
  induction orders with
  | nil => exact .nil
  | cons order orders inductionHypothesis => exact .cons order.isPart_self inductionHypothesis

/-- A sweep leaves parts of what has rested. -/
theorem sweep_partsOf (incoming : LimitOrder) (qty : Quantity) (makers : List RestingOrder) :
    PartsOf (sweep incoming qty makers).left makers := by
  induction makers generalizing qty with
  | nil => exact .nil
  | cons maker makers inductionHypothesis =>
      by_cases going : qty > 0 ∧ incoming.accepts maker.price = true
      · by_cases filled : maker.qty - min qty maker.qty = 0
        · rw [sweep_fill incoming maker going.1 going.2 filled]
          exact .cons_right (inductionHypothesis _)
        · rw [sweep_unfilled incoming maker going.1 going.2 filled]
          refine .cons ⟨rfl, ?_⟩ (partsOf_self makers)
          rw [UInt64.le_iff_toNat_le, toNat_sub_min_right]
          exact Nat.sub_le _ _
      · rw [sweep, if_neg going]
        exact partsOf_self _

section Eager

variable {incoming eager : LimitOrder}
  (accepts : forall price, incoming.accepts price = true -> eager.accepts price = true)
include accepts

/-- One maker after another, the more eager order does at least what the other
does.  As long as both go on they do the same; the less eager one stops first, or
has less left. -/
theorem sweep_eager (makers : List RestingOrder) {qty eagerQty : Quantity}
    (le : qty.toNat ≤ eagerQty.toNat) :
    BeginsAs (sweep incoming qty makers).trades (sweep eager eagerQty makers).trades ∧
      PartsOf (sweep eager eagerQty makers).left (sweep incoming qty makers).left := by
  induction makers generalizing qty eagerQty with
  | nil => exact ⟨.nothing, .nil⟩
  | cons maker makers inductionHypothesis =>
      by_cases going : qty > 0 ∧ incoming.accepts maker.price = true
      · have eagerPos : eagerQty > 0 := by
          rw [pos_iff_toNat_pos]
          have positive := (pos_iff_toNat_pos qty).mp going.1
          omega
        have accepted := accepts maker.price going.2
        by_cases filled : maker.qty - min qty maker.qty = 0
        · -- Both fill the maker.
          have enough : maker.qty.toNat ≤ qty.toNat := by
            rw [eq_zero_iff_toNat, toNat_sub_min_right] at filled
            omega
          have filledToo : maker.qty - min eagerQty maker.qty = 0 := by
            rw [eq_zero_iff_toNat, toNat_sub_min_right]
            omega
          have traded : min qty maker.qty = min eagerQty maker.qty := by
            rw [← UInt64.toNat_inj, toNat_min, toNat_min]
            omega
          have left : (qty - min qty maker.qty).toNat ≤ (eagerQty - min eagerQty maker.qty).toNat := by
            rw [toNat_sub_min_left, toNat_sub_min_left]
            omega
          have later := inductionHypothesis left
          rw [sweep_fill incoming maker going.1 going.2 filled,
            sweep_fill eager maker eagerPos accepted filledToo]
          exact ⟨.cons rfl rfl traded later.1, later.2⟩
        · -- The first order ends here.
          rw [sweep_unfilled incoming maker going.1 going.2 filled]
          have less : min qty maker.qty ≤ min eagerQty maker.qty := by
            rw [UInt64.le_iff_toNat_le, toNat_min, toNat_min]
            omega
          by_cases filledToo : maker.qty - min eagerQty maker.qty = 0
          · rw [sweep_fill eager maker eagerPos accepted filledToo]
            exact ⟨.last rfl rfl less, .cons_right (sweep_partsOf eager _ makers)⟩
          · rw [sweep_unfilled eager maker eagerPos accepted filledToo]
            refine ⟨.last rfl rfl less, .cons ⟨rfl, ?_⟩ (partsOf_self makers)⟩
            rw [UInt64.le_iff_toNat_le, toNat_sub_min_right, toNat_sub_min_right]
            omega
      · rw [sweep, if_neg going]
        exact ⟨.nothing, sweep_partsOf eager eagerQty (maker :: makers)⟩

end Eager

/-- A limit that accepts another one of its side accepts all that this one does. -/
theorem LimitOrder.accepts_of_limit {order eager : LimitOrder} (sameSide : eager.side = order.side)
    (limit : eager.accepts order.price = true) {price : Price}
    (accepted : order.accepts price = true) : eager.accepts price = true := by
  unfold accepts at limit accepted ⊢
  rw [sameSide] at limit ⊢
  cases side : order.side with
  | Buy =>
      simp only [side, decide_eq_true_eq] at limit accepted ⊢
      exact UInt64.le_trans accepted limit
  | Sell =>
      simp only [side, decide_eq_true_eq] at limit accepted ⊢
      exact UInt64.le_trans limit accepted

namespace Engine

/-- In the same book, the trades of an order begin those of a more eager one: no maker
sells less to it, and what it leaves of the opposite side the other leaves as well, in
the same sequence, with no less of each order. -/
theorem eager_orders_go_on {past : List Served} {engine : Engine} (run : system.Run past engine)
    {order eager : LimitOrder} (sameSide : eager.side = order.side)
    (limit : eager.accepts order.price = true) (qty : order.qty ≤ eager.qty)
    {node eagerNode : OrderPtr} (free : ¬ engine.Resting node)
    (eagerFree : ¬ engine.Resting eagerNode) :
    Exists fun trades => Exists fun next => Exists fun eagerTrades => Exists fun eagerNext =>
      engine.Answers (.submit node order) trades next ∧
      engine.Answers (.submit eagerNode eager) eagerTrades eagerNext ∧
      BeginsAs trades eagerTrades ∧ tradedQty trades ≤ tradedQty eagerTrades ∧
      (forall maker, executed maker trades ≤ executed maker eagerTrades) ∧
      Exists fun book => Exists fun eagerBook => next.Shows book ∧ eagerNext.Shows eagerBook ∧
        PartsOf (eagerBook order.side.opposite) (book order.side.opposite) := by
  rcases reachable_represents run with ⟨layout, represents⟩
  rcases submit_spec represents free order with
    ⟨trades, next, nextLayout, answered, representsNext, meaning⟩
  rcases submit_spec represents eagerFree eager with
    ⟨eagerTrades, eagerNext, eagerLayout, eagerAnswered, representsEager, eagerMeaning⟩
  have does := sweep_eager (fun price => LimitOrder.accepts_of_limit sameSide limit)
    (layout.orders engine.heap order.side.opposite) (UInt64.le_iff_toNat_le.mp qty)
  generalize swept : sweep order order.qty (layout.orders engine.heap order.side.opposite) = one at does
  generalize eagerSwept : sweep eager eager.qty
    (layout.orders engine.heap order.side.opposite) = other at does
  rw [← sameSide] at eagerSwept
  have madeTrades : trades = one.trades :=
    (congrArg Prod.fst meaning).trans (@PriorityBook.process_trades _ ⟨order, node⟩ _ swept)
  have madeEager : eagerTrades = other.trades := (congrArg Prod.fst eagerMeaning).trans
    (@PriorityBook.process_trades _ ⟨eager, eagerNode⟩ _ eagerSwept)
  have left : nextLayout.orders next.heap order.side.opposite = one.left :=
    (congrFun (congrArg Prod.snd meaning) _).trans
      (@PriorityBook.process_opposite _ ⟨order, node⟩ _ swept)
  have eagerLeft : eagerLayout.orders eagerNext.heap eager.side.opposite = other.left :=
    (congrFun (congrArg Prod.snd eagerMeaning) _).trans
      (@PriorityBook.process_opposite _ ⟨eager, eagerNode⟩ _ eagerSwept)
  rw [← madeTrades, ← madeEager] at does
  refine ⟨trades, next, eagerTrades, eagerNext, answered, eagerAnswered, does.1,
    does.1.tradedQty_le, does.1.executed_le, _, _, ⟨nextLayout, representsNext, rfl⟩,
    ⟨eagerLayout, representsEager, rfl⟩, ?_⟩
  rw [left, ← sameSide, eagerLeft]
  exact does.2

/-- A buyer who pays more for more, after an offer has come to rest. -/
theorem eager_orders_go_on_offer : Exists fun engine : Engine => Exists fun trades =>
    Exists fun next => Exists fun eagerTrades => Exists fun eagerNext =>
      engine.Answers (.submit 1 ⟨2, 101, 2, .Buy⟩) trades next ∧
      engine.Answers (.submit 1 ⟨3, 105, 7, .Buy⟩) eagerTrades eagerNext ∧
      trades = [⟨1, 2, 101, 2⟩] ∧ BeginsAs trades eagerTrades := by
  have free := not_resting_of_empty blank rfl
  have offered := submit_run (show system.Run [] blank from .start rfl) ⟨1, 101, 5, .Sell⟩
    (free 0) rfl
  have unused := offered.2 1 (by decide) (free 1)
  have served : (blank.answer (.submit 0 ⟨1, 101, 5, .Sell⟩)).2.Answers (.submit 1 ⟨2, 101, 2, .Buy⟩)
      [⟨1, 2, 101, 2⟩] _ := ⟨4, rfl⟩
  rcases eager_orders_go_on offered.1 (show (⟨3, 105, 7, .Buy⟩ : LimitOrder).side =
      (⟨2, 101, 2, .Buy⟩ : LimitOrder).side from rfl) (by decide) (by decide) unused unused with
    ⟨trades, next, eagerTrades, eagerNext, answered, eagerAnswered, begins, -⟩
  exact ⟨_, trades, next, eagerTrades, eagerNext, answered, eagerAnswered,
    (answered.unique served).1, begins⟩

end Engine
end NexusHft
