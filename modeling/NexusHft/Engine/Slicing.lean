import NexusHft.Engine.Depth

namespace NexusHft

open Foundations

/-!
# Slicing an order

An order sent in two slices, one after the other, does to the other side what
the whole order does: where the first slice stops, with a maker in the middle
of its quantity or between two of them, the second goes on.  Both remainders
together are the remainder of the whole, and what rests at the price is the
same in total.
-/

/-- The quantity that trades have executed for a maker. -/
def executed (maker : OrderId) (trades : List Trade) : Nat :=
  (trades.map (fun trade => if trade.makerOrderId = maker then trade.qty.toNat else 0)).sum

theorem executed_cons (maker : OrderId) (trade : Trade) (trades : List Trade) :
    executed maker (trade :: trades) =
      (if trade.makerOrderId = maker then trade.qty.toNat else 0) + executed maker trades := rfl

theorem executed_append (maker : OrderId) (first second : List Trade) :
    executed maker (first ++ second) = executed maker first + executed maker second := by
  rw [executed, List.map_append, List.sum_append, executed, executed]

/-! ## Sweeping in slices -/

/-- Two sweeps that do the same to the makers: who the taker is may differ, and so
may the trades it is named in. -/
structure Alike (one other : Swept) : Prop where
  left : one.left = other.left
  qty : one.qty = other.qty
  executed : forall maker, executed maker one.trades = executed maker other.trades

section Slices

variable {first second whole : LimitOrder}

/-- A sweep depends on the incoming order through the prices it accepts. -/
theorem sweep_alike (accepts : forall price, second.accepts price = whole.accepts price)
    (qty : Quantity) (makers : List RestingOrder) :
    Alike (sweep second qty makers) (sweep whole qty makers) := by
  induction makers generalizing qty with
  | nil => exact ⟨rfl, rfl, fun _ => rfl⟩
  | cons maker makers inductionHypothesis =>
      by_cases going : qty > 0 ∧ whole.accepts maker.price = true
      · have going' := going.2
        rw [← accepts] at going'
        by_cases filled : maker.qty - min qty maker.qty = 0
        · rw [sweep_fill second maker going.1 going' filled,
            sweep_fill whole maker going.1 going.2 filled]
          have rest := inductionHypothesis (qty - min qty maker.qty)
          refine ⟨rest.left, rest.qty, fun id => ?_⟩
          rw [executed_cons, executed_cons, rest.executed]
        · rw [sweep_unfilled second maker going.1 going' filled,
            sweep_unfilled whole maker going.1 going.2 filled]
          refine ⟨rfl, rfl, fun id => ?_⟩
          rw [executed_cons, executed_cons]
      · have stop : ¬ (qty > 0 ∧ second.accepts maker.price = true) := by
          rw [accepts]
          exact going
        rw [sweep, if_neg stop, sweep, if_neg going]
        exact ⟨rfl, rfl, fun _ => rfl⟩

/-- What a first and a second sweep do is what one sweep does: the same orders are
left, and each maker sells the two together as much as the one. -/
structure Sliced (first second whole : Swept) : Prop where
  left : second.left = whole.left
  qty : first.qty.toNat + second.qty.toNat = whole.qty.toNat
  executed : forall maker, executed maker first.trades + executed maker second.trades =
    executed maker whole.trades

variable {qty rest total : Quantity} (sum : total.toNat = qty.toNat + rest.toNat)
variable (restPos : rest > 0)
include sum restPos

theorem total_pos : total > 0 := by
  rw [pos_iff_toNat_pos] at restPos ⊢
  omega

variable (likeFirst : forall price, second.accepts price = first.accepts price)
variable (likeWhole : forall price, second.accepts price = whole.accepts price)
include likeFirst likeWhole

/-- The first slice ends in the middle of a maker; the second goes on with what is
left of it.  The maker is named in two trades, for the same quantity together. -/
theorem sweep_slices_within {maker : RestingOrder} (makers : List RestingOrder)
    (remains : qty > 0) (accepted : first.accepts maker.price = true)
    (unfilled : maker.qty - min qty maker.qty ≠ 0) :
    Sliced (sweep first qty (maker :: makers))
      (sweep second rest (sweep first qty (maker :: makers)).left)
      (sweep whole total (maker :: makers)) := by
  have acceptedSecond : second.accepts maker.price = true := (likeFirst _).trans accepted
  have acceptedWhole : whole.accepts maker.price = true :=
    (likeWhole _).symm.trans acceptedSecond
  have totalPos := total_pos sum restPos
  have reduced := toNat_sub_min_right qty maker.qty
  have tradedFirst := toNat_min qty maker.qty
  have tradedWhole := toNat_min total maker.qty
  have restWhole := toNat_sub_min_left total maker.qty
  have leftWhole := toNat_sub_min_right total maker.qty
  have short : qty.toNat < maker.qty.toNat := by
    rw [ne_eq, eq_zero_iff_toNat] at unfilled
    omega
  rw [sweep_unfilled first maker remains accepted unfilled]
  generalize maker.qty - min qty maker.qty = left at reduced
  have tradedSecond := toNat_min rest left
  have restSecond := toNat_sub_min_left rest left
  have leftSecond := toNat_sub_min_right rest left
  by_cases used : left - min rest left = 0
  · have leftZero := (eq_zero_iff_toNat _).mp used
    have usedWhole : maker.qty - min total maker.qty = 0 :=
      (eq_zero_iff_toNat _).mpr (by omega)
    have same : rest - min rest left = total - min total maker.qty :=
      UInt64.toNat_inj.mp (by omega)
    have later := sweep_alike likeWhole (total - min total maker.qty) makers
    rw [sweep_fill second { maker with qty := left } restPos acceptedSecond used,
      sweep_fill whole maker totalPos acceptedWhole usedWhole, same]
    refine ⟨later.left, (Nat.zero_add _).trans (congrArg UInt64.toNat later.qty), fun id => ?_⟩
    simp only [executed_cons, later.executed, tradedFirst, tradedSecond, tradedWhole]
    split
    · simp [executed]
      omega
    · simp [executed]
  · have leftPos : (left - min rest left).toNat ≠ 0 :=
      fun zero => used ((eq_zero_iff_toNat _).mpr zero)
    have unusedWhole : maker.qty - min total maker.qty ≠ 0 :=
      fun zero => absurd ((eq_zero_iff_toNat _).mp zero) (by omega)
    have same : left - min rest left = maker.qty - min total maker.qty :=
      UInt64.toNat_inj.mp (by omega)
    rw [sweep_unfilled second { maker with qty := left } restPos acceptedSecond used,
      sweep_unfilled whole maker totalPos acceptedWhole unusedWhole]
    refine ⟨congrArg (fun qty => { maker with qty := qty } :: makers) same, rfl, fun id => ?_⟩
    simp only [executed_cons, tradedFirst, tradedSecond, tradedWhole]
    split
    · simp [executed]
      omega
    · simp [executed]

theorem sweep_slices (makers : List RestingOrder) :
    Sliced (sweep first qty makers) (sweep second rest (sweep first qty makers).left)
      (sweep whole total makers) := by
  induction makers generalizing qty total with
  | nil => exact ⟨rfl, sum.symm, fun _ => rfl⟩
  | cons maker makers inductionHypothesis =>
      have totalPos := total_pos sum restPos
      by_cases accepted : first.accepts maker.price = true
      · have acceptedWhole : whole.accepts maker.price = true :=
          (likeWhole _).symm.trans ((likeFirst _).trans accepted)
        by_cases remains : qty > 0
        · by_cases filled : maker.qty - min qty maker.qty = 0
          · -- The first slice fills the maker, and so does the whole.
            have enough : maker.qty.toNat ≤ qty.toNat := by
              rw [eq_zero_iff_toNat, toNat_sub_min_right] at filled
              omega
            have filledWhole : maker.qty - min total maker.qty = 0 := by
              rw [eq_zero_iff_toNat, toNat_sub_min_right]
              omega
            have traded : (min qty maker.qty).toNat = (min total maker.qty).toNat := by
              rw [toNat_min, toNat_min]
              omega
            have rested : (total - min total maker.qty).toNat =
                (qty - min qty maker.qty).toNat + rest.toNat := by
              rw [toNat_sub_min_left, toNat_sub_min_left]
              omega
            rw [sweep_fill first maker remains accepted filled,
              sweep_fill whole maker totalPos acceptedWhole filledWhole]
            have later := inductionHypothesis rested
            refine ⟨later.left, later.qty, fun id => ?_⟩
            rw [executed_cons, executed_cons, traded, Nat.add_assoc, later.executed]
          · exact sweep_slices_within sum restPos likeFirst likeWhole makers remains accepted filled
        · -- The first slice is used up, and the second is the whole.
          have none : qty = 0 := eq_zero_of_not_pos remains
          have same : total = rest := by
            rw [none] at sum
            exact UInt64.toNat_inj.mp (by rw [sum]; exact Nat.zero_add _)
          have alike := sweep_alike likeWhole rest (maker :: makers)
          rw [none, sweep_zero, same]
          exact ⟨alike.left, (Nat.zero_add _).trans (congrArg UInt64.toNat alike.qty),
            fun id => (Nat.zero_add _).trans (alike.executed id)⟩
      · have refusedSecond : second.accepts maker.price ≠ true := by rwa [likeFirst]
        have refusedWhole : whole.accepts maker.price ≠ true := by rwa [← likeWhole]
        rw [sweep_stop first accepted, sweep_stop second refusedSecond,
          sweep_stop whole refusedWhole]
        exact ⟨rfl, sum.symm, fun _ => rfl⟩

end Slices

namespace PriorityBook

/-- The slices and the whole leave the same book, apart from how the remainder is
divided over orders of its price. -/
theorem process_slices (book : PriorityBook) (first second whole : RestingOrder)
    (likeFirst : second.side = first.side ∧ second.price = first.price)
    (likeWhole : second.side = whole.side ∧ second.price = whole.price)
    (sum : whole.qty.toNat = first.qty.toNat + second.qty.toNat) (secondPos : second.qty > 0) :
    (forall maker, executed maker ((book.process first).1 ++
        ((book.process first).2.process second).1) = executed maker (book.process whole).1) ∧
      ((book.process first).2.process second).2 whole.side.opposite =
        (book.process whole).2 whole.side.opposite ∧
      depthAt (((book.process first).2.process second).2 whole.side) whole.price =
        depthAt ((book.process whole).2 whole.side) whole.price ∧
      (ordersAt (((book.process first).2.process second).2 whole.side) whole.price = [] <->
        ordersAt ((book.process whole).2 whole.side) whole.price = []) := by
  have accepts {left right : RestingOrder} (alike : left.side = right.side ∧ left.price = right.price)
      (price : Price) : left.toLimitOrder.accepts price = right.toLimitOrder.accepts price := by
    unfold LimitOrder.accepts
    rw [alike.1, alike.2]
  have sliced := sweep_slices sum secondPos (accepts likeFirst) (accepts likeWhole)
    (book first.side.opposite)
  have sameSide : first.side = whole.side := likeFirst.1.symm.trans likeWhole.1
  have samePrice : first.price = whole.price := likeFirst.2.symm.trans likeWhole.2
  generalize sweptFirst : sweep first.toLimitOrder first.qty (book first.side.opposite) = one at sliced
  have afterFirst := process_opposite sweptFirst
  generalize sweptSecond : sweep second.toLimitOrder second.qty one.left = two at sliced
  rw [← afterFirst, ← likeFirst.1] at sweptSecond
  generalize sweptWhole : sweep whole.toLimitOrder whole.qty (book first.side.opposite) = all at sliced
  rw [sameSide] at sweptWhole
  have ownFirst := process_own sweptFirst
  have ownSecond := process_own sweptSecond
  have ownWhole := process_own sweptWhole
  have depthFirst := depthAt_withRemainder first.side first one.qty (book first.side) first.price
  have depthSecond := depthAt_withRemainder second.side second two.qty
    ((book.process first).2 second.side) second.price
  have depthWhole := depthAt_withRemainder whole.side whole all.qty (book whole.side) whole.price
  have ordersFirst := ordersAt_withRemainder first.side first one.qty (book first.side)
  have ordersSecond := ordersAt_withRemainder second.side second two.qty
    ((book.process first).2 second.side)
  have ordersWhole := ordersAt_withRemainder whole.side whole all.qty (book whole.side)
  rw [if_pos rfl, withRemainder, ← ownFirst, sameSide, samePrice] at depthFirst
  rw [if_pos rfl, withRemainder, ← ownSecond, likeWhole.1, likeWhole.2] at depthSecond
  rw [if_pos rfl, withRemainder, ← ownWhole] at depthWhole
  rw [withRemainder, ← ownFirst, sameSide, samePrice] at ordersFirst
  rw [withRemainder, ← ownSecond, likeWhole.1, likeWhole.2] at ordersSecond
  rw [withRemainder, ← ownWhole] at ordersWhole
  have qty := sliced.qty
  refine ⟨fun maker => ?_, ?_, ?_, ?_⟩
  · rw [executed_append, process_trades sweptFirst, process_trades sweptSecond,
      process_trades sweptWhole, sliced.executed]
  · rw [process_opposite sweptWhole, ← likeWhole.1, process_opposite sweptSecond, sliced.left]
  · rw [depthSecond, depthFirst, depthWhole]
    omega
  · rw [ordersSecond, ordersFirst, ordersWhole, and_assoc]
    refine and_congr_right (fun _ => ?_)
    omega

end PriorityBook

namespace Engine

/-- Two slices of an order, one after the other, against the whole order: each
maker is executed for as much, the opposite side ends the same, and so does the
volume at the order's own price. -/
structure SlicedAlike (side : Side) (price : Price) (firstTrades secondTrades trades : List Trade)
    (sliced whole : Engine) : Prop where
  executed : forall maker,
    executed maker (firstTrades ++ secondTrades) = executed maker trades
  opposite : SameSide side.opposite sliced whole
  volume : sliced.volumeAt side price = whole.volumeAt side price

/-- Slicing an order, whatever the book and wherever the cut falls.  The cut may
fall inside a maker, between two levels, or in what comes to rest. -/
theorem slicing {past : List Served} {engine : Engine} (run : system.Run past engine)
    (side : Side) (price : Price) {a b : Quantity} (bPos : b > 0)
    (fits : a.toNat + b.toNat < 2 ^ 64) (firstId secondId wholeId : OrderId)
    {firstNode wholeNode : OrderPtr} (firstFree : ¬ engine.Resting firstNode)
    (wholeFree : ¬ engine.Resting wholeNode) :
    Exists fun firstTrades => Exists fun middle => Exists fun trades => Exists fun whole =>
      engine.Answers (.submit firstNode ⟨firstId, price, a, side⟩) firstTrades middle ∧
      engine.Answers (.submit wholeNode ⟨wholeId, price, a + b, side⟩) trades whole ∧
      forall secondNode, ¬ middle.Resting secondNode ->
        Exists fun secondTrades => Exists fun sliced =>
          middle.Answers (.submit secondNode ⟨secondId, price, b, side⟩) secondTrades sliced ∧
          SlicedAlike side price firstTrades secondTrades trades sliced whole := by
  rcases reachable_represents run with ⟨layout, represents⟩
  rcases submit_spec represents firstFree ⟨firstId, price, a, side⟩ with
    ⟨firstTrades, middle, middleLayout, answered, representsMiddle, meaning⟩
  rcases submit_spec represents wholeFree ⟨wholeId, price, a + b, side⟩ with
    ⟨trades, whole, wholeLayout, answeredWhole, representsWhole, meaningWhole⟩
  refine ⟨firstTrades, middle, trades, whole, answered, answeredWhole, ?_⟩
  intro secondNode secondFree
  rcases submit_spec representsMiddle secondFree ⟨secondId, price, b, side⟩ with
    ⟨secondTrades, sliced, slicedLayout, answeredSecond, representsSliced, meaningSecond⟩
  refine ⟨secondTrades, sliced, answeredSecond, ?_⟩
  have sum : (a + b).toNat = a.toNat + b.toNat := by
    rw [UInt64.toNat_add, Nat.mod_eq_of_lt fits]
  have alike := PriorityBook.process_slices (layout.orders engine.heap)
    ⟨⟨firstId, price, a, side⟩, firstNode⟩ ⟨⟨secondId, price, b, side⟩, secondNode⟩
    ⟨⟨wholeId, price, a + b, side⟩, wholeNode⟩ ⟨rfl, rfl⟩ ⟨rfl, rfl⟩ sum bPos
  rw [← meaning, ← meaningWhole] at alike
  change (forall maker, executed maker (firstTrades ++ _) = _) ∧ _ at alike
  rw [← meaningSecond] at alike
  rcases alike with ⟨executions, opposite, depth, empty⟩
  refine ⟨executions, representsSliced.sameSide representsWhole opposite, ?_⟩
  change depthAt (slicedLayout.orders sliced.heap side) price =
    depthAt (wholeLayout.orders whole.heap side) price at depth
  change ordersAt (slicedLayout.orders sliced.heap side) price = [] <->
    ordersAt (wholeLayout.orders whole.heap side) price = [] at empty
  rw [representsSliced.volumeAt_eq, representsWhole.volumeAt_eq, depth]
  exact if_congr empty rfl rfl

/-- Three asks of 3, 4 and 6 at 101, and a buy of nine in slices of four and five: the
first slice ends within the second ask, and the second one within the third. -/
theorem slicing_busy :
    Exists fun firstTrades => Exists fun middle => Exists fun trades => Exists fun whole =>
      busyEngine.Answers (.submit 7 ⟨7, 101, 4, .Buy⟩) firstTrades middle ∧
      busyEngine.Answers (.submit 8 ⟨9, 101, 4 + 5, .Buy⟩) trades whole ∧
      firstTrades = [⟨1, 7, 101, 3⟩, ⟨2, 7, 101, 1⟩] ∧
      trades = [⟨1, 9, 101, 3⟩, ⟨2, 9, 101, 4⟩, ⟨3, 9, 101, 2⟩] ∧
      forall secondNode, ¬ middle.Resting secondNode ->
        Exists fun secondTrades => Exists fun sliced =>
          middle.Answers (.submit secondNode ⟨8, 101, 5, .Buy⟩) secondTrades sliced ∧
          SlicedAlike .Buy 101 firstTrades secondTrades trades sliced whole := by
  have fits : (4 : Quantity).toNat + (5 : Quantity).toNat < 2 ^ 64 := by decide
  rcases slicing busyRun .Buy 101 (by decide) fits 7 8 9
    (busy_served.2 7 (by decide)) (busy_served.2 8 (by decide)) with
    ⟨firstTrades, middle, trades, whole, answered, answeredWhole, alike⟩
  have first : busyEngine.Answers (.submit 7 ⟨7, 101, 4, .Buy⟩)
      [⟨1, 7, 101, 3⟩, ⟨2, 7, 101, 1⟩] _ := ⟨4, rfl⟩
  have all : busyEngine.Answers (.submit 8 ⟨9, 101, 4 + 5, .Buy⟩)
      [⟨1, 9, 101, 3⟩, ⟨2, 9, 101, 4⟩, ⟨3, 9, 101, 2⟩] _ := ⟨4, rfl⟩
  exact ⟨firstTrades, middle, trades, whole, answered, answeredWhole,
    (answered.unique first).1, (answeredWhole.unique all).1, alike⟩

end Engine
end NexusHft
