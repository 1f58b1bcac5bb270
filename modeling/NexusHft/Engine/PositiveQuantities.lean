import NexusHft.Engine.Requests

namespace NexusHft

open Foundations

/-!
# Orders and trades with quantity

Matching drops a resting order as soon as nothing of it is left, and an order
rests only with a remainder.  A reduction has no such test: a reduction to zero
leaves an order in its queue that has no quantity, and a later sweep reports a
trade of nothing for it.  As long as no reduction is one to zero, nothing empty
ever rests or trades.
-/

namespace PriorityBook

/-- Every order of the book has quantity. -/
def Positive (book : PriorityBook) : Prop :=
  forall side order, order ∈ book side -> order.qty > 0

theorem min_pos {left right : UInt64} (leftPos : left > 0) (rightPos : right > 0) :
    min left right > 0 := by
  rw [pos_iff_toNat_pos] at leftPos rightPos ⊢
  rw [toNat_min]
  exact Nat.lt_min.mpr ⟨leftPos, rightPos⟩

theorem sweep_positive (incoming : LimitOrder) {makers : List RestingOrder}
    (positive : forall maker, maker ∈ makers -> maker.qty > 0) (qty : Quantity) :
    (forall trade, trade ∈ (sweep incoming qty makers).trades -> trade.qty > 0) ∧
      forall order, order ∈ (sweep incoming qty makers).left -> order.qty > 0 := by
  induction makers generalizing qty with
  | nil => exact ⟨fun _ listed => absurd listed List.not_mem_nil, positive⟩
  | cons maker makers inductionHypothesis =>
      have here := positive maker List.mem_cons_self
      have rest := inductionHypothesis (fun other member =>
        positive other (List.mem_cons_of_mem maker member))
      by_cases going : qty > 0 ∧ incoming.accepts maker.price = true
      · by_cases filled : maker.qty - min qty maker.qty = 0
        · rw [sweep_fill incoming maker going.1 going.2 filled]
          refine ⟨?_, (rest _).2⟩
          intro trade listed
          rcases List.mem_cons.mp listed with first | later
          · rw [first]
            exact min_pos going.1 here
          · exact (rest _).1 trade later
        · rw [sweep_unfilled incoming maker going.1 going.2 filled]
          constructor
          · intro trade listed
            rw [List.mem_singleton.mp listed]
            exact min_pos going.1 here
          · intro order listed
            rcases List.mem_cons.mp listed with first | later
            · rw [first]
              exact UInt64.pos_iff_ne_zero.mpr filled
            · exact positive order (List.mem_cons_of_mem maker later)
      · rw [sweep, if_neg going]
        exact ⟨fun _ listed => absurd listed List.not_mem_nil, positive⟩

/-- A submitted order trades only quantity and leaves only quantity. -/
theorem process_positive {book : PriorityBook} (positive : book.Positive)
    (incoming : RestingOrder) :
    (forall trade, trade ∈ (book.process incoming).1 -> trade.qty > 0) ∧
      (book.process incoming).2.Positive := by
  generalize sweptEq : sweep incoming.toLimitOrder incoming.qty
    (book incoming.side.opposite) = swept
  have swept_positive := sweep_positive incoming.toLimitOrder
    (positive incoming.side.opposite) incoming.qty
  rw [sweptEq] at swept_positive
  constructor
  · rw [process_trades sweptEq]
    exact swept_positive.1
  · intro side order listed
    by_cases own : side = incoming.side
    · rw [own, process_own sweptEq] at listed
      split at listed
      · rename_i remains
        rcases mem_place.mp listed with isIncoming | earlier
        · rw [isIncoming]
          exact remains
        · exact positive incoming.side order earlier
      · exact positive incoming.side order listed
    · rw [Side.eq_opposite_of_ne own, process_opposite sweptEq] at listed
      exact swept_positive.2 order listed

/-- Every request keeps the book positive, a reduction to zero excepted.  A trade
leaves a maker some quantity or removes it. -/
theorem serve_positive {book : PriorityBook} (positive : book.Positive) (request : Request)
    (notZero : forall node, request ≠ .reduce node 0) :
    (forall trade, trade ∈ (book.serve request).1 -> trade.qty > 0) ∧
      (book.serve request).2.Positive := by
  cases request with
  | submit node order => exact process_positive positive _
  | cancel node =>
      refine ⟨fun _ listed => absurd listed List.not_mem_nil, ?_⟩
      intro side order listed
      exact positive side order (List.mem_of_mem_filter listed)
  | reduce node newQty =>
      refine ⟨fun _ listed => absurd listed List.not_mem_nil, ?_⟩
      intro side order listed
      rcases List.mem_map.mp listed with ⟨found, member, same⟩
      rw [← same]
      unfold shrunk
      split
      · apply UInt64.pos_iff_ne_zero.mpr
        intro zero
        change newQty = 0 at zero
        exact notZero node (by rw [zero])
      · exact positive side found member

end PriorityBook

namespace Engine

/-- Every resting order has quantity. -/
def RestsPositive (engine : Engine) : Prop :=
  forall node, engine.Resting node -> (engine.heap node).qty > 0

section Positive

variable {engine next : Engine} {layout : Layout} {served : Served}

theorem Represents.restsPositive_iff (represents : engine.Represents layout) :
    engine.RestsPositive <-> (layout.orders engine.heap).Positive := by
  constructor
  · intro positive side order listed
    rcases List.mem_map.mp listed with ⟨node, member, same⟩
    rw [← same]
    exact positive node ((represents.resting_iff node).mpr ⟨side, member⟩)
  · intro positive node rests
    rcases (represents.resting_iff node).mp rests with ⟨side, member⟩
    exact positive side (engine.heap.resting node) (List.mem_map_of_mem member)

/-- A step that is no reduction to zero. -/
theorem step_positive (represents : engine.Represents layout) (positive : engine.RestsPositive)
    (stepped : system.step engine served next)
    (notZero : forall node, served.request ≠ .reduce node 0) :
    (forall trade, trade ∈ served.trades -> trade.qty > 0) ∧ next.RestsPositive := by
  rcases stepped with ⟨-, admits, answers⟩
  rcases serve_spec represents admits answers with ⟨layout', effect, meaning⟩
  have kept := PriorityBook.serve_positive (represents.restsPositive_iff.mp positive)
    served.request notZero
  rw [← meaning] at kept
  exact ⟨kept.1, effect.represents.restsPositive_iff.mpr kept.2⟩

/-- After a reduction to zero an order without quantity rests. -/
theorem step_zero {node : OrderPtr} (represents : engine.Represents layout)
    (stepped : system.step engine served next) (zero : served.request = .reduce node 0) :
    ¬ next.RestsPositive := by
  rcases stepped with ⟨-, admits, answers⟩
  rw [zero] at admits answers
  rcases serve_spec represents admits answers with ⟨layout', effect, meaning⟩
  rcases (represents.resting_iff node).mp admits with ⟨side, member⟩
  have after := congrArg Prod.snd meaning
  change layout'.orders next.heap = (layout.orders engine.heap).reduce node 0 at after
  rw [effect.represents.restsPositive_iff, after]
  intro positive
  have listed : engine.heap.resting node ∈ layout.orders engine.heap side :=
    List.mem_map_of_mem member
  have reduced := positive side _ (List.mem_map_of_mem listed)
  unfold PriorityBook.shrunk at reduced
  split at reduced
  · exact UInt64.lt_irrefl 0 reduced
  · rename_i unchanged
    exact unchanged ⟨rfl, reduced⟩

/-- Everything in a run has quantity: the orders that rest in each of its states and
the trades of each of its steps. -/
def RunPositive (past : List Served) (engine : Engine) : Prop :=
  (forall served, served ∈ past -> served.before.RestsPositive ∧
    forall trade, trade ∈ served.trades -> trade.qty > 0) ∧ engine.RestsPositive

/-- In every run, nothing empty rests or trades exactly if no reduction was to
zero.  A reduction to zero leaves the order in its queue; the next order that
reaches it trades nothing with it. -/
theorem positive_iff_no_zero_reduction {past : List Served} {engine : Engine}
    (run : system.Run past engine) :
    RunPositive past engine <->
      forall served, served ∈ past -> forall node, served.request ≠ .reduce node 0 := by
  induction run with
  | @start engine empty =>
      constructor
      · intro _ served listed
        exact absurd listed List.not_mem_nil
      · intro _
        refine ⟨fun served listed => absurd listed List.not_mem_nil, ?_⟩
        intro node rests
        exact absurd rests (not_resting_of_empty engine empty node)
  | @step past engine next served earlier stepped inductionHypothesis =>
      rcases reachable_represents earlier with ⟨layout, represents⟩
      constructor
      · rintro ⟨positive, nextPositive⟩ other listed node isZero
        have last := positive served (List.mem_append_right past List.mem_cons_self)
        rw [stepped.1] at last
        rcases List.mem_append.mp listed with inPast | isLast
        · exact inductionHypothesis.mp ⟨fun found member =>
            positive found (List.mem_append_left _ member), last.1⟩ other inPast node isZero
        · rw [List.mem_singleton.mp isLast] at isZero
          exact step_zero represents stepped isZero nextPositive
      · intro notZero
        have before := inductionHypothesis.mpr (fun found member =>
          notZero found (List.mem_append_left _ member))
        have here := step_positive represents before.2 stepped
          (notZero served (List.mem_append_right past List.mem_cons_self))
        refine ⟨?_, here.2⟩
        intro found member
        rcases List.mem_append.mp member with inPast | isLast
        · exact before.1 found inPast
        · rw [List.mem_singleton.mp isLast, stepped.1]
          exact ⟨before.2, here.1⟩

end Positive

theorem positive_iff_no_zero_reduction_short : RunPositive shortPast shortEngine <->
    forall served, served ∈ shortPast -> forall node, served.request ≠ .reduce node 0 :=
  positive_iff_no_zero_reduction shortRun

/-! ## An order emptied by a reduction -/

section Emptied

/-- An ask is reduced to nothing; then a bid meets it. -/
def emptiedRequests : List Request :=
  [.submit 0 ⟨1, 101, 5, .Sell⟩, .reduce 0 0, .submit 1 ⟨2, 101, 2, .Buy⟩]

def emptiedPast : List Served := (blank.answerAll emptiedRequests).1

def emptiedEngine : Engine := (blank.answerAll emptiedRequests).2

theorem emptiedRun : system.Run emptiedPast emptiedEngine := by
  have begins : system.Run [] blank := .start rfl
  have free := not_resting_of_empty blank rfl
  have asked := submit_run begins ⟨1, 101, 5, .Sell⟩ (free 0) rfl
  have rests : (blank.answer (.submit 0 ⟨1, 101, 5, .Sell⟩)).2.Resting 0 :=
    ⟨.Sell, _, List.mem_cons_self, Reaches.here 0⟩
  have stepped : system.step _ ⟨_, .reduce 0 0, []⟩ _ := ⟨rfl, rests, 4, rfl⟩
  rcases reachable_represents asked.1 with ⟨layout, represents⟩
  have unused : ¬ (blank.answerAll (emptiedRequests.take 2)).2.Resting 1 := by
    intro present
    rcases stepped.2.2.resting represents stepped.2.1 present with earlier | same
    · exact asked.2 1 (by decide) (free 1) earlier
    · exact absurd same (by decide)
  exact (submit_run (asked.1.step stepped) ⟨2, 101, 2, .Buy⟩ unused rfl).1

/-- The bid trades nothing with the emptied ask. -/
theorem emptied_trades_nothing : ¬ forall past engine, system.Run past engine ->
    RunPositive past engine := by
  intro positive
  have reported : (⟨1, 2, 101, 0⟩ : Trade) ∈ (emptiedPast.getLast (by decide)).trades :=
    List.mem_cons_self
  have claimed := ((positive _ _ emptiedRun).1 _ (List.getLast_mem (by decide))).2 _ reported
  exact absurd claimed (by decide)

end Emptied
end Engine
end NexusHft
