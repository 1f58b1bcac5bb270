import Mathlib.Data.List.Infix
import NexusHft.Foundations.SignedWord
import NexusHft.Oms.MachinePortfolio

namespace NexusHft

open Foundations

/-!
# The two sides of a trade

What one party buys another one sells.  Parties that trade with nobody but each
other hold opposite positions at the same average price, and what one has gained
to the last unit is what the other has lost.  Nothing has to be exact for that:
prices are rounded alike on both sides, and a gain is the opposite of a loss as
long as rounding does not prefer a sign.

The smallest word has no opposite, and the source takes magnitudes of positions
and of fills.  That none of them is this word is seen from the calls alone.
-/

/-- Gains with opposite signs become opposite words.  Doubles are rounded and
truncated alike for both signs; and what does not fit a word is converted to the
smallest one, which is its own negation, or is not defined at all. -/
def DoubleOps.Odd {Double : Type} (ops : DoubleOps Double) : Prop :=
  forall price other size, ops.toInt64 (ops.mul (ops.sub price other) size) =
    -ops.toInt64 (ops.mul (ops.sub other price) size)

theorem truncate_neg (value : Rat) : truncate (-value) = -truncate value := by
  unfold truncate
  rcases lt_trichotomy value 0 with negative | zero | positive
  · rw [if_pos (by linarith), if_neg (not_le.mpr negative), Int.floor_neg]
  · simp [zero]
  · rw [if_neg (by linarith), if_pos positive.le, Int.ceil_neg]

theorem DoubleOps.exact_odd : DoubleOps.exact.Odd := by
  intro price other size
  have opposite : (price - other) * size = -((other - price) * size) := by ring
  change Int64.ofInt (truncate ((price - other) * size)) =
    -Int64.ofInt (truncate ((other - price) * size))
  rw [opposite, truncate_neg, Int64.ofInt_neg]

/-- The same trade as the other party sees it, or the same price of the market. -/
def PortfolioCall.counterpart : PortfolioCall -> PortfolioCall
  | .fill side price qty => .fill side.opposite price qty
  | .mark midPrice => .mark midPrice

namespace MachinePortfolio

/-- The portfolio of the other party: what is counted with a sign has the opposite
one, and the prices are the same. -/
def counterpart {Double : Type} (portfolio : MachinePortfolio Double) : MachinePortfolio Double :=
  { portfolio with
    netPosition := -portfolio.netPosition
    realizedPnl := -portfolio.realizedPnl
    unrealizedPnl := -portfolio.unrealizedPnl }

/-- No position in the course of the calls, and no fill, is the smallest word. -/
def Opposable (calls : List PortfolioCall) : Prop :=
  (forall early, early <+: calls -> position early ≠ Int64.minValue) ∧
    forall side price qty, .fill side price qty ∈ calls -> fillQty side qty ≠ Int64.minValue

theorem Opposable.earlier {calls : List PortfolioCall} {call : PortfolioCall}
    (opposable : Opposable (calls ++ [call])) : Opposable calls :=
  ⟨fun early before => opposable.1 early (before.trans (List.prefix_append calls [call])),
    fun side price qty member => opposable.2 side price qty (List.mem_append_left [call] member)⟩

@[simp] theorem fillQty_opposite (side : Side) (qty : Quantity) :
    fillQty side.opposite qty = -fillQty side qty := by
  cases side with
  | Buy => rfl
  | Sell => exact (Int64.neg_neg).symm

section Calls

variable {Double : Type} {ops : DoubleOps Double} {portfolio : MachinePortfolio Double}

section Fill

variable {fillQty : Int64} (position : portfolio.netPosition ≠ Int64.minValue)
  (fill : fillQty ≠ Int64.minValue) (fillPrice : Double)
include position

include fill in
theorem addedPrice_counterpart :
    addedPrice ops portfolio.counterpart fillPrice (-fillQty) =
      addedPrice ops portfolio fillPrice fillQty := by
  simp only [addedPrice, counterpart, abs_neg_word position, abs_neg_word fill]

include fill in
theorem remainingPrice_counterpart :
    remainingPrice ops portfolio.counterpart fillPrice (-fillQty) =
      remainingPrice ops portfolio fillPrice fillQty := by
  simp only [remainingPrice, counterpart, abs_neg_word position, abs_neg_word fill]

include fill in
/-- One party takes back what the other one does, with the opposite gain. -/
theorem reducedGain_counterpart (odd : ops.Odd) (isOpen : portfolio.netPosition ≠ 0) :
    ops.toInt64 (reducedGain ops portfolio.counterpart fillPrice (-fillQty)) =
      -ops.toInt64 (reducedGain ops portfolio fillPrice fillQty) := by
  simp only [reducedGain, counterpart, abs_neg_word position, abs_neg_word fill,
    neg_word_pos_iff position]
  rcases word_trichotomy portfolio.netPosition with short | flat | long
  · rw [if_pos short, if_neg (not_pos_of_neg_word short)]
    exact odd _ _ _
  · exact absurd flat isOpen
  · rw [if_neg (not_neg_of_pos_word long), if_pos long]
    exact odd _ _ _

include fill in
theorem sameSide_counterpart :
    ((portfolio.counterpart.netPosition > 0 ∧ -fillQty > 0) ∨
        (portfolio.counterpart.netPosition < 0 ∧ -fillQty < 0)) <->
      ((portfolio.netPosition > 0 ∧ fillQty > 0) ∨ (portfolio.netPosition < 0 ∧ fillQty < 0)) := by
  simp only [counterpart, neg_word_pos_iff position, neg_word_pos_iff fill,
    neg_word_neg_iff position, neg_word_neg_iff fill]
  exact or_comm

end Fill

theorem processFill_counterpart (odd : ops.Odd)
    (position : portfolio.netPosition ≠ Int64.minValue) (side : Side) (price : Price)
    {qty : Quantity} (fill : fillQty side qty ≠ Int64.minValue) :
    processFill ops portfolio.counterpart side.opposite price qty =
      (processFill ops portfolio side price qty).counterpart := by
  have flat : portfolio.counterpart.netPosition = 0 <-> portfolio.netPosition = 0 :=
    neg_word_eq_zero_iff
  have sum : -portfolio.netPosition + -fillQty side qty =
      -(portfolio.netPosition + fillQty side qty) := neg_word_add _ _
  unfold processFill
  rw [fillQty_opposite]
  dsimp only
  by_cases isFlat : portfolio.netPosition = 0
  · rw [if_pos isFlat, if_pos (flat.mpr isFlat)]
    simp only [counterpart, sum]
  rw [if_neg isFlat, if_neg (mt flat.mp isFlat), if_congr (sameSide_counterpart position fill) rfl rfl]
  split
  · rw [addedPrice_counterpart position fill]
    simp only [counterpart, sum]
  · rw [remainingPrice_counterpart position fill, reducedGain_counterpart position fill _ odd isFlat]
    simp only [counterpart, sum, neg_word_add]

theorem updateMarketPrice_counterpart (odd : ops.Odd)
    (position : portfolio.netPosition ≠ Int64.minValue) (midPrice : Price) :
    updateMarketPrice ops portfolio.counterpart midPrice =
      (updateMarketPrice ops portfolio midPrice).counterpart := by
  have flat : portfolio.counterpart.netPosition = 0 <-> portfolio.netPosition = 0 :=
    neg_word_eq_zero_iff
  have opposite : portfolio.counterpart.netPosition > 0 <-> portfolio.netPosition < 0 :=
    neg_word_pos_iff position
  unfold updateMarketPrice
  dsimp only
  rcases word_trichotomy portfolio.netPosition with short | isFlat | long
  · have isOpen : portfolio.netPosition ≠ 0 := fun isFlat => absurd (isFlat ▸ short) (by decide)
    rw [if_neg (mt flat.mp isOpen), if_pos (opposite.mpr short), if_neg isOpen,
      if_neg (not_pos_of_neg_word short), abs_of_neg_word position short, odd]
    rfl
  · rw [if_pos (flat.mpr isFlat), if_pos isFlat]
    simp only [counterpart, Int64.neg_zero]
  · have isOpen : portfolio.netPosition ≠ 0 := fun isFlat => absurd (isFlat ▸ long) (by decide)
    rw [if_neg (mt flat.mp isOpen), if_neg (mt opposite.mp (not_neg_of_pos_word long)),
      if_neg isOpen, if_pos long, odd]
    simp only [counterpart, abs_neg_word position, abs_of_pos_word long]

end Calls

/-- Two parties to the same trades hold opposite positions at the same average
price, and their profits, realized or not, cancel to the last unit, at any time
and whatever the prices were rounded to. -/
theorem counterparties_cancel {Double : Type} {ops : DoubleOps Double} (odd : ops.Odd)
    {calls : List PortfolioCall} (opposable : Opposable calls) :
    after ops (calls.map PortfolioCall.counterpart) = (after ops calls).counterpart ∧
      (after ops (calls.map PortfolioCall.counterpart)).getTotalPnl +
        (after ops calls).getTotalPnl = 0 := by
  have mirrored : after ops (calls.map PortfolioCall.counterpart) =
      (after ops calls).counterpart := by
    induction calls using List.reverseRecOn with
    | nil => simp [after, counterpart]
    | append_singleton calls call inductionHypothesis =>
        have position : (after ops calls).netPosition ≠ Int64.minValue := by
          rw [after_netPosition]
          exact opposable.1 calls (List.prefix_append calls [call])
        rw [List.map_append, List.map_singleton, after_concat, after_concat,
          inductionHypothesis opposable.earlier]
        cases call with
        | fill side price qty =>
            exact processFill_counterpart odd position side price
              (opposable.2 side price qty (by simp))
        | mark midPrice => exact updateMarketPrice_counterpart odd position midPrice
  refine ⟨mirrored, ?_⟩
  rw [mirrored]
  simp only [getTotalPnl, counterpart]
  rw [neg_word_add, Int64.add_left_neg]

/-- A long position that is sold, half of it once more. -/
def flippingCalls : List PortfolioCall :=
  [.fill .Buy 10050 100, .mark 10080, .fill .Sell 10100 150, .mark 10075]

theorem flippingCalls_opposable : Opposable flippingCalls := by
  constructor
  · intro early before
    have each : forall early, early ∈ flippingCalls.inits -> position early ≠ Int64.minValue := by
      decide
    exact each early ((List.mem_inits early flippingCalls).mpr before)
  · intro side price qty member
    simp only [flippingCalls, List.mem_cons, PortfolioCall.fill.injEq, reduceCtorEq,
      List.not_mem_nil, or_false, false_or] at member
    rcases member with ⟨isBuy, -, isQty⟩ | ⟨isSell, -, isQty⟩
    · rw [isBuy, isQty]
      decide
    · rw [isSell, isQty]
      decide

theorem counterparties_cancel_flip :
    (after DoubleOps.exact flippingCalls).getTotalPnl = 6250 ∧
      (after DoubleOps.exact (flippingCalls.map PortfolioCall.counterpart)).getTotalPnl = -6250 := by
  have gained : (after DoubleOps.exact flippingCalls).getTotalPnl = 6250 := by decide +kernel
  have cancel := (counterparties_cancel DoubleOps.exact_odd flippingCalls_opposable).2
  rw [gained] at cancel
  apply And.intro gained
  calc (after DoubleOps.exact (flippingCalls.map PortfolioCall.counterpart)).getTotalPnl
      = (after DoubleOps.exact (flippingCalls.map PortfolioCall.counterpart)).getTotalPnl +
          6250 - 6250 := (Int64.add_sub_cancel _ _).symm
    _ = -6250 := by rw [cancel, Int64.zero_sub]

end MachinePortfolio
end NexusHft
