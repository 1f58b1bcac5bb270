import NexusHft.Oms.MachinePortfolio
import NexusHft.Foundations.SignedWord

namespace NexusHft

open Foundations

/-!
# The portfolio while nothing overflows

With exact fractions, the portfolio in machine numbers is the one in unbounded
integers as long as the amounts of the latter are in range.
-/

/-- The amounts that are kept in words fit their words.  Where they do, the
machine's portfolio and the exact one are the same. -/
structure Portfolio.InRange (portfolio : Portfolio) : Prop where
  netPosition : InWord portfolio.netPosition
  grossNotional : portfolio.grossNotional < 2 ^ 64
  realizedPnl : InWord portfolio.realizedPnl
  unrealizedPnl : InWord portfolio.unrealizedPnl

def PortfolioCall.exact : PortfolioCall -> Portfolio.Call
  | .fill side price qty => .fill side price.toNat qty.toNat
  | .mark midPrice => .mark midPrice.toNat

/-- A filled quantity is converted to a signed word. -/
def PortfolioCall.InRange : PortfolioCall -> Prop
  | .fill _ _ qty => qty.toNat < 2 ^ 63
  | .mark _ => True

namespace MachinePortfolio

/-- The same portfolio in both numbers: the machine's words are the integers of
the exact portfolio, and its doubles are taken to be exact. -/
structure Exact (machine : MachinePortfolio Rat) (portfolio : Portfolio) : Prop where
  netPosition : machine.netPosition.toInt = portfolio.netPosition
  grossNotional : machine.grossNotional.toNat = portfolio.grossNotional
  averageOpenPrice : machine.averageOpenPrice = portfolio.averageOpenPrice
  realizedPnl : machine.realizedPnl.toInt = portfolio.realizedPnl
  unrealizedPnl : machine.unrealizedPnl.toInt = portfolio.unrealizedPnl

theorem fillQty_toInt (side : Side) {qty : Quantity} (small : qty.toNat < 2 ^ 63) :
    (fillQty side qty).toInt = Portfolio.signedQty side qty.toNat ∧
      InWord (Portfolio.signedQty side qty.toNat) := by
  have value := toInt_toInt64 small
  have inWord : InWord qty.toInt64.toInt := by
    rw [value]
    unfold InWord
    omega
  cases side with
  | Buy =>
      apply And.intro value
      rw [value] at inWord
      exact inWord
  | Sell =>
      have negated := toInt_neg_inWord inWord
      rw [value] at negated inWord
      exact ⟨negated, Int.neg_lt_neg inWord.2, Int.neg_lt_of_neg_lt inWord.1⟩

theorem grossNotional_toNat {gross : UInt64} {price : Price} {qty : Quantity}
    (small : gross.toNat + qty.toNat * price.toNat < 2 ^ 64) :
    (gross + qty * price).toNat = gross.toNat + qty.toNat * price.toNat := by
  have product : qty.toNat * price.toNat < 2 ^ 64 := Nat.lt_of_le_of_lt (Nat.le_add_left _ _) small
  rw [UInt64.toNat_add, UInt64.toNat_mul, Nat.mod_eq_of_lt product, Nat.mod_eq_of_lt small]

section Steps

variable {machine : MachinePortfolio Rat} {portfolio : Portfolio}
  (exact : Exact machine portfolio) (inRange : portfolio.InRange)
include exact

theorem Exact.sameSide_iff {qty : Int64} :
    ((machine.netPosition > 0 ∧ qty > 0) ∨ (machine.netPosition < 0 ∧ qty < 0)) <->
      portfolio.SameSide qty.toInt := by
  rw [pos_iff_toInt, pos_iff_toInt, neg_iff_toInt, neg_iff_toInt, exact.netPosition]
  rfl

include inRange

theorem Exact.addedPrice {qty : Int64} (sameSide : portfolio.SameSide qty.toInt)
    (small : InWord qty.toInt) (sum : InWord (portfolio.netPosition + qty.toInt)) (price : Rat) :
    MachinePortfolio.addedPrice DoubleOps.exact machine price qty =
      portfolio.addedPrice price qty.toInt := by
  have position := exact.netPosition
  have positionAbs := toInt_abs_inWord (position ▸ inRange.netPosition)
  have qtyAbs := toInt_abs_inWord small
  have magnitudes : InWord (machine.netPosition.abs.toInt + qty.abs.toInt) := by
    rw [positionAbs, qtyAbs, position]
    unfold InWord at sum ⊢
    rcases sameSide with ⟨long, bought⟩ | ⟨short, sold⟩
    · rw [abs_of_pos long, abs_of_pos bought]
      omega
    · rw [abs_of_neg short, abs_of_neg sold]
      omega
  simp only [MachinePortfolio.addedPrice, Portfolio.addedPrice, DoubleOps.exact,
    toInt_add_inWord magnitudes, positionAbs, qtyAbs, position, exact.averageOpenPrice]
  push_cast
  rfl

theorem Exact.reducedGain {qty : Int64} (small : InWord qty.toInt) (price : Rat) :
    MachinePortfolio.reducedGain DoubleOps.exact machine price qty =
      portfolio.reducedGain price qty.toInt := by
  have position := exact.netPosition
  have positionAbs := toInt_abs_inWord (position ▸ inRange.netPosition)
  have qtyAbs := toInt_abs_inWord small
  simp only [MachinePortfolio.reducedGain, Portfolio.reducedGain, DoubleOps.exact, toInt_min,
    positionAbs, qtyAbs, position, exact.averageOpenPrice, pos_iff_toInt]

theorem Exact.remainingPrice {qty : Int64} (small : InWord qty.toInt) (price : Rat) :
    MachinePortfolio.remainingPrice DoubleOps.exact machine price qty =
      portfolio.remainingPrice price qty.toInt := by
  have position := exact.netPosition
  have positionAbs := toInt_abs_inWord (position ▸ inRange.netPosition)
  have qtyAbs := toInt_abs_inWord small
  have larger : qty.abs > machine.netPosition.abs <-> |qty.toInt| > |portfolio.netPosition| := by
    rw [gt_iff_lt, Int64.lt_iff_toInt_lt, positionAbs, qtyAbs, position]
  have equal : qty.abs = machine.netPosition.abs <-> |qty.toInt| = |portfolio.netPosition| := by
    rw [← Int64.toInt_inj, positionAbs, qtyAbs, position]
  simp only [MachinePortfolio.remainingPrice, Portfolio.remainingPrice, larger, equal,
    exact.averageOpenPrice]
  rfl

/-- A fill within range is the same in both numbers.  Each amount of the new
portfolio has to be in range, not what is computed on the way to it. -/
theorem Exact.processFill (side : Side) (price : Price) {qty : Quantity}
    (small : qty.toNat < 2 ^ 63)
    (after : (portfolio.processFill side price.toNat qty.toNat).InRange) :
    Exact (MachinePortfolio.processFill DoubleOps.exact machine side price qty)
      (portfolio.processFill side price.toNat qty.toNat) := by
  rcases fillQty_toInt side small with ⟨signed, signedInWord⟩
  rcases Portfolio.processFill_notes portfolio side price.toNat qty.toNat with ⟨position, gross⟩
  have sum := after.netPosition
  have notional := after.grossNotional
  rw [position, ← signed] at sum
  rw [gross, ← exact.grossNotional] at notional
  rw [← signed] at signedInWord
  have netPosition : (machine.netPosition + fillQty side qty).toInt =
      portfolio.netPosition + Portfolio.signedQty side qty.toNat := by
    rw [← exact.netPosition] at sum
    rw [toInt_add_inWord sum, exact.netPosition, signed]
  have grossNotional : (machine.grossNotional + qty * price).toNat =
      portfolio.grossNotional + qty.toNat * price.toNat := by
    rw [grossNotional_toNat notional, exact.grossNotional]
  have flat : machine.netPosition = 0 <-> portfolio.netPosition = 0 := by
    rw [eq_zero_iff_toInt, exact.netPosition]
  unfold MachinePortfolio.processFill
  unfold Portfolio.processFill at after ⊢
  dsimp only at after ⊢
  rw [← signed] at netPosition after ⊢
  by_cases isFlat : portfolio.netPosition = 0
  · rw [if_pos isFlat, if_pos (flat.mpr isFlat)]
    exact ⟨netPosition, grossNotional, rfl, exact.realizedPnl, exact.unrealizedPnl⟩
  · rw [if_neg isFlat] at after ⊢
    rw [if_neg (mt flat.mp isFlat)]
    by_cases sameSide : portfolio.SameSide (fillQty side qty).toInt
    · rw [if_pos sameSide, if_pos (exact.sameSide_iff.mpr sameSide)]
      exact ⟨netPosition, grossNotional, exact.addedPrice inRange sameSide signedInWord sum _,
        exact.realizedPnl, exact.unrealizedPnl⟩
    · rw [if_neg sameSide] at after ⊢
      rw [if_neg (mt exact.sameSide_iff.mp sameSide)]
      have realized := after.realizedPnl
      dsimp only at realized
      refine ⟨netPosition, grossNotional, exact.remainingPrice inRange signedInWord _, ?_,
        exact.unrealizedPnl⟩
      dsimp only
      rw [exact.reducedGain inRange signedInWord]
      rw [← exact.realizedPnl] at realized
      exact (toInt_add_ofInt realized).trans (congrArg (· + _) exact.realizedPnl)

/-- A mark within range is the same in both numbers. -/
theorem Exact.updateMarketPrice (midPrice : Price)
    (after : (portfolio.updateMarketPrice midPrice.toNat).InRange) :
    Exact (MachinePortfolio.updateMarketPrice DoubleOps.exact machine midPrice)
      (portfolio.updateMarketPrice midPrice.toNat) := by
  have position := exact.netPosition
  have positionAbs := toInt_abs_inWord (position ▸ inRange.netPosition)
  have flat : machine.netPosition = 0 <-> portfolio.netPosition = 0 := by
    rw [eq_zero_iff_toInt, position]
  have long : machine.netPosition > 0 <-> portfolio.netPosition > 0 := by
    rw [pos_iff_toInt, position]
  have unrealized := after.unrealizedPnl
  unfold MachinePortfolio.updateMarketPrice
  unfold Portfolio.updateMarketPrice at unrealized ⊢
  dsimp only at unrealized ⊢
  by_cases isFlat : portfolio.netPosition = 0
  · rw [if_pos isFlat, if_pos (flat.mpr isFlat)]
    exact ⟨position, exact.grossNotional, exact.averageOpenPrice, exact.realizedPnl, rfl⟩
  · rw [if_neg isFlat] at unrealized ⊢
    rw [if_neg (mt flat.mp isFlat)]
    by_cases isLong : portfolio.netPosition > 0
    · rw [if_pos isLong] at unrealized ⊢
      rw [if_pos (long.mpr isLong)]
      refine ⟨position, exact.grossNotional, exact.averageOpenPrice, exact.realizedPnl, ?_⟩
      simp only [DoubleOps.exact, exact.averageOpenPrice, position]
      exact toInt_ofInt_inWord unrealized
    · rw [if_neg isLong] at unrealized ⊢
      rw [if_neg (mt long.mp isLong)]
      refine ⟨position, exact.grossNotional, exact.averageOpenPrice, exact.realizedPnl, ?_⟩
      simp only [DoubleOps.exact, exact.averageOpenPrice, positionAbs, position]
      exact toInt_ofInt_inWord unrealized

theorem Exact.apply (call : PortfolioCall) (small : call.InRange)
    (after : (portfolio.apply call.exact).InRange) :
    Exact (MachinePortfolio.apply DoubleOps.exact machine call) (portfolio.apply call.exact) := by
  cases call with
  | fill side price qty => exact exact.processFill inRange side price small after
  | mark midPrice => exact exact.updateMarketPrice inRange midPrice after

end Steps

/-- Calls after which all amounts are in range are the same in both numbers. -/
theorem exact_after (calls : List PortfolioCall)
    (small : forall call, call ∈ calls -> call.InRange)
    (inRange : forall stretch, stretch <+: calls ->
      (Portfolio.after (stretch.map PortfolioCall.exact)).InRange) :
    Exact (after DoubleOps.exact calls) (Portfolio.after (calls.map PortfolioCall.exact)) := by
  induction calls using List.reverseRecOn with
  | nil => exact ⟨rfl, rfl, rfl, rfl, rfl⟩
  | append_singleton early call inductionHypothesis =>
      have earlier := inductionHypothesis
        (fun call listed => small call (List.mem_append_left _ listed))
        (fun stretch within => inRange stretch (within.trans (List.prefix_append _ _)))
      have before := inRange early (List.prefix_append _ _)
      have now := inRange (early ++ [call]) (List.prefix_refl _)
      rw [List.map_append, List.map_singleton, Portfolio.after_concat] at now ⊢
      rw [after_concat]
      exact earlier.apply before call (small call (by simp)) now

end MachinePortfolio
end NexusHft
