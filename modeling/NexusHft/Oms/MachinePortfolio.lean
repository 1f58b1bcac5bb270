import NexusHft.Oms.Portfolio
import Mathlib.Data.List.Induction

namespace NexusHft

open Foundations

/-!
# The portfolio in machine numbers

The same two operations with the words of the source.  Doubles are any type with
the operations that the source uses of them, since what is shown here does not
depend on their rounding: a fill never writes the unrealized profit, so a fill
that closes a position leaves the profit of the last mark in place.

Whether that profit is stale is seen from the calls alone.  The position is the
sum of the fills, and only a mark made of a flat position, or no mark at all, is
sure to leave nothing behind.
-/

/-- What is computed with doubles.  Nothing is assumed of these operations, so
what is proved holds for every rounding, and for exact arithmetic too. -/
structure DoubleOps (Double : Type) where
  zero : Double
  ofInt64 : Int64 -> Double
  ofUInt64 : UInt64 -> Double
  add : Double -> Double -> Double
  sub : Double -> Double -> Double
  mul : Double -> Double -> Double
  div : Double -> Double -> Double
  toInt64 : Double -> Int64

/-- Fractions, which agree with doubles where these are exact. -/
def DoubleOps.exact : DoubleOps Rat where
  zero := 0
  ofInt64 value := value.toInt
  ofUInt64 value := value.toNat
  add := (· + ·)
  sub := (· - ·)
  mul := (· * ·)
  div := (· / ·)
  toInt64 value := Int64.ofInt (truncate value)

/-- The fields of `Portfolio` with the words of the source.  Only the average
price is a double; the amounts are truncated to words after every call. -/
structure MachinePortfolio (Double : Type) where
  netPosition : Int64 := 0
  grossNotional : UInt64 := 0
  averageOpenPrice : Double
  realizedPnl : Int64 := 0
  unrealizedPnl : Int64 := 0

/-- A call of one of the two operations: a fill of one of our orders, or a new
price of the market. -/
inductive PortfolioCall where
  | fill (side : Side) (price : Price) (qty : Quantity)
  | mark (midPrice : Price)
  deriving DecidableEq, Repr

namespace MachinePortfolio

section Model

variable {Double : Type} (ops : DoubleOps Double)

def fillQty (side : Side) (qty : Quantity) : Int64 :=
  match side with
  | .Buy => qty.toInt64
  | .Sell => -qty.toInt64

def addedPrice (portfolio : MachinePortfolio Double) (fillPrice : Double) (fillQty : Int64) :
    Double :=
  let totalValue := ops.add
    (ops.mul (ops.ofInt64 portfolio.netPosition.abs) portfolio.averageOpenPrice)
    (ops.mul (ops.ofInt64 fillQty.abs) fillPrice)
  ops.div totalValue (ops.ofInt64 (portfolio.netPosition.abs + fillQty.abs))

def reducedGain (portfolio : MachinePortfolio Double) (fillPrice : Double) (fillQty : Int64) :
    Double :=
  let reduceQty := min portfolio.netPosition.abs fillQty.abs
  if portfolio.netPosition > 0 then
    ops.mul (ops.sub fillPrice portfolio.averageOpenPrice) (ops.ofInt64 reduceQty)
  else ops.mul (ops.sub portfolio.averageOpenPrice fillPrice) (ops.ofInt64 reduceQty)

def remainingPrice (portfolio : MachinePortfolio Double) (fillPrice : Double) (fillQty : Int64) :
    Double :=
  if fillQty.abs > portfolio.netPosition.abs then fillPrice
  else if fillQty.abs = portfolio.netPosition.abs then ops.zero
  else portfolio.averageOpenPrice

def processFill (portfolio : MachinePortfolio Double) (side : Side) (price : Price)
    (qty : Quantity) : MachinePortfolio Double :=
  let fillQty := fillQty side qty
  let fillPrice := ops.ofUInt64 price
  let noted := { portfolio with
    grossNotional := portfolio.grossNotional + qty * price
    netPosition := portfolio.netPosition + fillQty }
  if portfolio.netPosition = 0 then { noted with averageOpenPrice := fillPrice }
  else if (portfolio.netPosition > 0 ∧ fillQty > 0) ∨ (portfolio.netPosition < 0 ∧ fillQty < 0) then
    { noted with averageOpenPrice := addedPrice ops portfolio fillPrice fillQty }
  else
    { noted with
      realizedPnl :=
        portfolio.realizedPnl + ops.toInt64 (reducedGain ops portfolio fillPrice fillQty)
      averageOpenPrice := remainingPrice ops portfolio fillPrice fillQty }

def updateMarketPrice (portfolio : MachinePortfolio Double) (midPrice : Price) :
    MachinePortfolio Double :=
  let currentPrice := ops.ofUInt64 midPrice
  if portfolio.netPosition = 0 then { portfolio with unrealizedPnl := 0 }
  else if portfolio.netPosition > 0 then
    { portfolio with
      unrealizedPnl := ops.toInt64 (ops.mul (ops.sub currentPrice portfolio.averageOpenPrice)
        (ops.ofInt64 portfolio.netPosition)) }
  else
    { portfolio with
      unrealizedPnl := ops.toInt64 (ops.mul (ops.sub portfolio.averageOpenPrice currentPrice)
        (ops.ofInt64 portfolio.netPosition.abs)) }

def getTotalPnl (portfolio : MachinePortfolio Double) : Int64 :=
  portfolio.realizedPnl + portfolio.unrealizedPnl

def apply (portfolio : MachinePortfolio Double) : PortfolioCall -> MachinePortfolio Double
  | .fill side price qty => processFill ops portfolio side price qty
  | .mark midPrice => updateMarketPrice ops portfolio midPrice

/-- The portfolio after a sequence of calls. -/
def after (calls : List PortfolioCall) : MachinePortfolio Double :=
  calls.foldl (apply ops) { averageOpenPrice := ops.zero }

end Model

/-! ## What the calls tell -/

section Calls

/-- The position that the fills among the calls add up to, in the words of the source. -/
def position (calls : List PortfolioCall) : Int64 :=
  calls.foldl (fun position call => match call with
    | .fill side _ qty => position + fillQty side qty
    | .mark _ => position) 0

/-- The last mark, if there is any, was made of a flat position. -/
def MarkedFlat (calls : List PortfolioCall) : Prop :=
  forall early midPrice late, calls = early ++ .mark midPrice :: late ->
    (forall price, .mark price ∉ late) -> position early = 0

/-- Every fill that leaves the position flat comes after a flat mark or none. -/
def ClosesUnmarked (calls : List PortfolioCall) : Prop :=
  forall early side price qty, early ++ [.fill side price qty] <+: calls ->
    position (early ++ [.fill side price qty]) = 0 -> MarkedFlat early

theorem position_fill (calls : List PortfolioCall) (side : Side) (price : Price) (qty : Quantity) :
    position (calls ++ [.fill side price qty]) = position calls + fillQty side qty := by
  rw [position, List.foldl_append]
  rfl

theorem position_mark (calls : List PortfolioCall) (midPrice : Price) :
    position (calls ++ [.mark midPrice]) = position calls := by
  rw [position, List.foldl_append]
  rfl

/-- A fill after the last mark leaves it the last one. -/
theorem MarkedFlat.of_fill {calls : List PortfolioCall} {side : Side} {price : Price}
    {qty : Quantity} (flat : MarkedFlat (calls ++ [.fill side price qty])) : MarkedFlat calls := by
  intro early midPrice late cut last
  apply flat early midPrice (late ++ [.fill side price qty])
  · rw [cut, List.append_assoc, List.cons_append]
  · intro other member
    rcases List.mem_append.mp member with earlier | fill
    · exact last other earlier
    · exact nomatch List.mem_singleton.mp fill

theorem MarkedFlat.of_mark {calls : List PortfolioCall} {midPrice : Price}
    (flat : MarkedFlat (calls ++ [.mark midPrice])) : position calls = 0 :=
  flat calls midPrice [] rfl (fun _ member => absurd member List.not_mem_nil)

end Calls

/-! ## Flat positions -/

section Flat

variable {Double : Type} {ops : DoubleOps Double}

/-- A flat portfolio carries no unrealized profit, so its total is what is realized. -/
def FlatIsRealized (portfolio : MachinePortfolio Double) : Prop :=
  portfolio.netPosition = 0 ->
    portfolio.unrealizedPnl = 0 ∧ portfolio.getTotalPnl = portfolio.realizedPnl

theorem after_concat (calls : List PortfolioCall) (call : PortfolioCall) :
    after ops (calls ++ [call]) = apply ops (after ops calls) call := by
  rw [after, List.foldl_append]
  rfl

/-- A fill moves the position and leaves the unrealized profit as it was. -/
theorem processFill_keeps (portfolio : MachinePortfolio Double) (side : Side) (price : Price)
    (qty : Quantity) :
    (processFill ops portfolio side price qty).netPosition =
        portfolio.netPosition + fillQty side qty ∧
      (processFill ops portfolio side price qty).unrealizedPnl = portfolio.unrealizedPnl := by
  unfold processFill
  dsimp only
  split
  · exact ⟨rfl, rfl⟩
  · split <;> exact ⟨rfl, rfl⟩

/-- A mark leaves the position as it was, and clears the profit of a flat one. -/
theorem updateMarketPrice_flat (portfolio : MachinePortfolio Double) (midPrice : Price) :
    (updateMarketPrice ops portfolio midPrice).netPosition = portfolio.netPosition ∧
      (portfolio.netPosition = 0 ->
        (updateMarketPrice ops portfolio midPrice).unrealizedPnl = 0) := by
  unfold updateMarketPrice
  dsimp only
  split
  · exact ⟨rfl, fun _ => rfl⟩
  · rename_i isOpen
    split <;> exact ⟨rfl, fun flat => absurd flat isOpen⟩

theorem flatIsRealized_iff {portfolio : MachinePortfolio Double} :
    portfolio.FlatIsRealized <->
      (portfolio.netPosition = 0 -> portfolio.unrealizedPnl = 0) := by
  constructor
  · exact fun realized flat => (realized flat).1
  · intro cleared flat
    apply And.intro (cleared flat)
    rw [getTotalPnl, cleared flat, Int64.add_zero]

/-- The position of the state is the one that the calls tell. -/
theorem after_netPosition (ops : DoubleOps Double) (calls : List PortfolioCall) :
    (after ops calls).netPosition = position calls := by
  induction calls using List.reverseRecOn with
  | nil => rfl
  | append_singleton calls call inductionHypothesis =>
      rw [after_concat]
      cases call with
      | fill side price qty =>
          rw [position_fill, ← inductionHypothesis]
          exact (processFill_keeps _ side price qty).1
      | mark midPrice =>
          rw [position_mark, ← inductionHypothesis]
          exact (updateMarketPrice_flat _ midPrice).1

/-- After a flat mark, or without any, no unrealized profit is stored. -/
theorem MarkedFlat.unrealizedPnl (ops : DoubleOps Double) {calls : List PortfolioCall}
    (flat : MarkedFlat calls) : (after ops calls).unrealizedPnl = 0 := by
  induction calls using List.reverseRecOn with
  | nil => rfl
  | append_singleton calls call inductionHypothesis =>
      rw [after_concat]
      cases call with
      | fill side price qty =>
          exact (processFill_keeps _ side price qty).2.trans (inductionHypothesis flat.of_fill)
      | mark midPrice =>
          have wasFlat := (after_netPosition ops calls).trans flat.of_mark
          exact (updateMarketPrice_flat _ midPrice).2 wasFlat

/-- What one call leaves of a flat position: nothing, unless it closed one that was
marked open. -/
theorem flatIsRealized_concat {calls : List PortfolioCall} {call : PortfolioCall}
    (unmarked : ClosesUnmarked (calls ++ [call])) :
    (after ops (calls ++ [call])).FlatIsRealized := by
  apply flatIsRealized_iff.mpr
  rw [after_netPosition]
  intro flat
  cases call with
  | fill side price qty =>
      have stored := (unmarked calls side price qty (List.prefix_refl _) flat).unrealizedPnl ops
      rw [after_concat]
      exact (processFill_keeps _ side price qty).2.trans stored
  | mark midPrice =>
      rw [position_mark, ← after_netPosition ops] at flat
      rw [after_concat]
      exact (updateMarketPrice_flat _ midPrice).2 flat

theorem ClosesUnmarked.prefixed {calls stretch : List PortfolioCall}
    (unmarked : ClosesUnmarked calls) (within : stretch <+: calls) : ClosesUnmarked stretch :=
  fun early side price qty begins => unmarked early side price qty (begins.trans within)

/-- Calls that close no position marked open leave flat portfolios realized all along. -/
theorem ClosesUnmarked.flatIsRealized {calls : List PortfolioCall} (unmarked : ClosesUnmarked calls)
    {stretch : List PortfolioCall} (within : stretch <+: calls) :
    (after ops stretch).FlatIsRealized := by
  have kept := unmarked.prefixed within
  cases stretch using List.reverseRecOn with
  | nil => exact flatIsRealized_iff.mpr (fun _ => rfl)
  | append_singleton early call => exact flatIsRealized_concat kept

end Flat

/-! ## Marks that store something -/

section Stored

/-- An arithmetic in which every mark of an open position stores a profit of one. -/
def constantOps : DoubleOps Unit where
  zero := ()
  ofInt64 _ := ()
  ofUInt64 _ := ()
  add _ _ := ()
  sub _ _ := ()
  mul _ _ := ()
  div _ _ := ()
  toInt64 _ := 1

theorem mark_stores {calls : List PortfolioCall} (isOpen : position calls ≠ 0) (midPrice : Price) :
    (after constantOps (calls ++ [.mark midPrice])).unrealizedPnl = 1 := by
  rw [after_concat, apply, updateMarketPrice, after_netPosition, if_neg isOpen]
  split <;> rfl

/-- Without a further mark the stored profit stays. -/
theorem unrealizedPnl_kept {Double : Type} (ops : DoubleOps Double) (calls : List PortfolioCall)
    {late : List PortfolioCall} (unmarked : forall price, .mark price ∉ late) :
    (after ops (calls ++ late)).unrealizedPnl = (after ops calls).unrealizedPnl := by
  induction late using List.reverseRecOn with
  | nil => rw [List.append_nil]
  | append_singleton late call inductionHypothesis =>
      have before := inductionHypothesis
        (fun price member => unmarked price (List.mem_append_left [call] member))
      rw [← List.append_assoc, after_concat, ← before]
      cases call with
      | fill side price qty => exact (processFill_keeps _ side price qty).2
      | mark midPrice =>
          exact absurd (List.mem_append_right late (List.mem_singleton_self _)) (unmarked midPrice)

/-- Flat portfolios are realized all along a sequence of calls, whatever the doubles, if
and only if every fill that leaves the position flat comes after a mark made flat or
after none. -/
theorem flat_realized_iff (calls : List PortfolioCall) :
    (forall (Double : Type) (ops : DoubleOps Double) (stretch : List PortfolioCall),
      stretch <+: calls -> (after ops stretch).FlatIsRealized) <-> ClosesUnmarked calls := by
  constructor
  · intro realized early side price qty within flat marked midPrice late cut last
    by_contra isOpen
    have regroup : early ++ [.fill side price qty] =
        marked ++ [.mark midPrice] ++ (late ++ [.fill side price qty]) := by
      simp [cut]
    have unmarked : forall other, .mark other ∉ late ++ [.fill side price qty] := by
      simpa using last
    have settled := realized Unit constantOps _ within
    have none := (settled ((after_netPosition constantOps _).trans flat)).1
    rw [regroup, unrealizedPnl_kept constantOps _ unmarked, mark_stores isOpen] at none
    exact absurd none (by decide)
  · intro unmarked Double ops stretch within
    exact unmarked.flatIsRealized within

/-- Ten bought at 100 and marked at 110 are sold at 110: the position is flat and
its profit is counted twice. -/
theorem closed_keeps_mark :
    ¬ forall calls : List PortfolioCall, (after DoubleOps.exact calls).FlatIsRealized := by
  intro claimed
  have flat := claimed [.fill .Buy 100 10, .mark 110, .fill .Sell 110 10]
  revert flat
  unfold FlatIsRealized
  decide +kernel

end Stored
end MachinePortfolio
end NexusHft
