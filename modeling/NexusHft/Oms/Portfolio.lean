import NexusHft.Core.Types
import NexusHft.Foundations.Truncation

namespace NexusHft

open Foundations

/-!
# The portfolio

`process_fill` and `update_market_price`, with fractions in place of doubles and
unbounded integers in place of machine words.  Prices and quantities are
natural numbers; a position is negative when it is short.
-/

/-- The fields of `Portfolio` in exact numbers.  The position is signed, and the
average price is that of what is open. -/
structure Portfolio where
  netPosition : Int := 0
  grossNotional : Nat := 0
  averageOpenPrice : Rat := 0
  realizedPnl : Int := 0
  unrealizedPnl : Int := 0
  deriving DecidableEq, Repr

namespace Portfolio

def signedQty (side : Side) (qty : Nat) : Int :=
  match side with
  | .Buy => qty
  | .Sell => -qty

/-- Neither flat nor on the other side of the fill. -/
def SameSide (portfolio : Portfolio) (fillQty : Int) : Prop :=
  (portfolio.netPosition > 0 ∧ fillQty > 0) ∨ (portfolio.netPosition < 0 ∧ fillQty < 0)

instance (portfolio : Portfolio) (fillQty : Int) : Decidable (portfolio.SameSide fillQty) :=
  inferInstanceAs (Decidable (_ ∨ _))

/-- The average price after adding to a position. -/
def addedPrice (portfolio : Portfolio) (fillPrice : Rat) (fillQty : Int) : Rat :=
  let totalValue := |portfolio.netPosition| * portfolio.averageOpenPrice + |fillQty| * fillPrice
  totalValue / (|portfolio.netPosition| + |fillQty|)

/-- The profit on the part of the position that a fill takes back, before it is
truncated. -/
def reducedGain (portfolio : Portfolio) (fillPrice : Rat) (fillQty : Int) : Rat :=
  let reduceQty := min |portfolio.netPosition| |fillQty|
  if portfolio.netPosition > 0 then (fillPrice - portfolio.averageOpenPrice) * reduceQty
  else (portfolio.averageOpenPrice - fillPrice) * reduceQty

/-- The average price after a fill against the position. -/
def remainingPrice (portfolio : Portfolio) (fillPrice : Rat) (fillQty : Int) : Rat :=
  if |fillQty| > |portfolio.netPosition| then fillPrice
  else if |fillQty| = |portfolio.netPosition| then 0
  else portfolio.averageOpenPrice

def processFill (portfolio : Portfolio) (side : Side) (price qty : Nat) : Portfolio :=
  let fillQty := signedQty side qty
  let fillPrice : Rat := price
  let noted := { portfolio with
    grossNotional := portfolio.grossNotional + qty * price
    netPosition := portfolio.netPosition + fillQty }
  if portfolio.netPosition = 0 then { noted with averageOpenPrice := fillPrice }
  else if portfolio.SameSide fillQty then
    { noted with averageOpenPrice := portfolio.addedPrice fillPrice fillQty }
  else
    { noted with
      realizedPnl := portfolio.realizedPnl + truncate (portfolio.reducedGain fillPrice fillQty)
      averageOpenPrice := portfolio.remainingPrice fillPrice fillQty }

def updateMarketPrice (portfolio : Portfolio) (midPrice : Nat) : Portfolio :=
  let currentPrice : Rat := midPrice
  if portfolio.netPosition = 0 then { portfolio with unrealizedPnl := 0 }
  else if portfolio.netPosition > 0 then
    { portfolio with
      unrealizedPnl :=
        truncate ((currentPrice - portfolio.averageOpenPrice) * portfolio.netPosition) }
  else
    { portfolio with
      unrealizedPnl :=
        truncate ((portfolio.averageOpenPrice - currentPrice) * |portfolio.netPosition|) }

def getTotalPnl (portfolio : Portfolio) : Int := portfolio.realizedPnl + portfolio.unrealizedPnl

/-- A call of one of the two operations, with prices and quantities of any size.
-/
inductive Call where
  | fill (side : Side) (price qty : Nat)
  | mark (midPrice : Nat)
  deriving DecidableEq, Repr

def apply (portfolio : Portfolio) : Call -> Portfolio
  | .fill side price qty => portfolio.processFill side price qty
  | .mark midPrice => portfolio.updateMarketPrice midPrice

/-- The portfolio after a sequence of calls. -/
def after (calls : List Call) : Portfolio := calls.foldl apply {}

theorem after_concat (calls : List Call) (call : Call) :
    after (calls ++ [call]) = (after calls).apply call := by
  rw [after, List.foldl_append]
  rfl

/-- What every fill notes. -/
theorem processFill_notes (portfolio : Portfolio) (side : Side) (price qty : Nat) :
    (portfolio.processFill side price qty).netPosition =
        portfolio.netPosition + signedQty side qty ∧
      (portfolio.processFill side price qty).grossNotional =
        portfolio.grossNotional + qty * price := by
  unfold processFill
  dsimp only
  split
  · exact ⟨rfl, rfl⟩
  · split <;> exact ⟨rfl, rfl⟩

end Portfolio
end NexusHft
