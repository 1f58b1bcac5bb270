import NexusHft.Oms.Portfolio
import Mathlib.Tactic.FieldSimp
import Mathlib.Tactic.Ring

namespace NexusHft

open Foundations

/-!
# Profit and loss against the cash account

The exact account of a sequence of fills is its cash, what was received less
what was paid, together with the position.  Valued at the average open price it
is the profit realized so far: opening and adding move value from cash into the
position, and a fill against the position releases its gain.  The stored profit
follows this value up to the truncation of each gain.
-/

namespace Portfolio

/-! ## The exact account -/

def Call.boughtQty : Call -> Nat
  | .fill .Buy _ qty => qty
  | _ => 0

def Call.soldQty : Call -> Nat
  | .fill .Sell _ qty => qty
  | _ => 0

def Call.paid : Call -> Nat
  | .fill .Buy price qty => price * qty
  | _ => 0

def Call.received : Call -> Nat
  | .fill .Sell price qty => price * qty
  | _ => 0

/-- The sum of a quantity over calls. -/
def sumOf (measure : Call -> Nat) (calls : List Call) : Nat := (calls.map measure).sum

/-- The call reduces, closes or flips the position. -/
def Reduces (portfolio : Portfolio) : Call -> Prop
  | .fill side _ qty => portfolio.netPosition * signedQty side qty < 0
  | .mark _ => False

instance (portfolio : Portfolio) (call : Call) : Decidable (portfolio.Reduces call) := by
  cases call with
  | fill side price qty => exact inferInstanceAs (Decidable (_ < _))
  | mark midPrice => exact inferInstanceAs (Decidable False)

/-- How many of the calls reduce, close or flip the position they meet. -/
def reductions : Portfolio -> List Call -> Nat
  | _, [] => 0
  | portfolio, call :: calls =>
      (if portfolio.Reduces call then 1 else 0) + reductions (portfolio.apply call) calls

/-- The cash of an account together with its position at the average open price. -/
def value (portfolio : Portfolio) (cash : Int) : Rat :=
  cash + portfolio.netPosition * portfolio.averageOpenPrice

/-- The exact gain that a call releases. -/
def released (portfolio : Portfolio) : Call -> Rat
  | .fill side price qty =>
      if portfolio.netPosition = 0 ∨ portfolio.SameSide (signedQty side qty) then 0
      else portfolio.reducedGain price (signedQty side qty)
  | .mark _ => 0

/-- What a call does to the cash. -/
def cashFlow (call : Call) : Int := call.received - call.paid

theorem cashFlow_fill (side : Side) (price qty : Nat) :
    cashFlow (.fill side price qty) = -(signedQty side qty * price) := by
  cases side with
  | Buy =>
      change (0 : Int) - (price * qty : Nat) = -((qty : Int) * price)
      push_cast
      ring
  | Sell =>
      change ((price * qty : Nat) : Int) - 0 = -(-(qty : Int) * price)
      push_cast
      ring

theorem signedQty_eq (side : Side) (price qty : Nat) :
    signedQty side qty = (Call.fill side price qty).boughtQty - (Call.fill side price qty).soldQty := by
  cases side with
  | Buy => exact (sub_zero _).symm
  | Sell => exact (zero_sub _).symm

/-- Marking to market changes the unrealized profit only. -/
theorem updateMarketPrice_keeps (portfolio : Portfolio) (midPrice : Nat) :
    Exists fun unrealized =>
      portfolio.updateMarketPrice midPrice = { portfolio with unrealizedPnl := unrealized } := by
  unfold updateMarketPrice
  dsimp only
  split
  · exact ⟨_, rfl⟩
  · split <;> exact ⟨_, rfl⟩

/-! ## One call -/

section Step

variable {portfolio : Portfolio} {fillPrice : Rat} {fillQty : Int}

/-- Adding averages: the two parts of the position keep what they were bought for. -/
theorem addedPrice_value (sameSide : portfolio.SameSide fillQty) :
    (portfolio.netPosition + fillQty) * portfolio.addedPrice fillPrice fillQty =
      portfolio.netPosition * portfolio.averageOpenPrice + fillQty * fillPrice := by
  unfold addedPrice
  rcases sameSide with ⟨long, buys⟩ | ⟨short, sells⟩
  · have longQ : (0 : Rat) < portfolio.netPosition := Int.cast_pos.mpr long
    have buysQ : (0 : Rat) < fillQty := Int.cast_pos.mpr buys
    have nonzero : (portfolio.netPosition + fillQty : Rat) ≠ 0 := by linarith
    simp only [abs_of_pos long, abs_of_pos buys]
    field_simp
  · have shortQ : (portfolio.netPosition : Rat) < 0 := Int.cast_lt_zero.mpr short
    have sellsQ : (fillQty : Rat) < 0 := Int.cast_lt_zero.mpr sells
    have nonzero : (portfolio.netPosition + fillQty : Rat) ≠ 0 := by linarith
    have flipped : (-portfolio.netPosition + -fillQty : Rat) ≠ 0 := by linarith
    simp only [abs_of_neg short, abs_of_neg sells, Int.cast_neg]
    field_simp
    ring

/-- A fill against a position: what it takes back is sold at the fill price
instead of the average, and what it opens on the other side starts at the fill
price. -/
theorem remainingPrice_value (isOpen : portfolio.netPosition ≠ 0)
    (against : ¬ portfolio.SameSide fillQty) :
    (portfolio.netPosition + fillQty) * portfolio.remainingPrice fillPrice fillQty =
      portfolio.netPosition * portfolio.averageOpenPrice + fillQty * fillPrice +
        portfolio.reducedGain fillPrice fillQty := by
  unfold remainingPrice reducedGain
  rcases lt_or_gt_of_ne isOpen with short | long
  · have buys : 0 ≤ fillQty := not_lt.mp (fun sells => against (Or.inr ⟨short, sells⟩))
    rw [if_neg (not_lt.mpr (le_of_lt short)), abs_of_neg short, abs_of_nonneg buys]
    rcases lt_trichotomy fillQty (-portfolio.netPosition) with reduces | closes | flips
    · rw [if_neg (not_lt.mpr (le_of_lt reduces)), if_neg (ne_of_lt reduces),
        min_eq_right (le_of_lt reduces)]
      ring
    · rw [if_neg (not_lt.mpr (le_of_eq closes)), if_pos closes, min_eq_right (le_of_eq closes),
        closes]
      push_cast
      ring
    · rw [if_pos flips, min_eq_left (le_of_lt flips)]
      push_cast
      ring
  · have sells : fillQty ≤ 0 := not_lt.mp (fun buys => against (Or.inl ⟨long, buys⟩))
    rw [if_pos long, abs_of_pos long, abs_of_nonpos sells]
    rcases lt_trichotomy (-fillQty) portfolio.netPosition with reduces | closes | flips
    · rw [if_neg (not_lt.mpr (le_of_lt reduces)), if_neg (ne_of_lt reduces),
        min_eq_right (le_of_lt reduces)]
      push_cast
      ring
    · rw [if_neg (not_lt.mpr (le_of_eq closes)), if_pos closes, min_eq_right (le_of_eq closes),
        ← closes]
      push_cast
      ring
    · rw [if_pos flips, min_eq_left (le_of_lt flips)]
      ring

/-- A call moves value between cash and position, and releases its gain.  Summed
over a run this is the accounting identity of the portfolio. -/
theorem apply_value (portfolio : Portfolio) (cash : Int) (call : Call) :
    (portfolio.apply call).value (cash + cashFlow call) =
      portfolio.value cash + portfolio.released call := by
  cases call with
  | mark midPrice =>
      have flow : cashFlow (.mark midPrice) = 0 := rfl
      rcases portfolio.updateMarketPrice_keeps midPrice with ⟨unrealized, same⟩
      rw [flow, add_zero, released, add_zero, apply, same]
      rfl
  | fill side price qty =>
      rw [cashFlow_fill, apply, processFill, released, value, value]
      generalize signedQty side qty = fillQty
      by_cases flat : portfolio.netPosition = 0
      · rw [if_pos flat, if_pos (Or.inl flat), flat]
        push_cast
        ring
      by_cases sameSide : portfolio.SameSide fillQty
      · have added := @addedPrice_value portfolio price fillQty sameSide
        rw [if_neg flat, if_pos sameSide, if_pos (Or.inr sameSide)]
        push_cast
        linarith
      · have remaining := @remainingPrice_value portfolio price fillQty flat sameSide
        rw [if_neg flat, if_neg sameSide, if_neg (not_or.mpr ⟨flat, sameSide⟩)]
        push_cast
        linarith

/-- Only the gain is truncated. -/
theorem apply_realized (portfolio : Portfolio) (call : Call) :
    (portfolio.apply call).realizedPnl = portfolio.realizedPnl + truncate (portfolio.released call) := by
  have nothing : truncate 0 = 0 := truncate_intCast 0
  cases call with
  | mark midPrice =>
      rcases portfolio.updateMarketPrice_keeps midPrice with ⟨unrealized, same⟩
      rw [released, nothing, add_zero, apply, same]
  | fill side price qty =>
      rw [apply, processFill, released]
      by_cases flat : portfolio.netPosition = 0
      · rw [if_pos flat, if_pos (Or.inl flat), nothing, add_zero]
      by_cases sameSide : portfolio.SameSide (signedQty side qty)
      · rw [if_neg flat, if_pos sameSide, if_pos (Or.inr sameSide), nothing, add_zero]
      · rw [if_neg flat, if_neg sameSide, if_neg (not_or.mpr ⟨flat, sameSide⟩)]

example : (after [.fill .Buy 100 10, .fill .Sell 110 5, .fill .Sell 90 5, .fill .Sell 100 10,
    .fill .Buy 90 10]).realizedPnl = 100 := by decide +kernel

/-- A call that takes nothing back releases nothing; this includes a fill of
quantity zero, which goes through the branch of the reducing fills. -/
theorem released_eq_zero {call : Call} (keeps : ¬ portfolio.Reduces call) :
    portfolio.released call = 0 := by
  cases call with
  | mark midPrice => rfl
  | fill side price qty =>
      rw [released]
      split
      · rfl
      rename_i against
      rcases not_or.mp against with ⟨isOpen, otherSide⟩
      have nothing : signedQty side qty = 0 := by
        by_contra filled
        apply keeps
        rcases lt_or_gt_of_ne isOpen with short | long
        · rcases lt_or_gt_of_ne filled with sells | buys
          · exact absurd (Or.inr ⟨short, sells⟩) otherSide
          · exact mul_neg_of_neg_of_pos short buys
        · rcases lt_or_gt_of_ne filled with sells | buys
          · exact mul_neg_of_pos_of_neg long sells
          · exact absurd (Or.inl ⟨long, buys⟩) otherSide
      rw [reducedGain, nothing, abs_zero, min_eq_right (abs_nonneg _)]
      simp

theorem apply_netPosition (portfolio : Portfolio) (call : Call) :
    (portfolio.apply call).netPosition = portfolio.netPosition + (call.boughtQty - call.soldQty) := by
  cases call with
  | mark midPrice =>
      rcases portfolio.updateMarketPrice_keeps midPrice with ⟨unrealized, same⟩
      rw [apply, same]
      exact (add_zero _).symm
  | fill side price qty =>
      rw [apply, processFill, signedQty_eq side price qty]
      split
      · rfl
      · split <;> rfl

end Step

/-! ## Whole sequences -/

section Sequence

theorem sumOf_cons (measure : Call -> Nat) (call : Call) (calls : List Call) :
    sumOf measure (call :: calls) = measure call + sumOf measure calls := rfl

theorem foldl_netPosition (portfolio : Portfolio) (calls : List Call) :
    (calls.foldl apply portfolio).netPosition = portfolio.netPosition +
      (sumOf Call.boughtQty calls - sumOf Call.soldQty calls) := by
  induction calls generalizing portfolio with
  | nil => exact (add_zero _).symm
  | cons call calls inductionHypothesis =>
      rw [List.foldl_cons, inductionHypothesis, apply_netPosition, sumOf_cons, sumOf_cons]
      push_cast
      ring

/-- The stored profit stays as close to the exact one as there are truncations,
each of which loses less than one unit. -/
theorem foldl_drift (portfolio : Portfolio) (cash : Int) (calls : List Call) {bound : Rat}
    (near : |portfolio.realizedPnl - portfolio.value cash| ≤ bound) :
    |(calls.foldl apply portfolio).realizedPnl - (calls.foldl apply portfolio).value
        (cash + (sumOf Call.received calls - sumOf Call.paid calls))| ≤
      bound + reductions portfolio calls := by
  induction calls generalizing portfolio cash bound with
  | nil =>
      have same : cash + ((sumOf Call.received [] : Int) - sumOf Call.paid []) = cash := add_zero cash
      rw [reductions, Nat.cast_zero, add_zero, same]
      exact near
  | cons call calls inductionHypothesis =>
      have step : |(portfolio.apply call).realizedPnl -
          (portfolio.apply call).value (cash + cashFlow call)| ≤
            bound + (if portfolio.Reduces call then 1 else 0 : Nat) := by
        rw [apply_value, apply_realized]
        by_cases reduces : portfolio.Reduces call
        · have lost := abs_lt.mp (abs_truncate_sub_lt (portfolio.released call))
          have within := abs_le.mp near
          rw [if_pos reduces, abs_le]
          push_cast
          constructor <;> linarith
        · have nothing : truncate 0 = 0 := truncate_intCast 0
          rw [if_neg reduces, released_eq_zero reduces, nothing, add_zero, add_zero, Nat.cast_zero,
            add_zero]
          exact near
      have rest := inductionHypothesis _ _ step
      rw [List.foldl_cons, reductions, sumOf_cons, sumOf_cons]
      have flow : cash + cashFlow call + (sumOf Call.received calls - sumOf Call.paid calls) =
          cash + (((call.received + sumOf Call.received calls : Nat) : Int) -
            ((call.paid + sumOf Call.paid calls : Nat) : Int)) := by
        rw [cashFlow]
        push_cast
        ring
      rw [flow] at rest
      push_cast at rest ⊢
      linarith

/-- Marking to market values the position at the market price, up to one truncation. -/
theorem updateMarketPrice_near (portfolio : Portfolio) (midPrice : Nat) :
    |((portfolio.updateMarketPrice midPrice).unrealizedPnl : Rat) -
      portfolio.netPosition * (midPrice - portfolio.averageOpenPrice)| < 1 := by
  unfold updateMarketPrice
  rcases lt_trichotomy portfolio.netPosition 0 with short | flat | long
  · have exact : portfolio.netPosition * ((midPrice : Rat) - portfolio.averageOpenPrice) =
        (portfolio.averageOpenPrice - midPrice) * (|portfolio.netPosition| : Int) := by
      rw [abs_of_neg short]
      push_cast
      ring
    rw [if_neg (ne_of_lt short), if_neg (not_lt.mpr (le_of_lt short)), exact]
    exact abs_truncate_sub_lt _
  · rw [if_pos flat, flat]
    simp
  · have exact : portfolio.netPosition * ((midPrice : Rat) - portfolio.averageOpenPrice) =
        (midPrice - portfolio.averageOpenPrice) * portfolio.netPosition := mul_comm _ _
    rw [if_neg (ne_of_gt long), if_pos long, exact]
    exact abs_truncate_sub_lt _

/-- After any calls and a last mark to market, the position is what was bought
less what was sold, and the total profit is the cash and the position at the
market price, up to less than one unit for each fill that reduced, closed or
flipped a position and one for the mark. -/
theorem total_pnl_near (calls : List Call) (midPrice : Nat) :
    (after (calls ++ [.mark midPrice])).netPosition =
        sumOf Call.boughtQty calls - sumOf Call.soldQty calls ∧
      |((after (calls ++ [.mark midPrice])).getTotalPnl : Rat) -
        (sumOf Call.received calls - sumOf Call.paid calls +
          (after (calls ++ [.mark midPrice])).netPosition * midPrice)| <
        reductions {} calls + 1 := by
  have net := foldl_netPosition {} calls
  have drift := @foldl_drift {} 0 calls 0 (by simp [value])
  have marked := updateMarketPrice_near (calls.foldl apply {}) midPrice
  rcases (calls.foldl apply {}).updateMarketPrice_keeps midPrice with ⟨unrealized, same⟩
  have last : after (calls ++ [.mark midPrice]) =
      { calls.foldl apply {} with unrealizedPnl := unrealized } := by
    rw [after, List.foldl_append]
    exact same
  rw [same] at marked
  rw [last]
  refine ⟨net.trans (zero_add _), ?_⟩
  rw [value, zero_add, zero_add, abs_le] at drift
  rw [abs_lt] at marked ⊢
  rw [getTotalPnl]
  push_cast at drift marked ⊢
  constructor <;> linarith

end Sequence
end Portfolio
end NexusHft
