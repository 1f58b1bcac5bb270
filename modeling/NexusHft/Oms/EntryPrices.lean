import NexusHft.Oms.ProfitAndLoss
import Mathlib.Data.List.Induction
import Mathlib.Tactic.Linarith

namespace NexusHft

open Foundations

/-!
# The average open price and the entry prices

The entries of a position are the fills on its side since it was last flat or on
the other side, the fill that opened or flipped it included.  A fill opens or
flips the position at its own price, averages its price in, takes something back
without touching the average, or closes the position; the average therefore
never leaves the range of the entries.

The division that averages is total on fractions, with zero for a zero divisor.
That the source never divides by zero is therefore shown of a second reading of
`process_fill`, whose division fails where the divisor is zero.
-/

namespace Portfolio

/-- A fill at this price, of positive quantity and on the side of the position,
after which the position has always had the sign it has now. -/
def IsEntry (calls : List Call) (price : Nat) : Prop :=
  Exists fun early => Exists fun side => Exists fun qty =>
    early ++ [.fill side price qty] <+: calls ∧ 0 < qty ∧
      (signedQty side qty).sign = (after calls).netPosition.sign ∧
      forall stretch, early ++ [.fill side price qty] <+: stretch -> stretch <+: calls ->
        (after stretch).netPosition.sign = (after calls).netPosition.sign

/-! ## One fill -/

/-- The larger of two quantities decides the sign of their sum. -/
theorem sign_add_of_abs_lt {larger smaller : Int} (less : |smaller| < |larger|) :
    (larger + smaller).sign = larger.sign := by
  rw [abs_lt] at less
  rcases lt_trichotomy larger 0 with negative | zero | positive
  · rw [abs_of_neg negative] at less
    rw [Int.sign_eq_neg_one_of_neg negative, Int.sign_eq_neg_one_of_neg (by omega)]
  · rw [zero, abs_zero] at less
    omega
  · rw [abs_of_pos positive] at less
    rw [Int.sign_eq_one_of_pos positive, Int.sign_eq_one_of_pos (by omega)]

theorem sameSide_of_eq {portfolio : Portfolio} {fillQty : Int}
    (isOpen : portfolio.netPosition ≠ 0) (same : fillQty = portfolio.netPosition) :
    portfolio.SameSide fillQty := by
  rw [same]
  rcases lt_or_gt_of_ne isOpen with short | long
  · exact Or.inr ⟨short, short⟩
  · exact Or.inl ⟨long, long⟩

section Fill

variable {portfolio : Portfolio} {side : Side} {price qty : Nat}

/-- What a fill does to the position and its average price: it opens or flips,
adds, reduces, or closes. -/
theorem processFill_cases (portfolio : Portfolio) (side : Side) (price qty : Nat) :
    ((portfolio.processFill side price qty).averageOpenPrice = price ∧
      (portfolio.processFill side price qty).netPosition.sign = (signedQty side qty).sign) ∨
    (portfolio.SameSide (signedQty side qty) ∧
      (portfolio.processFill side price qty).averageOpenPrice =
        portfolio.addedPrice price (signedQty side qty)) ∨
    ((portfolio.processFill side price qty).averageOpenPrice = portfolio.averageOpenPrice ∧
      (portfolio.processFill side price qty).netPosition.sign = portfolio.netPosition.sign) ∨
    (portfolio.processFill side price qty).netPosition = 0 := by
  unfold processFill
  generalize signedQty side qty = fillQty
  by_cases flat : portfolio.netPosition = 0
  · rw [if_pos flat, flat, zero_add]
    exact Or.inl ⟨rfl, rfl⟩
  by_cases sameSide : portfolio.SameSide fillQty
  · rw [if_neg flat, if_pos sameSide]
    exact Or.inr (Or.inl ⟨sameSide, rfl⟩)
  rw [if_neg flat, if_neg sameSide]
  dsimp only
  unfold remainingPrice
  rcases lt_trichotomy |fillQty| |portfolio.netPosition| with reduces | closes | flips
  · rw [if_neg (not_lt.mpr (le_of_lt reduces)), if_neg (ne_of_lt reduces)]
    exact Or.inr (Or.inr (Or.inl ⟨rfl, sign_add_of_abs_lt reduces⟩))
  · rcases abs_eq_abs.mp closes with same | opposite
    · exact absurd (sameSide_of_eq flat same) sameSide
    · rw [opposite, add_neg_cancel]
      exact Or.inr (Or.inr (Or.inr rfl))
  · rw [if_pos flips, add_comm]
    exact Or.inl ⟨rfl, sign_add_of_abs_lt flips⟩

/-- A fill that only takes something back leaves the average price alone. -/
theorem processFill_reduces (against : ¬ portfolio.SameSide (signedQty side qty))
    (less : |signedQty side qty| < |portfolio.netPosition|) (price : Nat) :
    (portfolio.processFill side price qty).averageOpenPrice = portfolio.averageOpenPrice := by
  have isOpen : portfolio.netPosition ≠ 0 := by
    intro flat
    rw [flat, abs_zero] at less
    exact absurd less (not_lt.mpr (abs_nonneg _))
  rw [processFill, if_neg isOpen, if_neg against]
  dsimp only
  rw [remainingPrice, if_neg (not_lt.mpr (le_of_lt less)), if_neg (ne_of_lt less)]

section Added

variable {fillQty : Int} (sameSide : portfolio.SameSide fillQty)
include sameSide

theorem added_pos :
    (0 : Rat) < (|portfolio.netPosition| : Int) ∧ (0 : Rat) < (|fillQty| : Int) := by
  rcases sameSide with ⟨long, buys⟩ | ⟨short, sells⟩
  · exact ⟨Int.cast_pos.mpr (abs_pos_of_pos long), Int.cast_pos.mpr (abs_pos_of_pos buys)⟩
  · exact ⟨Int.cast_pos.mpr (abs_pos_of_neg short), Int.cast_pos.mpr (abs_pos_of_neg sells)⟩

/-- What bounds both the average and the price of an added fill from below bounds
the new average. -/
theorem le_addedPrice {low fillPrice : Rat} (average : low ≤ portfolio.averageOpenPrice)
    (price : low ≤ fillPrice) : low ≤ portfolio.addedPrice fillPrice fillQty := by
  rcases added_pos sameSide with ⟨position, filled⟩
  rw [addedPrice, le_div_iff₀ (by linarith), mul_add, mul_comm low, mul_comm low]
  exact add_le_add (mul_le_mul_of_nonneg_left average position.le)
    (mul_le_mul_of_nonneg_left price filled.le)

theorem addedPrice_le {high fillPrice : Rat} (average : portfolio.averageOpenPrice ≤ high)
    (price : fillPrice ≤ high) : portfolio.addedPrice fillPrice fillQty ≤ high := by
  rcases added_pos sameSide with ⟨position, filled⟩
  rw [addedPrice, div_le_iff₀ (by linarith), mul_add, mul_comm high, mul_comm high]
  exact add_le_add (mul_le_mul_of_nonneg_left average position.le)
    (mul_le_mul_of_nonneg_left price filled.le)

/-- Adding keeps the sign, which is also that of the fill. -/
theorem sign_added : fillQty.sign = (portfolio.netPosition + fillQty).sign ∧
    (portfolio.netPosition + fillQty).sign = portfolio.netPosition.sign := by
  rcases sameSide with ⟨long, buys⟩ | ⟨short, sells⟩
  · rw [Int.sign_eq_one_of_pos buys, Int.sign_eq_one_of_pos long,
      Int.sign_eq_one_of_pos (by omega)]
    exact ⟨rfl, rfl⟩
  · rw [Int.sign_eq_neg_one_of_neg sells, Int.sign_eq_neg_one_of_neg short,
      Int.sign_eq_neg_one_of_neg (by omega)]
    exact ⟨rfl, rfl⟩

end Added

end Fill

/-! ## The one division -/

section Division

/-- A division that a zero divisor stops. -/
def checkedDiv (dividend divisor : Rat) : Option Rat :=
  if divisor = 0 then none else some (dividend / divisor)

/-- The average price after adding to a position, unless it is a division by zero. -/
def addedPriceChecked (portfolio : Portfolio) (fillPrice : Rat) (fillQty : Int) : Option Rat :=
  let totalValue := |portfolio.netPosition| * portfolio.averageOpenPrice + |fillQty| * fillPrice
  checkedDiv totalValue (|portfolio.netPosition| + |fillQty|)

/-- `process_fill`, stopped where it would divide by zero. -/
def processFillChecked (portfolio : Portfolio) (side : Side) (price qty : Nat) :
    Option Portfolio :=
  let fillQty := signedQty side qty
  let fillPrice : Rat := price
  let noted := { portfolio with
    grossNotional := portfolio.grossNotional + qty * price
    netPosition := portfolio.netPosition + fillQty }
  if portfolio.netPosition = 0 then some { noted with averageOpenPrice := fillPrice }
  else if portfolio.SameSide fillQty then do
    let averageOpenPrice <- portfolio.addedPriceChecked fillPrice fillQty
    some { noted with averageOpenPrice := averageOpenPrice }
  else
    some { noted with
      realizedPnl := portfolio.realizedPnl + truncate (portfolio.reducedGain fillPrice fillQty)
      averageOpenPrice := portfolio.remainingPrice fillPrice fillQty }

def applyChecked (portfolio : Portfolio) : Call -> Option Portfolio
  | .fill side price qty => portfolio.processFillChecked side price qty
  | .mark midPrice => some (portfolio.updateMarketPrice midPrice)

/-- The portfolio after a sequence of calls, none of which divides by zero. -/
def afterChecked (calls : List Call) : Option Portfolio := calls.foldlM applyChecked {}

/-- Both quantities of an added fill count, so that the divisor is positive. -/
theorem addedPriceChecked_eq {portfolio : Portfolio} {fillQty : Int}
    (sameSide : portfolio.SameSide fillQty) (fillPrice : Rat) :
    portfolio.addedPriceChecked fillPrice fillQty =
      some (portfolio.addedPrice fillPrice fillQty) := by
  have positive := added_pos sameSide
  have divisor := ne_of_gt (add_pos positive.1 positive.2)
  unfold addedPriceChecked addedPrice checkedDiv
  exact if_neg divisor

theorem processFillChecked_eq (portfolio : Portfolio) (side : Side) (price qty : Nat) :
    portfolio.processFillChecked side price qty =
      some (portfolio.processFill side price qty) := by
  unfold processFillChecked processFill
  dsimp only
  by_cases flat : portfolio.netPosition = 0
  · rw [if_pos flat, if_pos flat]
  by_cases sameSide : portfolio.SameSide (signedQty side qty)
  · rw [if_neg flat, if_neg flat, if_pos sameSide, if_pos sameSide,
      addedPriceChecked_eq sameSide]
    rfl
  · rw [if_neg flat, if_neg flat, if_neg sameSide, if_neg sameSide]

/-- No sequence of calls ever divides by zero. -/
theorem afterChecked_eq (calls : List Call) : afterChecked calls = some (after calls) := by
  induction calls using List.reverseRecOn with
  | nil => rfl
  | append_singleton calls call inductionHypothesis =>
      rw [afterChecked, List.foldlM_append, ← afterChecked, inductionHypothesis, after_concat]
      cases call with
      | fill side price qty =>
          simp [applyChecked, processFillChecked_eq, apply]
      | mark midPrice =>
          simp [applyChecked, apply]

end Division

/-! ## Entries -/

section Entries

variable {calls : List Call}

/-- An entry stays one as long as the position keeps its sign. -/
theorem IsEntry.concat {price : Nat} (entry : IsEntry calls price) {call : Call}
    (sameSign : (after (calls ++ [call])).netPosition.sign = (after calls).netPosition.sign) :
    IsEntry (calls ++ [call]) price := by
  rcases entry with ⟨early, side, qty, within, positive, onSide, since⟩
  refine ⟨early, side, qty, within.trans (List.prefix_append _ _), positive,
    onSide.trans sameSign.symm, ?_⟩
  intro stretch begins ends
  rcases List.prefix_concat_iff.mp ends with whole | earlier
  · rw [whole]
  · exact (since stretch begins earlier).trans sameSign.symm

/-- The last fill is an entry when it is on the side of the position it leaves. -/
theorem isEntry_last {side : Side} {price qty : Nat}
    (onSide : (signedQty side qty).sign =
      (after (calls ++ [.fill side price qty])).netPosition.sign)
    (isOpen : (after (calls ++ [.fill side price qty])).netPosition ≠ 0) :
    IsEntry (calls ++ [.fill side price qty]) price := by
  have positive : 0 < qty := by
    apply Nat.pos_of_ne_zero
    intro zero
    apply isOpen
    rw [← Int.sign_eq_zero_iff_zero, ← onSide, zero]
    cases side <;> rfl
  refine ⟨calls, side, qty, List.prefix_refl _, positive, onSide, ?_⟩
  intro stretch begins ends
  rw [begins.eq_of_length_le ends.length_le]

/-- The average price of an open position lies between two of its entries. -/
def WithinEntries (calls : List Call) : Prop :=
  (after calls).netPosition ≠ 0 ->
    (Exists fun low => IsEntry calls low ∧ (low : Rat) ≤ (after calls).averageOpenPrice) ∧
      Exists fun high => IsEntry calls high ∧ (after calls).averageOpenPrice ≤ high

/-- Nothing changes for the entries when the sign and the average stay. -/
theorem WithinEntries.kept (within : WithinEntries calls) {call : Call}
    (sameSign : (after (calls ++ [call])).netPosition.sign = (after calls).netPosition.sign)
    (sameAverage : (after (calls ++ [call])).averageOpenPrice = (after calls).averageOpenPrice) :
    WithinEntries (calls ++ [call]) := by
  intro isOpen
  have wasOpen : (after calls).netPosition ≠ 0 := by
    intro flat
    apply isOpen
    rw [← Int.sign_eq_zero_iff_zero, sameSign, flat, Int.sign_zero]
  rcases within wasOpen with ⟨⟨low, lowEntry, above⟩, high, highEntry, below⟩
  rw [sameAverage]
  exact ⟨⟨low, lowEntry.concat sameSign, above⟩, high, highEntry.concat sameSign, below⟩

/-- Averaging a price in widens the range of the entries by it: a weighted mean of
a value within the range and of the new price lies within both. -/
theorem WithinEntries.added (within : WithinEntries calls) {side : Side} {price qty : Nat}
    (sameSide : (after calls).SameSide (signedQty side qty))
    (average : (after (calls ++ [.fill side price qty])).averageOpenPrice =
      (after calls).addedPrice price (signedQty side qty)) :
    WithinEntries (calls ++ [.fill side price qty]) := by
  have position : (after (calls ++ [.fill side price qty])).netPosition =
      (after calls).netPosition + signedQty side qty := by
    rw [after_concat]
    exact (processFill_notes _ side price qty).1
  have signs := sign_added sameSide
  rw [← position] at signs
  intro isOpen
  have wasOpen : (after calls).netPosition ≠ 0 := by
    rcases sameSide with ⟨long, -⟩ | ⟨short, -⟩
    · exact ne_of_gt long
    · exact ne_of_lt short
  have last : IsEntry (calls ++ [.fill side price qty]) price := isEntry_last signs.1 isOpen
  rcases within wasOpen with ⟨⟨low, lowEntry, above⟩, high, highEntry, below⟩
  rw [average]
  constructor
  · by_cases under : (low : Rat) ≤ price
    · exact ⟨low, lowEntry.concat signs.2, le_addedPrice sameSide above under⟩
    · have lower := le_of_not_ge under
      exact ⟨price, last, le_addedPrice sameSide (lower.trans above) le_rfl⟩
  · by_cases under : (price : Rat) ≤ high
    · exact ⟨high, highEntry.concat signs.2, addedPrice_le sameSide below under⟩
    · have higher := le_of_not_ge under
      exact ⟨price, last, addedPrice_le sameSide (below.trans higher) le_rfl⟩

theorem withinEntries (calls : List Call) : WithinEntries calls := by
  induction calls using List.reverseRecOn with
  | nil => exact fun isOpen => absurd rfl isOpen
  | append_singleton calls call inductionHypothesis =>
      have next := after_concat calls call
      cases call with
      | mark midPrice =>
          rcases (after calls).updateMarketPrice_keeps midPrice with ⟨unrealized, same⟩
          apply inductionHypothesis.kept <;> rw [next, apply, same]
      | fill side price qty =>
          rcases processFill_cases (after calls) side price qty with
            ⟨average, sign⟩ | ⟨sameSide, average⟩ | ⟨average, sign⟩ | flat
          · -- The fill opens or flips the position: it is its only entry.
            intro isOpen
            have last : IsEntry (calls ++ [.fill side price qty]) price :=
              isEntry_last (by rw [next]; exact sign.symm) isOpen
            rw [next]
            exact ⟨⟨price, last, average.ge⟩, price, last, average.le⟩
          · exact inductionHypothesis.added sameSide (by rw [next]; exact average)
          · exact inductionHypothesis.kept (by rw [next]; exact sign) (by rw [next]; exact average)
          · exact fun isOpen => absurd (by rw [next]; exact flat) isOpen

/-- After any calls: the average price of an open position lies between prices of
its entries, a fill that only takes something back leaves it unchanged, and no
division by zero has been made on the way. -/
theorem average_within_entries (calls : List Call) :
    WithinEntries calls ∧
    (forall side price qty, (after calls).netPosition * signedQty side qty ≤ 0 ->
      |signedQty side qty| < |(after calls).netPosition| ->
        ((after calls).apply (.fill side price qty)).averageOpenPrice =
          (after calls).averageOpenPrice) ∧
    afterChecked calls = some (after calls) := by
  refine ⟨withinEntries calls, ?_, afterChecked_eq calls⟩
  intro side price qty against less
  apply processFill_reduces _ less
  rintro (⟨long, buys⟩ | ⟨short, sells⟩)
  · exact absurd (mul_pos long buys) (not_lt.mpr against)
  · exact absurd (mul_pos_of_neg_of_neg short sells) (not_lt.mpr against)

end Entries
end Portfolio
end NexusHft
