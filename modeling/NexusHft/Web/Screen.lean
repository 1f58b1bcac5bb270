import NexusHft.Main.PrintedPrices
import NexusHft.Web.Dashboard
import NexusHft.Web.OrderEncoding

namespace NexusHft

open Foundations

/-!
# What a page displays

The texts that the page is rendered with.  A price is displayed with two decimals
and the spread is a difference of two doubles, so every number that is displayed
has been through several roundings since the engine had it as an integer.

Below `2 ^ 50` none of them can be seen: the page displays every price, and the
spread, to the cent.
-/

/-! ## Numbers -/

namespace JsNumber

/-- `left - right`. -/
def sub : JsNumber -> JsNumber -> JsNumber
  | finite left, finite right => .ofRat (left - right)
  | nan, _ => nan
  | _, nan => nan
  | infinity negative, finite _ => infinity negative
  | finite _, infinity negative => infinity (!negative)
  | infinity negative, infinity negative' =>
      if negative = negative' then nan else infinity negative

/-- The number of hundredths that is nearest, the larger one of two. -/
def fixedText (value : Rat) : Text :=
  if 10 ^ 21 ≤ value then positiveText value else hundredthsText ⌊100 * value + 1 / 2⌋.toNat

/-- `number.toFixed(2)`. -/
def toFixed : JsNumber -> Text
  | nan => "NaN".toList
  | infinity negative => if negative then "-Infinity".toList else "Infinity".toList
  | finite value => if value < 0 then '-' :: fixedText (-value) else fixedText value

end JsNumber

/-! ## The page -/

namespace Json

/-- `value[index]`, of an array. -/
def item (value : Json) (index : Nat) : Option Json :=
  match value with
  | array items => items[index]?
  | _ => none

/-- The items that a method of an array goes through; nothing else has the method. -/
def items : Json -> Option (List Json)
  | array items => some items
  | _ => none

/-- A number; nothing else has the method `toFixed`. -/
def asNumber : Option Json -> Option JsNumber
  | some (number value) => some value
  | _ => none

/-- The member of a book, which must be an array. -/
def levels (bookData : Json) (side : Text) : Option (List Json) :=
  (bookData.member side).bind fun found => found.bind items

/-- One row of a side: the quantity and the price. -/
def row (level : Json) : Option (Text × Text) :=
  (asNumber (level.item 1)).bind fun qty =>
    (asNumber (level.item 0)).map fun price => (qty.toText, price.toFixed)

/-- The rows of a side; an empty side has one row of dashes. -/
def rows (levels : List Json) : Option (List (Text × Text)) :=
  if levels = [] then some [(['-'], ['-'])] else levels.mapM row

/-- `getSpread()`. -/
def spread (bids asks : List Json) : Option Text :=
  match asks, bids with
  | ask :: _, bid :: _ =>
      (asNumber (ask.item 0)).bind fun high =>
        (asNumber (bid.item 0)).map fun low => (high.sub low).toFixed
  | _, _ => some ['-']

end Json

/-- A trade as it is displayed, with the latency of its match, all three as texts.
-/
structure TradeRow where
  price : Text
  qty : Text
  matched : Text
  deriving DecidableEq, Repr

/-- A latency that is a false value is displayed by itself. -/
def ShownTrade.row (trade : ShownTrade) : TradeRow where
  price := '$' :: trade.price.toFixed
  qty := "x ".toList ++ trade.qty.toText
  matched := if Json.isTruthy (some (.number trade.latency)) then
      "Matched in ".toList ++ (trade.latency.toText ++ " ns".toList)
    else trade.latency.toText

section Exact

/-- The double of a price is near to it, and is displayed as the price. -/
theorem priceNumber_near {price : Price} (small : price.toNat < 2 ^ 50) :
    Exists fun amount => Json.priceNumber price = .finite amount ∧ 0 ≤ amount ∧
      |100 * amount - price.toNat| ≤ 25 / 256 := by
  have printed := printedHundredths_eq (lt_trans small (by norm_num))
  rw [Json.priceNumber, printed]
  rcases Nat.eq_zero_or_pos price.toNat with zero | positive
  · refine ⟨0, ?_, le_refl 0, ?_⟩
    · rw [zero, Nat.cast_zero, zero_div, JsNumber.ofRat_of_nearest nearest_zero]
    · rw [zero, Nat.cast_zero, mul_zero, sub_zero, abs_zero]
      norm_num
  · have smallQ : (price.toNat : Rat) < 2 ^ 50 := by exact_mod_cast small
    have largeQ : (1 : Rat) ≤ price.toNat := by exact_mod_cast positive
    rcases @nearest_hundredths (-9) price.toNat positive (by norm_num; linarith) (by norm_num)
      (by norm_num) with ⟨amount, isAmount, near⟩
    norm_num at near
    refine ⟨amount, ?_, ?_, near⟩
    · rw [JsNumber.ofRat_of_nearest isAmount]
    · rw [abs_le] at near
      linarith

/-- A double near to a number of cents is displayed as the number. -/
theorem toFixed_of_near {cents : Nat} {amount : Rat} (nonneg : 0 ≤ amount) (small : amount < 10 ^ 21)
    (near : |100 * amount - cents| < 1 / 2) :
    (JsNumber.finite amount).toFixed = hundredthsText cents := by
  have rounded : ⌊100 * amount + 1 / 2⌋ = (cents : Int) :=
    floor_add_half_of_near (by push_cast; exact near)
  rw [JsNumber.toFixed, if_neg (not_lt.mpr nonneg), JsNumber.fixedText, if_neg (not_le.mpr small),
    rounded, Int.toNat_natCast]

theorem toFixed_price {price : Price} (small : price.toNat < 2 ^ 50) :
    (Json.priceNumber price).toFixed = hundredthsText price.toNat := by
  rcases priceNumber_near small with ⟨amount, isAmount, nonneg, near⟩
  have smallQ : (price.toNat : Rat) < 1125899906842624 := by exact_mod_cast small
  have bounds := abs_le.mp near
  rw [isAmount]
  refine toFixed_of_near nonneg ?_ (lt_of_le_of_lt near (by norm_num))
  norm_num
  linarith

/-- The spread is displayed to the cent. -/
theorem toFixed_spread {bid ask : Price} (order : bid < ask) (small : ask.toNat < 2 ^ 50) :
    ((Json.priceNumber ask).sub (Json.priceNumber bid)).toFixed =
      hundredthsText (ask.toNat - bid.toNat) := by
  have less := UInt64.lt_iff_toNat_lt.mp order
  rcases priceNumber_near (lt_trans less small) with ⟨low, isLow, nonneg, near⟩
  rcases priceNumber_near small with ⟨high, isHigh, -, near'⟩
  have smallQ : (ask.toNat : Rat) < 2 ^ 50 := by exact_mod_cast small
  have lessQ : (bid.toNat : Rat) + 1 ≤ ask.toNat := by exact_mod_cast less
  rcases @nearest_difference (-9) bid.toNat ask.toNat low high (25 / 256) less nonneg near near'
    (by norm_num) (by norm_num; linarith) (by norm_num) (by norm_num) with
    ⟨difference, isDifference, error⟩
  norm_num at error
  have span : (((ask.toNat - bid.toNat : Nat)) : Rat) = ask.toNat - bid.toNat :=
    Nat.cast_sub (le_of_lt less)
  have bounds := abs_le.mp error
  rw [isHigh, isLow, JsNumber.sub, JsNumber.ofRat_of_nearest isDifference]
  refine toFixed_of_near ?_ ?_ (lt_of_le_of_lt error (by norm_num))
  · rw [span] at bounds
    linarith
  · have large : (ask.toNat : Rat) < 1125899906842624 := by exact_mod_cast small
    have natural : (0 : Rat) ≤ bid.toNat := Nat.cast_nonneg _
    rw [span] at bounds
    norm_num
    linarith

/-- Zeros behind the digits of a number. -/
theorem digits_mul_pow {number : Nat} (positive : 0 < number) (zeros : Nat) :
    digits (number * 10 ^ zeros) = digits number ++ List.replicate zeros '0' := by
  have nonzero : number * 10 ^ zeros ≠ 0 :=
    Nat.ne_of_gt (Nat.mul_pos positive (Nat.pow_pos (by norm_num)))
  rw [digits, digits, if_neg nonzero, if_neg (Nat.ne_of_gt positive), Nat.mul_comm,
    Nat.digits_base_pow_mul (by norm_num) positive, List.map_append, List.reverse_append,
    List.map_replicate, List.reverse_replicate]
  rfl

/-- An integer that is a double is written with its digits. -/
theorem toText_nat {number : Nat} (small : number < 2 ^ 53) :
    (JsNumber.ofRat number).toText = digits number := by
  rcases Nat.eq_zero_or_pos number with zero | positive
  · rw [zero, Nat.cast_zero, JsNumber.ofRat_of_nearest nearest_zero, JsNumber.toText, if_pos rfl, digits,
      if_pos rfl]
    rfl
  · have positiveQ : (0 : Rat) < number := by exact_mod_cast positive
    have kept := nearest_natCast positive (le_of_lt small)
    rcases shortestDecimal_exists positiveQ kept with ⟨decimal, isDecimal⟩
    rcases writtenExactly_of_lt positive small with ⟨exactly, -, below⟩
    have integral := shortest_natCast positiveQ kept rfl isDecimal
    have value : decimal.value = number := by
      rw [printedValue, isDecimal] at exactly
      exact exactly
    have positional : IsPositional decimal.point := by
      rw [isPositional_iff, value]
      refine ⟨le_trans (by norm_num) (Nat.one_le_cast.mpr positive), below⟩
    have whole := decimal.value_of_integral integral
    rw [value] at whole
    have same : number = decimal.significand * 10 ^ (decimal.point - decimal.places).toNat := by
      exact_mod_cast whole
    rw [JsNumber.ofRat_of_nearest kept, JsNumber.toText, if_neg (ne_of_gt positiveQ),
      if_neg (not_lt_of_gt positiveQ), positiveText, isDecimal, Option.elim_some, decimalText]
    rw [if_pos positional, if_pos integral, ← digits_mul_pow decimal.significand_pos, ← same]

end Exact

/-! ## The screen of a book -/

/-- The row of a level, with all its digits. -/
def exactRow (level : Price × Quantity) : Text × Text :=
  (digits level.2.toNat, hundredthsText level.1.toNat)

def exactRows (levels : List (Price × Quantity)) : List (Text × Text) :=
  if levels = [] then [(['-'], ['-'])] else levels.map exactRow

/-- The spread in cents. -/
def exactSpread : List (Price × Quantity) -> List (Price × Quantity) -> Text
  | bid :: _, ask :: _ => hundredthsText (ask.1.toNat - bid.1.toNat)
  | _, _ => ['-']

/-- Levels whose numbers the page can tell apart. -/
def Legible (levels : List (Price × Quantity)) : Prop :=
  forall level, level ∈ levels -> level.1.toNat < 2 ^ 50 ∧ level.2.toNat < 2 ^ 53

section Book

variable {levels bids asks : List (Price × Quantity)}

theorem row_levelJson (level : Price × Quantity) : Json.row (Json.levelJson level) =
    some ((Json.qtyNumber level.2).toText, (Json.priceNumber level.1).toFixed) := rfl

/-- A pass over a list in which no item fails. -/
theorem mapM_eq_map {Item Result : Type} {read : Item -> Option Result} {items : List Item}
    {result : Item -> Result} (reads : forall item, item ∈ items -> read item = some (result item)) :
    items.mapM read = some (items.map result) := by
  induction items with
  | nil => rfl
  | cons item items inductionHypothesis =>
      have rest := inductionHypothesis fun other listed => reads other (List.mem_cons_of_mem item listed)
      rw [List.mapM_cons, reads item List.mem_cons_self, rest]
      rfl

theorem rows_levels {texts : Price × Quantity -> Text × Text}
    (reads : forall level, level ∈ levels -> Json.row (Json.levelJson level) = some (texts level)) :
    Json.rows (levels.map Json.levelJson) =
      some (if levels = [] then [(['-'], ['-'])] else levels.map texts) := by
  unfold Json.rows
  by_cases empty : levels = []
  · rw [empty]
    rfl
  · rw [if_neg (mt List.map_eq_nil_iff.mp empty), if_neg empty, List.mapM_map]
    exact mapM_eq_map reads

theorem Legible.row (legible : Legible levels) {level : Price × Quantity} (listed : level ∈ levels) :
    Json.row (Json.levelJson level) = some (exactRow level) := by
  rcases legible level listed with ⟨price, qty⟩
  rw [row_levelJson, toFixed_price price, Json.qtyNumber, toText_nat qty]
  rfl

theorem Legible.rows (legible : Legible levels) :
    Json.rows (levels.map Json.levelJson) = some (exactRows levels) :=
  rows_levels fun _ listed => legible.row listed

theorem Legible.spread (legible : Legible asks)
    (uncrossed : forall bid ask, bid ∈ bids -> ask ∈ asks -> bid.1 < ask.1) :
    Json.spread (bids.map Json.levelJson) (asks.map Json.levelJson) =
      some (exactSpread bids asks) := by
  cases bids with
  | nil => cases asks <;> rfl
  | cons bid bids =>
      cases asks with
      | nil => rfl
      | cons ask asks =>
          have order := uncrossed bid ask List.mem_cons_self List.mem_cons_self
          have texts := toFixed_spread order (legible ask List.mem_cons_self).1
          exact congrArg some texts

end Book
end NexusHft
