import NexusHft.Main.CommandLoop
import NexusHft.Web.NumberReading
import NexusHft.Web.SubmitOrder

namespace NexusHft

open Foundations

/-!
# An order on its way to the engine

The line that an event with two positive numbers is written as, and the order
that the engine hands to `process_limit_order` for it.  The price arrives as it
was sent and is then converted to cents.  Of the quantity only the leading
digits arrive, so it has to be an integer that is written with all its digits.
-/

/-- An event as the clients send it, with a side and two positive numbers.  A
number of the script is a double, so only doubles can be asked for. -/
structure Submitted (order : Json) (side : Side) (price qty : Rat) : Prop where
  isSide : Exists fun spelling =>
    order.member Field.side.name = some (some (.string spelling)) ∧ unescape spelling = side.word
  isPrice : order.member Field.price.name = some (some (.number (.finite price)))
  isQty : order.member Field.qty.name = some (some (.number (.finite qty)))
  pricePositive : 0 < price
  qtyPositive : 0 < qty
  priceDouble : nearest price = some price
  qtyDouble : nearest qty = some qty

/-- The order that the engine accepts for the event has its quantity, and its
price in cents. -/
def Agrees (order : Json) (price qty : Rat) : Prop :=
  forall outOfRange state line limitOrder, order.written = line ++ ['\n'] ->
    LoopState.accepted (.binary64 outOfRange) state line = some limitOrder ->
      (limitOrder.qty.toNat : Rat) = qty ∧ RoundedTo limitOrder.price (price * 100)

/-- A quantity whose leading digits are no positive `long long`. -/
def Refused (printed : Rat) : Prop :=
  10 ^ (-6 : Int) ≤ printed ∧ printed < 1 ∨ 2 ^ 63 ≤ printed ∧ printed < 10 ^ (21 : Int)

/-- An integer that is written as it is. -/
def WrittenExactly (qty : Rat) : Prop :=
  printedValue qty = qty ∧ (Exists fun number : Nat => qty = number) ∧ qty < 10 ^ (21 : Int)

/-! ## The quantity -/

section Quantity

variable {qty : Rat} {decimal : Decimal}

theorem isPositional_iff (decimal : Decimal) :
    IsPositional decimal.point <->
      10 ^ (-6 : Int) ≤ decimal.value ∧ decimal.value < 10 ^ (21 : Int) := by
  have low : (10 : Rat) ^ (-6 : Int) ≤ decimal.value <-> ¬ decimal.point ≤ -6 := by
    rw [← decimal.value_lt_zpow_iff, not_lt]
  rw [IsPositional, low, decimal.value_lt_zpow_iff]
  omega

/-- The quantity is refused exactly if its leading digits are. -/
theorem refused_iff (decimal : Decimal) :
    Refused decimal.value <-> ¬ (0 < leadingInteger decimal ∧ leadingInteger decimal < 2 ^ 63) := by
  by_cases positional : IsPositional decimal.point
  · have bounds := (isPositional_iff decimal).mp positional
    rw [leadingInteger_of_positional decimal positional, Nat.floor_pos, Nat.floor_lt
      (le_of_lt decimal.value_pos), not_and_or, not_le, not_lt, Refused]
    push_cast
    constructor
    · rintro (below | above)
      · exact .inl below.2
      · exact .inr above.1
    · rintro (below | above)
      · exact .inl ⟨bounds.1, below⟩
      · exact .inr ⟨above, bounds.2⟩
  · have digit := leadingInteger_of_not_positional decimal positional
    refine iff_of_false ?_ (not_not.mpr ⟨digit.1, by omega⟩)
    rintro (below | above)
    · refine positional ((isPositional_iff decimal).mpr ⟨below.1, lt_trans below.2 ?_⟩)
      norm_num
    · refine positional ((isPositional_iff decimal).mpr ⟨le_trans ?_ above.1, above.2⟩)
      norm_num

/-- The leading digits are the quantity exactly if it is written exactly: as an
integer, and without an exponent. -/
theorem leadingInteger_eq_iff (positive : 0 < qty) (kept : nearest qty = some qty)
    (isDecimal : shortestDecimal qty = some decimal) :
    (leadingInteger decimal : Rat) = qty <-> WrittenExactly qty := by
  have printed : printedValue qty = decimal.value := by rw [printedValue, isDecimal]; rfl
  rw [WrittenExactly, printed]
  by_cases positional : IsPositional decimal.point
  · have bounds := (isPositional_iff decimal).mp positional
    rw [leadingInteger_of_positional decimal positional]
    constructor
    · intro same
      have integral := shortest_natCast positive kept same.symm isDecimal
      have whole := decimal.value_of_integral integral
      rw [whole, Nat.floor_natCast] at same
      rw [whole] at bounds ⊢
      exact ⟨same, ⟨_, same.symm⟩, same ▸ bounds.2⟩
    · rintro ⟨same, ⟨number, integral⟩, -⟩
      rw [same, integral, Nat.floor_natCast]
  · have digit := leadingInteger_of_not_positional decimal positional
    refine iff_of_false (fun same => ?_) ?_
    · -- a number of one digit is written in positional notation
      have low : (1 : Rat) ≤ qty := by
        rw [← same]
        exact_mod_cast digit.1
      have high : qty < 10 := by
        rw [← same]
        exact_mod_cast Nat.lt_succ_of_le digit.2
      have lower : 0 ≤ Int.log 10 qty :=
        (Int.zpow_le_iff_le_log (by norm_num) positive).mp (by simpa using low)
      have upper : Int.log 10 qty < 1 :=
        (Int.lt_zpow_iff_log_lt (by norm_num) positive).mp (by simpa using high)
      have point := (shortest_spec isDecimal).2
      refine positional ⟨by omega, by omega⟩
    · rintro ⟨same, ⟨number, integral⟩, below⟩
      rw [← same] at below
      have one : (1 : Rat) ≤ decimal.value := by
        rw [same, integral]
        rw [integral] at positive
        exact_mod_cast positive
      exact positional ((isPositional_iff decimal).mpr ⟨le_trans (by norm_num) one, below⟩)

/-- Small integers are written exactly. -/
theorem writtenExactly_of_lt {number : Nat} (positive : 0 < number) (small : number < 2 ^ 53) :
    WrittenExactly number := by
  have positiveQ : (0 : Rat) < number := by exact_mod_cast positive
  have smallQ : (number : Rat) < 2 ^ 53 := by exact_mod_cast small
  have kept := nearest_natCast positive (le_of_lt small)
  rcases shortestDecimal_exists positiveQ kept with ⟨decimal, isDecimal⟩
  have whole := decimal.value_of_integral (shortest_natCast positiveQ kept rfl isDecimal)
  have rounds := (shortest_spec isDecimal).1
  have above := decimal.value_pos
  have printed : printedValue number = decimal.value := by rw [printedValue, isDecimal]; rfl
  rw [WrittenExactly, printed]
  refine ⟨?_, ⟨number, rfl⟩, lt_trans smallQ (by norm_num)⟩
  rw [whole] at rounds above ⊢
  rcases le_or_gt (decimal.significand * 10 ^ (decimal.point - decimal.places).toNat) (2 ^ 53)
    with few | many
  · rw [nearest_natCast (by exact_mod_cast above) few] at rounds
    exact Option.some.inj rounds
  · -- a larger integer is not rounded to one below `2 ^ 53`
    have power := @nearest_natCast (2 ^ 53) (by norm_num) (le_refl _)
    have order := nearest_mono (by norm_num) (by exact_mod_cast le_of_lt many) power rounds
    push_cast at order
    exact absurd smallQ (not_lt.mpr order)

end Quantity

/-! ## The line -/

section Line

variable {order : Json} {side : Side} {price qty : Rat}

/-- What is written for the event: its side, the text of the price and the text of
the quantity, with a blank between them. -/
theorem Submitted.written (submitted : Submitted order side price qty) :
    order.written =
      (side.word ++ ' ' :: (positiveText price ++ ' ' :: positiveText qty)) ++ ['\n'] := by
  rcases submitted.isSide with ⟨spelling, isSide, isWord⟩
  have truthy : Json.isTruthy (some (.string spelling)) = true := by
    rw [Json.isTruthy, isWord, decide_eq_true_eq]
    cases side <;> exact List.cons_ne_nil _ _
  have positive {value : Rat} (above : 0 < value) :
      Json.isPositive (some (.number (.finite value))) = some true :=
    congrArg some (decide_eq_true above)
  have text {value : Rat} (above : 0 < value) :
      JsNumber.toText (.finite value) = positiveText value := by
    rw [JsNumber.toText, if_neg (ne_of_gt above), if_neg (not_lt_of_gt above)]
  apply Json.written_of_admitted
  · rw [Json.admits, isSide, submitted.isPrice, submitted.isQty]
    simp only [Option.bind_some, truthy, positive submitted.pricePositive,
      positive submitted.qtyPositive, if_true]
  · rw [Json.spliced, isSide, Option.bind_some, Json.template, Json.toText, isWord]
  · rw [Json.spliced, submitted.isPrice, Option.bind_some, Json.template, Json.toText,
      text submitted.pricePositive]
  · rw [Json.spliced, submitted.isQty, Option.bind_some, Json.template, Json.toText,
      text submitted.qtyPositive]

theorem ends_blank (rest : Text) : Ends (' ' :: rest) :=
  fun _ first => (Option.some.inj first).symm

/-- What the line is read as. -/
theorem Submitted.parse (submitted : Submitted order side price qty) {decimal : Decimal}
    (isDecimal : shortestDecimal qty = some decimal) (outOfRange : Option Rat -> UInt64) :
    parseCommand (.binary64 outOfRange)
        (side.word ++ ' ' :: (positiveText price ++ ' ' :: positiveText qty)) =
      if leadingInteger decimal < 2 ^ 63 then .order side price (leadingInteger decimal)
      else .malformed := by
  rcases shortestDecimal_exists submitted.pricePositive submitted.priceDouble with ⟨_, isPrice⟩
  rcases extractInteger_positiveText isDecimal with ⟨behind, isQty⟩
  have word : extractWord (side.word ++ ' ' :: (positiveText price ++ ' ' :: positiveText qty)) =
      (side.word, ' ' :: (positiveText price ++ ' ' :: positiveText qty)) := by
    cases side <;> rfl
  have read := extractDouble_positiveText isPrice outOfRange (ends_blank (positiveText qty))
  have notClear : side.word ≠ "CLEAR".toList := by cases side <;> decide
  have command : side.word = "BUY".toList ∨ side.word = "SELL".toList := by cases side <;> decide
  have same : (if side.word = "BUY".toList then Side.Buy else Side.Sell) = side := by
    cases side <;> rfl
  unfold parseCommand
  simp only [word, if_neg notClear, if_pos command, same, extractDouble_blank, read,
    extractInteger_blank, isQty]
  by_cases fits : leadingInteger decimal < 2 ^ 63
  · rw [if_pos fits, if_pos fits]
  · rw [if_neg fits, if_neg fits]

/-- The engine accepts the event exactly if its quantity is not refused, and
hands on the leading digits. -/
theorem Submitted.agrees_iff_leading (submitted : Submitted order side price qty)
    {decimal : Decimal} (isDecimal : shortestDecimal qty = some decimal) :
    Agrees order price qty <->
      (0 < leadingInteger decimal ∧ leadingInteger decimal < 2 ^ 63 ->
        (leadingInteger decimal : Rat) = qty ∧ CentsExact (price * 100)) := by
  have parse := submitted.parse isDecimal
  have line {text : Text} (written : order.written = text ++ ['\n']) :
      text = side.word ++ ' ' :: (positiveText price ++ ' ' :: positiveText qty) :=
    List.append_cancel_right (written.symm.trans submitted.written)
  have quantity (fits : leadingInteger decimal < 2 ^ 63) :
      (UInt64.ofInt (leadingInteger decimal)).toNat = leadingInteger decimal := by
    rw [UInt64.ofInt, UInt64.toNat_ofNat']
    omega
  constructor
  · rintro agrees ⟨positive, fits⟩
    have accepted (outOfRange : Option Rat -> UInt64) :=
      LoopState.fresh_accepted Engine.blank.heap ((parse outOfRange).trans (if_pos fits))
        submitted.pricePositive (by exact_mod_cast positive)
    have each (outOfRange : Option Rat -> UInt64) :=
      agrees outOfRange _ _ _ submitted.written (accepted outOfRange)
    refine ⟨?_, (hundredths_exact_iff price).mp fun outOfRange => (each outOfRange).2⟩
    rw [← (each fun _ => 0).1, quantity fits]
  · intro holds outOfRange state text limitOrder written accepted
    rcases LoopState.accepted_iff.mp accepted with
      ⟨priceInput, qtyInput, isCommand, ⟨-, positive⟩, -, isOrder⟩
    rw [line written, parse outOfRange] at isCommand
    split at isCommand
    · rename_i fits
      cases isCommand
      rcases holds ⟨by exact_mod_cast positive, fits⟩ with ⟨same, exact⟩
      rw [isOrder]
      dsimp only
      rw [quantity fits]
      exact ⟨same, (hundredths_exact_iff price).mpr exact outOfRange⟩
    · cases isCommand

/-- The encoder and the parser agree exactly if the quantity is refused, or is
written exactly while the price is exact in cents.  Of a quantity the engine reads
the digits in front of a point or an exponent, and refuses them if they are zero
or too many. -/
theorem agrees_iff (submitted : Submitted order side price qty) :
    Agrees order price qty <->
      Refused (printedValue qty) ∨ WrittenExactly qty ∧ CentsExact (price * 100) := by
  rcases shortestDecimal_exists submitted.qtyPositive submitted.qtyDouble with ⟨decimal, isDecimal⟩
  have printed : printedValue qty = decimal.value := by rw [printedValue, isDecimal]; rfl
  rw [submitted.agrees_iff_leading isDecimal, printed, refused_iff,
    leadingInteger_eq_iff submitted.qtyPositive submitted.qtyDouble isDecimal]
  exact imp_iff_not_or

/-- An event with a price and a quantity. -/
def buyOrder (price qty : Rat) : Json :=
  .object [("side".toList, .string "BUY".toList), ("price".toList, .number (.finite price)),
    ("qty".toList, .number (.finite qty))]

theorem buyOrder_submitted (pricePositive : 0 < price) (qtyPositive : 0 < qty)
    (priceDouble : nearest price = some price) (qtyDouble : nearest qty = some qty) :
    Submitted (buyOrder price qty) .Buy price qty :=
  ⟨⟨"BUY".toList, rfl, by decide⟩, rfl, rfl, pricePositive, qtyPositive, priceDouble, qtyDouble⟩

end Line

/-- The fraction of a quantity is cut off. -/
theorem fractional_qty_is_cut :
    Submitted (buyOrder 100 (3 / 2)) .Buy 100 (3 / 2) ∧
      ¬ Agrees (buyOrder 100 (3 / 2)) 100 (3 / 2) := by
  have submitted : Submitted (buyOrder 100 (3 / 2)) .Buy 100 (3 / 2) :=
    buyOrder_submitted (by norm_num) (by norm_num) (by decide +kernel) (by decide +kernel)
  refine ⟨submitted, fun agrees => ?_⟩
  have written : (buyOrder 100 (3 / 2)).written = "BUY 100 1.5".toList ++ ['\n'] := by
    decide +kernel
  have command : parseCommand (.binary64 fun _ => 0) "BUY 100 1.5".toList = .order .Buy 100 1 := by
    decide +kernel
  have accepted := LoopState.fresh_accepted Engine.blank.heap command (by norm_num) (by norm_num)
  have same := (agrees _ _ _ _ written accepted).1
  have one : (UInt64.ofInt 1).toNat = 1 := by decide
  rw [one] at same
  norm_num at same

theorem agrees_iff_whole : Submitted (buyOrder 100 10) .Buy 100 10 ∧ Agrees (buyOrder 100 10) 100 10 := by
  have submitted : Submitted (buyOrder 100 10) .Buy 100 10 :=
    buyOrder_submitted (by norm_num) (by norm_num) (by decide +kernel) (by decide +kernel)
  refine ⟨submitted, (agrees_iff submitted).mpr (.inr ⟨⟨by decide +kernel, ⟨10, by norm_num⟩,
    by norm_num⟩, by norm_num, 10000, by decide +kernel, by norm_num, ?_, ?_, ?_⟩)⟩
  · intro _ number above same
    rw [← same] at above
    norm_num at above
  · intro large
    norm_num at large
  · intro large
    norm_num at large

end NexusHft
