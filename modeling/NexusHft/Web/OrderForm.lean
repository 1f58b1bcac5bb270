import NexusHft.Main.CommandGrammar
import NexusHft.Main.PrintedPrices
import NexusHft.Web.LineReadings
import NexusHft.Web.OrderEncoding

namespace NexusHft

open Foundations

/-!
# The form for orders

The page sends what was typed into two fields: the price as the double that its
text is read as, the quantity as an integer.  The quantity field drops everything
but digits as it is typed, and the price field takes decimal numbers only.

A number travels as its shortest decimal.  So the engine reads the same double
again, and for a typed number of cents below `2 ^ 51` its price is this number.
-/

/-- What is typed into the form, and the button that was pressed.  The texts are
kept as they were typed; the page reads them as numbers when it sends the order.
-/
structure OrderForm where
  orderSide : Side
  orderPrice : Text
  orderQty : Text

/-- A number as a member of an event: JSON has no other numbers. -/
def JsNumber.toJson : JsNumber -> Json
  | finite value => .number (.finite value)
  | nan => .null
  | infinity _ => .null

namespace OrderForm

/-- The handler of a change of the quantity. -/
def changeQty (form : OrderForm) (typed : Text) : OrderForm :=
  { form with orderQty := typed.filter isDigit }

/-- What the event tells the middleware. -/
def event (form : OrderForm) : Json :=
  .object [("side".toList, .string form.orderSide.word),
    ("price".toList, (parseFloat (some form.orderPrice)).toJson),
    ("qty".toList, (parseInt (some form.orderQty)).toJson)]

/-- The event that is sent, if both fields are filled, and the form after it. -/
def handleSubmit (form : OrderForm) : Option Json × OrderForm :=
  if form.orderPrice = [] ∨ form.orderQty = [] then (none, form)
  else (some form.event, { form with orderPrice := [], orderQty := [] })

end OrderForm

/-! ## Reading what was typed -/

theorem FractionText.trimmed {sign whole point fraction rest : Text} {negative : Bool}
    (isSign : SignText sign negative) (isFraction : FractionText point fraction)
    (all : Within isDigit whole) (mantissa : whole ++ fraction ≠ []) :
    trimStart (sign ++ (whole ++ (point ++ rest))) = sign ++ (whole ++ (point ++ rest)) := by
  apply trimStart_of_head
  cases isSign with
  | absent =>
      intro char begins
      rcases isFraction.startsNumber all mantissa rest char begins with digit | isPoint
      · exact isJsSpace_of_digit digit
      · rw [isPoint]
        rfl
  | plus | minus =>
      intro char begins
      cases begins
      rfl

/-- A number without a sign is not the word for infinity. -/
theorem StartsNumber.not_infinity {text : Text} (starts : StartsNumber text) :
    "Infinity".toList.isPrefixOf text = false := by
  have spelled : "Infinity".toList = 'I' :: "nfinity".toList := by decide
  cases text with
  | nil => rfl
  | cons first rest =>
      have letter : first ≠ 'I' := by
        rintro rfl
        rcases starts _ rfl with digit | isPoint
        · exact absurd digit (by decide)
        · exact absurd isPoint (by decide)
      rw [spelled, List.isPrefixOf_cons_cons, beq_eq_false_iff_ne.mpr letter.symm, Bool.false_and]

/-- A decimal number is read as the double nearest to its value. -/
theorem parseFloat_decimal {text : Text} {value : Rat} (isDecimal : DecimalText text value) :
    parseFloat (some text) = .ofRat value := by
  cases isDecimal with
  | @number sign whole point fraction power negative exponent isSign all isFraction mantissa
      isExponent =>
      have severed : Severed [] := nofun
      have starts := isFraction.startsNumber all mantissa power
      have behind := isFraction.behind isExponent severed
      have stops : forall char, (power ++ []).head? = some char ->
          isDigit char = false ∧ char ≠ '.' := fun char begins => isExponent.behind severed begins
      rw [List.append_nil] at behind stops
      have wholeScan := scanDigits_append all behind
      have fractionScan := isFraction.scan (fun char begins => (stops char begins).1)
        (fun begins => (stops '.' begins).2 rfl)
      have exponentScan := isExponent.scan severed
      rw [List.append_nil] at exponentScan
      simp only [parseFloat, FractionText.trimmed isSign isFraction all mantissa,
        isSign.scan starts, starts.not_infinity, wholeScan, fractionScan, if_neg mantissa,
        exponentScan, Option.map_some, Option.getD_some]
      rfl

theorem decimalText_hundredths (hundredths : Nat) :
    DecimalText (hundredthsText hundredths) ((hundredths : Rat) / 100) := by
  have places : Within isDigit [digitChar (hundredths / 10 % 10), digitChar (hundredths % 10)] := by
    intro char member
    rcases List.mem_cons.mp member with tens | ones
    · rw [tens]
      exact isDigit_digitChar (Nat.mod_lt _ (by norm_num))
    · rw [List.mem_singleton.mp ones]
      exact isDigit_digitChar (Nat.mod_lt _ (by norm_num))
  have number := @DecimalText.number [] (digits (hundredths / 100)) _ _ [] false 0 .absent
    (fun _ => isDigit_of_mem_digits) (.point places)
    (fun empty => digits_ne_nil _ (List.append_eq_nil_iff.mp empty).1) .absent
  rw [← Json.hundredths_value hundredths]
  exact number

theorem DecimalText.ne_nil {text : Text} {value : Rat} (isDecimal : DecimalText text value) :
    text ≠ [] := by
  cases isDecimal with
  | @number sign whole point fraction power negative exponent isSign all isFraction mantissa
      isExponent =>
      intro empty
      rcases List.append_eq_nil_iff.mp empty with ⟨-, rest⟩
      rcases List.append_eq_nil_iff.mp rest with ⟨noWhole, rest⟩
      rcases List.append_eq_nil_iff.mp rest with ⟨noPoint, -⟩
      subst noWhole noPoint
      cases isFraction with
      | absent => exact mantissa rfl

/-! ## Orders that are typed -/

namespace OrderForm

/-- A form that is filled with a positive number of cents and a positive quantity,
in any decimal notation of the price. -/
structure Filled (form : OrderForm) (cents qty : Nat) : Prop where
  isPrice : DecimalText form.orderPrice ((cents : Rat) / 100)
  digits : Within isDigit form.orderQty
  isQty : digitsValue form.orderQty = qty
  pricePositive : 0 < cents
  qtyPositive : 0 < qty

variable {form : OrderForm} {cents qty : Nat}

theorem Filled.qty_ne_nil (filled : form.Filled cents qty) : form.orderQty ≠ [] := by
  intro empty
  have none := filled.isQty
  rw [empty] at none
  exact absurd none (Nat.ne_of_lt filled.qtyPositive)

theorem Filled.price_ne_nil (filled : form.Filled cents qty) : form.orderPrice ≠ [] :=
  filled.isPrice.ne_nil

/-- Both fields go into the event, and are emptied. -/
theorem Filled.handleSubmit_eq (filled : form.Filled cents qty) :
    form.handleSubmit = (some form.event, { form with orderPrice := [], orderQty := [] }) := by
  rw [handleSubmit, if_neg]
  rintro (noPrice | noQty)
  · exact filled.price_ne_nil noPrice
  · exact filled.qty_ne_nil noQty

/-- The members of an event of a filled form. -/
theorem event_members {amount number : JsNumber} (form : OrderForm)
    (isAmount : parseFloat (some form.orderPrice) = amount)
    (isNumber : parseInt (some form.orderQty) = number) :
    form.event.member Field.side.name = some (some (.string form.orderSide.word)) ∧
      form.event.member Field.price.name = some (some amount.toJson) ∧
      form.event.member Field.qty.name = some (some number.toJson) := by
  unfold event
  rw [isAmount, isNumber]
  exact ⟨rfl, rfl, rfl⟩

/-- The event has the double of the price and the quantity. -/
theorem Filled.submitted (filled : form.Filled cents qty) (price : cents < 2 ^ 51)
    (few : qty < 2 ^ 53) : Exists fun amount =>
      Submitted form.event form.orderSide amount qty ∧
        |100 * amount - cents| ≤ 25 / 128 := by
  rcases nearest_cents filled.pricePositive price with ⟨amount, isAmount, positive, near⟩
  have isDouble := nearest_natCast filled.qtyPositive (le_of_lt few)
  have isPrice : parseFloat (some form.orderPrice) = .finite amount := by
    rw [parseFloat_decimal filled.isPrice, JsNumber.ofRat_of_nearest isAmount]
  have isQty : parseInt (some form.orderQty) = .finite qty := by
    rw [parseInt_run filled.digits filled.qty_ne_nil, filled.isQty,
      JsNumber.ofRat_of_nearest isDouble]
  have kept : nearest amount = some amount := by
    have above : (0 : Rat) < cents / 100 := div_pos (by exact_mod_cast filled.pricePositive) (by norm_num)
    rcases isDouble_of_nearest above positive isAmount with ⟨multiple, unit, double⟩
    have small : (cents : Rat) < 2 ^ 51 := by exact_mod_cast price
    have bounds := abs_le.mp near
    exact double.nearest (lt_finite (by linarith : amount ≤ 2 ^ 51) (by norm_num))
  rcases event_members form isPrice isQty with ⟨side, price, number⟩
  refine ⟨amount, ⟨⟨_, side, ?_⟩, price, number, positive, by exact_mod_cast filled.qtyPositive,
    kept, isDouble⟩, near⟩
  cases form.orderSide <;> decide

/-- The line that is written for the event is accepted as an order with the typed side,
price and quantity. -/
theorem Filled.accepted (filled : form.Filled cents qty) (price : cents < 2 ^ 51)
    (few : qty < 2 ^ 53) : Exists fun order => Exists fun line =>
      form.handleSubmit.1 = some order ∧ order.written = line ++ ['\n'] ∧
      forall outOfRange state, state.pool.freelistHead ≠ none ->
        LoopState.accepted (.binary64 outOfRange) state line =
          some ⟨state.nextId, UInt64.ofNat cents, UInt64.ofNat qty, form.orderSide⟩ := by
  rcases filled.submitted price few with ⟨amount, submitted, near⟩
  have exactly := writtenExactly_of_lt filled.qtyPositive few
  rcases shortestDecimal_exists submitted.qtyPositive submitted.qtyDouble with ⟨decimal, isDecimal⟩
  have leading : leadingInteger decimal = qty := by
    exact_mod_cast (leadingInteger_eq_iff submitted.qtyPositive submitted.qtyDouble isDecimal).mpr exactly
  refine ⟨form.event, _, by rw [filled.handleSubmit_eq], submitted.written, ?_⟩
  intro outOfRange state available
  have read := submitted.parse isDecimal outOfRange
  rw [leading, if_pos (lt_trans few (by norm_num))] at read
  refine LoopState.accepted_iff.mpr ⟨amount, qty, read, ⟨submitted.pricePositive,
    by exact_mod_cast filled.qtyPositive⟩, available, ?_⟩
  have same : (Arithmetic.binary64 outOfRange).hundredths amount = UInt64.ofNat cents := by
    rw [← hundredths_of_cents filled.pricePositive price near outOfRange, UInt64.ofNat_toNat]
  have number : UInt64.ofInt (qty : Int) = UInt64.ofNat qty := by
    rw [UInt64.ofInt, Int.emod_eq_of_lt (by omega) (by omega), Int.toNat_natCast]
  rw [same, number]

/-- What is typed is what the engine is handed: a price of up to `2 ^ 51` cents in
any decimal notation, and a quantity below `2 ^ 53`.  The text is rounded to a
double, printed, read as a double and scaled by a hundred on its way. -/
theorem typed_orders_exact (isPrice : DecimalText form.orderPrice ((cents : Rat) / 100))
    (isDigits : Within isDigit form.orderQty) (isQty : digitsValue form.orderQty = qty)
    (price : 0 < cents ∧ cents < 2 ^ 51) (quantity : 0 < qty ∧ qty < 2 ^ 53) :
    Exists fun order => Exists fun line =>
      form.handleSubmit.1 = some order ∧ order.written = line ++ ['\n'] ∧
      forall outOfRange state, state.pool.freelistHead ≠ none ->
        LoopState.accepted (.binary64 outOfRange) state line =
          some ⟨state.nextId, UInt64.ofNat cents, UInt64.ofNat qty, form.orderSide⟩ :=
  Filled.accepted ⟨isPrice, isDigits, isQty, price.1, quantity.1⟩ price.2 quantity.2

theorem typed_orders_exact_dollar : Exists fun order => Exists fun line =>
    (OrderForm.mk .Buy "1.50".toList "7".toList).handleSubmit.1 = some order ∧
      order.written = line ++ ['\n'] ∧
      LoopState.accepted (.binary64 fun _ => 0) (.fresh Engine.blank.heap) line =
        some ⟨1, 150, 7, .Buy⟩ := by
  have isPrice : DecimalText "1.50".toList ((150 : Nat) / 100 : Rat) := by
    have text : "1.50".toList = hundredthsText 150 := by decide +kernel
    rw [text]
    exact decimalText_hundredths 150
  rcases @typed_orders_exact ⟨.Buy, "1.50".toList, "7".toList⟩ 150 7 isPrice
    (within_of_all (by decide)) (by decide) (by decide) (by decide) with
    ⟨order, line, isOrder, isWritten, accepts⟩
  exact ⟨order, line, isOrder, isWritten, accepts _ _ (LoopState.fresh_head _)⟩

end OrderForm
end NexusHft
