import NexusHft.Foundations.ShortestDecimal
import NexusHft.Web.JsText

namespace NexusHft

open Foundations

/-!
# The text of a number

The script writes a finite number by its shortest decimal: in positional
notation while the point is not too far from the digits, and otherwise with one
digit before the point and an exponent.
-/

/-- The powers of ten of the exponents for which no exponent is written. -/
def IsPositional (point : Int) : Prop := -5 ≤ point ∧ point ≤ 21

instance (point : Int) : Decidable (IsPositional point) :=
  inferInstanceAs (Decidable (_ ∧ _))

/-- The exponent of a decimal whose point stands behind its first digit. -/
def exponentText (exponent : Int) : Text :=
  'e' :: (if exponent < 0 then '-' else '+') :: digits exponent.natAbs

def decimalText (decimal : Decimal) : Text :=
  let figures := digits decimal.significand
  if IsPositional decimal.point then
    if decimal.places ≤ decimal.point then
      figures ++ List.replicate (decimal.point - decimal.places).toNat '0'
    else if 0 < decimal.point then
      figures.take decimal.point.toNat ++ '.' :: figures.drop decimal.point.toNat
    else '0' :: '.' :: (List.replicate (-decimal.point).toNat '0' ++ figures)
  else if decimal.places = 1 then figures ++ exponentText (decimal.point - 1)
  else figures.take 1 ++ '.' :: (figures.drop 1 ++ exponentText (decimal.point - 1))

/-- No double needs more than 1074 binary, and so decimal, places. -/
def shortestDecimal (value : Rat) : Option Decimal := shortest nearest 1074 value

def positiveText (value : Rat) : Text := (shortestDecimal value).elim [] decimalText

/-- `String(number)`. -/
def JsNumber.toText : JsNumber -> Text
  | nan => "NaN".toList
  | infinity negative => if negative then "-Infinity".toList else "Infinity".toList
  | finite value =>
      if value = 0 then "0".toList
      else if value < 0 then '-' :: positiveText (-value)
      else positiveText value

/-! ## Characters -/

/-- What the text of a finite number is made of. -/
def isNumeric (char : Char) : Bool := isDigit char || ".e+-".toList.contains char

theorem isNumeric_of_isDigit {char : Char} (digit : isDigit char = true) : isNumeric char = true := by
  rw [isNumeric, digit, Bool.true_or]

theorem isNumeric_digits (value : Nat) : (digits value).all isNumeric = true :=
  List.all_eq_true.mpr fun _ member => isNumeric_of_isDigit (isDigit_of_mem_digits member)

theorem isNumeric_take {text : Text} (all : text.all isNumeric = true) (count : Nat) :
    (text.take count).all isNumeric = true :=
  List.all_eq_true.mpr fun char member =>
    List.all_eq_true.mp all char (List.mem_of_mem_take member)

theorem isNumeric_drop {text : Text} (all : text.all isNumeric = true) (count : Nat) :
    (text.drop count).all isNumeric = true :=
  List.all_eq_true.mpr fun char member =>
    List.all_eq_true.mp all char (List.mem_of_mem_drop member)

theorem isNumeric_zeros (count : Nat) : (List.replicate count '0').all isNumeric = true := by
  apply List.all_eq_true.mpr
  intro char member
  rw [List.eq_of_mem_replicate member]
  rfl

theorem isNumeric_exponentText (exponent : Int) : (exponentText exponent).all isNumeric = true := by
  have sign : isNumeric (if exponent < 0 then '-' else '+') = true := by split <;> rfl
  rw [exponentText, List.all_cons, List.all_cons, sign, isNumeric_digits]
  rfl

theorem isNumeric_decimalText (decimal : Decimal) : (decimalText decimal).all isNumeric = true := by
  have figures := isNumeric_digits decimal.significand
  have point : isNumeric '.' = true := rfl
  have zero : isNumeric '0' = true := rfl
  unfold decimalText
  dsimp only
  split_ifs <;>
    simp only [List.all_append, List.all_cons, figures, point, zero, isNumeric_take figures,
      isNumeric_drop figures, isNumeric_zeros, isNumeric_exponentText, Bool.and_self]

theorem isNumeric_positiveText (value : Rat) : (positiveText value).all isNumeric = true := by
  unfold positiveText
  cases shortestDecimal value with
  | none => rfl
  | some decimal => exact isNumeric_decimalText decimal

end NexusHft
