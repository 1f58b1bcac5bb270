import NexusHft.Main.CommandGrammar
import NexusHft.Main.PriceConversion
import NexusHft.Web.NumberText
import Mathlib.Algebra.Order.Floor.Semifield

namespace NexusHft

open Foundations

/-!
# Numbers from the script to the engine

The text of a number is a literal: digits, perhaps a point and more digits, and
perhaps an exponent.  An extraction of a double takes the whole literal and
rounds its value, which for a printed number gives the number back.  An
extraction of an integer takes only the digits in front of the point, or in
front of the exponent.
-/

/-- A spelling of a number as the script writes it: digits, perhaps a point with
more of them, perhaps a power of ten. -/
structure Literal where
  whole : Text
  fraction : Text
  exponent : Option Int
  begun : whole ≠ []
  wholeDigits : forall char, char ∈ whole -> isDigit char = true
  fractionDigits : forall char, char ∈ fraction -> isDigit char = true

namespace Literal

def pointText (literal : Literal) : Text :=
  if literal.fraction = [] then [] else '.' :: literal.fraction

def behindText (literal : Literal) : Text := literal.exponent.elim [] exponentText

def text (literal : Literal) : Text :=
  literal.whole ++ (literal.pointText ++ literal.behindText)

def value (literal : Literal) : Rat :=
  digitsValue (literal.whole ++ literal.fraction) *
    (10 : Rat) ^ (literal.exponent.getD 0 - literal.fraction.length)

end Literal

/-- The text is over, or a blank follows. -/
def Ends (rest : Text) : Prop := forall char, rest.head? = some char -> char = ' '

/-! ## Extraction -/

section Extraction

variable {literal : Literal} {rest : Text}

theorem Ends.severed (ends : Ends rest) : Severed rest := by
  intro char first
  rw [ends char first]
  exact .inl rfl

theorem exponentText_isExponent (exponent : Int) :
    ExponentText (exponentText exponent) exponent := by
  have all : Within isDigit (digits exponent.natAbs) := fun _ => isDigit_of_mem_digits
  unfold exponentText
  by_cases negative : exponent < 0
  · have value : signed true (digitsValue (digits exponent.natAbs)) = exponent := by
      rw [digitsValue_digits, signed, if_pos rfl]
      omega
    have power := ExponentText.power (.inl rfl : 'e' = 'e' ∨ _) .minus all (digits_ne_nil _)
    rw [value] at power
    rw [if_pos negative]
    exact power
  · have value : signed false (digitsValue (digits exponent.natAbs)) = exponent := by
      rw [digitsValue_digits, signed, if_neg Bool.false_ne_true]
      omega
    have power := ExponentText.power (.inl rfl : 'e' = 'e' ∨ _) .plus all (digits_ne_nil _)
    rw [value] at power
    rw [if_neg negative]
    exact power

namespace Literal

theorem isFraction (literal : Literal) : FractionText literal.pointText literal.fraction := by
  unfold pointText
  split
  · rename_i empty
    rw [empty]
    exact .absent
  · exact .point literal.fractionDigits

theorem isExponent (literal : Literal) :
    ExponentText literal.behindText (literal.exponent.getD 0) := by
  unfold behindText
  cases literal.exponent with
  | none => exact .absent
  | some exponent => exact exponentText_isExponent exponent

/-- A literal is a decimal number, and its digits in front are an integer. -/
theorem isDecimal (literal : Literal) : DecimalText literal.text literal.value :=
  .number .absent literal.wholeDigits literal.isFraction
    (List.append_ne_nil_of_left_ne_nil literal.begun _) literal.isExponent

theorem isInteger (literal : Literal) : IntegerText literal.whole (digitsValue literal.whole) :=
  .number .absent literal.wholeDigits literal.begun

end Literal

theorem extractDouble_literal (arithmetic : Arithmetic) (literal : Literal) (ends : Ends rest) :
    extractDouble arithmetic (literal.text ++ rest) =
      (arithmetic.round literal.value).map fun value => (value, rest) :=
  @DecimalText.extract _ _ arithmetic [] _ literal.isDecimal
    (fun _ member => absurd member List.not_mem_nil) ends.severed

theorem extractInteger_literal (literal : Literal) (ends : Ends rest) :
    extractInteger (literal.text ++ rest) =
      if digitsValue literal.whole < 2 ^ 63 then
        some ((digitsValue literal.whole : Int), literal.pointText ++ (literal.behindText ++ rest))
      else none := by
  have taken := @IntegerText.extract _ _ [] _ literal.isInteger
    (fun _ member => absurd member List.not_mem_nil)
    (literal.isFraction.behind literal.isExponent ends.severed)
  rw [Literal.text, List.append_assoc, List.append_assoc]
  refine taken.trans (if_congr ?_ rfl rfl)
  omega

/-- A blank in front is skipped. -/
theorem extractDouble_blank (arithmetic : Arithmetic) (input : Text) :
    extractDouble arithmetic (' ' :: input) = extractDouble arithmetic input := rfl

theorem extractInteger_blank (input : Text) :
    extractInteger (' ' :: input) = extractInteger input := rfl

end Extraction

/-! ## Printed numbers -/

/-- The digits of a printed number in front of its point or exponent. -/
def leadingInteger (decimal : Decimal) : Nat :=
  if IsPositional decimal.point then
    if decimal.places ≤ decimal.point then
      decimal.significand * 10 ^ (decimal.point - decimal.places).toNat
    else decimal.significand / 10 ^ (decimal.places - decimal.point).toNat
  else decimal.significand / 10 ^ (decimal.places - 1)

theorem decimal_length (decimal : Decimal) :
    (digits decimal.significand).length = decimal.places :=
  digits_length decimal.lower decimal.upper

theorem isDigit_zeros {count : Nat} {char : Char} (member : char ∈ List.replicate count '0') :
    isDigit char = true := by
  rw [List.eq_of_mem_replicate member]
  rfl

/-- The figures of a decimal, with the point behind some of them. -/
theorem decimalText_split (decimal : Decimal) {count : Nat} (exponent : Option Int)
    (begun : 0 < count) (short : count ≤ decimal.places)
    (point : exponent.getD 0 + count = decimal.point) :
    Exists fun literal : Literal =>
      literal.text = (digits decimal.significand).take count ++
        ((if decimal.places = count then [] else '.' :: (digits decimal.significand).drop count) ++
          exponent.elim [] exponentText) ∧
      literal.value = decimal.value ∧
      digitsValue literal.whole = decimal.significand / 10 ^ (decimal.places - count) := by
  have all : forall char, char ∈ digits decimal.significand -> isDigit char = true :=
    fun char => isDigit_of_mem_digits
  have length := decimal_length decimal
  have dropped : ((digits decimal.significand).drop count).length = decimal.places - count := by
    rw [List.length_drop, length]
  refine ⟨⟨(digits decimal.significand).take count, (digits decimal.significand).drop count,
    exponent, ?_, fun char member => all char (List.mem_of_mem_take member),
    fun char member => all char (List.mem_of_mem_drop member)⟩, ?_, ?_, ?_⟩
  · apply List.ne_nil_of_length_pos
    rw [List.length_take, length]
    omega
  · rw [Literal.text, Literal.pointText, Literal.behindText]
    dsimp only
    congr 2
    refine if_congr ?_ rfl rfl
    rw [← List.length_eq_zero_iff, dropped]
    omega
  · rw [Literal.value, Decimal.value]
    dsimp only
    rw [List.take_append_drop, digitsValue_digits, dropped]
    congr 2
    omega
  · dsimp only
    rw [digitsValue_take all, digitsValue_digits, dropped]

/-- The figures of a decimal with zeros behind them. -/
theorem decimalText_integral (decimal : Decimal) (zeros : Nat)
    (point : (decimal.places : Int) + zeros = decimal.point) :
    Exists fun literal : Literal =>
      literal.text = digits decimal.significand ++ List.replicate zeros '0' ∧
      literal.value = decimal.value ∧
      digitsValue literal.whole = decimal.significand * 10 ^ zeros := by
  have value : digitsValue (digits decimal.significand ++ List.replicate zeros '0') =
      decimal.significand * 10 ^ zeros := by
    rw [digitsValue_append, digitsValue_zeros, digitsValue_digits, List.length_replicate, add_zero,
      mul_comm]
  refine ⟨⟨digits decimal.significand ++ List.replicate zeros '0', [], none,
    List.append_ne_nil_of_left_ne_nil (digits_ne_nil _) _, ?_, fun _ member => nomatch member⟩,
    ?_, ?_, value⟩
  · intro char member
    rcases List.mem_append.mp member with figure | zero
    · exact isDigit_of_mem_digits figure
    · exact isDigit_zeros zero
  · rw [Literal.text, Literal.pointText, Literal.behindText]
    exact List.append_nil _
  · rw [Literal.value, Decimal.value]
    dsimp only
    rw [List.append_nil, value, ← point]
    push_cast
    rw [add_sub_cancel_left, zpow_natCast]
    norm_num

/-- The figures of a decimal behind a point and zeros. -/
theorem decimalText_fraction (decimal : Decimal) (zeros : Nat) (point : -(zeros : Int) = decimal.point) :
    Exists fun literal : Literal =>
      literal.text = '0' :: '.' :: (List.replicate zeros '0' ++ digits decimal.significand) ∧
      literal.value = decimal.value ∧ digitsValue literal.whole = 0 := by
  refine ⟨⟨['0'], List.replicate zeros '0' ++ digits decimal.significand, none,
    List.cons_ne_nil _ _, ?_, ?_⟩, ?_, ?_, rfl⟩
  · intro char member
    rw [List.mem_singleton.mp member]
    rfl
  · intro char member
    rcases List.mem_append.mp member with zero | figure
    · exact isDigit_zeros zero
    · exact isDigit_of_mem_digits figure
  · rw [Literal.text, Literal.pointText, Literal.behindText,
      if_neg (List.append_ne_nil_of_right_ne_nil _ (digits_ne_nil _))]
    exact congrArg (fun text => '0' :: '.' :: text) (List.append_nil _)
  · have none : digitsValue ['0'] = 0 := rfl
    rw [Literal.value, Decimal.value]
    dsimp only
    rw [digitsValue_append, digitsValue_append, digitsValue_zeros, digitsValue_digits, none,
      mul_zero, mul_zero, zero_add, zero_add, List.length_append, List.length_replicate,
      decimal_length, ← point]
    congr 2
    push_cast
    rw [Option.getD_none]
    ring

/-- The text of a decimal is a literal of its value, whichever of the three
notations the script chooses for it. -/
theorem decimalText_literal (decimal : Decimal) :
    Exists fun literal : Literal => literal.text = decimalText decimal ∧
      literal.value = decimal.value ∧ digitsValue literal.whole = leadingInteger decimal := by
  have places := decimal.places_pos
  unfold decimalText leadingInteger
  dsimp only
  by_cases positional : IsPositional decimal.point
  · rw [if_pos positional, if_pos positional]
    by_cases integral : (decimal.places : Int) ≤ decimal.point
    · rw [if_pos integral, if_pos integral]
      exact decimalText_integral decimal _ (by omega)
    rw [if_neg integral, if_neg integral]
    by_cases inside : 0 < decimal.point
    · rw [if_pos inside]
      rcases @decimalText_split decimal decimal.point.toNat none (by omega) (by omega)
        (by rw [Option.getD_none]; omega) with ⟨literal, text, value, whole⟩
      refine ⟨literal, ?_, value, ?_⟩
      · rw [text, if_neg (by omega), Option.elim_none, List.append_nil]
      · rw [whole]
        congr 2
        omega
    · rw [if_neg inside]
      rcases decimalText_fraction decimal (-decimal.point).toNat (by omega)
        with ⟨literal, text, value, whole⟩
      refine ⟨literal, text, value, whole.trans (Nat.div_eq_of_lt ?_).symm⟩
      exact lt_of_lt_of_le decimal.upper (Nat.pow_le_pow_right (by norm_num) (by omega))
  · rw [if_neg positional, if_neg positional]
    rcases @decimalText_split decimal 1 (some (decimal.point - 1)) one_pos places
      (by rw [Option.getD_some]; omega) with ⟨literal, text, value, whole⟩
    refine ⟨literal, ?_, value, whole⟩
    rw [text, Option.elim_some]
    split
    · rename_i one
      rw [List.nil_append, List.take_of_length_le (by rw [decimal_length]; omega)]
    · rfl

/-- The value of the text of a positive number. -/
def printedValue (value : Rat) : Rat := (shortestDecimal value).elim 0 Decimal.value

section Printed

variable {value : Rat} {rest : Text}

/-- Every positive double has a text. -/
theorem shortestDecimal_exists (positive : 0 < value) (kept : nearest value = some value) :
    Exists fun decimal => shortestDecimal value = some decimal := by
  rcases isDouble_of_nearest positive positive kept with ⟨multiple, unit, double⟩
  exact shortest_exists positive kept (double.mul_pow_ten double.normal)

variable {decimal : Decimal} (isDecimal : shortestDecimal value = some decimal)

include isDecimal

theorem positiveText_literal : Exists fun literal : Literal => literal.text = positiveText value ∧
    literal.value = decimal.value ∧ digitsValue literal.whole = leadingInteger decimal := by
  rw [positiveText, isDecimal]
  exact decimalText_literal decimal

/-- The engine reads a price as the number that the script wrote. -/
theorem extractDouble_positiveText (outOfRange : Option Rat -> UInt64) (ends : Ends rest) :
    extractDouble (.binary64 outOfRange) (positiveText value ++ rest) = some (value, rest) := by
  rcases positiveText_literal isDecimal with ⟨literal, text, same, -⟩
  rw [← text, extractDouble_literal _ literal ends, same, Arithmetic.binary64]
  dsimp only
  rw [(shortest_spec isDecimal).1]
  rfl

/-- Of a quantity it reads the leading digits. -/
theorem extractInteger_positiveText : Exists fun behind => extractInteger (positiveText value) =
    if leadingInteger decimal < 2 ^ 63 then some ((leadingInteger decimal : Int), behind)
    else none := by
  rcases positiveText_literal isDecimal with ⟨literal, text, -, whole⟩
  have read := @extractInteger_literal [] literal fun _ first => nomatch first
  rw [List.append_nil, text, whole] at read
  exact ⟨_, read⟩

end Printed

/-! ## Leading digits -/

section Leading

variable (decimal : Decimal)

/-- In positional notation they are the integral part. -/
theorem leadingInteger_of_positional (positional : IsPositional decimal.point) :
    leadingInteger decimal = ⌊decimal.value⌋₊ := by
  rw [leadingInteger, if_pos positional]
  split
  · rename_i integral
    rw [decimal.value_of_integral integral, Nat.floor_natCast]
  · rename_i fractional
    have natural : ((decimal.places - decimal.point).toNat : Int) =
        decimal.places - decimal.point := by omega
    have power : (10 : Rat) ^ (decimal.point - decimal.places) =
        ((10 ^ (decimal.places - decimal.point).toNat : Nat) : Rat)⁻¹ := by
      push_cast
      rw [← zpow_natCast, natural, ← zpow_neg, neg_sub]
    rw [Decimal.value, power, ← div_eq_mul_inv, Nat.floor_div_eq_div]

/-- Otherwise they are one digit, and not zero. -/
theorem leadingInteger_of_not_positional (scientific : ¬ IsPositional decimal.point) :
    1 ≤ leadingInteger decimal ∧ leadingInteger decimal ≤ 9 := by
  rw [leadingInteger, if_neg scientific]
  have power : 0 < 10 ^ (decimal.places - 1) := Nat.pow_pos (by norm_num)
  have places := decimal.places_pos
  constructor
  · exact (Nat.one_le_div_iff power).mpr decimal.lower
  · apply Nat.le_of_lt_succ
    apply (Nat.div_lt_iff_lt_mul power).mpr
    calc decimal.significand < 10 ^ decimal.places := decimal.upper
      _ = 10 * 10 ^ (decimal.places - 1) := by rw [← pow_succ', Nat.sub_add_cancel places]

end Leading

end NexusHft
