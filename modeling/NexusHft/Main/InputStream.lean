import NexusHft.Core.Types
import NexusHft.Foundations.DecimalText
import Mathlib.Algebra.Order.Floor.Ring
import Mathlib.Data.Rat.Floor

namespace NexusHft

open Foundations

/-!
# Extraction from an input stream

What `>>` takes from a stream over a line: a word, a `double` and a
`long long`, each after leading white space.  An extraction answers `none` when
it sets the fail bit; otherwise it answers the value and the text that is left.

A number is scanned as far as its grammar goes and must then convert as a
whole: an exponent without digits fails, and so does a value that does not fit.
The only thing not fixed here is how doubles round, since every result that is
wanted holds for any rounding.
-/

/-- What the program relies on the machine for: the double nearest to an exact
result, or `none` for an infinity, and a conversion to an unsigned integer that
the value does not fit. -/
structure Arithmetic where
  round : Rat -> Option Rat
  outOfRange : Option Rat -> UInt64

/-- Doubles that never need rounding. -/
def Arithmetic.exact : Arithmetic where
  round := some
  outOfRange := fun _ => 0

/-- `isspace` in the C locale: the blank and the characters from tab to carriage return. -/
def isSpace (char : Char) : Bool := char.toNat = 32 || (9 ≤ char.toNat && char.toNat ≤ 13)

theorem isSpace_of_isDigit {char : Char} (digit : isDigit char = true) : isSpace char = false := by
  simp only [isDigit, isSpace, Bool.and_eq_true, Bool.or_eq_false_iff, Bool.and_eq_false_iff,
    decide_eq_true_eq, decide_eq_false_iff_not] at digit ⊢
  omega

def skipSpaces (input : Text) : Text := input.dropWhile isSpace

/-- `iss >> command`; on a blank stream the word stays empty. -/
def extractWord (input : Text) : Text × Text :=
  (skipSpaces input).span (fun char => !isSpace char)

theorem extractWord_of_space {char : Char} (space : isSpace char = true) (rest : Text) :
    extractWord (char :: rest) = extractWord rest := by
  rw [extractWord, skipSpaces, List.dropWhile_cons_of_pos space]
  rfl

theorem extractWord_of_solid {char : Char} (solid : isSpace char = false) (rest : Text) :
    (extractWord (char :: rest)).1 = char :: rest.takeWhile fun char => !isSpace char := by
  rw [extractWord, skipSpaces, List.dropWhile_cons_of_neg (by rw [solid]; exact Bool.false_ne_true),
    List.span_eq_takeWhile_dropWhile, List.takeWhile_cons_of_pos (by rw [solid]; rfl)]

/-- An optional sign: whether it is a minus, and what follows it. -/
def scanSign : Text -> Bool × Text
  | '+' :: rest => (false, rest)
  | '-' :: rest => (true, rest)
  | input => (false, input)

def signed (negative : Bool) (value : Nat) : Int := if negative then -value else value

/-- The value of a mantissa without its point, shifted by a power of ten. -/
def decimalValue (negative : Bool) (mantissa : Text) (scale : Int) : Rat :=
  signed negative (digitsValue mantissa) * (10 : Rat) ^ scale

/-- `iss >> qty_input`. -/
def extractInteger (input : Text) : Option (Int × Text) :=
  let sign := scanSign (skipSpaces input)
  let digits := scanDigits sign.2
  let value := signed sign.1 (digitsValue digits.1)
  if digits.1 = [] then none
  else if -2 ^ 63 ≤ value ∧ value < 2 ^ 63 then some (value, digits.2)
  else none

/-- The digits after a decimal point, if there is one. -/
def scanFraction : Text -> Text × Text
  | '.' :: rest => scanDigits rest
  | input => ([], input)

/-- The exponent after a mantissa, `0` if there is none. -/
def scanExponent : Text -> Option (Int × Text)
  | 'e' :: rest | 'E' :: rest =>
      let sign := scanSign rest
      let digits := scanDigits sign.2
      if digits.1 = [] then none else some (signed sign.1 (digitsValue digits.1), digits.2)
  | input => some (0, input)

/-- `iss >> price_input`. -/
def extractDouble (arithmetic : Arithmetic) (input : Text) : Option (Rat × Text) :=
  let sign := scanSign (skipSpaces input)
  let whole := scanDigits sign.2
  let fraction := scanFraction whole.2
  let mantissa := whole.1 ++ fraction.1
  if mantissa = [] then none
  else
    (scanExponent fraction.2).bind fun exponent =>
      (arithmetic.round (decimalValue sign.1 mantissa (exponent.1 - fraction.1.length))).map
        fun value => (value, exponent.2)

/-- `static_cast<Price>(price_input * 100.0 + 0.5)`: a truncation, where the
value fits. -/
def Arithmetic.hundredths (arithmetic : Arithmetic) (priceInput : Rat) : Price :=
  let scaled := (arithmetic.round (priceInput * 100)).bind fun product =>
    arithmetic.round (product + 1 / 2)
  match scaled with
  | none => arithmetic.outOfRange none
  | some value =>
      if -1 < value ∧ value < 2 ^ 64 then UInt64.ofNat ⌊value⌋.toNat
      else arithmetic.outOfRange (some value)

end NexusHft
