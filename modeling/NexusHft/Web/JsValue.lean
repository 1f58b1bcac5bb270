import NexusHft.Web.Json
import NexusHft.Web.NumberText

namespace NexusHft

open Foundations

/-!
# Conversions of the script language

What a value that came as JSON is when it is used as a condition, a number or a
text.  A missing member is `undefined`.  A conversion answers `none` when it
throws: an object converts through its method `toString`, and a member of that
name, which is never a function, hides the method.

A string is a sequence of 16 bit units; its spelling has escapes.  It is read
as the text it is written out as, in which a surrogate without its other half
becomes the replacement character.
-/

/-! ## Strings -/

def hexValue (char : Char) : Nat :=
  if isDigit char then char.toNat - 48
  else if char.toNat ≤ 70 then char.toNat - 55
  else char.toNat - 87

/-- The value of digits in a base up to sixteen. -/
def radixValue (base : Nat) (digits : Text) : Nat :=
  digits.foldl (fun value digit => base * value + hexValue digit) 0

/-- The units of a character. -/
def utf16 (char : Char) : List Nat :=
  let code := char.toNat
  if code < 0x10000 then [code]
  else [0xD800 + (code - 0x10000) / 0x400, 0xDC00 + (code - 0x10000) % 0x400]

def isHighSurrogate (unit : Nat) : Bool := 0xD800 ≤ unit && unit < 0xDC00

def isLowSurrogate (unit : Nat) : Bool := 0xDC00 ≤ unit && unit < 0xE000

/-- A unit on its own. -/
def loneUnit (unit : Nat) : Char :=
  if isHighSurrogate unit || isLowSurrogate unit then Char.ofNat 0xFFFD else Char.ofNat unit

/-- The text of a sequence of units. -/
def decodeUtf16 : List Nat -> Text
  | [] => []
  | [unit] => [loneUnit unit]
  | high :: low :: rest =>
      if isHighSurrogate high && isLowSurrogate low then
        Char.ofNat (0x10000 + 0x400 * (high - 0xD800) + (low - 0xDC00)) :: decodeUtf16 rest
      else loneUnit high :: decodeUtf16 (low :: rest)

/-- The character that a short escape stands for. -/
def escapedChar (char : Char) : Char :=
  if char = 'b' then Char.ofNat 8
  else if char = 't' then Char.ofNat 9
  else if char = 'n' then Char.ofNat 10
  else if char = 'f' then Char.ofNat 12
  else if char = 'r' then Char.ofNat 13
  else char

/-- The units of a spelling. -/
def spelledUnits : Text -> List Nat
  | [] => []
  | '\\' :: 'u' :: first :: second :: third :: fourth :: rest =>
      radixValue 16 [first, second, third, fourth] :: spelledUnits rest
  | '\\' :: escaped :: rest => (escapedChar escaped).toNat :: spelledUnits rest
  | char :: rest => utf16 char ++ spelledUnits rest

def unescape (spelling : Text) : Text := decodeUtf16 (spelledUnits spelling)

/-! ## Numbers -/

/-- The base of a literal that names it, and the digits behind the mark. -/
def radixMark : Text -> Option (Nat × Text)
  | '0' :: mark :: rest =>
      if mark = 'x' ∨ mark = 'X' then some (16, rest)
      else if mark = 'o' ∨ mark = 'O' then some (8, rest)
      else if mark = 'b' ∨ mark = 'B' then some (2, rest)
      else none
  | _ => none

def radixLiteral (base : Nat) (digits : Text) : JsNumber :=
  if digits ≠ [] ∧ digits.all (fun digit => Json.isHex digit && hexValue digit < base) = true then
    .ofRat (radixValue base digits)
  else .nan

/-- A decimal literal, which must be the whole text. -/
def decimalLiteral (text : Text) : JsNumber :=
  let sign := scanSign text
  if sign.2 = "Infinity".toList then .infinity sign.1
  else
    let whole := scanDigits sign.2
    let fraction := scanFraction whole.2
    let mantissa := whole.1 ++ fraction.1
    if mantissa = [] then .nan
    else
      match scanExponent fraction.2 with
      | some (exponent, []) =>
          .ofRat (decimalValue sign.1 mantissa (exponent - fraction.1.length))
      | _ => .nan

/-- `Number(string)`. -/
def stringToNumber (text : Text) : JsNumber :=
  let literal := trim text
  if literal = [] then .finite 0
  else
    match radixMark literal with
    | some (base, digits) => radixLiteral base digits
    | none => decimalLiteral literal

def JsNumber.isPositive : JsNumber -> Bool
  | nan => false
  | infinity negative => !negative
  | finite value => 0 < value

/-! ## Values -/

namespace Json

/-- The member of a name that was written last. -/
def lastMember (members : List (Text × Json)) (name : Text) : Option Json :=
  (members.reverse.find? fun member => unescape member.1 = name).map Prod.snd

/-- `value.name`, where no prototype has the name. -/
def member : Json -> Text -> Option (Option Json)
  | null, _ => none
  | object members, name => some (lastMember members name)
  | _, _ => some none

def isTruthy : Option Json -> Bool
  | none => false
  | some null => false
  | some (bool value) => value
  | some (number .nan) => false
  | some (number (.infinity _)) => true
  | some (number (.finite value)) => value ≠ 0
  | some (string spelling) => unescape spelling ≠ []
  | some (array _) => true
  | some (object _) => true

mutual

/-- `String(value)`. -/
def toText : Json -> Option Text
  | null => some "null".toList
  | bool value => if value then some "true".toList else some "false".toList
  | number value => some value.toText
  | string spelling => some (unescape spelling)
  | array items => (itemTexts items).map (List.intercalate [','])
  | object members =>
      if (lastMember members "toString".toList).isSome then none
      else some "[object Object]".toList

/-- The texts that `join` puts commas between; it leaves `null` out. -/
def itemTexts : List Json -> Option (List Text)
  | [] => some []
  | item :: items =>
      match item with
      | null => (itemTexts items).map fun texts => [] :: texts
      | item => (toText item).bind fun text => (itemTexts items).map fun texts => text :: texts

end

/-- `Number(value)`. -/
def toNumber : Json -> Option JsNumber
  | null => some (.finite 0)
  | bool value => some (.finite (if value then 1 else 0))
  | number value => some value
  | string spelling => some (stringToNumber (unescape spelling))
  | value => value.toText.map stringToNumber

/-- `value > 0`. -/
def isPositive : Option Json -> Option Bool
  | none => some false
  | some value => value.toNumber.map JsNumber.isPositive

/-- `${value}`. -/
def template : Option Json -> Option Text
  | none => some "undefined".toList
  | some value => value.toText

end Json
end NexusHft
