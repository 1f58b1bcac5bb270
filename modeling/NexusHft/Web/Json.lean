import NexusHft.Web.JsText

namespace NexusHft

open Foundations

/-!
# JSON.parse

A recursive descent over the text, with a budget for the depth that the length
of the text always covers.  A string is kept as it is spelled, escapes included,
and the members of an object in the order they are written.

Whatever is parsed is read from the front: the text that is left is a suffix,
and an object or an array is only left behind its closing bracket.
-/

/-- A value of the script as far as it can be sent: the members of an object are
kept in the order and the number in which they were written. -/
inductive Json where
  | null
  | bool (value : Bool)
  | number (value : JsNumber)
  | string (spelling : Text)
  | array (items : List Json)
  | object (members : List (Text × Json))

namespace Json

def isSpace (char : Char) : Bool :=
  char.toNat == 9 || char.toNat == 10 || char.toNat == 13 || char.toNat == 32

def skip (input : Text) : Text := input.dropWhile isSpace

def isHex (char : Char) : Bool :=
  isDigit char || (65 ≤ char.toNat && char.toNat ≤ 70) || (97 ≤ char.toNat && char.toNat ≤ 102)

/-- The rest of a string behind its opening quote. -/
def scanString : Text -> Option (Text × Text)
  | [] => none
  | '"' :: rest => some ([], rest)
  | '\\' :: 'u' :: first :: second :: third :: fourth :: rest =>
      if isHex first && isHex second && isHex third && isHex fourth then
        (scanString rest).map fun found =>
          ('\\' :: 'u' :: first :: second :: third :: fourth :: found.1, found.2)
      else none
  | '\\' :: escaped :: rest =>
      if "\"\\/bfnrt".toList.contains escaped then
        (scanString rest).map fun found => ('\\' :: escaped :: found.1, found.2)
      else none
  | char :: rest =>
      if char.toNat < 32 then none
      else (scanString rest).map fun found => (char :: found.1, found.2)

def scanLiteral : Text -> Option (Json × Text)
  | 't' :: 'r' :: 'u' :: 'e' :: rest => some (.bool true, rest)
  | 'f' :: 'a' :: 'l' :: 's' :: 'e' :: rest => some (.bool false, rest)
  | 'n' :: 'u' :: 'l' :: 'l' :: rest => some (.null, rest)
  | _ => none

/-- Where there is a point, digits must follow it. -/
def scanPlaces : Text -> Option (Text × Text)
  | '.' :: rest =>
      let run := scanDigits rest
      if run.1 = [] then none else some run
  | input => some ([], input)

def scanMinus : Text -> Bool × Text
  | '-' :: rest => (true, rest)
  | input => (false, input)

/-- A number; a zero is not followed by another digit. -/
def scanNumber (input : Text) : Option (Json × Text) :=
  let sign := scanMinus input
  let whole := scanDigits sign.2
  if whole.1 = [] ∨ (whole.1.head? = some '0' ∧ whole.1 ≠ ['0']) then none
  else
    (scanPlaces whole.2).bind fun places =>
      (scanExponent places.2).map fun exponent =>
        (.number (.ofRat (decimalValue sign.1 (whole.1 ++ places.1)
          (exponent.1 - places.1.length))), exponent.2)

mutual

def parseValue : Nat -> Text -> Option (Json × Text)
  | 0, _ => none
  | budget + 1, input =>
      match skip input with
      | [] => none
      | char :: rest =>
          if char = '\x7b' then
            match skip rest with
            | '\x7d' :: after => some (.object [], after)
            | _ => (parseMembers budget rest).map fun found => (.object found.1, found.2)
          else if char = '[' then
            match skip rest with
            | ']' :: after => some (.array [], after)
            | _ => (parseElements budget rest).map fun found => (.array found.1, found.2)
          else if char = '"' then
            (scanString rest).map fun found => (.string found.1, found.2)
          else (scanLiteral (char :: rest)).or (scanNumber (char :: rest))

def parseElements : Nat -> Text -> Option (List Json × Text)
  | 0, _ => none
  | budget + 1, input =>
      match parseValue budget input with
      | none => none
      | some (value, rest) =>
          match skip rest with
          | ',' :: more => (parseElements budget more).map fun found => (value :: found.1, found.2)
          | ']' :: after => some ([value], after)
          | _ => none

def parseMembers : Nat -> Text -> Option (List (Text × Json) × Text)
  | 0, _ => none
  | budget + 1, input =>
      match skip input with
      | '"' :: rest =>
          match scanString rest with
          | none => none
          | some (key, afterKey) =>
              match skip afterKey with
              | ':' :: beforeValue =>
                  match parseValue budget beforeValue with
                  | none => none
                  | some (value, afterValue) =>
                      match skip afterValue with
                      | ',' :: more =>
                          (parseMembers budget more).map fun found =>
                            ((key, value) :: found.1, found.2)
                      | '\x7d' :: after => some ([(key, value)], after)
                      | _ => none
              | _ => none
      | _ => none

end

/-- `JSON.parse`; `none` is an exception. -/
def parse (input : Text) : Option Json :=
  match parseValue (2 * input.length + 2) input with
  | none => none
  | some (value, rest) => if skip rest = [] then some value else none

/-! ## What is left of the text -/

section Suffix

variable {input rest text : Text}

theorem scanDigits_suffix (input : Text) : (scanDigits input).2 <:+ input := by
  rw [scanDigits, List.span_eq_takeWhile_dropWhile]
  exact List.dropWhile_suffix _

theorem scanString_suffix (scanned : scanString input = some (text, rest)) : rest <:+ input := by
  fun_induction scanString input generalizing text rest with
  | case1 => cases scanned
  | case2 after =>
      cases scanned
      exact List.suffix_cons _ _
  | case3 first second third fourth after hex inductionHypothesis =>
      rcases Option.map_eq_some_iff.mp scanned with ⟨found, isFound, same⟩
      cases same
      exact (inductionHypothesis isFound).trans ⟨['\\', 'u', first, second, third, fourth], rfl⟩
  | case4 => cases scanned
  | case5 escaped after _ known inductionHypothesis =>
      rcases Option.map_eq_some_iff.mp scanned with ⟨found, isFound, same⟩
      cases same
      exact (inductionHypothesis isFound).trans ⟨['\\', escaped], rfl⟩
  | case6 => cases scanned
  | case7 => cases scanned
  | case8 char after _ _ _ _ inductionHypothesis =>
      rcases Option.map_eq_some_iff.mp scanned with ⟨found, isFound, same⟩
      cases same
      exact (inductionHypothesis isFound).trans (List.suffix_cons _ _)

theorem scanLiteral_suffix {value : Json} (scanned : scanLiteral input = some (value, rest)) :
    rest <:+ input := by
  unfold scanLiteral at scanned
  split at scanned
  · cases scanned
    exact ⟨"true".toList, rfl⟩
  · cases scanned
    exact ⟨"false".toList, rfl⟩
  · cases scanned
    exact ⟨"null".toList, rfl⟩
  · cases scanned

theorem scanSign_suffix (input : Text) : (scanSign input).2 <:+ input := by
  unfold scanSign
  split
  · exact List.suffix_cons _ _
  · exact List.suffix_cons _ _
  · exact List.suffix_refl _

theorem scanExponent_suffix {exponent : Int} (scanned : scanExponent input = some (exponent, rest)) :
    rest <:+ input := by
  have digits : forall after : Text, (scanDigits (scanSign after).2).2 <:+ after :=
    fun after => (scanDigits_suffix _).trans (scanSign_suffix after)
  unfold scanExponent at scanned
  split at scanned
  · dsimp only at scanned
    split at scanned
    · cases scanned
    · cases scanned
      exact (digits _).trans (List.suffix_cons _ _)
  · dsimp only at scanned
    split at scanned
    · cases scanned
    · cases scanned
      exact (digits _).trans (List.suffix_cons _ _)
  · cases scanned
    exact List.suffix_refl _

theorem scanPlaces_suffix (scanned : scanPlaces input = some (text, rest)) : rest <:+ input := by
  unfold scanPlaces at scanned
  split at scanned
  · rename_i after
    have digits := scanDigits_suffix after
    dsimp only at scanned
    split at scanned
    · cases scanned
    · rw [Option.some.inj scanned] at digits
      exact digits.trans (List.suffix_cons _ _)
  · cases scanned
    exact List.suffix_refl _

theorem scanNumber_suffix {value : Json} (scanned : scanNumber input = some (value, rest)) :
    rest <:+ input := by
  have minus : (scanMinus input).2 <:+ input := by
    unfold scanMinus
    split
    · exact List.suffix_cons _ _
    · exact List.suffix_refl _
  unfold scanNumber at scanned
  dsimp only at scanned
  split at scanned
  · cases scanned
  · rcases Option.bind_eq_some_iff.mp scanned with ⟨places, isPlaces, scanned⟩
    rcases Option.map_eq_some_iff.mp scanned with ⟨exponent, isExponent, same⟩
    cases same
    exact (scanExponent_suffix isExponent).trans ((scanPlaces_suffix isPlaces).trans
      ((scanDigits_suffix _).trans minus))

theorem skip_suffix (input : Text) : skip input <:+ input := List.dropWhile_suffix _

/-- A character met behind white space, with what follows it. -/
theorem suffix_of_skip {char : Char} (met : skip input = char :: rest) : char :: rest <:+ input :=
  met ▸ skip_suffix input

/-- With this budget, a parser leaves what stands behind the text it has read.
The three parsers call each other, so the induction on the budget carries all
three at once. -/
structure LeavesSuffix (budget : Nat) : Prop where
  value : forall input value rest, parseValue budget input = some (value, rest) -> rest <:+ input
  elements : forall input items rest, parseElements budget input = some (items, rest) ->
    ']' :: rest <:+ input
  members : forall input members rest, parseMembers budget input = some (members, rest) ->
    '\x7d' :: rest <:+ input

namespace LeavesSuffix

variable {budget : Nat} (leaves : LeavesSuffix budget)
include leaves

theorem parseValue_succ {value : Json} (parsed : parseValue (budget + 1) input = some (value, rest)) :
    rest <:+ input := by
  rw [parseValue] at parsed
  split at parsed
  · cases parsed
  rename_i char after met
  have here := suffix_of_skip met
  have behind := (List.suffix_cons char after).trans here
  split at parsed
  · split at parsed
    · rename_i closed
      cases parsed
      exact (List.suffix_cons _ _).trans ((suffix_of_skip closed).trans behind)
    · rcases Option.map_eq_some_iff.mp parsed with ⟨found, isFound, same⟩
      cases same
      exact (List.suffix_cons _ _).trans ((leaves.members _ _ _ isFound).trans behind)
  split at parsed
  · split at parsed
    · rename_i closed
      cases parsed
      exact (List.suffix_cons _ _).trans ((suffix_of_skip closed).trans behind)
    · rcases Option.map_eq_some_iff.mp parsed with ⟨found, isFound, same⟩
      cases same
      exact (List.suffix_cons _ _).trans ((leaves.elements _ _ _ isFound).trans behind)
  split at parsed
  · rcases Option.map_eq_some_iff.mp parsed with ⟨found, isFound, same⟩
    cases same
    exact (scanString_suffix isFound).trans behind
  · rcases Option.or_eq_some_iff.mp parsed with literal | ⟨_, number⟩
    · exact (scanLiteral_suffix literal).trans here
    · exact (scanNumber_suffix number).trans here

theorem parseElements_succ {items : List Json}
    (parsed : parseElements (budget + 1) input = some (items, rest)) : ']' :: rest <:+ input := by
  rw [parseElements] at parsed
  split at parsed
  · cases parsed
  rename_i value afterValue isValue
  have behind := leaves.value _ _ _ isValue
  split at parsed
  · rename_i more met
    rcases Option.map_eq_some_iff.mp parsed with ⟨found, isFound, same⟩
    cases same
    exact (leaves.elements _ _ _ isFound).trans ((List.suffix_cons _ _).trans
      ((suffix_of_skip met).trans behind))
  · rename_i after met
    cases parsed
    exact (suffix_of_skip met).trans behind
  · cases parsed

theorem parseMembers_succ {found : List (Text × Json)}
    (parsed : parseMembers (budget + 1) input = some (found, rest)) :
    '\x7d' :: rest <:+ input := by
  rw [parseMembers] at parsed
  split at parsed
  · rename_i afterQuote quoted
    split at parsed
    · cases parsed
    rename_i key afterKey isKey
    have atKey := (scanString_suffix isKey).trans
      ((List.suffix_cons _ _).trans (suffix_of_skip quoted))
    split at parsed
    · rename_i beforeValue colon
      have atColon := (List.suffix_cons _ _).trans ((suffix_of_skip colon).trans atKey)
      split at parsed
      · cases parsed
      rename_i value afterValue isValue
      have behind := (leaves.value _ _ _ isValue).trans atColon
      split at parsed
      · rename_i more met
        rcases Option.map_eq_some_iff.mp parsed with ⟨others, isOthers, same⟩
        cases same
        exact (leaves.members _ _ _ isOthers).trans ((List.suffix_cons _ _).trans
          ((suffix_of_skip met).trans behind))
      · rename_i after met
        cases parsed
        exact (suffix_of_skip met).trans behind
      · cases parsed
    · cases parsed
  · cases parsed

end LeavesSuffix

/-- All three parsers at once, by induction on the budget. -/
theorem parse_suffix (budget : Nat) : LeavesSuffix budget := by
  induction budget with
  | zero =>
      refine ⟨fun _ _ _ parsed => ?_, fun _ _ _ parsed => ?_, fun _ _ _ parsed => ?_⟩
      · rw [parseValue] at parsed
        cases parsed
      · rw [parseElements] at parsed
        cases parsed
      · rw [parseMembers] at parsed
        cases parsed
  | succ budget inductionHypothesis =>
      exact ⟨fun _ _ _ parsed => inductionHypothesis.parseValue_succ parsed,
        fun _ _ _ parsed => inductionHypothesis.parseElements_succ parsed,
        fun _ _ _ parsed => inductionHypothesis.parseMembers_succ parsed⟩

/-- An object is not parsed from a text without a closing brace. -/
theorem parse_object_closes {value : Json} (opens : skip input = '\x7b' :: rest)
    (parsed : parse input = some value) : '\x7d' ∈ input := by
  unfold parse at parsed
  split at parsed
  · cases parsed
  rename_i found after isFound
  rw [parseValue, opens] at isFound
  dsimp only at isFound
  have behind := (List.suffix_cons _ _).trans (suffix_of_skip opens)
  rw [if_pos rfl] at isFound
  split at isFound
  · rename_i closed
    exact ((suffix_of_skip closed).trans behind).subset List.mem_cons_self
  · rcases Option.map_eq_some_iff.mp isFound with ⟨members, isMembers, same⟩
    exact (((parse_suffix _).members _ _ _ isMembers).trans behind).subset List.mem_cons_self

end Suffix
end Json
end NexusHft
