import NexusHft.Main.Output
import NexusHft.Web.Json

namespace NexusHft

open Foundations

/-!
# The book as JSON

What `print_book` writes is parsed to the levels it was written from, and no
proper beginning of it is parsed at all: its only closing brace is its last
character.
-/

namespace Json

def priceNumber (price : Price) : JsNumber := .ofRat ((printedHundredths price : Rat) / 100)

def qtyNumber (qty : Quantity) : JsNumber := .ofRat qty.toNat

def levelJson (level : Price × Quantity) : Json :=
  .array [.number (priceNumber level.1), .number (qtyNumber level.2)]

def bidsKey : Text := ['b', 'i', 'd', 's']

def asksKey : Text := ['a', 's', 'k', 's']

def bookJson (bids asks : List (Price × Quantity)) : Json :=
  .object [(bidsKey, .array (bids.map levelJson)), (asksKey, .array (asks.map levelJson))]

/-! ## Numbers -/

section Numbers

theorem skip_solid {char : Char} (solid : isSpace char = false) (rest : Text) :
    skip (char :: rest) = char :: rest :=
  List.dropWhile_cons_of_neg (by rw [solid]; exact Bool.false_ne_true)

/-- A character that ends a number. -/
def EndsNumber (rest : Text) : Prop :=
  forall char, rest.head? = some char -> char = ',' ∨ char = ']'

theorem EndsNumber.not_digit {rest : Text} (ends : EndsNumber rest) :
    forall char, rest.head? = some char -> isDigit char = false := by
  intro char first
  rcases ends char first with comma | bracket
  · rw [comma]
    rfl
  · rw [bracket]
    rfl

theorem EndsNumber.noExponent {rest : Text} (ends : EndsNumber rest) :
    scanExponent rest = some (0, rest) := by
  cases rest with
  | nil => rfl
  | cons char rest =>
      rcases ends char rfl with comma | bracket
      · rw [comma]
        rfl
      · rw [bracket]
        rfl

theorem EndsNumber.noPlaces {rest : Text} (ends : EndsNumber rest) :
    scanPlaces rest = some ([], rest) := by
  cases rest with
  | nil => rfl
  | cons char rest =>
      rcases ends char rfl with comma | bracket
      · rw [comma]
        rfl
      · rw [bracket]
        rfl

theorem scanMinus_digits (value : Nat) (rest : Text) :
    scanMinus (digits value ++ rest) = (false, digits value ++ rest) := by
  rcases List.exists_cons_of_ne_nil (digits_ne_nil value) with ⟨first, others, text⟩
  have digit := isDigit_of_mem_digits (text ▸ List.mem_cons_self : first ∈ digits value)
  rw [text, List.cons_append, scanMinus]
  intro after same
  cases same
  exact absurd digit (by decide)

/-- The digits of a number are a well formed integer part. -/
theorem digits_wellFormed (value : Nat) :
    ¬ (digits value = [] ∨ ((digits value).head? = some '0' ∧ digits value ≠ ['0'])) := by
  rintro (empty | ⟨zero, more⟩)
  · exact digits_ne_nil value empty
  · cases text : digits value with
    | nil => exact digits_ne_nil value text
    | cons first rest =>
        rw [text] at zero more
        have isZero : first = '0' := Option.some.inj zero
        cases rest with
        | nil => exact more (by rw [isZero])
        | cons second rest => exact digits_head_ne_zero text isZero

theorem scanNumber_digits (value : Nat) {rest : Text} (ends : EndsNumber rest) :
    scanNumber (digits value ++ rest) = some (.number (.ofRat value), rest) := by
  have run := @scanDigits_append (digits value) rest (fun _ => isDigit_of_mem_digits) ends.not_digit
  unfold scanNumber
  rw [scanMinus_digits]
  simp only [run]
  rw [if_neg (digits_wellFormed value), ends.noPlaces, Option.bind_some, ends.noExponent,
    List.append_nil]
  simp [decimalValue, signed, digitsValue_digits]

/-- The value of a text of hundredths. -/
theorem hundredths_value (hundredths : Nat) :
    decimalValue false (digits (hundredths / 100) ++
      [digitChar (hundredths / 10 % 10), digitChar (hundredths % 10)]) (0 - (2 : Nat)) =
        (hundredths : Rat) / 100 := by
  have tens : (digitChar (hundredths / 10 % 10)).toNat = 48 + hundredths / 10 % 10 :=
    digitChar_toNat (Nat.mod_lt _ (by norm_num))
  have ones : (digitChar (hundredths % 10)).toNat = 48 + hundredths % 10 :=
    digitChar_toNat (Nat.mod_lt _ (by norm_num))
  have value : digitsValue (digits (hundredths / 100) ++
      [digitChar (hundredths / 10 % 10), digitChar (hundredths % 10)]) = hundredths := by
    rw [digitsValue_append, digitsValue_digits]
    simp only [digitsValue, List.foldl_cons, List.foldl_nil, tens, ones, List.length_cons,
      List.length_nil]
    omega
  rw [decimalValue, value]
  have power : (10 : Rat) ^ ((0 : Int) - (2 : Nat)) = 1 / 100 := by norm_num
  rw [power, signed, if_neg Bool.false_ne_true]
  push_cast
  ring

theorem scanNumber_hundredths (hundredths : Nat) {rest : Text} (ends : EndsNumber rest) :
    scanNumber (hundredthsText hundredths ++ rest) =
      some (.number (.ofRat ((hundredths : Rat) / 100)), rest) := by
  have whole := @scanDigits_append (digits (hundredths / 100))
    ('.' :: digitChar (hundredths / 10 % 10) :: digitChar (hundredths % 10) :: rest)
    (fun _ => isDigit_of_mem_digits) (by intro char first; cases first; rfl)
  have places := @scanDigits_append [digitChar (hundredths / 10 % 10), digitChar (hundredths % 10)]
    rest (by
      intro char member
      rcases List.mem_cons.mp member with tens | ones
      · rw [tens]
        exact isDigit_digitChar (Nat.mod_lt _ (by norm_num))
      · rw [List.mem_singleton.mp ones]
        exact isDigit_digitChar (Nat.mod_lt _ (by norm_num))) ends.not_digit
  have text : hundredthsText hundredths ++ rest = digits (hundredths / 100) ++
      '.' :: digitChar (hundredths / 10 % 10) :: digitChar (hundredths % 10) :: rest := by
    rw [hundredthsText, List.append_assoc]
    rfl
  have point : scanPlaces ('.' :: digitChar (hundredths / 10 % 10) ::
      digitChar (hundredths % 10) :: rest) =
        some ([digitChar (hundredths / 10 % 10), digitChar (hundredths % 10)], rest) := by
    rw [scanPlaces]
    change (if (scanDigits ([digitChar (hundredths / 10 % 10), digitChar (hundredths % 10)] ++
      rest)).1 = [] then none else some (scanDigits ([digitChar (hundredths / 10 % 10),
        digitChar (hundredths % 10)] ++ rest))) = _
    rw [places, if_neg (List.cons_ne_nil _ _)]
  unfold scanNumber
  rw [text, scanMinus_digits]
  simp only [whole]
  rw [if_neg (digits_wellFormed _), point, Option.bind_some, ends.noExponent, Option.map_some]
  rw [← hundredths_value hundredths]
  rfl

end Numbers

/-! ## Values -/

section Values

theorem isSpace_of_digit {char : Char} (digit : isDigit char = true) : isSpace char = false := by
  unfold isDigit at digit
  unfold isSpace
  simp only [Bool.and_eq_true, decide_eq_true_eq] at digit
  simp only [Bool.or_eq_false_iff, beq_eq_false_iff_ne]
  omega

theorem scanLiteral_digit {char : Char} (digit : isDigit char = true) (rest : Text) :
    scanLiteral (char :: rest) = none := by
  unfold scanLiteral
  split <;> rename_i same <;> first | rfl | (cases same; exact absurd digit (by decide))

/-- A value that begins with a digit is a number. -/
theorem parseValue_number {char : Char} {rest after : Text} {value : Json}
    (digit : isDigit char = true) (scanned : scanNumber (char :: rest) = some (value, after))
    (budget : Nat) : parseValue (budget + 1) (char :: rest) = some (value, after) := by
  have different : forall other, isDigit other = false -> char ≠ other := by
    intro other noDigit same
    rw [same, noDigit] at digit
    cases digit
  rw [parseValue, skip_solid (isSpace_of_digit digit)]
  dsimp only
  rw [if_neg (different _ rfl), if_neg (different _ rfl), if_neg (different _ rfl),
    scanLiteral_digit digit, Option.none_or, scanned]

theorem parseValue_price (price : Price) {rest : Text} (ends : EndsNumber rest) (budget : Nat) :
    parseValue (budget + 1) (priceText price ++ rest) = some (.number (priceNumber price), rest) := by
  have scanned := scanNumber_hundredths (printedHundredths price) ends
  rcases List.exists_cons_of_ne_nil (digits_ne_nil (printedHundredths price / 100)) with
    ⟨first, others, text⟩
  have digit := isDigit_of_mem_digits (text ▸ List.mem_cons_self :
    first ∈ digits (printedHundredths price / 100))
  rw [priceText]
  rw [hundredthsText, text, List.cons_append, List.cons_append] at scanned ⊢
  exact parseValue_number digit scanned budget

theorem parseValue_qty (qty : Quantity) {rest : Text} (ends : EndsNumber rest) (budget : Nat) :
    parseValue (budget + 1) (digits qty.toNat ++ rest) = some (.number (qtyNumber qty), rest) := by
  have scanned := scanNumber_digits qty.toNat ends
  rcases List.exists_cons_of_ne_nil (digits_ne_nil qty.toNat) with ⟨first, others, text⟩
  have digit := isDigit_of_mem_digits (text ▸ List.mem_cons_self : first ∈ digits qty.toNat)
  rw [text, List.cons_append] at scanned ⊢
  exact parseValue_number digit scanned budget

theorem endsNumber_comma (rest : Text) : EndsNumber (',' :: rest) := by
  intro char first
  exact Or.inl (Option.some.inj first).symm

theorem endsNumber_bracket (rest : Text) : EndsNumber (']' :: rest) := by
  intro char first
  exact Or.inr (Option.some.inj first).symm

/-- One element, and a comma: the list goes on. -/
theorem parseElements_comma {input rest : Text} {value : Json} {budget : Nat}
    (parsed : parseValue budget input = some (value, ',' :: rest)) :
    parseElements (budget + 1) input =
      (parseElements budget rest).map fun found => (value :: found.1, found.2) := by
  rw [parseElements, parsed]
  rfl

/-- One element, and a bracket: the list ends. -/
theorem parseElements_bracket {input rest : Text} {value : Json} {budget : Nat}
    (parsed : parseValue budget input = some (value, ']' :: rest)) :
    parseElements (budget + 1) input = some ([value], rest) := by
  rw [parseElements, parsed]
  rfl

/-- A nonempty array. -/
theorem parseValue_array {char : Char} {tail rest : Text} {items : List Json} {budget : Nat}
    (solid : isSpace char = false) (isOpen : char ≠ ']')
    (parsed : parseElements budget (char :: tail) = some (items, rest)) :
    parseValue (budget + 1) ('[' :: char :: tail) = some (.array items, rest) := by
  rw [parseValue, skip_solid rfl]
  dsimp only
  rw [if_neg (by decide), if_pos rfl, skip_solid solid]
  split
  · rename_i same
    cases same
    exact absurd rfl isOpen
  · rw [parsed, Option.map_some]

theorem parseValue_level (level : Price × Quantity) (rest : Text) (budget : Nat) :
    parseValue (budget + 4) (levelText level ++ rest) = some (levelJson level, rest) := by
  have price := parseValue_price level.1
    (endsNumber_comma (digits level.2.toNat ++ ']' :: rest)) (budget + 1)
  have qty := parseValue_qty level.2 (endsNumber_bracket rest) budget
  have elements := parseElements_comma price
  rw [parseElements_bracket qty, Option.map_some] at elements
  have text : levelText level ++ rest =
      '[' :: (priceText level.1 ++ ',' :: (digits level.2.toNat ++ ']' :: rest)) := by
    simp [levelText]
  rcases List.exists_cons_of_ne_nil (digits_ne_nil (printedHundredths level.1 / 100)) with
    ⟨first, others, digitsEq⟩
  have digit := isDigit_of_mem_digits (digitsEq ▸ List.mem_cons_self :
    first ∈ digits (printedHundredths level.1 / 100))
  rw [text]
  rw [priceText, hundredthsText, digitsEq, List.cons_append, List.cons_append] at elements ⊢
  apply parseValue_array (isSpace_of_digit digit) _ elements
  intro same
  rw [same] at digit
  exact absurd digit (by decide)

theorem parseElements_levels {levels : List (Price × Quantity)} (some : levels ≠ [])
    (rest : Text) (budget : Nat) :
    parseElements (levels.length + budget + 4) (levelsText levels ++ ']' :: rest) =
      .some (levels.map levelJson, rest) := by
  induction levels generalizing budget with
  | nil => exact absurd rfl some
  | cons level levels inductionHypothesis =>
      cases levels with
      | nil =>
          have parsed := parseValue_level level (']' :: rest) budget
          have last := parseElements_bracket parsed
          rw [show budget + 4 + 1 = [level].length + budget + 4 by simp; omega] at last
          exact last
      | cons next levels =>
          have text : levelsText (level :: next :: levels) ++ ']' :: rest =
              levelText level ++ ',' :: (levelsText (next :: levels) ++ ']' :: rest) := by
            simp [levelsText]
          have parsed := parseValue_level level
            (',' :: (levelsText (next :: levels) ++ ']' :: rest)) ((next :: levels).length + budget)
          have more := parseElements_comma parsed
          rw [inductionHypothesis (List.cons_ne_nil _ _) budget, Option.map_some] at more
          rw [text, List.length_cons, Nat.add_right_comm _ 1 budget, Nat.add_right_comm _ 1 4]
          exact more

theorem parseValue_levels (levels : List (Price × Quantity)) (rest : Text) (budget : Nat) :
    parseValue (levels.length + budget + 5) ('[' :: levelsText levels ++ ']' :: rest) =
      some (.array (levels.map levelJson), rest) := by
  cases levels with
  | nil =>
      rw [parseValue, levelsText, List.cons_append, skip_solid rfl]
      rfl
  | cons level levels =>
      have elements := parseElements_levels (List.cons_ne_nil level levels) rest budget
      have opens : Exists fun tail => levelsText (level :: levels) = '[' :: tail := by
        cases levels with
        | nil => exact ⟨_, rfl⟩
        | cons next levels => exact ⟨_, rfl⟩
      rcases opens with ⟨tail, isOpen⟩
      rw [isOpen, List.cons_append] at elements
      rw [isOpen, List.cons_append, List.cons_append]
      exact parseValue_array rfl (by decide) elements

/-! ## The book -/

/-- A character that stands for itself in a string. -/
def isPlainChar (char : Char) : Bool := char ≠ '"' ∧ char ≠ '\\' ∧ 32 ≤ char.toNat

theorem scanString_plain {spelling : Text} (plain : spelling.all isPlainChar = true) (rest : Text) :
    scanString (spelling ++ '"' :: rest) = some (spelling, rest) := by
  induction spelling with
  | nil => rfl
  | cons char spelling inductionHypothesis =>
      rw [List.all_cons, Bool.and_eq_true] at plain
      have here := of_decide_eq_true plain.1
      have later := inductionHypothesis plain.2
      rw [List.cons_append, scanString, if_neg (Nat.not_lt.mpr here.2.2), later, Option.map_some]
      · exact here.1
      · intro _ _ _ _ _ same
        exact absurd same here.2.1
      · intro _ _ same
        exact absurd same here.2.1

/-- A member, and a comma: the object goes on. -/
theorem parseMembers_comma {key input rest : Text} {value : Json} {budget : Nat}
    (plain : key.all isPlainChar = true)
    (parsed : parseValue budget input = some (value, ',' :: rest)) :
    parseMembers (budget + 1) ('"' :: (key ++ '"' :: ':' :: input)) =
      (parseMembers budget rest).map fun found => ((key, value) :: found.1, found.2) := by
  rw [parseMembers, skip_solid rfl]
  simp only [scanString_plain plain]
  rw [skip_solid rfl]
  simp only [parsed]
  rfl

theorem parseMembers_brace {key input rest : Text} {value : Json} {budget : Nat}
    (plain : key.all isPlainChar = true)
    (parsed : parseValue budget input = some (value, '\x7d' :: rest)) :
    parseMembers (budget + 1) ('"' :: (key ++ '"' :: ':' :: input)) =
      some ([(key, value)], rest) := by
  rw [parseMembers, skip_solid rfl]
  simp only [scanString_plain plain]
  rw [skip_solid rfl]
  simp only [parsed]
  rfl

theorem levelsText_length (levels : List (Price × Quantity)) :
    levels.length ≤ (levelsText levels).length := by
  induction levels with
  | nil => exact Nat.le_refl 0
  | cons level levels inductionHypothesis =>
      cases levels with
      | nil => simp [levelsText, levelText]
      | cons next levels =>
          rw [levelsText, List.length_append, List.length_cons, List.length_cons]
          exact Nat.le_trans (Nat.succ_le_succ inductionHypothesis) (Nat.le_add_left _ _)

/-- The book text with the keys and the brackets of its arrays taken apart. -/
theorem bookText_eq (bids asks : List (Price × Quantity)) :
    bookText bids asks = '\x7b' :: '"' :: (bidsKey ++ '"' :: ':' ::
      ('[' :: levelsText bids ++ ']' :: ',' :: '"' :: (asksKey ++ '"' :: ':' ::
        ('[' :: levelsText asks ++ ']' :: ['\x7d'])))) := by
  have first : bidsOpening = '\x7b' :: '"' :: (bidsKey ++ ['"', ':', '[']) := by decide
  have second : asksOpening = ']' :: ',' :: '"' :: (asksKey ++ ['"', ':', '[']) := by decide
  have third : bookClosing = [']', '\x7d'] := by decide
  rw [bookText, first, second, third]
  simp only [List.append_assoc, List.cons_append, List.nil_append]

theorem parse_bookText (bids asks : List (Price × Quantity)) :
    parse (bookText bids asks) = some (bookJson bids asks) := by
  have long : bids.length + asks.length + 8 ≤ 2 * (bookText bids asks).length := by
    have bidsLength := levelsText_length bids
    have asksLength := levelsText_length asks
    rw [bookText_eq]
    simp only [List.length_cons, List.length_append]
    omega
  rcases Nat.exists_eq_add_of_le long with ⟨spare, enough⟩
  have plainBids : bidsKey.all isPlainChar = true := by decide
  have plainAsks : asksKey.all isPlainChar = true := by decide
  have asksParsed := parseMembers_brace plainAsks
    (parseValue_levels asks ['\x7d'] (bids.length + spare + 2))
  have bidsParsed := parseMembers_comma plainBids (parseValue_levels bids (',' :: '"' ::
    (asksKey ++ '"' :: ':' :: ('[' :: levelsText asks ++ ']' :: ['\x7d'])))
      (asks.length + spare + 3))
  have budgets : bids.length + (asks.length + spare + 3) + 5 =
      asks.length + (bids.length + spare + 2) + 5 + 1 := by omega
  rw [budgets, asksParsed, Option.map_some] at bidsParsed
  have whole : 2 * (bookText bids asks).length + 2 =
      asks.length + (bids.length + spare + 2) + 5 + 1 + 1 + 1 := by omega
  have opened : parseValue (asks.length + (bids.length + spare + 2) + 5 + 1 + 1 + 1)
      (bookText bids asks) = some (bookJson bids asks, []) := by
    rw [bookText_eq, parseValue, skip_solid rfl]
    dsimp only
    rw [if_pos rfl, skip_solid rfl]
    simp only [bidsParsed]
    rfl
  rw [parse, whole, opened]
  rfl

/-- The characters of numbers and of arrays of numbers. -/
def isArrayChar (char : Char) : Bool :=
  isDigit char || char == '.' || char == ',' || char == '[' || char == ']'

theorem isArrayChar_price {price : Price} {char : Char} (member : char ∈ priceText price) :
    isArrayChar char = true := by
  rcases List.mem_append.mp member with whole | places
  · simp [isArrayChar, isDigit_of_mem_digits whole]
  · rcases List.mem_cons.mp places with point | digits
    · rw [point]
      rfl
    · have digit : isDigit char = true := by
        rcases List.mem_cons.mp digits with tens | ones
        · rw [tens]
          exact isDigit_digitChar (Nat.mod_lt _ (by norm_num))
        · rw [List.mem_singleton.mp ones]
          exact isDigit_digitChar (Nat.mod_lt _ (by norm_num))
      simp [isArrayChar, digit]

theorem isArrayChar_level {level : Price × Quantity} {char : Char}
    (member : char ∈ levelText level) : isArrayChar char = true := by
  simp only [levelText, List.cons_append, List.append_assoc, List.mem_cons, List.mem_append,
    List.not_mem_nil, or_false] at member
  rcases member with opens | price | comma | qty | closes
  · rw [opens]
    rfl
  · exact isArrayChar_price price
  · rw [comma]
    rfl
  · simp [isArrayChar, isDigit_of_mem_digits qty]
  · rw [closes]
    rfl

theorem isArrayChar_levels {levels : List (Price × Quantity)} {char : Char}
    (member : char ∈ levelsText levels) : isArrayChar char = true := by
  induction levels with
  | nil => exact absurd member List.not_mem_nil
  | cons level levels inductionHypothesis =>
      cases levels with
      | nil => exact isArrayChar_level member
      | cons next levels =>
          rcases List.mem_append.mp member with here | later
          · exact isArrayChar_level here
          · rcases List.mem_cons.mp later with comma | rest
            · rw [comma]
              rfl
            · exact inductionHypothesis rest

/-- The only closing brace of the text is its last character. -/
theorem brace_not_mem_book {bids asks : List (Price × Quantity)} {front back : Text}
    (parts : bookText bids asks = front ++ back) (unfinished : back ≠ []) : '\x7d' ∉ front := by
  have brace : isArrayChar '\x7d' = false := rfl
  have levels : forall side : List (Price × Quantity), '\x7d' ∉ levelsText side := by
    intro side member
    rw [isArrayChar_levels member] at brace
    cases brace
  rcases List.eq_nil_or_concat back with nothing | ⟨init, last, isLast⟩
  · exact absurd nothing unfinished
  have third : bookClosing = [']'] ++ ['\x7d'] := by decide
  rw [isLast, List.concat_eq_append, ← List.append_assoc, bookText, third, ← List.append_assoc] at parts
  have before := (List.append_inj' parts rfl).1
  intro member
  have inside : '\x7d' ∈ front ++ init := List.mem_append_left _ member
  rw [← before] at inside
  simp only [List.mem_append] at inside
  have first : '\x7d' ∉ bidsOpening := by decide
  have second : '\x7d' ∉ asksOpening := by decide
  rcases inside with ((((inFirst | inBids) | inSecond) | inAsks) | inThird)
  · exact first inFirst
  · exact levels bids inBids
  · exact second inSecond
  · exact levels asks inAsks
  · exact absurd (List.mem_singleton.mp inThird) (by decide)

/-- No proper beginning of the text is parsed. -/
theorem parse_unfinished {bids asks : List (Price × Quantity)} {front back : Text}
    (parts : bookText bids asks = front ++ back) (unfinished : back ≠ []) : parse front = none := by
  cases front with
  | nil => rfl
  | cons char front =>
      have opens : char = '\x7b' := by
        rw [bookText_eq] at parts
        exact (List.cons.inj parts).1.symm
      cases parsed : parse (char :: front) with
      | none => rfl
      | some value =>
          have skipped : skip (char :: front) = '\x7b' :: front := by
            rw [opens]
            exact skip_solid rfl front
          exact absurd (parse_object_closes skipped parsed) (brace_not_mem_book parts unfinished)

end Values
end Json
end NexusHft
