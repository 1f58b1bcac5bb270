import NexusHft.Web.Lines
import NexusHft.Web.Middleware

namespace NexusHft

open Foundations

/-!
# Printed lines and their parts

A whole line is read as what was printed.  A beginning of a line is read as
something else with the same word, if it is read at all: a shorter number is a
smaller one and unfinished JSON is rejected.  A part from inside of a line is not
read at all, since no word is spelled there.
-/

/-- What a line is printed for; messages on the error stream are not read. -/
def Printed.reading : Printed -> Option Reading
  | trade price qty =>
      some (.trade { price := Json.priceNumber price, qty := Json.qtyNumber qty })
  | book bids asks => some (.book (Json.bookJson bids asks))
  | latency nanoseconds => some (.latency (.ofRat nanoseconds.toNat))
  | clearAck => some .cleared
  | err _ => none

/-! ## Numbers -/

section Numbers

theorem isJsSpace_of_digit {char : Char} (digit : isDigit char = true) : isJsSpace char = false := by
  unfold isDigit at digit
  unfold isJsSpace
  simp only [Bool.and_eq_true, decide_eq_true_eq] at digit
  simp only [Bool.or_eq_false_iff, Bool.and_eq_false_iff, beq_eq_false_iff_ne,
    decide_eq_false_iff_not]
  omega

theorem scanSign_digit {char : Char} (digit : isDigit char = true) (rest : Text) :
    scanSign (char :: rest) = (false, char :: rest) := by
  unfold scanSign
  split <;> rename_i same <;> first | rfl | (cases same; exact absurd digit (by decide))

/-- Text that begins with a digit, for the numeric functions of the script. -/
theorem scanSign_trimStart {char : Char} (digit : isDigit char = true) (rest : Text) :
    scanSign (trimStart (char :: rest)) = (false, char :: rest) := by
  rw [trimStart, List.dropWhile_cons_of_neg (by rw [isJsSpace_of_digit digit]; exact Bool.false_ne_true)]
  exact scanSign_digit digit rest

theorem parseInt_run {run : Text} (all : forall char, char ∈ run -> isDigit char = true)
    (nonempty : run ≠ []) : parseInt (some run) = .ofRat (digitsValue run) := by
  have scanned := @scanDigits_append run [] all (by intro char first; cases first)
  rcases List.exists_cons_of_ne_nil nonempty with ⟨first, rest, isRun⟩
  rw [List.append_nil] at scanned
  rw [isRun] at scanned ⊢
  have digit := all first (isRun ▸ List.mem_cons_self)
  simp only [parseInt, scanSign_trimStart digit, scanned]
  rw [if_neg (List.cons_ne_nil _ _)]
  simp [signed]

theorem parseInt_digits (value : Nat) : parseInt (some (digits value)) = .ofRat value := by
  rw [parseInt_run (fun _ => isDigit_of_mem_digits) (digits_ne_nil value), digitsValue_digits]

theorem parseFloat_price (price : Price) :
    parseFloat (some (priceText price)) = Json.priceNumber price := by
  generalize isHundredths : printedHundredths price = hundredths
  have places : forall char, char ∈ [digitChar (hundredths / 10 % 10), digitChar (hundredths % 10)] ->
      isDigit char = true := by
    intro char member
    rcases List.mem_cons.mp member with tens | ones
    · rw [tens]
      exact isDigit_digitChar (Nat.mod_lt _ (by norm_num))
    · rw [List.mem_singleton.mp ones]
      exact isDigit_digitChar (Nat.mod_lt _ (by norm_num))
  have whole := @scanDigits_append (digits (hundredths / 100))
    ['.', digitChar (hundredths / 10 % 10), digitChar (hundredths % 10)]
    (fun _ => isDigit_of_mem_digits) (by intro char first; cases first; rfl)
  have fraction := @scanDigits_append _ [] places (by intro char first; cases first)
  rw [List.append_nil] at fraction
  rcases List.exists_cons_of_ne_nil (digits_ne_nil (hundredths / 100)) with ⟨first, rest, isDigits⟩
  have digit := isDigit_of_mem_digits (isDigits ▸ List.mem_cons_self : first ∈ digits (hundredths / 100))
  have noInfinity (after : Text) : ("Infinity".toList.isPrefixOf (first :: after)) = false := by
    have letter : first ≠ 'I' := by
      intro same
      rw [same] at digit
      exact absurd digit (by decide)
    have spelled : "Infinity".toList = 'I' :: "nfinity".toList := by decide
    rw [spelled, List.isPrefixOf_cons_cons, beq_eq_false_iff_ne.mpr letter.symm, Bool.false_and]
  have value := Json.hundredths_value hundredths
  rw [isDigits] at whole value
  rw [List.cons_append] at whole value
  rw [priceText, hundredthsText, isHundredths, isDigits, List.cons_append]
  simp only [parseFloat, scanSign_trimStart digit, noInfinity, whole, scanFraction, fraction]
  rw [if_neg Bool.false_ne_true, List.cons_append, if_neg (List.cons_ne_nil _ _)]
  rw [Json.priceNumber, isHundredths, ← value]
  rfl

/-- The double of a number of 64 bits is not that of one at most half as large. -/
theorem ofRat_ne {small large : Nat} (half : 2 * small ≤ large) (positive : 0 < large)
    (fits : large < 2 ^ 64) : JsNumber.ofRat small ≠ .ofRat large := by
  have different := nearest_ne half positive fits
  unfold JsNumber.ofRat
  cases isSmall : nearest small with
  | none =>
      cases isLarge : nearest large with
      | none =>
          rw [isSmall, isLarge] at different
          exact absurd rfl different
      | some rounded => exact JsNumber.noConfusion
  | some rounded =>
      cases isLarge : nearest large with
      | none => exact JsNumber.noConfusion
      | some rounded' =>
          intro same
          rw [isSmall, isLarge, JsNumber.finite.inj same] at different
          exact different rfl

/-- The last number of a line that is not finished is not the number that was printed. -/
theorem parseInt_unfinished {head begun rest : Text} {value : Nat}
    (solid : forall char, (head ++ ' ' :: digits value).head? = some char -> isJsSpace char = false)
    (fits : value < 2 ^ 64) (parts : head ++ ' ' :: digits value = begun ++ rest)
    (unfinished : rest ≠ []) :
    parseInt (split ' ' (trim begun))[head.count ' ' + 1]? ≠ .ofRat value := by
  have text : head ≠ [] := by
    intro empty
    rw [empty] at solid
    exact absurd (solid ' ' rfl) (by decide)
  rw [List.head?_append_of_ne_nil _ text] at solid
  have missing (short : (trim begun).count ' ' ≤ head.count ' ') :
      parseInt (split ' ' (trim begun))[head.count ' ' + 1]? ≠ .ofRat value := by
    rw [List.getElem?_eq_none (by rw [split_length]; omega)]
    unfold JsNumber.ofRat
    split <;> exact JsNumber.noConfusion
  have upTo (front : Text) (isPrefix : front <+: head) :
      (trim front).count ' ' ≤ head.count ' ' :=
    ((trim_inside front).sublist.trans isPrefix.sublist).count_le ' '
  rw [← List.singleton_append, ← List.append_assoc] at parts
  rcases List.append_eq_append_iff.mp parts with ⟨run, isBegun, isDigits⟩ | ⟨excess, isHead, -⟩
  · by_cases empty : run = []
    · apply missing
      rw [isBegun, empty, List.append_nil, trim_append_space rfl]
      exact upTo head (List.prefix_refl head)
    · have all : forall char, char ∈ run -> isDigit char = true := by
        intro char member
        apply isDigit_of_mem_digits
        rw [isDigits]
        exact List.mem_append_left _ member
      have noBlank : ' ' ∉ run := fun member => absurd (all ' ' member) (by decide)
      have smaller := digitsValue_proper_prefix isDigits empty unfinished
      have solidBegun : Solid begun := by
        rw [isBegun]
        constructor
        · intro char first
          rw [List.append_assoc, List.head?_append_of_ne_nil _ text] at first
          exact solid char first
        · intro char last
          rw [List.getLast?_append_of_ne_nil _ empty] at last
          exact isJsSpace_of_digit (all char (List.mem_of_getLast? last))
      rw [solidBegun.trim, isBegun, List.append_assoc, List.singleton_append, split_append,
        split_of_not_mem noBlank, List.getElem?_append_right (by rw [split_length]), split_length,
        Nat.sub_self, List.getElem?_cons_zero, parseInt_run all empty]
      exact ofRat_ne (by omega) smaller.2 fits
  · apply missing
    rcases List.eq_nil_or_concat excess with nothing | ⟨init, last, isOver⟩
    · rw [nothing, List.append_nil] at isHead
      rw [← isHead, trim_append_space rfl]
      exact upTo head (List.prefix_refl head)
    · rw [isOver, List.concat_eq_append, ← List.append_assoc] at isHead
      apply upTo
      rw [(List.append_inj' isHead rfl).1]
      exact List.prefix_append _ _

end Numbers

/-! ## Characters -/

section Characters

/-- The characters of a book. -/
def isBookChar (char : Char) : Bool :=
  Json.isArrayChar char || "\x7b\x7d\":abdiks".toList.contains char

/-- The characters that follow the word of a line. -/
def isPayloadChar (char : Char) : Bool := char == ' ' || isBookChar char

theorem isPayloadChar_array {char : Char} (inArray : Json.isArrayChar char = true) :
    isPayloadChar char = true := by
  simp [isPayloadChar, isBookChar, inArray]

theorem isPayloadChar_digits {value : Nat} {char : Char} (member : char ∈ digits value) :
    isPayloadChar char = true := by
  apply isPayloadChar_array
  simp [Json.isArrayChar, isDigit_of_mem_digits member]

theorem isBookChar_of_mem {bids asks : List (Price × Quantity)} {char : Char}
    (member : char ∈ bookText bids asks) : isBookChar char = true := by
  have opening : bidsOpening.all isBookChar = true := by decide
  have middle : asksOpening.all isBookChar = true := by decide
  have closing : bookClosing.all isBookChar = true := by decide
  have levels {side : List (Price × Quantity)} (inside : char ∈ levelsText side) :
      isBookChar char = true := by
    simp [isBookChar, Json.isArrayChar_levels inside]
  simp only [bookText, List.mem_append] at member
  rcases member with (((inOpening | inBids) | inMiddle) | inAsks) | inClosing
  · exact List.all_eq_true.mp opening char inOpening
  · exact levels inBids
  · exact List.all_eq_true.mp middle char inMiddle
  · exact levels inAsks
  · exact List.all_eq_true.mp closing char inClosing

theorem not_isJsSpace_book {char : Char} (inBook : isBookChar char = true) :
    isJsSpace char = false := by
  have letters : "\x7b\x7d\":abdiks".toList.all (fun letter => !isJsSpace letter) = true := by
    decide
  simp only [isBookChar, Json.isArrayChar, Bool.or_eq_true, beq_iff_eq,
    List.contains_iff_mem] at inBook
  rcases inBook with ((((digit | point) | comma) | opens) | closes) | letter
  · exact isJsSpace_of_digit digit
  · rw [point]
    rfl
  · rw [comma]
    rfl
  · rw [opens]
    rfl
  · rw [closes]
    rfl
  · have noSpace := List.all_eq_true.mp letters char letter
    rw [Bool.not_eq_true'] at noSpace
    exact noSpace

/-- What follows the word of a line. -/
def Printed.payload : Printed -> Text
  | trade price qty => ' ' :: (priceText price ++ ' ' :: digits qty.toNat)
  | book bids asks => ' ' :: bookText bids asks
  | latency nanoseconds => ' ' :: digits nanoseconds.toNat
  | clearAck => []
  | err _ => []

theorem text_trade (price : Price) (qty : Quantity) :
    (Printed.trade price qty).text =
      Word.trade.text ++ ' ' :: (priceText price ++ ' ' :: digits qty.toNat) := by
  have spelled : tradeOpening = Word.trade.text ++ [' '] := by decide
  rw [Printed.text, spelled, List.append_assoc, List.append_assoc, List.singleton_append]

theorem text_book (bids asks : List (Price × Quantity)) :
    (Printed.book bids asks).text = Word.book.text ++ ' ' :: bookText bids asks := by
  have spelled : bookOpening = Word.book.text ++ [' '] := by decide
  rw [Printed.text, spelled, List.append_assoc, List.singleton_append]

theorem text_latency (nanoseconds : UInt64) :
    (Printed.latency nanoseconds).text =
      Word.latency.text ++ ' ' :: digits nanoseconds.toNat := by
  have spelled : latencyOpening = Word.latency.text ++ [' '] := by decide
  rw [Printed.text, spelled, List.append_assoc, List.singleton_append]

variable {printed : Printed} {reading : Reading} {char : Char}

theorem text_eq (isReading : printed.reading = some reading) :
    printed.text = reading.word.text ++ printed.payload := by
  cases printed with
  | trade price qty =>
      cases isReading
      exact text_trade price qty
  | book bids asks =>
      cases isReading
      exact text_book bids asks
  | latency nanoseconds =>
      cases isReading
      exact text_latency nanoseconds
  | clearAck =>
      cases isReading
      decide
  | err refusal => cases isReading

theorem isPayloadChar_of_mem (member : char ∈ printed.payload) : isPayloadChar char = true := by
  have blank : isPayloadChar ' ' = true := rfl
  cases printed with
  | trade price qty =>
      simp only [Printed.payload, List.mem_cons, List.mem_append] at member
      rcases member with space | inPrice | space | inQty
      · rw [space, blank]
      · exact isPayloadChar_array (Json.isArrayChar_price inPrice)
      · rw [space, blank]
      · exact isPayloadChar_digits inQty
  | book bids asks =>
      rcases List.mem_cons.mp member with space | inBook
      · rw [space, blank]
      · simp [isPayloadChar, isBookChar_of_mem inBook]
  | latency nanoseconds =>
      rcases List.mem_cons.mp member with space | inDigits
      · rw [space, blank]
      · exact isPayloadChar_digits inDigits
  | clearAck => exact absurd member List.not_mem_nil
  | err refusal => exact absurd member List.not_mem_nil

theorem payload_last (isLast : printed.payload.getLast? = some char) : isJsSpace char = false := by
  have lastDigit (front : Text) (value : Nat) (last : (front ++ digits value).getLast? = some char) :
      isJsSpace char = false := by
    rw [List.getLast?_append_of_ne_nil _ (digits_ne_nil value)] at last
    exact isJsSpace_of_digit (isDigit_of_mem_digits (List.mem_of_getLast? last))
  cases printed with
  | trade price qty =>
      apply lastDigit (' ' :: (priceText price ++ [' '])) qty.toNat
      rw [List.cons_append, List.append_assoc]
      exact isLast
  | book bids asks =>
      have closing : bookClosing = [']'] ++ ['\x7d'] := by decide
      rw [Printed.payload, bookText, closing, ← List.append_assoc, ← List.cons_append,
        List.getLast?_concat] at isLast
      cases isLast
      rfl
  | latency nanoseconds => exact lastDigit [' '] nanoseconds.toNat isLast
  | clearAck => cases isLast
  | err refusal => cases isLast

/-- No word has a blank in it. -/
theorem not_isJsSpace_word {word : Word} (member : char ∈ word.text) : isJsSpace char = false := by
  have letters : word.text.all (fun letter => !isJsSpace letter) = true := by
    cases word <;> decide
  have noSpace := List.all_eq_true.mp letters char member
  rw [Bool.not_eq_true'] at noSpace
  exact noSpace

theorem isLine_text (isReading : printed.reading = some reading) : IsLine printed.text := by
  have nonempty : reading.word.text ≠ [] := by
    cases reading.word <;> decide
  rw [text_eq isReading]
  constructor
  · exact List.append_ne_nil_of_left_ne_nil nonempty _
  · constructor
    · intro char first
      rw [List.head?_append_of_ne_nil _ nonempty] at first
      exact not_isJsSpace_word (List.mem_of_mem_head? first)
    · intro char last
      rw [List.getLast?_append] at last
      cases isLast : printed.payload.getLast? with
      | none =>
          rw [isLast] at last
          exact not_isJsSpace_word (List.mem_of_getLast? last)
      | some other =>
          rw [isLast] at last
          cases last
          exact payload_last isLast
  · intro newline
    rcases List.mem_append.mp newline with inWord | inPayload
    · exact absurd (not_isJsSpace_word inWord) (by decide)
    · exact absurd (isPayloadChar_of_mem inPayload) (by decide)

/-- A letter that a word has more often than what follows the first letter of a line. -/
theorem exists_letter (word other : Word) : Exists fun letter => isPayloadChar letter = false ∧
    word.text.tail.count letter < other.text.count letter := by
  cases other with
  | book => exact ⟨'B', by decide, by cases word <;> decide⟩
  | clearAck => exact ⟨'C', by decide, by cases word <;> decide⟩
  | trade =>
      cases word with
      | latency => exact ⟨'R', by decide, by decide⟩
      | book => exact ⟨'T', by decide, by decide⟩
      | trade => exact ⟨'T', by decide, by decide⟩
      | clearAck => exact ⟨'T', by decide, by decide⟩
  | latency =>
      cases word with
      | clearAck => exact ⟨'T', by decide, by decide⟩
      | book => exact ⟨'L', by decide, by decide⟩
      | trade => exact ⟨'L', by decide, by decide⟩
      | latency => exact ⟨'L', by decide, by decide⟩

/-- Inside of a line no word is spelled. -/
theorem readLine_inside {piece : Text} (isReading : printed.reading = some reading)
    (inside : piece <:+: printed.text.tail) : readLine (trim piece) = none := by
  cases isRead : readLine (trim piece) with
  | none => rfl
  | some other =>
      have spelled := begins_with_word isRead
      rw [(solid_trim piece).trim] at spelled
      have within := (spelled.isInfix.trans (trim_inside piece)).trans inside
      have nonempty : reading.word.text ≠ [] := by
        cases reading.word <;> decide
      rw [text_eq isReading, List.tail_append_of_ne_nil nonempty] at within
      rcases exists_letter reading.word other.word with ⟨letter, noPayload, more⟩
      have enough := within.sublist.count_le letter
      have notInPayload : letter ∉ printed.payload := by
        intro member
        rw [isPayloadChar_of_mem member] at noPayload
        cases noPayload
      rw [List.count_append, List.count_eq_zero_of_not_mem notInPayload] at enough
      omega

end Characters

/-! ## Whole lines and their beginnings -/

section Lines

variable {printed : Printed} {reading other : Reading}

/-- What a reading says about the line it is read from. -/
def Reading.Of (line : Text) : Reading -> Prop
  | book payload => Json.parse (line.drop 5) = some payload
  | trade pendingTrade => pendingTrade.qty = parseInt (split ' ' (trim line))[2]?
  | latency nanoseconds => nanoseconds = parseInt (split ' ' (trim line))[1]?
  | cleared => True

theorem readLine_spec {line : Text} (isRead : readLine line = some reading) :
    reading.Of line := by
  unfold readLine at isRead
  dsimp only at isRead
  split_ifs at isRead
  · rcases Option.map_eq_some_iff.mp isRead with ⟨payload, parsed, same⟩
    cases same
    exact parsed
  · cases isRead
    rfl
  · cases isRead
    rfl
  · cases isRead
    trivial

theorem split_word (word : Word) (rest : Text) :
    split ' ' (word.text ++ ' ' :: rest) = word.text :: split ' ' rest := by
  apply split_append_separator
  intro member
  exact absurd (not_isJsSpace_word member) (by decide)

/-- A whole line is read as what it was printed for: the word tells which, and the
numbers behind it are parsed to the doubles next to them. -/
theorem readLine_text (isReading : printed.reading = some reading) :
    readLine (trim printed.text) = some reading := by
  have noBlank (value : Nat) : ' ' ∉ digits value :=
    fun member => absurd (isDigit_of_mem_digits member) (by decide)
  rw [(isLine_text isReading).solid.trim, readLine, (isLine_text isReading).solid.trim]
  cases printed with
  | trade price qty =>
      cases isReading
      have noBlankPrice : ' ' ∉ priceText price :=
        fun member => absurd (Json.isArrayChar_price member) (by decide)
      rw [text_trade, split_word, split_append_separator noBlankPrice,
        split_of_not_mem (noBlank qty.toNat)]
      rw [List.getElem?_cons_zero, if_neg (by decide), if_pos rfl]
      change some (Reading.trade ⟨parseFloat (some (priceText price)),
        parseInt (some (digits qty.toNat))⟩) = _
      rw [parseFloat_price, parseInt_digits]
      rfl
  | book bids asks =>
      cases isReading
      rw [text_book, split_word]
      have spelled : Word.book.text = ['B', 'O', 'O', 'K'] := by decide
      have five : (Word.book.text ++ ' ' :: bookText bids asks).drop 5 = bookText bids asks := by
        rw [spelled]
        rfl
      rw [List.getElem?_cons_zero, if_pos rfl, five, Json.parse_bookText]
      rfl
  | latency nanoseconds =>
      cases isReading
      rw [text_latency, split_word, split_of_not_mem (noBlank nanoseconds.toNat)]
      rw [List.getElem?_cons_zero, if_neg (by decide), if_neg (by decide), if_pos rfl,
        List.getElem?_cons_succ, List.getElem?_cons_zero, parseInt_digits]
  | clearAck =>
      cases isReading
      rw [if_neg (by decide), if_neg (by decide), if_neg (by decide), if_pos (by decide)]
  | err refusal => cases isReading

section Unfinished

variable {begun rest : Text}

/-- A line begins where its word does, not with white space. -/
theorem solid_begun (isReading : printed.reading = some reading)
    (parts : printed.text = begun ++ rest) (begins : begun ≠ []) :
    forall char, begun.head? = some char -> isJsSpace char = false := by
  intro char first
  apply (isLine_text isReading).solid.1
  rw [parts, List.head?_append_of_ne_nil _ begins]
  exact first

/-- What the beginning of a line is read as has the word of the line. -/
theorem begun_word (isReading : printed.reading = some reading)
    (parts : printed.text = begun ++ rest) (begins : begun ≠ [])
    (isRead : readLine (trim begun) = some other) :
    other.word = reading.word ∧ other.word.text <+: begun := by
  have spelled := begins_with_word isRead
  rw [(solid_trim begun).trim, trim, trimStart_of_head (solid_begun isReading parts begins)] at spelled
  have inBegun := spelled.trans (trimEnd_begins begun)
  refine ⟨?_, inBegun⟩
  apply @word_unique _ _ printed.text
  · rw [parts]
    exact inBegun.trans (List.prefix_append _ _)
  · rw [text_eq isReading]
    exact List.prefix_append _ _

/-- A book message that breaks off is not JSON behind its word. -/
theorem parse_book_unfinished {bids asks : List (Price × Quantity)} {payload : Json}
    (parts : (Printed.book bids asks).text = begun ++ rest) (begins : begun ≠ [])
    (unfinished : rest ≠ []) : Json.parse ((trim begun).drop 5) ≠ some payload := by
  intro parsed
  have solid := solid_begun rfl parts begins
  rw [text_book, ← List.singleton_append, ← List.append_assoc] at parts
  have long : 5 < begun.length := by
    by_contra short
    have few := (trim_inside begun).length_le
    rw [List.drop_eq_nil_of_le (by omega)] at parsed
    cases parsed
  have five : (Word.book.text ++ [' ']).length = 5 := by decide
  rcases List.append_eq_append_iff.mp parts with ⟨front, isBegun, isBook⟩ | ⟨excess, isOpening, -⟩
  · have nonempty : front ≠ [] := by
      intro empty
      rw [isBegun, empty, List.append_nil, five] at long
      exact absurd long (Nat.lt_irrefl 5)
    have solidBegun : Solid begun := by
      constructor
      · exact solid
      · intro char last
        rw [isBegun, List.getLast?_append_of_ne_nil _ nonempty] at last
        apply not_isJsSpace_book
        apply @isBookChar_of_mem bids asks
        rw [isBook]
        exact List.mem_append_left _ (List.mem_of_getLast? last)
    rw [solidBegun.trim, isBegun, ← five, List.drop_left,
      Json.parse_unfinished isBook unfinished] at parsed
    cases parsed
  · rw [isOpening, List.length_append] at five
    omega

/-- The beginning of a line is not read as the line: the book is not JSON, a
number has other digits, or the word is not complete. -/
theorem readLine_unfinished (isReading : printed.reading = some reading)
    (parts : printed.text = begun ++ rest) (begins : begun ≠ []) (unfinished : rest ≠ [])
    (isRead : readLine (trim begun) = some other) :
    other.word = reading.word ∧ other ≠ reading := by
  have line := isLine_text isReading
  rcases begun_word isReading parts begins isRead with ⟨sameWord, inBegun⟩
  refine ⟨sameWord, ?_⟩
  intro same
  rw [same] at isRead inBegun
  have spec := readLine_spec isRead
  cases printed with
  | trade price qty =>
      cases isReading
      rw [text_trade, ← List.cons_append, ← List.append_assoc] at parts line
      have noBlankPrice : ' ' ∉ priceText price :=
        fun member => absurd (Json.isArrayChar_price member) (by decide)
      have one : (Word.trade.text ++ ' ' :: priceText price).count ' ' = 1 := by
        rw [List.count_append, List.count_cons_self, List.count_eq_zero_of_not_mem noBlankPrice]
        decide
      have number := parseInt_unfinished line.solid.1 qty.toNat_lt parts unfinished
      rw [one, ← (solid_trim begun).trim] at number
      exact number spec.symm
  | book bids asks =>
      cases isReading
      exact parse_book_unfinished parts begins unfinished spec
  | latency nanoseconds =>
      cases isReading
      rw [text_latency] at parts line
      have one : Word.latency.text.count ' ' = 0 := by decide
      have number := parseInt_unfinished line.solid.1 nanoseconds.toNat_lt parts unfinished
      rw [one, ← (solid_trim begun).trim] at number
      exact number spec.symm
  | clearAck =>
      cases isReading
      have whole : Printed.clearAck.text = Word.clearAck.text := by decide
      have short := inBegun.length_le
      have long := congrArg List.length parts
      have more := List.length_pos_iff.mpr unfinished
      rw [whole, List.length_append] at long
      have sameLength : (Reading.word .cleared).text.length = Word.clearAck.text.length := rfl
      omega
  | err refusal => cases isReading

end Unfinished

end Lines
end NexusHft
