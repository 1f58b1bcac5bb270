import NexusHft.Main.CommandLoop

namespace NexusHft

open Foundations

/-!
# The lines that are read as orders

What the extractions take, stated as a grammar and without scanning: white
space, a sign, digits, a fraction, an exponent.  An extraction takes the longest
text of its kind, hence exactly a text of the grammar in front of something that
cannot go on with it.

A line is then read as an order if and only if it begins with one.  Nothing is
asked of what stands behind the quantity.
-/

/-- An optional sign, and whether it is a minus. -/
inductive SignText : Text -> Bool -> Prop
  | absent : SignText [] false
  | plus : SignText ['+'] false
  | minus : SignText ['-'] true

/-- A decimal point with the digits after it, if there is one.  Neither the digits
before the point nor those after it are required, only one of them at all. -/
inductive FractionText : Text -> Text -> Prop
  | absent : FractionText [] []
  | point {run : Text} : Within isDigit run -> FractionText ('.' :: run) run

/-- A power of ten, if there is one.  Its mark has to be followed by digits,
unlike the point. -/
inductive ExponentText : Text -> Int -> Prop
  | absent : ExponentText [] 0
  | power {mark : Char} {sign run : Text} {negative : Bool} :
      mark = 'e' ∨ mark = 'E' -> SignText sign negative -> Within isDigit run -> run ≠ [] ->
        ExponentText (mark :: (sign ++ run)) (signed negative (digitsValue run))

/-- A decimal number with its exact value, before any rounding.  The grammar is
declared here, and that the extraction of the stream accepts just these texts is
proved. -/
inductive DecimalText : Text -> Rat -> Prop
  | number {sign whole point fraction power : Text} {negative : Bool} {exponent : Int} :
      SignText sign negative -> Within isDigit whole -> FractionText point fraction ->
      whole ++ fraction ≠ [] -> ExponentText power exponent ->
        DecimalText (sign ++ (whole ++ (point ++ power)))
          (decimalValue negative (whole ++ fraction) (exponent - fraction.length))

/-- An integer with its value.  Whether it fits a word is not part of the grammar;
the extraction fails there. -/
inductive IntegerText : Text -> Int -> Prop
  | number {sign run : Text} {negative : Bool} :
      SignText sign negative -> Within isDigit run -> run ≠ [] ->
        IntegerText (sign ++ run) (signed negative (digitsValue run))

/-! ## Words -/

section Words

variable {input rest word : Text}

theorem skipSpaces_iff : skipSpaces input = rest <-> Exists fun gap =>
    input = gap ++ rest ∧ Within isSpace gap ∧ Halts isSpace rest := by
  constructor
  · intro same
    have spec := span_iff.mp (List.span_eq_takeWhile_dropWhile isSpace input)
    exact ⟨_, same ▸ spec.1, spec.2.1, same ▸ spec.2.2⟩
  · rintro ⟨gap, spec⟩
    have same := span_iff.mpr spec
    rw [List.span_eq_takeWhile_dropWhile] at same
    exact congrArg Prod.snd same

/-- A word stands behind white space, and the text behind it begins with white space. -/
theorem extractWord_iff (nonempty : word ≠ []) : extractWord input = (word, rest) <->
    Exists fun lead => input = lead ++ (word ++ rest) ∧ Within isSpace lead ∧
      Within (fun char => !isSpace char) word ∧ Halts (fun char => !isSpace char) rest := by
  rw [extractWord, span_iff]
  constructor
  · rintro ⟨split, solid, ends⟩
    rcases skipSpaces_iff.mp split with ⟨lead, whole, blank, -⟩
    exact ⟨lead, whole, blank, solid, ends⟩
  · rintro ⟨lead, whole, blank, solid, ends⟩
    refine ⟨skipSpaces_iff.mpr ⟨lead, whole, blank, ?_⟩, solid, ends⟩
    rcases List.exists_cons_of_ne_nil nonempty with ⟨first, others, isWord⟩
    intro char begins
    rw [isWord] at begins
    cases begins
    have notSpace := solid first (isWord ▸ List.mem_cons_self)
    exact Bool.not_eq_true' _ ▸ notSpace

end Words

/-! ## Numbers -/

section Numbers

variable {input rest text sign run point fraction power : Text} {negative : Bool}

/-- The text of a number without a sign begins with a digit or with a point. -/
def StartsNumber (text : Text) : Prop :=
  forall char, text.head? = some char -> isDigit char = true ∨ char = '.'

theorem startsNumber_digits (all : Within isDigit run) (nonempty : run ≠ []) (rest : Text) :
    StartsNumber (run ++ rest) := by
  rcases List.exists_cons_of_ne_nil nonempty with ⟨first, others, same⟩
  intro char begins
  rw [same] at begins
  cases begins
  exact .inl (all first (same ▸ List.mem_cons_self))

theorem FractionText.startsNumber {whole : Text} (isFraction : FractionText point fraction)
    (all : Within isDigit whole) (mantissa : whole ++ fraction ≠ []) (rest : Text) :
    StartsNumber (whole ++ (point ++ rest)) := by
  by_cases empty : whole = []
  · subst empty
    cases isFraction with
    | absent => exact absurd rfl mantissa
    | point =>
        intro char begins
        cases begins
        exact .inr rfl
  · exact startsNumber_digits all empty _

theorem scanSign_spec (input : Text) : Exists fun sign =>
    input = sign ++ (scanSign input).2 ∧ SignText sign (scanSign input).1 := by
  unfold scanSign
  split
  · exact ⟨_, rfl, .plus⟩
  · exact ⟨_, rfl, .minus⟩
  · exact ⟨_, rfl, .absent⟩

theorem SignText.scan (isSign : SignText sign negative) (starts : StartsNumber rest) :
    scanSign (sign ++ rest) = (negative, rest) := by
  cases isSign with
  | plus => rfl
  | minus => rfl
  | absent =>
      rw [List.nil_append]
      unfold scanSign
      split
      · rcases starts _ rfl with digit | isPoint
        · cases digit
        · cases isPoint
      · rcases starts _ rfl with digit | isPoint
        · cases digit
        · cases isPoint
      · rfl

theorem StartsNumber.halts (starts : StartsNumber rest) : Halts isSpace rest := by
  intro char begins
  rcases starts char begins with digit | isPoint
  · exact isSpace_of_isDigit digit
  · rw [isPoint]
    rfl

/-- A signed number does not begin with white space. -/
theorem SignText.halts (isSign : SignText sign negative) (starts : StartsNumber rest) :
    Halts isSpace (sign ++ rest) := by
  cases isSign with
  | absent => exact starts.halts
  | plus | minus =>
      intro char begins
      cases begins
      rfl

/-- An integer is taken as a whole where no digit follows. -/
theorem IntegerText.extract {gap : Text} {value : Int} (isInteger : IntegerText text value)
    (blank : Within isSpace gap) (ends : Halts isDigit rest) :
    extractInteger (gap ++ (text ++ rest)) =
      if -2 ^ 63 ≤ value ∧ value < 2 ^ 63 then some (value, rest) else none := by
  cases isInteger with
  | @number sign run negative isSign all nonempty =>
      have starts := startsNumber_digits all nonempty rest
      have skipped : skipSpaces (gap ++ (sign ++ (run ++ rest))) = sign ++ (run ++ rest) :=
        skipSpaces_iff.mpr ⟨gap, rfl, blank, isSign.halts starts⟩
      rw [List.append_assoc, extractInteger, skipped, isSign.scan starts]
      dsimp only
      rw [scanDigits_append all ends]
      dsimp only
      rw [if_neg nonempty]

/-- What an extraction of an integer takes: the longest text that is an integer
behind blanks, if its value fits, and nothing else. -/
theorem extractInteger_iff {value : Int} : extractInteger input = some (value, rest) <->
    Exists fun gap => Exists fun text => input = gap ++ (text ++ rest) ∧ Within isSpace gap ∧
      IntegerText text value ∧ Halts isDigit rest ∧ -2 ^ 63 ≤ value ∧ value < 2 ^ 63 := by
  constructor
  · intro extracted
    rcases skipSpaces_iff.mp (Eq.refl (skipSpaces input)) with ⟨gap, split, blank, -⟩
    rcases scanSign_spec (skipSpaces input) with ⟨sign, signed', isSign⟩
    have digits := scanDigits_spec (scanSign (skipSpaces input)).2
    unfold extractInteger at extracted
    dsimp only at extracted
    split at extracted
    · cases extracted
    rename_i nonempty
    split at extracted
    · rename_i fits
      cases extracted
      refine ⟨gap, sign ++ _, ?_, blank, .number isSign digits.2.1 nonempty, digits.2.2, fits⟩
      rw [List.append_assoc, ← digits.1, ← signed', ← split]
    · cases extracted
  · rintro ⟨gap, text, split, blank, isInteger, ends, fits⟩
    rw [split, isInteger.extract blank ends, if_pos fits]

/-- The text is over, or goes on with white space or a sign: no decimal number
that has come to its end can be continued by it. -/
def Severed (rest : Text) : Prop :=
  forall char, rest.head? = some char -> isSpace char = true ∨ char = '+' ∨ char = '-'

theorem Severed.halts (severed : Severed rest) : Halts isDigit rest := by
  intro char begins
  rcases severed char begins with space | isPlus | isMinus
  · apply Bool.eq_false_iff.mpr
    intro digit
    rw [isSpace_of_isDigit digit] at space
    cases space
  · rw [isPlus]
    rfl
  · rw [isMinus]
    rfl

theorem Severed.ne {char : Char} (severed : Severed (char :: rest)) :
    char ≠ '.' ∧ char ≠ 'e' ∧ char ≠ 'E' := by
  refine ⟨?_, ?_, ?_⟩
  all_goals
    intro same
    subst same
    rcases severed _ rfl with impossible | impossible | impossible <;> cases impossible

theorem scanFraction_spec (ends : Halts isDigit input) : Exists fun point =>
    input = point ++ (scanFraction input).2 ∧ FractionText point (scanFraction input).1 ∧
      Halts isDigit (scanFraction input).2 := by
  unfold scanFraction
  split
  · rename_i rest
    have digits := scanDigits_spec rest
    refine ⟨'.' :: (scanDigits rest).1, ?_, .point digits.2.1, digits.2.2⟩
    rw [List.cons_append, ← digits.1]
  · exact ⟨[], rfl, .absent, ends⟩

theorem FractionText.scan (isFraction : FractionText point fraction) (ends : Halts isDigit rest)
    (noPoint : rest.head? ≠ some '.') : scanFraction (point ++ rest) = (fraction, rest) := by
  cases isFraction with
  | point all => exact scanDigits_append all ends
  | absent =>
      rw [List.nil_append]
      unfold scanFraction
      split
      · exact absurd rfl noPoint
      · rfl

/-- The mark of an exponent must be followed by one. -/
theorem scanExponent_mark {mark : Char} (isMark : mark = 'e' ∨ mark = 'E') (others : Text) :
    scanExponent (mark :: others) =
      if (scanDigits (scanSign others).2).1 = [] then none
      else some (signed (scanSign others).1 (digitsValue (scanDigits (scanSign others).2).1),
        (scanDigits (scanSign others).2).2) := by
  rcases isMark with same | same
  · rw [same]
    rfl
  · rw [same]
    rfl

theorem scanExponent_of_not_mark
    (noMark : forall char, input.head? = some char -> char ≠ 'e' ∧ char ≠ 'E') :
    scanExponent input = some (0, input) := by
  unfold scanExponent
  split
  · exact absurd rfl (noMark _ rfl).1
  · exact absurd rfl (noMark _ rfl).2
  · rfl

theorem scanExponent_spec {exponent : Int} (ends : Halts isDigit input)
    (scanned : scanExponent input = some (exponent, rest)) : Exists fun power =>
      input = power ++ rest ∧ ExponentText power exponent ∧ Halts isDigit rest := by
  by_cases noMark : forall char, input.head? = some char -> char ≠ 'e' ∧ char ≠ 'E'
  · rw [scanExponent_of_not_mark noMark] at scanned
    cases scanned
    exact ⟨[], rfl, .absent, ends⟩
  · cases input with
    | nil => exact absurd (fun char begins => by cases begins) noMark
    | cons mark others =>
        have isMark : mark = 'e' ∨ mark = 'E' := by
          by_contra other
          refine noMark fun char begins => ?_
          cases begins
          exact not_or.mp other
        rcases scanSign_spec others with ⟨sign, split, isSign⟩
        have digits := scanDigits_spec (scanSign others).2
        rw [scanExponent_mark isMark] at scanned
        split at scanned
        · cases scanned
        · rename_i nonempty
          cases scanned
          refine ⟨_, ?_, .power isMark isSign digits.2.1 nonempty, digits.2.2⟩
          rw [List.cons_append, List.append_assoc, ← digits.1, ← split]

theorem ExponentText.scan {exponent : Int} (isExponent : ExponentText power exponent)
    (severed : Severed rest) : scanExponent (power ++ rest) = some (exponent, rest) := by
  cases isExponent with
  | absent =>
      apply scanExponent_of_not_mark
      intro char begins
      cases rest with
      | nil => cases begins
      | cons first others =>
          cases begins
          exact severed.ne.2
  | power isMark isSign all nonempty =>
      rw [List.cons_append, List.append_assoc, scanExponent_mark isMark,
        isSign.scan (startsNumber_digits all nonempty rest), scanDigits_append all severed.halts]
      exact if_neg nonempty

/-- Behind a mantissa comes an exponent or the end of the number. -/
theorem ExponentText.behind {exponent : Int} (isExponent : ExponentText power exponent)
    (severed : Severed rest) {char : Char} (begins : (power ++ rest).head? = some char) :
    isDigit char = false ∧ char ≠ '.' := by
  cases isExponent with
  | absent =>
      cases rest with
      | nil => cases begins
      | cons first others =>
          cases begins
          exact ⟨severed.halts _ rfl, severed.ne.1⟩
  | power isMark =>
      cases begins
      rcases isMark with isMark | isMark
      all_goals
        subst isMark
        exact ⟨rfl, by decide⟩

/-- The whole digits of a number end at its point, at its exponent or with it. -/
theorem FractionText.behind {exponent : Int} (isFraction : FractionText point fraction)
    (isExponent : ExponentText power exponent) (severed : Severed rest) :
    Halts isDigit (point ++ (power ++ rest)) := by
  intro char begins
  cases isFraction with
  | absent => exact (isExponent.behind severed begins).1
  | point =>
      cases begins
      rfl

/-- What an extraction of a double takes: the longest text that is a decimal
number behind blanks, and its value as the arithmetic rounds it. -/
theorem extractDouble_spec {arithmetic : Arithmetic} {price : Rat}
    (extracted : extractDouble arithmetic input = some (price, rest)) :
    Exists fun gap => Exists fun text => Exists fun value =>
      input = gap ++ (text ++ rest) ∧ Within isSpace gap ∧ DecimalText text value ∧
        arithmetic.round value = some price ∧ Halts isDigit rest := by
  rcases skipSpaces_iff.mp (Eq.refl (skipSpaces input)) with ⟨gap, isInput, blank, -⟩
  rcases scanSign_spec (skipSpaces input) with ⟨sign, isSigned, isSign⟩
  have whole := scanDigits_spec (scanSign (skipSpaces input)).2
  rcases scanFraction_spec whole.2.2 with ⟨point, isBehind, isFraction, ends⟩
  unfold extractDouble at extracted
  dsimp only at extracted
  split at extracted
  · cases extracted
  rename_i mantissa
  rcases Option.bind_eq_some_iff.mp extracted with ⟨exponent, scanned, rounded⟩
  rcases Option.map_eq_some_iff.mp rounded with ⟨value, isValue, same⟩
  cases same
  rcases scanExponent_spec ends scanned with ⟨power, isPower, isExponent, notDigit⟩
  refine ⟨gap, _, _, ?_, blank, .number isSign whole.2.1 isFraction mantissa isExponent, isValue,
    notDigit⟩
  rw [List.append_assoc, List.append_assoc, List.append_assoc, ← isPower, ← isBehind, ← whole.1,
    ← isSigned, ← isInput]

/-- A decimal number is taken as a whole where it cannot go on. -/
theorem DecimalText.extract (arithmetic : Arithmetic) {gap : Text} {value : Rat}
    (isDecimal : DecimalText text value) (blank : Within isSpace gap) (severed : Severed rest) :
    extractDouble arithmetic (gap ++ (text ++ rest)) =
      (arithmetic.round value).map fun price => (price, rest) := by
  cases isDecimal with
  | @number sign whole point fraction power negative exponent isSign all isFraction mantissa
      isExponent =>
      have starts := isFraction.startsNumber all mantissa (power ++ rest)
      have skipped : skipSpaces (gap ++ (sign ++ (whole ++ (point ++ (power ++ rest))))) =
          sign ++ (whole ++ (point ++ (power ++ rest))) :=
        skipSpaces_iff.mpr ⟨gap, rfl, blank, isSign.halts starts⟩
      have wholeScan := scanDigits_append all (isFraction.behind isExponent severed)
      have fractionScan := isFraction.scan
        (fun char begins => (isExponent.behind severed begins).1)
        (fun begins => (isExponent.behind severed begins).2 rfl)
      rw [List.append_assoc, List.append_assoc, List.append_assoc]
      simp only [extractDouble, skipped, isSign.scan starts, wholeScan, fractionScan,
        if_neg mantissa, isExponent.scan severed, Option.bind_some]

/-- A decimal number is not empty, and it begins with no white space. -/
theorem DecimalText.starts {value : Rat} (isDecimal : DecimalText text value) (rest : Text) :
    text ≠ [] ∧ Halts isSpace (text ++ rest) := by
  cases isDecimal with
  | number isSign all isFraction mantissa isExponent =>
      rw [List.append_assoc, List.append_assoc, List.append_assoc]
      refine ⟨fun empty => ?_, isSign.halts (isFraction.startsNumber all mantissa _)⟩
      rcases List.append_eq_nil_iff.mp empty with ⟨-, others⟩
      rcases List.append_eq_nil_iff.mp others with ⟨noWhole, others⟩
      rcases List.append_eq_nil_iff.mp others with ⟨noPoint, -⟩
      cases isFraction with
      | absent => exact mantissa (by rw [noWhole, List.append_nil])
      | point => cases noPoint

/-- An integer begins with a sign or a digit, and ends in a digit. -/
theorem IntegerText.ends {value : Int} (isInteger : IntegerText text value) :
    (forall char, text.head? = some char -> isDigit char = true ∨ char = '+' ∨ char = '-') ∧
      Exists fun last => text.getLast? = some last ∧ isDigit last = true := by
  cases isInteger with
  | @number sign run negative isSign all nonempty =>
      constructor
      · intro char begins
        cases isSign with
        | plus =>
            cases begins
            exact .inr (.inl rfl)
        | minus =>
            cases begins
            exact .inr (.inr rfl)
        | absent => exact .inl (all char (List.mem_of_mem_head? begins))
      · refine ⟨run.getLast nonempty, ?_, all _ (List.getLast_mem nonempty)⟩
        rw [List.getLast?_append_of_ne_nil _ nonempty, List.getLast?_eq_getLast_of_ne_nil nonempty]

end Numbers

/-! ## Orders -/

/-- The parts of a line with an order: the text around its command, around its
price and around its quantity.  The parts determine the line, and their conditions
make it an order. -/
structure OrderText where
  lead : Text
  gap : Text
  price : Text
  between : Text
  qty : Text
  rest : Text

namespace OrderText

def text (parts : OrderText) (side : Side) : Text :=
  parts.lead ++ (side.word ++
    (parts.gap ++ (parts.price ++ (parts.between ++ (parts.qty ++ parts.rest)))))

/-- The numbers are spelled as a decimal number and as an integer that fit their
types, and neither goes on in what follows. -/
structure Reads (parts : OrderText) (arithmetic : Arithmetic) (priceInput : Rat)
    (qtyInput : Int) : Prop where
  leadBlank : Within isSpace parts.lead
  gapBlank : Within isSpace parts.gap
  gapSome : parts.gap ≠ []
  isPrice : Exists fun value =>
    DecimalText parts.price value ∧ arithmetic.round value = some priceInput
  betweenBlank : Within isSpace parts.between
  priceEnds : Halts isDigit (parts.between ++ parts.qty)
  isQty : IntegerText parts.qty qtyInput
  qtyFits : -2 ^ 63 ≤ qtyInput ∧ qtyInput < 2 ^ 63
  qtyEnds : Halts isDigit parts.rest

end OrderText

section Orders

variable {arithmetic : Arithmetic} {line : Text} {side : Side} {priceInput : Rat} {qtyInput : Int}

theorem parseCommand_eq_clear :
    parseCommand arithmetic line = .clear <-> (extractWord line).1 = "CLEAR".toList := by
  unfold parseCommand
  dsimp only
  split
  · rename_i isClear
    exact iff_of_true rfl isClear
  · rename_i notClear
    refine iff_of_false (fun parsed => ?_) notClear
    split at parsed
    · split at parsed
      · cases parsed
      · split at parsed <;> cases parsed
    · cases parsed

/-- The command for an order is one of two words, and names the side. -/
theorem Side.eq_word_iff {word : Text} (side : Side) : word = side.word <->
    ¬ word = "CLEAR".toList ∧ (word = "BUY".toList ∨ word = "SELL".toList) ∧
      (if word = "BUY".toList then Side.Buy else .Sell) = side := by
  constructor
  · intro isWord
    subst isWord
    cases side <;> decide
  · rintro ⟨-, isBuy | isSell, isSide⟩
    · rw [← isSide, if_pos isBuy, isBuy]
      rfl
    · have notBuy : ¬ word = "BUY".toList := by
        rw [isSell]
        decide
      rw [← isSide, if_neg notBuy, isSell]
      rfl

theorem parseCommand_eq_order : parseCommand arithmetic line = .order side priceInput qtyInput <->
    (extractWord line).1 = side.word ∧ Exists fun behind => Exists fun rest =>
      extractDouble arithmetic (extractWord line).2 = some (priceInput, behind) ∧
        extractInteger behind = some (qtyInput, rest) := by
  rw [Side.eq_word_iff]
  unfold parseCommand
  dsimp only
  constructor
  · intro parsed
    split at parsed
    · cases parsed
    rename_i notClear
    split at parsed
    · rename_i isOrder
      split at parsed
      · cases parsed
      rename_i isPrice
      split at parsed
      · cases parsed
      rename_i rest isQty
      cases parsed
      exact ⟨⟨notClear, isOrder, rfl⟩, _, rest, isPrice, isQty⟩
    · cases parsed
  · rintro ⟨⟨notClear, isOrder, isSide⟩, behind, rest, isPrice, isQty⟩
    rw [if_neg notClear, if_pos isOrder, isPrice]
    dsimp only
    rw [isQty]
    dsimp only
    rw [isSide]

theorem Side.word_solid (side : Side) :
    side.word ≠ [] ∧ Within (fun char => !isSpace char) side.word := by
  cases side with
  | Buy => exact ⟨by decide, within_of_all (by decide)⟩
  | Sell => exact ⟨by decide, within_of_all (by decide)⟩

/-- A quantity cannot go on with the price in front of it. -/
theorem OrderText.Reads.severed {parts : OrderText}
    (reads : parts.Reads arithmetic priceInput qtyInput) :
    Severed (parts.between ++ (parts.qty ++ parts.rest)) := by
  intro char begins
  cases between : parts.between with
  | cons first others =>
      rw [between] at begins
      cases begins
      exact .inl (reads.betweenBlank char (between ▸ List.mem_cons_self))
  | nil =>
      rcases reads.isQty.ends.2 with ⟨last, isLast, -⟩
      cases isQty : parts.qty with
      | nil =>
          rw [isQty] at isLast
          cases isLast
      | cons first others =>
          rw [between, isQty] at begins
          cases begins
          have notDigit := reads.priceEnds char (by rw [between, isQty]; rfl)
          rcases reads.isQty.ends.1 char (by rw [isQty]; rfl) with digit | sign
          · rw [notDigit] at digit
            cases digit
          · exact .inr sign

/-- A line is read as an order exactly if it begins with one.  The grammar on the
right is declared without the extraction functions; this is where the two meet. -/
theorem parseCommand_order_iff : parseCommand arithmetic line = .order side priceInput qtyInput <->
    Exists fun parts : OrderText =>
      line = parts.text side ∧ parts.Reads arithmetic priceInput qtyInput := by
  rw [parseCommand_eq_order]
  constructor
  · rintro ⟨isWord, behind, rest, isPrice, isQty⟩
    cases isExtract : extractWord line with
    | mk word after =>
        rw [isExtract] at isWord isPrice
        dsimp only at isWord isPrice
        subst isWord
        rcases (extractWord_iff side.word_solid.1).mp isExtract with
          ⟨lead, isLine, leadBlank, -, apart⟩
        rcases extractDouble_spec isPrice with
          ⟨gap, price, value, isOrder, gapBlank, isDecimal, rounded, priceEnds⟩
        rcases extractInteger_iff.mp isQty with
          ⟨between, qty, isBehind, betweenBlank, isInteger, qtyEnds, fits⟩
        refine ⟨⟨lead, gap, price, between, qty, rest⟩, ?_, leadBlank, gapBlank, ?_,
          ⟨value, isDecimal, rounded⟩, betweenBlank, ?_, isInteger, fits, qtyEnds⟩
        · rw [OrderText.text, ← isBehind, ← isOrder, ← isLine]
        · -- the price does not begin with the white space that ends the word
          intro noGap
          dsimp only at noGap
          rw [isOrder, noGap, List.nil_append] at apart
          rcases isDecimal.starts behind with ⟨nonempty, notSpace⟩
          rcases List.exists_cons_of_ne_nil nonempty with ⟨first, others, isText⟩
          rw [isText] at apart notSpace
          have space := apart first rfl
          dsimp only at space
          rw [notSpace first rfl] at space
          cases space
        · intro char begins
          dsimp only at begins
          apply priceEnds char
          rw [isBehind, ← List.append_assoc, List.head?_append, begins, Option.some_or]
  · rintro ⟨parts, isLine, reads⟩
    rcases reads.isPrice with ⟨value, isDecimal, rounded⟩
    have isWord : extractWord line = (side.word,
        parts.gap ++ (parts.price ++ (parts.between ++ (parts.qty ++ parts.rest)))) := by
      refine (extractWord_iff side.word_solid.1).mpr
        ⟨parts.lead, isLine, reads.leadBlank, side.word_solid.2, ?_⟩
      rcases List.exists_cons_of_ne_nil reads.gapSome with ⟨first, others, isGap⟩
      intro char begins
      rw [isGap] at begins
      cases begins
      dsimp only
      rw [reads.gapBlank first (isGap ▸ List.mem_cons_self)]
      rfl
    rw [isWord]
    have taken := isDecimal.extract arithmetic reads.gapBlank reads.severed
    rw [rounded] at taken
    exact ⟨rfl, _, parts.rest, taken,
      extractInteger_iff.mpr ⟨parts.between, parts.qty, rfl, reads.betweenBlank, reads.isQty,
        reads.qtyEnds, reads.qtyFits⟩⟩

end Orders
end NexusHft
