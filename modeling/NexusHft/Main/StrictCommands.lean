import NexusHft.Main.CommandGrammar
import NexusHft.Main.PoolUsage

namespace NexusHft

open Foundations

/-!
# Strict commands

A line that is not a command should be answered by one message and change
nothing, and an order should only be processed with a price and a quantity of at
least one.  The loop has messages for both.  But it stops reading behind the
quantity, and behind the word `CLEAR`, and it looks at the sign of a price before
it rounds it to hundredths.

So the lines that it treats strictly are those on which nothing is left unread
and no positive price becomes zero or too large.  A line that it refuses for any
other reason is always treated strictly.
-/

/-- A price in hundredths, to the nearest. -/
def cents (priceInput : Rat) : Int := ⌊priceInput * 100 + 1 / 2⌋

/-- The conversion to hundredths is exact where the result fits. -/
def Arithmetic.ExactCents (arithmetic : Arithmetic) (priceInput : Rat) : Prop :=
  0 < priceInput -> priceInput * 100 + 1 / 2 < 2 ^ 64 ->
    ((arithmetic.hundredths priceInput).toNat : Int) = cents priceInput

/-- The price that is read from the line, if there is one, is converted exactly. -/
def Arithmetic.ConvertsExactly (arithmetic : Arithmetic) (line : Text) : Prop :=
  forall side priceInput qtyInput,
    parseCommand arithmetic line = .order side priceInput qtyInput -> arithmetic.ExactCents priceInput

/-- A command with its decimal price and its integer quantity, white space between
them, and nothing but white space after them. -/
def ExactOrder (arithmetic : Arithmetic) (line : Text) (side : Side) (priceInput : Rat)
    (qtyInput : Int) : Prop :=
  Exists fun parts : OrderText => line = parts.text side ∧
    parts.Reads arithmetic priceInput qtyInput ∧ parts.lead = [] ∧ parts.between ≠ [] ∧
      Within isSpace parts.rest

namespace Handled

/-- The line was executed as an order: a slot and the next id were taken for it,
and it was processed with this price and quantity. -/
def Executed (handled : Handled) (side : Side) (price : Price) (qty : Quantity) : Prop :=
  Exists fun slot => Exists fun pool => Exists fun budget => Exists fun latency =>
    Exists fun answer =>
      handled.before.pool.allocate false = (.object slot, pool) ∧
      handled.before.engine.serve budget
        (.submit slot ⟨handled.before.nextId, price, qty, side⟩) = some answer ∧
      handled.printed = printAnswer latency answer ∧
      handled.after = ⟨answer.2, pool, handled.before.nextId + 1⟩

/-- The line is a command and is executed as it is spelled, or is answered by one
message and changes nothing.  There is no third way: no order is guessed from a
line that is not one. -/
inductive Answered (arithmetic : Arithmetic) (handled : Handled) : Prop
  | cleared {heap : Heap} : handled.line = "CLEAR".toList -> handled.after = .fresh heap ->
      handled.printed = [printBook handled.after.engine.book, .clearAck] ->
        Answered arithmetic handled
  | executed {side : Side} {priceInput : Rat} {qtyInput : Int} {price : Price} {qty : Quantity} :
      ExactOrder arithmetic handled.line side priceInput qtyInput ->
      (price.toNat : Int) = cents priceInput -> (qty.toNat : Int) = qtyInput ->
      handled.Executed side price qty -> Answered arithmetic handled
  | refused {refusal : Refusal} : handled.printed = [.err refusal] ->
      handled.after = handled.before -> Answered arithmetic handled

/-- The line was treated strictly, and so was the order that it handed over, whose
price and quantity are at least one. -/
structure Strict (arithmetic : Arithmetic) (handled : Handled) : Prop where
  answered : handled.Answered arithmetic
  positive : forall order, handled.before.accepted arithmetic handled.line = some order ->
    1 ≤ order.price.toNat ∧ 1 ≤ order.qty.toNat

end Handled

/-- What a line must be for the loop to treat it strictly.  A line that begins
with the word `CLEAR` is this word.  A line that begins with an order is exactly
an order, if its numbers are positive and a slot is free, and its price in
hundredths neither rounds to zero nor exceeds a `Price`. -/
structure StrictInput (arithmetic : Arithmetic) (state : LoopState) (line : Text) : Prop where
  clear : (extractWord line).1 = "CLEAR".toList -> line = "CLEAR".toList
  order : forall (side : Side) (priceInput : Rat) (qtyInput : Int) (parts : OrderText),
    line = parts.text side -> parts.Reads arithmetic priceInput qtyInput ->
    0 < priceInput -> 0 < qtyInput -> state.pool.freelistHead ≠ none ->
      ExactOrder arithmetic line side priceInput qtyInput ∧
        1 / 2 ≤ priceInput * 100 ∧ priceInput * 100 + 1 / 2 < 2 ^ 64

/-! ## Prices and quantities -/

section Numbers

variable {arithmetic : Arithmetic} {line : Text} {side : Side} {priceInput : Rat} {qtyInput : Int}

theorem one_le_cents (priceInput : Rat) : 1 ≤ cents priceInput <-> 1 / 2 ≤ priceInput * 100 := by
  rw [cents, Int.le_floor, Int.cast_one]
  constructor
  · intro large
    linarith
  · intro large
    linarith

/-- A price in hundredths that is a `Price` was not too large. -/
theorem fits_of_cents {price : Price} (same : (price.toNat : Int) = cents priceInput) :
    priceInput * 100 + 1 / 2 < 2 ^ 64 := by
  have small : cents priceInput < 2 ^ 64 := by
    have bound := price.toNat_lt
    omega
  have floor := Int.floor_lt.mp small
  exact_mod_cast floor

theorem Arithmetic.exact_exactCents (priceInput : Rat) : Arithmetic.exact.ExactCents priceInput := by
  intro positive fits
  have large : (-1 : Rat) < priceInput * 100 + 1 / 2 := by linarith
  have natural : 0 ≤ cents priceInput := Int.floor_nonneg.mpr (by linarith)
  have small : cents priceInput < 2 ^ 64 := Int.floor_lt.mpr (by exact_mod_cast fits)
  have converted : Arithmetic.exact.hundredths priceInput = UInt64.ofNat (cents priceInput).toNat :=
    if_pos ⟨large, fits⟩
  rw [converted, UInt64.toNat_ofNat']
  omega

theorem ExactOrder.parsed (exact : ExactOrder arithmetic line side priceInput qtyInput) :
    parseCommand arithmetic line = .order side priceInput qtyInput := by
  rcases exact with ⟨parts, isLine, reads, -⟩
  exact parseCommand_order_iff.mpr ⟨parts, isLine, reads⟩

/-- An exact order ends in a digit or in white space. -/
theorem ExactOrder.last (exact : ExactOrder arithmetic line side priceInput qtyInput) {char : Char}
    (isLast : line.getLast? = some char) : isDigit char = true ∨ isSpace char = true := by
  rcases exact with ⟨parts, isLine, reads, -, -, blank⟩
  rcases reads.isQty.ends.2 with ⟨digit, isEnd, isDigit⟩
  rw [isLine, OrderText.text] at isLast
  simp only [List.getLast?_append, isEnd] at isLast
  cases rest : parts.rest.getLast? with
  | none =>
      rw [rest] at isLast
      cases isLast
      exact .inl isDigit
  | some space =>
      rw [rest] at isLast
      cases isLast
      exact .inr (blank _ (List.mem_of_getLast? rest))

end Numbers

/-! ## One line -/

section Line

variable {arithmetic : Arithmetic} {handled : Handled}

/-- The word `CLEAR` is strict when it stands alone. -/
theorem Handled.strict_iff_of_clear
    (isClear : parseCommand arithmetic handled.line = .clear)
    (isAfter : handled.after = .fresh handled.before.engine.heap)
    (isPrinted : handled.printed = [printBook handled.after.engine.book, .clearAck]) :
    handled.Strict arithmetic <-> StrictInput arithmetic handled.before handled.line := by
  have noOrder : forall side priceInput qtyInput,
      parseCommand arithmetic handled.line ≠ .order side priceInput qtyInput := by
    intro side priceInput qtyInput isOrder
    rw [isClear] at isOrder
    cases isOrder
  constructor
  · intro strict
    constructor
    · intro _
      rcases strict.answered with isLine | ⟨exact, -, -, -⟩ | isErr
      · exact isLine
      · exact absurd exact.parsed (noOrder _ _ _)
      · rw [isPrinted] at isErr
        cases isErr
    · intro side priceInput qtyInput parts isLine reads
      exact absurd (parseCommand_order_iff.mpr ⟨parts, isLine, reads⟩) (noOrder _ _ _)
  · intro input
    constructor
    · exact .cleared (input.clear (parseCommand_eq_clear.mp isClear)) isAfter isPrinted
    · intro order isAccepted
      rcases LoopState.accepted_iff.mp isAccepted with ⟨priceInput, qtyInput, isOrder, -⟩
      exact absurd isOrder (noOrder _ _ _)

/-- A refused line is strict. -/
theorem Handled.strict_iff_of_refused {refusal : Refusal}
    (notClear : parseCommand arithmetic handled.line ≠ .clear)
    (noOrder : handled.before.accepted arithmetic handled.line = none)
    (isPrinted : handled.printed = [.err refusal]) (isAfter : handled.after = handled.before) :
    handled.Strict arithmetic <-> StrictInput arithmetic handled.before handled.line := by
  apply iff_of_true
  · refine ⟨.refused isPrinted isAfter, fun order isAccepted => ?_⟩
    rw [noOrder] at isAccepted
    cases isAccepted
  · constructor
    · intro isClear
      exact absurd (parseCommand_eq_clear.mpr isClear) notClear
    · intro side priceInput qtyInput parts isLine reads price qty available
      have isAccepted := (@LoopState.accepted_iff _ _ _ ⟨_, _, _, side⟩).mpr ⟨priceInput, qtyInput,
        parseCommand_order_iff.mpr ⟨parts, isLine, reads⟩, ⟨price, qty⟩, available, rfl⟩
      rw [noOrder] at isAccepted
      cases isAccepted

theorem parse_clear : parseCommand arithmetic "CLEAR".toList = .clear :=
  parseCommand_eq_clear.mpr (by decide)

/-- An executed order is strict when nothing is left of its line and its price in
hundredths is a positive `Price`. -/
theorem Handled.strict_iff_of_executed {order : LimitOrder}
    (exactly : arithmetic.ConvertsExactly handled.line)
    (isAccepted : handled.before.accepted arithmetic handled.line = some order)
    (executed : handled.Executed order.side order.price order.qty) :
    handled.Strict arithmetic <-> StrictInput arithmetic handled.before handled.line := by
  rcases LoopState.accepted_iff.mp isAccepted with
    ⟨priceInput, qtyInput, parsed, positive, available, isOrder⟩
  have converted := exactly _ _ _ parsed positive.1
  have isPrice : order.price = arithmetic.hundredths priceInput := congrArg LimitOrder.price isOrder
  have isQty : (order.qty.toNat : Int) = qtyInput := by
    rw [congrArg LimitOrder.qty isOrder]
    exact LoopState.toNat_ofInt positive.2 (LoopState.parseCommand_fits parsed)
  constructor
  · intro strict
    have exact' : ExactOrder arithmetic handled.line order.side priceInput qtyInput ∧
        priceInput * 100 + 1 / 2 < 2 ^ 64 := by
      rcases strict.answered with isLine | ⟨exact', isCents, -, -⟩ | isErr
      · rw [isLine, parse_clear] at parsed
        cases parsed
      · rw [exact'.parsed] at parsed
        cases parsed
        exact ⟨exact', fits_of_cents isCents⟩
      · rcases executed with ⟨slot, pool, budget, latency, answer, -, -, isPrinted, -⟩
        rw [isErr] at isPrinted
        exact absurd (isPrinted ▸ List.mem_singleton_self _) err_not_mem_printAnswer
    constructor
    · intro isClear
      rw [parseCommand_eq_clear.mpr isClear] at parsed
      cases parsed
    · intro side priceInput' qtyInput' parts isLine reads _ _ _
      rw [parseCommand_order_iff.mpr ⟨parts, isLine, reads⟩] at parsed
      cases parsed
      have least := (strict.positive order isAccepted).1
      rw [isPrice] at least
      have cents := converted exact'.2
      refine ⟨exact'.1, (one_le_cents _).mp ?_, exact'.2⟩
      omega
  · intro input
    rcases parseCommand_order_iff.mp parsed with ⟨parts, isLine, reads⟩
    rcases input.order _ _ _ parts isLine reads positive.1 positive.2 available with
      ⟨exact', half, fits⟩
    have isCents : (order.price.toNat : Int) = cents priceInput := isPrice ▸ converted fits
    refine ⟨.executed exact' isCents isQty executed, fun other isOther => ?_⟩
    cases Option.some.inj (isAccepted.symm.trans isOther)
    have least := (one_le_cents priceInput).mpr half
    omega

/-- A line that the loop has handled was treated strictly exactly if it is as it
must be. -/
theorem Handled.strict_iff {budget : Nat} {latency : UInt64} (nonempty : handled.line ≠ [])
    (executed : handled.before.execute arithmetic budget latency handled.line =
      some (handled.printed, handled.after))
    (exactly : arithmetic.ConvertsExactly handled.line) :
    handled.Strict arithmetic <-> StrictInput arithmetic handled.before handled.line := by
  rcases LoopState.execute_cases nonempty executed with
    ⟨isClear, isAfter, isPrinted⟩ |
    ⟨order, slot, pool, answer, isAccepted, allocated, served, isPrinted, isAfter⟩ |
    ⟨noOrder, notClear, ⟨refusal, isPrinted⟩, isAfter⟩
  · exact strict_iff_of_clear isClear isAfter isPrinted
  · apply strict_iff_of_executed exactly isAccepted
    rcases LoopState.accepted_iff.mp isAccepted with ⟨priceInput, qtyInput, -, -, -, isOrder⟩
    have isId : order.id = handled.before.nextId := congrArg LimitOrder.id isOrder
    refine ⟨slot, pool, budget, latency, answer, allocated, ?_, isPrinted, isAfter⟩
    rw [← isId]
    exact served
  · exact strict_iff_of_refused notClear noOrder isPrinted isAfter

end Line

/-! ## Runs over lines -/

/-- Every sequence of lines is answered.  In a run whose prices are converted
exactly, every line was treated strictly if and only if every line was as it must
be. -/
theorem commands_strict_iff (arithmetic : Arithmetic) :
    (forall lines : List Text, Exists fun past => Exists fun state =>
      (commandLoop arithmetic).Run past state ∧ past.map Handled.line = lines) ∧
    forall past state, (commandLoop arithmetic).Run past state ->
      (forall handled, handled ∈ past -> arithmetic.ConvertsExactly handled.line) ->
        ((forall handled, handled ∈ past -> handled.line ≠ [] -> handled.Strict arithmetic) <->
          forall handled, handled ∈ past -> handled.line ≠ [] ->
            StrictInput arithmetic handled.before handled.line) := by
  constructor
  · intro lines
    rcases lines_answered arithmetic Engine.blank.heap lines with ⟨past, state, run, same, -⟩
    exact ⟨past, state, run, same⟩
  · intro past state run exactly
    have handledBy := run.invariant (fun past _ => forall handled, handled ∈ past ->
      Exists fun budget => Exists fun latency =>
        handled.before.execute arithmetic budget latency handled.line =
          some (handled.printed, handled.after)) ?_ ?_
    · constructor
      · intro strict handled member nonempty
        rcases handledBy handled member with ⟨budget, latency, executed⟩
        exact (handled.strict_iff nonempty executed (exactly handled member)).mp
          (strict handled member nonempty)
      · intro input handled member nonempty
        rcases handledBy handled member with ⟨budget, latency, executed⟩
        exact (handled.strict_iff nonempty executed (exactly handled member)).mpr
          (input handled member nonempty)
    · exact fun _ _ _ member => absurd member List.not_mem_nil
    · rintro past state handled next - earlier ⟨isBefore, isAfter, budget, latency, executed⟩ other member
      rcases List.mem_append.mp member with before | last
      · exact earlier other before
      · rw [List.mem_singleton.mp last, isBefore, isAfter]
        exact ⟨budget, latency, executed⟩

/-- The first line of a run is handled on its own. -/
theorem first_line (arithmetic : Arithmetic) (line : Text) : Exists fun handled =>
    (commandLoop arithmetic).Run [handled] handled.after ∧ handled.line = line ∧
      handled.before = .fresh Engine.blank.heap ∧ Exists fun budget => Exists fun latency =>
        handled.before.execute arithmetic budget latency handled.line =
          some (handled.printed, handled.after) := by
  have begins : (commandLoop arithmetic).Run [] (.fresh Engine.blank.heap) := .start ⟨_, rfl⟩
  rcases (LoopState.fresh_sound Engine.blank.heap).line begins line with ⟨printed, next, run, -⟩
  rcases run.last with ⟨state, earlier, isBefore, -, budget, latency, executed⟩
  exact ⟨⟨.fresh Engine.blank.heap, line, printed, next⟩, run, rfl, rfl, budget, latency,
    isBefore ▸ executed⟩

/-- As the first line of a run the line is not treated strictly. -/
def Lenient (arithmetic : Arithmetic) (line : Text) : Prop := Exists fun handled =>
  (commandLoop arithmetic).Run [handled] handled.after ∧ handled.line = line ∧
    ¬ handled.Strict arithmetic

theorem lenient_of_not_input {line : Text} (nonempty : line ≠ [])
    (notInput : ¬ StrictInput .exact (.fresh Engine.blank.heap) line) : Lenient .exact line := by
  rcases first_line .exact line with ⟨handled, run, isLine, isFresh, budget, latency, executed⟩
  refine ⟨handled, run, isLine, fun strict => notInput ?_⟩
  have input := (handled.strict_iff (isLine ▸ nonempty) executed
    fun _ _ _ _ => Arithmetic.exact_exactCents _).mp strict
  rw [isFresh, isLine] at input
  exact input

/-- What a first line that is read as an order would have to be. -/
theorem StrictInput.of_parsed {arithmetic : Arithmetic} {heap : Heap} {line : Text} {side : Side}
    {priceInput : Rat} {qtyInput : Int} (input : StrictInput arithmetic (.fresh heap) line)
    (parsed : parseCommand arithmetic line = .order side priceInput qtyInput)
    (positive : 0 < priceInput ∧ 0 < qtyInput) :
    ExactOrder arithmetic line side priceInput qtyInput ∧
      1 / 2 ≤ priceInput * 100 ∧ priceInput * 100 + 1 / 2 < 2 ^ 64 := by
  rcases parseCommand_order_iff.mp parsed with ⟨parts, isLine, reads⟩
  exact input.order _ _ _ parts isLine reads positive.1 positive.2 (LoopState.fresh_head heap)

/-- Text behind a quantity, text behind `CLEAR`, and a price below half a cent:
each of these lines is executed. -/
theorem commands_not_strict : Lenient .exact "BUY 1 2 x".toList ∧
    Lenient .exact "CLEAR now".toList ∧ Lenient .exact "BUY 0.001 1".toList := by
  refine ⟨?_, ?_, ?_⟩
  · apply lenient_of_not_input (by decide)
    intro input
    have parsed : parseCommand .exact "BUY 1 2 x".toList = .order .Buy 1 2 := by decide +kernel
    have exact' := (input.of_parsed parsed (by decide +kernel)).1
    rcases exact'.last (rfl : _ = some 'x') with digit | space
    · cases digit
    · cases space
  · apply lenient_of_not_input (by decide)
    intro input
    exact absurd (input.clear (by decide)) (by decide)
  · apply lenient_of_not_input (by decide)
    intro input
    have parsed : parseCommand .exact "BUY 0.001 1".toList = .order .Buy (1 / 1000) 1 := by
      decide +kernel
    have half := (input.of_parsed parsed (by decide +kernel)).2.1
    norm_num at half

/-- An order at a price of one, with a quantity of one digit. -/
def plainOrder (digit : Char) : OrderText := ⟨[], [' '], ['1'], [' '], [digit], []⟩

theorem plainOrder_reads {digit : Char} (digits : Within isDigit [digit])
    (fits : -2 ^ 63 ≤ signed false (digitsValue [digit]) ∧
      signed false (digitsValue [digit]) < 2 ^ 63) :
    (plainOrder digit).Reads .exact 1 (signed false (digitsValue [digit])) := by
  have ones : Within isDigit ['1'] := within_of_all (by decide)
  have blank : Within isSpace [' '] := within_of_all (by decide)
  have one : DecimalText ['1'] 1 := by
    have value : decimalValue false ['1'] 0 = 1 := by decide +kernel
    exact value ▸ .number .absent ones .absent (by decide) .absent
  constructor
  · exact fun _ member => absurd member List.not_mem_nil
  · exact blank
  · exact List.cons_ne_nil _ _
  · exact ⟨1, one, rfl⟩
  · exact blank
  · intro char begins
    cases begins
    rfl
  · exact .number .absent digits (List.cons_ne_nil digit [])
  · exact fits
  · intro char begins
    cases begins

/-- It is written exactly, whatever the loop has done before. -/
theorem plainOrder_strictInput (state : LoopState) (side : Side) {digit : Char} {line : Text}
    (isLine : line = (plainOrder digit).text side)
    (reads : (plainOrder digit).Reads .exact 1 (signed false (digitsValue [digit])))
    (notClear : (extractWord line).1 ≠ "CLEAR".toList) : StrictInput .exact state line := by
  have parsed := parseCommand_order_iff.mpr ⟨plainOrder digit, isLine, reads⟩
  constructor
  · exact fun isClear => absurd isClear notClear
  · intro side' priceInput qtyInput parts isText readsParts _ _ _
    have same := parseCommand_order_iff.mpr ⟨parts, isText, readsParts⟩
    rw [parsed] at same
    cases same
    refine ⟨⟨plainOrder digit, isLine, reads, rfl, List.cons_ne_nil _ _, ?_⟩, by norm_num,
      by norm_num⟩
    exact fun _ member => absurd member List.not_mem_nil

/-- A line that is neither a command nor an order may be anything. -/
theorem strictInput_of_unknown {line command : Text} (state : LoopState)
    (notClear : (extractWord line).1 ≠ "CLEAR".toList)
    (parsed : parseCommand .exact line = .unknown command) : StrictInput .exact state line := by
  constructor
  · exact fun isClear => absurd isClear notClear
  · intro side priceInput qtyInput parts isLine reads _ _ _
    have order := parseCommand_order_iff.mpr ⟨parts, isLine, reads⟩
    rw [parsed] at order
    cases order

/-- Two asks at one price, a line that is refused, and a bid that fills the first ask and
cuts the second. -/
def plainLines : List Text :=
  ["SELL 1 2".toList, "SELL 1 3".toList, "HOLD".toList, "BUY 1 4".toList]

theorem plainLines_strictInput (state : LoopState) :
    forall line, line ∈ plainLines -> StrictInput .exact state line := by
  intro line member
  have digits (digit : Char) (all : isDigit digit = true) : Within isDigit [digit] :=
    within_of_all (by simp [all])
  rcases List.mem_cons.mp member with two | member
  · have reads := plainOrder_reads (digits '2' rfl) (by decide)
    exact plainOrder_strictInput state .Sell two reads (two ▸ by decide)
  rcases List.mem_cons.mp member with three | member
  · have reads := plainOrder_reads (digits '3' rfl) (by decide)
    exact plainOrder_strictInput state .Sell three reads (three ▸ by decide)
  rcases List.mem_cons.mp member with hold | member
  · have unknown : parseCommand .exact "HOLD".toList = .unknown "HOLD".toList := by decide +kernel
    exact hold ▸ strictInput_of_unknown state (by decide) unknown
  · have bid := List.mem_singleton.mp member
    have reads := plainOrder_reads (digits '4' rfl) (by decide)
    exact plainOrder_strictInput state .Buy bid reads (bid ▸ by decide)

theorem commands_strict_iff_plain : Exists fun past => Exists fun state =>
    (commandLoop .exact).Run past state ∧ past.map Handled.line = plainLines ∧
      forall handled, handled ∈ past -> handled.line ≠ [] -> handled.Strict .exact := by
  rcases (commands_strict_iff .exact).1 plainLines with ⟨past, state, run, same⟩
  refine ⟨past, state, run, same, ?_⟩
  refine ((commands_strict_iff .exact).2 past state run
    fun _ _ _ _ _ _ => Arithmetic.exact_exactCents _).mpr ?_
  intro handled member _
  exact plainLines_strictInput handled.before handled.line (same ▸ List.mem_map_of_mem member)

end NexusHft
