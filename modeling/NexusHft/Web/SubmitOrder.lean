import NexusHft.Web.JsValue

namespace NexusHft

open Foundations

/-!
# The submit_order handler

The handler of the `submit_order` events of a client: three members of the
event are tested and then spliced into a line for the engine.  What it writes
is a command line as long as none of the members brings a line break along and
the side is one; the tests do not see to either.
-/

/-- The members of an event that the middleware reads.  All others are ignored. -/
inductive Field where
  | side
  | price
  | qty
  deriving DecidableEq, Repr

def Field.name : Field -> Text
  | side => "side".toList
  | price => "price".toList
  | qty => "qty".toList

/-- The words that begin an order line. -/
def orderWords : List Text := ["BUY".toList, "SELL".toList]

namespace Json

/-- A member of the event, in the template. -/
def spliced (order : Json) (field : Field) : Option Text :=
  (order.member field.name).bind template

/-- The tests of the handler; the later ones are made if the earlier succeed. -/
def admits (order : Json) : Option Bool :=
  (order.member Field.side.name).bind fun side =>
    if isTruthy side then
      ((order.member Field.price.name).bind isPositive).bind fun positive =>
        if positive then (order.member Field.qty.name).bind isPositive else some false
    else some false

/-- The line for the engine. -/
def orderLine (order : Json) : Option Text :=
  (order.spliced .side).bind fun side =>
    (order.spliced .price).bind fun price =>
      (order.spliced .qty).map fun qty => side ++ ' ' :: (price ++ ' ' :: qty)

/-- What the handler writes; `none` is an exception. -/
def submitOrder (order : Json) : Option Text :=
  order.admits.bind fun admitted =>
    if admitted then order.orderLine.map fun line => line ++ ['\n'] else some []

/-- What the engine is sent, exception or not. -/
def written (order : Json) : Text := order.submitOrder.getD []

end Json

/-! ## Words of a line -/

/-- The white space of the engine is white space of the script. -/
theorem isJsSpace_of_isSpace {char : Char} (space : isSpace char = true) :
    isJsSpace char = true := by
  simp only [isSpace, isJsSpace, Bool.or_eq_true, Bool.and_eq_true, decide_eq_true_eq,
    beq_iff_eq] at space ⊢
  omega

/-- The first word of a text that goes on behind a blank. -/
theorem extractWord_append (front back : Text) :
    (extractWord (front ++ ' ' :: back)).1 =
      if (extractWord front).1 = [] then (extractWord back).1 else (extractWord front).1 := by
  induction front with
  | nil => rfl
  | cons char front inductionHypothesis =>
      cases space : isSpace char with
      | true =>
          rw [List.cons_append, extractWord_of_space space, extractWord_of_space space]
          exact inductionHypothesis
      | false =>
          rw [List.cons_append, extractWord_of_solid space, extractWord_of_solid space,
            if_neg (List.cons_ne_nil _ _), List.takeWhile_append]
          split
          · rename_i whole
            rw [List.takeWhile_cons_of_neg (by decide), List.append_nil,
              (List.takeWhile_prefix _).eq_of_length whole]
          · rfl

/-- A word that begins with a letter is met behind white space only. -/
theorem trim_of_word {text word : Text} {first : Char} (solid : isJsSpace first = false)
    (begins : (extractWord text).1 = first :: word) :
    trim text = [] ∨ Exists fun rest => trim text = first :: rest := by
  have start : Exists fun rest => trimStart text = first :: rest := by
    induction text with
    | nil => cases begins
    | cons char text inductionHypothesis =>
        cases space : isSpace char with
        | true =>
            rw [trimStart, List.dropWhile_cons_of_pos (isJsSpace_of_isSpace space)]
            rw [extractWord_of_space space] at begins
            exact inductionHypothesis begins
        | false =>
            rw [extractWord_of_solid space] at begins
            cases begins
            exact ⟨text, List.dropWhile_cons_of_neg (by rw [solid]; exact Bool.false_ne_true)⟩
  rcases start with ⟨rest, start⟩
  have begun : trim text <+: first :: rest := start ▸ trimEnd_begins _
  cases whole : trim text with
  | nil => exact .inl rfl
  | cons char others =>
      rw [whole] at begun
      rcases begun with ⟨behind, same⟩
      cases same
      exact .inr ⟨others, rfl⟩

theorem mem_of_mem_word {text : Text} {char : Char} (member : char ∈ (extractWord text).1) :
    char ∈ text := by
  rw [extractWord, List.span_eq_takeWhile_dropWhile] at member
  exact (List.dropWhile_suffix _).subset ((List.takeWhile_prefix _).subset member)

/-! ## Members that are positive numbers -/

/-- The words of an order line begin with two letters. -/
theorem orderWord_cases {word : Text} (listed : word ∈ orderWords) :
    Exists fun first => Exists fun rest => (first = 'B' ∨ first = 'S') ∧ word = first :: rest := by
  rcases List.mem_cons.mp listed with buy | listed
  · exact ⟨'B', ['U', 'Y'], .inl rfl, buy⟩
  · exact ⟨'S', ['E', 'L', 'L'], .inr rfl, List.mem_singleton.mp listed⟩

/-- A text whose first word begins an order line is no positive number. -/
theorem stringToNumber_of_orderWord {text : Text} (listed : (extractWord text).1 ∈ orderWords) :
    (stringToNumber text).isPositive = false := by
  rcases orderWord_cases listed with ⟨first, rest, letter, begins⟩
  have solid : isJsSpace first = false := by rcases letter with same | same <;> rw [same] <;> rfl
  unfold stringToNumber
  rcases trim_of_word solid begins with empty | ⟨others, whole⟩
  · rw [empty]
    rfl
  · rw [whole]
    rcases letter with same | same <;> rw [same] <;> rfl

/-- Nor is it the text of one. -/
theorem toText_orderWord {value : JsNumber} (positive : value.isPositive = true) :
    (extractWord value.toText).1 ∉ orderWords := by
  cases value with
  | nan => cases positive
  | infinity negative =>
      cases negative with
      | true => cases positive
      | false => decide
  | finite value =>
      have order : 0 < value := of_decide_eq_true positive
      rw [JsNumber.toText, if_neg (ne_of_gt order), if_neg (not_lt_of_gt order)]
      intro listed
      rcases orderWord_cases listed with ⟨first, rest, letter, begins⟩
      have member : first ∈ positiveText value :=
        mem_of_mem_word (begins ▸ List.mem_cons_self)
      have numeric := List.all_eq_true.mp (isNumeric_positiveText value) first member
      rcases letter with same | same <;> rw [same] at numeric <;> cases numeric

/-- A member that is tested to be positive does not bring a command along.  A text
whose first word begins an order is no number, and an array or object is spliced
by its texts. -/
theorem Json.spliced_orderWord {order : Json} {field : Field} {text : Text}
    (positive : (order.member field.name).bind isPositive = some true)
    (spliced : order.spliced field = some text) : (extractWord text).1 ∉ orderWords := by
  rcases Option.bind_eq_some_iff.mp positive with ⟨value, isMember, positive⟩
  rw [Json.spliced, isMember, Option.bind_some] at spliced
  cases value with
  | none => cases positive
  | some value =>
      rw [template] at spliced
      rcases Option.map_eq_some_iff.mp positive with ⟨number, isNumber, above⟩
      intro listed
      have noString {content : Text} (same : content = text) :
          (stringToNumber content).isPositive ≠ true := by
        rw [same, stringToNumber_of_orderWord listed]
        exact Bool.false_ne_true
      have noConversion (value : Json) (isText : value.toText = some text)
          (converts : value.toText.map stringToNumber = some number) : False := by
        rw [isText] at converts
        cases converts
        exact noString rfl above
      cases value with
      | null =>
          cases isNumber
          cases above
      | bool flag =>
          cases flag with
          | true =>
              cases spliced
              exact absurd listed (by decide)
          | false =>
              cases isNumber
              cases above
      | number value =>
          cases isNumber
          cases spliced
          exact toText_orderWord above listed
      | string spelling =>
          cases isNumber
          cases spliced
          exact noString rfl above
      | array items => exact noConversion _ spliced isNumber
      | object members => exact noConversion _ spliced isNumber

/-! ## One order for an event -/

/-- Nothing, or one line that begins an order. -/
def OneOrder (written : Text) : Prop :=
  written = [] ∨
    Exists fun line => written = line ++ ['\n'] ∧ '\n' ∉ line ∧ (extractWord line).1 ∈ orderWords

/-- A line that is written brings no line break along, and its side is the side
of an order. -/
def Json.Harmless (order : Json) : Prop :=
  forall side price qty, order.admits = some true ->
    order.spliced .side = some side -> order.spliced .price = some price ->
    order.spliced .qty = some qty ->
      ('\n' ∉ side ∧ '\n' ∉ price ∧ '\n' ∉ qty) ∧ (extractWord side).1 ∈ orderWords

/-- The tests of the handler, taken apart. -/
theorem Json.admits_eq_true {order : Json} (admitted : order.admits = some true) :
    (order.member Field.price.name).bind isPositive = some true ∧
      (order.member Field.qty.name).bind isPositive = some true := by
  rcases Option.bind_eq_some_iff.mp admitted with ⟨side, -, admitted⟩
  split at admitted
  · rcases Option.bind_eq_some_iff.mp admitted with ⟨positive, isPrice, admitted⟩
    split at admitted
    · rename_i above
      rw [above] at isPrice
      exact ⟨isPrice, admitted⟩
    · cases admitted
  · cases admitted

/-- What follows a blank is no command as long as a word stands before it. -/
theorem orderWord_append_iff {front back : Text} (noCommand : (extractWord back).1 ∉ orderWords) :
    (extractWord (front ++ ' ' :: back)).1 ∈ orderWords <-> (extractWord front).1 ∈ orderWords := by
  rw [extractWord_append]
  split
  · rename_i blank
    rw [blank]
    exact ⟨fun command => absurd command noCommand, fun command => absurd command (by decide)⟩
  · exact Iff.rfl

/-- What an admitted event writes. -/
theorem Json.written_of_admitted {order : Json} {side price qty : Text}
    (admitted : order.admits = some true) (isSide : order.spliced .side = some side)
    (isPrice : order.spliced .price = some price) (isQty : order.spliced .qty = some qty) :
    order.written = (side ++ ' ' :: (price ++ ' ' :: qty)) ++ ['\n'] := by
  rw [written, submitOrder, admitted, Option.bind_some, if_pos rfl, orderLine, isSide, isPrice, isQty]
  rfl

theorem Json.written_cases (order : Json) :
    order.written = [] ∨ Exists fun side => Exists fun price => Exists fun qty =>
      order.admits = some true ∧ order.spliced .side = some side ∧
        order.spliced .price = some price ∧ order.spliced .qty = some qty := by
  rw [written, submitOrder]
  cases admitted : order.admits with
  | none => exact .inl rfl
  | some passed =>
      cases passed with
      | false => exact .inl rfl
      | true =>
          rw [Option.bind_some, if_pos rfl]
          cases line : order.orderLine with
          | none => exact .inl rfl
          | some text =>
              rcases Option.bind_eq_some_iff.mp line with ⟨side, isSide, line⟩
              rcases Option.bind_eq_some_iff.mp line with ⟨price, isPrice, line⟩
              rcases Option.map_eq_some_iff.mp line with ⟨qty, isQty, -⟩
              exact .inr ⟨side, price, qty, rfl, isSide, isPrice, isQty⟩

/-- An event is at most one order exactly if it is harmless.  The middleware tests
only that the side is truthy and the numbers positive, so what is asked of the
three texts it splices is asked of nothing in the source. -/
theorem Json.oneOrder_iff (order : Json) : OneOrder order.written <-> order.Harmless := by
  have command {side price qty : Text} (admitted : order.admits = some true)
      (isPrice : order.spliced .price = some price) (isQty : order.spliced .qty = some qty) :
      (extractWord (side ++ ' ' :: (price ++ ' ' :: qty))).1 ∈ orderWords <->
        (extractWord side).1 ∈ orderWords := by
    have positive := admits_eq_true admitted
    apply orderWord_append_iff
    rw [orderWord_append_iff (spliced_orderWord positive.2 isQty)]
    exact spliced_orderWord positive.1 isPrice
  have breaks (side price qty : Text) : '\n' ∉ side ++ ' ' :: (price ++ ' ' :: qty) <->
      '\n' ∉ side ∧ '\n' ∉ price ∧ '\n' ∉ qty := by
    simp [not_or]
  constructor
  · intro one side price qty admitted isSide isPrice isQty
    rw [written_of_admitted admitted isSide isPrice isQty] at one
    rcases one with nothing | ⟨line, same, single, word⟩
    · exact absurd nothing (List.append_ne_nil_of_right_ne_nil _ (List.cons_ne_nil _ _))
    · rw [← List.append_cancel_right same] at single word
      exact ⟨(breaks side price qty).mp single, (command admitted isPrice isQty).mp word⟩
  · intro harmless
    rcases order.written_cases with nothing | ⟨side, price, qty, admitted, isSide, isPrice, isQty⟩
    · exact .inl nothing
    · rcases harmless side price qty admitted isSide isPrice isQty with ⟨single, word⟩
      rw [written_of_admitted admitted isSide isPrice isQty]
      exact .inr ⟨_, rfl, (breaks side price qty).mpr single,
        (command admitted isPrice isQty).mpr word⟩

/-- An event whose side brings another command along. -/
def clearingOrder : Json :=
  .object [("side".toList, .string "CLEAR\\nBUY".toList), ("price".toList, .number (.finite 1)),
    ("qty".toList, .number (.finite 1))]

theorem clearing_order_is_two_lines :
    clearingOrder.written = "CLEAR\nBUY 1 1\n".toList ∧ ¬ OneOrder clearingOrder.written := by
  have written : clearingOrder.written = "CLEAR\nBUY 1 1".toList ++ ['\n'] := by decide +kernel
  refine ⟨written, ?_⟩
  rw [written]
  rintro (nothing | ⟨line, same, single, -⟩)
  · cases nothing
  · rw [← List.append_cancel_right same] at single
    exact single (by decide)

end NexusHft
