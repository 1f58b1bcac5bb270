import NexusHft.Engine.BestExecution
import NexusHft.Engine.RegularBook
import NexusHft.Main.Exchange

namespace NexusHft

open Foundations

/-!
# What the process prints

The process refines an exchange, so whatever is printed in any of its runs can be
read from the answers of the exchange.  Every book that is displayed is a picture
of all that rests; every order that is taken gets the best execution there is;
the orders are numbered from the last `CLEAR` on, and as many of them are taken as
the pool has slots; and nothing from before a `CLEAR` is ever seen again.
-/

namespace Exchange

section Answers

variable {arithmetic : Arithmetic} {exchange : Exchange} {line : Text}

/-- The next exchange is the same, opened, or the one after an order that was taken. -/
theorem respond_cases (arithmetic : Arithmetic) (exchange : Exchange) (line : Text) :
    (exchange.respond arithmetic line).2 = exchange ∨
      (exchange.respond arithmetic line).2 = opened ∨
        Exists fun order => (exchange.respond arithmetic line).2 = exchange.filled order := by
  rw [respond]
  split
  · exact .inl rfl
  split
  · exact .inr (.inl rfl)
  · split
    · exact .inl rfl
    · rw [submit]
      split
      · exact .inr (.inr ⟨_, rfl⟩)
      · exact .inl rfl
  · exact .inl rfl
  · exact .inl rfl

/-- A book that is printed is the one of the exchange after the line. -/
theorem book_of_respond {latency : UInt64} {bids asks : List (Price × Quantity)}
    (printed : .book bids asks ∈ (exchange.respond arithmetic line).1 latency) :
    .book bids asks = (exchange.respond arithmetic line).2.shown := by
  have refused {refusal : Refusal} (member : .book bids asks ∈ [Printed.err refusal]) : False := by
    cases List.mem_singleton.mp member
  rw [respond] at printed ⊢
  split at printed
  · exact absurd printed List.not_mem_nil
  rename_i nonempty
  rw [if_neg nonempty]
  split at printed
  · rcases List.mem_cons.mp printed with isBook | isAck
    · exact isBook
    · cases List.mem_singleton.mp isAck
  · split at printed
    · exact (refused printed).elim
    · rename_i notRefused
      rw [if_neg notRefused]
      rw [submit] at printed ⊢
      split at printed
      · rename_i space
        rw [if_pos space]
        rcases List.mem_append.mp printed with isTrade | isLast
        · rcases List.mem_map.mp isTrade with ⟨trade, -, same⟩
          cases same
        · rcases List.mem_cons.mp isLast with isBook | isLatency
          · exact isBook
          · cases List.mem_singleton.mp isLatency
      · exact (refused printed).elim
  · exact (refused printed).elim
  · exact (refused printed).elim

/-- An order for a positive price and quantity is taken while there is room. -/
theorem respond_of_parsed {side : Side} {priceInput : Rat} {qtyInput : Int}
    (parsed : parseCommand arithmetic line = .order side priceInput qtyInput)
    (positive : 0 < priceInput ∧ 0 < qtyInput) (room : exchange.taken < poolCapacity) :
    exchange.respond arithmetic line =
      (exchange.report (exchange.numbered side (arithmetic.hundredths priceInput)
          (UInt64.ofInt qtyInput)),
        exchange.filled (exchange.numbered side (arithmetic.hundredths priceInput)
          (UInt64.ofInt qtyInput))) := by
  have nonempty : line ≠ [] := by
    intro empty
    rw [empty] at parsed
    cases parsed
  have accepted : ¬ (priceInput ≤ 0 ∨ qtyInput ≤ 0) :=
    not_or.mpr ⟨not_le.mpr positive.1, not_le.mpr positive.2⟩
  rw [respond, if_neg nonempty, parsed]
  dsimp only
  rw [if_neg accepted, submit, if_pos room]

theorem after_regular (arithmetic : Arithmetic) (lines : List Text) :
    ((machine arithmetic).after lines).book.Regular := by
  refine (machine arithmetic).after_invariant (fun exchange => exchange.book.Regular)
    PriorityBook.empty_regular ?_ lines
  intro exchange line regular
  change (exchange.respond arithmetic line).2.book.Regular
  rcases respond_cases arithmetic exchange line with same | isOpened | ⟨order, isFilled⟩
  · rw [same]
    exact regular
  · rw [isOpened]
    exact PriorityBook.empty_regular
  · rw [isFilled]
    exact PriorityBook.process_regular regular order

/-- A regular book is shown by two snapshots whose best levels do not meet. -/
theorem shown_snapshots (regular : exchange.book.Regular) {bids asks : List (Price × Quantity)}
    (shows : .book bids asks = exchange.shown) :
    Snapshot .Buy (exchange.book .Buy) bids ∧ Snapshot .Sell (exchange.book .Sell) asks ∧
      forall bid ask, bid ∈ bids -> ask ∈ asks -> bid.1 < ask.1 := by
  rcases Printed.book.inj shows with ⟨isBids, isAsks⟩
  have buys : Snapshot .Buy (exchange.book .Buy) bids :=
    isBids ▸ priceLevels_snapshot (regular.sorted .Buy)
  have sells : Snapshot .Sell (exchange.book .Sell) asks :=
    isAsks ▸ priceLevels_snapshot (regular.sorted .Sell)
  refine ⟨buys, sells, fun bid ask isBid isAsk => ?_⟩
  rcases buys.occupied bid isBid with ⟨buy, bought, buyPrice⟩
  rcases sells.occupied ask isAsk with ⟨sell, sold, sellPrice⟩
  rw [← buyPrice, ← sellPrice]
  exact regular.apart buy sell bought sold

end Answers
end Exchange

/-! ## Refinement -/

/-- What was printed is an answer, for the time that the line took. -/
def Handled.Gives (handled : Handled) (answer : UInt64 -> List Printed) : Prop :=
  Exists fun latency => handled.printed = answer latency

theorem loop_refines (arithmetic : Arithmetic) :
    Machine.Refines (commandLoop arithmetic) (Exchange.machine arithmetic) Handled.line
      Handled.Gives LoopState.Runs where
  starts := by
    rintro state ⟨heap, isFresh⟩
    rw [isFresh]
    exact LoopState.fresh_runs heap
  step := by
    rintro state exchange handled next runs ⟨-, -, budget, latency, executed⟩
    rcases runs.execute executed with ⟨printed, after⟩
    exact ⟨⟨latency, printed⟩, after⟩

theorem LoopState.Runs.shows {state : LoopState} {exchange : Exchange} (runs : state.Runs exchange) :
    state.engine.Shows exchange.book := by
  rcases runs.sound with ⟨layout, live, sound, same⟩
  exact ⟨layout, sound.represents, same⟩

/-- A run over given lines. -/
theorem exists_run (arithmetic : Arithmetic) (lines : List Text) :
    Exists fun past => Exists fun state => (commandLoop arithmetic).Run past state ∧
      past.map Handled.line = lines := by
  rcases lines_answered arithmetic Engine.blank.heap lines with ⟨past, state, run, same, -⟩
  exact ⟨past, state, run, same⟩

/-- Every sequence of lines is answered, and every run prints for its lines what the
exchange answers to them and ends with the book of the exchange. -/
theorem loop_is_exchange (arithmetic : Arithmetic) :
    (forall lines : List Text, Exists fun past => Exists fun state =>
      (commandLoop arithmetic).Run past state ∧ past.map Handled.line = lines) ∧
    forall past state, (commandLoop arithmetic).Run past state ->
      List.Forall₂ Handled.Gives past
          ((Exchange.machine arithmetic).answers (past.map Handled.line)) ∧
        state.engine.Shows ((Exchange.machine arithmetic).after (past.map Handled.line)).book := by
  constructor
  · exact exists_run arithmetic
  · intro past state run
    rcases (loop_refines arithmetic).run run with ⟨given, runs⟩
    exact ⟨given, runs.shows⟩

/-- A run over some lines and one more, which the exchange after the others answers. -/
theorem exists_run_last (arithmetic : Arithmetic) (lines : List Text) (line : Text) :
    Exists fun past => Exists fun handled : Handled =>
      (commandLoop arithmetic).Run (past ++ [handled]) handled.after ∧
        past.map Handled.line = lines ∧ handled.line = line ∧
        handled.before.Runs ((Exchange.machine arithmetic).after lines) ∧
        handled.Gives (((Exchange.machine arithmetic).after lines).respond arithmetic line).1 := by
  rcases exists_run arithmetic (lines ++ [line]) with ⟨all, state, run, same⟩
  rcases List.map_eq_append_iff.mp same with ⟨past, last, rfl, isLines, isLast⟩
  rcases List.map_eq_singleton_iff.mp isLast with ⟨handled, rfl, isLine⟩
  have whole := run
  rcases (loop_refines arithmetic).cut run with
    ⟨before, next, exchange, ⟨isBefore, isAfter, -⟩, isModel, runs, gives, -⟩
  rw [isLines] at isModel
  rw [isModel, ← isBefore] at runs
  rw [isModel, isLine] at gives
  rcases whole.last with ⟨-, -, -, isNext, -⟩
  refine ⟨past, handled, ?_, isLines, isLine, runs, gives⟩
  rw [isNext]
  exact whole

/-- An order that is offered and taken. -/
def pairLines : List Text := ["SELL 1 1".toList, "BUY 1 1".toList]

theorem pair_book : ((Exchange.machine .exact).after pairLines).book = fun _ => [] := by
  funext side
  cases side <;> decide +kernel

theorem loop_is_exchange_pair : Exists fun past => Exists fun state =>
    (commandLoop .exact).Run past state ∧ past.map Handled.line = pairLines ∧
      List.Forall₂ Handled.Gives past ((Exchange.machine .exact).answers pairLines) ∧
      state.engine.Shows fun _ => [] := by
  rcases (loop_is_exchange .exact).1 pairLines with ⟨past, state, run, same⟩
  have printed := (loop_is_exchange .exact).2 past state run
  rw [same, pair_book] at printed
  exact ⟨past, state, run, same, printed⟩

/-! ## Displayed books -/

section Runs

variable {arithmetic : Arithmetic} {past : List Handled} {state : LoopState} {handled : Handled}

/-- Any line of a run is answered as by an exchange with a regular book. -/
theorem handled_by_exchange (run : (commandLoop arithmetic).Run past state)
    (member : handled ∈ past) : Exists fun exchange : Exchange =>
      exchange.book.Regular ∧ handled.before.Runs exchange ∧
      handled.Gives (exchange.respond arithmetic handled.line).1 ∧
      handled.after.Runs (exchange.respond arithmetic handled.line).2 ∧
      (exchange.respond arithmetic handled.line).2.book.Regular := by
  rcases List.append_of_mem member with ⟨early, late, split⟩
  rw [split] at run
  rcases (loop_refines arithmetic).cut run with
    ⟨before, next, exchange, ⟨isBefore, isAfter, -⟩, isModel, runs, gives, runsNext⟩
  have regularNext := Exchange.after_regular arithmetic (early.map Handled.line ++ [handled.line])
  rw [Machine.after_concat, ← isModel] at regularNext
  refine ⟨exchange, ?_, isBefore ▸ runs, gives, isAfter ▸ runsNext, regularNext⟩
  rw [isModel]
  exact Exchange.after_regular arithmetic _

/-- What a book that is displayed says about all that rests: the best levels of each
side with all that rests at them, and the best bid below the best ask. -/
def Pictures (engine : Engine) (bids asks : List (Price × Quantity)) : Prop :=
  Exists fun book => engine.Shows book ∧ Snapshot .Buy (book .Buy) bids ∧
    Snapshot .Sell (book .Sell) asks ∧ forall bid ask, bid ∈ bids -> ask ∈ asks -> bid.1 < ask.1

theorem displayed_pictures (run : (commandLoop arithmetic).Run past state) (member : handled ∈ past)
    {bids asks : List (Price × Quantity)} (displayed : .book bids asks ∈ handled.printed) :
    Pictures handled.after.engine bids asks := by
  rcases handled_by_exchange run member with ⟨exchange, -, -, ⟨latency, gives⟩, runs, regular⟩
  rw [gives] at displayed
  exact ⟨_, runs.shows, Exchange.shown_snapshots regular (Exchange.book_of_respond displayed)⟩

/-- Every book that a run displays is a picture of all that rests then: ten levels
at most, best first, each with the sum of what rests at its price, and nothing
better left out. -/
theorem displayed_books (run : (commandLoop arithmetic).Run past state) :
    forall handled, handled ∈ past -> forall bids asks, .book bids asks ∈ handled.printed ->
      Pictures handled.after.engine bids asks :=
  fun _ member _ _ displayed => displayed_pictures run member displayed

/-- What a new exchange answers to the first of the two lines. -/
theorem first_answer (latency : UInt64) :
    (Exchange.opened.respond .exact "SELL 1 1".toList).1 latency =
      [.book [] [(100, 1)], .latency latency] := by
  have book : (Exchange.opened.filled (Exchange.opened.numbered .Sell 100 1)).shown =
      .book [] [(100, 1)] := by decide +kernel
  rw [Exchange.respond_of_parsed parse_sell (by decide +kernel) (by decide), hundredths_one,
    UInt64.ofInt_one]
  dsimp only
  rw [Exchange.report, book]
  rfl

theorem displayed_books_pair : Exists fun past => Exists fun state => Exists fun handled =>
    (commandLoop .exact).Run past state ∧ past.map Handled.line = pairLines ∧ handled ∈ past ∧
      Pictures handled.after.engine [] [(100, 1)] := by
  rcases exists_run .exact pairLines with ⟨past, state, run, same⟩
  have given := ((loop_refines .exact).run run).1
  rw [same] at given
  rcases List.forall₂_cons_right_iff.mp given with ⟨first, rest, ⟨latency, gives⟩, -, isPast⟩
  have listed : first ∈ past := isPast ▸ List.mem_cons_self
  have displayed : .book [] [(100, 1)] ∈ first.printed := by
    rw [gives]
    exact first_answer latency ▸ List.mem_cons_self
  exact ⟨past, state, first, run, same, listed, displayed_books run first listed _ _ displayed⟩

/-! ## Orders that are taken -/

theorem MemoryPool.Partitioned.available {pool : MemoryPool} {free live : List Nat}
    (partitioned : pool.Partitioned free live) : pool.freelistHead ≠ none <-> free ≠ [] := by
  have linked := partitioned.linked
  cases free with
  | nil => exact iff_of_false (fun some => some linked) (fun some => some rfl)
  | cons slot rest =>
      rw [linked.1]
      exact iff_of_true (Option.some_ne_none slot) (List.cons_ne_nil slot rest)

/-- The loop accepts an order exactly if the exchange has room for it. -/
theorem LoopState.Runs.available {exchange : Exchange} (runs : state.Runs exchange) :
    state.pool.freelistHead ≠ none <-> exchange.taken < poolCapacity := by
  rcases runs.sound with ⟨layout, live, sound, -⟩
  rw [sound.partitioned.available, ne_eq, List.drop_eq_nil_iff, List.length_range, not_le]

/-- An accepted order is processed on a regular book, of which the levels were displayed;
its trades are printed in the order in which they were made, before the book and the
latency. -/
theorem accepted_answer (run : (commandLoop arithmetic).Run past state)
    (member : handled ∈ past) {order : LimitOrder}
    (isAccepted : handled.before.accepted arithmetic handled.line = some order) :
    Exists fun exchange : Exchange => Exists fun latency =>
      exchange.book.Regular ∧ handled.before.Runs exchange ∧
      handled.printed =
        (exchange.book.process { order with node := exchange.taken }).1.map
            (fun trade => .trade trade.price trade.qty) ++
          [printBook handled.after.engine.book, .latency latency] := by
  rcases handled_by_exchange run member with
    ⟨exchange, regular, runs, ⟨latency, gives⟩, runsNext, -⟩
  rcases LoopState.accepted_iff.mp isAccepted with
    ⟨priceInput, qtyInput, isCommand, ⟨price, qty⟩, available, isOrder⟩
  have isTaken : exchange.numbered order.side (arithmetic.hundredths priceInput)
      (UInt64.ofInt qtyInput) = { order with node := exchange.taken } := by
    rw [isOrder, runs.numbers]
    rfl
  rw [Exchange.respond_of_parsed isCommand ⟨price, qty⟩ (runs.available.mp available),
    isTaken] at gives runsNext
  refine ⟨exchange, latency, regular, runs, ?_⟩
  rcases runsNext.sound with ⟨layout, live, sound, same⟩
  rw [LoopState.printBook_eq sound.represents same]
  exact gives

/-- Every accepted order of a run is executed as well as it can be, and the trades are
printed in the order in which they were made, before the book and the latency. -/
theorem orders_best_executed (run : (commandLoop arithmetic).Run past state)
    (member : handled ∈ past) {order : LimitOrder}
    (isAccepted : handled.before.accepted arithmetic handled.line = some order) :
    Exists fun book => Exists fun trades => Exists fun latency =>
      handled.before.engine.Shows book ∧ book.BestExecution order trades ∧
      handled.printed = trades.map (fun trade => .trade trade.price trade.qty) ++
        [printBook handled.after.engine.book, .latency latency] := by
  rcases accepted_answer run member isAccepted with ⟨exchange, latency, regular, runs, printed⟩
  refine ⟨exchange.book, _, latency, runs.shows, ?_, printed⟩
  exact PriorityBook.process_bestExecution { order with node := exchange.taken }
    (regular.sorted order.side.opposite)

/-- A bid of six fills an ask of five and cuts one of three behind it. -/
theorem orders_best_executed_cut : Exists fun past => Exists fun handled => Exists fun order =>
    Exists fun book => Exists fun trades : List Trade =>
      (commandLoop .exact).Run (past ++ [handled]) handled.after ∧
        past.map Handled.line = ["SELL 1 5".toList, "SELL 1 3".toList] ∧
        handled.line = "BUY 1 6".toList ∧
        handled.before.accepted .exact handled.line = some order ∧
        handled.before.engine.Shows book ∧ book.BestExecution order trades ∧
        trades.map (fun trade => Printed.trade trade.price trade.qty) =
          [.trade 100 5, .trade 100 1] := by
  rcases exists_run_last .exact ["SELL 1 5".toList, "SELL 1 3".toList] "BUY 1 6".toList with
    ⟨past, handled, run, isLines, isLine, runs, latency, gives⟩
  have parsed : parseCommand .exact "BUY 1 6".toList = .order .Buy 1 6 := by decide +kernel
  have room : ((Exchange.machine .exact).after ["SELL 1 5".toList, "SELL 1 3".toList]).taken <
      poolCapacity := by decide +kernel
  have isAccepted := (@LoopState.accepted_iff .exact handled.before handled.line
    ⟨_, _, _, .Buy⟩).mpr ⟨1, 6, isLine ▸ parsed, by decide +kernel, runs.available.mpr room, rfl⟩
  rcases orders_best_executed run (List.mem_append_right past List.mem_cons_self) isAccepted with
    ⟨book, trades, latency', shows, best, printed⟩
  refine ⟨past, handled, _, book, trades, run, isLines, isLine, isAccepted, shows, best, ?_⟩
  have traded : (((Exchange.machine .exact).after ["SELL 1 5".toList, "SELL 1 3".toList]).book.process
      (((Exchange.machine .exact).after ["SELL 1 5".toList, "SELL 1 3".toList]).numbered .Buy
        (Arithmetic.exact.hundredths 1) (UInt64.ofInt 6))).1 =
      [⟨1, 3, 100, 5⟩, ⟨2, 3, 100, 1⟩] := by decide +kernel
  rw [gives, Exchange.respond_of_parsed parsed (by decide +kernel) room] at printed
  simp only [Exchange.report, traded] at printed
  exact (List.append_inj' printed rfl).1.symm

/-- The line is an order for a positive price and quantity. -/
def isOrderLine (arithmetic : Arithmetic) (line : Text) : Bool :=
  match parseCommand arithmetic line with
  | .order _ priceInput qtyInput => decide (0 < priceInput ∧ 0 < qtyInput)
  | _ => false

/-- How many such lines there were since the last line that cleared the book. -/
def ordersSinceClear (arithmetic : Arithmetic) (lines : List Text) : Nat :=
  (lines.reverse.takeWhile fun line => !decide (parseCommand arithmetic line = .clear)).countP
    (isOrderLine arithmetic)

theorem ordersSinceClear_concat (arithmetic : Arithmetic) (lines : List Text) (line : Text) :
    ordersSinceClear arithmetic (lines ++ [line]) =
      if parseCommand arithmetic line = .clear then 0
      else ordersSinceClear arithmetic lines + if isOrderLine arithmetic line then 1 else 0 := by
  rw [ordersSinceClear, List.reverse_append, List.reverse_singleton, List.singleton_append,
    List.takeWhile_cons]
  by_cases isClear : parseCommand arithmetic line = .clear
  · simp [isClear]
  · simp only [isClear, decide_false, Bool.not_false, if_true, if_false, List.countP_cons]
    rfl

/-- The exchange takes them until it is full.  What is counted is the lines alone,
so the ids of all orders can be read off the input. -/
theorem Exchange.taken_eq (arithmetic : Arithmetic) (lines : List Text) :
    ((machine arithmetic).after lines).taken =
      min (ordersSinceClear arithmetic lines) poolCapacity := by
  induction lines using List.reverseRecOn with
  | nil => rfl
  | append_singleton lines line inductionHypothesis =>
      rw [Machine.after_concat, ordersSinceClear_concat]
      change (((machine arithmetic).after lines).respond arithmetic line).2.taken = _
      rw [respond]
      cases isCommand : parseCommand arithmetic line with
      | clear =>
          rw [if_neg (by rintro rfl; cases isCommand), if_pos rfl]
          rfl
      | malformed =>
          have noOrder : isOrderLine arithmetic line = false := by rw [isOrderLine, isCommand]
          rw [noOrder, if_neg (show Command.malformed ≠ .clear from Command.noConfusion)]
          split <;> exact inductionHypothesis
      | unknown command =>
          have noOrder : isOrderLine arithmetic line = false := by rw [isOrderLine, isCommand]
          rw [noOrder, if_neg (show Command.unknown command ≠ .clear from Command.noConfusion)]
          split <;> exact inductionHypothesis
      | order side priceInput qtyInput =>
          rw [if_neg (by rintro rfl; cases isCommand), if_neg Command.noConfusion]
          have orderLine : isOrderLine arithmetic line =
              decide (0 < priceInput ∧ 0 < qtyInput) := by rw [isOrderLine, isCommand]
          rw [orderLine]
          dsimp only
          by_cases refused : priceInput ≤ 0 ∨ qtyInput ≤ 0
          · have noOrder : ¬ (0 < priceInput ∧ 0 < qtyInput) := by
              rw [← not_le, ← not_le, ← not_or, not_not]
              exact refused
            rw [if_pos refused, decide_eq_false noOrder]
            exact inductionHypothesis
          · have isOrder : 0 < priceInput ∧ 0 < qtyInput := by
              rw [← not_le, ← not_le, ← not_or]
              exact refused
            rw [if_neg refused, decide_eq_true isOrder, if_pos rfl, submit]
            split
            · change _ + 1 = _
              omega
            · dsimp only
              omega

/-- The orders since the last `CLEAR` are numbered from one on.  Those up to the number
of slots are handed over to the engine, and all later ones are refused and change
nothing. -/
theorem orders_numbered {next : LoopState} (run : (commandLoop arithmetic).Run (past ++ [handled]) next)
    {side : Side} {priceInput : Rat} {qtyInput : Int}
    (isCommand : parseCommand arithmetic handled.line = .order side priceInput qtyInput)
    (positive : 0 < priceInput ∧ 0 < qtyInput) :
    (ordersSinceClear arithmetic (past.map Handled.line) < poolCapacity ->
      Exists fun order => handled.before.accepted arithmetic handled.line = some order ∧
        order.id.toNat = ordersSinceClear arithmetic (past.map Handled.line) + 1 ∧
        .err .poolExhausted ∉ handled.printed) ∧
    (poolCapacity ≤ ordersSinceClear arithmetic (past.map Handled.line) ->
      handled.printed = [.err .poolExhausted] ∧ handled.after = handled.before) := by
  rcases run.last with ⟨before, earlier, isBefore, isAfter, budget, latency, executed⟩
  have runs := ((loop_refines arithmetic).run earlier).2
  have taken := Exchange.taken_eq arithmetic (past.map Handled.line)
  have nonempty : handled.line ≠ [] := by
    intro empty
    rw [empty] at isCommand
    cases isCommand
  rw [isBefore, isAfter]
  constructor
  · intro space
    have available := runs.available.mpr (taken ▸ lt_of_le_of_lt (Nat.min_le_left _ _) space)
    have isAccepted := (@LoopState.accepted_iff _ _ _ ⟨_, _, _, side⟩).mpr
      ⟨priceInput, qtyInput, isCommand, positive, available, rfl⟩
    refine ⟨_, isAccepted, ?_, ?_⟩
    · have number : before.nextId.toNat =
          (ordersSinceClear arithmetic (past.map Handled.line) + 1) % 2 ^ 64 := by
        rw [runs.numbers, UInt64.toNat_ofNat', taken, Nat.min_eq_left (Nat.le_of_lt space)]
      rw [Nat.mod_eq_of_lt (lt_of_le_of_lt space (by decide))] at number
      exact number
    · rcases LoopState.execute_cases nonempty executed with
        ⟨-, -, isPrinted⟩ | ⟨_, _, _, _, -, -, -, isPrinted, -⟩ | ⟨noOrder, -⟩
      · rw [isPrinted]
        simp [printBook]
      · rw [isPrinted]
        exact err_not_mem_printAnswer
      · cases noOrder.symm.trans isAccepted
  · intro full
    rcases runs.execute executed with ⟨isPrinted, -⟩
    have refused : ¬ (priceInput ≤ 0 ∨ qtyInput ≤ 0) :=
      not_or.mpr ⟨not_le.mpr positive.1, not_le.mpr positive.2⟩
    rw [Exchange.respond, if_neg nonempty, isCommand] at isPrinted
    dsimp only at isPrinted
    rw [if_neg refused, Exchange.submit, taken, Nat.min_eq_right full,
      if_neg (Nat.lt_irrefl poolCapacity)] at isPrinted
    dsimp only at isPrinted
    refine ⟨isPrinted, ?_⟩
    rcases LoopState.execute_cases nonempty executed with
      ⟨isClear, -⟩ | ⟨_, _, _, _, -, -, -, isAnswer, -⟩ | ⟨-, -, -, same⟩
    · cases isCommand.symm.trans isClear
    · rw [isPrinted] at isAnswer
      exact absurd (isAnswer ▸ List.mem_singleton_self _) err_not_mem_printAnswer
    · exact same

theorem orders_numbered_second : Exists fun past => Exists fun handled => Exists fun order =>
    (commandLoop .exact).Run (past ++ [handled]) handled.after ∧
      (past ++ [handled]).map Handled.line = pairLines ∧
      handled.before.accepted .exact handled.line = some order ∧ order.id.toNat = 2 := by
  rcases exists_run .exact ["SELL 1 1".toList] with ⟨past, state, run, same⟩
  rcases (loop_refines .exact).run run with ⟨-, ⟨layout, live, sound, -⟩, -, -⟩
  rcases sound.line run "BUY 1 1".toList with ⟨printed, next, longer, -⟩
  have count : ordersSinceClear .exact (past.map Handled.line) = 1 := by
    rw [same]
    decide +kernel
  rcases (orders_numbered longer parse_buy (by decide +kernel)).1 (by rw [count]; decide) with
    ⟨order, isAccepted, number, -⟩
  rw [count] at number
  refine ⟨past, _, order, longer, ?_, isAccepted, number⟩
  rw [List.map_append, same]
  rfl

/-! ## Clearing the book -/

/-- A printed line without the time that it tells. -/
def Printed.untimed : Printed -> Printed
  | latency _ => latency 0
  | printed => printed

/-- An answer depends on the time only where it tells it. -/
theorem Exchange.respond_untimed (exchange : Exchange) (line : Text) (latency : UInt64) :
    ((exchange.respond arithmetic line).1 latency).map Printed.untimed =
      ((exchange.respond arithmetic line).1 0).map Printed.untimed := by
  rw [respond]
  split
  · rfl
  split
  · rfl
  · split
    · rfl
    · rw [submit]
      split
      · simp [report, Printed.untimed]
      · rfl
  · rfl
  · rfl

/-- Two runs whose lines were answered by the same exchange print the same, but for the times. -/
theorem Exchange.same_printed {front back : List Handled} {lines : List Text} (model : Exchange)
    (given : List.Forall₂ Handled.Gives front ((machine arithmetic).run model lines).1)
    (given' : List.Forall₂ Handled.Gives back ((machine arithmetic).run model lines).1) :
    front.map (fun handled => handled.printed.map Printed.untimed) =
      back.map fun handled => handled.printed.map Printed.untimed := by
  induction lines generalizing model front back with
  | nil =>
      cases given
      cases given'
      rfl
  | cons line lines inductionHypothesis =>
      rcases List.forall₂_cons_right_iff.mp given with ⟨first, rest, ⟨latency, gives⟩, later, same⟩
      rcases List.forall₂_cons_right_iff.mp given' with
        ⟨first', rest', ⟨latency', gives'⟩, later', same'⟩
      rw [same, same', List.map_cons, List.map_cons, inductionHypothesis _ later later', gives, gives']
      have here := @respond_untimed arithmetic model line latency
      rw [← respond_untimed model line latency'] at here
      exact congrArg (fun printed => printed :: _) here

/-- Whatever came before a `CLEAR`, the process goes on as a new one: for the lines that
follow it prints what any new process prints for them, the measured times aside, and
ends with the same book. -/
theorem clear_forgets {early late : List Handled}
    (run : (commandLoop arithmetic).Run (early ++ handled :: late) state)
    (isClear : parseCommand arithmetic handled.line = .clear) {state' : LoopState}
    (run' : (commandLoop arithmetic).Run past state')
    (sameLines : past.map Handled.line = late.map Handled.line) :
    late.map (fun handled => handled.printed.map Printed.untimed) =
        past.map (fun handled => handled.printed.map Printed.untimed) ∧
      Exists fun book => state.engine.Shows book ∧ state'.engine.Shows book := by
  have resets : forall model : Exchange,
      ((Exchange.machine arithmetic).respond model handled.line).2 =
        (Exchange.machine arithmetic).initial := by
    intro model
    change (model.respond arithmetic handled.line).2 = Exchange.opened
    rw [Exchange.respond, if_neg (by intro empty; rw [empty] at isClear; cases isClear), isClear]
  have since := (loop_refines arithmetic).since_reset resets run
  have fromStart := (loop_refines arithmetic).run run'
  rw [sameLines] at fromStart
  exact ⟨Exchange.same_printed _ since.1 fromStart.1, _, since.2.shows, fromStart.2.shows⟩

theorem parse_clear_now : parseCommand .exact "CLEAR now".toList = .clear := by decide

theorem clear_forgets_offer : Exists fun early => Exists fun handled => Exists fun late =>
    Exists fun state => Exists fun past => Exists fun state' =>
      (commandLoop .exact).Run (early ++ handled :: late) state ∧
      (commandLoop .exact).Run past state' ∧
      (early ++ handled :: late).map Handled.line =
        ["SELL 1 1".toList, "CLEAR now".toList, "BUY 1 1".toList] ∧
      late.map (fun handled => handled.printed.map Printed.untimed) =
        past.map (fun handled => handled.printed.map Printed.untimed) ∧
      Exists fun book => state.engine.Shows book ∧ state'.engine.Shows book := by
  rcases exists_run .exact ["SELL 1 1".toList, "CLEAR now".toList, "BUY 1 1".toList] with
    ⟨all, state, run, same⟩
  rcases exists_run .exact ["BUY 1 1".toList] with ⟨past, state', run', same'⟩
  rcases List.map_eq_cons_iff.mp same with ⟨first, others, isAll, -, sameOthers⟩
  rcases List.map_eq_cons_iff.mp sameOthers with ⟨second, late, isOthers, isClear, sameLate⟩
  rw [isAll, isOthers] at run same
  have forgotten := @clear_forgets _ _ _ _ [first] late run (isClear ▸ parse_clear_now) _ run'
    (same'.trans sameLate.symm)
  exact ⟨[first], second, late, state, past, state', run, run', same, forgotten⟩

end Runs
end NexusHft
