import NexusHft.Engine.Quotes
import NexusHft.Main.ExchangeRuns

namespace NexusHft

open Foundations

/-!
# Displaying orders that do not trade

The display shows how much rests at each price and not who came first.  So orders of
which none meets another one are displayed alike in whatever order they have arrived,
also at one and the same price.
-/

/-! ## Equal depths -/

section Depths

variable {side : Side} {orders others : List RestingOrder} {price : Price}

theorem depthAt_append (orders others : List RestingOrder) (price : Price) :
    depthAt (orders ++ others) price = depthAt orders price + depthAt others price := by
  rw [depthAt, ordersAt_items, itemsAt_append, List.map_append, List.sum_append]
  rfl

/-- Something rests at a price if what rests there is not nothing. -/
theorem depthAt_pos (positive : forall order, order ∈ orders -> order.qty > 0) :
    0 < depthAt orders price <-> Exists fun order => order ∈ orders ∧ order.price = price := by
  constructor
  · intro deep
    have nonempty : ordersAt orders price ≠ [] := by
      intro empty
      rw [depthAt, empty] at deep
      exact absurd deep (by decide)
    rcases List.exists_mem_of_ne_nil _ nonempty with ⟨order, member⟩
    exact ⟨order, mem_itemsAt.mp member⟩
  · rintro ⟨order, member, same⟩
    have found : order ∈ ordersAt orders price := mem_itemsAt.mpr ⟨member, same⟩
    have some : 0 < order.qty.toNat := UInt64.lt_iff_toNat_lt.mp (positive order member)
    exact lt_of_lt_of_le some
      (List.le_sum_of_mem (List.mem_map_of_mem (f := fun order : RestingOrder => order.qty.toNat) found))

/-- The levels of a side are determined by how much rests at each price. -/
theorem priceLevels_of_depths (sorted : BestFirst side orders) (sorted' : BestFirst side others)
    (positive : forall order, order ∈ orders -> order.qty > 0)
    (positive' : forall order, order ∈ others -> order.qty > 0)
    (same : forall price, depthAt orders price = depthAt others price) :
    priceLevels orders = priceLevels others := by
  have ordered := priceLevels_pairwise sorted
  have ordered' := priceLevels_pairwise sorted'
  have distinct (levels : List (Price × Quantity))
      (ordered : levels.Pairwise fun first second => side.precedes first.1 second.1) : levels.Nodup := by
    refine ordered.imp ?_
    rintro first second before rfl
    exact irrefl_of side.precedes first.1 before
  refine List.Perm.eq_of_pairwise ?_ ordered ordered'
    ((List.perm_ext_iff_of_nodup (distinct _ ordered) (distinct _ ordered')).mpr fun level => ?_)
  · intro first second _ _ before after
    exact absurd (trans_of side.precedes before after) (irrefl_of side.precedes first.1)
  · rw [mem_priceLevels, mem_priceLevels, ← depthAt_pos positive, ← depthAt_pos positive', same]

end Depths

/-! ## Lines that quote -/

/-- The side, the price and the quantity that a line is an order for. -/
def lineTerms (arithmetic : Arithmetic) (line : Text) : Option (Side × Price × Quantity) :=
  match parseCommand arithmetic line with
  | .order side priceInput qtyInput =>
      if 0 < priceInput ∧ 0 < qtyInput then
        some (side, arithmetic.hundredths priceInput, UInt64.ofInt qtyInput)
      else none
  | _ => none

def RestingOrder.terms (order : RestingOrder) : Side × Price × Quantity :=
  (order.side, order.price, order.qty)

def lineQuotes (arithmetic : Arithmetic) (lines : List Text) : List (Side × Price × Quantity) :=
  (lines.filterMap (lineTerms arithmetic)).filter fun terms => decide (terms.2.2 > 0)

/-- How much is quoted at a price. -/
def quotedDepth (terms : List (Side × Price × Quantity)) (side : Side) (price : Price) : Nat :=
  ((itemsAt (fun term => (term.1, term.2.1)) terms (side, price)).map
    fun term => term.2.2.toNat).sum

/-- No line clears the book, and every bid that rests or is submitted is below
every ask that rests or is submitted.  Such lines only quote, in whatever order
they come. -/
structure QuietLines (arithmetic : Arithmetic) (rests : Side -> Price -> Prop) (lines : List Text) :
    Prop where
  goesOn : forall line, line ∈ lines -> parseCommand arithmetic line ≠ .clear
  apart : forall bid ask,
    (rests .Buy bid ∨ Exists fun line => line ∈ lines ∧
      Exists fun qty => lineTerms arithmetic line = some (.Buy, bid, qty)) ->
    (rests .Sell ask ∨ Exists fun line => line ∈ lines ∧
      Exists fun qty => lineTerms arithmetic line = some (.Sell, ask, qty)) -> bid < ask

section Lines

variable {arithmetic : Arithmetic} {line : Text} {lines others : List Text}
  {rests : Side -> Price -> Prop}

theorem QuietLines.of_subset (quiet : QuietLines arithmetic rests lines) (fewer : others ⊆ lines) :
    QuietLines arithmetic rests others where
  goesOn line member := quiet.goesOn line (fewer member)
  apart bid ask offered offered' := by
    refine quiet.apart bid ask ?_ ?_
    · exact offered.imp_right fun ⟨line, member, isTerms⟩ => ⟨line, fewer member, isTerms⟩
    · exact offered'.imp_right fun ⟨line, member, isTerms⟩ => ⟨line, fewer member, isTerms⟩

theorem isOrderLine_iff : isOrderLine arithmetic line = true <-> lineTerms arithmetic line ≠ none := by
  rw [isOrderLine, lineTerms]
  cases parseCommand arithmetic line with
  | order side priceInput qtyInput =>
      by_cases positive : 0 < priceInput ∧ 0 < qtyInput
      · simp [positive]
      · simp [positive]
  | clear => simp
  | malformed => simp
  | unknown command => simp

theorem lineQuotes_append (lines others : List Text) : lineQuotes arithmetic (lines ++ others) =
    lineQuotes arithmetic lines ++ lineQuotes arithmetic others := by
  rw [lineQuotes, List.filterMap_append, List.filter_append]
  rfl

theorem lineQuotes_perm (alike : lines.Perm others) :
    (lineQuotes arithmetic lines).Perm (lineQuotes arithmetic others) :=
  (alike.filterMap _).filter _

theorem mem_lineQuotes {terms : Side × Price × Quantity} (member : terms ∈ lineQuotes arithmetic lines) :
    Exists fun line => line ∈ lines ∧ lineTerms arithmetic line = some terms :=
  List.mem_filterMap.mp (List.mem_of_mem_filter member)

theorem quotedDepth_perm {terms terms' : List (Side × Price × Quantity)} (alike : terms.Perm terms')
    (side : Side) (price : Price) : quotedDepth terms side price = quotedDepth terms' side price :=
  ((alike.filter _).map _).sum_eq

/-- What quotes add to the depth at a price. -/
theorem depthAt_quotesAt (requests : List Request) (side : Side) (price : Price) :
    depthAt (quotesAt requests side price) price =
      quotedDepth ((quotes requests).map RestingOrder.terms) side price := by
  have all : ordersAt (quotesAt requests side price) price = quotesAt requests side price :=
    List.filter_eq_self.mpr fun order member => decide_eq_true (mem_quotesAt.mp member).2.2
  rw [depthAt, all, quotedDepth, itemsAt, List.filter_map, List.map_map]
  rfl

/-- The orders of a side that rests after quotes. -/
theorem PriorityBook.Quoted.depth {before book : PriorityBook} {requests : List Request}
    (quoted : PriorityBook.Quoted before book requests) (side : Side) (price : Price) :
    depthAt (book side) price = depthAt (before side) price +
      quotedDepth ((quotes requests).map RestingOrder.terms) side price := by
  have whole (orders : List RestingOrder) :
      depthAt (ordersAt orders price) price = depthAt orders price := by
    have same : ordersAt (ordersAt orders price) price = ordersAt orders price :=
      List.filter_eq_self.mpr fun order member => decide_eq_true (mem_itemsAt.mp member).2
    rw [depthAt, same, depthAt]
  rw [← whole (book side), quoted.orders, depthAt_append, whole, depthAt_quotesAt]

end Lines

/-! ## Quotes on the exchange -/

namespace Exchange

section Quotes

variable {arithmetic : Arithmetic} {line : Text} {lines early : List Text} {exchange : Exchange}
  {before : PriorityBook} {requests : List Request}

/-- A price at which an order rests. -/
def Rests (book : PriorityBook) (side : Side) (price : Price) : Prop :=
  Exists fun order => order ∈ book side ∧ order.price = price

/-- Nothing is traded, whatever time it takes. -/
def Silent (answer : UInt64 -> List Printed) : Prop :=
  forall latency price qty, .trade price qty ∉ answer latency

/-- A line that is no order, and does not clear the book, changes nothing: it is
empty, or is answered by one message. -/
theorem respond_none (exchange : Exchange) (none : lineTerms arithmetic line = none)
    (goesOn : parseCommand arithmetic line ≠ .clear) :
    Silent (exchange.respond arithmetic line).1 ∧ (exchange.respond arithmetic line).2 = exchange := by
  have quiet (printed : List Printed) (few : printed = [] ∨ Exists fun refusal => printed = [.err refusal])
      (price : Price) (qty : Quantity) : .trade price qty ∉ printed := by
    rcases few with nothing | ⟨refusal, one⟩
    · rw [nothing]
      exact List.not_mem_nil
    · rw [one]
      simp
  rw [lineTerms] at none
  rw [respond]
  split
  · exact ⟨fun _ => quiet _ (.inl rfl), rfl⟩
  · cases isCommand : parseCommand arithmetic line with
    | clear => exact absurd isCommand goesOn
    | malformed => exact ⟨fun _ => quiet _ (.inr ⟨_, rfl⟩), rfl⟩
    | unknown command => exact ⟨fun _ => quiet _ (.inr ⟨_, rfl⟩), rfl⟩
    | order side priceInput qtyInput =>
        rw [isCommand] at none
        dsimp only at none ⊢
        by_cases positive : 0 < priceInput ∧ 0 < qtyInput
        · rw [if_pos positive] at none
          cases none
        · rw [if_pos (by
            rcases not_and_or.mp positive with first | second
            · exact .inl (not_lt.mp first)
            · exact .inr (not_lt.mp second))]
          exact ⟨fun _ => quiet _ (.inr ⟨_, rfl⟩), rfl⟩

/-- A line that is an order is taken while there is room. -/
theorem respond_terms {side : Side} {price : Price} {qty : Quantity}
    (isTerms : lineTerms arithmetic line = some (side, price, qty)) (room : exchange.taken < poolCapacity) :
    exchange.respond arithmetic line = (exchange.report (exchange.numbered side price qty),
      exchange.filled (exchange.numbered side price qty)) := by
  rw [lineTerms] at isTerms
  cases isCommand : parseCommand arithmetic line with
  | clear =>
      rw [isCommand] at isTerms
      cases isTerms
  | malformed =>
      rw [isCommand] at isTerms
      cases isTerms
  | unknown command =>
      rw [isCommand] at isTerms
      cases isTerms
  | order side' priceInput qtyInput =>
      have nonempty : line ≠ [] := by
        intro empty
        rw [empty] at isCommand
        cases isCommand
      rw [isCommand] at isTerms
      dsimp only at isTerms
      by_cases positive : 0 < priceInput ∧ 0 < qtyInput
      · rw [if_pos positive] at isTerms
        rcases Prod.mk.inj (Option.some.inj isTerms) with ⟨isSide, rest⟩
        rcases Prod.mk.inj rest with ⟨isPrice, isQty⟩
        rw [respond, if_neg nonempty, isCommand]
        dsimp only
        rw [if_neg (not_or.mpr ⟨not_le.mpr positive.1, not_le.mpr positive.2⟩), submit, if_pos room,
          isSide, isPrice, isQty]
      · rw [if_neg positive] at isTerms
        cases isTerms

/-- The last of quiet lines meets nobody. -/
theorem refused_of_quiet {book : PriorityBook} (quoted : PriorityBook.Quoted before book requests)
    (terms : (quotes requests).map RestingOrder.terms = lineQuotes arithmetic lines)
    (quiet : QuietLines arithmetic (Rests before) (lines ++ [line])) {order : RestingOrder}
    (isTerms : lineTerms arithmetic line = some order.terms) :
    forall maker, maker ∈ book order.side.opposite -> order.accepts maker.price ≠ true := by
  intro maker member accepted
  have offered : Rests before order.side.opposite maker.price ∨
      Exists fun other => other ∈ lines ++ [line] ∧ Exists fun qty =>
        lineTerms arithmetic other = some (order.side.opposite, maker.price, qty) := by
    rcases quoted.mem member with earlier | ⟨quote, facing⟩
    · exact Or.inl ⟨maker, earlier, rfl⟩
    · have listed : maker.terms ∈ (quotes requests).map RestingOrder.terms := List.mem_map_of_mem quote
      rw [terms] at listed
      rcases mem_lineQuotes listed with ⟨other, isLine, isMaker⟩
      refine Or.inr ⟨other, List.mem_append_left _ isLine, maker.qty, ?_⟩
      rw [← facing]
      exact isMaker
  have own : Exists fun other => other ∈ lines ++ [line] ∧ Exists fun qty =>
      lineTerms arithmetic other = some (order.side, order.price, qty) :=
    ⟨line, List.mem_append_right _ List.mem_cons_self, order.qty, isTerms⟩
  have meets := (LimitOrder.accepts_iff _ _).mp accepted
  cases side : order.side with
  | Buy =>
      rw [side] at offered own meets
      exact meets (quiet.apart order.price maker.price (.inr own) offered)
  | Sell =>
      rw [side] at offered own meets
      exact meets (quiet.apart maker.price order.price offered (.inr own))

/-- A quiet order comes to rest. -/
theorem respond_quote (quoted : PriorityBook.Quoted before exchange.book requests)
    (terms : (quotes requests).map RestingOrder.terms = lineQuotes arithmetic lines)
    (quiet : QuietLines arithmetic (Rests before) (lines ++ [line]))
    {side : Side} {price : Price} {qty : Quantity}
    (isTerms : lineTerms arithmetic line = some (side, price, qty)) (room : exchange.taken < poolCapacity) :
    Silent (exchange.respond arithmetic line).1 ∧ Exists fun requests =>
      PriorityBook.Quoted before (exchange.respond arithmetic line).2.book requests ∧
      (quotes requests).map RestingOrder.terms = lineQuotes arithmetic (lines ++ [line]) := by
  have refused := @refused_of_quiet _ _ _ _ _ _ quoted terms quiet (exchange.numbered side price qty) isTerms
  rcases quoted.submit exchange.taken (exchange.numbered side price qty).toLimitOrder fun _ => refused with
    ⟨none, rests⟩
  have noTrade : (exchange.book.process (exchange.numbered side price qty)).1 = [] := none
  rw [respond_terms isTerms room]
  refine ⟨?_, _, rests, ?_⟩
  · intro latency price' qty'
    dsimp only
    rw [report, noTrade]
    simp [shown]
  · rw [quotes_append, List.map_append, terms, lineQuotes_append]
    refine congrArg (lineQuotes arithmetic lines ++ ·) ?_
    rw [lineQuotes, List.filterMap_cons_some isTerms, List.filterMap_nil]
    by_cases positive : qty > 0
    · have one := quotes_submit exchange.taken (exchange.numbered side price qty).toLimitOrder positive
      have kept : [(side, price, qty)].filter (fun terms => decide (terms.2.2 > 0)) =
          [(side, price, qty)] := List.filter_cons_of_pos (decide_eq_true positive)
      rw [one, kept]
      rfl
    · have nothing := quotes_submit_empty exchange.taken (exchange.numbered side price qty).toLimitOrder
        positive
      have dropped : [(side, price, qty)].filter (fun terms => decide (terms.2.2 > 0)) = [] :=
        List.filter_cons_of_neg (by simpa using positive)
      rw [nothing, dropped]
      rfl

/-- What quiet lines do to an exchange: they come to rest, and nothing is traded.
The condition is about prices only, so it does not matter in which order they
come. -/
theorem quoted_lines (quiet : QuietLines arithmetic (Rests ((machine arithmetic).after early).book) lines)
    (room : ordersSinceClear arithmetic (early ++ lines) ≤ poolCapacity) :
    (forall front line back, lines = front ++ line :: back ->
      Silent (((machine arithmetic).after (early ++ front)).respond arithmetic line).1) ∧
    Exists fun requests => PriorityBook.Quoted ((machine arithmetic).after early).book
        ((machine arithmetic).after (early ++ lines)).book requests ∧
      (quotes requests).map RestingOrder.terms = lineQuotes arithmetic lines := by
  induction lines using List.reverseRecOn with
  | nil =>
      refine ⟨fun front line back split => absurd split (by simp), [], ?_, rfl⟩
      rw [List.append_nil]
      exact .start (after_regular arithmetic early).sorted
  | append_singleton lines line inductionHypothesis =>
      have goesOn := quiet.goesOn line (List.mem_append_right _ List.mem_cons_self)
      rw [← List.append_assoc, ordersSinceClear_concat, if_neg goesOn] at room
      rcases inductionHypothesis (quiet.of_subset (List.subset_append_left _ _))
        (le_trans (Nat.le_add_right _ _) room) with ⟨silent, requests, quoted, terms⟩
      have after : (machine arithmetic).after (early ++ (lines ++ [line])) =
          (((machine arithmetic).after (early ++ lines)).respond arithmetic line).2 := by
        rw [← List.append_assoc, Machine.after_concat]
        rfl
      have last : Silent (((machine arithmetic).after (early ++ lines)).respond arithmetic line).1 ∧
          Exists fun requests => PriorityBook.Quoted ((machine arithmetic).after early).book
            (((machine arithmetic).after (early ++ lines)).respond arithmetic line).2.book requests ∧
          (quotes requests).map RestingOrder.terms = lineQuotes arithmetic (lines ++ [line]) := by
        cases isTerms : lineTerms arithmetic line with
        | none =>
            rcases respond_none ((machine arithmetic).after (early ++ lines)) isTerms goesOn with
              ⟨isSilent, same⟩
            refine ⟨isSilent, requests, ?_, ?_⟩
            · rw [same]
              exact quoted
            · rw [lineQuotes_append, terms, lineQuotes, lineQuotes,
                List.filterMap_cons_none isTerms, List.filterMap_nil, List.filter_nil, List.append_nil]
        | some found =>
            have counts : isOrderLine arithmetic line = true :=
              isOrderLine_iff.mpr (isTerms ▸ Option.some_ne_none found)
            rw [counts, if_pos rfl] at room
            refine respond_quote quoted terms quiet isTerms ?_
            rw [taken_eq]
            exact lt_of_le_of_lt (Nat.min_le_left _ _) room
      rw [after]
      refine ⟨?_, last.2⟩
      intro front other back split
      rcases List.eq_nil_or_concat back with none | ⟨init, final, isBack⟩
      · rw [none] at split
        have parts := List.append_inj' split rfl
        rw [← parts.1, ← List.singleton_inj.mp parts.2]
        exact last.1
      · rw [isBack, List.concat_eq_append, ← List.cons_append, ← List.append_assoc] at split
        exact silent front other init (List.append_inj' split rfl).1

end Quotes
end Exchange

/-! ## Runs -/

section Runs

variable {arithmetic : Arithmetic} {past before late : List Handled} {start state : LoopState}

/-- A book has a level where an order of its exchange rests. -/
theorem LoopState.Runs.rests_iff {exchange : Exchange} (runs : state.Runs exchange) (side : Side)
    (price : Price) : Exchange.Rests exchange.book side price <->
      (state.engine.book.levels side).find price ≠ none := by
  rcases runs.sound with ⟨layout, live, sound, same⟩
  have levels := sound.represents.levels_eq side
  rw [same] at levels
  constructor
  · rintro ⟨order, member, isPrice⟩ absent
    have listed : (price, UInt64.ofNat (depthAt (exchange.book side) price)) ∈
        priceLevels (exchange.book side) := mem_priceLevels.mpr ⟨⟨order, member, isPrice⟩, rfl⟩
    rw [← levels] at listed
    rcases List.mem_map.mp listed with ⟨entry, inBook, isEntry⟩
    exact OrderedMap.find_eq_none.mp absent entry inBook (Prod.mk.inj isEntry).1
  · intro present
    cases found : (state.engine.book.levels side).find price with
    | none => exact absurd found present
    | some level =>
        have listed : (price, level.totalVolume) ∈ priceLevels (exchange.book side) := by
          rw [← levels]
          exact List.mem_map.mpr ⟨(price, level), OrderedMap.mem_entries_iff.mpr found, rfl⟩
        exact (mem_priceLevels.mp listed).1

theorem ordersSinceClear_append {early lines : List Text}
    (goesOn : forall line, line ∈ lines -> parseCommand arithmetic line ≠ .clear) :
    ordersSinceClear arithmetic (early ++ lines) =
      ordersSinceClear arithmetic early + lines.countP (isOrderLine arithmetic) := by
  induction lines using List.reverseRecOn with
  | nil => rw [List.append_nil, List.countP_nil, Nat.add_zero]
  | append_singleton lines line inductionHypothesis =>
      rw [← List.append_assoc, ordersSinceClear_concat,
        if_neg (goesOn line (List.mem_append_right _ List.mem_cons_self)),
        inductionHypothesis fun other member => goesOn other (List.mem_append_left _ member),
        List.countP_append, List.countP_singleton, Nat.add_assoc]

/-- Where quiet lines lead a run to, in terms of the exchange: the books differ by
the ids and by the order of arrival at each price, and by nothing else. -/
theorem quiet_run (run : (commandLoop arithmetic).Run before start)
    (ran : (commandLoop arithmetic).Run (before ++ late) state)
    (quiet : QuietLines arithmetic (fun side price =>
      (start.engine.book.levels side).find price ≠ none) (late.map Handled.line))
    (room : ordersSinceClear arithmetic ((before ++ late).map Handled.line) ≤ poolCapacity) :
    (forall handled, handled ∈ late -> forall price qty, .trade price qty ∉ handled.printed) ∧
    Exists fun requests => PriorityBook.Quoted
        ((Exchange.machine arithmetic).after (before.map Handled.line)).book
        ((Exchange.machine arithmetic).after ((before ++ late).map Handled.line)).book requests ∧
      (quotes requests).map RestingOrder.terms = lineQuotes arithmetic (late.map Handled.line) := by
  have runs := ((loop_refines arithmetic).run run).2
  have quiet' : QuietLines arithmetic (Exchange.Rests
      ((Exchange.machine arithmetic).after (before.map Handled.line)).book) (late.map Handled.line) := by
    refine ⟨quiet.goesOn, fun bid ask offered offered' => quiet.apart bid ask ?_ ?_⟩
    · exact offered.imp_left (runs.rests_iff .Buy bid).mp
    · exact offered'.imp_left (runs.rests_iff .Sell ask).mp
  rw [List.map_append] at room ⊢
  rcases Exchange.quoted_lines quiet' room with ⟨silent, quoted⟩
  refine ⟨?_, quoted⟩
  intro handled member price qty traded
  rcases List.append_of_mem member with ⟨front, back, split⟩
  rw [split, ← List.append_assoc] at ran
  rcases (loop_refines arithmetic).cut ran with
    ⟨middle, next, exchange, -, isModel, -, ⟨latency, printed⟩, -⟩
  rw [printed, isModel, List.map_append] at traded
  refine silent (front.map Handled.line) handled.line (back.map Handled.line) ?_ latency price qty traded
  rw [split, List.map_append, List.map_cons]

/-- Lines of which no order meets another one, or one that rests, trade nothing; and
however they are permuted, they still trade nothing, and the book ends with the same
levels, with as much at each of them. -/
theorem quotes_displayed_alike {late' : List Handled} {state' : LoopState}
    (run : (commandLoop arithmetic).Run before start)
    (ran : (commandLoop arithmetic).Run (before ++ late) state)
    (ran' : (commandLoop arithmetic).Run (before ++ late') state')
    (alike : (late.map Handled.line).Perm (late'.map Handled.line))
    (quiet : QuietLines arithmetic (fun side price =>
      (start.engine.book.levels side).find price ≠ none) (late.map Handled.line))
    (room : ordersSinceClear arithmetic ((before ++ late).map Handled.line) ≤ poolCapacity) :
    (forall handled, handled ∈ late ++ late' -> forall price qty,
      .trade price qty ∉ handled.printed) ∧
    (forall side, (state.engine.book.levels side).entries.map
        (fun entry => (entry.1, entry.2.totalVolume)) =
      (state'.engine.book.levels side).entries.map fun entry => (entry.1, entry.2.totalVolume)) ∧
    printBook state.engine.book = printBook state'.engine.book := by
  have room' : ordersSinceClear arithmetic ((before ++ late').map Handled.line) ≤ poolCapacity := by
    rw [List.map_append, ordersSinceClear_append
      fun line member => quiet.goesOn line (alike.mem_iff.mpr member), ← alike.countP_eq,
      ← ordersSinceClear_append quiet.goesOn, ← List.map_append]
    exact room
  rcases quiet_run run ran quiet room with ⟨silent, requests, quoted, terms⟩
  rcases quiet_run run ran' (quiet.of_subset alike.symm.subset) room' with
    ⟨silent', requests', quoted', terms'⟩
  have levels (side : Side) : (state.engine.book.levels side).entries.map
        (fun entry => (entry.1, entry.2.totalVolume)) =
      (state'.engine.book.levels side).entries.map fun entry => (entry.1, entry.2.totalVolume) := by
    rcases ((loop_refines arithmetic).run ran).2.sound with ⟨layout, live, sound, same⟩
    rcases ((loop_refines arithmetic).run ran').2.sound with ⟨layout', live', sound', same'⟩
    have regular := Exchange.after_regular arithmetic ((before ++ late).map Handled.line)
    have regular' := Exchange.after_regular arithmetic ((before ++ late').map Handled.line)
    rw [sound.represents.levels_eq, sound'.represents.levels_eq, same, same']
    refine priceLevels_of_depths (quoted.sorted side) (quoted'.sorted side)
      (regular.positive side) (regular'.positive side) fun price => ?_
    rw [quoted.depth, quoted'.depth, terms, terms']
    exact congrArg _ (quotedDepth_perm (lineQuotes_perm alike) side price)
  refine ⟨?_, levels, ?_⟩
  · intro handled member
    rcases List.mem_append.mp member with first | second
    · exact silent handled first
    · exact silent' handled second
  · have top (side : Side) : topLevels (state.engine.book.levels side) =
        topLevels (state'.engine.book.levels side) := by
      rw [topLevels, List.map_take, levels side, ← List.map_take]
      rfl
    exact congrArg₂ Printed.book (top .Buy) (top .Sell)

def bidLine : Text := "BUY 1 1".toList

def askLine : Text := "SELL 2 1".toList

theorem bidLine_terms : lineTerms .exact bidLine = some (.Buy, 100, 1) := by decide +kernel

theorem askLine_terms : lineTerms .exact askLine = some (.Sell, 200, 1) := by decide +kernel

theorem spreadLines_quiet : QuietLines .exact (fun _ _ => False) [bidLine, askLine] where
  goesOn := by decide +kernel
  apart := by
    have found {side : Side} {price : Price} (offered : False ∨ Exists fun line =>
        line ∈ [bidLine, askLine] ∧ Exists fun qty => lineTerms .exact line = some (side, price, qty)) :
        (side, price) = (.Buy, 100) ∨ (side, price) = (.Sell, 200) := by
      rcases offered with never | ⟨line, member, qty, isTerms⟩
      · exact never.elim
      · rcases List.mem_pair.mp member with isBid | isAsk
        · rw [isBid, bidLine_terms] at isTerms
          cases isTerms
          exact .inl rfl
        · rw [isAsk, askLine_terms] at isTerms
          cases isTerms
          exact .inr rfl
    intro bid ask offered offered'
    rcases found offered with isBid | never
    · rcases found offered' with never | isAsk
      · cases never
      · cases isBid
        cases isAsk
        decide
    · cases never

/-- The spread is displayed alike whoever comes first. -/
theorem quotes_displayed_alike_spread : Exists fun past => Exists fun past' => Exists fun state =>
    Exists fun state' => (commandLoop .exact).Run past state ∧ (commandLoop .exact).Run past' state' ∧
      past.map Handled.line = [bidLine, askLine] ∧ past'.map Handled.line = [askLine, bidLine] ∧
      printBook state.engine.book = printBook state'.engine.book := by
  rcases exists_run .exact [bidLine, askLine] with ⟨past, state, run, lines⟩
  rcases exists_run .exact [askLine, bidLine] with ⟨past', state', run', lines'⟩
  have begins : (commandLoop .exact).Run [] (.fresh Engine.blank.heap) := .start ⟨_, rfl⟩
  have quiet : QuietLines .exact (fun side price =>
      ((LoopState.fresh Engine.blank.heap).engine.book.levels side).find price ≠ none)
      (past.map Handled.line) := by
    rw [lines]
    refine ⟨spreadLines_quiet.goesOn, fun bid ask offered offered' => ?_⟩
    exact spreadLines_quiet.apart bid ask (offered.imp_left fun rests => rests rfl)
      (offered'.imp_left fun rests => rests rfl)
  have alike : (past.map Handled.line).Perm (past'.map Handled.line) := by
    rw [lines, lines']
    exact .swap _ _ _
  have room : ordersSinceClear .exact (([] ++ past).map Handled.line) ≤ poolCapacity := by
    rw [List.nil_append, lines]
    decide +kernel
  exact ⟨past, past', state, state', run, run', lines, lines',
    (quotes_displayed_alike begins run run' alike quiet room).2.2⟩

end Runs
end NexusHft
