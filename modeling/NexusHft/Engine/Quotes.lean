import NexusHft.Engine.Mirror
import NexusHft.Engine.RegularBook
import NexusHft.Foundations.StableOrder

namespace NexusHft

open Foundations

/-!
# Orders that do not trade

Orders of which none accepts the price of another come to rest, and where they rest
depends on nothing but the order among those of the same side and price.  Makers that
quote different prices can not disturb each other, however their requests interleave.
-/

/-- The order of a submission, with the node that carries it. -/
def Request.submitted : Request -> Option RestingOrder
  | submit node order => some { order with node := node }
  | cancel _ => none
  | reduce _ _ => none

/-- The orders with a quantity that are submitted. -/
def quotes (requests : List Request) : List RestingOrder :=
  (requests.filterMap Request.submitted).filter fun order => decide (order.qty > 0)

/-- Those of one side and price. -/
def quotesAt (requests : List Request) (side : Side) (price : Price) : List RestingOrder :=
  itemsAt (fun order : RestingOrder => (order.side, order.price)) (quotes requests) (side, price)

section Quotes

variable {requests : List Request} {order : RestingOrder}

theorem mem_quotesAt {side : Side} {price : Price} : order ∈ quotesAt requests side price <->
    order ∈ quotes requests ∧ order.side = side ∧ order.price = price := by
  rw [quotesAt, mem_itemsAt, Prod.mk.injEq]

theorem quotes_append (front back : List Request) :
    quotes (front ++ back) = quotes front ++ quotes back := by
  rw [quotes, List.filterMap_append, List.filter_append]
  rfl

theorem quotes_submit (node : OrderPtr) (order : LimitOrder) (positive : order.qty > 0) :
    quotes [.submit node order] = [{ order with node := node }] :=
  List.filter_cons_of_pos (decide_eq_true positive)

theorem quotes_submit_empty (node : OrderPtr) (order : LimitOrder) (none : ¬ order.qty > 0) :
    quotes [.submit node order] = [] :=
  List.filter_cons_of_neg (by simpa using none)

/-- The quotes are the same if those of every side and price are. -/
theorem mem_quotes_of_same {others : List Request}
    (same : forall side price, quotesAt others side price = quotesAt requests side price)
    (member : order ∈ quotes others) : order ∈ quotes requests := by
  have found : order ∈ quotesAt others order.side order.price := mem_quotesAt.mpr ⟨member, rfl, rfl⟩
  rw [same] at found
  exact (mem_quotesAt.mp found).1

end Quotes

/-! ## Coming to rest -/

section Placing

variable {side : Side} {resting : List RestingOrder}

theorem ordersAt_items (orders : List RestingOrder) (price : Price) : ordersAt orders price =
    itemsAt (fun order : RestingOrder => order.price) orders price := rfl

/-- An order is placed behind the others of its price and leaves all others alone. -/
theorem ordersAt_place (order : RestingOrder) (sorted : BestFirst side resting) (price : Price) :
    ordersAt (place side order resting) price =
      ordersAt resting price ++ ordersAt [order] price := by
  rcases place_split side order sorted with ⟨front, back, split, early, late⟩
  rw [split, place_eq early late, List.append_cons, ordersAt_items, ordersAt_items, ordersAt_items,
    itemsAt_append, itemsAt_append, itemsAt_append, itemsAt_singleton]
  by_cases here : order.price = price
  · have none : itemsAt (fun order : RestingOrder => order.price) back price = [] := by
      apply itemsAt_eq_nil
      intro other member same
      have behind := late other member
      rw [here, same] at behind
      exact irrefl_of side.precedes price behind
    rw [none, List.append_nil, List.append_nil]
  · rw [if_neg here, List.append_nil, List.append_nil]

end Placing

namespace PriorityBook

section Quoting

variable {book before : PriorityBook} {requests : List Request}

/-- An order that meets nobody comes to rest if it has a quantity. -/
theorem process_refused (order : RestingOrder)
    (refused : order.qty > 0 -> forall maker, maker ∈ book order.side.opposite ->
      order.accepts maker.price ≠ true) :
    book.process order = ([], if order.qty > 0 then
      Function.update book order.side (place order.side order (book order.side)) else book) := by
  by_cases positive : order.qty > 0
  · have swept := sweep_refused order.toLimitOrder order.qty (refused positive)
    rw [process_rests swept positive, if_pos positive, Function.update_eq_self]
  · have none : order.qty = 0 := eq_zero_of_not_pos positive
    have swept : sweep order.toLimitOrder order.qty (book order.side.opposite) =
        ⟨[], book order.side.opposite, order.qty⟩ := by
      rw [none]
      exact sweep_zero order.toLimitOrder _
    rw [process_used swept positive, if_neg positive, Function.update_eq_self]

/-- A book to which nothing has happened but these quotes: at each price they
stand behind what rested there, in the order in which they were submitted. -/
structure Quoted (before book : PriorityBook) (requests : List Request) : Prop where
  sorted : forall side, BestFirst side (book side)
  orders : forall side price,
    ordersAt (book side) price = ordersAt (before side) price ++ quotesAt requests side price

theorem Quoted.start (sorted : forall side, BestFirst side (book side)) : Quoted book book [] where
  sorted := sorted
  orders := fun _ _ => (List.append_nil _).symm

/-- What rests has rested before or is a quote. -/
theorem Quoted.mem (quoted : Quoted before book requests) {side : Side} {order : RestingOrder}
    (member : order ∈ book side) :
    order ∈ before side ∨ (order ∈ quotes requests ∧ order.side = side) := by
  have found : order ∈ ordersAt (book side) order.price := mem_itemsAt.mpr ⟨member, rfl⟩
  rw [quoted.orders] at found
  rcases List.mem_append.mp found with earlier | quote
  · exact Or.inl (mem_itemsAt.mp earlier).1
  · have parts := mem_quotesAt.mp quote
    exact Or.inr ⟨parts.1, parts.2.1⟩

theorem quotesAt_submit (node : OrderPtr) (order : LimitOrder) (side : Side) (price : Price) :
    quotesAt (requests ++ [.submit node order]) side price = quotesAt requests side price ++
      if order.qty > 0 ∧ order.side = side then ordersAt [{ order with node := node }] price else [] := by
  rw [quotesAt, quotes_append, itemsAt_append]
  refine congrArg (quotesAt requests side price ++ ·) ?_
  by_cases positive : order.qty > 0
  · rw [quotes_submit node order positive, itemsAt_singleton, ordersAt_items, itemsAt_singleton]
    by_cases onSide : order.side = side
    · rw [if_pos (show order.qty > 0 ∧ order.side = side from ⟨positive, onSide⟩)]
      simp only [Prod.mk.injEq, onSide, true_and]
    · rw [if_neg (show ¬ (order.qty > 0 ∧ order.side = side) from fun both => onSide both.2),
        if_neg fun same => onSide (Prod.mk.inj same).1]
  · rw [quotes_submit_empty node order positive, if_neg (fun both => positive both.1)]
    rfl

theorem Quoted.submit (quoted : Quoted before book requests) (node : OrderPtr) (order : LimitOrder)
    (refused : order.qty > 0 -> forall maker, maker ∈ book order.side.opposite ->
      order.accepts maker.price ≠ true) :
    (book.process { order with node := node }).1 = [] ∧
      Quoted before (book.process { order with node := node }).2
        (requests ++ [.submit node order]) := by
  have processed := process_refused { order with node := node } refused
  rw [processed]
  refine ⟨rfl, ?_, ?_⟩
  · intro side
    by_cases positive : order.qty > 0
    · dsimp only
      rw [if_pos positive]
      by_cases own : side = order.side
      · rw [own, Function.update_self]
        exact place_bestFirst _ (quoted.sorted order.side)
      · rw [Function.update_of_ne own]
        exact quoted.sorted side
    · dsimp only
      rw [if_neg positive]
      exact quoted.sorted side
  · intro side price
    rw [quotesAt_submit, ← List.append_assoc, ← quoted.orders]
    dsimp only
    by_cases positive : order.qty > 0
    · rw [if_pos positive]
      by_cases own : side = order.side
      · rw [own, Function.update_self, if_pos ⟨positive, rfl⟩]
        exact ordersAt_place _ (quoted.sorted order.side) price
      · rw [Function.update_of_ne own, if_neg (fun both => own both.2.symm), List.append_nil]
    · rw [if_neg positive, if_neg (fun both => positive both.1), List.append_nil]

/-- The same quotes at every price make the same book. -/
theorem Quoted.unique {book' : PriorityBook} {others : List Request}
    (quoted : Quoted before book requests) (quoted' : Quoted before book' others)
    (same : forall side price, quotesAt others side price = quotesAt requests side price) :
    book = book' := by
  funext side
  refine @eq_of_same_keys _ _ (fun order : RestingOrder => order.price) side.precedes _ _ _ _
    (quoted.sorted side) (quoted'.sorted side) fun price => ?_
  have here := quoted.orders side price
  have there := quoted'.orders side price
  rw [same] at there
  exact here.trans there.symm

end Quoting
end PriorityBook

/-! ## Runs of quotes -/

namespace Engine

/-- The requests are submissions, and no order with a quantity among them accepts the
price of one that rests or of another one among them, on the other side. -/
structure Quiet (engine : Engine) (requests : List Request) : Prop where
  submits : forall request, request ∈ requests -> request.submitted.isSome = true
  resting : forall order node, order ∈ quotes requests -> engine.RestsOn order.side.opposite node ->
    order.accepts (engine.heap node).price ≠ true
  among : forall order other, order ∈ quotes requests -> other ∈ quotes requests ->
    other.side = order.side.opposite -> order.accepts other.price ≠ true

section Quiet

variable {engine final : Engine} {requests front back : List Request} {layout : Layout}

theorem Quiet.of_append (quiet : engine.Quiet (front ++ back)) : engine.Quiet front := by
  have kept : forall order, order ∈ quotes front -> order ∈ quotes (front ++ back) := by
    intro order member
    rw [quotes_append]
    exact List.mem_append_left _ member
  exact ⟨fun request member => quiet.submits request (List.mem_append_left _ member),
    fun order node member => quiet.resting order node (kept order member),
    fun order other member member' => quiet.among order other (kept order member) (kept other member')⟩

/-- Submissions with the same quotes at every price are as quiet. -/
theorem Quiet.of_same {others : List Request} (quiet : engine.Quiet requests)
    (submits : forall request, request ∈ others -> request.submitted.isSome = true)
    (same : forall side price, quotesAt others side price = quotesAt requests side price) :
    engine.Quiet others where
  submits := submits
  resting order node member := quiet.resting order node (mem_quotes_of_same same member)
  among order other member member' :=
    quiet.among order other (mem_quotes_of_same same member) (mem_quotes_of_same same member')

/-- The last of quiet submissions meets nobody. -/
theorem Quiet.refused (represents : engine.Represents layout) {node : OrderPtr} {order : LimitOrder}
    (quiet : engine.Quiet (requests ++ [.submit node order])) {book : PriorityBook}
    (quoted : PriorityBook.Quoted (layout.orders engine.heap) book requests)
    (positive : order.qty > 0) : forall maker, maker ∈ book order.side.opposite ->
      order.accepts maker.price ≠ true := by
  intro maker member
  have isQuote : { order with node := node } ∈ quotes (requests ++ [.submit node order]) := by
    rw [quotes_append, quotes_submit node order positive]
    exact List.mem_append_right _ List.mem_cons_self
  rcases quoted.mem member with earlier | ⟨quote, facing⟩
  · rcases List.mem_map.mp earlier with ⟨queued, inNodes, same⟩
    rw [← same]
    exact quiet.resting _ queued isQuote (represents.restsOn_iff.mpr inNodes)
  · refine quiet.among _ maker isQuote ?_ facing
    rw [quotes_append]
    exact List.mem_append_left _ quote

theorem quoted_of_run (represents : engine.Represents layout) {labels : List Served}
    (run : (systemFrom engine).Run labels final) (quiet : engine.Quiet (labels.map Served.request)) :
    (forall served, served ∈ labels -> served.trades = []) ∧ Exists fun layout' =>
      final.Represents layout' ∧ PriorityBook.Quoted (layout.orders engine.heap)
        (layout'.orders final.heap) (labels.map Served.request) := by
  refine run.invariant (fun labels final => engine.Quiet (labels.map Served.request) ->
    (forall served, served ∈ labels -> served.trades = []) ∧ Exists fun layout' =>
      final.Represents layout' ∧ PriorityBook.Quoted (layout.orders engine.heap)
        (layout'.orders final.heap) (labels.map Served.request)) ?_ ?_ quiet
  · rintro start begins -
    have same : start = engine := begins
    rw [same]
    exact ⟨fun _ member => absurd member List.not_mem_nil, layout, represents,
      .start represents.sorted⟩
  · rintro past before ⟨from', request, trades⟩ next earlier inductionHypothesis
      ⟨same, admits, answers⟩ whole
    rw [List.map_append] at whole ⊢
    rcases inductionHypothesis whole.of_append with ⟨silent, layout', isRepresented, quoted⟩
    rcases serve_spec isRepresented admits answers with ⟨layout'', effect, meaning⟩
    cases request with
    | submit node order =>
        rcases quoted.submit node order (whole.refused represents quoted) with ⟨none, quotedNext⟩
        refine ⟨?_, layout'', effect.represents, ?_⟩
        · intro served member
          rcases List.mem_append.mp member with earlier | last
          · exact silent served earlier
          · rw [List.mem_singleton.mp last]
            exact (congrArg Prod.fst meaning).trans none
        · have book : layout''.orders next.heap = _ := congrArg Prod.snd meaning
          rw [book]
          exact quotedNext
    | cancel node =>
        exact absurd (whole.submits (.cancel node) (List.mem_append_right _ List.mem_cons_self))
          (by simp [Request.submitted])
    | reduce node newQty =>
        exact absurd (whole.submits (.reduce node newQty) (List.mem_append_right _ List.mem_cons_self))
          (by simp [Request.submitted])

end Quiet

/-- Quiet submissions trade with nobody and come to rest at the tail of their prices; and
whatever other way they are interleaved in, as long as those of each side and price stay
in their order, they trade with nobody then either and the book is the same. -/
theorem quotes_come_to_rest {past labels : List Served} {engine final : Engine}
    (reachable : system.Run past engine) (run : (systemFrom engine).Run labels final)
    (quiet : engine.Quiet (labels.map Served.request)) :
    (forall served, served ∈ labels -> served.trades = []) ∧
    (Exists fun before => Exists fun book => engine.Shows before ∧ final.Shows book ∧
      forall side price, ordersAt (book side) price = ordersAt (before side) price ++
        quotesAt (labels.map Served.request) side price) ∧
    forall labels' final', (systemFrom engine).Run labels' final' ->
      (forall served, served ∈ labels' -> served.request.submitted.isSome = true) ->
      (forall side price, quotesAt (labels'.map Served.request) side price =
        quotesAt (labels.map Served.request) side price) ->
      (forall served, served ∈ labels' -> served.trades = []) ∧ SameBook final final' := by
  rcases reachable_represents reachable with ⟨layout, represents⟩
  rcases quoted_of_run represents run quiet with ⟨silent, layout', represents', quoted⟩
  refine ⟨silent, ⟨_, _, ⟨layout, represents, rfl⟩, ⟨layout', represents', rfl⟩, quoted.orders⟩, ?_⟩
  intro labels' final' run' submits same
  have quiet' : engine.Quiet (labels'.map Served.request) := by
    refine quiet.of_same ?_ same
    intro request member
    rcases List.mem_map.mp member with ⟨served, listed, isRequest⟩
    rw [← isRequest]
    exact submits served listed
  rcases quoted_of_run represents run' quiet' with ⟨silent', layout'', represents'', quoted'⟩
  exact ⟨silent', represents'.sameBook represents'' (quoted.unique quoted' same)⟩

section Swapped

/-- Two submissions to an empty book. -/
theorem two_submissions {node other : OrderPtr} (different : other ≠ node) (order order' : LimitOrder)
    (served : blank.serve 4 (.submit node order) = some (blank.answer (.submit node order)))
    (served' : (blank.answer (.submit node order)).2.serve 4 (.submit other order') =
      some ((blank.answer (.submit node order)).2.answer (.submit other order'))) :
    (systemFrom blank).Run (blank.answerAll [.submit node order, .submit other order']).1
      (blank.answerAll [.submit node order, .submit other order']).2 := by
  have free := not_resting_of_empty blank rfl
  have empty : system.Run [] blank := .start rfl
  have begins : (systemFrom blank).Run [] blank := .start rfl
  have first : (systemFrom blank).step blank
      ⟨blank, .submit node order, (blank.answer (.submit node order)).1⟩
      (blank.answer (.submit node order)).2 := ⟨rfl, free node, 4, served⟩
  have unused := (submit_run empty order (free node) served).2 other different (free other)
  exact (begins.step first).step ⟨rfl, unused, 4, served'⟩

def quotedBid : LimitOrder := ⟨1, 99, 4, .Buy⟩

def quotedAsk : LimitOrder := ⟨2, 101, 5, .Sell⟩

theorem quotedPair_quiet : blank.Quiet [.submit 0 quotedBid, .submit 1 quotedAsk] where
  submits := by decide
  resting := by
    rintro order node - ⟨entry, listed, -⟩
    cases side : order.side <;> rw [side] at listed <;> exact absurd listed List.not_mem_nil
  among := by
    have both : quotes [.submit 0 quotedBid, .submit 1 quotedAsk] = [⟨quotedBid, 0⟩, ⟨quotedAsk, 1⟩] := rfl
    rw [both]
    intro order other member member' facing
    rcases List.mem_pair.mp member with isBid | isAsk
    · rcases List.mem_pair.mp member' with isBid' | isAsk'
      · rw [isBid, isBid'] at facing
        exact absurd facing (by decide)
      · rw [isBid, isAsk']
        decide
    · rcases List.mem_pair.mp member' with isBid' | isAsk'
      · rw [isAsk, isBid']
        decide
      · rw [isAsk, isAsk'] at facing
        exact absurd facing (by decide)

/-- A bid and an ask make the same book in either order. -/
theorem quotes_come_to_rest_swapped :
    SameBook (blank.answerAll [.submit 0 quotedBid, .submit 1 quotedAsk]).2
      (blank.answerAll [.submit 1 quotedAsk, .submit 0 quotedBid]).2 := by
  have empty : system.Run [] blank := .start rfl
  have promised := quotes_come_to_rest empty
    (two_submissions (by decide) quotedBid quotedAsk rfl rfl) quotedPair_quiet
  refine (promised.2.2 _ _ (two_submissions (by decide) quotedAsk quotedBid rfl rfl)
    (by decide) fun side price => ?_).2
  have asked : quotes [.submit 1 quotedAsk, .submit 0 quotedBid] = [⟨quotedAsk, 1⟩] ++ [⟨quotedBid, 0⟩] := rfl
  have bid : quotes [.submit 0 quotedBid, .submit 1 quotedAsk] = [⟨quotedBid, 0⟩] ++ [⟨quotedAsk, 1⟩] := rfl
  change itemsAt _ (quotes [.submit 1 quotedAsk, .submit 0 quotedBid]) _ =
    itemsAt _ (quotes [.submit 0 quotedBid, .submit 1 quotedAsk]) _
  rw [asked, bid, itemsAt_append, itemsAt_append, itemsAt_singleton, itemsAt_singleton]
  cases side with
  | Buy => simp [quotedAsk]
  | Sell => simp [quotedBid]

end Swapped

end Engine
end NexusHft
