import NexusHft.Core.PriceMirror
import NexusHft.Engine.Requests

namespace NexusHft

open Foundations

/-!
# Buys and sells are mirror images

Mirroring prices turns the order of the bids into the order of the asks.  The
mirror of an engine swaps the sides and mirrors the prices of its book and of
its memory, and keeps ids, quantities and links.

The engine only compares prices, so every operation of the source commutes
with any mirror that reverses the comparison, for any engine and any number of
passes.  Mirrored requests therefore have mirrored answers along whole runs.
-/

namespace PriceMirror

variable (mirror : PriceMirror)

def order (order : LimitOrder) : LimitOrder :=
  { order with side := order.side.opposite, price := mirror.price order.price }

def node (node : OrderNode) : OrderNode :=
  { node with side := node.side.opposite, price := mirror.price node.price }

def heap (heap : Heap) : Heap := fun node => mirror.node (heap node)

def level (level : PriceLevel) : PriceLevel := { level with price := mirror.price level.price }

/-- The mirrored levels belong to the other side. -/
def levels {side : Side} (levels : Levels side) : Levels side.opposite :=
  levels.translate (mirror.keys side) mirror.level

def book (book : OrderBook) : OrderBook where
  bids := @levels mirror .Sell book.asks
  asks := @levels mirror .Buy book.bids

def trade (trade : Trade) : Trade := { trade with price := mirror.price trade.price }

def engine (engine : Engine) : Engine := ⟨mirror.heap engine.heap, mirror.book engine.book⟩

def request : Request -> Request
  | .submit node order => .submit node (mirror.order order)
  | .cancel node => .cancel node
  | .reduce node newQty => .reduce node newQty

/-! ## Memory and lists -/

section Memory

variable (memory : Heap) (cell : OrderPtr)

/-- Storing a mirrored node mirrors the store. -/
theorem heap_update (stored : OrderNode) :
    Function.update (mirror.heap memory) cell (mirror.node stored) =
      mirror.heap (Function.update memory cell stored) :=
  (Function.comp_update mirror.node memory cell stored).symm

theorem setPrev (link : Option OrderPtr) :
    (mirror.heap memory).setPrev cell link = mirror.heap (memory.setPrev cell link) :=
  mirror.heap_update memory cell { memory cell with prev := link }

theorem setNext (link : Option OrderPtr) :
    (mirror.heap memory).setNext cell link = mirror.heap (memory.setNext cell link) :=
  mirror.heap_update memory cell { memory cell with next := link }

theorem setQty (qty : Quantity) :
    (mirror.heap memory).setQty cell qty = mirror.heap (memory.setQty cell qty) :=
  mirror.heap_update memory cell { memory cell with qty := qty }

theorem construct (order : LimitOrder) :
    (mirror.heap memory).construct cell (mirror.order order) =
      mirror.heap (memory.construct cell order) :=
  mirror.heap_update memory cell { order with }

variable (list : IntrusiveList)

theorem pushBack : list.pushBack (mirror.heap memory) cell =
    (mirror.heap (list.pushBack memory cell).1, (list.pushBack memory cell).2) := by
  unfold IntrusiveList.pushBack IntrusiveList.linkTail
  cases list.head with
  | none => simp only [setPrev, setNext]
  | some first =>
      cases list.tail with
      | none => simp only [setPrev, setNext]
      | some last => simp only [setPrev, setNext]

theorem skipForward : list.skipForward (mirror.heap memory) cell =
    (mirror.heap (list.skipForward memory cell).1, (list.skipForward memory cell).2) := by
  have link : (mirror.heap memory cell).prev = (memory cell).prev := rfl
  rw [IntrusiveList.skipForward, link, IntrusiveList.skipForward]
  cases (memory cell).prev with
  | none => rfl
  | some before => exact Prod.ext (mirror.setNext memory before _) rfl

theorem skipBackward : list.skipBackward (mirror.heap memory) cell =
    (mirror.heap (list.skipBackward memory cell).1, (list.skipBackward memory cell).2) := by
  have link : (mirror.heap memory cell).next = (memory cell).next := rfl
  rw [IntrusiveList.skipBackward, link, IntrusiveList.skipBackward]
  cases (memory cell).next with
  | none => rfl
  | some after => exact Prod.ext (mirror.setPrev memory after _) rfl

theorem remove : list.remove (mirror.heap memory) cell =
    (mirror.heap (list.remove memory cell).1, (list.remove memory cell).2) := by
  unfold IntrusiveList.remove
  simp only [skipForward, skipBackward, setPrev, setNext]

theorem unlink (found : PriceLevel) : (mirror.level found).unlink (mirror.heap memory) cell =
    (mirror.heap (found.unlink memory cell).1, mirror.level (found.unlink memory cell).2) := by
  have removed : (mirror.level found).orders.remove (mirror.heap memory) cell = _ :=
    mirror.remove memory cell found.orders
  simp only [PriceLevel.unlink, removed]
  rfl

end Memory

/-! ## The book -/

section Book

variable (found : OrderBook) (memory : Heap) (cell : OrderPtr) (side : Side) (price : Price)

theorem book_levels :
    (mirror.book found).levels side.opposite = mirror.levels (found.levels side) := by
  cases side <;> rfl

theorem book_setLevels (levels : Levels side) :
    (mirror.book found).setLevels side.opposite (mirror.levels levels) =
      mirror.book (found.setLevels side levels) := by
  cases side <;> rfl

theorem find : ((mirror.book found).levels side.opposite).find (mirror.price price) =
    ((found.levels side).find price).map mirror.level := by
  rw [book_levels]
  exact OrderedMap.translate_find (found.levels side) (mirror.keys side) mirror.level price

/-- Writing a level through its reference. -/
theorem write (levels : Levels side) (level : PriceLevel) :
    (mirror.book found).setLevels side.opposite
        (OrderedMap.set (mirror.levels levels) (mirror.price price) (mirror.level level)) =
      mirror.book (found.setLevels side (levels.set price level)) := by
  rw [← book_setLevels]
  exact congrArg _ (OrderedMap.translate_set levels (mirror.keys side) mirror.level price level)

theorem checkRemoveLevel (level : PriceLevel) :
    (mirror.book found).checkRemoveLevel (mirror.level level) side.opposite =
      mirror.book (found.checkRemoveLevel level side) := by
  unfold OrderBook.checkRemoveLevel
  by_cases empty : level.orders.isEmpty = true
  · rw [if_pos empty, if_pos (show (mirror.level level).orders.isEmpty = true from empty),
      ← book_setLevels, book_levels]
    exact congrArg _ (OrderedMap.translate_erase (found.levels side) (mirror.keys side)
      mirror.level level.price)
  · rw [if_neg empty, if_neg (show ¬ (mirror.level level).orders.isEmpty = true from empty)]

/-- Writing a level back and checking it. -/
theorem writeBack (level : PriceLevel) :
    ((mirror.book found).setLevels side.opposite
        (OrderedMap.set ((mirror.book found).levels side.opposite) (mirror.price price)
          (mirror.level level))).checkRemoveLevel (mirror.level level) side.opposite =
      mirror.book ((found.setLevels side
        ((found.levels side).set price level)).checkRemoveLevel level side) := by
  rw [book_levels, write, checkRemoveLevel]

theorem levelFor : (mirror.book found).levelFor side.opposite (mirror.price price) =
    (mirror.levels (found.levelFor side price).1, mirror.level (found.levelFor side price).2) := by
  unfold OrderBook.levelFor
  rw [find]
  cases (found.levels side).find price with
  | some level => exact Prod.ext (mirror.book_levels found side) rfl
  | none =>
      refine Prod.ext ?_ rfl
      rw [book_levels]
      exact OrderedMap.translate_emplace (found.levels side) (mirror.keys side) mirror.level
        price { price := price }

theorem insertOrder : (mirror.book found).insertOrder (mirror.heap memory) cell =
    (mirror.heap (found.insertOrder memory cell).1, mirror.book (found.insertOrder memory cell).2) := by
  have located : (mirror.book found).levelFor (mirror.heap memory cell).side
      (mirror.heap memory cell).price = _ :=
    mirror.levelFor found (memory cell).side (memory cell).price
  simp only [OrderBook.insertOrder, located]
  generalize found.levelFor (memory cell).side (memory cell).price = place
  have pushed : (mirror.level place.2).orders.pushBack (mirror.heap memory) cell = _ :=
    mirror.pushBack memory cell place.2.orders
  rw [pushed]
  refine Prod.ext rfl ?_
  exact mirror.write found (memory cell).side (memory cell).price place.1
    { place.2 with
      totalVolume := place.2.totalVolume + ((place.2.orders.pushBack memory cell).1 cell).qty
      orders := (place.2.orders.pushBack memory cell).2 }

theorem cancelOrder : (mirror.book found).cancelOrder (mirror.heap memory) cell =
    (mirror.heap (found.cancelOrder memory cell).1, mirror.book (found.cancelOrder memory cell).2) := by
  have located := mirror.find found (memory cell).side (memory cell).price
  cases atPrice : (found.levels (memory cell).side).find (memory cell).price with
  | none =>
      rw [atPrice, Option.map_none] at located
      rw [OrderBook.cancelOrder_of_absent located, OrderBook.cancelOrder_of_absent atPrice]
  | some level =>
      rw [atPrice, Option.map_some] at located
      rw [OrderBook.cancelOrder_of_find located, OrderBook.cancelOrder_of_find atPrice, unlink]
      exact Prod.ext rfl (mirror.writeBack found _ _ _)

theorem reduceOrder (newQty : Quantity) :
    (mirror.book found).reduceOrder (mirror.heap memory) cell newQty =
      (mirror.heap (found.reduceOrder memory cell newQty).1,
        mirror.book (found.reduceOrder memory cell newQty).2) := by
  by_cases le : (memory cell).qty ≤ newQty
  · rw [OrderBook.reduceOrder_of_le le,
      OrderBook.reduceOrder_of_le (show (mirror.heap memory cell).qty ≤ newQty from le)]
  · have less := UInt64.not_le.mp le
    have mirrored : newQty < (mirror.heap memory cell).qty := less
    have located := mirror.find found (memory cell).side (memory cell).price
    cases atPrice : (found.levels (memory cell).side).find (memory cell).price with
    | none =>
        rw [atPrice, Option.map_none] at located
        rw [OrderBook.reduceOrder_of_absent mirrored located,
          OrderBook.reduceOrder_of_absent less atPrice, setQty]
    | some level =>
        rw [atPrice, Option.map_some] at located
        rw [OrderBook.reduceOrder_of_find mirrored located,
          OrderBook.reduceOrder_of_find less atPrice, setQty]
        refine Prod.ext rfl ?_
        simp only [← write, ← book_levels]
        rfl

end Book

/-! ## The loops -/

section Loops

def pass (pass : LevelPass) : LevelPass where
  heap := mirror.heap pass.heap
  level := mirror.level pass.level
  trades := pass.trades.map mirror.trade
  resting := pass.resting

def matching (state : Matching) : Matching where
  engine := mirror.engine state.engine
  trades := state.trades.map mirror.trade

/-- Memory after the two quantities of a pass are written, one after the other. -/
def fill (memory : Heap) (incoming resting : OrderPtr) : Heap :=
  let tradeQty := min (memory incoming).qty (memory resting).qty
  let taken := memory.setQty incoming ((memory incoming).qty - tradeQty)
  taken.setQty resting ((taken resting).qty - tradeQty)

theorem fill_heap (memory : Heap) (incoming resting : OrderPtr) :
    fill (mirror.heap memory) incoming resting = mirror.heap (fill memory incoming resting) := by
  unfold fill
  simp only [setQty]
  rfl

/-- The pass over an order, when the incoming one still has quantity. -/
theorem fillResting_of_resting {incoming resting : OrderPtr} {state : LevelPass}
    (stands : state.resting = some resting) (remains : (state.heap incoming).qty > 0) :
    Engine.fillResting incoming state =
      let tradeQty := min (state.heap incoming).qty (state.heap resting).qty
      let filled := fill state.heap incoming resting
      let removed := if (filled resting).qty = 0
        then state.level.orders.remove filled resting else (filled, state.level.orders)
      some (.yield {
        heap := removed.1
        level := { state.level with
          totalVolume := state.level.totalVolume - tradeQty, orders := removed.2 }
        trades := state.trades ++ [⟨(state.heap resting).id, (state.heap incoming).id,
          state.level.price, tradeQty⟩]
        resting := (filled resting).next }) := by
  unfold Engine.fillResting
  simp only [stands, if_pos remains]
  rfl

theorem fillResting (incoming : OrderPtr) (state : LevelPass) :
    Engine.fillResting incoming (mirror.pass state) =
      (Engine.fillResting incoming state).map (BoundedLoop.translateStep mirror.pass) := by
  cases stands : state.resting with
  | none =>
      have mirrored : (mirror.pass state).resting = none := stands
      unfold Engine.fillResting
      rw [stands, mirrored]
      rfl
  | some resting =>
      have mirrored : (mirror.pass state).resting = some resting := stands
      by_cases remains : (state.heap incoming).qty > 0
      · rw [fillResting_of_resting stands remains, fillResting_of_resting mirrored remains]
        have filled : fill (mirror.pass state).heap incoming resting = _ :=
          mirror.fill_heap state.heap incoming resting
        simp only [filled]
        generalize fill state.heap incoming resting = memory
        have removed : (mirror.pass state).level.orders.remove (mirror.heap memory) resting = _ :=
          mirror.remove memory resting state.level.orders
        by_cases used : (memory resting).qty = 0
        · rw [if_pos used, if_pos (show (mirror.heap memory resting).qty = 0 from used), removed]
          simp only [Option.map_some, BoundedLoop.translateStep, pass, List.map_append]
          rfl
        · rw [if_neg used, if_neg (show ¬ (mirror.heap memory resting).qty = 0 from used)]
          simp only [Option.map_some, BoundedLoop.translateStep, pass, List.map_append]
          rfl
      · unfold Engine.fillResting
        rw [stands, mirrored]
        simp only [if_neg remains]
        exact if_neg remains

/-- Both loops break on the same test. -/
theorem stopsAt (side : Side) (best limit : Price) :
    Engine.stopsAt side.opposite (mirror.price best) (mirror.price limit) =
      Engine.stopsAt side best limit :=
  decide_eq_decide.mpr (mirror.precedes side limit best)

theorem matchLevel (side : Side) (budget : Nat) (incoming : OrderPtr) (state : Matching) :
    Engine.matchLevel side.opposite (Engine.stopsAt side.opposite) budget incoming
        (mirror.matching state) =
      (Engine.matchLevel side (Engine.stopsAt side) budget incoming state).map
        (BoundedLoop.translateStep mirror.matching) := by
  have first : ((mirror.matching state).engine.book.levels side.opposite).first = _ :=
    (congrArg _ (mirror.book_levels state.engine.book side)).trans
      (OrderedMap.translate_first (state.engine.book.levels side) (mirror.keys side) mirror.level)
  unfold Engine.matchLevel
  by_cases remains : (state.engine.heap incoming).qty > 0
  · have mirrored : ((mirror.matching state).engine.heap incoming).qty > 0 := remains
    simp only [if_pos remains, if_pos mirrored, first]
    cases (state.engine.book.levels side).first with
    | none => rfl
    | some entry =>
        have test : Engine.stopsAt side.opposite (mirror.level entry.2).price
            ((mirror.matching state).engine.heap incoming).price = _ :=
          mirror.stopsAt side entry.2.price (state.engine.heap incoming).price
        have walk := BoundedLoop.run_translate mirror.pass (mirror.fillResting incoming) budget
          { heap := state.engine.heap, level := entry.2, trades := state.trades,
            resting := entry.2.orders.head }
        simp only [Option.map_some, Prod.map_snd, Prod.map_fst, test]
        by_cases stops : Engine.stopsAt side entry.2.price (state.engine.heap incoming).price = true
        · simp only [if_pos stops]
          rfl
        · have walked : BoundedLoop.run (Engine.fillResting incoming) budget
              { heap := (mirror.matching state).engine.heap, level := mirror.level entry.2,
                trades := (mirror.matching state).trades,
                resting := (mirror.level entry.2).orders.head } = _ := walk
          simp only [if_neg stops, walked]
          cases BoundedLoop.run (Engine.fillResting incoming) budget _ with
          | none => rfl
          | some final =>
              have written := mirror.writeBack state.engine.book side entry.1 final.level
              exact congrArg (fun book : OrderBook => some (ForInStep.yield (Matching.mk
                ⟨mirror.heap final.heap, book⟩ (final.trades.map mirror.trade)))) written
  · have mirrored : ¬ ((mirror.matching state).engine.heap incoming).qty > 0 := remains
    simp only [if_neg remains, if_neg mirrored]
    rfl

theorem matchAgainst (side : Side) (budget : Nat) (engine : Engine) (incoming : OrderPtr) :
    Engine.matchAgainst side.opposite (Engine.stopsAt side.opposite) budget
        (mirror.engine engine) incoming =
      (Engine.matchAgainst side (Engine.stopsAt side) budget engine incoming).map
        mirror.matching :=
  BoundedLoop.run_translate mirror.matching (mirror.matchLevel side budget incoming) budget
    { engine := engine }

/-- The mirror of an answer. -/
def answer (answer : List Trade × Engine) : List Trade × Engine :=
  (answer.1.map mirror.trade, mirror.engine answer.2)

theorem restRemainder (incoming : OrderPtr) (final : Matching) :
    Engine.restRemainder incoming (mirror.matching final) =
      mirror.answer (Engine.restRemainder incoming final) := by
  unfold Engine.restRemainder
  by_cases remains : (final.engine.heap incoming).qty > 0
  · have inserted : (mirror.matching final).engine.book.insertOrder
        (mirror.matching final).engine.heap incoming = _ :=
      mirror.insertOrder final.engine.book final.engine.heap incoming
    rw [if_pos remains, if_pos (show ((mirror.matching final).engine.heap incoming).qty > 0 from
      remains), inserted]
    rfl
  · rw [if_neg remains, if_neg (show ¬ ((mirror.matching final).engine.heap incoming).qty > 0 from
      remains)]
    rfl

theorem processLimitOrder (budget : Nat) (engine : Engine) (incoming : OrderPtr) :
    (mirror.engine engine).processLimitOrder budget incoming =
      (engine.processLimitOrder budget incoming).map mirror.answer := by
  rw [Engine.processLimitOrder_eq, Engine.processLimitOrder_eq]
  have matched : Engine.matchAgainst ((mirror.engine engine).heap incoming).side.opposite
      (Engine.stopsAt ((mirror.engine engine).heap incoming).side.opposite) budget
      (mirror.engine engine) incoming = _ :=
    mirror.matchAgainst (engine.heap incoming).side.opposite budget engine incoming
  rw [matched, Option.map_map, Option.map_map]
  exact congrArg (fun rest => Option.map rest _) (funext (mirror.restRemainder incoming))

end Loops

/-! ## Requests -/

theorem prepared (engine : Engine) (request : Request) :
    (mirror.engine engine).prepared (mirror.request request) =
      mirror.engine (engine.prepared request) := by
  cases request with
  | submit node order =>
      exact congrArg (fun memory => Engine.mk memory _) (mirror.construct engine.heap node order)
  | cancel node => rfl
  | reduce node newQty => rfl

/-- A mirrored request has the mirrored answer, after as many passes. -/
theorem serve (budget : Nat) (engine : Engine) (request : Request) :
    (mirror.engine engine).serve budget (mirror.request request) =
      (engine.serve budget request).map mirror.answer := by
  cases request with
  | submit node order =>
      have constructed := mirror.prepared engine (.submit node order)
      have processed := mirror.processLimitOrder budget (engine.prepared (.submit node order)) node
      rw [← constructed] at processed
      exact processed
  | cancel node =>
      have cancelled := mirror.cancelOrder engine.book engine.heap node
      exact congrArg (fun result : Heap × OrderBook =>
        some (([] : List Trade), Engine.mk result.1 result.2)) cancelled
  | reduce node newQty =>
      have reduced := mirror.reduceOrder engine.book engine.heap node newQty
      exact congrArg (fun result : Heap × OrderBook =>
        some (([] : List Trade), Engine.mk result.1 result.2)) reduced

theorem answers {engine next : Engine} {request : Request} {trades : List Trade}
    (answers : engine.Answers request trades next) :
    (mirror.engine engine).Answers (mirror.request request) (trades.map mirror.trade)
      (mirror.engine next) := by
  rcases answers with ⟨budget, served⟩
  refine ⟨budget, ?_⟩
  rw [serve, served]
  rfl

theorem resting {engine : Engine} {node : OrderPtr} :
    (mirror.engine engine).Resting node <-> engine.Resting node := by
  constructor
  · rintro ⟨side, entry, listed, reaches⟩
    obtain ⟨other, rfl⟩ : Exists fun other : Side => side = other.opposite :=
      ⟨side.opposite, side.opposite_opposite.symm⟩
    have levels : (mirror.engine engine).book.levels other.opposite = _ :=
      mirror.book_levels engine.book other
    rw [levels] at listed
    rcases List.mem_map.mp listed with ⟨found, member, same⟩
    rw [← same] at reaches
    exact ⟨other, found, member, reaches⟩
  · rintro ⟨side, entry, listed, reaches⟩
    refine ⟨side.opposite, (mirror.price entry.1, mirror.level entry.2), ?_, reaches⟩
    have levels : (mirror.engine engine).book.levels side.opposite = _ :=
      mirror.book_levels engine.book side
    rw [levels]
    exact List.mem_map_of_mem listed

theorem admits {engine : Engine} {request : Request} :
    (mirror.engine engine).Admits (mirror.request request) <-> engine.Admits request := by
  cases request with
  | submit node order => exact not_congr mirror.resting
  | cancel node => exact mirror.resting
  | reduce node newQty => exact mirror.resting

/-- The record of a mirrored request. -/
def served (served : Served) : Served where
  before := mirror.engine served.before
  request := mirror.request served.request
  trades := served.trades.map mirror.trade

theorem step {engine next : Engine} {served : Served}
    (stepped : Engine.system.step engine served next) :
    Engine.system.step (mirror.engine engine) (mirror.served served) (mirror.engine next) :=
  ⟨congrArg mirror.engine stepped.1, mirror.admits.mpr stepped.2.1, mirror.answers stepped.2.2⟩

end PriceMirror

/-! ## Runs from any book -/

namespace Engine

/-- From one engine, the same requests have the same answers. -/
theorem systemFrom_unique {engine final final' : Engine} {past past' : List Served}
    (run : (systemFrom engine).Run past final) (run' : (systemFrom engine).Run past' final')
    (same : past.map Served.request = past'.map Served.request) :
    past = past' ∧ final = final' := by
  refine run.unique Served.request ?_ ?_ run' same
  · intro start start' begins begins'
    exact Eq.trans begins (Eq.symm begins')
  · rintro state ⟨before, request, trades⟩ ⟨before', request', trades'⟩ next next'
      ⟨isBefore, -, answers⟩ ⟨isBefore', -, answers'⟩ sameRequest
    change request = request' at sameRequest
    subst sameRequest
    rcases answers.unique answers' with ⟨sameTrades, sameNext⟩
    exact ⟨by rw [Served.mk.injEq]; exact ⟨isBefore.trans isBefore'.symm, rfl, sameTrades⟩, sameNext⟩

/-- The mirrored requests on the mirrored book, whatever the book: each of them has the
mirrored trades and leads to the mirror of the resulting book. -/
theorem mirrored_run {later : List Served} {engine final : Engine}
    (run : (systemFrom engine).Run later final) :
    (systemFrom (maxPriceMirror.engine engine)).Run (later.map maxPriceMirror.served)
        (maxPriceMirror.engine final) ∧
      forall later' final', (systemFrom (maxPriceMirror.engine engine)).Run later' final' ->
        later'.map Served.request = later.map (fun served => maxPriceMirror.request served.request) ->
          later' = later.map maxPriceMirror.served ∧ final' = maxPriceMirror.engine final := by
  have mirrored : (systemFrom (maxPriceMirror.engine engine)).Run
      (later.map maxPriceMirror.served) (maxPriceMirror.engine final) := by
    induction run with
    | start begins => exact LabelledSystem.Run.start (congrArg maxPriceMirror.engine begins)
    | step earlier stepped inductionHypothesis =>
        rw [List.map_append]
        exact inductionHypothesis.step (maxPriceMirror.step stepped)
  refine ⟨mirrored, fun later' final' run' requests => ?_⟩
  refine systemFrom_unique run' mirrored ?_
  rw [requests, List.map_map]
  rfl

section Mirrored

/-- After the busy run the second of three asks at a price is cancelled and the third is
reduced. -/
def touchedPast : List Served :=
  busyPast ++ [⟨busyEngine, .cancel 1, []⟩] ++ [⟨busyEngine.cancelOrder 1, .reduce 2 3, []⟩]

def touchedEngine : Engine := (busyEngine.cancelOrder 1).reduceOrder 2 3

theorem touchedRun : (systemFrom blank).Run touchedPast touchedEngine := by
  have cancels : (systemFrom blank).step busyEngine ⟨busyEngine, .cancel 1, []⟩
      (busyEngine.cancelOrder 1) := ⟨rfl, busy_resting, 0, rfl⟩
  have third : (busyEngine.cancelOrder 1).Resting 2 :=
    ⟨.Sell, _, List.mem_cons_self, .later (.here 2)⟩
  have reduces : (systemFrom blank).step (busyEngine.cancelOrder 1)
      ⟨busyEngine.cancelOrder 1, .reduce 2 3, []⟩ touchedEngine := ⟨rfl, third, 0, rfl⟩
  exact (busy_served.1.step cancels).step reduces

theorem mirrored_run_touched :
    (systemFrom (maxPriceMirror.engine blank)).Run (touchedPast.map maxPriceMirror.served)
        (maxPriceMirror.engine touchedEngine) ∧
      forall later' final', (systemFrom (maxPriceMirror.engine blank)).Run later' final' ->
        later'.map Served.request =
            touchedPast.map (fun served => maxPriceMirror.request served.request) ->
          later' = touchedPast.map maxPriceMirror.served ∧
            final' = maxPriceMirror.engine touchedEngine :=
  mirrored_run touchedRun

end Mirrored
end Engine
end NexusHft
