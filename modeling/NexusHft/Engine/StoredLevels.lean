import NexusHft.Core.LevelNodes
import NexusHft.Engine.Requests

namespace NexusHft

open Foundations

/-!
# The engine and the storage of its levels

What each operation asks of the two maps, in the order of the source, and the engine
together with the nodes of its levels.  Nothing is assumed about the requests: they may
also be about nodes that rest already or not any more.
-/

/-! ## What an operation asks of the maps -/

namespace OrderBook

def insertCalls (book : OrderBook) (heap : Heap) (node : OrderPtr) : List MapCall :=
  match (book.levels (heap node).side).find (heap node).price with
  | some _ => []
  | none => [.emplace (heap node).side (heap node).price]

def checkRemoveCalls (level : PriceLevel) (side : Side) : List MapCall :=
  if level.orders.isEmpty then [.erase side level.price] else []

def cancelCalls (book : OrderBook) (heap : Heap) (node : OrderPtr) : List MapCall :=
  match (book.levels (heap node).side).find (heap node).price with
  | none => []
  | some found => checkRemoveCalls (found.unlink heap node).2 (heap node).side

end OrderBook

namespace Engine

/-- A pass that goes on has walked the best level. -/
def passCalls (side : Side) (budget : Nat) (incoming : OrderPtr) (state : Matching) :
    List MapCall :=
  match (state.engine.book.levels side).first with
  | none => []
  | some (_, best) =>
      match BoundedLoop.run (fillResting incoming) budget
          { heap := state.engine.heap, level := best, trades := state.trades,
            resting := best.orders.head } with
      | none => []
      | some walked => OrderBook.checkRemoveCalls walked.level side

def matchCalls (side : Side) (stops : Price -> Price -> Bool) (inner : Nat) (incoming : OrderPtr) :
    Nat -> Matching -> List MapCall
  | 0, _ => []
  | budget + 1, state =>
      match matchLevel side stops inner incoming state with
      | some (.yield next) => passCalls side inner incoming state ++
          matchCalls side stops inner incoming budget next
      | _ => []

def restCalls (incoming : OrderPtr) (final : Matching) : List MapCall :=
  if (final.engine.heap incoming).qty > 0 then
    final.engine.book.insertCalls final.engine.heap incoming
  else []

def processCalls (budget : Nat) (engine : Engine) (incoming : OrderPtr) : List MapCall :=
  let side := (engine.heap incoming).side.opposite
  matchCalls side (stopsAt side) budget incoming budget { engine := engine } ++
    (matchAgainst side (stopsAt side) budget engine incoming).elim [] (restCalls incoming)

def serveCalls (budget : Nat) (engine : Engine) (request : Request) : List MapCall :=
  match request with
  | .submit node _ => (engine.prepared request).processCalls budget node
  | .cancel node => engine.book.cancelCalls engine.heap node
  | .reduce _ _ => []

end Engine

/-! ## The calls account for the levels -/

namespace OrderBook

variable {heap : Heap} {node : OrderPtr}

theorem prices_setLevels (book : OrderBook) (side : Side) (levels : Levels side) :
    (book.setLevels side levels).prices =
      Function.update book.prices side levels.withoutValues := by
  funext other
  by_cases same : other = side
  · subst same
    rw [Function.update_self, prices, levels_setLevels]
  · rw [Function.update_of_ne same, prices, levels_setLevels_of_ne _ _ same, prices]

/-- Writing to a level changes no price. -/
theorem prices_set (book : OrderBook) (side : Side) (price : Price) (level : PriceLevel) :
    (book.setLevels side ((book.levels side).set price level)).prices = book.prices := by
  rw [prices_setLevels, OrderedMap.withoutValues_set]
  exact Function.update_eq_self side book.prices

theorem insertOrder_prices (book : OrderBook) (heap : Heap) (node : OrderPtr) :
    (MapCall.system book.prices).Run (book.insertCalls heap node)
      (book.insertOrder heap node).2.prices := by
  have written : (book.insertOrder heap node).2.prices = Function.update book.prices (heap node).side
      (book.levelFor (heap node).side (heap node).price).1.withoutValues := by
    unfold insertOrder
    rw [prices_setLevels, OrderedMap.withoutValues_set]
  rw [written, insertCalls, levelFor]
  cases found : (book.levels (heap node).side).find (heap node).price with
  | some level => exact .start (Function.update_eq_self _ book.prices)
  | none =>
      refine LabelledSystem.Run.step (.start rfl) ⟨?_, ?_⟩
      · rw [prices, OrderedMap.withoutValues_find, found]
        rfl
      · rw [OrderedMap.withoutValues_emplace]
        rfl

theorem checkRemoveLevel_prices (book : OrderBook) (level : PriceLevel) (side : Side) :
    (MapCall.system book.prices).Run (checkRemoveCalls level side)
      (book.checkRemoveLevel level side).prices := by
  rw [checkRemoveCalls, checkRemoveLevel]
  by_cases empty : level.orders.isEmpty
  · rw [if_pos empty, if_pos empty, prices_setLevels, OrderedMap.withoutValues_erase]
    exact LabelledSystem.Run.step (.start rfl) rfl
  · rw [if_neg empty, if_neg empty]
    exact .start rfl

theorem cancelOrder_prices (book : OrderBook) (heap : Heap) (node : OrderPtr) :
    (MapCall.system book.prices).Run (book.cancelCalls heap node)
      (book.cancelOrder heap node).2.prices := by
  cases found : (book.levels (heap node).side).find (heap node).price with
  | none =>
      rw [cancelOrder_of_absent found, cancelCalls, found]
      exact .start rfl
  | some level =>
      rw [cancelOrder_of_find found, cancelCalls, found]
      have checked := checkRemoveLevel_prices (book.setLevels (heap node).side
        ((book.levels (heap node).side).set (heap node).price (level.unlink heap node).2))
        (level.unlink heap node).2 (heap node).side
      rw [prices_set] at checked
      exact checked

theorem reduceOrder_prices (book : OrderBook) (heap : Heap) (node : OrderPtr) (newQty : Quantity) :
    (book.reduceOrder heap node newQty).2.prices = book.prices := by
  by_cases le : (heap node).qty ≤ newQty
  · rw [reduceOrder_of_le le]
  · have less := UInt64.not_le.mp le
    cases found : (book.levels (heap node).side).find (heap node).price with
    | none => rw [reduceOrder_of_absent less found]
    | some level => rw [reduceOrder_of_find less found, prices_set]

end OrderBook

namespace Engine

section Passes

variable {side : Side} {stops : Price -> Price -> Bool} {incoming : OrderPtr}

/-- A pass either changes nothing or asks for what happens to the prices. -/
theorem matchLevel_prices {budget : Nat} {state : Matching} {answer : ForInStep Matching}
    (returned : matchLevel side stops budget incoming state = some answer) :
    answer = .done state ∨ Exists fun next => answer = .yield next ∧
      (MapCall.system state.engine.book.prices).Run (passCalls side budget incoming state)
        next.engine.book.prices := by
  unfold matchLevel at returned
  by_cases remains : (state.engine.heap incoming).qty > 0
  · simp only [if_pos remains] at returned
    unfold passCalls
    cases first : (state.engine.book.levels side).first with
    | none =>
        rw [first] at returned
        exact Or.inl (Option.some.inj returned).symm
    | some entry =>
        rw [first] at returned
        by_cases stopped : stops entry.2.price (state.engine.heap incoming).price = true
        · simp only [if_pos stopped] at returned
          exact Or.inl (Option.some.inj returned).symm
        · simp only [if_neg stopped] at returned
          cases walked : BoundedLoop.run (fillResting incoming) budget
              { heap := state.engine.heap, level := entry.2, trades := state.trades,
                resting := entry.2.orders.head } with
          | none =>
              rw [walked] at returned
              exact absurd returned (by simp)
          | some final =>
              rw [walked] at returned
              have checked := OrderBook.checkRemoveLevel_prices (state.engine.book.setLevels side
                ((state.engine.book.levels side).set entry.1 final.level)) final.level side
              rw [OrderBook.prices_set] at checked
              refine Or.inr ⟨_, (Option.some.inj returned).symm, ?_⟩
              dsimp only
              rw [walked]
              exact checked
  · simp only [if_neg remains] at returned
    exact Or.inl (Option.some.inj returned).symm

theorem matchCalls_prices {inner budget : Nat} {state final : Matching}
    (ran : BoundedLoop.run (matchLevel side stops inner incoming) budget state = some final) :
    (MapCall.system state.engine.book.prices).Run
      (matchCalls side stops inner incoming budget state) final.engine.book.prices := by
  induction budget generalizing state with
  | zero => exact absurd ran (by simp [BoundedLoop.run])
  | succ budget inductionHypothesis =>
      cases pass : matchLevel side stops inner incoming state with
      | none => exact absurd ran (by simp [BoundedLoop.run, pass])
      | some answer =>
          rcases matchLevel_prices pass with done | ⟨next, goesOn, changed⟩
          · rw [done] at pass
            rw [BoundedLoop.run_done pass] at ran
            rw [matchCalls, pass, ← Option.some.inj ran]
            exact .start rfl
          · rw [goesOn] at pass
            rw [BoundedLoop.run_yield pass] at ran
            rw [matchCalls, pass]
            exact changed.append (inductionHypothesis ran)

end Passes

variable {budget : Nat} {engine next : Engine} {trades : List Trade}

theorem processLimitOrder_prices {incoming : OrderPtr}
    (returned : engine.processLimitOrder budget incoming = some (trades, next)) :
    (MapCall.system engine.book.prices).Run (engine.processCalls budget incoming)
      next.book.prices := by
  rw [processLimitOrder_eq] at returned
  rcases Option.map_eq_some_iff.mp returned with ⟨final, ran, rested⟩
  rw [processCalls, ran]
  refine (matchCalls_prices ran).append ?_
  change (MapCall.system final.engine.book.prices).Run (restCalls incoming final) next.book.prices
  rw [restCalls]
  rw [restRemainder] at rested
  by_cases remains : (final.engine.heap incoming).qty > 0
  · rw [if_pos remains] at rested ⊢
    rw [← (Prod.mk.inj rested).2]
    exact OrderBook.insertOrder_prices _ _ _
  · rw [if_neg remains] at rested ⊢
    rw [← (Prod.mk.inj rested).2]
    exact .start rfl

/-- The calls of an operation turn the prices before it into the prices after it. -/
theorem serve_prices {request : Request} (served : engine.serve budget request = some (trades, next)) :
    (MapCall.system engine.book.prices).Run (engine.serveCalls budget request) next.book.prices := by
  cases request with
  | submit node order => exact processLimitOrder_prices served
  | cancel node =>
      rw [← (Prod.mk.inj (Option.some.inj served)).2]
      exact OrderBook.cancelOrder_prices _ _ _
  | reduce node newQty =>
      have same : next.book.prices = engine.book.prices := by
        rw [← (Prod.mk.inj (Option.some.inj served)).2]
        exact OrderBook.reduceOrder_prices _ _ _ _
      exact .start same

/-! ## A level is added last -/

end Engine

/-- Nothing follows a price that is emplaced. -/
def EmplacesLast (calls : List MapCall) : Prop :=
  forall early side price late, calls = early ++ .emplace side price :: late -> late = []

section Last

variable {erases calls : List MapCall}

theorem emplacesLast_append (erased : forall call, call ∈ erases ->
    Exists fun side => Exists fun price => call = .erase side price) (few : calls.length ≤ 1) :
    EmplacesLast (erases ++ calls) := by
  intro early side price late split
  induction erases generalizing early with
  | nil =>
      have lengths := congrArg List.length split
      simp only [List.nil_append, List.length_append, List.length_cons] at lengths
      exact List.length_eq_zero_iff.mp (by omega)
  | cons erase erases inductionHypothesis =>
      cases early with
      | nil =>
          rcases erased erase List.mem_cons_self with ⟨side', price', isErase⟩
          rw [isErase] at split
          exact absurd (List.cons.inj split).1 (by simp)
      | cons first early =>
          exact inductionHypothesis (fun call member => erased call (List.mem_cons_of_mem erase member))
            early (List.cons.inj split).2

end Last

namespace OrderBook

theorem checkRemoveCalls_erases {level : PriceLevel} {side : Side} {call : MapCall}
    (member : call ∈ checkRemoveCalls level side) :
    Exists fun side => Exists fun price => call = .erase side price := by
  unfold checkRemoveCalls at member
  split at member
  · exact ⟨_, _, List.mem_singleton.mp member⟩
  · exact absurd member List.not_mem_nil

theorem insertCalls_length (book : OrderBook) (heap : Heap) (node : OrderPtr) :
    (book.insertCalls heap node).length ≤ 1 := by
  unfold insertCalls
  split
  · exact Nat.zero_le 1
  · exact Nat.le_refl 1

end OrderBook

namespace Engine

theorem matchCalls_erases {side : Side} {stops : Price -> Price -> Bool} {incoming : OrderPtr}
    {inner budget : Nat} {state : Matching} {call : MapCall}
    (member : call ∈ matchCalls side stops inner incoming budget state) :
    Exists fun side => Exists fun price => call = .erase side price := by
  induction budget generalizing state with
  | zero => exact absurd member List.not_mem_nil
  | succ budget inductionHypothesis =>
      unfold matchCalls at member
      split at member
      · rcases List.mem_append.mp member with now | later
        · unfold passCalls at now
          split at now
          · exact absurd now List.not_mem_nil
          · split at now
            · exact absurd now List.not_mem_nil
            · exact OrderBook.checkRemoveCalls_erases now
        · exact inductionHypothesis later
      · exact absurd member List.not_mem_nil

theorem serveCalls_emplacesLast (budget : Nat) (engine : Engine) (request : Request) :
    EmplacesLast (engine.serveCalls budget request) := by
  cases request with
  | submit node order =>
      refine emplacesLast_append (fun _ => matchCalls_erases) ?_
      cases matchAgainst _ _ budget (engine.prepared (.submit node order)) node with
      | none => exact Nat.zero_le 1
      | some final =>
          change (restCalls node final).length ≤ 1
          unfold restCalls
          split
          · exact OrderBook.insertCalls_length _ _ _
          · exact Nat.zero_le 1
  | cancel node =>
      rw [← List.append_nil (engine.serveCalls budget (.cancel node))]
      refine emplacesLast_append (fun call member => ?_) (Nat.zero_le 1)
      change call ∈ engine.book.cancelCalls engine.heap node at member
      unfold OrderBook.cancelCalls at member
      split at member
      · exact absurd member List.not_mem_nil
      · exact OrderBook.checkRemoveCalls_erases member
  | reduce node newQty =>
      intro early side price late split
      exact absurd split.symm (by simp [serveCalls])

end Engine

/-! ## Enough room in the arenas -/

/-- A price that is emplaced is the last, and there are no more than the arena has slots. -/
def RoomFor (calls : List MapCall) (prices : BookPrices) : Prop :=
  forall early side price late, calls = early ++ .emplace side price :: late ->
    late = [] ∧ (prices side).entries.length ≤ maxPriceLevels.toNat

theorem RoomFor.front {calls : List MapCall} {call : MapCall} {prices before : BookPrices}
    (room : RoomFor (calls ++ [call]) prices) : RoomFor calls before := by
  intro early side price late split
  have longer := (room early side price (late ++ [call]) (by rw [split]; simp)).1
  exact absurd longer (by simp)

theorem RoomFor.last {calls : List MapCall} {side : Side} {price : Price} {prices : BookPrices}
    (room : RoomFor (calls ++ [.emplace side price]) prices) :
    (prices side).entries.length ≤ maxPriceLevels.toNat :=
  (room calls side price [] rfl).2

section Room

variable {arenas : BookArenas} {nodes next : BookNodes} {prices prices' : BookPrices}

theorem emplace_length {side : Side} {price : Price} (absent : (prices side).find price = none) :
    (Function.update prices side ((prices side).emplace price ()) side).entries.length =
      (prices side).entries.length + 1 := by
  rcases OrderedMap.emplace_entries absent () with ⟨front, back, entries, inserted⟩
  rw [Function.update_self, inserted, entries, List.length_append, List.length_append,
    List.length_cons, Nat.add_assoc]

/-- Where there is room no node comes from the heap: as many slots are free as
levels may still be added, and an erased level has given its slot back. -/
theorem BookNodes.Sound.no_heap (sound : nodes.Sound arenas prices) (apart : nodes.Apart arenas)
    {calls : List NodeCall} (run : (NodeCall.system arenas nodes).Run calls next)
    (changed : (MapCall.system prices).Run (calls.filterMap NodeCall.mapCall) prices')
    (room : RoomFor (calls.filterMap NodeCall.mapCall) prices') :
    forall call, call ∈ calls -> ¬ call.FromHeap := by
  refine run.invariant (fun calls _ => forall prices',
    (MapCall.system prices).Run (calls.filterMap NodeCall.mapCall) prices' ->
      RoomFor (calls.filterMap NodeCall.mapCall) prices' ->
        forall call, call ∈ calls -> ¬ call.FromHeap) ?_ ?_ prices' changed room
  · exact fun _ _ _ _ _ _ member => absurd member List.not_mem_nil
  · intro past before last after earlier inductionHypothesis moved prices' changed room call member
    rw [List.filterMap_append] at changed room
    cases last with
    | emplace side price holding =>
        rw [List.filterMap_cons_some (show NodeCall.mapCall _ = some _ from rfl),
          List.filterMap_nil] at changed room
        rcases changed.last with ⟨middle, isRun, absent, same⟩
        rcases List.mem_append.mp member with early | isLast
        · exact inductionHypothesis middle isRun room.front call early
        · rcases moved with ⟨operatorNew, allocator, allocated, grown, -, -⟩
          rw [List.mem_singleton.mp isLast]
          intro fromHeap
          have isSound := (sound.run apart earlier isRun).1
          have full := (isSound side).full_of_heap allocated grown fromHeap
          have fits := room.last
          rw [same, emplace_length absent] at fits
          omega
    | erase side price =>
        rw [List.filterMap_cons_some (show NodeCall.mapCall _ = some _ from rfl),
          List.filterMap_nil] at changed room
        rcases changed.last with ⟨middle, isRun, -⟩
        rcases List.mem_append.mp member with early | isLast
        · exact inductionHypothesis middle isRun room.front call early
        · rw [List.mem_singleton.mp isLast]
          exact not_false
    | write side price offset byte =>
        rw [List.filterMap_cons_none (show NodeCall.mapCall _ = none from rfl), List.filterMap_nil,
          List.append_nil] at changed room
        rcases List.mem_append.mp member with early | isLast
        · exact inductionHypothesis prices' changed room call early
        · rw [List.mem_singleton.mp isLast]
          exact not_false

/-- Where there is room every call can be answered, whatever the heap would say,
since it is not asked. -/
theorem BookNodes.Sound.serves (sound : nodes.Sound arenas prices) (apart : nodes.Apart arenas)
    {mapCalls : List MapCall} (changed : (MapCall.system prices).Run mapCalls prices')
    (room : RoomFor mapCalls prices') : Exists fun calls => Exists fun next =>
      (NodeCall.system arenas nodes).Run calls next ∧ calls.filterMap NodeCall.mapCall = mapCalls := by
  refine changed.invariant (fun mapCalls prices' => RoomFor mapCalls prices' ->
    Exists fun calls => Exists fun next => (NodeCall.system arenas nodes).Run calls next ∧
      calls.filterMap NodeCall.mapCall = mapCalls) ?_ ?_ room
  · exact fun _ _ _ => ⟨[], nodes, .start rfl, rfl⟩
  · intro past before last after earlier inductionHypothesis moved room
    rcases inductionHypothesis room.front with ⟨calls, middle, run, same⟩
    rw [← same] at earlier
    have isSound := (sound.run apart run earlier).1
    cases last with
    | emplace side price =>
        have fits := room.last
        rw [moved.2, emplace_length moved.1] at fits
        rcases (isSound side).emplace_served fits with ⟨holding, allocator, allocated, grown, origin⟩
        have notHeap : holding.origin = .heap -> forall other, AllocatorState.Fresh
            (arenas.buffer other) (middle other).allocator.heap holding.block := by
          intro fromHeap
          rw [origin] at fromHeap
          exact absurd fromHeap (by decide)
        have served : (NodeCall.system arenas nodes).step middle (.emplace side price holding) _ :=
          ⟨fun _ => none, allocator, allocated, grown, notHeap, rfl⟩
        refine ⟨calls ++ [.emplace side price holding], _, run.step served, ?_⟩
        rw [List.filterMap_append, same]
        rfl
    | erase side price =>
        have served : (NodeCall.system arenas nodes).step middle (.erase side price) _ := rfl
        refine ⟨calls ++ [.erase side price], _, run.step served, ?_⟩
        rw [List.filterMap_append, same]
        rfl

end Room

/-! ## The engine with the nodes of its levels -/

/-- The engine together with the memory of its levels: the nodes of the two maps
and the allocators that gave them out. -/
structure StoredEngine where
  engine : Engine
  nodes : BookNodes

/-- A request as it was answered, and what happened to the nodes meanwhile: the
calls of the maps in their order, with the node that each emplaced entry got. -/
structure StoredStep extends Served where
  calls : List NodeCall

namespace StoredEngine

/-- A new book with its arenas, and any requests, stale ones included.  A step pairs the
answer of the engine with the calls that the maps make of their allocators for it,
the addresses they get and the writes of the owners of the nodes; what the maps ask
for is what the operations of the book ask of them, and nothing else is promised of the
order in which the nodes are written. -/
def system (arenas : BookArenas) : LabelledSystem StoredEngine StoredStep where
  starts state := state.engine.book = {} ∧
    Exists fun memory => state.nodes = BookNodes.init arenas memory
  step state label next := label.before = state.engine ∧ Exists fun budget =>
    state.engine.serve budget label.request = some (label.trades, next.engine) ∧
    (NodeCall.system arenas state.nodes).Run label.calls next.nodes ∧
    label.calls.filterMap NodeCall.mapCall = state.engine.serveCalls budget label.request

variable {arenas : BookArenas} {past : List StoredStep} {state : StoredEngine}

theorem init_sound (arenas : BookArenas) (memory : Side -> Memory) :
    (BookNodes.init arenas memory).Sound arenas (OrderBook.prices {}) ∧
      (BookNodes.init arenas memory).Apart arenas := by
  constructor
  · intro side
    rcases ArenaState.init_threaded (arenas.buffer side) mapSlotMaxBytes mapSlotAlign (memory side)
      with ⟨threaded, cut, slotSize, capacity⟩
    have size : ArenaState.slotSizeOf mapSlotMaxBytes mapSlotAlign = mapSlotMaxBytes := by decide
    refine ⟨⟨_, cut, ⟨threaded, ?_⟩, List.Perm.refl _, List.Pairwise.nil,
      fun _ member => absurd member List.not_mem_nil,
      fun _ member => absurd member List.not_mem_nil⟩, ?_, List.Perm.refl _,
      fun _ member => absurd member List.not_mem_nil, ?_, slotSize.trans size⟩
    · exact (List.append_nil _).symm ▸ List.Perm.refl _
    · cases side <;> rfl
    · rw [ArenaState.slots, List.length_map, List.length_range]
      change (ArenaState.init _ mapSlotMaxBytes mapSlotAlign _).1.capacity.toNat = _
      rw [capacity, size, arenas.bytes]
      decide
  · exact ⟨fun _ _ _ member => absurd member List.not_mem_nil,
      fun _ _ _ member => absurd member List.not_mem_nil⟩

theorem sound_of_run (run : (system arenas).Run past state) :
    state.nodes.Sound arenas state.engine.book.prices ∧ state.nodes.Apart arenas := by
  refine run.stateInvariant (fun state =>
    state.nodes.Sound arenas state.engine.book.prices ∧ state.nodes.Apart arenas) ?_ ?_
  · rintro start ⟨empty, memory, isInit⟩
    rw [empty, isInit]
    exact init_sound arenas memory
  · rintro before label next ⟨sound, apart⟩ ⟨-, budget, served, calls, asked⟩
    have changed := Engine.serve_prices served
    rw [← asked] at changed
    exact sound.run apart calls changed

/-- What a step asks for fits, if the levels after it do. -/
theorem roomFor {engine next : Engine} {request : Request} {budget : Nat}
    (few : forall side, (next.book.levels side).entries.length ≤ maxPriceLevels.toNat) :
    RoomFor (engine.serveCalls budget request) next.book.prices := by
  intro early side price late split
  refine ⟨engine.serveCalls_emplacesLast budget request early side price late split, ?_⟩
  rw [OrderBook.prices, OrderedMap.withoutValues_length]
  exact few side

/-- Two arenas that follow each other in memory. -/
def adjacentArenas : BookArenas where
  buffer
    | .Buy => ⟨65536, arenaBytes, by decide, by decide⟩
    | .Sell => ⟨196608, arenaBytes, by decide, by decide⟩
  bytes side := by cases side <;> rfl
  apart side := by cases side <;> decide
  nodeSize := 112
  fits := by decide

/-- No side has more levels than its arena has slots. -/
def Few (engine : Engine) : Prop :=
  forall side, (engine.book.levels side).entries.length ≤ maxPriceLevels.toNat

/-- A request after which the levels are few can be stored without the heap. -/
theorem stored_without_heap (run : (system arenas).Run past state) {request : Request} {budget : Nat}
    {trades : List Trade} {next : Engine}
    (served : state.engine.serve budget request = some (trades, next)) (few : Few next) :
    Exists fun calls => Exists fun nodes => (system arenas).step state
      ⟨⟨state.engine, request, trades⟩, calls⟩ ⟨next, nodes⟩ ∧
        forall call, call ∈ calls -> ¬ call.FromHeap := by
  rcases sound_of_run run with ⟨sound, apart⟩
  have changed := Engine.serve_prices served
  have room := @roomFor state.engine next request budget few
  rcases sound.serves apart changed room with ⟨calls, nodes, isRun, asked⟩
  refine ⟨calls, nodes, ⟨rfl, budget, served, isRun, asked⟩, ?_⟩
  rw [← asked] at changed room
  exact sound.no_heap apart isRun changed room

/-- Every one of these requests leaves few levels. -/
def FewAlong : Engine -> List Request -> Prop
  | _, [] => True
  | engine, request :: requests =>
      Few (engine.answer request).2 ∧ FewAlong (engine.answer request).2 requests

/-- Requests that are answered and leave few levels extend a run. -/
theorem answered_run {requests : List Request} (run : (system arenas).Run past state)
    (answered : Engine.Answered state.engine requests) (few : Few state.engine)
    (along : FewAlong state.engine requests) : Exists fun steps => Exists fun nodes =>
      (system arenas).Run (past ++ steps) ⟨(state.engine.answerAll requests).2, nodes⟩ ∧
        steps.map StoredStep.toServed = (state.engine.answerAll requests).1 ∧
        (forall step, step ∈ steps -> Few step.before) ∧
        Few (state.engine.answerAll requests).2 := by
  induction requests generalizing past state with
  | nil =>
      refine ⟨[], state.nodes, ?_, rfl, fun _ member => absurd member List.not_mem_nil, few⟩
      rw [List.append_nil]
      exact run
  | cons request requests inductionHypothesis =>
      rcases answered with ⟨served, answered⟩
      rcases along with ⟨fewNext, along⟩
      rcases stored_without_heap run served fewNext with ⟨calls, nodes, step, -⟩
      rcases inductionHypothesis (run.step step) answered fewNext along with
        ⟨steps, last, longer, same, before, fewLast⟩
      refine ⟨⟨⟨state.engine, request, (state.engine.answer request).1⟩, calls⟩ :: steps, last, ?_,
        congrArg (List.cons _) same, ?_, fewLast⟩
      · rw [List.append_cons]
        exact longer
      · intro other member
        rcases List.mem_cons.mp member with isFirst | later
        · rw [isFirst]
          exact few
        · exact before other later

/-- Two asks at each of two prices; a bid fills those at the lower one, so that this level
is erased, and another bid comes to rest. -/
def erasingRequests : List Request :=
  Engine.submits [(0, ⟨1, 101, 5, .Sell⟩), (1, ⟨2, 102, 4, .Sell⟩), (2, ⟨3, 101, 2, .Sell⟩),
    (3, ⟨4, 102, 1, .Sell⟩), (4, ⟨5, 101, 7, .Buy⟩), (5, ⟨6, 99, 3, .Buy⟩)]

def erasingEngine : Engine := (Engine.blank.answerAll erasingRequests).2

theorem erasing_run : Exists fun steps => Exists fun nodes =>
    (system adjacentArenas).Run steps ⟨erasingEngine, nodes⟩ ∧
      steps.map StoredStep.toServed = (Engine.blank.answerAll erasingRequests).1 ∧
      (forall step, step ∈ steps -> Few step.before) ∧ Few erasingEngine := by
  have begins : (system adjacentArenas).Run []
      ⟨Engine.blank, BookNodes.init adjacentArenas fun _ _ => 0⟩ := .start ⟨rfl, _, rfl⟩
  have answered : Engine.Answered Engine.blank erasingRequests :=
    ⟨rfl, rfl, rfl, rfl, rfl, rfl, trivial⟩
  refine answered_run begins answered (fun side => by cases side <;> decide) ?_
  refine ⟨?_, ?_, ?_, ?_, ?_, ?_, trivial⟩ <;> intro side <;> cases side <;> decide

/-! ## What is promised -/

/-- The nodes of one side: one for each level, apart from all others, and all of
the memory accounted for, be it on the freelist, in a node or given back. -/
structure LevelsStored (state : StoredEngine) (side : Side) : Prop where
  prices : (state.nodes side).nodes.entries.map Prod.fst =
    (state.engine.book.levels side).entries.map Prod.fst
  given : (state.nodes side).allocator.live.Perm ((state.nodes side).nodes.entries.map Prod.snd)
  apart : (state.nodes side).allocator.live.Pairwise fun first second =>
    first.objects.Apart second.objects
  across : forall first second, first ∈ (state.nodes side).allocator.live ->
    second ∈ (state.nodes side.opposite).allocator.live -> first.objects.Apart second.objects
  slots : Exists fun free =>
    Threaded (state.nodes side).allocator.memory.loadPointer
      (state.nodes side).allocator.arena.freelist free ∧
    (free ++ ((state.nodes side).allocator.held .arena).map Holding.address).Perm
      (state.nodes side).allocator.arena.slots ∧
    (state.nodes side).allocator.arena.slots.Nodup ∧
    (state.nodes side).allocator.arena.slots.length = maxPriceLevels.toNat
  blocks : (state.nodes side).allocator.heap.Perm
    (((state.nodes side).allocator.held .heap).map Holding.block)

/-- Whatever is asked of the engine, every level has one node, no two nodes of the book
overlap, and each slot of an arena is free or the node of a level: no level that is
erased leaves its node behind. -/
theorem levels_stored (run : (system arenas).Run past state) (side : Side) :
    state.LevelsStored side := by
  rcases sound_of_run run with ⟨sound, apart⟩
  have fits (at' : Side) (holding : Holding) (isLive : holding ∈ (state.nodes at').allocator.live) :
      holding.objects.bytes ≤ (holding.space mapSlotMaxBytes).bytes := by
    rcases (sound at').allocated with ⟨free, isSound⟩
    rcases (sound at').single holding isLive with ⟨one, size⟩
    rw [← (sound at').slotSize]
    refine isSound.objects_le isLive ?_ ?_
    · rw [size, (sound at').slotSize]
      exact arenas.fits
    · rw [one]
      exact lt_of_eq_of_lt (Nat.one_mul _) holding.sizeofT.toNat_lt
  rcases (sound side).allocated with ⟨free, isSound⟩
  constructor
  · rw [← OrderedMap.withoutValues_keys, (sound side).keyed, OrderBook.prices,
      OrderedMap.withoutValues_keys]
  · exact (sound side).live
  · refine isSound.apart.imp_of_mem fun {first second} isFirst isSecond spaces => ?_
    rw [(sound side).slotSize] at spaces
    have shrunk := spaces.shrink (fits side first isFirst) (fits side second isSecond)
    rw [Holding.space_address, Holding.space_address] at shrunk
    exact shrunk
  · intro first second isFirst isSecond
    have shrunk := (apart.across side first second isFirst isSecond).shrink
      (fits side first isFirst) (fits side.opposite second isSecond)
    rw [Holding.space_address, Holding.space_address] at shrunk
    exact shrunk
  · exact ⟨free, isSound.parted.threaded, isSound.parted.whole, isSound.cut.slots_nodup,
      (sound side).slots⟩
  · exact isSound.blocks

theorem levels_stored_erasing : Exists fun nodes =>
    (StoredEngine.mk erasingEngine nodes).LevelsStored .Sell ∧
      (erasingEngine.book.levels .Sell).entries.map Prod.fst = [102] ∧
      (erasingEngine.book.levels .Buy).entries.map Prod.fst = [99] := by
  rcases erasing_run with ⟨steps, nodes, run, -⟩
  exact ⟨nodes, levels_stored run .Sell, rfl, rfl⟩

/-- As long as no side has more levels than its arena has slots, `operator new` is not
called for any of them, and whatever is asked next can be stored without it too. -/
theorem levels_without_heap (run : (system arenas).Run past state)
    (few : forall step, step ∈ past -> Few step.before) (now : Few state.engine) :
    (forall step, step ∈ past -> forall call, call ∈ step.calls -> ¬ call.FromHeap) ∧
    forall request budget trades next, state.engine.serve budget request = some (trades, next) ->
      Few next -> Exists fun calls => Exists fun nodes => (system arenas).step state
        ⟨⟨state.engine, request, trades⟩, calls⟩ ⟨next, nodes⟩ ∧
          forall call, call ∈ calls -> ¬ call.FromHeap := by
  constructor
  · refine run.invariant (fun past state =>
      (forall step, step ∈ past -> Few step.before) -> Few state.engine ->
      forall step, step ∈ past -> forall call, call ∈ step.calls -> ¬ call.FromHeap) ?_ ?_ few now
    · exact fun _ _ _ _ _ member => absurd member List.not_mem_nil
    · rintro past before label next earlier inductionHypothesis ⟨same, budget, served, calls, asked⟩
        few now step member
      rcases List.mem_append.mp member with early | isLast
      · refine inductionHypothesis (fun other early =>
          few other (List.mem_append_left _ early)) ?_ step early
        rw [← same]
        exact few label (List.mem_append_right _ List.mem_cons_self)
      · rw [List.mem_singleton.mp isLast]
        rcases sound_of_run earlier with ⟨sound, apart⟩
        have changed := Engine.serve_prices served
        have room := @roomFor before.engine next.engine label.request budget now
        rw [← asked] at changed room
        exact sound.no_heap apart calls changed room
  · exact fun _ _ _ _ served fewNext => stored_without_heap run served fewNext

/-- Two levels of a side come and one goes without the heap. -/
theorem levels_without_heap_erasing : Exists fun steps => Exists fun nodes =>
    (system adjacentArenas).Run steps ⟨erasingEngine, nodes⟩ ∧
      steps.map StoredStep.toServed = (Engine.blank.answerAll erasingRequests).1 ∧
      forall step, step ∈ steps -> forall call, call ∈ step.calls -> ¬ call.FromHeap := by
  rcases erasing_run with ⟨steps, nodes, run, same, few, now⟩
  exact ⟨steps, nodes, run, same, (levels_without_heap run few now).1⟩

end StoredEngine
end NexusHft
