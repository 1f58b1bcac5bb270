import NexusHft.Engine.PriceLevels
import NexusHft.Foundations.Machine
import NexusHft.Main.PoolUsage

namespace NexusHft

open Foundations

/-!
# The process as an exchange

What the process is for, without its engine in memory, its pool and its budgets:
the orders that rest, and how many orders were taken since the book was last
cleared.  An order that is taken gets the next number.  As many orders can be
taken as the pool has slots, because none of them is ever given back.

The answer to a line depends on the time the order took, which is printed.
-/

/-- What the process is for: a book, and how many orders have been taken since it
was opened.  It has no memory, no pool and no loops; ids and the end of the pool
are read off the count. -/
structure Exchange where
  book : PriorityBook
  taken : Nat

namespace Exchange

def opened : Exchange := { book := fun _ => [], taken := 0 }

/-- The ten best levels of each side. -/
def shown (exchange : Exchange) : Printed :=
  .book ((priceLevels (exchange.book .Buy)).take 10) ((priceLevels (exchange.book .Sell)).take 10)

/-- The order that would be taken next. -/
def numbered (exchange : Exchange) (side : Side) (price : Price) (qty : Quantity) : RestingOrder :=
  ⟨⟨UInt64.ofNat (exchange.taken + 1), price, qty, side⟩, exchange.taken⟩

/-- The exchange after an order that was taken. -/
def filled (exchange : Exchange) (order : RestingOrder) : Exchange :=
  { book := (exchange.book.process order).2, taken := exchange.taken + 1 }

/-- What is printed for an order that is taken. -/
def report (exchange : Exchange) (order : RestingOrder) (latency : UInt64) : List Printed :=
  (exchange.book.process order).1.map (fun trade => .trade trade.price trade.qty) ++
    [(exchange.filled order).shown, .latency latency]

/-- Take an order while there is room. -/
def submit (exchange : Exchange) (side : Side) (price : Price) (qty : Quantity) :
    (UInt64 -> List Printed) × Exchange :=
  if exchange.taken < poolCapacity then
    let order := exchange.numbered side price qty
    (exchange.report order, exchange.filled order)
  else (fun _ => [.err .poolExhausted], exchange)

/-- The answer to a line, for the time it takes, and the exchange after it. -/
def respond (arithmetic : Arithmetic) (exchange : Exchange) (line : Text) :
    (UInt64 -> List Printed) × Exchange :=
  if line = [] then (fun _ => [], exchange)
  else
    match parseCommand arithmetic line with
    | .clear => (fun _ => [opened.shown, .clearAck], opened)
    | .order side priceInput qtyInput =>
        if priceInput ≤ 0 ∨ qtyInput ≤ 0 then (fun _ => [.err .notPositive], exchange)
        else exchange.submit side (arithmetic.hundredths priceInput) (UInt64.ofInt qtyInput)
    | .malformed => (fun _ => [.err .invalidFormat], exchange)
    | .unknown command => (fun _ => [.err (.unknownCommand command)], exchange)

/-- The exchange as a machine that is given lines.  Its answer to a line waits
only for the measured latency. -/
def machine (arithmetic : Arithmetic) : Machine Exchange Text (UInt64 -> List Printed) where
  initial := opened
  respond := respond arithmetic

end Exchange

namespace LoopState

/-- The variables of the loop stand for an exchange: the engine holds its book, and
its orders have taken the first slots of the pool, one each. -/
structure Runs (state : LoopState) (exchange : Exchange) : Prop where
  sound : Exists fun layout => Exists fun live =>
    state.Sound layout ((List.range poolCapacity).drop exchange.taken) live ∧
      layout.orders state.engine.heap = exchange.book
  numbers : state.nextId = UInt64.ofNat (exchange.taken + 1)
  room : exchange.taken ≤ poolCapacity

section Runs

variable {state next : LoopState} {exchange : Exchange} {layout : Layout} {free live : List Nat}
  {printed : List Printed} {budget : Nat} {latency : UInt64}

theorem fresh_runs (heap : Heap) : (fresh heap).Runs .opened := by
  have all : (List.range poolCapacity).drop Exchange.opened.taken = List.range poolCapacity :=
    List.drop_zero
  refine ⟨⟨fun _ => [], [], ?_, rfl⟩, rfl, Nat.zero_le _⟩
  rw [all]
  exact fresh_sound heap

/-- A book that stands for an exchange is printed as the exchange shows it. -/
theorem printBook_eq {engine : Engine} (represents : engine.Represents layout)
    (same : layout.orders engine.heap = exchange.book) : printBook engine.book = exchange.shown := by
  have levels (side : Side) : topLevels (engine.book.levels side) =
      (priceLevels (exchange.book side)).take 10 := by
    rw [topLevels, List.map_take, represents.levels_eq, same]
  exact congrArg₂ Printed.book (levels .Buy) (levels .Sell)

/-- An order that was handed over with the first free slot. -/
theorem Sound.served {slot : Nat} {rest : List Nat} {pool : MemoryPool} {order : LimitOrder}
    {answer : List Trade × Engine} (sound : state.Sound layout (slot :: rest) live)
    (allocated : state.pool.allocate false = (.object slot, pool))
    (served : state.engine.serve budget (.submit slot order) = some answer) (nextId : OrderId) :
    Exists fun layout' => Sound ⟨answer.2, pool, nextId⟩ layout' rest (slot :: live) ∧
      (answer.1, layout'.orders answer.2.heap) =
        (layout.orders state.engine.heap).process { order with node := slot } := by
  rcases sound.partitioned.allocate with ⟨pool', allocated', partitioned, capacity⟩
  cases (Prod.mk.inj (allocated.symm.trans allocated')).2
  have distinct := sound.partitioned.whole.nodup_iff.mpr List.nodup_range
  have admits : state.engine.Admits (.submit slot order) := by
    intro rests
    rcases (sound.represents.resting_iff slot).mp rests with ⟨side, member⟩
    exact (List.nodup_cons.mp distinct).1 (List.mem_append_right rest (sound.within side slot member))
  rcases Engine.serve_spec sound.represents admits ⟨budget, served⟩ with ⟨layout', effect, meaning⟩
  refine ⟨layout', ⟨effect.represents, partitioned, capacity.trans sound.capacity, ?_⟩, meaning⟩
  intro side node member
  rcases effect.subset side node member with earlier | same
  · exact List.mem_cons_of_mem slot (sound.within side node earlier)
  · exact same ▸ List.mem_cons_self

/-- An order is taken as the exchange takes it: the pool has a slot exactly while
the count allows it, and the engine refines the book. -/
theorem Runs.submit (runs : state.Runs exchange) {side : Side} {price : Price} {qty : Quantity}
    (submitted : state.submit budget latency side price qty = some (printed, next)) :
    printed = (exchange.submit side price qty).1 latency ∧
      next.Runs (exchange.submit side price qty).2 := by
  rcases runs with ⟨⟨layout, live, sound, same⟩, numbers, room⟩
  rw [LoopState.submit] at submitted
  by_cases space : exchange.taken < poolCapacity
  · have first : (List.range poolCapacity).drop exchange.taken =
        exchange.taken :: (List.range poolCapacity).drop (exchange.taken + 1) := by
      rw [List.drop_eq_getElem_cons (by rw [List.length_range]; exact space), List.getElem_range]
    rw [first] at sound
    rcases sound.partitioned.allocate with ⟨pool, allocated, -, -⟩
    rw [allocated] at submitted
    rcases Option.map_eq_some_iff.mp submitted with ⟨answer, served, isAnswer⟩
    cases isAnswer
    rw [numbers] at served
    rcases sound.served allocated served (state.nextId + 1) with ⟨layout', after, meaning⟩
    rw [same] at meaning
    rw [Exchange.submit, if_pos space]
    have orders : layout'.orders answer.2.heap =
        (exchange.filled (exchange.numbered side price qty)).book := congrArg Prod.snd meaning
    constructor
    · have trades : answer.1 = (exchange.book.process (exchange.numbered side price qty)).1 :=
        congrArg Prod.fst meaning
      rw [printAnswer, printBook_eq after.represents orders, trades]
      rfl
    · refine ⟨⟨layout', _, after, orders⟩, ?_, space⟩
      have number := ofNat_add_word (exchange.taken + 1) 1
      rw [← numbers] at number
      exact number
  · have full : (List.range poolCapacity).drop exchange.taken = [] :=
      List.drop_eq_nil_of_le (by rw [List.length_range]; exact Nat.le_of_not_lt space)
    have exhausted := (full ▸ sound.partitioned).exhausted
    rw [exhausted] at submitted
    cases submitted
    rw [Exchange.submit, if_neg space]
    exact ⟨rfl, ⟨layout, live, sound, same⟩, numbers, room⟩

/-- A line is answered as the exchange answers it.  This is the step lemma of the
simulation; `Machine.Refines` carries it over runs. -/
theorem Runs.execute {arithmetic : Arithmetic} (runs : state.Runs exchange) {line : Text}
    (executed : state.execute arithmetic budget latency line = some (printed, next)) :
    printed = (exchange.respond arithmetic line).1 latency ∧
      next.Runs (exchange.respond arithmetic line).2 := by
  rw [LoopState.execute] at executed
  rw [Exchange.respond]
  by_cases empty : line = []
  · rw [if_pos empty] at executed ⊢
    cases executed
    exact ⟨rfl, runs⟩
  rw [if_neg empty] at executed ⊢
  cases isCommand : parseCommand arithmetic line with
  | clear =>
      rw [isCommand] at executed
      cases executed
      have cleared := fresh_runs state.engine.heap
      rcases cleared.sound with ⟨layout, live, sound, same⟩
      refine ⟨?_, cleared⟩
      rw [printBook_eq sound.represents same]
  | malformed =>
      rw [isCommand] at executed
      cases executed
      exact ⟨rfl, runs⟩
  | unknown command =>
      rw [isCommand] at executed
      cases executed
      exact ⟨rfl, runs⟩
  | order side priceInput qtyInput =>
      rw [isCommand] at executed
      dsimp only at executed ⊢
      by_cases refused : priceInput ≤ 0 ∨ qtyInput ≤ 0
      · rw [if_pos refused] at executed ⊢
        cases executed
        exact ⟨rfl, runs⟩
      · rw [if_neg refused] at executed ⊢
        exact runs.submit executed

end Runs
end LoopState
end NexusHft
