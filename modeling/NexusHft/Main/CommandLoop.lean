import NexusHft.Core.MemoryPool
import NexusHft.Engine.Requests
import NexusHft.Main.InputStream

namespace NexusHft

open Foundations

/-!
# The command loop

`main` reads a line at a time and keeps an engine, a pool for its order nodes
and the next order id.  A node is named by its slot, and its contents are the
engine's memory at that slot.

The time an order takes is measured and only printed; it is given from outside.
What the loop prints is kept as data, in the order in which it is printed, the
messages on the error stream included.
-/

/-- What a line asks for, as far as the line alone tells it.  Whether the order's
numbers are positive and whether the pool has a slot is decided later. -/
inductive Command where
  | clear
  | order (side : Side) (priceInput : Rat) (qtyInput : Int)
  | malformed
  | unknown (command : Text)
  deriving DecidableEq, Repr

/-- The command for an order on a side. -/
def Side.word : Side -> Text
  | .Buy => "BUY".toList
  | .Sell => "SELL".toList

/-- Read the command word and, for an order, its price and quantity.  Text that
follows is not looked at. -/
def parseCommand (arithmetic : Arithmetic) (line : Text) : Command :=
  let word := extractWord line
  if word.1 = "CLEAR".toList then .clear
  else if word.1 = "BUY".toList ∨ word.1 = "SELL".toList then
    let side : Side := if word.1 = "BUY".toList then .Buy else .Sell
    match extractDouble arithmetic word.2 with
    | none => .malformed
    | some (priceInput, afterPrice) =>
        match extractInteger afterPrice with
        | none => .malformed
        | some (qtyInput, _) => .order side priceInput qtyInput
  else .unknown word.1

/-- The messages on the error stream, each for one way in which a line can fail.
-/
inductive Refusal where
  | notPositive
  | poolExhausted
  | invalidFormat
  | unknownCommand (command : Text)
  deriving DecidableEq, Repr

def Refusal.message : Refusal -> String
  | notPositive => "ERR Price and quantity must be positive"
  | poolExhausted => "ERR Memory pool exhausted"
  | invalidFormat => "ERR Invalid format"
  | unknownCommand command => "ERR Unknown command: " ++ String.ofList command

/-- A printed line.  Prices are kept as words here; `Printed.text` is the text
with its two decimals. -/
inductive Printed where
  | trade (price : Price) (qty : Quantity)
  | book (bids asks : List (Price × Quantity))
  | latency (nanoseconds : UInt64)
  | clearAck
  | err (refusal : Refusal)
  deriving DecidableEq, Repr

/-- The ten best levels of one side, as prices and volumes. -/
def topLevels {side : Side} (levels : Levels side) : List (Price × Quantity) :=
  (levels.entries.take 10).map (fun entry => (entry.1, entry.2.totalVolume))

def printBook (book : OrderBook) : Printed := .book (topLevels book.bids) (topLevels book.asks)

/-- The lines printed for an accepted order. -/
def printAnswer (latency : UInt64) (answer : List Trade × Engine) : List Printed :=
  answer.1.map (fun trade => .trade trade.price trade.qty) ++
    [printBook answer.2.book, .latency latency]

theorem err_not_mem_printAnswer {latency : UInt64} {answer : List Trade × Engine}
    {refusal : Refusal} : .err refusal ∉ printAnswer latency answer := by
  simp [printAnswer, printBook]

def poolCapacity : Nat := 1000000

/-- The variables of the loop: the engine, the pool of its nodes, and the id of
the next order.  `CLEAR` makes all three anew, on the same memory. -/
structure LoopState where
  engine : Engine
  pool : MemoryPool
  nextId : OrderId

namespace LoopState

/-- A new engine and a new pool, over whatever memory holds. -/
def fresh (heap : Heap) : LoopState where
  engine := { heap := heap }
  pool := MemoryPool.ofCapacity poolCapacity
  nextId := 1

/-- Allocate a node for the order and process it. -/
def submit (state : LoopState) (budget : Nat) (latency : UInt64) (side : Side) (price : Price)
    (qty : Quantity) : Option (List Printed × LoopState) :=
  match state.pool.allocate false with
  | (.object slot, pool) =>
      (state.engine.serve budget (.submit slot ⟨state.nextId, price, qty, side⟩)).map
        fun answer =>
          (printAnswer latency answer,
            { engine := answer.2, pool := pool, nextId := state.nextId + 1 })
  | (_, pool) => some ([.err .poolExhausted], { state with pool := pool })

/-- One pass of the loop: what a line prints, and the variables after it. -/
def execute (arithmetic : Arithmetic) (state : LoopState) (budget : Nat) (latency : UInt64)
    (line : Text) : Option (List Printed × LoopState) :=
  if line = [] then some ([], state)
  else
    match parseCommand arithmetic line with
    | .clear =>
        let cleared := fresh state.engine.heap
        some ([printBook cleared.engine.book, .clearAck], cleared)
    | .order side priceInput qtyInput =>
        if priceInput ≤ 0 ∨ qtyInput ≤ 0 then some ([.err .notPositive], state)
        else
          state.submit budget latency side (arithmetic.hundredths priceInput)
            (UInt64.ofInt qtyInput)
    | .malformed => some ([.err .invalidFormat], state)
    | .unknown command => some ([.err (.unknownCommand command)], state)

/-- The order that a line hands over to the engine, if the loop accepts it. -/
def accepted (arithmetic : Arithmetic) (state : LoopState) (line : Text) : Option LimitOrder :=
  match parseCommand arithmetic line with
  | .order side priceInput qtyInput =>
      if (priceInput ≤ 0 ∨ qtyInput ≤ 0) ∨ state.pool.freelistHead = none then none
      else some ⟨state.nextId, arithmetic.hundredths priceInput, UInt64.ofInt qtyInput, side⟩
  | _ => none

section Accepted

variable {arithmetic : Arithmetic} {state : LoopState} {line : Text}

/-- The order of a line is what the line was read as, if both of its numbers are
positive and a slot is free. -/
theorem accepted_iff {order : LimitOrder} : state.accepted arithmetic line = some order <->
    Exists fun priceInput => Exists fun qtyInput =>
      parseCommand arithmetic line = .order order.side priceInput qtyInput ∧
      (0 < priceInput ∧ 0 < qtyInput) ∧ state.pool.freelistHead ≠ none ∧
      order = ⟨state.nextId, arithmetic.hundredths priceInput, UInt64.ofInt qtyInput, order.side⟩ := by
  unfold accepted
  constructor
  · intro isAccepted
    split at isAccepted
    · rename_i side priceInput qtyInput isCommand
      split at isAccepted
      · cases isAccepted
      · rename_i positive
        rcases not_or.mp positive with ⟨numbers, available⟩
        rcases not_or.mp numbers with ⟨price, qty⟩
        cases isAccepted
        exact ⟨priceInput, qtyInput, isCommand, ⟨not_le.mp price, not_le.mp qty⟩, available, rfl⟩
    · cases isAccepted
  · rintro ⟨priceInput, qtyInput, isCommand, ⟨price, qty⟩, available, same⟩
    rw [isCommand]
    dsimp only
    rw [if_neg, ← same]
    rintro ((zero | zero) | none)
    · exact absurd zero (not_le.mpr price)
    · exact absurd zero (not_le.mpr qty)
    · exact available none

/-- What a line that is not empty leads to.  It clears the book, or its order is
handed over with the first free slot, or it has none and is answered by one
message on the error stream. -/
theorem execute_cases {budget : Nat} {latency : UInt64} {printed : List Printed}
    {next : LoopState} (nonempty : line ≠ [])
    (executed : state.execute arithmetic budget latency line = some (printed, next)) :
    (parseCommand arithmetic line = .clear ∧ next = fresh state.engine.heap ∧
      printed = [printBook next.engine.book, .clearAck]) ∨
    (Exists fun order => Exists fun slot => Exists fun pool => Exists fun answer =>
      state.accepted arithmetic line = some order ∧
      state.pool.allocate false = (.object slot, pool) ∧
      state.engine.serve budget (.submit slot order) = some answer ∧
      printed = printAnswer latency answer ∧ next = ⟨answer.2, pool, state.nextId + 1⟩) ∨
    (state.accepted arithmetic line = none ∧ parseCommand arithmetic line ≠ .clear ∧
      (Exists fun refusal => printed = [.err refusal]) ∧ next = state) := by
  rw [execute, if_neg nonempty] at executed
  cases isCommand : parseCommand arithmetic line with
  | clear =>
      rw [isCommand] at executed
      cases executed
      exact .inl ⟨rfl, rfl, rfl⟩
  | malformed =>
      rw [isCommand] at executed
      cases executed
      have noOrder : state.accepted arithmetic line = none := by rw [accepted, isCommand]
      exact .inr (.inr ⟨noOrder, Command.noConfusion, ⟨_, rfl⟩, rfl⟩)
  | unknown word =>
      rw [isCommand] at executed
      cases executed
      have noOrder : state.accepted arithmetic line = none := by rw [accepted, isCommand]
      exact .inr (.inr ⟨noOrder, Command.noConfusion, ⟨_, rfl⟩, rfl⟩)
  | order side priceInput qtyInput =>
      rw [isCommand] at executed
      dsimp only at executed
      by_cases refused : priceInput ≤ 0 ∨ qtyInput ≤ 0
      · rw [if_pos refused] at executed
        cases executed
        have noOrder : state.accepted arithmetic line = none := by
          rw [accepted, isCommand]
          exact if_pos (.inl refused)
        exact .inr (.inr ⟨noOrder, Command.noConfusion, ⟨_, rfl⟩, rfl⟩)
      rw [if_neg refused, submit] at executed
      rcases state.pool.allocate_cases with ⟨isEmpty, exhausted⟩ | ⟨available, slot, pool, allocated⟩
      · rw [exhausted] at executed
        cases executed
        have noOrder : state.accepted arithmetic line = none := by
          rw [accepted, isCommand]
          exact if_pos (.inr isEmpty)
        exact .inr (.inr ⟨noOrder, Command.noConfusion, ⟨_, rfl⟩, rfl⟩)
      · rw [allocated] at executed
        rcases Option.map_eq_some_iff.mp executed with ⟨answer, isAnswer, same⟩
        cases same
        rcases not_or.mp refused with ⟨price, qty⟩
        have isAccepted := (@accepted_iff _ _ _ ⟨_, _, _, side⟩).mpr
          ⟨priceInput, qtyInput, isCommand, ⟨not_le.mp price, not_le.mp qty⟩, available, rfl⟩
        exact .inr (.inl ⟨_, slot, pool, answer, isAccepted, allocated, isAnswer, rfl, rfl⟩)

theorem fresh_head (heap : Heap) : (fresh heap).pool.freelistHead ≠ none := by
  have pool : (fresh heap).pool = MemoryPool.ofCapacity poolCapacity := by simp only [fresh]
  rw [pool]
  exact MemoryPool.ofCapacity_head (by decide)

/-- A new pool has a node for the first order. -/
theorem fresh_accepted {side : Side} {priceInput : Rat} {qtyInput : Int} (heap : Heap)
    (isCommand : parseCommand arithmetic line = .order side priceInput qtyInput)
    (price : 0 < priceInput) (qty : 0 < qtyInput) :
    (fresh heap).accepted arithmetic line =
      some ⟨1, arithmetic.hundredths priceInput, UInt64.ofInt qtyInput, side⟩ :=
  accepted_iff.mpr ⟨priceInput, qtyInput, isCommand, ⟨price, qty⟩, fresh_head heap, rfl⟩

end Accepted

end LoopState

/-- A line with the states around it and what it printed.  A run of the process is
a list of these, so every claim about what it prints is one about such lists. -/
structure Handled where
  before : LoopState
  line : Text
  printed : List Printed
  after : LoopState

/-- The loop from its start, on memory of any content.  A step handles one line;
the budget only has to be large enough, and the measured latency may be any
number. -/
def commandLoop (arithmetic : Arithmetic) : LabelledSystem LoopState Handled where
  starts state := Exists fun heap => state = .fresh heap
  step state handled next := handled.before = state ∧ handled.after = next ∧
    Exists fun budget => Exists fun latency =>
      state.execute arithmetic budget latency handled.line = some (handled.printed, next)

end NexusHft
