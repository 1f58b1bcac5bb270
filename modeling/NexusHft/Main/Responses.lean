import NexusHft.Main.Output

namespace NexusHft

open Foundations

/-!
# The responses of a run

Each line is answered by one response on the output stream, or by none.  The
output of a run is the stream of its responses, and the last of them displays
the book as it is: what is not answered on the output stream changes nothing.
-/

def Printed.tradeOf : Printed -> Option (Price × Quantity)
  | trade price qty => some (price, qty)
  | _ => none

namespace Response

/-- The response that was printed for a line, if there is one. -/
def ofPrinted (printed : List Printed) : Option Response :=
  match printed.reverse with
  | .latency nanoseconds :: .book bids asks :: trades =>
      some (.order (trades.reverse.filterMap Printed.tradeOf) bids asks nanoseconds)
  | [.clearAck, .book bids asks] => some (.cleared bids asks)
  | _ => none

theorem ofPrinted_lines (response : Response) : ofPrinted response.lines = some response := by
  cases response with
  | cleared bids asks => rfl
  | order trades bids asks latency =>
      have back : (trades.map fun trade => Printed.trade trade.1 trade.2).filterMap
          Printed.tradeOf = trades := by
        rw [List.filterMap_map]
        exact List.filterMap_some
      rw [ofPrinted, lines, List.reverse_append]
      change some (order ((trades.map fun trade => Printed.trade trade.1 trade.2).reverse.reverse.filterMap
        Printed.tradeOf) bids asks latency) = _
      rw [List.reverse_reverse, back]

/-- The levels a response displays. -/
def bids : Response -> List (Price × Quantity)
  | order _ bids _ _ => bids
  | cleared bids _ => bids

def asks : Response -> List (Price × Quantity)
  | order _ _ asks _ => asks
  | cleared _ asks => asks

end Response

/-- The responses to the lines that have been handled. -/
def responsesOf (past : List Handled) : List Response :=
  past.filterMap fun handled => Response.ofPrinted handled.printed

theorem responsesOf_append (front back : List Handled) :
    responsesOf (front ++ back) = responsesOf front ++ responsesOf back := List.filterMap_append

theorem responsesOf_singleton (handled : Handled) :
    responsesOf [handled] = (Response.ofPrinted handled.printed).toList := by
  cases found : Response.ofPrinted handled.printed with
  | none => exact List.filterMap_cons_none found
  | some response => exact List.filterMap_cons_some found

theorem outputOf_append (front back : List Handled) :
    outputOf (front ++ back) = outputOf front ++ outputOf back := by
  rw [outputOf, List.flatMap_append, List.filter_append, List.flatMap_append]
  rfl

theorem outputOf_singleton (handled : Handled) :
    outputOf [handled] = (handled.printed.filter Printed.isOutput).flatMap fun printed =>
      printed.text ++ ['\n'] := by
  rw [outputOf, List.flatMap_singleton]

section Runs

variable {arithmetic : Arithmetic} {state next : LoopState} {budget : Nat} {latency : UInt64}
  {line : Text} {printed : List Printed}

/-- A line has a response that displays the book it leaves, or none and it changes
nothing. -/
theorem LoopState.execute_response
    (executed : state.execute arithmetic budget latency line = some (printed, next)) :
    (Exists fun response => printed = Response.lines response ∧
      printBook next.engine.book = .book response.bids response.asks) ∨
    (Response.ofPrinted printed = none ∧ printed.filter Printed.isOutput = [] ∧ next = state) := by
  by_cases empty : line = []
  · rw [execute, if_pos empty] at executed
    cases executed
    exact .inr ⟨rfl, rfl, rfl⟩
  rcases execute_cases empty executed with
    ⟨-, -, isPrinted⟩ | ⟨order, slot, pool, answer, -, -, -, isPrinted, isNext⟩ |
    ⟨-, -, ⟨refusal, isPrinted⟩, same⟩
  · exact .inl ⟨.cleared (topLevels next.engine.book.bids) (topLevels next.engine.book.asks),
      isPrinted, rfl⟩
  · refine .inl ⟨.order (answer.1.map fun trade => (trade.price, trade.qty))
      (topLevels next.engine.book.bids) (topLevels next.engine.book.asks) latency, ?_, rfl⟩
    rw [isPrinted, isNext, printAnswer, Response.lines, List.map_map]
    rfl
  · rw [isPrinted]
    exact .inr ⟨rfl, rfl, same⟩

variable {past : List Handled}

/-- The output of a run is the stream of its responses. -/
theorem outputOf_eq (run : (commandLoop arithmetic).Run past state) :
    outputOf past = streamOf (responsesOf past) := by
  induction run with
  | start _ => rfl
  | @step past state next handled _ moved inductionHypothesis =>
      rcases moved with ⟨-, -, budget, latency, executed⟩
      rw [outputOf_append, inductionHypothesis, responsesOf_append, streamOf_append,
        responsesOf_singleton, outputOf_singleton]
      congr 1
      rcases LoopState.execute_response executed with ⟨response, responds, -⟩ | ⟨none, silent, -⟩
      · rw [responds, response.ofPrinted_lines, Option.toList_some, streamOf_singleton,
          List.filter_eq_self.mpr (fun _ listed => isOutput_of_mem_lines listed)]
      · rw [none, silent]
        rfl

/-- The last response displays the book as it is; where there is none, the book is empty. -/
theorem last_response (run : (commandLoop arithmetic).Run past state) :
    printBook state.engine.book = .book
      (((responsesOf past).getLast?.map Response.bids).getD [])
      (((responsesOf past).getLast?.map Response.asks).getD []) := by
  induction run with
  | start begins =>
      rcases begins with ⟨heap, isFresh⟩
      rw [isFresh]
      rfl
  | @step past state next handled _ moved inductionHypothesis =>
      rcases moved with ⟨-, -, budget, latency, executed⟩
      rw [responsesOf_append, responsesOf_singleton]
      rcases LoopState.execute_response executed with ⟨response, responds, displays⟩ | ⟨none, -, same⟩
      · rw [responds, response.ofPrinted_lines, Option.toList_some, List.getLast?_concat]
        exact displays
      · rw [none, Option.toList_none, List.append_nil, same]
        exact inductionHypothesis

end Runs
end NexusHft
