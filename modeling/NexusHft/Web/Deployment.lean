import NexusHft.Main.ExchangeRuns
import NexusHft.Main.Responses
import NexusHft.Main.StrictCommands
import NexusHft.Web.Dashboard
import NexusHft.Web.SubmitOrder

namespace NexusHft

open Foundations

/-!
# The deployment

The pages, the middleware and the engine, with everything that is on its way
between them: the text that was written to the engine and that it has not read
yet, the text that it has printed and that the middleware has not been given yet,
and for every page the events that have not reached it.

Each party moves when it can, in any order.  The engine takes one line, the
middleware is given any beginning of the text that is ready for it, and a page
handles the first event that is on its way to it.  A page can lose its
connection, and everything that was on its way with it; it keeps what it displays
until it is reloaded.
-/

/-- A browser: whether its socket is connected, the events that are on their way
to it, and what its page shows. -/
structure Client where
  connected : Bool
  inbox : List Emitted
  view : Dashboard

namespace Client

/-- A page that is not connected yet. -/
def opened : Client := { connected := false, inbox := [], view := .opened }

/-- `io.emit`: the events are sent to every page that is connected. -/
def sent (client : Client) (events : List Emitted) : Client :=
  if client.connected then { client with inbox := client.inbox ++ events } else client

/-- What the page will display when everything has arrived that is on its way. -/
def due (client : Client) : Dashboard := client.view.handleAll client.inbox

end Client

/-- Pages are told apart by a number. -/
abbrev Socket := Nat

/-- The whole system: the engine process, the two pipes between it and the
middleware, what the middleware has pending, and the clients of every socket. -/
structure Deployment where
  engine : LoopState
  stdin : Text
  stdout : Text
  pending : List PendingTrade
  clients : Socket -> Client

/-- What can happen, with what is seen of it.  Anything may happen at any time:
the parties share nothing but the pipes and the sockets. -/
inductive Happening where
  | submitOrder (socket : Socket) (order : Json)
  | clearBook (socket : Socket)
  | execute (handled : Handled)
  | data (chunk : Text)
  | connect (socket : Socket)
  | disconnect (socket : Socket)
  | reload (socket : Socket)
  | receive (socket : Socket)

def clearLine : Text := "CLEAR\n".toList

namespace Deployment

/-- One page becomes another. -/
def withClient (state : Deployment) (socket : Socket) (client : Client) : Deployment :=
  { state with clients := Function.update state.clients socket client }

/-- The handlers of the middleware and of the pages, and the loop of the engine. -/
def Moves (arithmetic : Arithmetic) (state : Deployment) (next : Deployment) : Happening -> Prop
  | .submitOrder socket order => (state.clients socket).connected = true ∧
      -- an exception in the handler would end the middleware
      Exists fun text => order.submitOrder = some text ∧
        next = { state with stdin := state.stdin ++ text }
  | .clearBook socket => (state.clients socket).connected = true ∧
      next = { state with stdin := state.stdin ++ clearLine }
  | .execute handled => handled.before = state.engine ∧ '\n' ∉ handled.line ∧
      (Exists fun budget => Exists fun latency =>
        state.engine.execute arithmetic budget latency handled.line =
          some (handled.printed, handled.after)) ∧
      Exists fun rest => state.stdin = handled.line ++ '\n' :: rest ∧
        next = { state with
          engine := handled.after, stdin := rest, stdout := state.stdout ++ outputOf [handled] }
  | .data chunk => chunk ≠ [] ∧ Exists fun rest => state.stdout = chunk ++ rest ∧
      next = { state with
        stdout := rest
        pending := (onData state.pending chunk).2
        clients := fun socket => (state.clients socket).sent (onData state.pending chunk).1 }
  | .connect socket => (state.clients socket).connected = false ∧
      next = state.withClient socket { state.clients socket with connected := true, inbox := [] }
  | .disconnect socket => (state.clients socket).connected = true ∧
      next = state.withClient socket { state.clients socket with connected := false, inbox := [] }
  | .reload socket => next = state.withClient socket .opened
  | .receive socket => Exists fun event => Exists fun rest =>
      (state.clients socket).inbox = event :: rest ∧
        next = state.withClient socket { state.clients socket with
          inbox := rest, view := (state.clients socket).view.handle event }

def starting (heap : Heap) : Deployment where
  engine := .fresh heap
  stdin := []
  stdout := []
  pending := []
  clients := fun _ => .opened

/-- The deployment from its start.  Runs are interleavings of what the clients,
the middleware and the engine do, with the output cut into chunks anywhere. -/
def system (arithmetic : Arithmetic) : LabelledSystem Deployment Happening where
  starts state := Exists fun heap => state = starting heap
  step state happening next := state.Moves arithmetic next happening

end Deployment

/-- The levels of the book that are displayed, as they are sent to the pages. -/
def OrderBook.bookData (book : OrderBook) : Json :=
  Json.bookJson (topLevels book.bids) (topLevels book.asks)

def Exchange.bookData (exchange : Exchange) : Json :=
  Json.bookJson ((priceLevels (exchange.book .Buy)).take 10)
    ((priceLevels (exchange.book .Sell)).take 10)

theorem LoopState.Runs.bookData_eq {state : LoopState} {exchange : Exchange}
    (runs : state.Runs exchange) : state.engine.book.bookData = exchange.bookData := by
  rcases runs.sound with ⟨layout, live, sound, same⟩
  rcases Printed.book.inj (printBook_eq sound.represents same) with ⟨bids, asks⟩
  rw [OrderBook.bookData, Exchange.bookData, bids, asks]

/-! ## What a run has done -/

namespace Happening

/-- What is written to the engine. -/
def written : Happening -> Text
  | submitOrder _ order => order.written
  | clearBook _ => clearLine
  | _ => []

def handled : Happening -> Option Handled
  | execute handled => some handled
  | _ => none

def chunk : Happening -> Option Text
  | data chunk => some chunk
  | _ => none

end Happening

/-- The lines that the engine has handled. -/
def handledOf (past : List Happening) : List Handled := past.filterMap Happening.handled

/-- The chunks that the middleware was given. -/
def chunksOf (past : List Happening) : List Text := past.filterMap Happening.chunk

/-- The lines of a text, each of which ends with a newline. -/
def linesIn (text : Text) : List Text := (split '\n' text).dropLast

/-- The lines that were written, in the order in which they were. -/
def linesWritten (past : List Happening) : List Text :=
  past.flatMap fun happening => linesIn happening.written

/-- A text that is empty or ends with a newline. -/
def WholeText (text : Text) : Prop := text = [] ∨ Exists fun front => text = front ++ ['\n']

section Lines

theorem linesIn_cons {line : Text} (absent : '\n' ∉ line) (rest : Text) :
    linesIn (line ++ '\n' :: rest) = line :: linesIn rest := by
  rw [linesIn, split_append_separator absent, List.dropLast_cons_of_ne_nil (split_ne_nil _ _)]
  rfl

theorem linesIn_append {front : Text} (whole : WholeText front) (back : Text) :
    linesIn (front ++ back) = linesIn front ++ linesIn back := by
  rcases whole with empty | ⟨text, isText⟩
  · rw [empty]
    rfl
  · have alone : linesIn (text ++ ['\n']) = split '\n' text := by
      rw [linesIn, split_append, split_of_not_mem List.not_mem_nil, List.dropLast_concat]
    rw [isText, alone, List.append_assoc, List.singleton_append, linesIn, split_append,
      List.dropLast_append_of_ne_nil (split_ne_nil _ _)]
    rfl

theorem WholeText.append {front back : Text} (whole : WholeText front) (whole' : WholeText back) :
    WholeText (front ++ back) := by
  rcases whole' with empty | ⟨text, isText⟩
  · rw [empty, List.append_nil]
    exact whole
  · exact .inr ⟨front ++ text, by rw [isText, List.append_assoc]⟩

/-- What is left of a whole text is whole. -/
theorem WholeText.rest {front back : Text} (whole : WholeText (front ++ back)) : WholeText back := by
  rcases List.eq_nil_or_concat back with empty | ⟨init, last, isBack⟩
  · exact .inl empty
  · rcases whole with empty | ⟨text, isText⟩
    · exact .inl (List.append_eq_nil_iff.mp empty).2
    · rw [isBack, List.concat_eq_append, ← List.append_assoc] at isText
      rw [isBack, List.concat_eq_append, List.singleton_inj.mp (List.append_inj' isText rfl).2]
      exact .inr ⟨init, rfl⟩

/-- The first line of a whole text. -/
theorem WholeText.first {text : Text} (whole : WholeText text) (some : text ≠ []) :
    Exists fun line => Exists fun rest => '\n' ∉ line ∧ text = line ++ '\n' :: rest := by
  rcases whole with empty | ⟨front, isText⟩
  · exact absurd empty some
  · have present : '\n' ∈ text := by
      rw [isText]
      exact List.mem_append_right front List.mem_cons_self
    rcases List.eq_append_cons_of_mem present with ⟨line, rest, same, absent⟩
    exact ⟨line, rest, absent, same⟩

theorem Json.written_whole (order : Json) : WholeText order.written := by
  rw [written, submitOrder]
  cases order.admits with
  | none => exact .inl rfl
  | some passed =>
      cases passed with
      | false => exact .inl rfl
      | true =>
          cases order.orderLine with
          | none => exact .inl rfl
          | some line => exact .inr ⟨line, rfl⟩

theorem Happening.written_whole (happening : Happening) : WholeText happening.written := by
  cases happening with
  | submitOrder socket order => exact order.written_whole
  | clearBook socket => exact .inr ⟨"CLEAR".toList, rfl⟩
  | execute | data | connect | disconnect | reload | receive => exact .inl rfl

theorem outputOf_whole (past : List Handled) : WholeText (outputOf past) := by
  rw [outputOf]
  induction (past.flatMap Handled.printed).filter Printed.isOutput with
  | nil => exact .inl rfl
  | cons printed rest inductionHypothesis =>
      rw [List.flatMap_cons]
      exact WholeText.append (.inr ⟨printed.text, rfl⟩) inductionHypothesis

end Lines
end NexusHft
