import NexusHft.Foundations.Transducer
import NexusHft.Web.BookText

namespace NexusHft

open Foundations

/-!
# The middleware

The handler of the `data` events on the output stream of the engine.  A chunk is
the text of one event.  It is taken apart into lines on its own; only the trades
that wait for their latency are kept from one chunk to the next.

All output is ASCII, so a chunk of bytes is a chunk of characters.  Lines that
are only written to the log emit nothing.
-/

/-- The words a line can begin with.  Any other line of the engine is ignored. -/
inductive Word where
  | book
  | trade
  | latency
  | clearAck
  deriving DecidableEq, Repr

def Word.spelling : Word -> String
  | book => "BOOK"
  | trade => "TRADE"
  | latency => "LATENCY"
  | clearAck => "CLEAR_ACK"

def Word.text (word : Word) : Text := word.spelling.toList

/-- A trade that was read and waits for the latency of its response. -/
structure PendingTrade where
  price : JsNumber
  qty : JsNumber
  deriving DecidableEq, Repr

/-- The events for the clients.  Trades are sent with the latency that ends their
response, all others as they are read. -/
inductive Emitted where
  | bookUpdate (payload : Json)
  | latency (nanoseconds : JsNumber)
  | trade (price qty latency : JsNumber)
  | cleared

/-- One line of a chunk: what is emitted, and the trades that are pending then. -/
def onLine (pending : List PendingTrade) (line : Text) : List Emitted × List PendingTrade :=
  let parts := split ' ' (trim line)
  if parts[0]? = some Word.book.text then
    match Json.parse (line.drop 5) with
    | some payload => ([.bookUpdate payload], pending)
    | none => ([], pending)
  else if parts[0]? = some Word.trade.text then
    ([], pending ++ [{ price := parseFloat parts[1]?, qty := parseInt parts[2]? }])
  else if parts[0]? = some Word.latency.text then
    let latency := parseInt parts[1]?
    (.latency latency :: pending.map (fun trade => .trade trade.price trade.qty latency), [])
  else if parts[0]? = some Word.clearAck.text then ([.cleared], pending)
  else ([], pending)

/-- One chunk. -/
def onData (pending : List PendingTrade) (chunk : Text) : List Emitted × List PendingTrade :=
  transduce onLine pending (split '\n' (trim chunk))

/-- Everything that is emitted for a sequence of chunks, from the start of the middleware. -/
def emitted (chunks : List Text) : List Emitted := (transduce onData [] chunks).1

/-! ## Readings -/

/-- What a line is read as, before it is known what is pending. -/
inductive Reading where
  | book (payload : Json)
  | trade (pendingTrade : PendingTrade)
  | latency (nanoseconds : JsNumber)
  | cleared

namespace Reading

def word : Reading -> Word
  | book _ => .book
  | trade _ => .trade
  | latency _ => .latency
  | cleared => .clearAck

def act (pending : List PendingTrade) : Reading -> List Emitted × List PendingTrade
  | book payload => ([.bookUpdate payload], pending)
  | trade pendingTrade => ([], pending ++ [pendingTrade])
  | latency nanoseconds =>
      (.latency nanoseconds ::
        pending.map (fun trade => .trade trade.price trade.qty nanoseconds), [])
  | cleared => ([.cleared], pending)

end Reading

def readLine (line : Text) : Option Reading :=
  let parts := split ' ' (trim line)
  if parts[0]? = some Word.book.text then (Json.parse (line.drop 5)).map .book
  else if parts[0]? = some Word.trade.text then
    some (.trade { price := parseFloat parts[1]?, qty := parseInt parts[2]? })
  else if parts[0]? = some Word.latency.text then some (.latency (parseInt parts[1]?))
  else if parts[0]? = some Word.clearAck.text then some .cleared
  else none

/-- A line acts through what it is read as. -/
theorem onLine_eq (pending : List PendingTrade) (line : Text) :
    onLine pending line = (readLine line).elim ([], pending) (Reading.act pending) := by
  unfold onLine readLine
  dsimp only
  split_ifs
  · cases Json.parse (line.drop 5) with
    | none => rfl
    | some payload => rfl
  all_goals rfl

/-- The readings of the lines of a chunk. -/
def readChunk (chunk : Text) : List Reading := (split '\n' (trim chunk)).filterMap readLine

/-- What is emitted depends only on the readings of all chunks together. -/
theorem emitted_eq (chunks : List Text) :
    emitted chunks = (transduce Reading.act [] (chunks.flatMap readChunk)).1 := by
  have chunked : onData = fun pending chunk => transduce Reading.act pending (readChunk chunk) := by
    funext pending chunk
    exact transduce_filterMap onLine_eq pending _
  rw [emitted, chunked, transduce_blocks]

/-- A line that is read begins with the word of what it is read as. -/
theorem begins_with_word {line : Text} {reading : Reading} (isReading : readLine line = some reading) :
    reading.word.text <+: trim line := by
  unfold readLine at isReading
  dsimp only at isReading
  split_ifs at isReading with book trade latency clearAck
  · rcases Option.map_eq_some_iff.mp isReading with ⟨payload, -, same⟩
    cases same
    exact head_of_split book
  · cases isReading
    exact head_of_split trade
  · cases isReading
    exact head_of_split latency
  · cases isReading
    exact head_of_split clearAck

/-- No two words begin alike. -/
theorem word_unique {first second : Word} {line : Text} (isFirst : first.text <+: line)
    (isSecond : second.text <+: line) : first = second := by
  have heads : first.text.head? = second.text.head? := by
    rcases isFirst with ⟨restFirst, whole⟩
    rcases isSecond with ⟨restSecond, same⟩
    have lines := congrArg List.head? (whole.trans same.symm)
    cases first <;> cases second <;> exact lines
  cases first <;> cases second <;> first | rfl | exact absurd heads (by decide)

/-! ## Events and readings

What has been emitted, with the trades that are still pending, has the readings
of each word in the order in which they were read.
-/

/-- The reading an event is emitted for. -/
def Emitted.source : Emitted -> Reading
  | bookUpdate payload => .book payload
  | latency nanoseconds => .latency nanoseconds
  | trade price qty _ => .trade { price := price, qty := qty }
  | cleared => .cleared

/-- The readings that begin with a word. -/
def ofWord (word : Word) (readings : List Reading) : List Reading :=
  readings.filter fun reading => reading.word = word

@[simp] theorem ofWord_append (word : Word) (front back : List Reading) :
    ofWord word (front ++ back) = ofWord word front ++ ofWord word back :=
  List.filter_append _ _

/-- Pending trades and a reading that is no trade can change places. -/
theorem ofWord_pending (word : Word) (pending : List PendingTrade) {reading : Reading}
    (noTrade : reading.word ≠ .trade) :
    ofWord word (reading :: pending.map .trade) =
      ofWord word (pending.map .trade ++ [reading]) := by
  rw [← List.singleton_append, ofWord_append, ofWord_append]
  by_cases same : reading.word = word
  · have none : ofWord word (pending.map .trade) = [] := by
      apply List.filter_eq_nil_iff.mpr
      intro other listed
      rcases List.mem_map.mp listed with ⟨trade, -, isTrade⟩
      rw [← isTrade, ← same, decide_eq_true_eq]
      exact fun trades => noTrade trades.symm
    rw [none, List.append_nil, List.nil_append]
  · have none : ofWord word [reading] = [] := by simp [ofWord, same]
    rw [none, List.append_nil, List.nil_append]

/-- One reading. -/
theorem act_ofWord (word : Word) (pending : List PendingTrade) (reading : Reading) :
    ofWord word ((reading.act pending).1.map Emitted.source ++ (reading.act pending).2.map .trade) =
      ofWord word (pending.map .trade ++ [reading]) := by
  cases reading with
  | trade trade =>
      rw [Reading.act, List.map_append]
      rfl
  | latency nanoseconds =>
      have sources : (pending.map fun trade => Emitted.trade trade.price trade.qty nanoseconds).map
          Emitted.source = pending.map .trade := by
        rw [List.map_map]
        rfl
      rw [Reading.act, List.map_cons, sources, List.map_nil, List.append_nil]
      exact ofWord_pending word pending Word.noConfusion
  | book payload => exact ofWord_pending word pending Word.noConfusion
  | cleared => exact ofWord_pending word pending Word.noConfusion

/-- A sequence of readings. -/
theorem transduce_ofWord (word : Word) (pending : List PendingTrade) (readings : List Reading) :
    ofWord word ((transduce Reading.act pending readings).1.map Emitted.source) ++
        ofWord word ((transduce Reading.act pending readings).2.map .trade) =
      ofWord word (pending.map .trade) ++ ofWord word readings := by
  induction readings generalizing pending with
  | nil => rw [transduce]; simp [ofWord]
  | cons reading readings inductionHypothesis =>
      have here := act_ofWord word pending reading
      rw [ofWord_append, ofWord_append] at here
      rw [transduce, List.map_append, ofWord_append, List.append_assoc, inductionHypothesis,
        ← List.append_assoc, here, List.append_assoc, ← ofWord_append, List.singleton_append]

end NexusHft
