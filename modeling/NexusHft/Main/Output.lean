import NexusHft.Foundations.Binary64
import NexusHft.Main.CommandLoop

namespace NexusHft

open Foundations

/-!
# The text the loop prints

A price is printed as `price / 100.0` with two decimals: the word is converted
to a double, divided, and the exact quotient of the division is rounded to
hundredths.  Every line ends with a newline; messages on the error stream do
not reach the reader of the output.
-/

/-- The hundredths that are printed for a price. -/
def printedHundredths (price : Price) : Nat :=
  let amount := (nearest price.toNat).bind fun value => nearest (value / 100)
  (roundHalfEven (100 * amount.getD 0)).toNat

/-- `std::fixed << std::setprecision(2)`. -/
def hundredthsText (hundredths : Nat) : Text :=
  digits (hundredths / 100) ++ ['.', digitChar (hundredths / 10 % 10), digitChar (hundredths % 10)]

def priceText (price : Price) : Text := hundredthsText (printedHundredths price)

def levelText (level : Price × Quantity) : Text :=
  '[' :: priceText level.1 ++ ',' :: digits level.2.toNat ++ [']']

/-- The levels with a comma before each but the first. -/
def levelsText : List (Price × Quantity) -> Text
  | [] => []
  | [level] => levelText level
  | level :: next :: rest => levelText level ++ ',' :: levelsText (next :: rest)

def bidsOpening : Text := "\x7b\"bids\":[".toList

def asksOpening : Text := "],\"asks\":[".toList

def bookClosing : Text := "]\x7d".toList

/-- What `print_book` writes after the word `BOOK` and a blank. -/
def bookText (bids asks : List (Price × Quantity)) : Text :=
  bidsOpening ++ levelsText bids ++ asksOpening ++ levelsText asks ++ bookClosing

def tradeOpening : Text := "TRADE ".toList

def bookOpening : Text := "BOOK ".toList

def latencyOpening : Text := "LATENCY ".toList

def clearAckText : Text := "CLEAR_ACK".toList

/-- A printed line without its newline. -/
def Printed.text : Printed -> Text
  | trade price qty => tradeOpening ++ priceText price ++ ' ' :: digits qty.toNat
  | book bids asks => bookOpening ++ bookText bids asks
  | latency nanoseconds => latencyOpening ++ digits nanoseconds.toNat
  | clearAck => clearAckText
  | err refusal => refusal.message.toList

/-- What the loop prints for one line that is answered on the output stream.  The
trades of a response stand before its book and its latency, which is what a reader
of the stream relies on. -/
inductive Response where
  | order (trades bids asks : List (Price × Quantity)) (latency : UInt64)
  | cleared (bids asks : List (Price × Quantity))
  deriving DecidableEq, Repr

def Response.lines : Response -> List Printed
  | order trades bids asks latency =>
      trades.map (fun trade => .trade trade.1 trade.2) ++ [.book bids asks, .latency latency]
  | cleared bids asks => [.book bids asks, .clearAck]

/-- The lines of a sequence of responses. -/
def linesOf (responses : List Response) : List Text :=
  responses.flatMap fun response => response.lines.map Printed.text

/-- The output stream of a sequence of responses. -/
def streamOf (responses : List Response) : Text :=
  (linesOf responses).flatMap fun line => line ++ ['\n']

/-- Whether a line is printed on the output stream. -/
def Printed.isOutput : Printed -> Bool
  | err _ => false
  | _ => true

/-- All that a run prints on the output stream. -/
def outputOf (past : List Handled) : Text :=
  ((past.flatMap Handled.printed).filter Printed.isOutput).flatMap fun printed =>
    printed.text ++ ['\n']

theorem isOutput_of_mem_lines {response : Response} {printed : Printed}
    (listed : printed ∈ response.lines) : printed.isOutput = true := by
  cases response with
  | order trades bids asks latency =>
      simp only [Response.lines, List.mem_append, List.mem_map, List.mem_cons,
        List.not_mem_nil, or_false] at listed
      rcases listed with ⟨trade, -, isTrade⟩ | isBook | isLatency
      · rw [← isTrade]
        rfl
      · rw [isBook]
        rfl
      · rw [isLatency]
        rfl
  | cleared bids asks =>
      rcases List.mem_cons.mp listed with isBook | isAck
      · rw [isBook]
        rfl
      · rw [List.mem_singleton.mp isAck]
        rfl

theorem streamOf_append (front back : List Response) :
    streamOf (front ++ back) = streamOf front ++ streamOf back := by
  rw [streamOf, linesOf, List.flatMap_append, List.flatMap_append]
  rfl

theorem streamOf_singleton (response : Response) :
    streamOf [response] = response.lines.flatMap fun printed => printed.text ++ ['\n'] := by
  rw [streamOf, linesOf, List.flatMap_singleton, List.flatMap_map]

end NexusHft
