import NexusHft.Web.ChunkedDecoding

namespace NexusHft

open Foundations

/-!
# The dashboard

The state of the page: the book it was last sent, the last ten trades with the
newest first, and the last latency.  Each kind of event has its handler.

What a page displays after the events of some responses is read from the
responses: the book of the last one, the trades since the book was last cleared,
and the latency of the last order since then.  A page that has missed the
beginning displays the same as soon as it has seen the book cleared.
-/

/-- A trade in the list of a page, with the latency of the response it came with.
-/
structure ShownTrade where
  price : JsNumber
  qty : JsNumber
  latency : JsNumber
  deriving DecidableEq, Repr

/-- The state of a page: the book it was sent last, the last ten trades, newest
first, and the latest latency, if it has seen one. -/
@[ext] structure Dashboard where
  bookData : Json
  trades : List ShownTrade
  latency : Option JsNumber

namespace Dashboard

/-- The page when it is opened. -/
def opened : Dashboard where
  bookData := Json.bookJson [] []
  trades := []
  latency := none

/-- The handlers of the events. -/
def handle (view : Dashboard) : Emitted -> Dashboard
  | .bookUpdate data => { view with bookData := data }
  | .trade price qty latency => { view with trades := (⟨price, qty, latency⟩ :: view.trades).take 10 }
  | .latency nanoseconds => { view with latency := some nanoseconds }
  | .cleared => { view with trades := [], latency := none }

def handleAll (view : Dashboard) (events : List Emitted) : Dashboard := events.foldl handle view

@[simp] theorem handleAll_nil (view : Dashboard) : view.handleAll [] = view := rfl

@[simp] theorem handleAll_cons (view : Dashboard) (event : Emitted) (events : List Emitted) :
    view.handleAll (event :: events) = (view.handle event).handleAll events := rfl

theorem handleAll_append (view : Dashboard) (front back : List Emitted) :
    view.handleAll (front ++ back) = (view.handleAll front).handleAll back := List.foldl_append

end Dashboard

/-! ## Responses -/

namespace Response

/-- The book that a response displays. -/
def bookData : Response -> Json
  | order _ bids asks _ => Json.bookJson bids asks
  | cleared bids asks => Json.bookJson bids asks

def shownTrades : Response -> List ShownTrade
  | order trades _ _ latency => trades.map fun trade =>
      ⟨Json.priceNumber trade.1, Json.qtyNumber trade.2, .ofRat latency.toNat⟩
  | cleared _ _ => []

def shownLatency : Response -> Option JsNumber
  | order _ _ _ latency => some (.ofRat latency.toNat)
  | cleared _ _ => none

def isOrder : Response -> Bool
  | order _ _ _ _ => true
  | cleared _ _ => false

end Response

/-- The answers to orders since the book was last cleared, the newest first. -/
def recentOrders (responses : List Response) : List Response :=
  responses.reverse.takeWhile Response.isOrder

theorem recentOrders_concat (responses : List Response) (response : Response) :
    recentOrders (responses ++ [response]) =
      if response.isOrder then response :: recentOrders responses else [] := by
  rw [recentOrders, List.reverse_append, List.reverse_singleton, List.singleton_append,
    List.takeWhile_cons]
  rfl

namespace Dashboard

/-- What is to be displayed after some responses. -/
def showing (responses : List Response) : Dashboard where
  bookData := (responses.getLast?.map Response.bookData).getD (Json.bookJson [] [])
  trades := ((recentOrders responses).flatMap fun response => response.shownTrades.reverse).take 10
  latency := (recentOrders responses).head?.bind Response.shownLatency

section Fold

variable (view : Dashboard)

/-- Trades are put in front one after another. -/
theorem handleAll_trades (trades : List ShownTrade) :
    view.handleAll (trades.map fun trade => .trade trade.price trade.qty trade.latency) =
      { view with trades := if trades = [] then view.trades
        else (trades.reverse ++ view.trades).take 10 } := by
  induction trades generalizing view with
  | nil => rfl
  | cons trade trades inductionHypothesis =>
      rw [List.map_cons, handleAll_cons, inductionHypothesis, if_neg (List.cons_ne_nil _ _)]
      by_cases last : trades = []
      · rw [last]
        rfl
      · have front : (trades.reverse ++ (trade :: view.trades).take 10).take 10 =
            (trades.reverse ++ trade :: view.trades).take 10 := by
          rw [List.take_append, List.take_append, List.take_take, Nat.min_eq_left (Nat.sub_le _ _)]
        rw [if_neg last]
        simp only [handle]
        rw [front, List.reverse_cons, List.append_assoc, List.singleton_append]

/-- The page after the events of one response. -/
theorem handleAll_events (few : view.trades.length ≤ 10) (response : Response) :
    view.handleAll response.events =
      { bookData := response.bookData
        trades := if response.isOrder then (response.shownTrades.reverse ++ view.trades).take 10 else []
        latency := response.shownLatency } := by
  cases response with
  | cleared bids asks => rfl
  | order trades bids asks latency =>
      have asTrades : (trades.map fun trade => Emitted.trade (Json.priceNumber trade.1)
          (Json.qtyNumber trade.2) (.ofRat latency.toNat)) =
          ((Response.order trades bids asks latency).shownTrades.map fun trade =>
            .trade trade.price trade.qty trade.latency) := by
        rw [Response.shownTrades, List.map_map]
        rfl
      rw [Response.events, asTrades, handleAll_cons, handleAll_cons, handleAll_trades]
      by_cases none : (Response.order trades bids asks latency).shownTrades = []
      · rw [if_pos none, none]
        simp only [handle, Response.isOrder, if_true, List.reverse_nil, List.nil_append]
        rw [List.take_of_length_le few]
        rfl
      · rw [if_neg none]
        rfl

end Fold

theorem showing_concat (responses : List Response) (response : Response) :
    showing (responses ++ [response]) =
      { bookData := response.bookData
        trades := if response.isOrder then
            (response.shownTrades.reverse ++ (showing responses).trades).take 10 else []
        latency := response.shownLatency } := by
  rw [showing, recentOrders_concat, List.getLast?_concat]
  cases response with
  | cleared bids asks => rfl
  | order trades bids asks latency =>
      simp only [Response.isOrder, if_true, List.flatMap_cons, List.head?_cons]
      congr 1
      rw [List.take_append, List.take_append, showing, List.take_take,
        Nat.min_eq_left (Nat.sub_le _ _)]

/-- An opened page displays what is to be displayed. -/
theorem handleAll_responses (responses : List Response) :
    opened.handleAll (responses.flatMap Response.events) = showing responses := by
  induction responses using List.reverseRecOn with
  | nil => rfl
  | append_singleton responses response inductionHypothesis =>
      rw [List.flatMap_append, List.flatMap_singleton, handleAll_append, inductionHypothesis,
        handleAll_events _ (List.length_take_le 10 _), showing_concat]

end Dashboard

/-! ## Pages that have missed the beginning -/

/-- The book that an event brings. -/
def Emitted.bookData : Emitted -> Option Json
  | bookUpdate data => some data
  | _ => none

namespace Dashboard

variable {view other : Dashboard}

/-- The book is the one that was sent last. -/
theorem bookData_handleAll (view : Dashboard) (events : List Emitted) :
    (view.handleAll events).bookData = (events.filterMap Emitted.bookData).getLast?.getD view.bookData := by
  induction events using List.reverseRecOn with
  | nil => rfl
  | append_singleton events event inductionHypothesis =>
      rw [handleAll_append, List.filterMap_append]
      cases event with
      | bookUpdate data =>
          have here : [Emitted.bookUpdate data].filterMap Emitted.bookData = [data] := rfl
          rw [here, List.getLast?_concat]
          rfl
      | trade price qty latency | latency nanoseconds | cleared =>
          exact inductionHypothesis.trans
            (congrArg (fun books => books.getLast?.getD view.bookData) (List.append_nil _).symm)

/-- Two pages that have seen the book cleared together differ in the book at most. -/
theorem handleAll_of_cleared {events : List Emitted} (seen : .cleared ∈ events) :
    (view.handleAll events).trades = (other.handleAll events).trades ∧
      (view.handleAll events).latency = (other.handleAll events).latency := by
  rcases List.append_of_mem seen with ⟨front, back, same⟩
  have cleared (page : Dashboard) : page.handleAll events =
      (Dashboard.mk (page.handleAll front).bookData [] none).handleAll back := by
    rw [same, handleAll_append]
    rfl
  have alike (events : List Emitted) (left right : Json) (trades : List ShownTrade)
      (latency : Option JsNumber) :
      ((Dashboard.mk left trades latency).handleAll events).trades =
          ((Dashboard.mk right trades latency).handleAll events).trades ∧
        ((Dashboard.mk left trades latency).handleAll events).latency =
          ((Dashboard.mk right trades latency).handleAll events).latency := by
    induction events generalizing left right trades latency with
    | nil => exact ⟨rfl, rfl⟩
    | cons event events inductionHypothesis =>
        cases event <;> exact inductionHypothesis _ _ _ _
  rw [cleared view, cleared other]
  exact alike back _ _ [] none

end Dashboard
end NexusHft
