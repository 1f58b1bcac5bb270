import NexusHft.Engine.BookOperations
import NexusHft.Foundations.LabelledRun

namespace NexusHft

open Foundations

/-!
# Runs of the engine

A request names the node it is about.  Submitting constructs the order in the
node's memory first, so a node may carry several orders in turn, but never
while it rests.  A run starts from the empty book with any contents of memory
and records, for each request, the engine that received it and the trades it
returned.

`serve_spec` is the one description of a step: what it does to the represented
book, to memory, and to the priority book.  Every property of runs is derived
from it.
-/

/-- What can be asked of the engine.  A submission brings the node and what its
memory says of the order; the other two name a node, as the source does. -/
inductive Request where
  | submit (node : OrderPtr) (order : LimitOrder)
  | cancel (node : OrderPtr)
  | reduce (node : OrderPtr) (newQty : Quantity)
  deriving DecidableEq, Repr

def Request.node : Request -> OrderPtr
  | submit node _ => node
  | cancel node => node
  | reduce node _ => node

/-- A request as it was answered: the engine it was asked of, and the trades.
Runs are lists of these, so what was asked before can be counted and named. -/
structure Served where
  before : Engine
  request : Request
  trades : List Trade

/-- The meaning of a request on the priority book. -/
def PriorityBook.serve (book : PriorityBook) : Request -> List Trade × PriorityBook
  | .submit node order => book.process { order with node := node }
  | .cancel node => ([], book.cancel node)
  | .reduce node newQty => ([], book.reduce node newQty)

/-- The book that a sequence of requests leaves of an empty one.  An order is in it as far
back in its queue as it came to rest. -/
def PriorityBook.afterRequests (requests : List Request) : PriorityBook :=
  requests.foldl (fun book request => (book.serve request).2) fun _ => []

theorem PriorityBook.afterRequests_concat (requests : List Request) (request : Request) :
    afterRequests (requests ++ [request]) = ((afterRequests requests).serve request).2 := by
  rw [afterRequests, List.foldl_append]
  rfl

namespace Engine

/-- The engine at the time of the call: a submitted order has been constructed. -/
def prepared (engine : Engine) : Request -> Engine
  | .submit node order => { engine with heap := engine.heap.construct node order }
  | .cancel _ => engine
  | .reduce _ _ => engine

def serve (budget : Nat) (engine : Engine) (request : Request) : Option (List Trade × Engine) :=
  match request with
  | .submit node _ => (engine.prepared request).processLimitOrder budget node
  | .cancel node => some ([], engine.cancelOrder node)
  | .reduce node newQty => some ([], engine.reduceOrder node newQty)

/-- The request is answered, by some number of passes of the loops. -/
def Answers (engine : Engine) (request : Request) (trades : List Trade) (next : Engine) : Prop :=
  Exists fun budget => engine.serve budget request = some (trades, next)

/-- Orders are submitted on nodes that do not rest; only resting orders are
cancelled or reduced. -/
def Admits (engine : Engine) : Request -> Prop
  | .submit node _ => ¬ engine.Resting node
  | .cancel node => engine.Resting node
  | .reduce node _ => engine.Resting node

/-- The engine from the empty book on.  A label is a request together with the engine that
served it and the trades of its answer, so that what a run has answered can be read
from its labels. -/
def system : LabelledSystem Engine Served where
  starts engine := engine.book = {}
  step engine served next :=
    served.before = engine ∧ engine.Admits served.request ∧
      engine.Answers served.request served.trades next

/-- The requests that are served from a given engine on. -/
def systemFrom (engine : Engine) : LabelledSystem Engine Served :=
  { system with starts := fun start => start = engine }

/-! ## Answers do not depend on the budget -/

theorem matchLevel_mono {side : Side} {stops : Price -> Price -> Bool} {budget more : Nat}
    (le : budget ≤ more) {incoming : OrderPtr} {state : Matching} {answer : ForInStep Matching}
    (returned : matchLevel side stops budget incoming state = some answer) :
    matchLevel side stops more incoming state = some answer := by
  unfold matchLevel at returned ⊢
  by_cases remains : (state.engine.heap incoming).qty > 0
  · simp only [if_pos remains] at returned ⊢
    cases first : (state.engine.book.levels side).first with
    | none =>
        rw [first] at returned
        exact returned
    | some entry =>
        rw [first] at returned
        by_cases stopped : stops entry.2.price (state.engine.heap incoming).price = true
        · simp only [if_pos stopped] at returned ⊢
          exact returned
        · simp only [if_neg stopped] at returned ⊢
          cases walked : BoundedLoop.run (fillResting incoming) budget
              { heap := state.engine.heap, level := entry.2, trades := state.trades,
                resting := entry.2.orders.head } with
          | none =>
              rw [walked] at returned
              cases returned
          | some final =>
              rw [walked] at returned
              rw [BoundedLoop.run_mono (fun _ _ same => same) le walked]
              exact returned
  · simp only [if_neg remains] at returned ⊢
    exact returned

theorem processLimitOrder_mono {budget more : Nat} (le : budget ≤ more) {engine : Engine}
    {incoming : OrderPtr} {answer : List Trade × Engine}
    (returned : engine.processLimitOrder budget incoming = some answer) :
    engine.processLimitOrder more incoming = some answer := by
  rw [processLimitOrder_eq, matchAgainst] at returned ⊢
  rcases Option.map_eq_some_iff.mp returned with ⟨final, ran, rested⟩
  rw [BoundedLoop.run_mono (fun _ _ same => matchLevel_mono le same) le ran, Option.map_some,
    rested]

theorem serve_mono {budget more : Nat} (le : budget ≤ more) {engine : Engine} {request : Request}
    {answer : List Trade × Engine} (returned : engine.serve budget request = some answer) :
    engine.serve more request = some answer := by
  cases request with
  | submit node order => exact processLimitOrder_mono le returned
  | cancel node => exact returned
  | reduce node newQty => exact returned

theorem Answers.unique {engine next next' : Engine} {request : Request}
    {trades trades' : List Trade} (first : engine.Answers request trades next)
    (second : engine.Answers request trades' next') : trades = trades' ∧ next = next' := by
  rcases first with ⟨budget, served⟩
  rcases second with ⟨budget', served'⟩
  have atMax := serve_mono (Nat.le_max_left budget budget') served
  have atMax' := serve_mono (Nat.le_max_right budget budget') served'
  have same := Option.some.inj (atMax.symm.trans atMax')
  exact ⟨congrArg Prod.fst same, congrArg Prod.snd same⟩

/-! ## One request -/

section Serve

variable {engine next : Engine} {layout : Layout} {trades : List Trade}

/-- A book is represented also when memory outside it has changed. -/
theorem Represents.congr {heap : Heap} (represents : engine.Represents layout)
    (same : forall side node, node ∈ layout.nodes side -> heap node = engine.heap node) :
    Represents { engine with heap := heap } layout := by
  have queued : forall side level, level ∈ layout side ->
      forall node, node ∈ level.2 -> heap node = engine.heap node :=
    fun side level listed node member =>
      same side node (Layout.mem_nodes.mpr ⟨level, listed, member⟩)
  constructor
  · intro side
    refine (represents.entries side).trans (List.map_congr_left (fun level listed => ?_))
    exact (levelEntry_congr (fun node member =>
      congrArg (fun cell => cell.qty) (queued side level listed node member))).symm
  · exact fun side level listed =>
      (represents.shape side level listed).congr (queued side level listed)

theorem Represents.construct (represents : engine.Represents layout) {node : OrderPtr}
    (outside : forall side, node ∉ layout.nodes side) (order : LimitOrder) :
    Represents { engine with heap := engine.heap.construct node order } layout ∧
      layout.orders (engine.heap.construct node order) = layout.orders engine.heap := by
  have same : forall side other, other ∈ layout.nodes side ->
      engine.heap.construct node order other = engine.heap other :=
    fun side other member => Heap.construct_of_ne _ _
      (fun isNode => outside side (by rw [← isNode]; exact member))
  refine ⟨represents.congr same, ?_⟩
  funext side
  refine List.map_congr_left (fun other member => ?_)
  exact congrArg (fun found : OrderNode => RestingOrder.mk found.toLimitOrder other)
    (same side other member)

/-- Every admitted request is answered, and its answer is the one of the priority
book.  This is where termination, the refinement and the frame of a request come
together. -/
theorem serve_run (request : Request) (represents : engine.Represents layout) (admits : engine.Admits request) :
    Exists fun trades => Exists fun next => Exists fun layout' => Exists fun enough =>
      (forall budget, enough ≤ budget -> engine.serve budget request = some (trades, next)) ∧
      Effect request.node layout layout' (engine.prepared request) next ∧
      (trades, layout'.orders next.heap) = (layout.orders engine.heap).serve request := by
  cases request with
  | submit node order =>
      have outside := represents.not_mem_of_not_resting admits
      have constructed := represents.construct outside order
      have detached := engine.heap.construct_detached node order
      rcases processLimitOrder_run constructed.1 outside detached (Nat.le_refl _) with
        ⟨trades, next, layout', processed, effect, meaning⟩
      refine ⟨trades, next, layout', _, fun budget enough =>
        processLimitOrder_mono enough processed, effect, ?_⟩
      rw [meaning, constructed.2, Heap.resting, Heap.order]
      simp only [Heap.construct_self]
      rfl
  | cancel node =>
      rcases (represents.resting_iff node).mp admits with ⟨side, member⟩
      rcases cancelOrder_run represents member with ⟨layout', effect, orders⟩
      exact ⟨[], _, layout', 0, fun _ _ => rfl, effect, Prod.ext rfl orders⟩
  | reduce node newQty =>
      rcases (represents.resting_iff node).mp admits with ⟨side, member⟩
      rcases reduceOrder_run represents member newQty with ⟨effect, orders⟩
      exact ⟨[], _, layout, 0, fun _ _ => rfl, effect, Prod.ext rfl orders⟩

/-- What an admitted request does to a represented book. -/
theorem serve_spec {request : Request} (represents : engine.Represents layout) (admits : engine.Admits request)
    (answers : engine.Answers request trades next) :
    Exists fun layout' => Effect request.node layout layout' (engine.prepared request) next ∧
      (trades, layout'.orders next.heap) = (layout.orders engine.heap).serve request := by
  rcases serve_run request represents admits with ⟨trades', next', layout', enough, served, effect, meaning⟩
  have same := answers.unique ⟨enough, served enough (Nat.le_refl enough)⟩
  rw [same.1, same.2]
  exact ⟨layout', effect, meaning⟩

end Serve

/-! ## Reachable books are represented -/

theorem represents_of_empty {engine : Engine} (empty : engine.book = {}) :
    engine.Represents (fun _ => []) := by
  refine ⟨fun side => ?_, fun _ _ listed => absurd listed List.not_mem_nil⟩
  rw [empty]
  cases side <;> rfl

theorem reachable_represents {past : List Served} {engine : Engine} (run : system.Run past engine) :
    Exists fun layout => engine.Represents layout := by
  refine run.stateInvariant (fun engine => Exists fun layout => engine.Represents layout)
    (fun _ empty => ⟨_, represents_of_empty empty⟩) ?_
  rintro before served next ⟨layout, represents⟩ ⟨-, admits, answers⟩
  rcases serve_spec represents admits answers with ⟨layout', effect, -⟩
  exact ⟨layout', effect.represents⟩

/-- A request brings at most its own node into the book. -/
theorem Answers.resting {engine next : Engine} {layout : Layout} {request : Request}
    {trades : List Trade} (represents : engine.Represents layout) (admits : engine.Admits request)
    (answers : engine.Answers request trades next) {other : OrderPtr} (rests : next.Resting other) :
    engine.Resting other ∨ other = request.node := by
  rcases serve_spec represents admits answers with ⟨layout', effect, -⟩
  rcases (effect.represents.resting_iff other).mp rests with ⟨side, member⟩
  rcases effect.subset side other member with earlier | same
  · exact Or.inl ((represents.resting_iff other).mpr ⟨side, earlier⟩)
  · exact Or.inr same

theorem not_resting_of_empty (engine : Engine) (empty : engine.book = {}) (node : OrderPtr) :
    ¬ engine.Resting node := by
  intro rests
  rcases ((represents_of_empty empty).resting_iff node).mp rests with ⟨side, member⟩
  exact absurd member List.not_mem_nil

/-! ## A short run

An ask is submitted, a bid takes part of it and is filled, and a second bid
comes to rest below it. -/

section ShortRun

/-- The empty book, in memory that has never been written. -/
def blank : Engine := { heap := fun _ => { id := 0, price := 0, qty := 0, side := .Buy } }

/-- The trades and the engine after a request that a few passes answer. -/
def answer (engine : Engine) (request : Request) : List Trade × Engine :=
  (engine.serve 4 request).getD ([], engine)

def shortRequests : List Request :=
  [.submit 0 ⟨1, 101, 5, .Sell⟩, .submit 1 ⟨2, 101, 2, .Buy⟩, .submit 2 ⟨3, 99, 4, .Buy⟩]

/-- Answer requests one after another and record them. -/
def answerAll : Engine -> List Request -> List Served × Engine
  | engine, [] => ([], engine)
  | engine, request :: requests =>
      let rest := answerAll (engine.answer request).2 requests
      (⟨engine, request, (engine.answer request).1⟩ :: rest.1, rest.2)

def shortPast : List Served := (blank.answerAll shortRequests).1

def shortEngine : Engine := (blank.answerAll shortRequests).2

/-- A submission that is answered extends a run, and leaves every other node
that does not rest free for a later one. -/
theorem submit_run {past : List Served} {engine : Engine} (run : system.Run past engine)
    {node : OrderPtr} (order : LimitOrder) (free : ¬ engine.Resting node)
    (served : engine.serve 4 (.submit node order) = some (engine.answer (.submit node order))) :
    system.Run (past ++ [⟨engine, .submit node order, (engine.answer (.submit node order)).1⟩])
        (engine.answer (.submit node order)).2 ∧
      forall other, other ≠ node -> ¬ engine.Resting other ->
        ¬ (engine.answer (.submit node order)).2.Resting other := by
  rcases reachable_represents run with ⟨layout, represents⟩
  have answers : engine.Answers (.submit node order) (engine.answer (.submit node order)).1
      (engine.answer (.submit node order)).2 := ⟨4, served⟩
  have admits : engine.Admits (.submit node order) := free
  refine ⟨run.step ⟨rfl, admits, answers⟩, fun other different away rests => ?_⟩
  rcases answers.resting represents admits rests with earlier | same
  · exact away earlier
  · exact different same

theorem shortRun : system.Run shortPast shortEngine := by
  have free := not_resting_of_empty blank rfl
  have begins : system.Run [] blank := .start rfl
  have asked := submit_run begins ⟨1, 101, 5, .Sell⟩ (free 0) rfl
  have bought := submit_run asked.1 ⟨2, 101, 2, .Buy⟩
    (asked.2 1 (by decide) (free 1)) rfl
  exact (submit_run bought.1 ⟨3, 99, 4, .Buy⟩
    (bought.2 2 (by decide) (asked.2 2 (by decide) (free 2))) rfl).1

example : shortPast.map Served.trades = [[], [⟨1, 2, 101, 2⟩], []] := rfl

end ShortRun

/-! ## A busy run

Three asks stand at one price, a bid cuts the first of them, and two bids come to rest
at another price. -/

section BusyRun

/-- Orders, each on a node of its own. -/
def submits (orders : List (OrderPtr × LimitOrder)) : List Request :=
  orders.map fun entry => .submit entry.1 entry.2

/-- Each request in turn is answered within a few passes. -/
def Answered : Engine -> List Request -> Prop
  | _, [] => True
  | engine, request :: requests =>
      engine.serve 4 request = some (engine.answer request) ∧
        Answered (engine.answer request).2 requests

/-- Orders on free nodes that are answered extend a run, and every other node that does
not rest stays free. -/
theorem submits_run {start engine : Engine} {past : List Served} {layout : Layout}
    {orders : List (OrderPtr × LimitOrder)} (run : (systemFrom start).Run past engine)
    (represents : engine.Represents layout) (distinct : (orders.map Prod.fst).Nodup)
    (free : forall node, node ∈ orders.map Prod.fst -> ¬ engine.Resting node)
    (answered : Answered engine (submits orders)) :
    (systemFrom start).Run (past ++ (engine.answerAll (submits orders)).1)
        (engine.answerAll (submits orders)).2 ∧
      forall other, other ∉ orders.map Prod.fst -> ¬ engine.Resting other ->
        ¬ (engine.answerAll (submits orders)).2.Resting other := by
  induction orders generalizing engine past layout with
  | nil =>
      refine ⟨?_, fun _ _ unused => unused⟩
      exact (List.append_nil past).symm ▸ run
  | cons entry orders inductionHypothesis =>
      rcases answered with ⟨served, later⟩
      rcases List.nodup_cons.mp distinct with ⟨fresh, distinct⟩
      have admits : engine.Admits (.submit entry.1 entry.2) := free entry.1 List.mem_cons_self
      have answers : engine.Answers (.submit entry.1 entry.2)
          (engine.answer (.submit entry.1 entry.2)).1
          (engine.answer (.submit entry.1 entry.2)).2 := ⟨4, served⟩
      have unused (other : OrderPtr) (away : other ≠ entry.1) (rests : ¬ engine.Resting other) :
          ¬ (engine.answer (.submit entry.1 entry.2)).2.Resting other := by
        intro restsNow
        rcases answers.resting represents admits restsNow with earlier | same
        · exact rests earlier
        · exact away same
      rcases serve_spec represents admits answers with ⟨layout', effect, -⟩
      have step : (systemFrom start).step engine ⟨engine, .submit entry.1 entry.2, _⟩ _ :=
        ⟨rfl, admits, answers⟩
      have rest := inductionHypothesis (run.step step) effect.represents distinct ?_ later
      · rw [List.append_assoc] at rest
        refine ⟨rest.1, fun other outside free => ?_⟩
        rw [List.map_cons, List.mem_cons, not_or] at outside
        exact rest.2 other outside.2 (unused other outside.1 free)
      · intro node member
        apply unused node _ (free node (List.mem_cons_of_mem _ member))
        intro same
        exact fresh (same ▸ member)

def busyOrders : List (OrderPtr × LimitOrder) :=
  [(0, ⟨1, 101, 5, .Sell⟩), (1, ⟨2, 101, 4, .Sell⟩), (2, ⟨3, 101, 6, .Sell⟩),
    (3, ⟨4, 101, 2, .Buy⟩), (4, ⟨5, 99, 4, .Buy⟩), (5, ⟨6, 99, 3, .Buy⟩)]

def busyPast : List Served := (blank.answerAll (submits busyOrders)).1

def busyEngine : Engine := (blank.answerAll (submits busyOrders)).2

theorem busy_served : (systemFrom blank).Run busyPast busyEngine ∧
    forall other : OrderPtr, other ∉ busyOrders.map Prod.fst -> ¬ busyEngine.Resting other := by
  have free := not_resting_of_empty blank rfl
  have empty : blank.Represents (fun _ => []) := represents_of_empty rfl
  have begins : (systemFrom blank).Run [] blank := .start rfl
  have answered : Answered blank (submits busyOrders) := ⟨rfl, rfl, rfl, rfl, rfl, rfl, trivial⟩
  have served := submits_run begins empty (by decide) (fun node _ => free node) answered
  exact ⟨served.1, fun other outside => served.2 other outside (free other)⟩

theorem busyRun : system.Run busyPast busyEngine :=
  LabelledSystem.Run.append (.start (show system.starts blank from rfl)) busy_served.1

/-- The second ask stands behind the one that was cut. -/
theorem busy_resting : busyEngine.Resting 1 :=
  ⟨.Sell, _, List.mem_cons_self, .later (.here 1)⟩

example : busyPast.map Served.trades = [[], [], [], [⟨1, 4, 101, 2⟩], [], []] := rfl

end BusyRun
end Engine
end NexusHft
