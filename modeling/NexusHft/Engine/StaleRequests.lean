import NexusHft.Engine.Requests

namespace NexusHft

open Foundations

/-!
# Requests on nodes that do not rest

A request may come too late: its node was filled by a match, or has been
cancelled already.  The source looks for a level at the node's price and does
nothing when there is none.  When there is one, it goes on as if the node were
queued there: the node's null links make `remove` empty the level's list, and
the level is erased with every order in it.

`unharmed_iff` results say exactly when such a request leaves the book alone.
The runs they are about are those in which every stale request so far met that
condition; every run of requests on resting nodes is one of them.
-/

namespace Engine

/-- The book has a level at the node's side and price. -/
def HasLevel (engine : Engine) (node : OrderPtr) : Prop :=
  (engine.book.levels (engine.heap node).side).find (engine.heap node).price ≠ none

/-- Every level, with its volume and the ends of its queue, and every other node
are as before.  Only the node that was named may have changed. -/
structure Unharmed (node : OrderPtr) (engine engine' : Engine) : Prop where
  book : engine'.book = engine.book
  others : forall other, other ≠ node -> engine'.heap other = engine.heap other

/-- A request on a node that does not rest, but that changes nothing. -/
def Spares (engine : Engine) : Request -> Prop
  | .submit _ _ => False
  | .cancel node => ¬ engine.Resting node ∧ ¬ engine.HasLevel node
  | .reduce node newQty => ¬ engine.Resting node ∧
      ((engine.heap node).qty ≤ newQty ∨ ¬ engine.HasLevel node)

/-- The engine under requests that may also be stale, as long as they are harmless. -/
def tolerantSystem : LabelledSystem Engine Served where
  starts engine := engine.book = {}
  step engine served next :=
    served.before = engine ∧ (engine.Admits served.request ∨ engine.Spares served.request) ∧
      engine.Answers served.request served.trades next

/-- Some request of the past submitted an order on the node. -/
def Submitted (past : List Served) (node : OrderPtr) : Prop :=
  Exists fun served => served ∈ past ∧ Exists fun order => served.request = .submit node order

/-! ## One stale request -/

section Stale

variable {engine : Engine} {node : OrderPtr}

/-- A stale cancel is harmless exactly when the node's level is gone too.
Otherwise it takes the quantity the node still carries from a level the node no
longer belongs to. -/
theorem cancel_unharmed_iff {layout : Layout} (represents : engine.Represents layout)
    (detached : engine.heap.Detached node) :
    Unharmed node engine (engine.cancelOrder node) <-> ¬ engine.HasLevel node := by
  unfold HasLevel
  rw [not_not]
  constructor
  · intro unharmed
    cases found : (engine.book.levels (engine.heap node).side).find (engine.heap node).price with
    | none => rfl
    | some level =>
        rcases OrderedMap.find_eq_some found with ⟨front, back, split⟩
        rcases represents.level_of_entry split with ⟨early, queued, late, -, -, entry, -⟩
        have key : level.price = (engine.heap node).price := by
          have price := congrArg (fun entry => entry.2.price) entry
          have first := congrArg Prod.fst entry
          exact price.symm.trans first
        have emptied : (level.unlink engine.heap node).2.orders = {} := by
          rw [PriceLevel.unlink, IntrusiveList.remove_of_detached detached]
        have written := OrderBook.writeBack_levels (level.unlink engine.heap node).2 split key
        rw [emptied] at written
        have book := unharmed.book
        unfold cancelOrder at book
        rw [OrderBook.cancelOrder_of_find found] at book
        dsimp only at book
        rw [book, split] at written
        have lengths := congrArg List.length written
        simp [IntrusiveList.isEmpty] at lengths
  · intro absent
    have unchanged : engine.cancelOrder node = engine := by
      unfold cancelOrder
      rw [OrderBook.cancelOrder_of_absent absent]
    rw [unchanged]
    exact ⟨rfl, fun _ _ => rfl⟩

/-- A stale reduction is harmless exactly when it is no reduction or the node's
level is gone.  Otherwise the volume of a level falls without any order of it
getting smaller. -/
theorem reduce_unharmed_iff (newQty : Quantity) :
    Unharmed node engine (engine.reduceOrder node newQty) <->
      (engine.heap node).qty ≤ newQty ∨ ¬ engine.HasLevel node := by
  unfold HasLevel
  rw [not_not]
  constructor
  · intro unharmed
    by_cases le : (engine.heap node).qty ≤ newQty
    · exact Or.inl le
    · have less := UInt64.not_le.mp le
      refine Or.inr ?_
      cases found : (engine.book.levels (engine.heap node).side).find (engine.heap node).price with
      | none => rfl
      | some level =>
          rcases OrderedMap.find_eq_some found with ⟨front, back, split⟩
          have book := unharmed.book
          unfold reduceOrder at book
          rw [OrderBook.reduceOrder_of_find less found] at book
          have entries := congrArg
            (fun book => (OrderBook.levels book (engine.heap node).side).entries) book
          dsimp only at entries
          rw [OrderBook.levels_setLevels, OrderedMap.set_entries split, split] at entries
          have volume := congrArg (fun entry => entry.2.totalVolume)
            (List.cons.inj (List.append_cancel_left entries)).1
          dsimp only at volume
          have smaller := UInt64.lt_iff_toNat_lt.mp less
          have exactly := congrArg UInt64.toNat volume
          rw [UInt64.toNat_sub, toNat_sub_of_toNat_le (by omega)] at exactly
          have bound := (engine.heap node).qty.toNat_lt
          have wide := level.totalVolume.toNat_lt
          omega
  · intro harmless
    unfold reduceOrder
    by_cases le : (engine.heap node).qty ≤ newQty
    · rw [OrderBook.reduceOrder_of_le le]
      exact ⟨rfl, fun _ _ => rfl⟩
    · rw [OrderBook.reduceOrder_of_absent (UInt64.not_le.mp le) (harmless.resolve_left le)]
      exact ⟨rfl, fun _ different => Heap.setQty_of_ne _ _ _ _ different⟩

/-- What a harmless stale request can do: nothing, or shrink the order its own
node still carries. -/
theorem Spares.answered {request : Request} (spares : engine.Spares request) {trades : List Trade}
    {next : Engine} (answers : engine.Answers request trades next) :
    ¬ engine.Resting request.node ∧ (next = engine ∨ Exists fun newQty =>
      next = { engine with heap := engine.heap.setQty request.node newQty }) := by
  rcases answers with ⟨budget, served⟩
  cases request with
  | submit node order => exact absurd spares id
  | cancel node =>
      have result : engine.cancelOrder node = next := congrArg Prod.snd (Option.some.inj served)
      refine ⟨spares.1, Or.inl ?_⟩
      rw [← result]
      unfold cancelOrder
      rw [OrderBook.cancelOrder_of_absent (not_not.mp spares.2)]
  | reduce node newQty =>
      have result : engine.reduceOrder node newQty = next :=
        congrArg Prod.snd (Option.some.inj served)
      refine ⟨spares.1, ?_⟩
      rw [← result]
      unfold reduceOrder
      by_cases le : (engine.heap node).qty ≤ newQty
      · rw [OrderBook.reduceOrder_of_le le]
        exact Or.inl rfl
      · rw [OrderBook.reduceOrder_of_absent (UInt64.not_le.mp le)
          (not_not.mp (spares.2.resolve_left le))]
        exact Or.inr ⟨newQty, rfl⟩

end Stale

/-! ## Runs with harmless stale requests -/

theorem tolerant_of_run {past : List Served} {engine : Engine} (run : system.Run past engine) :
    tolerantSystem.Run past engine := by
  refine run.widen (fun _ => True) ?_ (fun _ => trivial) ?_
  · intro engine empty
    exact empty
  · intro engine served next _ moved
    exact ⟨moved.1, Or.inl moved.2.1, moved.2.2⟩

/-- The invariant of runs with stale requests: the book is represented, resting
nodes have been submitted, and a submitted node that does not rest has no links,
so that unlinking it once more does nothing to a queue. -/
structure Settled (past : List Served) (engine : Engine) : Prop where
  represented : Exists fun layout => engine.Represents layout
  submitted : forall node, engine.Resting node -> Submitted past node
  detached : forall node, Submitted past node -> ¬ engine.Resting node ->
    engine.heap.Detached node

theorem Submitted.append {past : List Served} {served : Served} {node : OrderPtr} :
    Submitted (past ++ [served]) node <-> Submitted past node ∨
      Exists fun order => served.request = .submit node order := by
  constructor
  · rintro ⟨found, listed, order, request⟩
    rcases List.mem_append.mp listed with earlier | last
    · exact Or.inl ⟨found, earlier, order, request⟩
    · rw [List.mem_singleton.mp last] at request
      exact Or.inr ⟨order, request⟩
  · rintro (⟨found, listed, request⟩ | request)
    · exact ⟨found, List.mem_append_left _ listed, request⟩
    · exact ⟨served, List.mem_append_right _ List.mem_cons_self, request⟩

theorem Spares.submitted {past : List Served} {engine : Engine} {served : Served}
    (spares : engine.Spares served.request) {node : OrderPtr}
    (submitted : Submitted (past ++ [served]) node) : Submitted past node := by
  rcases Submitted.append.mp submitted with earlier | ⟨order, request⟩
  · exact earlier
  · rw [request] at spares
    exact absurd spares id

theorem Settled.admitted {past : List Served} {engine next : Engine} {served : Served}
    (settled : Settled past engine) (admits : engine.Admits served.request)
    (answers : engine.Answers served.request served.trades next) :
    Settled (past ++ [served]) next := by
  rcases settled.represented with ⟨layout, represents⟩
  rcases serve_spec represents admits answers with ⟨layout', effect, -⟩
  refine ⟨⟨layout', effect.represents⟩, fun node rests => ?_, fun node submitted away => ?_⟩
  · rw [Submitted.append]
    rcases answers.resting represents admits rests with earlier | same
    · exact Or.inl (settled.submitted node earlier)
    · cases request : served.request with
      | submit other order => exact Or.inr ⟨order, by rw [same, request]; rfl⟩
      | cancel other =>
          rw [request] at same admits
          exact Or.inl (settled.submitted node (by rw [same]; exact admits))
      | reduce other newQty =>
          rw [request] at same admits
          exact Or.inl (settled.submitted node (by rw [same]; exact admits))
  · have gone := effect.represents.not_mem_of_not_resting away
    by_cases known : (Exists fun side => node ∈ layout.nodes side) ∨ node = served.request.node
    · exact effect.released node known gone
    · have outside : forall side, node ∉ layout.nodes side := fun side member =>
        known (Or.inl ⟨side, member⟩)
      have different : node ≠ served.request.node := fun same => known (Or.inr same)
      have earlier : Submitted past node := by
        rcases Submitted.append.mp submitted with earlier | ⟨order, request⟩
        · exact earlier
        · exact absurd (by rw [request]; rfl) different
      have unchanged : next.heap node = engine.heap node := by
        refine (effect.frame node outside different).trans ?_
        cases request : served.request with
        | submit other order =>
            rw [request] at different
            exact Heap.construct_of_ne _ _ different
        | cancel other => rfl
        | reduce other newQty => rfl
      exact (settled.detached node earlier (fun rests => known
        (Or.inl ((represents.resting_iff node).mp rests)))).congr
        (congrArg OrderNode.prev unchanged) (congrArg OrderNode.next unchanged)

theorem Settled.spared {past : List Served} {engine next : Engine} {served : Served}
    (settled : Settled past engine) (spares : engine.Spares served.request)
    (answers : engine.Answers served.request served.trades next) :
    Settled (past ++ [served]) next ∧ forall node, next.Resting node -> engine.Resting node := by
  rcases settled.represented with ⟨layout, represents⟩
  rcases spares.answered answers with ⟨stale, unchanged | ⟨newQty, shrunk⟩⟩
  · rw [unchanged]
    exact ⟨⟨⟨layout, represents⟩, fun node rests =>
      Submitted.append.mpr (Or.inl (settled.submitted node rests)), fun node submitted away =>
        settled.detached node (spares.submitted submitted) away⟩, fun _ rests => rests⟩
  · have outside := represents.not_mem_of_not_resting stale
    have kept : next.Represents layout := by
      rw [shrunk]
      exact represents.congr (fun side other member => Heap.setQty_of_ne _ _ _ _
        (fun same => outside side (by rw [← same]; exact member)))
    have same : forall node, next.Resting node <-> engine.Resting node := fun node =>
      (kept.resting_iff node).trans (represents.resting_iff node).symm
    refine ⟨⟨⟨layout, kept⟩, fun node rests => Submitted.append.mpr
      (Or.inl (settled.submitted node ((same node).mp rests))), fun node submitted away => ?_⟩,
      fun node rests => (same node).mp rests⟩
    have detached := settled.detached node (spares.submitted submitted)
      (fun rests => away ((same node).mpr rests))
    rw [shrunk]
    exact ⟨(congrFun (Heap.prevLink_setQty _ _ _) node).trans detached.1,
      (congrFun (Heap.nextLink_setQty _ _ _) node).trans detached.2⟩

theorem tolerant_settled {past : List Served} {engine : Engine}
    (run : tolerantSystem.Run past engine) : Settled past engine := by
  refine run.invariant Settled ?_ ?_
  · intro engine empty
    refine ⟨⟨_, represents_of_empty empty⟩, fun node rests => ?_, ?_⟩
    · exact absurd rests (not_resting_of_empty engine empty node)
    · rintro node ⟨served, listed, -⟩ -
      exact absurd listed List.not_mem_nil
  · rintro past before served next - settled ⟨-, admits | spares, answers⟩
    · exact settled.admitted admits answers
    · exact (settled.spared spares answers).1

/-- A request that does not submit a node does not bring it to rest. -/
theorem not_resting_step {past : List Served} {engine next : Engine} {served : Served}
    (run : tolerantSystem.Run past engine) (moved : tolerantSystem.step engine served next)
    {node : OrderPtr} (kept : forall order, served.request ≠ .submit node order)
    (away : ¬ engine.Resting node) : ¬ next.Resting node := by
  intro rests
  have settled := tolerant_settled run
  rcases moved with ⟨-, admits | spares, answers⟩
  · rcases settled.represented with ⟨layout, represents⟩
    rcases answers.resting represents admits rests with earlier | same
    · exact away earlier
    · cases request : served.request with
      | submit other order =>
          rw [request] at same
          exact kept order (by rw [request, same]; rfl)
      | cancel other =>
          rw [request] at same admits
          exact away (by rw [same]; exact admits)
      | reduce other newQty =>
          rw [request] at same admits
          exact away (by rw [same]; exact admits)
  · exact away ((settled.spared spares answers).2 node rests)

/-- A cancelled node does not rest. -/
theorem not_resting_of_cancel {past : List Served} {engine next : Engine} {served : Served}
    (run : tolerantSystem.Run past engine) (moved : tolerantSystem.step engine served next)
    {node : OrderPtr} (cancelled : served.request = .cancel node) : ¬ next.Resting node := by
  intro rests
  have settled := tolerant_settled run
  rcases moved with ⟨-, admits | spares, answers⟩
  · rcases settled.represented with ⟨layout, represents⟩
    rcases serve_spec represents admits answers with ⟨layout', effect, meaning⟩
    rcases (effect.represents.resting_iff node).mp rests with ⟨side, member⟩
    rw [cancelled] at meaning
    have books : layout'.orders next.heap = (layout.orders engine.heap).cancel node :=
      congrArg Prod.snd meaning
    have listed : next.heap.resting node ∈ layout'.orders next.heap side :=
      List.mem_map_of_mem member
    rw [books] at listed
    exact of_decide_eq_true (List.mem_filter.mp listed).2 rfl
  · have earlier := (settled.spared spares answers).2 node rests
    rw [cancelled] at spares
    exact spares.1 earlier

/-- In every run whose stale requests so far were harmless: a request on a
submitted node that does not rest leaves the book unharmed exactly when the
book has no level at the node's side and price, or the request is a reduction
that does not reduce.  A cancelled node is such a node for as long as it is
not submitted again, whatever else happens. -/
theorem stale_unharmed_iff {past : List Served} {engine : Engine}
    (run : tolerantSystem.Run past engine) :
    (forall node, Submitted past node -> ¬ engine.Resting node ->
      (Unharmed node engine (engine.cancelOrder node) <-> ¬ engine.HasLevel node) ∧
      forall newQty, Unharmed node engine (engine.reduceOrder node newQty) <->
        (engine.heap node).qty ≤ newQty ∨ ¬ engine.HasLevel node) ∧
    forall early cancelled late node, past = early ++ cancelled :: late ->
      cancelled.request = .cancel node ->
      (forall later, later ∈ late -> forall order, later.request ≠ .submit node order) ->
        ¬ engine.Resting node := by
  have settled := tolerant_settled run
  constructor
  · intro node submitted stale
    rcases settled.represented with ⟨layout, represents⟩
    exact ⟨cancel_unharmed_iff represents (settled.detached node submitted stale),
      fun newQty => reduce_unharmed_iff newQty⟩
  · intro early cancelled late node split request kept
    rw [split] at run
    exact run.since (fun engine => ¬ engine.Resting node)
      (fun served => served.request = .cancel node)
      (fun served => forall order, served.request ≠ .submit node order)
      (fun _ _ _ _ earlier moved cancelled => not_resting_of_cancel earlier moved cancelled)
      (fun _ _ _ _ earlier moved keeps away => not_resting_step earlier moved keeps away)
      request kept

/-! ## A level lost to a stale cancel -/

section Crowded

/-- Two asks at one price; the first is cancelled. -/
def crowdedRequests : List Request :=
  [.submit 0 ⟨1, 100, 5, .Sell⟩, .submit 1 ⟨2, 100, 7, .Sell⟩, .cancel 0]

def crowdedPast : List Served := (blank.answerAll crowdedRequests).1

def crowdedEngine : Engine := (blank.answerAll crowdedRequests).2

theorem crowdedRun : system.Run crowdedPast crowdedEngine := by
  have begins : system.Run [] blank := .start rfl
  have free := not_resting_of_empty blank rfl
  have first := submit_run begins ⟨1, 100, 5, .Sell⟩ (free 0) rfl
  have second := submit_run first.1 ⟨2, 100, 7, .Sell⟩
    (first.2 1 (by decide) (free 1)) rfl
  refine second.1.step ⟨rfl, ?_, 4, rfl⟩
  exact ⟨.Sell, _, List.mem_cons_self, Reaches.here 0⟩

theorem crowdedTolerant : tolerantSystem.Run crowdedPast crowdedEngine :=
  tolerant_of_run crowdedRun

theorem crowded_submitted : Submitted crowdedPast 0 :=
  ⟨_, List.mem_cons_self, _, rfl⟩

theorem crowded_stale : ¬ crowdedEngine.Resting 0 := by
  have cut : crowdedPast = crowdedPast.take 2 ++ [⟨(blank.answerAll (crowdedRequests.take 2)).2,
    .cancel 0, []⟩] := rfl
  have run := crowdedTolerant
  rw [cut] at run
  rcases run.last with ⟨before, earlier, moved⟩
  exact not_resting_of_cancel earlier moved rfl

theorem stale_unharmed_iff_crowded :
    (Unharmed 0 crowdedEngine (crowdedEngine.cancelOrder 0) <-> ¬ crowdedEngine.HasLevel 0) ∧
      forall newQty, Unharmed 0 crowdedEngine (crowdedEngine.reduceOrder 0 newQty) <->
        (crowdedEngine.heap 0).qty ≤ newQty ∨ ¬ crowdedEngine.HasLevel 0 :=
  (stale_unharmed_iff crowdedTolerant).1 0 crowded_submitted crowded_stale

/-- Cancelling the first ask again empties the book, although the second one
still rests. -/
theorem staleCancel_harms : ¬ forall past engine node, system.Run past engine ->
    Submitted past node -> ¬ engine.Resting node ->
      Unharmed node engine (engine.cancelOrder node) ∧
        forall other, engine.Resting other -> (engine.cancelOrder node).Resting other := by
  intro harmless
  have claimed := (harmless crowdedPast crowdedEngine 0 crowdedRun crowded_submitted
    crowded_stale).2 1
  have rests : crowdedEngine.Resting 1 := ⟨.Sell, _, List.mem_cons_self, Reaches.here 1⟩
  have emptied : (crowdedEngine.cancelOrder 0).book = {} := rfl
  exact not_resting_of_empty _ emptied 1 (claimed rests)

end Crowded
end Engine
end NexusHft
