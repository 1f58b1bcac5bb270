import NexusHft.Core.IntrusiveList
import NexusHft.Foundations.LabelledRun

namespace NexusHft

open Foundations

/-!
# Runs of an intrusive list

One list and any number of `push_back` and `remove` calls on it, over a heap
whose nodes may hold any links at the start.  Whether a node is in the list is
read off the heap: the next links lead to it from the head.  The model list is
read off the calls alone.

The invariant is that the end pointers and links hold the model list; what the
walks meet, what a removed node looks like and which nodes keep their fields all
follow from it and from the frame of the two operations.
-/

/-- What is asked of a list: a node is pushed behind the others or taken out.  A
node may be pushed again after it was taken out, in any order. -/
inductive ListCall where
  | pushBack (node : OrderPtr)
  | remove (node : OrderPtr)
  deriving DecidableEq, Repr

def ListCall.node : ListCall -> OrderPtr
  | .pushBack node => node
  | .remove node => node

/-- The model list after one call. -/
def ListCall.applyTo (nodes : List OrderPtr) : ListCall -> List OrderPtr
  | .pushBack node => nodes ++ [node]
  | .remove node => nodes.erase node

/-- The model list: the pushed nodes in order, without the removed ones. -/
def heldAfter (calls : List ListCall) : List OrderPtr :=
  calls.foldl ListCall.applyTo []

theorem heldAfter_append (calls : List ListCall) (call : ListCall) :
    heldAfter (calls ++ [call]) = call.applyTo (heldAfter calls) :=
  List.foldl_concat ..

/-- A heap and the list threaded through it.  The heap has many more nodes than
the list, and the calls must not touch them. -/
structure ListState where
  heap : Heap
  list : IntrusiveList

namespace ListState

/-- The next links lead from the head to the node. -/
def Contains (state : ListState) (node : OrderPtr) : Prop :=
  Reaches state.heap.nextLink state.list.head node

def pushBack (state : ListState) (node : OrderPtr) : ListState :=
  ⟨(state.list.pushBack state.heap node).1, (state.list.pushBack state.heap node).2⟩

def remove (state : ListState) (node : OrderPtr) : ListState :=
  ⟨(state.list.remove state.heap node).1, (state.list.remove state.heap node).2⟩

/-- Only nodes outside the list are pushed and only nodes of the list are removed. -/
def StepTo (state : ListState) (call : ListCall) (next : ListState) : Prop :=
  match call with
  | .pushBack node => ¬ state.Contains node ∧ next = state.pushBack node
  | .remove node => state.Contains node ∧ next = state.remove node

/-- An empty list over a given heap, and the calls on it as the source asks for
them: a node outside the list is pushed, whatever links it still has, and a node
of the list is taken out. -/
def system (heap : Heap) : LabelledSystem ListState ListCall where
  starts state := state = ⟨heap, {}⟩
  step := StepTo

/-- The state holds these nodes, in this order. -/
def Holds (state : ListState) (nodes : List OrderPtr) : Prop :=
  IntrusiveList.Holds state.heap state.list nodes

section OneCall

variable {state next : ListState} {nodes : List OrderPtr} {call : ListCall}

theorem Holds.contains_iff (holds : state.Holds nodes) (node : OrderPtr) :
    state.Contains node <-> node ∈ nodes :=
  holds.reaches_iff node

/-- A member of the list cuts it in two, and `erase` joins the two parts. -/
theorem Holds.split (holds : state.Holds nodes) {node : OrderPtr} (member : node ∈ nodes) :
    Exists fun front => Exists fun back =>
      nodes = front ++ node :: back ∧ nodes.erase node = front ++ back := by
  rcases List.append_of_mem member with ⟨front, back, cut⟩
  refine ⟨front, back, cut, ?_⟩
  have distinct : (front ++ node :: back).Nodup := cut ▸ holds.distinct
  have notBefore : node ∉ front := by
    intro before
    exact (List.nodup_append.mp distinct).2.2 node before node List.mem_cons_self rfl
  rw [cut, List.erase_append_right _ notBefore, List.erase_cons_head]

/-- One call does to the heap what it does to the model list. -/
theorem Holds.step (holds : state.Holds nodes) (moved : StepTo state call next) :
    next.Holds (call.applyTo nodes) := by
  cases call with
  | pushBack node =>
      rcases moved with ⟨outside, same⟩
      rw [same]
      apply IntrusiveList.Holds.pushBack holds
      intro member
      exact outside ((holds.contains_iff node).mpr member)
  | remove node =>
      rcases moved with ⟨inside, same⟩
      rcases holds.split ((holds.contains_iff node).mp inside) with ⟨front, back, cut, joined⟩
      subst cut
      rw [same, ListCall.applyTo, joined]
      exact IntrusiveList.Holds.remove holds

/-- A node that is neither in the list nor named by the call is not written. -/
theorem Holds.frame (holds : state.Holds nodes) (moved : StepTo state call next)
    {other : OrderPtr} (outside : other ∉ nodes) (different : other ≠ call.node) :
    next.heap other = state.heap other := by
  cases call with
  | pushBack node =>
      rcases moved with ⟨-, same⟩
      rw [same]
      exact IntrusiveList.Holds.pushBack_frame holds outside different
  | remove node =>
      rcases moved with ⟨inside, same⟩
      rcases holds.split ((holds.contains_iff node).mp inside) with ⟨front, back, cut, -⟩
      subst cut
      rw [same]
      exact IntrusiveList.Holds.remove_frame holds outside

/-- Whatever is called, no order is written. -/
theorem step_order (moved : StepTo state call next) : next.heap.order = state.heap.order := by
  cases call with
  | pushBack node =>
      rw [moved.2]
      exact IntrusiveList.pushBack_order state.list state.heap node
  | remove node =>
      rw [moved.2]
      exact IntrusiveList.remove_order state.list state.heap node

end OneCall

/-! ## Runs -/

section Runs

variable {heap : Heap} {calls : List ListCall} {state : ListState}

theorem run_holds (run : (system heap).Run calls state) : state.Holds (heldAfter calls) := by
  refine run.invariant (fun past state => state.Holds (heldAfter past)) ?_ ?_
  · intro state begins
    rw [begins]
    exact IntrusiveList.holds_empty heap
  · intro past state call next _ holds moved
    rw [heldAfter_append]
    exact holds.step moved

theorem run_order (run : (system heap).Run calls state) : state.heap.order = heap.order := by
  refine run.stateInvariant (fun state => state.heap.order = heap.order) ?_ ?_
  · intro state begins
    rw [begins]
  · intro state call next same moved
    exact (step_order moved).trans same

/-- A node that no call names is as it was at the start.  Calls write to
neighbours too, but every node of the list was named when it was pushed. -/
theorem run_untouched (run : (system heap).Run calls state) {node : OrderPtr}
    (unnamed : forall call, call ∈ calls -> call.node ≠ node) :
    state.heap node = heap node ∧ node ∉ heldAfter calls := by
  refine run.invariant (fun past state => (forall call, call ∈ past -> call.node ≠ node) ->
    state.heap node = heap node ∧ node ∉ heldAfter past) ?_ ?_ unnamed
  · intro state begins _
    rw [begins]
    exact ⟨rfl, List.not_mem_nil⟩
  · intro past state call next earlier inductionHypothesis moved unnamed
    have before := inductionHypothesis
      fun earlier member => unnamed earlier (List.mem_append_left [call] member)
    have different := unnamed call (List.mem_append_right past (List.mem_singleton_self call))
    constructor
    · rw [(run_holds earlier).frame moved before.2 different.symm]
      exact before.1
    · rw [heldAfter_append]
      cases call with
      | pushBack pushed =>
          intro member
          rcases List.mem_append.mp member with held | last
          · exact before.2 held
          · exact different (List.mem_singleton.mp last).symm
      | remove removed => exact fun member => before.2 (List.mem_of_mem_erase member)

/-- A node outside the list that has been removed has null links, so that it can
be pushed again, and removing it once more would find it detached. -/
theorem run_detached (run : (system heap).Run calls state) {node : OrderPtr}
    (removed : ListCall.remove node ∈ calls) (outside : node ∉ heldAfter calls) :
    state.heap.Detached node := by
  refine run.invariant (fun past state => ListCall.remove node ∈ past ->
    node ∉ heldAfter past -> state.heap.Detached node) ?_ ?_ removed outside
  · exact fun _ _ member _ => absurd member List.not_mem_nil
  · intro past state call next earlier inductionHypothesis moved member outside
    rw [heldAfter_append] at outside
    by_cases last : call = .remove node
    · subst last
      rw [moved.2]
      exact IntrusiveList.remove_detached state.list state.heap node
    · have before : ListCall.remove node ∈ past := by
        rcases List.mem_append.mp member with before | same
        · exact before
        · exact absurd (List.mem_singleton.mp same).symm last
      have different : node ≠ call.node := by
        intro same
        cases call with
        | pushBack pushed => exact outside (List.mem_append_right _ (same ▸ List.mem_singleton_self node))
        | remove other => exact last (congrArg ListCall.remove same.symm)
      have wasOutside : node ∉ heldAfter past := by
        intro held
        cases call with
        | pushBack pushed => exact outside (List.mem_append_left _ held)
        | remove other => exact outside ((List.mem_erase_of_ne different).mpr held)
      have kept := (run_holds earlier).frame moved wasOutside different
      exact (inductionHypothesis before wasOutside).congr (congrArg OrderNode.prev kept)
        (congrArg OrderNode.next kept)

/-- The calls a run allows next, said of the model list. -/
theorem run_pushBack (run : (system heap).Run calls state) (node : OrderPtr)
    (outside : node ∉ heldAfter calls) :
    (system heap).Run (calls ++ [.pushBack node]) (state.pushBack node) := by
  apply run.step
  exact ⟨fun inside => outside (((run_holds run).contains_iff node).mp inside), rfl⟩

theorem run_remove (run : (system heap).Run calls state) (node : OrderPtr)
    (inside : node ∈ heldAfter calls) :
    (system heap).Run (calls ++ [.remove node]) (state.remove node) := by
  apply run.step
  exact ⟨((run_holds run).contains_iff node).mpr inside, rfl⟩

/-- After any calls: the next links from the head meet the model list and end at
null, the prev links from the tail meet it in reverse and end at null, the list is
empty exactly when the model list is, a removed node has null links and a node
outside the list can be pushed, no call writes a node outside the list other
than its own, and none writes an order. -/
theorem walks_meet_model (run : (system heap).Run calls state) :
    Threaded state.heap.nextLink state.list.head (heldAfter calls) ∧
    Threaded state.heap.prevLink state.list.tail (heldAfter calls).reverse ∧
    (state.list.isEmpty = true <-> heldAfter calls = []) ∧
    (forall node, ListCall.remove node ∈ calls -> node ∉ heldAfter calls ->
      state.heap.Detached node) ∧
    (forall node, node ∉ heldAfter calls ->
      (system heap).Run (calls ++ [.pushBack node]) (state.pushBack node)) ∧
    (forall call next, (system heap).step state call next ->
      forall other, other ∉ heldAfter calls -> other ≠ call.node ->
        next.heap other = state.heap other) ∧
    (forall node, (forall call, call ∈ calls -> call.node ≠ node) ->
      state.heap node = heap node) ∧
    state.heap.order = heap.order := by
  have holds := run_holds run
  have forward : Threaded state.heap.nextLink state.list.head (heldAfter calls) := by
    rw [holds.head]
    exact holds.links.forward
  refine ⟨forward, ?_, ?_, ?_, ?_, ?_, ?_, run_order run⟩
  · rw [holds.tail]
    exact holds.links.backward
  · rw [IntrusiveList.isEmpty, Option.isNone_iff_eq_none, forward.eq_nil_iff]
  · intro node removed outside
    exact run_detached run removed outside
  · intro node outside
    exact run_pushBack run node outside
  · intro call next moved other outside different
    exact holds.frame moved outside different
  · intro node unnamed
    exact (run_untouched run unnamed).1

/-- Three nodes with links from elsewhere; the middle one is removed and pushed again. -/
theorem walks_meet_model_pushed_again :
    Exists fun state : ListState =>
      Threaded state.heap.nextLink state.list.head [3, 8, 5] ∧
        Threaded state.heap.prevLink state.list.tail [5, 8, 3] := by
  let heap : Heap := fun _ => { id := 1, price := 100, qty := 5, side := .Buy, prev := some 2 }
  have empty : (system heap).Run [] ⟨heap, {}⟩ := .start rfl
  have first := run_pushBack empty 3 (by decide)
  have second := run_pushBack first 5 (by decide)
  have third := run_pushBack second 8 (by decide)
  have removed := run_remove third 5 (by decide)
  have again := run_pushBack removed 5 (by decide)
  have walks := walks_meet_model again
  exact ⟨_, walks.1, walks.2.1⟩

end Runs
end ListState
end NexusHft
