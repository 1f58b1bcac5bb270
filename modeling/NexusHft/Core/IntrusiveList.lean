import NexusHft.Core.Types
import NexusHft.Foundations.LinkedChain

namespace NexusHft

open Foundations

/-!
# Order nodes and the intrusive list

Order nodes live in memory owned by the caller, and the list of a price level
is threaded through them.  The heap maps every address to a node; a null
pointer is `none`.  `pushBack` and `remove` follow the source store by store.

`IntrusiveList.Holds` is what the two end pointers and the links mean: the
nodes, in order, that the list holds.  The lemmas say what the two operations
do to it, and that they touch the links of the list's own nodes only: the
order carried by a node is never changed by relinking it.
-/

/-- The fields of an order node that are not links: what a client submits, and all
that matching reads of an order. -/
structure LimitOrder where
  id : OrderId
  price : Price
  qty : Quantity
  side : Side
  deriving DecidableEq, Repr

/-- A node's address. -/
abbrev OrderPtr := Nat

/-- An order with the two links by which the list of its level is threaded through
it.  A node that is in no list has neither. -/
structure OrderNode extends LimitOrder where
  prev : Option OrderPtr := none
  next : Option OrderPtr := none
  deriving DecidableEq, Repr

abbrev Heap := OrderPtr -> OrderNode

namespace Heap

def setPrev (heap : Heap) (node : OrderPtr) (link : Option OrderPtr) : Heap :=
  Function.update heap node { heap node with prev := link }

def setNext (heap : Heap) (node : OrderPtr) (link : Option OrderPtr) : Heap :=
  Function.update heap node { heap node with next := link }

def setQty (heap : Heap) (node : OrderPtr) (qty : Quantity) : Heap :=
  Function.update heap node { heap node with qty := qty }

def prevLink (heap : Heap) (node : OrderPtr) : Option OrderPtr := (heap node).prev

def nextLink (heap : Heap) (node : OrderPtr) : Option OrderPtr := (heap node).next

/-- The order a node carries. -/
def order (heap : Heap) (node : OrderPtr) : LimitOrder := (heap node).toLimitOrder

section Stores

variable (heap : Heap) (node other : OrderPtr) (link : Option OrderPtr) (qty : Quantity)

@[simp] theorem setPrev_of_ne (different : other ≠ node) :
    heap.setPrev node link other = heap other :=
  Function.update_of_ne different _ _

@[simp] theorem setNext_of_ne (different : other ≠ node) :
    heap.setNext node link other = heap other :=
  Function.update_of_ne different _ _

@[simp] theorem setQty_of_ne (different : other ≠ node) :
    heap.setQty node qty other = heap other :=
  Function.update_of_ne different _ _

@[simp] theorem setPrev_self : heap.setPrev node link node = { heap node with prev := link } :=
  Function.update_self _ _ _

@[simp] theorem setNext_self : heap.setNext node link node = { heap node with next := link } :=
  Function.update_self _ _ _

@[simp] theorem setQty_self : heap.setQty node qty node = { heap node with qty := qty } :=
  Function.update_self _ _ _

@[simp] theorem order_setPrev : (heap.setPrev node link).order = heap.order := by
  funext cell
  by_cases same : cell = node
  · subst same; simp [order]
  · simp [order, same]

@[simp] theorem order_setNext : (heap.setNext node link).order = heap.order := by
  funext cell
  by_cases same : cell = node
  · subst same; simp [order]
  · simp [order, same]

@[simp] theorem prevLink_setQty : (heap.setQty node qty).prevLink = heap.prevLink := by
  funext cell
  by_cases same : cell = node
  · subst same; simp [prevLink]
  · simp [prevLink, same]

@[simp] theorem nextLink_setQty : (heap.setQty node qty).nextLink = heap.nextLink := by
  funext cell
  by_cases same : cell = node
  · subst same; simp [nextLink]
  · simp [nextLink, same]

theorem prevLink_setNext : (heap.setNext node link).prevLink = heap.prevLink := by
  funext cell
  by_cases same : cell = node
  · subst same; simp [prevLink]
  · simp [prevLink, same]

theorem nextLink_setPrev : (heap.setPrev node link).nextLink = heap.nextLink := by
  funext cell
  by_cases same : cell = node
  · subst same; simp [nextLink]
  · simp [nextLink, same]

theorem prevLink_setPrev :
    (heap.setPrev node link).prevLink = Function.update heap.prevLink node link := by
  funext cell
  by_cases same : cell = node
  · subst same; simp [prevLink]
  · simp [prevLink, same]

theorem nextLink_setNext :
    (heap.setNext node link).nextLink = Function.update heap.nextLink node link := by
  funext cell
  by_cases same : cell = node
  · subst same; simp [nextLink]
  · simp [nextLink, same]

end Stores

/-- Construct an order at an address: its fields, and no links. -/
def construct (heap : Heap) (node : OrderPtr) (order : LimitOrder) : Heap :=
  Function.update heap node { order with }

@[simp] theorem construct_self (heap : Heap) (node : OrderPtr) (order : LimitOrder) :
    heap.construct node order node = { order with } :=
  Function.update_self _ _ _

theorem construct_of_ne (heap : Heap) {node other : OrderPtr} (order : LimitOrder)
    (different : other ≠ node) : heap.construct node order other = heap other :=
  Function.update_of_ne different _ _

/-- A node without links, as the constructor and `remove` leave it. -/
def Detached (heap : Heap) (node : OrderPtr) : Prop :=
  heap.prevLink node = none ∧ heap.nextLink node = none

theorem construct_detached (heap : Heap) (node : OrderPtr) (order : LimitOrder) :
    (heap.construct node order).Detached node := by
  constructor
  · rw [prevLink, construct_self]
  · rw [nextLink, construct_self]

theorem Detached.congr {heap heap' : Heap} {node : OrderPtr} (detached : heap.Detached node)
    (prev : (heap' node).prev = (heap node).prev) (next : (heap' node).next = (heap node).next) :
    heap'.Detached node :=
  ⟨prev.trans detached.1, next.trans detached.2⟩

end Heap

/-- The two end pointers of a level's list.  The list owns no memory: whatever it
holds is found by following the links of the nodes. -/
structure IntrusiveList where
  head : Option OrderPtr := none
  tail : Option OrderPtr := none
  deriving DecidableEq, Repr

namespace IntrusiveList

def isEmpty (list : IntrusiveList) : Bool := list.head.isNone

/-- `tail_->next = node`.  The source dereferences `tail_` only when `head_` is
not null; `Holds` makes both null together, so no list of the book takes the
first branch. -/
def linkTail (list : IntrusiveList) (heap : Heap) (node : OrderPtr) : Heap :=
  match list.tail with
  | none => heap
  | some last => heap.setNext last (some node)

def pushBack (list : IntrusiveList) (heap : Heap) (node : OrderPtr) : Heap × IntrusiveList :=
  match list.head with
  | none => ((heap.setPrev node none).setNext node none, ⟨some node, some node⟩)
  | some first =>
      (((list.linkTail heap node).setPrev node list.tail).setNext node none,
        ⟨some first, some node⟩)

/-- The first half of `remove`: `node->prev` or `head_` skips the node. -/
def skipForward (list : IntrusiveList) (heap : Heap) (node : OrderPtr) : Heap × IntrusiveList :=
  match (heap node).prev with
  | some before => (heap.setNext before (heap node).next, list)
  | none => (heap, { list with head := (heap node).next })

/-- The second half: `node->next` or `tail_` skips the node. -/
def skipBackward (list : IntrusiveList) (heap : Heap) (node : OrderPtr) : Heap × IntrusiveList :=
  match (heap node).next with
  | some after => (heap.setPrev after (heap node).prev, list)
  | none => (heap, { list with tail := (heap node).prev })

def remove (list : IntrusiveList) (heap : Heap) (node : OrderPtr) : Heap × IntrusiveList :=
  let forward := list.skipForward heap node
  let backward := forward.2.skipBackward forward.1 node
  ((backward.1.setPrev node none).setNext node none, backward.2)

/-! ## What a list holds -/

/-- The end pointers and links of a list whose nodes are, in order, `nodes`.  This
is the abstraction of the intrusive list: each operation is proved to carry one
`Holds` to the next, and the nodes outside are framed. -/
structure Holds (heap : Heap) (list : IntrusiveList) (nodes : List OrderPtr) : Prop where
  head : list.head = nodes.head?
  tail : list.tail = nodes.getLast?
  distinct : nodes.Nodup
  links : Chain heap.prevLink heap.nextLink none nodes none

variable {heap : Heap} {list : IntrusiveList} {nodes : List OrderPtr}

theorem holds_empty (heap : Heap) : Holds heap {} [] :=
  ⟨rfl, rfl, List.nodup_nil, trivial⟩

theorem Holds.unique {nodes' : List OrderPtr} (first : Holds heap list nodes)
    (second : Holds heap list nodes') : nodes = nodes' :=
  first.links.unique second.links (first.head.symm.trans second.head)

/-- What a list holds depends only on its own nodes. -/
theorem Holds.congr {heap' : Heap} (holds : Holds heap list nodes)
    (same : forall node, node ∈ nodes -> heap' node = heap node) : Holds heap' list nodes where
  head := holds.head
  tail := holds.tail
  distinct := holds.distinct
  links := holds.links.congr (fun node member => congrArg OrderNode.prev (same node member))
    (fun node member => congrArg OrderNode.next (same node member))

theorem Holds.reaches_iff (holds : Holds heap list nodes) (node : OrderPtr) :
    Reaches heap.nextLink list.head node <-> node ∈ nodes := by
  rw [holds.head]
  exact holds.links.reaches_iff node

/-! ## `push_back` -/

theorem pushBack_order (list : IntrusiveList) (heap : Heap) (node : OrderPtr) :
    (list.pushBack heap node).1.order = heap.order := by
  unfold pushBack linkTail
  cases list.head <;> cases list.tail <;> simp

/-- Only the new node and the list's own nodes are written. -/
theorem Holds.pushBack_frame (holds : Holds heap list nodes) {node other : OrderPtr}
    (outside : other ∉ nodes) (different : other ≠ node) :
    (list.pushBack heap node).1 other = heap other := by
  unfold pushBack linkTail
  cases atHead : list.head with
  | none => simp [different]
  | some first =>
      cases atTail : list.tail with
      | none => simp [different]
      | some last =>
          have notLast : other ≠ last := by
            intro same
            exact outside (same ▸ List.mem_of_getLast? (holds.tail.symm.trans atTail))
          simp [different, notLast]

theorem Holds.pushBack (holds : Holds heap list nodes) {node : OrderPtr} (fresh : node ∉ nodes) :
    Holds (list.pushBack heap node).1 (list.pushBack heap node).2 (nodes ++ [node]) := by
  have distinct : (nodes ++ [node]).Nodup :=
    List.nodup_append_comm.mp (List.nodup_cons.mpr ⟨fresh, holds.distinct⟩)
  unfold IntrusiveList.pushBack linkTail
  rcases List.eq_nil_or_concat nodes with empty | ⟨init, last, concat⟩
  · subst empty
    rw [holds.head]
    exact ⟨rfl, rfl, distinct, by simp [Chain, Heap.prevLink, Heap.nextLink]⟩
  · rw [List.concat_eq_append] at concat
    have atTail : list.tail = some last := by rw [holds.tail, concat]; simp
    have lastFresh : last ≠ node := by
      intro same
      exact fresh (by rw [concat, ← same]; simp)
    cases atHead : list.head with
    | none =>
        have noHead := holds.head.symm.trans atHead
        rw [concat] at noHead
        simp at noHead
    | some first =>
        simp only [atTail]
        refine ⟨?_, by simp, distinct, Chain.append.mpr ⟨?_, ?_⟩⟩
        · have front := holds.head.symm.trans atHead
          change some first = (nodes ++ [node]).head?
          rw [List.head?_append, front]
          rfl
        · have away : forall cell, cell ∈ nodes -> cell ≠ node := by
            intro cell member same
            exact fresh (same ▸ member)
          refine Chain.relinkNext ?_ ?_ ?_ holds.distinct holds.links
          · intro cell member
            by_cases isLast : cell = last <;>
              simp [Heap.prevLink, away cell member, isLast, lastFresh]
          · intro cell member notLast
            have different : cell ≠ last := by
              intro same
              exact notLast (by rw [concat, same]; simp)
            simp [Heap.nextLink, away cell member, different]
          · intro cell isLast
            have same : cell = last := Option.some.inj (isLast.symm.trans (holds.tail.symm.trans atTail))
            subst same
            simp [Heap.nextLink, lastFresh]
        · have back : nodes.getLast? = some last := holds.tail.symm.trans atTail
          simp [Chain, Heap.prevLink, Heap.nextLink, back]

/-! ## `remove` -/

theorem remove_order (list : IntrusiveList) (heap : Heap) (node : OrderPtr) :
    (list.remove heap node).1.order = heap.order := by
  have forward : (list.skipForward heap node).1.order = heap.order := by
    unfold skipForward
    cases (heap node).prev <;> simp
  have backward (moved : IntrusiveList) (later : Heap) :
      (moved.skipBackward later node).1.order = later.order := by
    unfold skipBackward
    cases (later node).next <;> simp
  simp only [remove, Heap.order_setNext, Heap.order_setPrev]
  rw [backward, forward]

theorem remove_detached (list : IntrusiveList) (heap : Heap) (node : OrderPtr) :
    (list.remove heap node).1.Detached node := by
  simp [remove, Heap.Detached, Heap.prevLink, Heap.nextLink]

/-- A node without links empties whatever list it is removed from: its null
links are taken for those of an only element. -/
theorem remove_of_detached {node : OrderPtr} (detached : heap.Detached node) (list : IntrusiveList) :
    list.remove heap node = (heap, {}) := by
  have noPrev : (heap node).prev = none := detached.1
  have noNext : (heap node).next = none := detached.2
  have keepsPrev : heap.setPrev node none = heap := by
    rw [Heap.setPrev, ← noPrev]
    exact Function.update_eq_self node heap
  have keepsNext : heap.setNext node none = heap := by
    rw [Heap.setNext, ← noNext]
    exact Function.update_eq_self node heap
  simp [remove, skipForward, skipBackward, noPrev, noNext, keepsPrev, keepsNext]

section Halves

variable (list : IntrusiveList) (heap : Heap) (node : OrderPtr)

theorem skipForward_links (cell : OrderPtr) :
    (list.skipForward heap node).1.prevLink cell = heap.prevLink cell ∧
      (list.skipForward heap node).1.nextLink cell =
        if heap.prevLink node = some cell then heap.nextLink node else heap.nextLink cell := by
  unfold skipForward Heap.prevLink
  cases atPrev : (heap node).prev with
  | none => exact ⟨rfl, (if_neg nofun).symm⟩
  | some before =>
      constructor
      · exact congrFun (Heap.prevLink_setNext heap before (heap node).next) cell
      · dsimp only
        rw [Heap.nextLink_setNext, Function.update_apply]
        simp only [Option.some.injEq, eq_comm]
        rfl

theorem skipForward_ends :
    (list.skipForward heap node).2.head =
        (if heap.prevLink node = none then heap.nextLink node else list.head) ∧
      (list.skipForward heap node).2.tail = list.tail := by
  unfold skipForward Heap.prevLink
  cases atPrev : (heap node).prev with
  | none => exact ⟨rfl, rfl⟩
  | some before => exact ⟨rfl, rfl⟩

theorem skipBackward_links (cell : OrderPtr) :
    (list.skipBackward heap node).1.nextLink cell = heap.nextLink cell ∧
      (list.skipBackward heap node).1.prevLink cell =
        if heap.nextLink node = some cell then heap.prevLink node else heap.prevLink cell := by
  unfold skipBackward Heap.nextLink
  cases atNext : (heap node).next with
  | none => exact ⟨rfl, (if_neg nofun).symm⟩
  | some after =>
      constructor
      · exact congrFun (Heap.nextLink_setPrev heap after (heap node).prev) cell
      · dsimp only
        rw [Heap.prevLink_setPrev, Function.update_apply]
        simp only [Option.some.injEq, eq_comm]
        rfl

theorem skipBackward_ends :
    (list.skipBackward heap node).2.tail =
        (if heap.nextLink node = none then heap.prevLink node else list.tail) ∧
      (list.skipBackward heap node).2.head = list.head := by
  unfold skipBackward Heap.nextLink
  cases atNext : (heap node).next with
  | none => exact ⟨rfl, rfl⟩
  | some after => exact ⟨rfl, rfl⟩

end Halves

/-- The links and end pointers after `remove`, read off the links before it.
The node is not its own neighbour, so the source may read its next link after
the first store. -/
theorem remove_links (list : IntrusiveList) {node : OrderPtr}
    (notBefore : heap.prevLink node ≠ some node) :
    (forall cell, cell ≠ node -> (list.remove heap node).1.nextLink cell =
        if heap.prevLink node = some cell then heap.nextLink node else heap.nextLink cell) ∧
      (forall cell, cell ≠ node -> (list.remove heap node).1.prevLink cell =
        if heap.nextLink node = some cell then heap.prevLink node else heap.prevLink cell) ∧
      (list.remove heap node).2.head =
        (if heap.prevLink node = none then heap.nextLink node else list.head) ∧
      (list.remove heap node).2.tail =
        (if heap.nextLink node = none then heap.prevLink node else list.tail) := by
  have ownNext : (list.skipForward heap node).1.nextLink node = heap.nextLink node := by
    rw [(skipForward_links list heap node node).2, if_neg notBefore]
  have ownPrev := (skipForward_links list heap node node).1
  unfold remove
  refine ⟨?_, ?_, ?_, ?_⟩
  · intro cell away
    dsimp only
    rw [Heap.nextLink_setNext, Function.update_of_ne away, Heap.nextLink_setPrev,
      (skipBackward_links _ _ node cell).1, (skipForward_links list heap node cell).2]
  · intro cell away
    dsimp only
    rw [Heap.prevLink_setNext, Heap.prevLink_setPrev, Function.update_of_ne away,
      (skipBackward_links _ _ node cell).2, ownNext, ownPrev,
      (skipForward_links list heap node cell).1]
  · dsimp only
    rw [(skipBackward_ends _ _ node).2, (skipForward_ends list heap node).1]
  · dsimp only
    rw [(skipBackward_ends _ _ node).1, ownNext, ownPrev, (skipForward_ends list heap node).2]

section Removal

variable {front back : List OrderPtr} {node : OrderPtr}

theorem Holds.neighbours (holds : Holds heap list (front ++ node :: back)) :
    heap.prevLink node = front.getLast? ∧ heap.nextLink node = back.head? := by
  have links := holds.links.links
  rwa [Option.or_none, Option.or_none] at links

/-- The node occurs once, so it is in neither part of the list around it. -/
theorem Holds.node_unique (holds : Holds heap list (front ++ node :: back)) :
    node ∉ front ∧ node ∉ back ∧ front.Nodup ∧ back.Nodup ∧ forall cell, cell ∈ front -> cell ∉ back := by
  have parts := List.nodup_append.mp holds.distinct
  have tail := List.nodup_cons.mp parts.2.1
  refine ⟨fun member => parts.2.2 node member node List.mem_cons_self rfl, tail.1, parts.1,
    tail.2, ?_⟩
  intro cell inFront inBack
  exact parts.2.2 cell inFront cell (List.mem_cons_of_mem node inBack) rfl

theorem Holds.not_before (holds : Holds heap list (front ++ node :: back)) :
    heap.prevLink node ≠ some node := by
  intro same
  exact holds.node_unique.1 (List.mem_of_getLast? (holds.neighbours.1.symm.trans same))

theorem Holds.remove (holds : Holds heap list (front ++ node :: back)) :
    Holds (list.remove heap node).1 (list.remove heap node).2 (front ++ back) := by
  have near := holds.neighbours
  have unique := holds.node_unique
  have facts := remove_links list holds.not_before
  have inFront : forall cell, cell ∈ front -> cell ≠ node := fun cell member same =>
    unique.1 (same ▸ member)
  have inBack : forall cell, cell ∈ back -> cell ≠ node := fun cell member same =>
    unique.2.1 (same ▸ member)
  have pieces := Chain.append.mp holds.links
  have tailPieces := pieces.2.2.2
  rw [near.1, near.2] at facts
  refine ⟨?_, ?_, ?_, Chain.append.mpr ⟨?_, ?_⟩⟩
  · rw [facts.2.2.1, holds.head]
    cases front with
    | nil => rfl
    | cons first rest => simp [List.getLast?_cons]
  · rw [facts.2.2.2, holds.tail, List.getLast?_append, List.getLast?_append]
    cases back with
    | nil => simp
    | cons first rest => simp [List.getLast?_cons]
  · exact List.nodup_append.mpr ⟨unique.2.2.1, unique.2.2.2.1, fun left inLeft right inRight same =>
      unique.2.2.2.2 left inLeft (same ▸ inRight)⟩
  · refine Chain.relinkNext ?_ ?_ ?_ unique.2.2.1 pieces.1
    · intro cell member
      rw [facts.2.1 cell (inFront cell member), if_neg]
      exact fun same => unique.2.2.2.2 cell member (List.mem_of_head? same)
    · intro cell member notLast
      rw [facts.1 cell (inFront cell member), if_neg notLast]
    · intro cell isLast
      rw [facts.1 cell (inFront cell (List.mem_of_getLast? isLast)), if_pos isLast, Option.or_none]
  · refine Chain.relinkPrev ?_ ?_ ?_ unique.2.2.2.1 tailPieces
    · intro cell member notFirst
      rw [facts.2.1 cell (inBack cell member), if_neg notFirst]
    · intro cell member
      rw [facts.1 cell (inBack cell member), if_neg]
      exact fun same => unique.2.2.2.2 cell (List.mem_of_getLast? same) member
    · intro cell isFirst
      rw [facts.2.1 cell (inBack cell (List.mem_of_head? isFirst)), if_pos isFirst, Option.or_none]

/-- Only the list's own nodes are written. -/
theorem Holds.remove_frame (holds : Holds heap list (front ++ node :: back)) {other : OrderPtr}
    (outside : other ∉ front ++ node :: back) :
    (list.remove heap node).1 other = heap other := by
  have near := holds.neighbours
  have unique := holds.node_unique
  have parts : other ∉ front ∧ other ≠ node ∧ other ∉ back := by
    simpa [not_or] using outside
  have facts := remove_links list holds.not_before
  have data := congrFun (remove_order list heap node) other
  have next : (list.remove heap node).1.nextLink other = heap.nextLink other := by
    rw [facts.1 other parts.2.1, if_neg]
    exact fun same => parts.1 (List.mem_of_getLast? (near.1.symm.trans same))
  have prev : (list.remove heap node).1.prevLink other = heap.prevLink other := by
    rw [facts.2.1 other parts.2.1, if_neg]
    exact fun same => parts.2.2 (List.mem_of_head? (near.2.symm.trans same))
  unfold Heap.order Heap.nextLink Heap.prevLink at *
  cases left : (list.remove heap node).1 other
  cases right : heap other
  simp_all

end Removal

end IntrusiveList
end NexusHft
