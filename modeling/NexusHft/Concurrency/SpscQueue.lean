import NexusHft.Foundations.LabelledRun
import NexusHft.Foundations.RingIndex
import Mathlib.Logic.Function.Basic

namespace NexusHft

open Foundations

/-!
# The single-producer single-consumer queue

Every load, comparison and store of `push` and `pop` is a step of its own, and
the two parties take their steps in any order.  A party's program point carries
the values its call holds in local variables.  The items may be of any type;
`moved` is what `std::move` leaves in a slot.
-/

section Queue

variable {Item : Type}

/-- Where the producer stands in `push`: before or after each load and store of
the source, with the locals it has in its hands there.  Between two of these
points the consumer may take any number of steps. -/
inductive PushPoint (Item : Type) where
  | idle
  | compare (item : Item) (head nextHead : Nat)
  | reload (item : Item) (head nextHead : Nat)
  | recheck (item : Item) (head nextHead : Nat)
  | write (item : Item) (head nextHead : Nat)
  | store (item : Item) (nextHead : Nat)

/-- Where the consumer stands in `pop`.  The points mirror those of the producer:
the cached index is compared, reloaded and compared again before the slot is read.
-/
inductive PopPoint (Item : Type) where
  | idle
  | compare (tail : Nat)
  | reload (tail : Nat)
  | recheck (tail : Nat)
  | read (tail : Nat)
  | store (item : Item) (tail : Nat)

/-- The ring, the two shared indices, the copies of them that each thread caches,
and where the two threads stand in their calls.  The buffer is a function of the
index; only indices below the capacity are ever used. -/
structure SpscQueue (Item : Type) where
  buffer : Nat -> Item
  head : Nat := 0
  cachedTail : Nat := 0
  tail : Nat := 0
  cachedHead : Nat := 0
  producer : PushPoint Item := .idle
  consumer : PopPoint Item := .idle

/-- What a step tells the caller: a call goes on, or returns.  A push returns with
the item that was or was not taken, a pop with the item it has taken or with
nothing. -/
inductive Outcome (Item : Type) where
  | running
  | pushed (item : Item)
  | full (item : Item)
  | popped (item : Item)
  | empty

namespace SpscQueue

/-- The next step of the producer, which pushes `offer` when it starts a call. -/
def pushStep (mask : Nat) (offer : Item) (queue : SpscQueue Item) :
    Outcome Item × SpscQueue Item :=
  match queue.producer with
  | .idle => (.running,
      { queue with producer := .compare offer queue.head ((queue.head + 1) &&& mask) })
  | .compare item head nextHead =>
      if nextHead = queue.cachedTail then
        (.running, { queue with producer := .reload item head nextHead })
      else (.running, { queue with producer := .write item head nextHead })
  | .reload item head nextHead => (.running,
      { queue with cachedTail := queue.tail, producer := .recheck item head nextHead })
  | .recheck item head nextHead =>
      if nextHead = queue.cachedTail then (.full item, { queue with producer := .idle })
      else (.running, { queue with producer := .write item head nextHead })
  | .write item head nextHead => (.running,
      { queue with
        buffer := Function.update queue.buffer head item
        producer := .store item nextHead })
  | .store item nextHead => (.pushed item, { queue with head := nextHead, producer := .idle })

/-- The next step of the consumer. -/
def popStep (mask : Nat) (moved : Item -> Item) (queue : SpscQueue Item) :
    Outcome Item × SpscQueue Item :=
  match queue.consumer with
  | .idle => (.running, { queue with consumer := .compare queue.tail })
  | .compare tail =>
      if tail = queue.cachedHead then (.running, { queue with consumer := .reload tail })
      else (.running, { queue with consumer := .read tail })
  | .reload tail => (.running,
      { queue with cachedHead := queue.head, consumer := .recheck tail })
  | .recheck tail =>
      if tail = queue.cachedHead then (.empty, { queue with consumer := .idle })
      else (.running, { queue with consumer := .read tail })
  | .read tail => (.running,
      { queue with
        buffer := Function.update queue.buffer tail (moved (queue.buffer tail))
        consumer := .store (queue.buffer tail) tail })
  | .store item tail => (.popped item,
      { queue with tail := (tail + 1) &&& mask, consumer := .idle })

/-- One producer and one consumer, interleaved step by step, from an empty ring
over memory of any content.  In a turn the producer may be offered any item; the
offer matters only in the turn that begins a call. -/
def system (capacity : Nat) (moved : Item -> Item) :
    LabelledSystem (SpscQueue Item) (Outcome Item) where
  starts queue := Exists fun buffer => queue = { buffer := buffer }
  step queue outcome next :=
    (Exists fun offer => queue.pushStep (capacity - 1) offer = (outcome, next)) ∨
      queue.popStep (capacity - 1) moved = (outcome, next)

/-! ## What a step can do -/

/-- The steps of the producer, each with its guard and its effect.  The proofs
split a step by these cases and do not unfold `pushStep`.  A push that finds room
does so before or after it has reloaded the tail. -/
inductive Pushes (mask : Nat) (offer : Item) (queue : SpscQueue Item) :
    Outcome Item -> SpscQueue Item -> Prop
  | begins : queue.producer = .idle -> Pushes mask offer queue .running
      { queue with producer := .compare offer queue.head ((queue.head + 1) &&& mask) }
  | looksFull {item : Item} {head nextHead : Nat} :
      queue.producer = .compare item head nextHead -> nextHead = queue.cachedTail ->
        Pushes mask offer queue .running { queue with producer := .reload item head nextHead }
  | reloads {item : Item} {head nextHead : Nat} : queue.producer = .reload item head nextHead ->
      Pushes mask offer queue .running
        { queue with cachedTail := queue.tail, producer := .recheck item head nextHead }
  | isFull {item : Item} {head nextHead : Nat} : queue.producer = .recheck item head nextHead ->
      nextHead = queue.cachedTail ->
        Pushes mask offer queue (.full item) { queue with producer := .idle }
  | hasRoom {item : Item} {head nextHead : Nat} :
      queue.producer = .compare item head nextHead ∨
        queue.producer = .recheck item head nextHead -> nextHead ≠ queue.cachedTail ->
          Pushes mask offer queue .running { queue with producer := .write item head nextHead }
  | writes {item : Item} {head nextHead : Nat} : queue.producer = .write item head nextHead ->
      Pushes mask offer queue .running
        { queue with
          buffer := Function.update queue.buffer head item
          producer := .store item nextHead }
  | stores {item : Item} {nextHead : Nat} : queue.producer = .store item nextHead ->
      Pushes mask offer queue (.pushed item) { queue with head := nextHead, producer := .idle }

/-- The steps of the consumer, each with its guard and its effect.  A slot is read
and moved out of before the tail is stored, so the producer cannot have it
meanwhile. -/
inductive Pops (mask : Nat) (moved : Item -> Item) (queue : SpscQueue Item) :
    Outcome Item -> SpscQueue Item -> Prop
  | begins : queue.consumer = .idle ->
      Pops mask moved queue .running { queue with consumer := .compare queue.tail }
  | looksEmpty {tail : Nat} : queue.consumer = .compare tail -> tail = queue.cachedHead ->
      Pops mask moved queue .running { queue with consumer := .reload tail }
  | reloads {tail : Nat} : queue.consumer = .reload tail -> Pops mask moved queue .running
      { queue with cachedHead := queue.head, consumer := .recheck tail }
  | isEmpty {tail : Nat} : queue.consumer = .recheck tail -> tail = queue.cachedHead ->
      Pops mask moved queue .empty { queue with consumer := .idle }
  | hasItem {tail : Nat} : queue.consumer = .compare tail ∨ queue.consumer = .recheck tail ->
      tail ≠ queue.cachedHead ->
        Pops mask moved queue .running { queue with consumer := .read tail }
  | reads {tail : Nat} : queue.consumer = .read tail -> Pops mask moved queue .running
      { queue with
        buffer := Function.update queue.buffer tail (moved (queue.buffer tail))
        consumer := .store (queue.buffer tail) tail }
  | stores {item : Item} {tail : Nat} : queue.consumer = .store item tail ->
      Pops mask moved queue (.popped item)
        { queue with tail := (tail + 1) &&& mask, consumer := .idle }

section Inversion

variable {mask : Nat} {queue next : SpscQueue Item} {outcome : Outcome Item}

theorem pushes_of_pushStep {offer : Item}
    (moves : queue.pushStep mask offer = (outcome, next)) : Pushes mask offer queue outcome next := by
  unfold pushStep at moves
  cases point : queue.producer with
  | idle =>
      rw [point] at moves
      cases moves
      exact .begins point
  | compare item head nextHead =>
      rw [point] at moves
      dsimp only at moves
      by_cases same : nextHead = queue.cachedTail
      · rw [if_pos same] at moves
        cases moves
        exact .looksFull point same
      · rw [if_neg same] at moves
        cases moves
        exact .hasRoom (Or.inl point) same
  | reload item head nextHead =>
      rw [point] at moves
      cases moves
      exact .reloads point
  | recheck item head nextHead =>
      rw [point] at moves
      dsimp only at moves
      by_cases same : nextHead = queue.cachedTail
      · rw [if_pos same] at moves
        cases moves
        exact .isFull point same
      · rw [if_neg same] at moves
        cases moves
        exact .hasRoom (Or.inr point) same
  | write item head nextHead =>
      rw [point] at moves
      cases moves
      exact .writes point
  | store item nextHead =>
      rw [point] at moves
      cases moves
      exact .stores point

theorem pops_of_popStep {moved : Item -> Item}
    (moves : queue.popStep mask moved = (outcome, next)) : Pops mask moved queue outcome next := by
  unfold popStep at moves
  cases point : queue.consumer with
  | idle =>
      rw [point] at moves
      cases moves
      exact .begins point
  | compare tail =>
      rw [point] at moves
      dsimp only at moves
      by_cases same : tail = queue.cachedHead
      · rw [if_pos same] at moves
        cases moves
        exact .looksEmpty point same
      · rw [if_neg same] at moves
        cases moves
        exact .hasItem (Or.inl point) same
  | reload tail =>
      rw [point] at moves
      cases moves
      exact .reloads point
  | recheck tail =>
      rw [point] at moves
      dsimp only at moves
      by_cases same : tail = queue.cachedHead
      · rw [if_pos same] at moves
        cases moves
        exact .isEmpty point same
      · rw [if_neg same] at moves
        cases moves
        exact .hasItem (Or.inr point) same
  | read tail =>
      rw [point] at moves
      cases moves
      exact .reads point
  | store item tail =>
      rw [point] at moves
      cases moves
      exact .stores point

end Inversion
end SpscQueue

def Outcome.pushedItem? : Outcome Item -> Option Item
  | .pushed item => some item
  | _ => none

def Outcome.poppedItem? : Outcome Item -> Option Item
  | .popped item => some item
  | _ => none

/-- The items whose push has succeeded, oldest first. -/
def pushedItems (past : List (Outcome Item)) : List Item := past.filterMap Outcome.pushedItem?

/-- The items that successful pops have returned, oldest first. -/
def poppedItems (past : List (Outcome Item)) : List Item := past.filterMap Outcome.poppedItem?

end Queue
end NexusHft
