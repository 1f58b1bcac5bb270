import NexusHft.Concurrency.SpscQueue

namespace NexusHft

open Foundations

/-!
# Safety of the queue under every interleaving

The invariant counts positions instead of slots.  `H` pushes and `T` pops have
succeeded; the producer has last seen the tail at `seenTail <= T` and the
consumer the head at `seenHead <= H`.  Both copies may be old, but an old tail
only makes the producer believe that the ring is fuller, and an old head only
makes the consumer believe that it is emptier.  The four positions lie in one
window, so each comparison of slots decides a comparison of positions.
-/

section Safety

variable {Item : Type}

/-! ## The items of a run -/

section Items

variable {past : List (Outcome Item)} {outcome : Outcome Item}

theorem pushedItems_snoc : pushedItems (past ++ [outcome]) =
    pushedItems past ++ outcome.pushedItem?.toList := by
  rw [pushedItems, List.filterMap_append]
  cases outcome <;> rfl

theorem poppedItems_snoc : poppedItems (past ++ [outcome]) =
    poppedItems past ++ outcome.poppedItem?.toList := by
  rw [poppedItems, List.filterMap_append]
  cases outcome <;> rfl

end Items

/-! ## The invariant -/

/-- The positions behind the four indices.  A position counts the items pushed or
popped and never wraps; the index is its remainder.  Each thread has seen a past
position of the other one, which errs on the safe side. -/
structure Positions (capacity pushed popped seenTail seenHead : Nat) (queue : SpscQueue Item) :
    Prop where
  head : queue.head = pushed % capacity
  tail : queue.tail = popped % capacity
  cachedTail : queue.cachedTail = seenTail % capacity
  cachedHead : queue.cachedHead = seenHead % capacity
  tailSeen : seenTail ≤ popped
  tailBehind : popped ≤ seenHead
  headSeen : seenHead ≤ pushed
  room : pushed < seenTail + capacity

/-- What the producer knows at its program point. -/
def ProducerKnows (capacity pushed seenTail : Nat) (queue : SpscQueue Item) : Prop :=
  match queue.producer with
  | .idle => True
  | .compare _ head nextHead => head = pushed % capacity ∧ nextHead = (pushed + 1) % capacity
  | .reload _ head nextHead => head = pushed % capacity ∧ nextHead = (pushed + 1) % capacity
  | .recheck _ head nextHead => head = pushed % capacity ∧ nextHead = (pushed + 1) % capacity
  | .write _ head nextHead => head = pushed % capacity ∧ nextHead = (pushed + 1) % capacity ∧
      pushed + 1 < seenTail + capacity
  | .store item nextHead => nextHead = (pushed + 1) % capacity ∧
      pushed + 1 < seenTail + capacity ∧ queue.buffer (pushed % capacity) = item

/-- What the consumer knows at its program point. -/
def ConsumerKnows (capacity : Nat) (items : List Item) (popped seenHead : Nat)
    (queue : SpscQueue Item) : Prop :=
  match queue.consumer with
  | .idle => True
  | .compare tail => tail = popped % capacity
  | .reload tail => tail = popped % capacity
  | .recheck tail => tail = popped % capacity
  | .read tail => tail = popped % capacity ∧ popped < seenHead
  | .store item tail => tail = popped % capacity ∧ popped < seenHead ∧ items[popped]? = some item

/-- The first position whose slot still holds its item: a pop that has read its
slot has already moved the item out. -/
def SpscQueue.unread (queue : SpscQueue Item) (popped : Nat) : Nat :=
  match queue.consumer with
  | .store _ _ => popped + 1
  | _ => popped

theorem SpscQueue.unread_eq {queue : SpscQueue Item} {popped : Nat}
    (reading : forall item tail, queue.consumer ≠ .store item tail) :
    queue.unread popped = popped := by
  unfold SpscQueue.unread
  cases point : queue.consumer with
  | store item tail => exact absurd point (reading item tail)
  | idle | compare tail | reload tail | recheck tail | read tail => rfl

/-- The invariant of the queue after the steps `past`: the positions, what each
thread may conclude at its point, and that every item pushed and not yet popped
stands at its index.  From these the popped items begin the pushed ones. -/
structure Flows (capacity : Nat) (past : List (Outcome Item)) (queue : SpscQueue Item)
    (seenTail seenHead : Nat) : Prop where
  positions : Positions capacity (pushedItems past).length (poppedItems past).length seenTail
    seenHead queue
  producer : ProducerKnows capacity (pushedItems past).length seenTail queue
  consumer : ConsumerKnows capacity (pushedItems past) (poppedItems past).length seenHead queue
  held : forall position item, queue.unread (poppedItems past).length ≤ position ->
    (pushedItems past)[position]? = some item -> queue.buffer (position % capacity) = item
  fifo : poppedItems past <+: pushedItems past

/-! ## Steps that only move a party -/

section Steps

variable {capacity : Nat} {past : List (Outcome Item)} {queue next : SpscQueue Item}
  {seenTail seenHead : Nat} {outcome : Outcome Item}

/-- A step that neither pushes nor pops leaves the items of the run alone. -/
theorem Flows.quiet (flows : Flows capacity past queue seenTail seenHead)
    (notPushed : outcome.pushedItem? = none) (notPopped : outcome.poppedItem? = none) :
    Flows capacity (past ++ [outcome]) queue seenTail seenHead := by
  have pushed : pushedItems (past ++ [outcome]) = pushedItems past := by
    rw [pushedItems_snoc, notPushed]
    exact List.append_nil _
  have popped : poppedItems (past ++ [outcome]) = poppedItems past := by
    rw [poppedItems_snoc, notPopped]
    exact List.append_nil _
  constructor
  · rw [pushed, popped]
    exact flows.positions
  · rw [pushed]
    exact flows.producer
  · rw [pushed, popped]
    exact flows.consumer
  · rw [pushed, popped]
    exact flows.held
  · rw [pushed, popped]
    exact flows.fifo

theorem Flows.withProducer (flows : Flows capacity past queue seenTail seenHead)
    {point : PushPoint Item}
    (knows : ProducerKnows capacity (pushedItems past).length seenTail
      { queue with producer := point }) :
    Flows capacity past { queue with producer := point } seenTail seenHead where
  positions := ⟨flows.positions.head, flows.positions.tail, flows.positions.cachedTail,
    flows.positions.cachedHead, flows.positions.tailSeen, flows.positions.tailBehind,
    flows.positions.headSeen, flows.positions.room⟩
  producer := knows
  consumer := flows.consumer
  held := flows.held
  fifo := flows.fifo

theorem Flows.withConsumer (flows : Flows capacity past queue seenTail seenHead)
    {point : PopPoint Item}
    (knows : ConsumerKnows capacity (pushedItems past) (poppedItems past).length seenHead
      { queue with consumer := point })
    (unread : queue.unread (poppedItems past).length ≤
      SpscQueue.unread { queue with consumer := point } (poppedItems past).length) :
    Flows capacity past { queue with consumer := point } seenTail seenHead where
  positions := ⟨flows.positions.head, flows.positions.tail, flows.positions.cachedTail,
    flows.positions.cachedHead, flows.positions.tailSeen, flows.positions.tailBehind,
    flows.positions.headSeen, flows.positions.room⟩
  producer := flows.producer
  consumer := knows
  held := fun position item le => flows.held position item (Nat.le_trans unread le)
  fifo := flows.fifo

theorem Flows.popped_le_unread {position : Nat}
    (unread : queue.unread (poppedItems past).length ≤ position) :
    (poppedItems past).length ≤ position := by
  unfold SpscQueue.unread at unread
  cases point : queue.consumer with
  | store item tail =>
      rw [point] at unread
      exact Nat.le_of_succ_le unread
  | idle | compare tail | reload tail | recheck tail | read tail =>
      rw [point] at unread
      exact unread

/-- A producer that does not find the ring full has room for one more item. -/
theorem Flows.notFull (flows : Flows capacity past queue seenTail seenHead) {nextHead : Nat}
    (slot : nextHead = ((pushedItems past).length + 1) % capacity)
    (differs : nextHead ≠ queue.cachedTail) :
    (pushedItems past).length + 1 < seenTail + capacity := by
  have positions := flows.positions
  have notFull : ¬ (pushedItems past).length + 1 = seenTail + capacity := by
    intro full
    apply differs
    rw [slot, positions.cachedTail]
    exact (full_iff (Nat.le_trans positions.tailSeen
      (Nat.le_trans positions.tailBehind positions.headSeen)) positions.room).mpr full
  have room := positions.room
  omega

/-- A consumer that does not find the ring empty has an item to read. -/
theorem Flows.notEmpty (flows : Flows capacity past queue seenTail seenHead) {tail : Nat}
    (slot : tail = (poppedItems past).length % capacity) (differs : tail ≠ queue.cachedHead) :
    (poppedItems past).length < seenHead := by
  have positions := flows.positions
  rcases Nat.lt_or_eq_of_le positions.tailBehind with some | none
  · exact some
  · refine absurd ?_ differs
    rw [slot, positions.cachedHead, none]

/-! ## The producer's step -/

/-- A push that returns makes its item visible at the next position.  The slot was
written in an earlier step, so whoever sees the new head also finds the item
there. -/
theorem Flows.pushed {k : Nat} (flows : Flows (2 ^ k) past queue seenTail seenHead) {item : Item}
    {nextHead : Nat} (slot : nextHead = ((pushedItems past).length + 1) % 2 ^ k)
    (room : (pushedItems past).length + 1 < seenTail + 2 ^ k)
    (written : queue.buffer ((pushedItems past).length % 2 ^ k) = item) :
    Flows (2 ^ k) (past ++ [.pushed item]) { queue with head := nextHead, producer := .idle }
      seenTail seenHead := by
  have positions := flows.positions
  have pushed : pushedItems (past ++ [.pushed item]) = pushedItems past ++ [item] :=
    pushedItems_snoc
  have popped : poppedItems (past ++ [.pushed item]) = poppedItems past := by
    rw [poppedItems_snoc]
    exact List.append_nil _
  have count : (pushedItems (past ++ [.pushed item])).length = (pushedItems past).length + 1 := by
    rw [pushed, List.length_append, List.length_singleton]
  constructor
  · rw [popped, count]
    exact ⟨slot, positions.tail, positions.cachedTail, positions.cachedHead, positions.tailSeen,
      positions.tailBehind, Nat.le_succ_of_le positions.headSeen, room⟩
  · trivial
  · rw [pushed, popped]
    have knows := flows.consumer
    unfold ConsumerKnows at knows ⊢
    cases point : queue.consumer with
    | store found tail =>
        rw [point] at knows
        rcases knows with ⟨atTail, waiting, listed⟩
        exact ⟨atTail, waiting, by
          rw [List.getElem?_append_left (List.getElem?_eq_some_iff.mp listed).1]
          exact listed⟩
    | idle => trivial
    | compare tail | reload tail | recheck tail | read tail =>
        rw [point] at knows
        exact knows
  · rw [pushed, popped]
    intro position found unread listed
    rcases Nat.lt_or_ge position (pushedItems past).length with old | new
    · rw [List.getElem?_append_left old] at listed
      exact flows.held position found unread listed
    · have last := (List.getElem?_eq_some_iff.mp listed).1
      rw [List.length_append, List.length_singleton] at last
      have same : position = (pushedItems past).length := Nat.le_antisymm (Nat.le_of_lt_succ last) new
      rw [same, List.getElem?_append_right (Nat.le_refl _), Nat.sub_self] at listed
      cases listed
      rw [same]
      exact written
  · rw [pushed, popped]
    exact flows.fifo.trans (List.prefix_append _ _)

/-- Writing the slot of the next position touches no unread one.  All unread
positions lie within one round of the ring, and the producer has made sure that
the next one does too. -/
theorem Flows.written {k : Nat} (flows : Flows (2 ^ k) past queue seenTail seenHead) {item : Item}
    {nextHead : Nat} (slot : nextHead = ((pushedItems past).length + 1) % 2 ^ k)
    (room : (pushedItems past).length + 1 < seenTail + 2 ^ k) :
    Flows (2 ^ k) past { queue with
      buffer := Function.update queue.buffer ((pushedItems past).length % 2 ^ k) item
      producer := .store item nextHead } seenTail seenHead := by
  have positions := flows.positions
  refine ⟨⟨positions.head, positions.tail, positions.cachedTail, positions.cachedHead,
    positions.tailSeen, positions.tailBehind, positions.headSeen, positions.room⟩,
    ⟨slot, room, Function.update_self _ _ _⟩, flows.consumer, ?_, flows.fifo⟩
  intro position found unread listed
  have waits := flows.held position found unread listed
  have pushed := (List.getElem?_eq_some_iff.mp listed).1
  have popped := Flows.popped_le_unread unread
  change Function.update queue.buffer ((pushedItems past).length % 2 ^ k) item
    (position % 2 ^ k) = found
  rw [Function.update_of_ne, waits]
  intro same
  have seen := positions.tailSeen
  have equal := @same_position (2 ^ k) (poppedItems past).length position
    (pushedItems past).length popped (by omega) (by omega) (by omega) same
  omega

theorem Flows.push {k : Nat} (flows : Flows (2 ^ k) past queue seenTail seenHead) {offer : Item}
    (moves : queue.pushStep (2 ^ k - 1) offer = (outcome, next)) :
    Exists fun seenTail' => Flows (2 ^ k) (past ++ [outcome]) next seenTail' seenHead := by
  have positions := flows.positions
  have knows := flows.producer
  unfold ProducerKnows at knows
  cases SpscQueue.pushes_of_pushStep moves with
  | begins point =>
      refine ⟨seenTail, Flows.quiet (flows.withProducer ⟨positions.head, ?_⟩) rfl rfl⟩
      rw [positions.head]
      exact next_slot
  | looksFull point same =>
      rw [point] at knows
      exact ⟨seenTail, Flows.quiet (flows.withProducer knows) rfl rfl⟩
  | reloads point =>
      rw [point] at knows
      refine ⟨(poppedItems past).length, Flows.quiet ?_ rfl rfl⟩
      refine ⟨⟨positions.head, positions.tail, positions.tail, positions.cachedHead, Nat.le_refl _,
        positions.tailBehind, positions.headSeen, ?_⟩, knows, flows.consumer, flows.held, flows.fifo⟩
      have room := positions.room
      have seen := positions.tailSeen
      omega
  | isFull point same => exact ⟨seenTail, Flows.quiet (flows.withProducer trivial) rfl rfl⟩
  | @hasRoom item head nextHead points differs =>
      have slots : head = (pushedItems past).length % 2 ^ k ∧
          nextHead = ((pushedItems past).length + 1) % 2 ^ k := by
        rcases points with point | point
        · rw [point] at knows
          exact knows
        · rw [point] at knows
          exact knows
      exact ⟨seenTail, Flows.quiet (flows.withProducer
        ⟨slots.1, slots.2, flows.notFull slots.2 differs⟩) rfl rfl⟩
  | writes point =>
      rw [point] at knows
      rcases knows with ⟨atHead, slot, room⟩
      subst atHead
      exact ⟨seenTail, Flows.quiet (flows.written slot room) rfl rfl⟩
  | stores point =>
      rw [point] at knows
      rcases knows with ⟨slot, room, written⟩
      exact ⟨seenTail, flows.pushed slot room written⟩

/-! ## The consumer's step -/

/-- Reading a slot moves its item out; no other unread position uses the slot.
The position counts as read from here on, although the tail is stored only in the
next step. -/
theorem Flows.taken (flows : Flows capacity past queue seenTail seenHead)
    (waiting : (poppedItems past).length < seenHead) (reading : forall item tail,
      queue.consumer ≠ .store item tail) (moved : Item -> Item) :
    Flows capacity past { queue with
      buffer := Function.update queue.buffer ((poppedItems past).length % capacity)
        (moved (queue.buffer ((poppedItems past).length % capacity)))
      consumer := .store (queue.buffer ((poppedItems past).length % capacity))
        ((poppedItems past).length % capacity) } seenTail seenHead := by
  have positions := flows.positions
  have inside : (poppedItems past).length < (pushedItems past).length :=
    Nat.lt_of_lt_of_le waiting positions.headSeen
  have apart : forall position, (poppedItems past).length < position ->
      position < seenTail + capacity ->
      position % capacity ≠ (poppedItems past).length % capacity := by
    intro position after before same
    have seen := positions.tailSeen
    have equal := same_position (Nat.le_of_lt after) (by omega) (Nat.le_refl _) (by omega) same
    omega
  have unread := @SpscQueue.unread_eq Item queue (poppedItems past).length reading
  constructor
  · exact ⟨positions.head, positions.tail, positions.cachedTail, positions.cachedHead,
      positions.tailSeen, positions.tailBehind, positions.headSeen, positions.room⟩
  · have knows := flows.producer
    unfold ProducerKnows at knows ⊢
    cases point : queue.producer with
    | store item nextHead =>
        rw [point] at knows
        rcases knows with ⟨slot, room, written⟩
        apply And.intro slot
        apply And.intro room
        exact (Function.update_of_ne (apart _ inside positions.room) _ _).trans written
    | idle => trivial
    | compare item head nextHead | reload item head nextHead | recheck item head nextHead
    | write item head nextHead =>
        rw [point] at knows
        exact knows
  · apply And.intro rfl
    apply And.intro waiting
    have listed := List.getElem?_eq_getElem inside
    rw [listed, flows.held _ _ (Nat.le_of_eq unread) listed]
  · intro position item after listed
    have before := (List.getElem?_eq_some_iff.mp listed).1
    have other := apart position after (Nat.lt_trans before positions.room)
    have later : queue.unread (poppedItems past).length ≤ position := by
      rw [unread]
      exact Nat.le_of_lt after
    exact (Function.update_of_ne other _ _).trans (flows.held position item later listed)
  · exact flows.fifo

/-- A pop that returns advances the tail past the item it has read.  Only now may
the producer use the slot again, and nothing in it is read any more. -/
theorem Flows.popped {k : Nat} (flows : Flows (2 ^ k) past queue seenTail seenHead) {item : Item}
    {tail : Nat} (point : queue.consumer = .store item tail)
    (waiting : (poppedItems past).length < seenHead)
    (listed : (pushedItems past)[(poppedItems past).length]? = some item) :
    Flows (2 ^ k) (past ++ [.popped item])
      { queue with tail := ((poppedItems past).length + 1) % 2 ^ k, consumer := .idle }
      seenTail seenHead := by
  have positions := flows.positions
  have pushed : pushedItems (past ++ [.popped item]) = pushedItems past := by
    rw [pushedItems_snoc]
    exact List.append_nil _
  have popped : poppedItems (past ++ [.popped item]) = poppedItems past ++ [item] :=
    poppedItems_snoc
  have count : (poppedItems (past ++ [.popped item])).length = (poppedItems past).length + 1 := by
    rw [popped, List.length_append, List.length_singleton]
  constructor
  · rw [pushed, count]
    exact ⟨positions.head, rfl, positions.cachedTail, positions.cachedHead,
      Nat.le_succ_of_le positions.tailSeen, waiting, positions.headSeen, positions.room⟩
  · rw [pushed]
    exact flows.producer
  · trivial
  · rw [pushed, count]
    intro position found after there
    apply flows.held position found _ there
    unfold SpscQueue.unread
    rw [point]
    exact after
  · rw [pushed, popped]
    rcases flows.fifo with ⟨rest, whole⟩
    cases rest with
    | nil =>
        rw [← whole, List.append_nil, List.getElem?_eq_none (Nat.le_refl _)] at listed
        cases listed
    | cons first rest =>
        rw [← whole, List.getElem?_append_right (Nat.le_refl _), Nat.sub_self] at listed
        cases listed
        exact ⟨rest, by rw [← whole, List.append_assoc, List.singleton_append]⟩

theorem Flows.pop {k : Nat} (flows : Flows (2 ^ k) past queue seenTail seenHead)
    {moved : Item -> Item} (moves : queue.popStep (2 ^ k - 1) moved = (outcome, next)) :
    Exists fun seenHead' => Flows (2 ^ k) (past ++ [outcome]) next seenTail seenHead' := by
  have positions := flows.positions
  have knows := flows.consumer
  have unread : (forall item tail, queue.consumer ≠ .store item tail) ->
      queue.unread (poppedItems past).length ≤ (poppedItems past).length :=
    fun reading => Nat.le_of_eq (SpscQueue.unread_eq reading)
  unfold ConsumerKnows at knows
  cases SpscQueue.pops_of_popStep moves with
  | begins point =>
      exact ⟨seenHead, Flows.quiet (flows.withConsumer positions.tail (unread (by simp [point])))
        rfl rfl⟩
  | looksEmpty point same =>
      rw [point] at knows
      exact ⟨seenHead, Flows.quiet (flows.withConsumer knows (unread (by simp [point]))) rfl rfl⟩
  | reloads point =>
      rw [point] at knows
      refine ⟨(pushedItems past).length, Flows.quiet ⟨?_, flows.producer, knows, ?_, flows.fifo⟩
        rfl rfl⟩
      · exact ⟨positions.head, positions.tail, positions.cachedTail, positions.head,
          positions.tailSeen, Nat.le_trans positions.tailBehind positions.headSeen, Nat.le_refl _,
          positions.room⟩
      · intro position item after
        exact flows.held position item (Nat.le_trans (unread (by simp [point])) after)
  | isEmpty point same =>
      exact ⟨seenHead, Flows.quiet (flows.withConsumer trivial (unread (by simp [point]))) rfl rfl⟩
  | @hasItem tail points differs =>
      have slot : tail = (poppedItems past).length % 2 ^ k := by
        rcases points with point | point
        · rw [point] at knows
          exact knows
        · rw [point] at knows
          exact knows
      have reading : forall item tail, queue.consumer ≠ .store item tail := by
        rcases points with point | point
        · simp [point]
        · simp [point]
      exact ⟨seenHead, Flows.quiet (flows.withConsumer ⟨slot, flows.notEmpty slot differs⟩
        (unread reading)) rfl rfl⟩
  | reads point =>
      rw [point] at knows
      rcases knows with ⟨atTail, waiting⟩
      subst atTail
      exact ⟨seenHead, Flows.quiet (flows.taken waiting (by simp [point]) moved) rfl rfl⟩
  | stores point =>
      rw [point] at knows
      rcases knows with ⟨atTail, waiting, listed⟩
      refine ⟨seenHead, ?_⟩
      rw [atTail, next_slot]
      exact flows.popped point waiting listed

/-! ## Whole runs -/

theorem flows_of_run {k : Nat} {moved : Item -> Item}
    (run : (SpscQueue.system (2 ^ k) moved).Run past queue) :
    Exists fun seenTail => Exists fun seenHead => Flows (2 ^ k) past queue seenTail seenHead := by
  apply run.invariant (fun past queue => Exists fun seenTail => Exists fun seenHead =>
    Flows (2 ^ k) past queue seenTail seenHead)
  · intro start begins
    rcases begins with ⟨buffer, fresh⟩
    subst fresh
    have zero : 0 = 0 % 2 ^ k := (Nat.zero_mod _).symm
    refine ⟨0, 0, ⟨zero, zero, zero, zero, Nat.le_refl _, Nat.le_refl _, Nat.le_refl _, ?_⟩,
      trivial, trivial, ?_, List.prefix_refl _⟩
    · rw [Nat.zero_add]
      exact Nat.two_pow_pos k
    · intro position item unread listed
      cases listed
  · intro before state outcome after _ holds moves
    rcases holds with ⟨seenTail, seenHead, flows⟩
    rcases moves with ⟨offer, pushes⟩ | pops
    · rcases flows.push pushes with ⟨seenTail', kept⟩
      exact ⟨seenTail', seenHead, kept⟩
    · rcases flows.pop pops with ⟨seenHead', kept⟩
      exact ⟨seenTail, seenHead', kept⟩

/-- A producer about to write and a consumer about to read are at different slots. -/
theorem Flows.apart (flows : Flows capacity past queue seenTail seenHead) {item : Item}
    {head nextHead tail : Nat} (writes : queue.producer = .write item head nextHead)
    (reads : queue.consumer = .read tail) : head ≠ tail := by
  have positions := flows.positions
  have producer := flows.producer
  have consumer := flows.consumer
  unfold ProducerKnows at producer
  unfold ConsumerKnows at consumer
  rw [writes] at producer
  rw [reads] at consumer
  rcases producer with ⟨atHead, _, room⟩
  rcases consumer with ⟨atTail, waiting⟩
  intro same
  rw [atHead, atTail] at same
  have behind := positions.tailSeen
  have seen := positions.headSeen
  have equal := @same_position capacity (poppedItems past).length _ _ (by omega) (by omega)
    (Nat.le_refl _) (by omega) same
  omega

/-- Whatever the interleaving, the items popped are a prefix of the items pushed,
an item pushed and not yet read is in its slot, the ring never holds more than
its capacity less one, and the producer is never about to write the slot that
the consumer is about to read. -/
theorem spsc_safe {k : Nat} {moved : Item -> Item}
    (run : (SpscQueue.system (2 ^ k) moved).Run past queue) :
    poppedItems past <+: pushedItems past ∧
      (forall position item, queue.unread (poppedItems past).length ≤ position ->
        (pushedItems past)[position]? = some item -> queue.buffer (position % 2 ^ k) = item) ∧
      (pushedItems past).length ≤ (poppedItems past).length + (2 ^ k - 1) ∧
      (forall item head nextHead tail, queue.producer = .write item head nextHead ->
        queue.consumer = .read tail -> head ≠ tail) := by
  rcases flows_of_run run with ⟨seenTail, seenHead, flows⟩
  refine ⟨flows.fifo, flows.held, ?_, ?_⟩
  · have room := flows.positions.room
    have seen := flows.positions.tailSeen
    omega
  · intro item head nextHead tail writes reads
    exact flows.apart writes reads

/-! ## Schedules -/

/-- Whose turn a step of an interleaving is.  Any sequence of turns is an
interleaving: no thread is ever blocked by the other one. -/
inductive Turn (Item : Type) where
  | producer (offer : Item)
  | consumer

def SpscQueue.take (capacity : Nat) (moved : Item -> Item) (queue : SpscQueue Item) :
    Turn Item -> Outcome Item × SpscQueue Item
  | .producer offer => queue.pushStep (capacity - 1) offer
  | .consumer => queue.popStep (capacity - 1) moved

/-- Play a schedule, collecting the outcomes oldest first. -/
def SpscQueue.play (capacity : Nat) (moved : Item -> Item) (queue : SpscQueue Item) :
    List (Turn Item) -> List (Outcome Item) -> List (Outcome Item) × SpscQueue Item
  | [], past => (past, queue)
  | turn :: schedule, past =>
      play capacity moved (queue.take capacity moved turn).2 schedule
        (past ++ [(queue.take capacity moved turn).1])

theorem play_run {moved : Item -> Item} {schedule : List (Turn Item)}
    (run : (SpscQueue.system capacity moved).Run past queue) :
    (SpscQueue.system capacity moved).Run (queue.play capacity moved schedule past).1
      (queue.play capacity moved schedule past).2 := by
  induction schedule generalizing past queue with
  | nil => exact run
  | cons turn schedule inductionHypothesis =>
      apply inductionHypothesis
      apply LabelledSystem.Run.step run
      cases turn with
      | producer offer => exact Or.inl ⟨offer, rfl⟩
      | consumer => exact Or.inr rfl

/-- Two items through a ring of two slots, the second push overlapping the first
pop: the ring is full to it until the pop has returned. -/
def overlapping : List (Turn Nat) :=
  List.replicate 4 (.producer 7) ++ List.replicate 5 .consumer ++ List.replicate 3 (.producer 8) ++
    [.consumer] ++ List.replicate 7 (.producer 9) ++ List.replicate 6 .consumer

theorem spsc_safe_overlapping :
    poppedItems (SpscQueue.play 2 id { buffer := fun _ => 0 } overlapping []).1 = [7, 9] ∧
      poppedItems (SpscQueue.play 2 id { buffer := fun _ => 0 } overlapping []).1 <+:
        pushedItems (SpscQueue.play 2 id { buffer := fun _ => 0 } overlapping []).1 :=
  ⟨by decide, (@spsc_safe Nat _ _ 1 id (play_run (.start ⟨_, rfl⟩))).1⟩

end Steps
end Safety
end NexusHft
