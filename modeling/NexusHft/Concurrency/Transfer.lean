import NexusHft.Concurrency.SpscResults
import NexusHft.Foundations.FairSchedule

namespace NexusHft

open Foundations

/-!
# Handing messages from one thread to another

The gateway's session pushes every message it receives until the queue takes it.
On the other side a consumer pops until it finds the queue empty, asks whether the
producer has finished, and if so pops until it finds the queue empty once more.
The two threads interleave step by step, as in the queue itself: every load and
store of a call is a step, and so are the two accesses to the producer's flag.

The queue may be empty when the consumer first looks and filled before it asks,
so the first failure alone tells it nothing.  A failure after the flag was seen
does: no message can follow.
-/

section Transfer

variable {Item : Type}

/-- One turn of the loop of `on_message_received`: the next step of `push`, and
whether the loop ends with it. -/
def SpscQueue.onMessageReceived (mask : Nat) (message : Item) (queue : SpscQueue Item) :
    Bool × SpscQueue Item :=
  match queue.pushStep mask message with
  | (.pushed _, next) => (true, next)
  | (_, next) => (false, next)

/-- What the consumer thread does: it pops, it loads the producer's flag when the
queue looked empty, it pops what is left once the flag was set, or it has
returned. -/
inductive ConsumerPhase where
  | polling
  | asking
  | draining
  | stopped
  deriving DecidableEq

/-- A producer thread that pushes every message until it is taken, and a consumer
thread that drains the queue.  `producerDone` is the flag by which the first tells
the second that nothing more will come. -/
structure Transfer (Item : Type) where
  queue : SpscQueue Item
  /-- The messages not yet pushed; the producer is busy with the first. -/
  pending : List Item
  producerDone : Bool := false
  phase : ConsumerPhase := .polling
  /-- What the consumer has popped, oldest first. -/
  received : List Item := []

namespace Transfer

def opened (buffer : Nat -> Item) (messages : List Item) : Transfer Item where
  queue := { buffer := buffer }
  pending := messages

/-- The producer's turn.  After the last message it sets its flag. -/
def produce (mask : Nat) (transfer : Transfer Item) : Transfer Item :=
  match transfer.pending with
  | [] => { transfer with producerDone := true }
  | message :: rest =>
      match transfer.queue.onMessageReceived mask message with
      | (true, next) => { transfer with queue := next, pending := rest }
      | (false, next) => { transfer with queue := next }

/-- The next step of a pop of the consumer, which goes on elsewhere when it fails. -/
def poll (mask : Nat) (moved : Item -> Item) (whenEmpty : ConsumerPhase)
    (transfer : Transfer Item) : Transfer Item :=
  match transfer.queue.popStep mask moved with
  | (.popped item, next) =>
      { transfer with queue := next, received := transfer.received ++ [item] }
  | (.empty, next) => { transfer with queue := next, phase := whenEmpty }
  | (_, next) => { transfer with queue := next }

/-- The consumer's turn. -/
def consume (mask : Nat) (moved : Item -> Item) (transfer : Transfer Item) : Transfer Item :=
  match transfer.phase with
  | .polling => transfer.poll mask moved .asking
  | .asking =>
      if transfer.producerDone then { transfer with phase := .draining }
      else { transfer with phase := .polling }
  | .draining => transfer.poll mask moved .stopped
  | .stopped => transfer

def turn (capacity : Nat) (moved : Item -> Item) (transfer : Transfer Item) :
    Party -> Transfer Item
  | .producer => transfer.produce (capacity - 1)
  | .consumer => transfer.consume (capacity - 1) moved

/-! ## What a turn can do -/

section Inversion

variable {mask : Nat} {moved : Item -> Item} {transfer next : Transfer Item}

/-- A turn of the producer sets the flag, or is a step of a push of the first message
that is left; the message is done with when the push has succeeded. -/
inductive Produces (mask : Nat) (transfer : Transfer Item) : Transfer Item -> Prop
  | finishes : transfer.pending = [] -> Produces mask transfer { transfer with producerDone := true }
  | succeeds {message item : Item} {rest : List Item} {queue : SpscQueue Item} :
      transfer.pending = message :: rest ->
        transfer.queue.pushStep mask message = (.pushed item, queue) ->
          Produces mask transfer { transfer with queue := queue, pending := rest }
  | goesOn {message : Item} {rest : List Item} {outcome : Outcome Item} {queue : SpscQueue Item} :
      transfer.pending = message :: rest ->
        transfer.queue.pushStep mask message = (outcome, queue) -> outcome.pushedItem? = none ->
          Produces mask transfer { transfer with queue := queue }

theorem produces (mask : Nat) (transfer : Transfer Item) :
    Produces mask transfer (transfer.produce mask) := by
  rcases transfer with ⟨queue, pending, producerDone, phase, received⟩
  cases pending with
  | nil => exact .finishes rfl
  | cons message rest =>
      unfold produce SpscQueue.onMessageReceived
      rcases step : queue.pushStep mask message with ⟨outcome, after⟩
      dsimp only
      rw [step]
      cases outcome with
      | pushed item => exact .succeeds rfl step
      | running | full | popped | empty => exact .goesOn rfl step rfl

/-- A turn of the consumer is a step of a pop, asks for the flag, or does nothing
more.  An empty queue ends the draining only in the phase after the flag was seen.
-/
inductive Consumes (mask : Nat) (moved : Item -> Item) (transfer : Transfer Item) :
    Transfer Item -> Prop
  | receives {item : Item} {queue : SpscQueue Item} :
      transfer.phase = .polling ∨ transfer.phase = .draining ->
        transfer.queue.popStep mask moved = (.popped item, queue) ->
          Consumes mask moved transfer
            { transfer with queue := queue, received := transfer.received ++ [item] }
  | wonders {queue : SpscQueue Item} : transfer.phase = .polling ->
      transfer.queue.popStep mask moved = (.empty, queue) ->
        Consumes mask moved transfer { transfer with queue := queue, phase := .asking }
  | stops {queue : SpscQueue Item} : transfer.phase = .draining ->
      transfer.queue.popStep mask moved = (.empty, queue) ->
        Consumes mask moved transfer { transfer with queue := queue, phase := .stopped }
  | goesOn {outcome : Outcome Item} {queue : SpscQueue Item} :
      transfer.phase = .polling ∨ transfer.phase = .draining ->
        transfer.queue.popStep mask moved = (outcome, queue) -> outcome.poppedItem? = none ->
          outcome ≠ .empty -> Consumes mask moved transfer { transfer with queue := queue }
  | hears : transfer.phase = .asking -> transfer.producerDone = true ->
      Consumes mask moved transfer { transfer with phase := .draining }
  | waits : transfer.phase = .asking -> transfer.producerDone = false ->
      Consumes mask moved transfer { transfer with phase := .polling }
  | rests : transfer.phase = .stopped -> Consumes mask moved transfer transfer

theorem consumes (mask : Nat) (moved : Item -> Item) (transfer : Transfer Item) :
    Consumes mask moved transfer (transfer.consume mask moved) := by
  rcases transfer with ⟨queue, pending, producerDone, phase, received⟩
  rcases step : queue.popStep mask moved with ⟨outcome, after⟩
  cases phase with
  | polling =>
      dsimp only [consume, poll]
      rw [step]
      cases outcome with
      | popped item => exact .receives (Or.inl rfl) step
      | empty => exact .wonders rfl step
      | running | pushed | full => exact .goesOn (Or.inl rfl) step rfl nofun
  | asking =>
      cases producerDone with
      | true => exact .hears rfl rfl
      | false => exact .waits rfl rfl
  | draining =>
      dsimp only [consume, poll]
      rw [step]
      cases outcome with
      | popped item => exact .receives (Or.inr rfl) step
      | empty => exact .stops rfl step
      | running | pushed | full => exact .goesOn (Or.inr rfl) step rfl nofun
  | stopped => exact .rests rfl

end Inversion

/-! ## The invariant -/

end Transfer

/-- The argument of a push that has not returned. -/
def PushPoint.argument : PushPoint Item -> Option Item
  | .idle => none
  | .compare item _ _ => some item
  | .reload item _ _ => some item
  | .recheck item _ _ => some item
  | .write item _ _ => some item
  | .store item _ => some item

namespace Transfer

/-- The invariant of a transfer: pushed, pending and received messages are always
the same messages in the same order.  `exact` is the reason why none is left
behind: a consumer that drains rereads a head that no longer moves. -/
structure Kept (capacity : Nat) (moved : Item -> Item) (messages : List Item)
    (past : List (Outcome Item)) (transfer : Transfer Item) : Prop where
  run : (SpscQueue.system capacity moved).Run past transfer.queue
  pushed : pushedItems past ++ transfer.pending = messages
  popped : poppedItems past = transfer.received
  busy : forall item, transfer.queue.producer.argument = some item ->
    transfer.pending.head? = some item
  flag : transfer.producerDone = true -> transfer.pending = []
  between : transfer.phase = .asking ∨ transfer.phase = .stopped -> transfer.queue.consumer = .idle
  closing : transfer.phase = .draining ∨ transfer.phase = .stopped -> transfer.producerDone = true
  exact : transfer.phase = .draining -> forall tail, transfer.queue.consumer = .recheck tail ->
    transfer.queue.cachedHead = transfer.queue.head
  complete : transfer.phase = .stopped -> transfer.received = messages

section Steps

variable {capacity : Nat} {moved : Item -> Item} {messages : List Item}
  {past : List (Outcome Item)} {transfer next : Transfer Item}

/-- A push keeps its argument until it returns. -/
theorem pushStep_argument {mask : Nat} {offer : Item} {queue after : SpscQueue Item}
    {outcome : Outcome Item} (moves : queue.pushStep mask offer = (outcome, after)) {item : Item}
    (carries : after.producer.argument = some item) :
    queue.producer.argument = some item ∨ offer = item := by
  cases SpscQueue.pushes_of_pushStep moves with
  | begins point => exact Or.inr (Option.some.inj carries)
  | looksFull point same =>
      rw [point]
      exact Or.inl carries
  | reloads point =>
      rw [point]
      exact Or.inl carries
  | isFull point same => cases carries
  | hasRoom points differs =>
      rcases points with point | point
      · rw [point]
        exact Or.inl carries
      · rw [point]
        exact Or.inl carries
  | writes point =>
      rw [point]
      exact Or.inl carries
  | stores point => cases carries

/-- A push that succeeds has pushed its argument. -/
theorem pushStep_pushed {mask : Nat} {offer item : Item} {queue after : SpscQueue Item}
    (moves : queue.pushStep mask offer = (.pushed item, after)) :
    queue.producer.argument = some item ∧ after.producer = .idle := by
  cases SpscQueue.pushes_of_pushStep moves with
  | stores point =>
      rw [point]
      exact ⟨rfl, rfl⟩

theorem Kept.opened (buffer : Nat -> Item) (messages : List Item) :
    Kept capacity moved messages [] (Transfer.opened buffer messages) where
  run := .start ⟨buffer, rfl⟩
  pushed := rfl
  popped := rfl
  busy := nofun
  flag := nofun
  between := fun _ => rfl
  closing := by
    rintro (drains | stops)
    · cases drains
    · cases stops
  exact := nofun
  complete := nofun

/-- A turn of the producer keeps the invariant.  It raises its flag only when
nothing is pending, and while it pushes, the item in its hands is the first of the
pending ones. -/
theorem Kept.produces (kept : Kept capacity moved messages past transfer)
    (produces : Produces (capacity - 1) transfer next) :
    Exists fun later => Kept capacity moved messages later next := by
  cases produces with
  | finishes left =>
      exact ⟨past, kept.run, kept.pushed, kept.popped, kept.busy, fun _ => left, kept.between,
        fun _ => rfl, kept.exact, kept.complete⟩
  | @succeeds message item rest queue left step =>
      have open' : transfer.producerDone ≠ true := fun set => by
        rw [kept.flag set] at left
        cases left
      have same := pushStep_keeps step
      rcases pushStep_pushed step with ⟨carried, idle⟩
      have first := kept.busy item carried
      rw [left] at first
      cases first
      refine ⟨past ++ [.pushed message], kept.run.step (Or.inl ⟨message, step⟩), ?_, ?_, ?_, ?_, ?_,
        kept.closing, ?_, ?_⟩
      · have pushed := kept.pushed
        rw [left] at pushed
        rw [pushedItems_snoc, List.append_assoc]
        exact pushed
      · rw [poppedItems_snoc, kept.popped]
        exact List.append_nil _
      · intro item carries
        dsimp only at carries
        rw [idle] at carries
        cases carries
      · exact fun set => absurd set open'
      · intro rests
        exact same.1.trans (kept.between rests)
      · exact fun drains => absurd (kept.closing (Or.inl drains)) open'
      · exact fun stops => absurd (kept.closing (Or.inr stops)) open'
  | @goesOn message rest outcome queue left step silent =>
      have open' : transfer.producerDone ≠ true := fun set => by
        rw [kept.flag set] at left
        cases left
      have same := pushStep_keeps step
      have notPopped : outcome.poppedItem? = none := by
        cases SpscQueue.pushes_of_pushStep step <;> rfl
      refine ⟨past ++ [outcome], kept.run.step (Or.inl ⟨message, step⟩), ?_, ?_, ?_, kept.flag, ?_,
        kept.closing, ?_, kept.complete⟩
      · rw [pushedItems_snoc, silent]
        exact (congrArg (· ++ transfer.pending) (List.append_nil _)).trans kept.pushed
      · rw [poppedItems_snoc, notPopped]
        exact (List.append_nil _).trans kept.popped
      · intro item carries
        rcases pushStep_argument step carries with before | same
        · exact kept.busy item before
        · dsimp only
          rw [left, ← same]
          rfl
      · intro rests
        exact same.1.trans (kept.between rests)
      · exact fun drains => absurd (kept.closing (Or.inl drains)) open'

/-- When a draining pop fails, everything has been received. -/
theorem Kept.all_received {k : Nat} (kept : Kept (2 ^ k) moved messages past transfer)
    (drains : transfer.phase = .draining) {queue : SpscQueue Item}
    (step : transfer.queue.popStep (2 ^ k - 1) moved = (.empty, queue)) :
    transfer.received = messages := by
  rcases popStep_empty step with ⟨-, point⟩
  have exact := kept.exact drains _ point
  rcases flows_of_run kept.run with ⟨seenTail, seenHead, flows⟩
  have knows := flows.consumer
  unfold ConsumerKnows at knows
  rw [point] at knows
  have empty : transfer.queue.tail = transfer.queue.head :=
    (flows.positions.tail.trans knows.symm).trans exact
  have none := flows.positions.empty_iff_stored.mp empty
  rw [stored_of_positions flows.positions] at none
  have le := Nat.le_trans flows.positions.tailBehind flows.positions.headSeen
  have sameLength : (poppedItems past).length = (pushedItems past).length := by omega
  have pushed := kept.pushed
  rw [kept.flag (kept.closing (Or.inl drains)), List.append_nil] at pushed
  rw [← kept.popped, ← pushed]
  exact flows.fifo.eq_of_length sameLength

/-- A step of a pop is recorded, and does not touch what the producer is busy with. -/
theorem Kept.polls (kept : Kept capacity moved messages past transfer) {outcome : Outcome Item}
    {queue : SpscQueue Item}
    (step : transfer.queue.popStep (capacity - 1) moved = (outcome, queue)) :
    (SpscQueue.system capacity moved).Run (past ++ [outcome]) queue ∧
      pushedItems (past ++ [outcome]) ++ transfer.pending = messages ∧
      poppedItems (past ++ [outcome]) = transfer.received ++ outcome.poppedItem?.toList ∧
      forall item, queue.producer.argument = some item -> transfer.pending.head? = some item := by
  have notPushed : outcome.pushedItem? = none := by
    cases SpscQueue.pops_of_popStep step <;> rfl
  refine ⟨kept.run.step (Or.inr step), ?_, ?_, ?_⟩
  · rw [pushedItems_snoc, notPushed]
    exact (congrArg (· ++ transfer.pending) (List.append_nil _)).trans kept.pushed
  · rw [poppedItems_snoc, kept.popped]
  · intro item carries
    rw [(popStep_keeps step).1] at carries
    exact kept.busy item carries

/-- A turn of the consumer keeps the invariant.  The case that matters is the last
one: an empty queue after the flag was seen is empty for good, so everything was
received. -/
theorem Kept.consumes {k : Nat} (kept : Kept (2 ^ k) moved messages past transfer)
    (consumes : Consumes (2 ^ k - 1) moved transfer next) :
    Exists fun later => Kept (2 ^ k) moved messages later next := by
  cases consumes with
  | @receives item queue phases step =>
      rcases kept.polls step with ⟨run, pushed, popped, busy⟩
      have idle : queue.consumer = .idle := by
        cases SpscQueue.pops_of_popStep step with
        | stores => rfl
      refine ⟨past ++ [.popped item], run, pushed, popped, busy, kept.flag, fun _ => idle,
        kept.closing, ?_, ?_⟩
      · intro _ tail point
        cases idle.symm.trans point
      · intro stops
        rcases phases with phase | phase <;> cases phase.symm.trans stops
  | @wonders queue phase step =>
      rcases kept.polls step with ⟨run, pushed, popped, busy⟩
      have idle : queue.consumer = .idle := by
        cases SpscQueue.pops_of_popStep step with
        | isEmpty => rfl
      refine ⟨past ++ [.empty], run, pushed, popped.trans (List.append_nil _), busy, kept.flag,
        fun _ => idle, ?_, nofun, nofun⟩
      rintro (drains | stops)
      · cases drains
      · cases stops
  | @stops queue phase step =>
      rcases kept.polls step with ⟨run, pushed, popped, busy⟩
      have idle : queue.consumer = .idle := by
        cases SpscQueue.pops_of_popStep step with
        | isEmpty => rfl
      exact ⟨past ++ [.empty], run, pushed, popped.trans (List.append_nil _), busy, kept.flag,
        fun _ => idle, fun _ => kept.closing (Or.inl phase), nofun,
        fun _ => kept.all_received phase step⟩
  | @goesOn outcome queue phases step silent some =>
      rcases kept.polls step with ⟨run, pushed, popped, busy⟩
      rw [silent] at popped
      refine ⟨past ++ [outcome], run, pushed, popped.trans (List.append_nil _), busy, kept.flag, ?_,
        kept.closing, ?_, ?_⟩
      · rintro (asks | stops)
        · rcases phases with phase | phase <;> cases phase.symm.trans asks
        · rcases phases with phase | phase <;> cases phase.symm.trans stops
      · intro _ tail point
        have loaded := popStep_recheck step point
        have ring := popStep_waits step (by rw [point]; rfl)
        exact loaded.2.trans ring.1.2.1.symm
      · intro stops
        rcases phases with phase | phase <;> cases phase.symm.trans stops
  | hears phase flag =>
      have idle := kept.between (Or.inl phase)
      refine ⟨past, kept.run, kept.pushed, kept.popped, kept.busy, kept.flag, fun _ => idle,
        fun _ => flag, ?_, nofun⟩
      intro _ tail point
      cases idle.symm.trans point
  | waits phase flag =>
      refine ⟨past, kept.run, kept.pushed, kept.popped, kept.busy, kept.flag,
        fun _ => kept.between (Or.inl phase), ?_, nofun, nofun⟩
      rintro (drains | stops)
      · cases drains
      · cases stops
  | rests phase => exact ⟨past, kept⟩

end Steps

/-- What holds of a transfer of the messages at any time. -/
def Underway (k : Nat) (moved : Item -> Item) (messages : List Item) (transfer : Transfer Item) :
    Prop :=
  Exists fun past => Kept (2 ^ k) moved messages past transfer

theorem Underway.turn {k : Nat} {moved : Item -> Item} {messages : List Item}
    {transfer : Transfer Item} (underway : Underway k moved messages transfer) (party : Party) :
    Underway k moved messages (transfer.turn (2 ^ k) moved party) := by
  rcases underway with ⟨past, kept⟩
  cases party with
  | producer => exact kept.produces (produces _ _)
  | consumer => exact kept.consumes (consumes _ _ _)

/-! ## Every interleaving -/

/-- Under every interleaving the messages are at any time those received, then at most
`2 ^ k - 1` in the queue, then those still to be pushed, each once and in order; and a
consumer that has stopped has received all of them. -/
theorem nothing_lost {k : Nat} {moved : Item -> Item} (buffer : Nat -> Item)
    (messages : List Item) (schedule : List Party) :
    (Exists fun waiting => waiting.length ≤ 2 ^ k - 1 ∧
      messages = (takeTurns (turn (2 ^ k) moved) (opened buffer messages) schedule).received ++
        waiting ++ (takeTurns (turn (2 ^ k) moved) (opened buffer messages) schedule).pending) ∧
    ((takeTurns (turn (2 ^ k) moved) (opened buffer messages) schedule).phase = .stopped ->
      (takeTurns (turn (2 ^ k) moved) (opened buffer messages) schedule).received = messages) := by
  have underway := @takeTurns_invariant _ _ (turn (2 ^ k) moved) (Underway k moved messages)
    (fun transfer party holds => holds.turn party) _ ⟨[], Kept.opened buffer messages⟩ schedule
  rcases underway with ⟨past, kept⟩
  refine ⟨?_, kept.complete⟩
  rcases flows_of_run kept.run with ⟨seenTail, seenHead, flows⟩
  rcases flows.fifo with ⟨waiting, ahead⟩
  refine ⟨waiting, ?_, ?_⟩
  · have lengths := congrArg List.length ahead
    rw [List.length_append] at lengths
    have room := flows.positions.room
    have seen := flows.positions.tailSeen
    omega
  · rw [← kept.popped, ahead]
    exact kept.pushed.symm

end Transfer
end Transfer
end NexusHft
