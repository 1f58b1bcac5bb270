import NexusHft.Concurrency.Transfer

namespace NexusHft

open Foundations

/-!
# Every fair schedule completes a transfer

Both threads spin, so neither makes progress alone: a session waits while the ring
is full, and a consumer while it is empty.  The party awaited is the consumer while
the ring is full and once everything has been pushed, otherwise the producer.

Its distance counts the steps to its next success.  A call in which the other
party's index is old costs at most a reload and a second look; a call that has
already looked and fails costs a call more, which then succeeds.  A message is
worth two, since it has to be pushed and popped.
-/

section Progress

variable {Item : Type}

namespace SpscQueue

/-- The steps to the next successful push, if the ring is not full. -/
def pushDistance (queue : SpscQueue Item) : Nat :=
  match queue.producer with
  | .idle => 6
  | .compare _ _ nextHead => if nextHead = queue.cachedTail then 5 else 3
  | .reload _ _ _ => 4
  | .recheck _ _ nextHead => if nextHead = queue.cachedTail then 7 else 3
  | .write _ _ _ => 2
  | .store _ _ => 1

/-- The steps to the next successful pop, if the ring is not empty. -/
def popDistance (queue : SpscQueue Item) : Nat :=
  match queue.consumer with
  | .idle => 6
  | .compare tail => if tail = queue.cachedHead then 5 else 3
  | .reload _ => 4
  | .recheck tail => if tail = queue.cachedHead then 8 else 3
  | .read _ => 2
  | .store _ _ => 1

/-- The steps to the next failure of a pop, if the ring is empty. -/
def emptyDistance (queue : SpscQueue Item) : Nat :=
  match queue.consumer with
  | .idle => 4
  | .compare _ => 3
  | .reload _ => 2
  | .recheck _ => 1
  | .read _ => 1
  | .store _ _ => 1

theorem pushDistance_le (queue : SpscQueue Item) : queue.pushDistance ≤ 7 := by
  unfold pushDistance
  split
  all_goals first | omega | (split <;> omega)

theorem popDistance_le (queue : SpscQueue Item) : queue.popDistance ≤ 8 := by
  unfold popDistance
  split
  all_goals first | omega | (split <;> omega)

theorem emptyDistance_le (queue : SpscQueue Item) :
    0 < queue.emptyDistance ∧ queue.emptyDistance ≤ 4 := by
  unfold emptyDistance
  split <;> omega

end SpscQueue

/-! ## The distances along a step -/

section Steps

variable {k : Nat} {moved : Item -> Item} {past : List (Outcome Item)} {seenTail seenHead : Nat}
  {queue next : SpscQueue Item} {outcome : Outcome Item}

/-- A push comes nearer to its success while the ring is not full.  The steps
between are counted from the points of the call; a reload happens once at most. -/
theorem Flows.push_nearer (flows : Flows (2 ^ k) past queue seenTail seenHead)
    (room : queue.stored (2 ^ k) ≠ 2 ^ k - 1) {offer : Item}
    (step : queue.pushStep (2 ^ k - 1) offer = (outcome, next))
    (silent : outcome.pushedItem? = none) : next.pushDistance < queue.pushDistance := by
  have knows := flows.producer
  unfold ProducerKnows at knows
  unfold SpscQueue.pushDistance
  cases SpscQueue.pushes_of_pushStep step with
  | begins point =>
      rw [point]
      dsimp only
      split <;> omega
  | looksFull point same =>
      rw [point]
      dsimp only
      rw [if_pos same]
      omega
  | reloads point =>
      rw [point] at knows ⊢
      have notFull := fun full => room (flows.positions.full_iff_stored.mp full)
      rw [← knows.2] at notFull
      dsimp only
      rw [if_neg notFull]
      omega
  | isFull point same =>
      rw [point]
      dsimp only
      rw [if_pos same]
      omega
  | hasRoom points differs =>
      rcases points with point | point
      · rw [point]
        dsimp only
        rw [if_neg differs]
        omega
      · rw [point]
        dsimp only
        rw [if_neg differs]
        omega
  | writes point =>
      rw [point]
      dsimp only
      omega
  | stores point => cases silent

/-- A pop comes nearer to its success while the ring is not empty, unless it has
looked before the ring was filled. -/
theorem Flows.pop_nearer (flows : Flows (2 ^ k) past queue seenTail seenHead)
    (filled : queue.stored (2 ^ k) ≠ 0)
    (step : queue.popStep (2 ^ k - 1) moved = (outcome, next))
    (silent : outcome.poppedItem? = none) :
    outcome ≠ .empty ∧ next.popDistance < queue.popDistance ∨
      outcome = .empty ∧ queue.popDistance = 8 := by
  have knows := flows.consumer
  unfold ConsumerKnows at knows
  unfold SpscQueue.popDistance
  cases SpscQueue.pops_of_popStep step with
  | begins point =>
      rw [point]
      refine Or.inl ⟨nofun, ?_⟩
      dsimp only
      split <;> omega
  | looksEmpty point same =>
      rw [point]
      refine Or.inl ⟨nofun, ?_⟩
      dsimp only
      rw [if_pos same]
      omega
  | @reloads tail point =>
      rw [point] at knows ⊢
      have atTail : queue.tail = tail := flows.positions.tail.trans knows.symm
      have notEmpty : tail ≠ queue.head := fun empty =>
        filled (flows.positions.empty_iff_stored.mp (atTail.trans empty))
      refine Or.inl ⟨nofun, ?_⟩
      dsimp only
      rw [if_neg notEmpty]
      omega
  | isEmpty point same =>
      rw [point]
      refine Or.inr ⟨rfl, ?_⟩
      dsimp only
      rw [if_pos same]
  | hasItem points differs =>
      refine Or.inl ⟨nofun, ?_⟩
      rcases points with point | point
      · rw [point]
        dsimp only
        rw [if_neg differs]
        omega
      · rw [point]
        dsimp only
        rw [if_neg differs]
        omega
  | reads point =>
      rw [point]
      refine Or.inl ⟨nofun, ?_⟩
      dsimp only
      omega
  | stores point => cases silent

/-- While the ring is empty a pop comes nearer to its failure, which is what lets
the consumer go and look at the flag. -/
theorem Flows.empty_nearer (flows : Flows (2 ^ k) past queue seenTail seenHead)
    (drained : queue.stored (2 ^ k) = 0)
    (step : queue.popStep (2 ^ k - 1) moved = (outcome, next)) (some : outcome ≠ .empty) :
    next.emptyDistance < queue.emptyDistance := by
  rw [stored_of_positions flows.positions] at drained
  have headSeen := flows.positions.headSeen
  have knows := flows.consumer
  unfold ConsumerKnows at knows
  unfold SpscQueue.emptyDistance
  cases SpscQueue.pops_of_popStep step with
  | begins point =>
      rw [point]
      dsimp only
      omega
  | looksEmpty point same =>
      rw [point]
      dsimp only
      omega
  | reloads point =>
      rw [point]
      dsimp only
      omega
  | isEmpty point same => exact absurd rfl some
  | @hasItem tail points differs =>
      have slot : tail = (poppedItems past).length % 2 ^ k := by
        rcases points with point | point
        · rw [point] at knows
          exact knows
        · rw [point] at knows
          exact knows
      have waiting := flows.notEmpty slot differs
      omega
  | reads point =>
      rw [point] at knows
      have waiting := knows.2
      omega
  | stores point =>
      rw [point] at knows
      have waiting := knows.2.1
      omega

/-- What the steps do to the number of items in the ring. -/
theorem stored_push (run : (SpscQueue.system (2 ^ k) moved).Run past queue) {offer : Item}
    (step : queue.pushStep (2 ^ k - 1) offer = (outcome, next)) :
    next.stored (2 ^ k) = queue.stored (2 ^ k) + outcome.pushedItem?.toList.length := by
  rcases flows_of_run run with ⟨seenTail, seenHead, flows⟩
  rcases flows_of_run (run.step (Or.inl ⟨offer, step⟩)) with ⟨seenTail', seenHead', after⟩
  have notPopped : outcome.poppedItem? = none := by
    cases SpscQueue.pushes_of_pushStep step <;> rfl
  have pushed := congrArg List.length (@pushedItems_snoc Item past outcome)
  have popped := congrArg List.length (@poppedItems_snoc Item past outcome)
  rw [List.length_append] at pushed popped
  rw [notPopped, Option.toList_none, List.length_nil] at popped
  have before := Nat.le_trans flows.positions.tailBehind flows.positions.headSeen
  rw [stored_of_positions flows.positions, stored_of_positions after.positions]
  omega

theorem stored_pop (run : (SpscQueue.system (2 ^ k) moved).Run past queue)
    (step : queue.popStep (2 ^ k - 1) moved = (outcome, next)) :
    next.stored (2 ^ k) + outcome.poppedItem?.toList.length = queue.stored (2 ^ k) := by
  rcases flows_of_run run with ⟨seenTail, seenHead, flows⟩
  rcases flows_of_run (run.step (Or.inr step)) with ⟨seenTail', seenHead', after⟩
  have notPushed : outcome.pushedItem? = none := by
    cases SpscQueue.pops_of_popStep step <;> rfl
  have pushed := congrArg List.length (@pushedItems_snoc Item past outcome)
  have popped := congrArg List.length (@poppedItems_snoc Item past outcome)
  rw [List.length_append] at pushed popped
  rw [notPushed, Option.toList_none, List.length_nil] at pushed
  have behind := Nat.le_trans after.positions.tailBehind after.positions.headSeen
  rw [stored_of_positions flows.positions, stored_of_positions after.positions]
  omega

end Steps

/-! ## The rank of a transfer -/

namespace Transfer

variable {k : Nat} {moved : Item -> Item} {messages : List Item} {transfer next : Transfer Item}

/-- What is left to do: to push and pop, and to set the flag. -/
def work (capacity : Nat) (transfer : Transfer Item) : Nat :=
  2 * transfer.pending.length + transfer.queue.stored capacity +
    if transfer.producerDone then 0 else 1

def awaited (capacity : Nat) (transfer : Transfer Item) : Party :=
  match transfer.pending with
  | [] => if transfer.producerDone then .consumer else .producer
  | _ :: _ => if transfer.queue.stored capacity = capacity - 1 then .consumer else .producer

/-- The consumer's turns to its next message, or to its end if there is none. -/
def consumerDistance (capacity : Nat) (transfer : Transfer Item) : Nat :=
  if transfer.queue.stored capacity = 0 then
    match transfer.phase with
    | .polling => transfer.queue.emptyDistance + 5
    | .asking => 5
    | .draining => transfer.queue.emptyDistance
    | .stopped => 0
  else
    match transfer.phase with
    | .asking => 7
    | _ => transfer.queue.popDistance

def distance (capacity : Nat) (transfer : Transfer Item) : Nat :=
  match transfer.awaited capacity with
  | .producer => if transfer.pending = [] then 0 else transfer.queue.pushDistance
  | .consumer => transfer.consumerDistance capacity

def rank (capacity : Nat) (transfer : Transfer Item) : Nat :=
  16 * transfer.work capacity + transfer.distance capacity

theorem distance_le (capacity : Nat) (transfer : Transfer Item) :
    transfer.distance capacity ≤ 9 := by
  have push := transfer.queue.pushDistance_le
  have pop := transfer.queue.popDistance_le
  have empty := transfer.queue.emptyDistance_le
  unfold distance consumerDistance
  split
  · split <;> omega
  · split
    · split <;> omega
    · split <;> omega

/-- What gets done counts more than any distance. -/
theorem rank_lt_of_work {capacity : Nat} (less : next.work capacity < transfer.work capacity) :
    next.rank capacity < transfer.rank capacity := by
  have near := next.distance_le capacity
  unfold rank
  omega

/-- Two transfers with the same work, of which neither is further. -/
theorem rank_congr {capacity : Nat} (pending : next.pending = transfer.pending)
    (flag : next.producerDone = transfer.producerDone)
    (stored : next.queue.stored capacity = transfer.queue.stored capacity) :
    next.work capacity = transfer.work capacity ∧
      next.awaited capacity = transfer.awaited capacity := by
  unfold work awaited
  rw [pending, flag, stored]
  exact ⟨rfl, rfl⟩

/-! ## The producer's turn -/

theorem awaited_producer {capacity : Nat} {message : Item} {rest : List Item}
    (left : transfer.pending = message :: rest)
    (room : transfer.queue.stored capacity ≠ capacity - 1) :
    transfer.awaited capacity = .producer ∧
      transfer.distance capacity = transfer.queue.pushDistance := by
  have awaits : transfer.awaited capacity = .producer := by
    unfold awaited
    rw [left]
    exact if_neg room
  refine ⟨awaits, ?_⟩
  unfold distance
  rw [awaits, left]
  rfl

theorem awaited_consumer {capacity : Nat} (awaits : transfer.awaited capacity = .consumer) :
    transfer.distance capacity = transfer.consumerDistance capacity := by
  unfold distance
  rw [awaits]

/-- While there is a message left, the consumer is awaited only if the ring is full. -/
theorem awaited_full {capacity : Nat} {message : Item} {rest : List Item}
    (left : transfer.pending = message :: rest)
    (full : transfer.queue.stored capacity = capacity - 1) :
    transfer.awaited capacity = .consumer := by
  unfold awaited
  rw [left]
  exact if_pos full

/-- The producer's turn sets the flag, pushes, comes nearer to a push, or meets a
full ring.  Only in the last case is it the consumer that has to do something. -/
theorem Kept.producer_advances {past : List (Outcome Item)} (two : 2 ≤ 2 ^ k)
    (kept : Kept (2 ^ k) moved messages past transfer)
    (produces : Produces (2 ^ k - 1) transfer next) :
    next.rank (2 ^ k) < transfer.rank (2 ^ k) ∨
      .producer ≠ transfer.awaited (2 ^ k) ∧ next.rank (2 ^ k) = transfer.rank (2 ^ k) ∧
        next.awaited (2 ^ k) = transfer.awaited (2 ^ k) := by
  cases produces with
  | finishes left =>
      cases flag : transfer.producerDone with
      | false =>
          refine Or.inl (rank_lt_of_work ?_)
          unfold work
          rw [flag]
          exact Nat.lt_succ_self _
      | true =>
          have same : { transfer with producerDone := true } = transfer := by
            rw [← flag]
          have awaits : transfer.awaited (2 ^ k) = .consumer := by
            unfold awaited
            rw [left, flag]
            rfl
          rw [same, awaits]
          exact Or.inr ⟨nofun, rfl, rfl⟩
  | @succeeds message item rest queue left step =>
      refine Or.inl (rank_lt_of_work ?_)
      have stored := stored_push kept.run step
      unfold work
      rw [left, stored, List.length_cons]
      exact Nat.add_lt_add_right (by simp [Outcome.pushedItem?]; omega) _
  | @goesOn message rest outcome queue left step silent =>
      have stored := stored_push kept.run step
      rw [silent, Option.toList_none, List.length_nil, Nat.add_zero] at stored
      rcases @rank_congr Item transfer { transfer with queue := queue } (2 ^ k) rfl rfl stored with
        ⟨work, awaits⟩
      by_cases full : transfer.queue.stored (2 ^ k) = 2 ^ k - 1
      · have consumer := awaited_full left full
        refine Or.inr ⟨by rw [consumer]; exact nofun, ?_, awaits⟩
        have filled : transfer.queue.stored (2 ^ k) ≠ 0 := by omega
        have far : consumerDistance (2 ^ k) { transfer with queue := queue } =
            consumerDistance (2 ^ k) transfer := by
          have same := pushStep_keeps step
          unfold consumerDistance SpscQueue.popDistance
          dsimp only
          rw [stored, if_neg filled, if_neg filled, same.1, same.2]
        unfold rank
        rw [work, awaited_consumer consumer, awaited_consumer (awaits.trans consumer), far]
      · rcases flows_of_run kept.run with ⟨seenTail, seenHead, flows⟩
        have nearer := flows.push_nearer full step silent
        refine Or.inl ?_
        have before := (awaited_producer left full).2
        have after : distance (2 ^ k) { transfer with queue := queue } = queue.pushDistance :=
          (@awaited_producer Item { transfer with queue := queue } (2 ^ k) message rest left
            (fun same => full (stored.symm.trans same))).2
        unfold rank
        rw [work, before, after]
        omega

/-! ## The consumer's turn -/

/-- While the consumer is awaited at an empty ring, everything has been pushed. -/
theorem flag_of_empty {capacity : Nat} (two : 2 ≤ capacity)
    (awaits : transfer.awaited capacity = .consumer)
    (drained : transfer.queue.stored capacity = 0) : transfer.producerDone = true := by
  unfold awaited at awaits
  cases left : transfer.pending with
  | nil =>
      rw [left] at awaits
      cases flag : transfer.producerDone with
      | true => rfl
      | false =>
          rw [flag] at awaits
          cases awaits
  | cons message rest =>
      rw [left] at awaits
      dsimp only at awaits
      rw [if_neg (by omega)] at awaits
      cases awaits

/-- The consumer's turn pops, or leaves the work and what is the producer's alone. -/
theorem Consumes.quiet_or_receives {past : List (Outcome Item)}
    (consumes : Consumes (2 ^ k - 1) moved transfer next)
    (kept : Kept (2 ^ k) moved messages past transfer) :
    next.work (2 ^ k) < transfer.work (2 ^ k) ∨
      next.pending = transfer.pending ∧ next.producerDone = transfer.producerDone ∧
        next.queue.stored (2 ^ k) = transfer.queue.stored (2 ^ k) ∧
        next.queue.producer = transfer.queue.producer ∧
        next.queue.cachedTail = transfer.queue.cachedTail := by
  cases consumes with
  | @receives item queue phases step =>
      have popped : queue.stored (2 ^ k) + 1 = transfer.queue.stored (2 ^ k) :=
        stored_pop kept.run step
      refine Or.inl ?_
      unfold work
      dsimp only
      omega
  | wonders phase step => exact Or.inr ⟨rfl, rfl, stored_pop kept.run step, popStep_keeps step⟩
  | stops phase step => exact Or.inr ⟨rfl, rfl, stored_pop kept.run step, popStep_keeps step⟩
  | goesOn phases step silent some =>
      have stored := stored_pop kept.run step
      rw [silent] at stored
      exact Or.inr ⟨rfl, rfl, stored, popStep_keeps step⟩
  | hears phase flag => exact Or.inr ⟨rfl, rfl, rfl, rfl, rfl⟩
  | waits phase flag => exact Or.inr ⟨rfl, rfl, rfl, rfl, rfl⟩
  | rests phase => exact Or.inr ⟨rfl, rfl, rfl, rfl, rfl⟩

/-- The turn of the awaited consumer ends the transfer, pops, or comes nearer to
one.  Who is awaited depends on the ring alone: a consumer that meets a full one,
or a closing one. -/
theorem Kept.consumer_nearer {past : List (Outcome Item)} (two : 2 ≤ 2 ^ k)
    (kept : Kept (2 ^ k) moved messages past transfer)
    (consumes : Consumes (2 ^ k - 1) moved transfer next) (runs : transfer.phase ≠ .stopped)
    (awaits : transfer.awaited (2 ^ k) = .consumer)
    (stored : next.queue.stored (2 ^ k) = transfer.queue.stored (2 ^ k)) :
    next.phase = .stopped ∨
      next.consumerDistance (2 ^ k) < transfer.consumerDistance (2 ^ k) := by
  rcases flows_of_run kept.run with ⟨seenTail, seenHead, flows⟩
  unfold consumerDistance
  rw [stored]
  by_cases drained : transfer.queue.stored (2 ^ k) = 0
  · rw [if_pos drained, if_pos drained]
    cases consumes with
    | @receives item queue phases step =>
        have popped := stored_pop kept.run step
        dsimp only at stored
        rw [stored] at popped
        exact absurd popped (by simp [Outcome.poppedItem?])
    | @wonders queue phase step =>
        have some := transfer.queue.emptyDistance_le
        rw [phase]
        dsimp only
        omega
    | stops phase step => exact Or.inl rfl
    | @goesOn outcome queue phases step silent some =>
        have nearer := flows.empty_nearer drained step some
        rcases phases with phase | phase
        · rw [phase]
          dsimp only
          omega
        · rw [phase]
          exact Or.inr nearer
    | hears phase flag =>
        have few := transfer.queue.emptyDistance_le
        rw [phase]
        dsimp only
        omega
    | waits phase flag => exact absurd (flag_of_empty two awaits drained) (by rw [flag]; exact nofun)
    | rests phase => exact absurd phase runs
  · rw [if_neg drained, if_neg drained]
    cases consumes with
    | @receives item queue phases step =>
        have popped := stored_pop kept.run step
        dsimp only at stored
        rw [stored] at popped
        exact absurd popped (by simp [Outcome.poppedItem?])
    | @wonders queue phase step =>
        rcases flows.pop_nearer drained step rfl with ⟨some, -⟩ | ⟨-, far⟩
        · exact absurd rfl some
        · rw [phase]
          dsimp only
          omega
    | stops phase step => exact Or.inl rfl
    | @goesOn outcome queue phases step silent some =>
        rcases flows.pop_nearer drained step silent with ⟨-, nearer⟩ | ⟨empty, -⟩
        · rcases phases with phase | phase
          · rw [phase]
            exact Or.inr nearer
          · rw [phase]
            exact Or.inr nearer
        · exact absurd empty some
    | hears phase flag =>
        have idle := kept.between (Or.inl phase)
        rw [phase]
        unfold SpscQueue.popDistance
        rw [idle]
        exact Or.inr (Nat.lt_succ_self 6)
    | waits phase flag =>
        have idle := kept.between (Or.inl phase)
        rw [phase]
        unfold SpscQueue.popDistance
        rw [idle]
        exact Or.inr (Nat.lt_succ_self 6)
    | rests phase => exact absurd phase runs

/-- The consumer's turn ends the transfer, pops, comes nearer to one, or waits for the
producer. -/
theorem Kept.consumer_advances {past : List (Outcome Item)} (two : 2 ≤ 2 ^ k)
    (kept : Kept (2 ^ k) moved messages past transfer)
    (consumes : Consumes (2 ^ k - 1) moved transfer next) (runs : transfer.phase ≠ .stopped) :
    next.phase = .stopped ∨ next.rank (2 ^ k) < transfer.rank (2 ^ k) ∨
      .consumer ≠ transfer.awaited (2 ^ k) ∧ next.rank (2 ^ k) = transfer.rank (2 ^ k) ∧
        next.awaited (2 ^ k) = transfer.awaited (2 ^ k) := by
  rcases consumes.quiet_or_receives kept with less | ⟨pending, flag, stored, producer, copy⟩
  · exact Or.inr (Or.inl (rank_lt_of_work less))
  · rcases rank_congr pending flag stored with ⟨work, awaits⟩
    cases who : transfer.awaited (2 ^ k) with
    | producer =>
        refine Or.inr (Or.inr ⟨nofun, ?_, awaits.trans who⟩)
        unfold rank distance SpscQueue.pushDistance
        rw [work, awaits, who, pending, producer, copy]
    | consumer =>
        rcases kept.consumer_nearer two consumes runs who stored with ends | nearer
        · exact Or.inl ends
        · refine Or.inr (Or.inl ?_)
          unfold rank
          rw [work, awaited_consumer who, awaited_consumer (awaits.trans who)]
          omega

/-! ## The transfer as a whole -/

theorem Produces.phase {mask : Nat} (produces : Produces mask transfer next) :
    next.phase = transfer.phase := by
  cases produces <;> rfl

theorem progress (two : 2 ≤ 2 ^ k) : Progress (turn (2 ^ k) moved) (Underway k moved messages)
    (fun transfer => transfer.phase = .stopped) (rank (2 ^ k)) (awaited (2 ^ k)) where
  kept := fun transfer party underway => underway.turn party
  stays := by
    intro transfer party underway stopped
    cases party with
    | producer => exact (produces _ transfer).phase.trans stopped
    | consumer =>
        unfold turn consume
        rw [stopped]
        exact stopped
  advances := by
    rintro transfer party ⟨past, kept⟩ runs
    cases party with
    | producer => exact Or.inr (kept.producer_advances two (produces _ _))
    | consumer => exact kept.consumer_advances two (consumes _ _ _) runs

theorem rank_opened (buffer : Nat -> Item) (messages : List Item) :
    (opened buffer messages).rank (2 ^ k) ≤ 32 * messages.length + 25 := by
  have stored : (opened buffer messages).queue.stored (2 ^ k) = 0 := by
    change (0 + 2 ^ k - 0) % 2 ^ k = 0
    rw [Nat.zero_add, Nat.sub_zero, Nat.mod_self]
  have near := (opened buffer messages).distance_le (2 ^ k)
  have much : (opened buffer messages).work (2 ^ k) = 2 * messages.length + 1 := by
    unfold work
    rw [stored]
    rfl
  unfold rank
  omega

theorem stored_le {past : List (Outcome Item)} {queue : SpscQueue Item}
    (run : (SpscQueue.system (2 ^ k) moved).Run past queue) :
    queue.stored (2 ^ k) ≤ 2 ^ k - 1 := by
  rcases flows_of_run run with ⟨seenTail, seenHead, flows⟩
  rw [stored_of_positions flows.positions]
  have room := flows.positions.room
  have seen := flows.positions.tailSeen
  omega

/-- A ring of one slot, which the constructor accepts, never takes a message: the
next head is always the tail.  This is why progress is claimed for a capacity of
two or more only. -/
theorem one_slot_blocks (buffer : Nat -> Item) (messages : List Item) (schedule : List Party) :
    (takeTurns (turn (2 ^ 0) moved) (opened buffer messages) schedule).received = [] ∧
      (takeTurns (turn (2 ^ 0) moved) (opened buffer messages) schedule).pending = messages := by
  refine (takeTurns_invariant (fun transfer => Underway 0 moved messages transfer ∧
    transfer.received = [] ∧ transfer.pending = messages) ?_
    ⟨⟨[], Kept.opened buffer messages⟩, rfl, rfl⟩ schedule).2
  rintro transfer party ⟨⟨past, kept⟩, nothing, all⟩
  refine ⟨Underway.turn ⟨past, kept⟩ party, ?_⟩
  cases party with
  | producer =>
      have produces := produces (2 ^ 0 - 1) transfer
      unfold turn
      generalize transfer.produce (2 ^ 0 - 1) = next at produces ⊢
      cases produces with
      | finishes left => exact ⟨nothing, all⟩
      | @succeeds message item rest queue left step =>
          have stored := stored_push kept.run step
          have few := stored_le (kept.run.step (Or.inl ⟨message, step⟩))
          rw [stored] at few
          exact absurd few (Nat.not_succ_le_zero _)
      | goesOn left step silent => exact ⟨nothing, all⟩
  | consumer =>
      have consumes := consumes (2 ^ 0 - 1) moved transfer
      unfold turn
      generalize transfer.consume (2 ^ 0 - 1) moved = next at consumes ⊢
      cases consumes with
      | @receives item queue phases step =>
          have stored := stored_pop kept.run step
          have few := stored_le kept.run
          rw [← stored] at few
          exact absurd few (Nat.not_succ_le_zero _)
      | wonders phase step => exact ⟨nothing, all⟩
      | stops phase step => exact ⟨nothing, all⟩
      | goesOn phases step silent some => exact ⟨nothing, all⟩
      | hears phase flag => exact ⟨nothing, all⟩
      | waits phase flag => exact ⟨nothing, all⟩
      | rests phase => exact ⟨nothing, all⟩

/-- With two slots or more every fair schedule hands over all messages, in order: any
schedule made of at least `32 n + 26` rounds in which both threads have a turn, and any
endless one that forgets neither. -/
theorem completes (two : 1 ≤ k) (buffer : Nat -> Item) (messages : List Item) :
    (forall rounds : List (List Party), (forall round, round ∈ rounds -> forall party, party ∈ round) ->
      32 * messages.length + 26 ≤ rounds.length ->
        (takeTurns (turn (2 ^ k) moved) (opened buffer messages) rounds.flatten).phase = .stopped ∧
        (takeTurns (turn (2 ^ k) moved) (opened buffer messages) rounds.flatten).received =
          messages) ∧
    (forall schedule : Nat -> Party,
      (forall party early, Exists fun late => early ≤ late ∧ schedule late = party) ->
        Exists fun turns => (takeTurns (turn (2 ^ k) moved) (opened buffer messages)
          ((List.range turns).map schedule)).received = messages) := by
  have slots : 2 ≤ 2 ^ k := Nat.pow_le_pow_right (Nat.zero_lt_succ 1) two
  have begins : Underway k moved messages (opened buffer messages) := ⟨[], Kept.opened buffer messages⟩
  constructor
  · intro rounds fair enough
    have low := @rank_opened Item k buffer messages
    have stopped := (progress slots).within_rounds begins fair (by omega)
    rcases (progress slots).inv begins rounds.flatten with ⟨past, kept⟩
    exact ⟨stopped, kept.complete stopped⟩
  · intro schedule fair
    rcases (progress slots).eventually begins fair with ⟨turns, stopped⟩
    rcases (progress slots).inv begins ((List.range turns).map schedule) with ⟨past, kept⟩
    exact ⟨turns, kept.complete stopped⟩

/-- Two messages through a ring of two slots, the threads taking turns. -/
theorem completes_two :
    (takeTurns (turn (2 ^ 1) id) (opened (fun _ => 0) [7, 8])
      (List.replicate 90 [Party.producer, Party.consumer]).flatten).received = [7, 8] := by
  refine ((@completes Nat 1 id (Nat.le_refl 1) (fun _ => 0) [7, 8]).1 _ ?_ (by decide)).2
  intro round member party
  rw [List.eq_of_mem_replicate member]
  cases party <;> decide

end Transfer
end Progress
end NexusHft
