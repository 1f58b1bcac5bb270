import NexusHft.Concurrency.SpscSafety

namespace NexusHft

open Foundations

/-!
# The failures of the queue are genuine

A call fails on a copy of the other party's index that it has reloaded within the
call.  At the moment of the reload the copy is exact, so that the ring was then
full for the producer, or empty for the consumer; until the call returns, only
the other party moves.

The callers' variables are part of the state here: `offered` is the argument of
`push`, which `std::forward` may move from, and `received` is the argument of
`pop`.
-/

section Results

variable {Item : Type}

/-- Whose turn a step is, with the argument of a call that the step begins: the
item to be pushed, or what stands in the variable that a pop is to fill. -/
inductive CallTurn (Item : Type) where
  | push (item : Item)
  | pop (item : Item)

/-- The two threads that a queue may have. -/
inductive Party where
  | producer
  | consumer
  deriving DecidableEq

def CallTurn.party : CallTurn Item -> Party
  | .push _ => .producer
  | .pop _ => .consumer

def CallTurn.argument : CallTurn Item -> Item
  | .push item => item
  | .pop item => item

/-- The queue together with the callers' variables: the item offered to `push`,
and the one that `pop` is to assign to.  A call that fails has to leave them
alone. -/
structure CallState (Item : Type) where
  queue : SpscQueue Item
  offered : Item
  received : Item

namespace CallState

/-- The argument of the party's latest call. -/
def argument (state : CallState Item) : Party -> Item
  | .producer => state.offered
  | .consumer => state.received

def Idle (state : CallState Item) : Party -> Prop
  | .producer => state.queue.producer = .idle
  | .consumer => state.queue.consumer = .idle

/-- The party is about to load the other party's index. -/
def Reloading (state : CallState Item) : Party -> Prop
  | .producer => Exists fun item => Exists fun head => Exists fun nextHead =>
      state.queue.producer = .reload item head nextHead
  | .consumer => Exists fun tail => state.queue.consumer = .reload tail

/-- A step of the queue, with what it does to the callers' variables. -/
def take (capacity : Nat) (forwarded moved : Item -> Item) (state : CallState Item) :
    CallTurn Item -> Outcome Item × CallState Item
  | .push item =>
      let step := state.queue.take capacity moved (.producer item)
      (step.1, { state with
        queue := step.2
        offered := match state.queue.producer with
          | .idle => item
          | .write _ _ _ => forwarded state.offered
          | _ => state.offered })
  | .pop item =>
      let step := state.queue.take capacity moved .consumer
      (step.1, { state with
        queue := step.2
        received := match state.queue.consumer with
          | .idle => item
          | .read tail => state.queue.buffer tail
          | _ => state.received })

end CallState

/-- One producer and one consumer, with their variables. -/
def callSystem (capacity : Nat) (forwarded moved : Item -> Item) :
    LabelledSystem (CallState Item) (CallTurn Item × Outcome Item) where
  starts state := Exists fun buffer => state.queue = { buffer := buffer }
  step state label next := state.take capacity forwarded moved label.1 = (label.2, next)

/-- The number of items between the two indices. -/
def SpscQueue.stored (capacity : Nat) (queue : SpscQueue Item) : Nat :=
  (queue.head + capacity - queue.tail) % capacity

/-- The items and both indices are the same. -/
def SameRing (first second : SpscQueue Item) : Prop :=
  second.buffer = first.buffer ∧ second.head = first.head ∧ second.tail = first.tail

/-- Since the latest call of the party began, with this argument, no step of the
party has changed the ring, and the argument is still what it was. -/
inductive Untouched (system : LabelledSystem (CallState Item) (CallTurn Item × Outcome Item))
    (party : Party) (item : Item) :
    List (CallTurn Item × Outcome Item) -> CallState Item -> Prop
  | begins {past : List (CallTurn Item × Outcome Item)} {state next : CallState Item}
      {label : CallTurn Item × Outcome Item} :
      system.Run past state -> system.step state label next -> state.Idle party ->
        label.1.party = party -> label.1.argument = item -> SameRing state.queue next.queue ->
        next.argument party = item -> Untouched system party item (past ++ [label]) next
  | goesOn {past : List (CallTurn Item × Outcome Item)} {state next : CallState Item}
      {label : CallTurn Item × Outcome Item} :
      Untouched system party item past state -> system.step state label next ->
        (label.1.party = party -> SameRing state.queue next.queue) ->
        next.argument party = item -> Untouched system party item (past ++ [label]) next

/-- The latest step of the party was to load the other party's index in this state. -/
def ReloadedIn (system : LabelledSystem (CallState Item) (CallTurn Item × Outcome Item))
    (party : Party) (past : List (CallTurn Item × Outcome Item)) (before : CallState Item) : Prop :=
  Exists fun early => Exists fun label => Exists fun late =>
    past = early ++ label :: late ∧ system.Run early before ∧ before.Reloading party ∧
      label.1.party = party ∧ forall later, later ∈ late -> later.1.party ≠ party

/-! ## The queue of a run -/

section Runs

variable {capacity : Nat} {forwarded moved : Item -> Item}
  {labels : List (CallTurn Item × Outcome Item)} {state : CallState Item}

theorem queue_run (run : (callSystem capacity forwarded moved).Run labels state) :
    (SpscQueue.system capacity moved).Run (labels.map Prod.snd) state.queue := by
  induction run with
  | start begins => exact .start begins
  | @step past state next label _ stepped inductionHypothesis =>
      rw [List.map_append]
      apply inductionHypothesis.step
      rcases label with ⟨turn, outcome⟩
      cases turn with
      | push item =>
          rcases Prod.mk.inj stepped with ⟨answer, after⟩
          refine Or.inl ⟨item, Prod.ext answer ?_⟩
          exact congrArg CallState.queue after
      | pop item =>
          rcases Prod.mk.inj stepped with ⟨answer, after⟩
          exact Or.inr (Prod.ext answer (congrArg CallState.queue after))

theorem stored_of_positions {pushed popped seenTail seenHead : Nat} {queue : SpscQueue Item}
    (positions : Positions capacity pushed popped seenTail seenHead queue) :
    queue.stored capacity = pushed - popped := by
  have behind := Nat.le_trans positions.tailBehind positions.headSeen
  have room := positions.room
  have seen := positions.tailSeen
  rw [SpscQueue.stored, positions.head, positions.tail]
  exact slot_distance behind (by omega)

end Runs

/-! ## One step of a party -/

/-- The argument of a push that has not written yet. -/
def PushPoint.waiting : PushPoint Item -> Option Item
  | .idle => none
  | .compare item _ _ => some item
  | .reload item _ _ => some item
  | .recheck item _ _ => some item
  | .write item _ _ => some item
  | .store _ _ => none

/-- A pop has begun and has not read yet. -/
def PopPoint.waiting : PopPoint Item -> Bool
  | .idle => false
  | .compare _ => true
  | .reload _ => true
  | .recheck _ => true
  | .read _ => true
  | .store _ _ => false

section Steps

variable {mask : Nat} {moved : Item -> Item} {queue next : SpscQueue Item} {offer : Item}
  {outcome : Outcome Item}

/-- A pop does not touch what belongs to the producer. -/
theorem popStep_keeps (moves : queue.popStep mask moved = (outcome, next)) :
    next.producer = queue.producer ∧ next.cachedTail = queue.cachedTail := by
  cases SpscQueue.pops_of_popStep moves <;> exact ⟨rfl, rfl⟩

theorem pushStep_keeps (moves : queue.pushStep mask offer = (outcome, next)) :
    next.consumer = queue.consumer ∧ next.cachedHead = queue.cachedHead := by
  cases SpscQueue.pushes_of_pushStep moves <;> exact ⟨rfl, rfl⟩

/-- A push that waits has begun with this step, or waited before it and has not
written; the ring is as it was. -/
theorem pushStep_waits {item : Item} (moves : queue.pushStep mask offer = (outcome, next))
    (waits : next.producer.waiting = some item) : SameRing queue next ∧
      (queue.producer = .idle ∧ offer = item ∨ queue.producer.waiting = some item ∧
        queue.producer ≠ .idle ∧ forall found head nextHead,
          queue.producer ≠ .write found head nextHead) := by
  cases SpscQueue.pushes_of_pushStep moves with
  | begins point => exact ⟨⟨rfl, rfl, rfl⟩, Or.inl ⟨point, Option.some.inj waits⟩⟩
  | looksFull point same =>
      rw [point]
      exact ⟨⟨rfl, rfl, rfl⟩, Or.inr ⟨waits, nofun, nofun⟩⟩
  | reloads point =>
      rw [point]
      exact ⟨⟨rfl, rfl, rfl⟩, Or.inr ⟨waits, nofun, nofun⟩⟩
  | hasRoom points differs =>
      rcases points with point | point <;>
        (rw [point]; exact ⟨⟨rfl, rfl, rfl⟩, Or.inr ⟨waits, nofun, nofun⟩⟩)
  | isFull | writes | stores => cases waits

theorem popStep_waits (moves : queue.popStep mask moved = (outcome, next))
    (waits : next.consumer.waiting = true) : SameRing queue next ∧
      (queue.consumer = .idle ∨ queue.consumer.waiting = true ∧
        queue.consumer ≠ .idle ∧ forall tail, queue.consumer ≠ .read tail) := by
  cases SpscQueue.pops_of_popStep moves with
  | begins point => exact ⟨⟨rfl, rfl, rfl⟩, Or.inl point⟩
  | looksEmpty point same =>
      rw [point]
      exact ⟨⟨rfl, rfl, rfl⟩, Or.inr ⟨rfl, nofun, nofun⟩⟩
  | reloads point =>
      rw [point]
      exact ⟨⟨rfl, rfl, rfl⟩, Or.inr ⟨rfl, nofun, nofun⟩⟩
  | hasItem points differs =>
      rcases points with point | point <;>
        (rw [point]; exact ⟨⟨rfl, rfl, rfl⟩, Or.inr ⟨rfl, nofun, nofun⟩⟩)
  | isEmpty | reads | stores => cases waits

/-- A push is back from the reload only by it. -/
theorem pushStep_recheck {item : Item} {head nextHead : Nat}
    (moves : queue.pushStep mask offer = (outcome, next))
    (atRecheck : next.producer = .recheck item head nextHead) :
    queue.producer = .reload item head nextHead ∧ next.cachedTail = queue.tail := by
  cases SpscQueue.pushes_of_pushStep moves with
  | reloads point =>
      cases atRecheck
      exact ⟨point, rfl⟩
  | begins | looksFull | isFull | hasRoom | writes | stores => cases atRecheck

theorem popStep_recheck {tail : Nat} (moves : queue.popStep mask moved = (outcome, next))
    (atRecheck : next.consumer = .recheck tail) :
    queue.consumer = .reload tail ∧ next.cachedHead = queue.head := by
  cases SpscQueue.pops_of_popStep moves with
  | reloads point =>
      cases atRecheck
      exact ⟨point, rfl⟩
  | begins | looksEmpty | isEmpty | hasItem | reads | stores => cases atRecheck

theorem pushStep_full {item : Item} (moves : queue.pushStep mask offer = (.full item, next)) :
    SameRing queue next ∧ Exists fun head => queue.producer = .recheck item head queue.cachedTail := by
  cases SpscQueue.pushes_of_pushStep moves with
  | isFull point same =>
      rw [same] at point
      exact ⟨⟨rfl, rfl, rfl⟩, _, point⟩

theorem popStep_empty (moves : queue.popStep mask moved = (.empty, next)) :
    SameRing queue next ∧ queue.consumer = .recheck queue.cachedHead := by
  cases SpscQueue.pops_of_popStep moves with
  | isEmpty point same =>
      rw [same] at point
      exact ⟨⟨rfl, rfl, rfl⟩, point⟩

end Steps

/-! ## The steps of a call that fails -/

section Calls

variable {capacity : Nat} {forwarded moved : Item -> Item}
  {labels : List (CallTurn Item × Outcome Item)} {state next : CallState Item} {item : Item}
  {outcome : Outcome Item}

/-- A step of the producer, and what it does to the callers' variables. -/
theorem take_push (stepped : state.take capacity forwarded moved (.push item) = (outcome, next)) :
    state.queue.pushStep (capacity - 1) item = (outcome, next.queue) ∧
      next.received = state.received ∧
      (state.queue.producer = .idle -> next.offered = item) ∧
      (state.queue.producer ≠ .idle ->
        (forall found head nextHead, state.queue.producer ≠ .write found head nextHead) ->
        next.offered = state.offered) := by
  rcases Prod.mk.inj stepped with ⟨answer, after⟩
  subst after
  refine ⟨Prod.ext answer rfl, rfl, ?_, ?_⟩
  · intro idle
    dsimp only
    rw [idle]
  · intro busy waiting
    dsimp only
    cases point : state.queue.producer with
    | idle => exact absurd point busy
    | write found head nextHead => exact absurd point (waiting found head nextHead)
    | compare | reload | recheck | store => rfl

theorem take_pop (stepped : state.take capacity forwarded moved (.pop item) = (outcome, next)) :
    state.queue.popStep (capacity - 1) moved = (outcome, next.queue) ∧
      next.offered = state.offered ∧
      (state.queue.consumer = .idle -> next.received = item) ∧
      (state.queue.consumer ≠ .idle -> (forall tail, state.queue.consumer ≠ .read tail) ->
        next.received = state.received) := by
  rcases Prod.mk.inj stepped with ⟨answer, after⟩
  subst after
  refine ⟨Prod.ext answer rfl, rfl, ?_, ?_⟩
  · intro idle
    dsimp only
    rw [idle]
  · intro busy waiting
    dsimp only
    cases point : state.queue.consumer with
    | idle => exact absurd point busy
    | read tail => exact absurd point (waiting tail)
    | compare | reload | recheck | store => rfl

/-- The argument that a call began with, as long as its variable has kept it. -/
theorem Untouched.argument {system : LabelledSystem (CallState Item) (CallTurn Item × Outcome Item)}
    {party : Party} (untouched : Untouched system party item labels state) :
    state.argument party = item := by
  cases untouched with
  | begins _ _ _ _ _ _ argument => exact argument
  | goesOn _ _ _ argument => exact argument

/-- A push that waits has touched nothing since it began.  The argument is only
moved from in the step that writes the slot, which a call that fails never
reaches. -/
theorem push_untouched (run : (callSystem capacity forwarded moved).Run labels state)
    (waits : state.queue.producer.waiting = some item) :
    Untouched (callSystem capacity forwarded moved) .producer item labels state := by
  refine run.invariant (fun labels state => state.queue.producer.waiting = some item ->
    Untouched (callSystem capacity forwarded moved) .producer item labels state) ?_ ?_ waits
  · rintro state ⟨buffer, begins⟩ waits
    rw [begins] at waits
    cases waits
  · rintro past state ⟨turn, outcome⟩ next run inductionHypothesis stepped waits
    cases turn with
    | push offer =>
        rcases take_push stepped with ⟨moves, -, begun, kept⟩
        rcases pushStep_waits moves waits with ⟨ring, ⟨idle, same⟩ | ⟨waited, busy, notWriting⟩⟩
        · exact .begins run stepped idle rfl same ring ((begun idle).trans same)
        · have earlier := inductionHypothesis waited
          exact .goesOn earlier stepped (fun _ => ring)
            ((kept busy notWriting).trans earlier.argument)
    | pop into =>
        rcases take_pop stepped with ⟨moves, kept, -⟩
        rw [(popStep_keeps moves).1] at waits
        have earlier := inductionHypothesis waits
        exact .goesOn earlier stepped (fun other => nomatch other) (kept.trans earlier.argument)

theorem pop_untouched (run : (callSystem capacity forwarded moved).Run labels state)
    (waits : state.queue.consumer.waiting = true) : Exists fun into =>
      Untouched (callSystem capacity forwarded moved) .consumer into labels state := by
  refine run.invariant (fun labels state => state.queue.consumer.waiting = true ->
    Exists fun into =>
      Untouched (callSystem capacity forwarded moved) .consumer into labels state) ?_ ?_ waits
  · rintro state ⟨buffer, begins⟩ waits
    rw [begins] at waits
    cases waits
  · rintro past state ⟨turn, outcome⟩ next run inductionHypothesis stepped waits
    cases turn with
    | push offer =>
        rcases take_push stepped with ⟨moves, kept, -⟩
        rw [(pushStep_keeps moves).1] at waits
        rcases inductionHypothesis waits with ⟨into, earlier⟩
        exact ⟨into, .goesOn earlier stepped (fun other => nomatch other)
          (kept.trans earlier.argument)⟩
    | pop into =>
        rcases take_pop stepped with ⟨moves, -, begun, kept⟩
        rcases popStep_waits moves waits with ⟨ring, idle | ⟨waited, busy, notReading⟩⟩
        · exact ⟨into, .begins run stepped idle rfl rfl ring (begun idle)⟩
        · rcases inductionHypothesis waited with ⟨argument, earlier⟩
          exact ⟨argument, .goesOn earlier stepped (fun _ => ring)
            ((kept busy notReading).trans earlier.argument)⟩

/-- Steps of the other party come after the reload. -/
theorem ReloadedIn.concat {system : LabelledSystem (CallState Item) (CallTurn Item × Outcome Item)}
    {party : Party} {before : CallState Item} (reloaded : ReloadedIn system party labels before)
    {label : CallTurn Item × Outcome Item} (other : label.1.party ≠ party) :
    ReloadedIn system party (labels ++ [label]) before := by
  rcases reloaded with ⟨early, reload, late, cut, run, reloading, own, others⟩
  refine ⟨early, reload, late ++ [label], ?_, run, reloading, own, ?_⟩
  · rw [cut, List.append_assoc, List.cons_append]
  · intro later member
    rcases List.mem_append.mp member with earlier | last
    · exact others later earlier
    · rw [List.mem_singleton.mp last]
      exact other

/-- A push that rechecks compares with the tail of the state it reloaded in.  The
consumer may have moved on since, but nobody else stores the head that the push
compares. -/
theorem push_reloaded (run : (callSystem capacity forwarded moved).Run labels state)
    {head nextHead : Nat} (rechecks : state.queue.producer = .recheck item head nextHead) :
    Exists fun before => ReloadedIn (callSystem capacity forwarded moved) .producer labels before ∧
      before.queue.producer = .reload item head nextHead ∧
        state.queue.cachedTail = before.queue.tail := by
  refine run.invariant (fun labels state => state.queue.producer = .recheck item head nextHead ->
    Exists fun before => ReloadedIn (callSystem capacity forwarded moved) .producer labels before ∧
      before.queue.producer = .reload item head nextHead ∧
        state.queue.cachedTail = before.queue.tail) ?_ ?_ rechecks
  · rintro state ⟨buffer, begins⟩ rechecks
    rw [begins] at rechecks
    cases rechecks
  · rintro past state ⟨turn, outcome⟩ next run inductionHypothesis stepped rechecks
    cases turn with
    | push offer =>
        rcases pushStep_recheck (take_push stepped).1 rechecks with ⟨reloading, loaded⟩
        exact ⟨state, ⟨past, _, [], rfl, run, ⟨item, head, nextHead, reloading⟩, rfl,
          fun _ member => absurd member List.not_mem_nil⟩, reloading, loaded⟩
    | pop into =>
        rcases popStep_keeps (take_pop stepped).1 with ⟨point, cached⟩
        rw [point] at rechecks
        rcases inductionHypothesis rechecks with ⟨before, reloaded, reloading, loaded⟩
        exact ⟨before, reloaded.concat nofun, reloading, cached.trans loaded⟩

theorem pop_reloaded (run : (callSystem capacity forwarded moved).Run labels state) {tail : Nat}
    (rechecks : state.queue.consumer = .recheck tail) :
    Exists fun before => ReloadedIn (callSystem capacity forwarded moved) .consumer labels before ∧
      before.queue.consumer = .reload tail ∧ state.queue.cachedHead = before.queue.head := by
  refine run.invariant (fun labels state => state.queue.consumer = .recheck tail ->
    Exists fun before => ReloadedIn (callSystem capacity forwarded moved) .consumer labels before ∧
      before.queue.consumer = .reload tail ∧ state.queue.cachedHead = before.queue.head) ?_ ?_
    rechecks
  · rintro state ⟨buffer, begins⟩ rechecks
    rw [begins] at rechecks
    cases rechecks
  · rintro past state ⟨turn, outcome⟩ next run inductionHypothesis stepped rechecks
    cases turn with
    | push offer =>
        rcases pushStep_keeps (take_push stepped).1 with ⟨point, cached⟩
        rw [point] at rechecks
        rcases inductionHypothesis rechecks with ⟨before, reloaded, reloading, loaded⟩
        exact ⟨before, reloaded.concat nofun, reloading, cached.trans loaded⟩
    | pop into =>
        rcases popStep_recheck (take_pop stepped).1 rechecks with ⟨reloading, loaded⟩
        exact ⟨state, ⟨past, _, [], rfl, run, ⟨tail, reloading⟩, rfl,
          fun _ member => absurd member List.not_mem_nil⟩, reloading, loaded⟩

end Calls

/-! ## What the indices say -/

section Indices

variable {k pushed popped seenTail seenHead : Nat} {past : List (Outcome Item)}
  {queue : SpscQueue Item}

/-- The slot after the head is the tail exactly when one slot is left. -/
theorem Positions.full_iff_stored
    (positions : Positions (2 ^ k) pushed popped seenTail seenHead queue) :
    (pushed + 1) % 2 ^ k = queue.tail <-> queue.stored (2 ^ k) = 2 ^ k - 1 := by
  have behind := Nat.le_trans positions.tailBehind positions.headSeen
  have room := positions.room
  have seen := positions.tailSeen
  rw [stored_of_positions positions, positions.tail, full_iff behind (by omega)]
  omega

/-- The indices are equal exactly when nothing is stored. -/
theorem Positions.empty_iff_stored
    (positions : Positions (2 ^ k) pushed popped seenTail seenHead queue) :
    queue.tail = queue.head <-> queue.stored (2 ^ k) = 0 := by
  have behind := Nat.le_trans positions.tailBehind positions.headSeen
  have room := positions.room
  have seen := positions.tailSeen
  rw [stored_of_positions positions, positions.tail, positions.head]
  constructor
  · intro same
    have equal := @same_position (2 ^ k) popped popped pushed (Nat.le_refl _) (by omega) behind
      (by omega) same
    omega
  · intro none
    rw [show popped = pushed by omega]

end Indices

/-! ## Calls without a concurrent one -/

/-- Give the turn to one party until its call returns, for some steps at most. -/
def SpscQueue.alone (capacity : Nat) (moved : Item -> Item) (turn : Turn Item) :
    Nat -> SpscQueue Item -> Option (Outcome Item × SpscQueue Item)
  | 0, _ => none
  | steps + 1, queue =>
      match queue.take capacity moved turn with
      | (.running, next) => alone capacity moved turn steps next
      | returned => some returned

section Alone

variable {k : Nat} {moved : Item -> Item} {past : List (Outcome Item)} {queue : SpscQueue Item}
  {seenTail seenHead : Nat}

/-- A push without a concurrent pop returns, and fails exactly on a full ring.
The cached tail may be out of date; it is reloaded before the call gives up. -/
theorem Flows.push_alone (flows : Flows (2 ^ k) past queue seenTail seenHead)
    (idle : queue.producer = .idle) (offer : Item) :
    (queue.alone (2 ^ k) moved (.producer offer) 6).map Prod.fst = some (.full offer) ∧
        queue.stored (2 ^ k) = 2 ^ k - 1 ∨
      (queue.alone (2 ^ k) moved (.producer offer) 6).map Prod.fst = some (.pushed offer) ∧
        queue.stored (2 ^ k) < 2 ^ k - 1 := by
  have positions := flows.positions
  have next : (queue.head + 1) &&& (2 ^ k - 1) = ((pushedItems past).length + 1) % 2 ^ k := by
    rw [positions.head]
    exact next_slot
  have full := positions.full_iff_stored
  rw [← next] at full
  have stored := stored_of_positions positions
  have behind := Nat.le_trans positions.tailBehind positions.headSeen
  have room : (queue.head + 1) &&& (2 ^ k - 1) ≠ queue.cachedTail ->
      queue.stored (2 ^ k) < 2 ^ k - 1 := by
    intro differs
    have notFull := flows.notFull next differs
    have seen := positions.tailSeen
    omega
  by_cases cached : (queue.head + 1) &&& (2 ^ k - 1) = queue.cachedTail
  · by_cases reloaded : (queue.head + 1) &&& (2 ^ k - 1) = queue.tail
    · refine Or.inl ⟨?_, full.mp reloaded⟩
      simp only [SpscQueue.alone, SpscQueue.take, SpscQueue.pushStep, idle, if_pos cached,
        if_pos reloaded, Option.map_some]
    · have less : queue.stored (2 ^ k) < 2 ^ k - 1 := by
        have notFull := fun isFull => reloaded (full.mpr isFull)
        have within := positions.room
        have seen := positions.tailSeen
        omega
      refine Or.inr ⟨?_, less⟩
      simp only [SpscQueue.alone, SpscQueue.take, SpscQueue.pushStep, idle, if_pos cached,
        if_neg reloaded, Option.map_some]
  · refine Or.inr ⟨?_, room cached⟩
    simp only [SpscQueue.alone, SpscQueue.take, SpscQueue.pushStep, idle, if_neg cached,
      Option.map_some]

/-- A pop without a concurrent push returns, and fails exactly on an empty ring.
The cached head may be out of date; it is reloaded before the call gives up. -/
theorem Flows.pop_alone (flows : Flows (2 ^ k) past queue seenTail seenHead)
    (idle : queue.consumer = .idle) :
    (queue.alone (2 ^ k) moved .consumer 6).map Prod.fst = some .empty ∧
        queue.stored (2 ^ k) = 0 ∨
      (queue.alone (2 ^ k) moved .consumer 6).map Prod.fst =
          some (.popped (queue.buffer queue.tail)) ∧ 0 < queue.stored (2 ^ k) := by
  have positions := flows.positions
  have empty := positions.empty_iff_stored
  have stored := stored_of_positions positions
  by_cases cached : queue.tail = queue.cachedHead
  · by_cases reloaded : queue.tail = queue.head
    · refine Or.inl ⟨?_, empty.mp reloaded⟩
      simp only [SpscQueue.alone, SpscQueue.take, SpscQueue.popStep, idle, if_pos cached,
        if_pos reloaded, Option.map_some]
    · have waiting := Nat.pos_of_ne_zero fun none => reloaded (empty.mpr none)
      refine Or.inr ⟨?_, waiting⟩
      simp only [SpscQueue.alone, SpscQueue.take, SpscQueue.popStep, idle, if_pos cached,
        if_neg reloaded, Option.map_some]
  · have waiting : 0 < queue.stored (2 ^ k) := by
      have unread := flows.notEmpty positions.tail cached
      have seen := positions.headSeen
      omega
    refine Or.inr ⟨?_, waiting⟩
    simp only [SpscQueue.alone, SpscQueue.take, SpscQueue.popStep, idle, if_neg cached,
      Option.map_some]

end Alone

/-! ## Failing calls -/

section Failures

variable {k : Nat} {forwarded moved : Item -> Item}
  {labels past : List (CallTurn Item × Outcome Item)} {state : CallState Item}
  {turn : CallTurn Item} {item : Item}

/-- A push that returns false reloaded the tail of a full ring, and touched
nothing: the ring is as the call found it but for what the consumer did, and so is
the argument. -/
theorem push_fails (run : (callSystem (2 ^ k) forwarded moved).Run (past ++ [(turn, .full item)])
    state) :
    (Exists fun before => ReloadedIn (callSystem (2 ^ k) forwarded moved) .producer past before ∧
      before.queue.stored (2 ^ k) = 2 ^ k - 1) ∧
    Untouched (callSystem (2 ^ k) forwarded moved) .producer item (past ++ [(turn, .full item)])
      state := by
  rcases run.last with ⟨returning, earlier, stepped⟩
  cases turn with
  | pop into =>
      cases SpscQueue.pops_of_popStep (take_pop stepped).1
  | push offer =>
      rcases take_push stepped with ⟨moves, -, -, kept⟩
      rcases pushStep_full moves with ⟨ring, head, rechecks⟩
      have untouched := push_untouched earlier (by rw [rechecks]; rfl)
      have argument := kept (by rw [rechecks]; nofun) (by rw [rechecks]; nofun)
      refine ⟨?_, .goesOn untouched stepped (fun _ => ring) (argument.trans untouched.argument)⟩
      rcases push_reloaded earlier rechecks with ⟨before, reloaded, reloading, loaded⟩
      rcases reloaded with ⟨early, label, late, cut, began, rest⟩
      rcases flows_of_run (queue_run began) with ⟨seenTail, seenHead, flows⟩
      have knows := flows.producer
      unfold ProducerKnows at knows
      rw [reloading] at knows
      refine ⟨before, ⟨early, label, late, cut, began, rest⟩, ?_⟩
      exact flows.positions.full_iff_stored.mp (knows.2.symm.trans loaded)

/-- A pop that returns false reloaded the head of an empty ring, and touched
nothing: the ring is as the call found it but for what the producer did, and so is
the variable. -/
theorem pop_fails (run : (callSystem (2 ^ k) forwarded moved).Run (past ++ [(turn, .empty)])
    state) :
    (Exists fun before => ReloadedIn (callSystem (2 ^ k) forwarded moved) .consumer past before ∧
      before.queue.stored (2 ^ k) = 0) ∧
    Exists fun into => Untouched (callSystem (2 ^ k) forwarded moved) .consumer into
      (past ++ [(turn, .empty)]) state := by
  rcases run.last with ⟨returning, earlier, stepped⟩
  cases turn with
  | push offer =>
      cases SpscQueue.pushes_of_pushStep (take_push stepped).1
  | pop into =>
      rcases take_pop stepped with ⟨moves, -, -, kept⟩
      rcases popStep_empty moves with ⟨ring, rechecks⟩
      rcases pop_untouched earlier (by rw [rechecks]; rfl) with ⟨argument, untouched⟩
      have received := kept (by rw [rechecks]; nofun) (by rw [rechecks]; nofun)
      refine ⟨?_, argument, .goesOn untouched stepped (fun _ => ring)
        (received.trans untouched.argument)⟩
      rcases pop_reloaded earlier rechecks with ⟨before, reloaded, reloading, loaded⟩
      rcases reloaded with ⟨early, label, late, cut, began, rest⟩
      rcases flows_of_run (queue_run began) with ⟨seenTail, seenHead, flows⟩
      have knows := flows.consumer
      unfold ConsumerKnows at knows
      rw [reloading] at knows
      refine ⟨before, ⟨early, label, late, cut, began, rest⟩, ?_⟩
      exact flows.positions.empty_iff_stored.mp
        (flows.positions.tail.trans (knows.symm.trans loaded))

/-- In every run: the indices count the items pushed and not popped; a failing push
reloaded the tail when all slots but one were taken and a failing pop reloaded the
head when none was, and neither touched the ring or its argument; and a call that
begins here without a concurrent one returns, and fails exactly then. -/
theorem failures_genuine (run : (callSystem (2 ^ k) forwarded moved).Run labels state) :
    state.queue.stored (2 ^ k) + (poppedItems (labels.map Prod.snd)).length =
      (pushedItems (labels.map Prod.snd)).length ∧
    (forall past turn item, labels = past ++ [(turn, .full item)] ->
      (Exists fun before => ReloadedIn (callSystem (2 ^ k) forwarded moved) .producer past before ∧
        before.queue.stored (2 ^ k) = 2 ^ k - 1) ∧
      Untouched (callSystem (2 ^ k) forwarded moved) .producer item labels state) ∧
    (forall past turn, labels = past ++ [(turn, .empty)] ->
      (Exists fun before => ReloadedIn (callSystem (2 ^ k) forwarded moved) .consumer past before ∧
        before.queue.stored (2 ^ k) = 0) ∧
      Exists fun into =>
        Untouched (callSystem (2 ^ k) forwarded moved) .consumer into labels state) ∧
    (state.queue.producer = .idle -> forall offer,
      (state.queue.alone (2 ^ k) moved (.producer offer) 6).map Prod.fst = some (.full offer) ∧
          state.queue.stored (2 ^ k) = 2 ^ k - 1 ∨
        (state.queue.alone (2 ^ k) moved (.producer offer) 6).map Prod.fst = some (.pushed offer) ∧
          state.queue.stored (2 ^ k) < 2 ^ k - 1) ∧
    (state.queue.consumer = .idle ->
      (state.queue.alone (2 ^ k) moved .consumer 6).map Prod.fst = some .empty ∧
          state.queue.stored (2 ^ k) = 0 ∨
        (state.queue.alone (2 ^ k) moved .consumer 6).map Prod.fst =
            some (.popped (state.queue.buffer state.queue.tail)) ∧
          0 < state.queue.stored (2 ^ k)) := by
  rcases flows_of_run (queue_run run) with ⟨seenTail, seenHead, flows⟩
  refine ⟨?_, ?_, ?_, flows.push_alone, flows.pop_alone⟩
  · have behind := Nat.le_trans flows.positions.tailBehind flows.positions.headSeen
    rw [stored_of_positions flows.positions]
    omega
  · intro past turn item last
    rw [last] at run ⊢
    exact push_fails run
  · intro past turn last
    rw [last] at run ⊢
    exact pop_fails run

/-- Play a schedule, collecting turns and outcomes oldest first. -/
def CallState.play (capacity : Nat) (forwarded moved : Item -> Item) (state : CallState Item) :
    List (CallTurn Item) -> List (CallTurn Item × Outcome Item) ->
      List (CallTurn Item × Outcome Item) × CallState Item
  | [], past => (past, state)
  | turn :: schedule, past =>
      play capacity forwarded moved (state.take capacity forwarded moved turn).2 schedule
        (past ++ [(turn, (state.take capacity forwarded moved turn).1)])

theorem play_calls {capacity : Nat} {schedule : List (CallTurn Item)}
    (run : (callSystem capacity forwarded moved).Run past state) :
    (callSystem capacity forwarded moved).Run
      (state.play capacity forwarded moved schedule past).1
      (state.play capacity forwarded moved schedule past).2 := by
  induction schedule generalizing past state with
  | nil => exact run
  | cons turn schedule inductionHypothesis =>
      apply inductionHypothesis
      exact run.step rfl

/-- Two pushes into a ring of two slots, which takes one item. -/
def twoPushes : List (CallTurn Nat) := List.replicate 4 (.push 7) ++ List.replicate 4 (.push 8)

theorem failures_genuine_second : Exists fun before =>
    ReloadedIn (callSystem (2 ^ 1) id id) .producer
      (CallState.play (2 ^ 1) id id ⟨{ buffer := fun _ => 0 }, 0, 0⟩ twoPushes.dropLast []).1
      before ∧
    before.queue.stored (2 ^ 1) = 2 ^ 1 - 1 :=
  ((@failures_genuine Nat 1 id id _ _ (@play_calls Nat id id [] _ (2 ^ 1) twoPushes
    (.start ⟨fun _ => 0, rfl⟩))).2.1 _ (.push 8) 8 rfl).1

end Failures
end Results
end NexusHft
