import NexusHft.Main.CommandLoop
import Mathlib.Data.Set.Card

namespace NexusHft

open Foundations

/-!
# The pool against the book

Every accepted order takes a slot, and the loop never gives one back: the
matching functions leave the deallocation of filled orders to their caller, and
their caller does not do it.  So the pool and the book agree exactly as long as
no order is ever filled, that is, as long as no accepted order finds an
acceptable price on the other side.
-/

/-- How many orders rest in the book. -/
noncomputable def Engine.restingCount (engine : Engine) : Nat :=
  Set.ncard {node | engine.Resting node}

theorem Engine.Represents.nodup {engine : Engine} {layout : Layout}
    (represents : engine.Represents layout) :
    (layout.nodes .Buy ++ layout.nodes .Sell).Nodup := by
  apply (represents.nodes_nodup .Buy).append (represents.nodes_nodup .Sell)
  intro node buys sells
  have same := (represents.side_of_mem buys).symm.trans (represents.side_of_mem sells)
  cases same

theorem Engine.Represents.restingCount {engine : Engine} {layout : Layout}
    (represents : engine.Represents layout) :
    engine.restingCount = (layout.orders engine.heap).size := by
  have members : {node | engine.Resting node} =
      ((layout.nodes .Buy ++ layout.nodes .Sell).toFinset : Set OrderPtr) := by
    ext node
    rw [Set.mem_ofPred_eq, represents.resting_iff node, List.coe_toFinset, Set.mem_ofPred_eq,
      List.mem_append]
    constructor
    · rintro ⟨side, member⟩
      cases side with
      | Buy => exact Or.inl member
      | Sell => exact Or.inr member
    · rintro (buys | sells)
      · exact ⟨.Buy, buys⟩
      · exact ⟨.Sell, sells⟩
  rw [Engine.restingCount, members, Set.ncard_coe_finset, List.toFinset_card_of_nodup represents.nodup,
    List.length_append, PriorityBook.size, Layout.orders, Layout.orders, List.length_map,
    List.length_map]

/-- The order would trade at the best price of the other side: the test on which
the matching functions break fails. -/
def Engine.crosses (engine : Engine) (order : LimitOrder) : Bool :=
  match (engine.book.levels order.side.opposite).first with
  | none => false
  | some (_, best) => !Engine.stopsAt order.side.opposite best.price order.price

/-- The best level of a represented book is where its first order stands, so
whether an order crosses can be seen from the map. -/
theorem Engine.crosses_iff {engine : Engine} {layout : Layout}
    (represents : engine.Represents layout) (order : LimitOrder) :
    engine.crosses order = true <-> Exists fun maker =>
      (layout.orders engine.heap order.side.opposite).head? = some maker ∧
        order.accepts maker.price = true := by
  unfold Engine.crosses
  cases levels : layout order.side.opposite with
  | nil =>
      have none : (engine.book.levels order.side.opposite).first = none := by
        rw [OrderedMap.first, represents.entries, levels]
        rfl
      have empty : layout.orders engine.heap order.side.opposite = [] := by
        rw [Layout.orders, Layout.nodes, levels]
        rfl
      rw [none, empty]
      simp
  | cons level rest =>
      have listed : level ∈ layout order.side.opposite := by
        rw [levels]
        exact List.mem_cons_self
      have shape := represents.shape _ level listed
      rcases List.exists_cons_of_ne_nil shape.nonempty with ⟨node, queue, nodes⟩
      have price : (engine.heap node).price = level.1 :=
        (shape.placed node (by rw [nodes]; exact List.mem_cons_self)).1
      have first : (layout.orders engine.heap order.side.opposite).head? =
          some (engine.heap.resting node) := by
        rw [Layout.orders, Layout.nodes, levels, List.flatMap_cons, nodes]
        rfl
      rw [represents.first levels, first]
      change (!decide (order.side.opposite.precedes order.price level.1)) = true <-> _
      rw [Bool.not_eq_true', decide_eq_false_iff_not, ← price]
      constructor
      · intro accepted
        exact ⟨_, rfl, (order.accepts_iff _).mpr accepted⟩
      · rintro ⟨maker, isFirst, accepted⟩
        cases isFirst
        exact (order.accepts_iff _).mp accepted

section Loop

variable {arithmetic : Arithmetic}

namespace LoopState

/-- The line is an accepted order that trades. -/
def Crossed (arithmetic : Arithmetic) (state : LoopState) (line : Text) : Prop :=
  Exists fun order => state.accepted arithmetic line = some order ∧
    state.engine.crosses order = true

/-- As many slots are allocated as orders rest. -/
def Balanced (state : LoopState) : Prop := state.pool.allocated = state.engine.restingCount

/-- The invariant of the loop: the engine is represented, the slots of the pool
are parted, and whatever rests is in a live slot, so no order can be overwritten
by a new one. -/
structure Sound (state : LoopState) (layout : Layout) (free live : List Nat) : Prop where
  represents : state.engine.Represents layout
  partitioned : state.pool.Partitioned free live
  capacity : state.pool.capacity = poolCapacity
  within : forall side node, node ∈ layout.nodes side -> node ∈ live

/-! ## What the parser promises -/

theorem extractInteger_fits {input rest : Text} {value : Int}
    (extracted : extractInteger input = some (value, rest)) : value < 2 ^ 63 := by
  unfold extractInteger at extracted
  dsimp only at extracted
  split at extracted
  · cases extracted
  · split at extracted
    · rename_i fits
      cases extracted
      exact fits.2
    · cases extracted

theorem parseCommand_fits {line : Text} {side : Side} {priceInput : Rat} {qtyInput : Int}
    (parsed : parseCommand arithmetic line = .order side priceInput qtyInput) :
    qtyInput < 2 ^ 63 := by
  unfold parseCommand at parsed
  dsimp only at parsed
  split at parsed
  · cases parsed
  · split at parsed
    · split at parsed
      · cases parsed
      · split at parsed
        · cases parsed
        · rename_i extracted
          cases parsed
          exact extractInteger_fits extracted
    · cases parsed

theorem toNat_ofInt {qtyInput : Int} (positive : 0 < qtyInput) (fits : qtyInput < 2 ^ 63) :
    ((UInt64.ofInt qtyInput).toNat : Int) = qtyInput := by
  rw [UInt64.ofInt, UInt64.toNat_ofNat']
  omega

theorem qty_positive {qtyInput : Int} (positive : ¬ qtyInput ≤ 0) (fits : qtyInput < 2 ^ 63) :
    UInt64.ofInt qtyInput > 0 := by
  have same := toNat_ofInt (not_le.mp positive) fits
  rw [pos_iff_toNat_pos]
  omega

/-! ## One line -/

section Line

variable {state next : LoopState} {layout : Layout} {free live : List Nat} {line : Text}
  {printed : List Printed} {budget : Nat} {latency : UInt64}

/-- Every resting order has a slot. -/
theorem Sound.resting_le (sound : state.Sound layout free live) :
    state.engine.restingCount ≤ state.pool.allocated := by
  have distinct : (layout.nodes .Buy ++ layout.nodes .Sell).Nodup := sound.represents.nodup
  have inside : layout.nodes .Buy ++ layout.nodes .Sell ⊆ live := by
    intro node member
    rcases List.mem_append.mp member with buys | sells
    · exact sound.within .Buy node buys
    · exact sound.within .Sell node sells
  have fewer := (List.subperm_of_subset distinct inside).length_le
  rw [List.length_append] at fewer
  rw [sound.represents.restingCount, sound.partitioned.counted, PriorityBook.size, Layout.orders,
    Layout.orders, List.length_map, List.length_map]
  exact fewer

theorem fresh_sound (heap : Heap) :
    (fresh heap).Sound (fun _ => []) (List.range poolCapacity) [] := by
  have pool : (fresh heap).pool = MemoryPool.ofCapacity poolCapacity := by simp only [fresh]
  have parts := MemoryPool.ofCapacity_partitioned poolCapacity
  constructor
  · exact Engine.represents_of_empty rfl
  · rw [pool]
    exact parts.1
  · rw [pool]
    exact parts.2
  · intro _ _ member
    exact absurd member List.not_mem_nil

theorem fresh_balanced (heap : Heap) : (fresh heap).Balanced := by
  rw [Balanced, (fresh_sound heap).represents.restingCount, (fresh_sound heap).partitioned.counted]
  rfl

/-- What a line does: it starts over, it leaves engine and pool alone, or its
order takes the first free slot and is processed.  Every proof about the loop
splits a step by these cases. -/
inductive LineEffect (arithmetic : Arithmetic) (state : LoopState) (layout : Layout)
    (free live : List Nat) (line : Text) (printed : List Printed) (next : LoopState) : Prop
  | cleared {heap : Heap} : next = fresh heap -> state.accepted arithmetic line = none ->
      .err .poolExhausted ∉ printed -> LineEffect arithmetic state layout free live line printed next
  | kept : next = state -> state.accepted arithmetic line = none ->
      (.err .poolExhausted ∈ printed -> free = []) ->
        LineEffect arithmetic state layout free live line printed next
  | served {order : LimitOrder} {slot : Nat} {rest : List Nat} {layout' : Layout} :
      state.accepted arithmetic line = some order -> order.qty > 0 -> free = slot :: rest ->
      next.Sound layout' rest (slot :: live) ->
      layout'.orders next.engine.heap =
        ((layout.orders state.engine.heap).process { order with node := slot }).2 ->
      .err .poolExhausted ∉ printed -> LineEffect arithmetic state layout free live line printed next

/-- Submitting an order that finds a free slot: the node is not in the book, since
whatever rests is live, and the engine may process it. -/
theorem Sound.submit (sound : state.Sound layout free live) {slot : Nat} {rest : List Nat}
    (available : free = slot :: rest) (latency : UInt64) (side : Side) (price : Price)
    (qty : Quantity) : Exists fun printed => Exists fun next => Exists fun layout' =>
      Exists fun enough => (forall budget, enough ≤ budget ->
        state.submit budget latency side price qty = some (printed, next)) ∧
      next.Sound layout' rest (slot :: live) ∧
      layout'.orders next.engine.heap = ((layout.orders state.engine.heap).process
        { id := state.nextId, price := price, qty := qty, side := side, node := slot }).2 ∧
      .err .poolExhausted ∉ printed := by
  subst available
  rcases sound.partitioned.allocate with ⟨pool, allocated, partitioned, capacity⟩
  have distinct := sound.partitioned.whole.nodup_iff.mpr List.nodup_range
  have notLive : slot ∉ live := fun member =>
    (List.nodup_cons.mp distinct).1 (List.mem_append_right rest member)
  have admits : state.engine.Admits (.submit slot ⟨state.nextId, price, qty, side⟩) := by
    intro rests
    rcases (sound.represents.resting_iff slot).mp rests with ⟨onSide, member⟩
    exact notLive (sound.within onSide slot member)
  rcases Engine.serve_run _ sound.represents admits with
    ⟨trades, engine, layout', enough, served, effect, meaning⟩
  refine ⟨printAnswer latency (trades, engine), ⟨engine, pool, state.nextId + 1⟩, layout', enough,
    ?_, ?_, congrArg Prod.snd meaning, err_not_mem_printAnswer⟩
  · intro budget large
    rw [LoopState.submit, allocated]
    dsimp only
    rw [served budget large]
    rfl
  · refine ⟨effect.represents, partitioned, capacity.trans sound.capacity, ?_⟩
    intro onSide node member
    rcases effect.subset onSide node member with earlier | same
    · exact List.mem_cons_of_mem slot (sound.within onSide node earlier)
    · exact same ▸ List.mem_cons_self

/-- Every line is answered: matching terminates from every sound state, so some
budget is enough, and the state it leaves is sound again. -/
theorem Sound.execute (sound : state.Sound layout free live) (arithmetic : Arithmetic)
    (line : Text) (latency : UInt64) : Exists fun printed => Exists fun next =>
      Exists fun enough => (forall budget, enough ≤ budget ->
        state.execute arithmetic budget latency line = some (printed, next)) ∧
      LineEffect arithmetic state layout free live line printed next := by
  by_cases empty : line = []
  · refine ⟨[], state, 0, fun _ _ => if_pos empty, .kept rfl ?_ (fun member => absurd member List.not_mem_nil)⟩
    rw [empty]
    rfl
  unfold LoopState.execute
  simp only [if_neg empty]
  cases parsed : parseCommand arithmetic line with
  | clear =>
      refine ⟨_, _, 0, fun _ _ => rfl, .cleared rfl ?_ ?_⟩
      · rw [accepted, parsed]
      · simp [printBook]
  | malformed =>
      refine ⟨_, _, 0, fun _ _ => rfl, .kept rfl ?_ ?_⟩
      · rw [accepted, parsed]
      · simp
  | unknown command =>
      refine ⟨_, _, 0, fun _ _ => rfl, .kept rfl ?_ ?_⟩
      · rw [accepted, parsed]
      · simp
  | order side priceInput qtyInput =>
      dsimp only
      by_cases notPositive : priceInput ≤ 0 ∨ qtyInput ≤ 0
      · simp only [if_pos notPositive]
        refine ⟨_, _, 0, fun _ _ => rfl, .kept rfl ?_ ?_⟩
        · rw [accepted, parsed]
          exact if_pos (Or.inl notPositive)
        · simp
      simp only [if_neg notPositive]
      cases available : free with
      | nil =>
          rw [available] at sound
          have none : state.pool.freelistHead = none := sound.partitioned.linked
          refine ⟨[.err .poolExhausted], state, 0, fun budget _ => ?_, .kept rfl ?_ fun _ => rfl⟩
          · rw [LoopState.submit, sound.partitioned.exhausted]
          · rw [accepted, parsed]
            exact if_pos (Or.inr none)
      | cons slot rest =>
          rcases sound.submit available latency side (arithmetic.hundredths priceInput)
            (UInt64.ofInt qtyInput) with ⟨printed, next, layout', enough, submitted, after, orders, told⟩
          have head : state.pool.freelistHead = some slot := by
            rw [available] at sound
            exact sound.partitioned.linked.1
          refine ⟨printed, next, enough, submitted, .served ?_ ?_ rfl after orders told⟩
          · rcases not_or.mp notPositive with ⟨price, qty⟩
            have available : state.pool.freelistHead ≠ none := head ▸ Option.some_ne_none slot
            exact (@accepted_iff _ _ _ ⟨_, _, _, side⟩).mpr
              ⟨priceInput, qtyInput, parsed, ⟨not_le.mp price, not_le.mp qty⟩, available, rfl⟩
          · exact qty_positive (fun refused => notPositive (Or.inr refused))
              (parseCommand_fits parsed)

/-- An answer does not depend on the budget that found it. -/
theorem execute_mono {more : Nat} (le : budget ≤ more)
    (executed : state.execute arithmetic budget latency line = some (printed, next)) :
    state.execute arithmetic more latency line = some (printed, next) := by
  unfold execute at executed ⊢
  split at executed
  · rename_i empty
    rw [if_pos empty]
    exact executed
  rename_i line'
  rw [if_neg line']
  cases parsed : parseCommand arithmetic line with
  | clear | malformed | unknown command =>
      rw [parsed] at executed
      exact executed
  | order side priceInput qtyInput =>
      rw [parsed] at executed
      dsimp only at executed ⊢
      split at executed
      · rename_i refused
        rw [if_pos refused]
        exact executed
      · rename_i positive
        rw [if_neg positive]
        unfold submit at executed ⊢
        split at executed
        · rcases Option.map_eq_some_iff.mp executed with ⟨answer, served, same⟩
          rw [Engine.serve_mono le served]
          exact congrArg some same
        · exact executed

/-- What a line that was answered has done. -/
theorem Sound.effect (sound : state.Sound layout free live)
    (executed : state.execute arithmetic budget latency line = some (printed, next)) :
    LineEffect arithmetic state layout free live line printed next := by
  rcases sound.execute arithmetic line latency with ⟨printed', next', enough, answered, effect⟩
  have first := execute_mono (Nat.le_max_left budget enough) executed
  have same := Option.some.inj (first.symm.trans (answered _ (Nat.le_max_right budget enough)))
  rcases Prod.mk.inj same with ⟨samePrinted, sameNext⟩
  subst samePrinted sameNext
  exact effect

/-! ## The balance of one line -/

theorem LineEffect.sound (effect : LineEffect arithmetic state layout free live line printed next)
    (sound : state.Sound layout free live) :
    Exists fun layout' => Exists fun free' => Exists fun live' => next.Sound layout' free' live' := by
  cases effect with
  | cleared isFresh =>
      rw [isFresh]
      exact ⟨_, _, _, fresh_sound _⟩
  | kept same =>
      rw [same]
      exact ⟨layout, free, live, sound⟩
  | served _ _ _ after => exact ⟨_, _, _, after⟩

/-- An order that does not trade takes a slot and comes to rest. -/
theorem LineEffect.balanced (effect : LineEffect arithmetic state layout free live line printed next)
    (sound : state.Sound layout free live) (before : state.Balanced)
    (peaceful : ¬ state.Crossed arithmetic line) : next.Balanced := by
  cases effect with
  | cleared isFresh =>
      rw [isFresh]
      exact fresh_balanced _
  | kept same =>
      rw [same]
      exact before
  | @served order slot rest layout' isAccepted positive available after orders =>
      have refused : forall maker, (layout.orders state.engine.heap order.side.opposite).head? =
          some maker -> order.accepts maker.price ≠ true :=
        fun maker isFirst acceptable => peaceful ⟨order, isAccepted,
          (Engine.crosses_iff sound.represents order).mpr ⟨maker, isFirst, acceptable⟩⟩
      rw [Balanced, after.partitioned.counted, after.represents.restingCount, orders,
        PriorityBook.process_size_of_refused positive refused, ← sound.represents.restingCount,
        ← before, sound.partitioned.counted, List.length_cons]

/-- An order that trades takes a slot, and no more orders rest than before. -/
theorem LineEffect.leaks (effect : LineEffect arithmetic state layout free live line printed next)
    (sound : state.Sound layout free live) (crossed : state.Crossed arithmetic line) :
    ¬ next.Balanced := by
  rcases crossed with ⟨order, isAccepted, crosses⟩
  rcases (Engine.crosses_iff sound.represents order).mp crosses with ⟨maker, isFirst, acceptable⟩
  cases effect with
  | cleared _ nothing | kept _ nothing =>
      rw [nothing] at isAccepted
      cases isAccepted
  | @served found slot rest layout' isOrder positive available after orders =>
      cases Option.some.inj (isOrder.symm.trans isAccepted)
      rcases List.head?_eq_some_iff.mp isFirst with ⟨makers, best⟩
      have fewer := @PriorityBook.process_size_of_accepted _ { order with node := slot } _ _
        positive best acceptable
      have enough := sound.resting_le
      rw [← orders, ← sound.represents.restingCount, ← after.represents.restingCount] at fewer
      rw [sound.partitioned.counted] at enough
      rw [Balanced, after.partitioned.counted, List.length_cons]
      omega

/-- The pool refuses only when all of its slots are taken. -/
theorem LineEffect.exhausted
    (effect : LineEffect arithmetic state layout free live line printed next)
    (sound : state.Sound layout free live) (before : state.Balanced)
    (refused : .err .poolExhausted ∈ printed) : state.engine.restingCount = poolCapacity := by
  cases effect with
  | cleared _ _ notTold => exact absurd refused notTold
  | kept _ _ none =>
      have full := sound.partitioned.length
      rw [none refused, List.length_nil, Nat.zero_add, sound.capacity] at full
      rw [← before, full]
  | served _ _ _ _ _ notTold => exact absurd refused notTold

end Line
end LoopState

/-! ## Runs of the loop -/

/-- After the line as many slots are allocated as orders rest, and it was not
refused for want of a slot unless as many orders rested as there are slots. -/
structure Handled.KeepsSlots (handled : Handled) : Prop where
  balanced : handled.after.Balanced
  refusal : .err .poolExhausted ∈ handled.printed ->
    handled.before.engine.restingCount = poolCapacity

/-- Over every run of the loop: the pool and the book agree after each line, and
the pool refuses only when the book is as large as it, exactly when no line is
an accepted order that trades. -/
theorem slots_kept_iff {past : List Handled} {state : LoopState}
    (run : (commandLoop arithmetic).Run past state) :
    (forall handled, handled ∈ past -> handled.KeepsSlots) <->
      forall handled, handled ∈ past -> ¬ handled.before.Crossed arithmetic handled.line := by
  have invariant := run.invariant (fun past state =>
    (Exists fun layout => Exists fun free => Exists fun live => state.Sound layout free live) ∧
    (forall handled, handled ∈ past -> handled.before.Crossed arithmetic handled.line ->
      ¬ handled.after.Balanced) ∧
    ((forall handled, handled ∈ past -> ¬ handled.before.Crossed arithmetic handled.line) ->
      state.Balanced ∧ forall handled, handled ∈ past -> handled.KeepsSlots)) ?_ ?_
  · constructor
    · intro keeps handled member crossed
      exact invariant.2.1 handled member crossed (keeps handled member).balanced
    · intro peaceful
      exact (invariant.2.2 peaceful).2
  · rintro start ⟨heap, isFresh⟩
    subst isFresh
    refine ⟨⟨_, _, _, LoopState.fresh_sound heap⟩, ?_, fun _ => ⟨LoopState.fresh_balanced heap, ?_⟩⟩
    · exact fun _ member => absurd member List.not_mem_nil
    · exact fun _ member => absurd member List.not_mem_nil
  · rintro past state handled next - ⟨⟨layout, free, live, sound⟩, leaks, keeps⟩
      ⟨isBefore, isAfter, budget, latency, executed⟩
    have effect := sound.effect executed
    refine ⟨effect.sound sound, ?_, ?_⟩
    · intro found member crossed
      rcases List.mem_append.mp member with earlier | last
      · exact leaks found earlier crossed
      · cases List.mem_singleton.mp last
        rw [isBefore] at crossed
        rw [isAfter]
        exact effect.leaks sound crossed
    · intro peaceful
      have earlier := keeps (fun found member => peaceful found (List.mem_append_left _ member))
      have now := peaceful handled (List.mem_append_right _ List.mem_cons_self)
      rw [isBefore] at now
      have balanced := effect.balanced sound earlier.1 now
      refine ⟨balanced, fun found member => ?_⟩
      rcases List.mem_append.mp member with before | last
      · exact earlier.2 found before
      · cases List.mem_singleton.mp last
        refine ⟨isAfter ▸ balanced, fun refused => ?_⟩
        rw [isBefore]
        exact effect.exhausted sound earlier.1 refused

/-! ## Runs over given lines -/

section Lines

variable {past : List Handled} {state : LoopState} {layout : Layout} {free live : List Nat}

/-- A run goes on with any line. -/
theorem LoopState.Sound.line (sound : state.Sound layout free live)
    (run : (commandLoop arithmetic).Run past state) (line : Text) :
    Exists fun printed => Exists fun next =>
      (commandLoop arithmetic).Run (past ++ [⟨state, line, printed, next⟩]) next ∧
        LoopState.LineEffect arithmetic state layout free live line printed next := by
  rcases sound.execute arithmetic line 0 with ⟨printed, next, enough, answered, effect⟩
  exact ⟨printed, next, run.step ⟨rfl, rfl, enough, 0, answered enough (Nat.le_refl enough)⟩, effect⟩

/-- Every sequence of lines is answered. -/
theorem lines_answered (arithmetic : Arithmetic) (heap : Heap) (lines : List Text) :
    Exists fun past => Exists fun state => (commandLoop arithmetic).Run past state ∧
      past.map Handled.line = lines ∧
      Exists fun layout => Exists fun free => Exists fun live => state.Sound layout free live := by
  induction lines using List.reverseRecOn with
  | nil => exact ⟨[], _, .start ⟨heap, rfl⟩, rfl, _, _, _, LoopState.fresh_sound heap⟩
  | append_singleton lines line inductionHypothesis =>
      rcases inductionHypothesis with ⟨past, state, run, same, layout, free, live, sound⟩
      rcases sound.line run line with ⟨printed, next, longer, effect⟩
      refine ⟨_, next, longer, ?_, effect.sound sound⟩
      rw [List.map_append, same]
      rfl

/-- A line with a positive price and quantity is accepted while a slot is free. -/
theorem LoopState.Sound.accepted_of_parsed (sound : state.Sound layout free live) {line : Text}
    {side : Side} {priceInput : Rat} {qtyInput : Int}
    (parsed : parseCommand arithmetic line = .order side priceInput qtyInput)
    (positive : 0 < priceInput ∧ 0 < qtyInput) (room : live.length < poolCapacity) :
    state.accepted arithmetic line = some
      ⟨state.nextId, arithmetic.hundredths priceInput, UInt64.ofInt qtyInput, side⟩ := by
  refine LoopState.accepted_iff.mpr ⟨priceInput, qtyInput, parsed, positive, fun none => ?_, rfl⟩
  have whole := sound.partitioned.length
  have linked := sound.partitioned.linked
  rw [sound.partitioned.counted, sound.capacity] at whole
  cases free with
  | nil =>
      rw [List.length_nil, Nat.zero_add] at whole
      exact absurd whole (Nat.ne_of_lt room)
  | cons slot rest =>
      rw [none] at linked
      cases linked.1

theorem parse_sell : parseCommand .exact "SELL 1 1".toList = .order .Sell 1 1 := by decide +kernel

theorem parse_buy : parseCommand .exact "BUY 1 1".toList = .order .Buy 1 1 := by decide +kernel

theorem hundredths_one : Arithmetic.exact.hundredths 1 = 100 := by decide +kernel

/-- A maker and a taker of one unit fill each other. -/
theorem filled_size (heap : Heap) (id id' : OrderId) (slot slot' : OrderPtr) :
    (((Layout.orders (fun _ => []) heap).process ⟨⟨id, 100, 1, .Sell⟩, slot⟩).2.process
      ⟨⟨id', 100, 1, .Buy⟩, slot'⟩).2.size = 0 := by
  have least : min (1 : Quantity) 1 = 1 := by decide
  simp [PriorityBook.process, place, sweep, PriorityBook.size, LimitOrder.accepts, Side.opposite,
    Layout.orders, Layout.nodes, least]

end Lines

/-- A sell at one, and a buy that fills it: both orders are gone from the book,
and both slots stay allocated. -/
theorem filled_orders_leak : Exists fun past => Exists fun state =>
    (commandLoop .exact).Run past state ∧
      past.map Handled.line = ["SELL 1 1".toList, "BUY 1 1".toList] ∧
      state.pool.allocated = 2 ∧ state.engine.restingCount = 0 := by
  have begins : (commandLoop .exact).Run [] (.fresh Engine.blank.heap) := .start ⟨_, rfl⟩
  have sound := LoopState.fresh_sound Engine.blank.heap
  rcases sound.line begins "SELL 1 1".toList with ⟨printed, offered, run, effect⟩
  have sell := sound.accepted_of_parsed parse_sell (by decide +kernel) (by decide)
  rcases effect with ⟨_, refused, _⟩ | ⟨_, refused, _⟩ | ⟨isSell, _, _, after, sells, _⟩
  · cases refused.symm.trans sell
  · cases refused.symm.trans sell
  cases Option.some.inj (isSell.symm.trans sell)
  rcases after.line run "BUY 1 1".toList with ⟨printed', filled, run', effect'⟩
  have buy := after.accepted_of_parsed parse_buy (by decide +kernel) (show 1 < poolCapacity by decide)
  rcases effect' with ⟨_, refused, _⟩ | ⟨_, refused, _⟩ | ⟨isBuy, _, _, after', buys, _⟩
  · cases refused.symm.trans buy
  · cases refused.symm.trans buy
  cases Option.some.inj (isBuy.symm.trans buy)
  refine ⟨_, filled, run', rfl, after'.partitioned.counted, ?_⟩
  rw [after'.represents.restingCount, buys, sells, hundredths_one, UInt64.ofInt_one]
  exact filled_size _ _ _ _ _

/-- The bids are never touched by a run that does not buy, so none of its orders trades. -/
theorem sells_never_cross {past : List Handled} {state : LoopState}
    (run : (commandLoop arithmetic).Run past state)
    (sells : forall handled, handled ∈ past -> forall priceInput qtyInput,
      parseCommand arithmetic handled.line ≠ .order .Buy priceInput qtyInput) :
    forall handled, handled ∈ past -> ¬ handled.before.Crossed arithmetic handled.line := by
  refine And.right (run.invariant (fun past state => (forall handled, handled ∈ past ->
      forall priceInput qtyInput,
        parseCommand arithmetic handled.line ≠ .order .Buy priceInput qtyInput) ->
    (Exists fun layout => Exists fun free => Exists fun live => state.Sound layout free live ∧
      layout.orders state.engine.heap .Buy = []) ∧
    forall handled, handled ∈ past -> ¬ handled.before.Crossed arithmetic handled.line) ?_ ?_ sells)
  · rintro start ⟨heap, isFresh⟩ -
    rw [isFresh]
    exact ⟨⟨_, _, _, LoopState.fresh_sound heap, rfl⟩, fun _ member => absurd member List.not_mem_nil⟩
  · rintro past state handled next - inductionHypothesis
      ⟨isBefore, -, budget, latency, executed⟩ sells
    rcases inductionHypothesis (fun earlier member => sells earlier (List.mem_append_left _ member))
      with ⟨⟨layout, free, live, sound, noBids⟩, peaceful⟩
    have notBuy := sells handled (List.mem_append_right past List.mem_cons_self)
    have isSell (order : LimitOrder)
        (isAccepted : state.accepted arithmetic handled.line = some order) : order.side = .Sell := by
      rcases LoopState.accepted_iff.mp isAccepted with ⟨priceInput, qtyInput, parsed, -⟩
      cases side : order.side with
      | Sell => rfl
      | Buy => exact absurd (side ▸ parsed) (notBuy priceInput qtyInput)
    constructor
    · cases sound.effect executed with
      | cleared isFresh =>
          rw [isFresh]
          exact ⟨_, _, _, LoopState.fresh_sound _, rfl⟩
      | kept same =>
          rw [same]
          exact ⟨layout, free, live, sound, noBids⟩
      | @served order slot rest layout' isAccepted positive available after orders =>
          have own := isSell order isAccepted
          refine ⟨layout', rest, _, after, ?_⟩
          have untouched : sweep order order.qty
              (layout.orders state.engine.heap order.side.opposite) = ⟨[], [], order.qty⟩ := by
            rw [own]
            change sweep order order.qty (layout.orders state.engine.heap .Buy) = _
            rw [noBids]
            rfl
          have left := @PriorityBook.process_opposite _ { order with node := slot } _ untouched
          rw [← orders] at left
          change layout'.orders next.engine.heap order.side.opposite = [] at left
          rw [own] at left
          exact left
    · intro found member
      rcases List.mem_append.mp member with earlier | last
      · exact peaceful found earlier
      · rw [List.mem_singleton.mp last, isBefore]
        rintro ⟨order, isAccepted, crosses⟩
        rcases (Engine.crosses_iff sound.represents order).mp crosses with ⟨maker, isFirst, -⟩
        rw [isSell order isAccepted] at isFirst
        change (layout.orders state.engine.heap .Buy).head? = some maker at isFirst
        rw [noBids] at isFirst
        cases isFirst

/-- Two offers at one price, a refused line between them, and an offer at another price. -/
def offerLines : List Text :=
  ["SELL 1 1".toList, "SELL 0 1".toList, "SELL 1 2".toList, "SELL 2 3".toList]

theorem slots_kept_iff_offers : Exists fun past => Exists fun state =>
    (commandLoop .exact).Run past state ∧ past.map Handled.line = offerLines ∧
      forall handled, handled ∈ past -> handled.KeepsSlots := by
  rcases lines_answered .exact Engine.blank.heap offerLines with ⟨past, state, run, same, -⟩
  refine ⟨past, state, run, same, (slots_kept_iff run).mpr (sells_never_cross run ?_)⟩
  have offers : offerLines.map (parseCommand .exact) =
      [.order .Sell 1 1, .order .Sell 0 1, .order .Sell 1 2, .order .Sell 2 3] := by decide +kernel
  intro handled member priceInput qtyInput parsed
  have isLine : handled.line ∈ offerLines := same ▸ List.mem_map_of_mem member
  have listed : parseCommand .exact handled.line ∈ offerLines.map (parseCommand .exact) :=
    List.mem_map_of_mem isLine
  rw [offers, parsed] at listed
  simp at listed

end Loop
end NexusHft
