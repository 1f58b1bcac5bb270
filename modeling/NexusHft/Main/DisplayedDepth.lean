import NexusHft.Engine.Depth
import NexusHft.Main.PoolUsage

namespace NexusHft

open Foundations

/-!
# The displayed depth

The volume of a level is a word to which every order that comes to rest adds
its quantity.  It is the exact sum until that sum leaves the range of words,
which no input check prevents: each order is checked on its own.  An order that
finds others at its own price on its own side never trades, because the sides
are apart, so it adds all of its quantity there.
-/

namespace Engine

/-- At every level, the stored volume is the exact sum over the level's queue. -/
def DepthExact (engine : Engine) : Prop :=
  forall side price level queue, engine.levelAt side price = some level ->
    IntrusiveList.Holds engine.heap level.orders queue ->
      level.totalVolume.toNat = quantitySum engine.heap queue

section Depth

variable {engine : Engine} {layout : Layout}

theorem depthAt_orders (layout : Layout) (heap : Heap) (side : Side) (price : Price) :
    depthAt (layout.orders heap side) price = quantitySum heap (layout.queue heap side price) := by
  have orders : ordersAt (layout.orders heap side) price =
      (layout.queue heap side price).map heap.resting := List.filter_map
  rw [depthAt, orders, List.map_map]
  rfl

theorem Represents.depthExact_iff (represents : engine.Represents layout) :
    engine.DepthExact <->
      forall side price, depthAt (layout.orders engine.heap side) price < 2 ^ 64 := by
  constructor
  · intro exact side price
    rw [depthAt_orders]
    have level := represents.levelAt_eq side price
    by_cases empty : layout.queue engine.heap side price = []
    · rw [empty]
      exact Nat.two_pow_pos 64
    · rw [if_neg empty] at level
      have holds := (represents.shape side _ (represents.queue_mem empty)).holds
      rw [← exact side price _ _ level holds]
      exact UInt64.toNat_lt _
  · intro fits side price level queue located holds
    rcases represents.queueAt_iff.mp ⟨level, located, holds⟩ with ⟨nonempty, isQueue⟩
    have shown := represents.levelAt_eq side price
    rw [located, isQueue, if_neg nonempty] at shown
    have bound := fits side price
    rw [depthAt_orders, isQueue] at bound
    rw [Option.some.inj shown]
    exact (UInt64.toNat_ofNat').trans (Nat.mod_eq_of_lt bound)

end Depth
end Engine

namespace PriorityBook

theorem Apart.facing {book : PriorityBook} (apart : book.Apart .Buy) (side : Side) :
    book.Apart side := by
  cases side with
  | Buy => exact apart
  | Sell => exact apart.opposite

/-- How the depths of a book change when an order is processed. -/
theorem process_depth (book : PriorityBook) (incoming : RestingOrder) (price : Price) :
    depthAt ((book.process incoming).2 incoming.side.opposite) price ≤
        depthAt (book incoming.side.opposite) price ∧
      depthAt ((book.process incoming).2 incoming.side) price ≤
        (if incoming.price = price then incoming.qty.toNat else 0) +
          depthAt (book incoming.side) price := by
  generalize sweptEq : sweep incoming.toLimitOrder incoming.qty
    (book incoming.side.opposite) = swept
  constructor
  · rw [process_opposite sweptEq, ← sweptEq]
    exact sweep_depth_le _ _ _ price
  · have own := depthAt_withRemainder incoming.side incoming swept.qty (book incoming.side) price
    rw [withRemainder, ← process_own sweptEq] at own
    have less := sweep_qty_le incoming.toLimitOrder incoming.qty (book incoming.side.opposite)
    rw [sweptEq] at less
    rw [own]
    refine Nat.add_le_add_right ?_ _
    split
    · exact less
    · exact Nat.le_refl 0

/-- An order that meets no acceptable price adds all of its quantity. -/
theorem process_depth_of_refused (book : PriorityBook) (incoming : RestingOrder)
    (refused : forall maker, maker ∈ book incoming.side.opposite ->
      incoming.accepts maker.price ≠ true) :
    (book.process incoming).2 incoming.side.opposite = book incoming.side.opposite ∧
      depthAt ((book.process incoming).2 incoming.side) incoming.price =
        incoming.qty.toNat + depthAt (book incoming.side) incoming.price := by
  have nothing := sweep_refused incoming.toLimitOrder incoming.qty refused
  have own := depthAt_withRemainder incoming.side incoming incoming.qty (book incoming.side)
    incoming.price
  rw [withRemainder, if_pos rfl] at own
  rw [process_opposite nothing, process_own nothing]
  exact ⟨rfl, own⟩

/-- An order of the same price on the same side is a witness that nothing acceptable
is on the other one. -/
theorem refused_of_met {book : PriorityBook} {incoming other : RestingOrder}
    (apart : book.Apart incoming.side) (met : other ∈ book incoming.side)
    (samePrice : other.price = incoming.price) :
    forall maker, maker ∈ book incoming.side.opposite -> incoming.accepts maker.price ≠ true := by
  intro maker listed
  have away := apart other maker met listed
  rw [samePrice] at away
  rw [ne_eq, LimitOrder.accepts_iff, not_not]
  exact away

end PriorityBook

section Loop

variable {arithmetic : Arithmetic}

namespace LoopState

/-- An order that the loop accepts from the line fits the level it belongs to: with
what rests there, its quantity is below `2 ^ 64`. -/
def DepthFits (arithmetic : Arithmetic) (state : LoopState) (line : Text) : Prop :=
  forall order, state.accepted arithmetic line = some order ->
    forall queue, state.engine.QueueAt order.side order.price queue ->
      quantitySum state.engine.heap queue + order.qty.toNat < 2 ^ 64

section Line

variable {state next : LoopState} {layout : Layout} {free live : List Nat} {line : Text}
  {printed : List Printed}

/-- A line keeps the depths exact if its order fits, and only then.  Trades take
from a depth and never add to it, so only the level at the order's own price can
overflow. -/
theorem LineEffect.depth (effect : LineEffect arithmetic state layout free live line printed next)
    (sound : state.Sound layout free live)
    (apart : PriorityBook.Apart (layout.orders state.engine.heap) .Buy)
    (exact : state.engine.DepthExact) :
    next.engine.DepthExact <-> state.DepthFits arithmetic line := by
  have trivially (refused : state.accepted arithmetic line = none) :
      state.DepthFits arithmetic line := by
    intro order isAccepted
    rw [refused] at isAccepted
    cases isAccepted
  cases effect with
  | @cleared heap isFresh refused =>
      refine iff_of_true ?_ (trivially refused)
      rw [isFresh, (fresh_sound heap).represents.depthExact_iff]
      intro side price
      exact Nat.two_pow_pos 64
  | kept same refused =>
      rw [same]
      exact iff_of_true exact (trivially refused)
  | @served order slot rest layout' isAccepted positive available after orders =>
      have before := sound.represents.depthExact_iff.mp exact
      rw [after.represents.depthExact_iff, orders]
      constructor
      · intro fits order' isAccepted' queue standing
        cases Option.some.inj (isAccepted.symm.trans isAccepted')
        rcases sound.represents.queueAt_iff.mp standing with ⟨nonempty, isQueue⟩
        rcases List.exists_mem_of_ne_nil queue nonempty with ⟨node, member⟩
        rw [← isQueue] at member
        rcases Layout.mem_queue.mp member with ⟨queued, atPrice⟩
        have met : state.engine.heap.resting node ∈
            layout.orders state.engine.heap order.side := List.mem_map_of_mem queued
        let incoming : RestingOrder := { order with node := slot }
        have refused := PriorityBook.refused_of_met (apart.facing incoming.side) met atPrice
        have added := (PriorityBook.process_depth_of_refused _ incoming refused).2
        rw [Engine.depthAt_orders layout, isQueue] at added
        rw [Nat.add_comm, ← added]
        exact fits order.side order.price
      · intro fits side price
        have changes := PriorityBook.process_depth (layout.orders state.engine.heap)
          { order with node := slot } price
        by_cases own : side = order.side
        · rw [own]
          refine Nat.lt_of_le_of_lt changes.2 ?_
          by_cases atPrice : order.price = price
          · rw [if_pos atPrice, Engine.depthAt_orders, ← atPrice]
            by_cases empty : layout.queue state.engine.heap order.side order.price = []
            · rw [empty]
              exact order.qty.toNat_lt
            · have room := fits order isAccepted _ (sound.represents.queueAt_iff.mpr ⟨empty, rfl⟩)
              rw [Nat.add_comm] at room
              exact room
          · rw [if_neg atPrice, Nat.zero_add]
            exact before order.side price
        · rw [Side.eq_opposite_of_ne own]
          exact Nat.lt_of_le_of_lt changes.1 (before order.side.opposite price)

/-- The sides of the book stay apart. -/
theorem LineEffect.apart (effect : LineEffect arithmetic state layout free live line printed next)
    (sound : state.Sound layout free live)
    (apart : PriorityBook.Apart (layout.orders state.engine.heap) .Buy) :
    Exists fun layout' => Exists fun free' => Exists fun live' =>
      next.Sound layout' free' live' ∧
        PriorityBook.Apart (layout'.orders next.engine.heap) .Buy := by
  cases effect with
  | @cleared heap isFresh =>
      rw [isFresh]
      exact ⟨_, _, _, fresh_sound heap, fun _ _ member => absurd member List.not_mem_nil⟩
  | kept same =>
      rw [same]
      exact ⟨layout, free, live, sound, apart⟩
  | @served order slot rest layout' _ _ _ after orders =>
      refine ⟨layout', rest, slot :: live, after, ?_⟩
      rw [orders]
      exact PriorityBook.serve_apart (.submit slot order) sound.represents.sorted apart

end Line
end LoopState

/-! ## Runs of the loop -/

/-- All depths of a run are exact: in each of its states, at every level. -/
def DepthsExact (past : List Handled) (state : LoopState) : Prop :=
  (forall handled, handled ∈ past -> handled.before.engine.DepthExact) ∧ state.engine.DepthExact

/-- Over every run of the loop, the displayed depths are exact exactly if every
accepted order fits the level it belongs to: the sum at its price, with the order,
is a word. -/
theorem depths_exact_iff {past : List Handled} {state : LoopState}
    (run : (commandLoop arithmetic).Run past state) :
    DepthsExact past state <->
      forall handled, handled ∈ past -> handled.before.DepthFits arithmetic handled.line := by
  have invariant := run.invariant (fun past state =>
    (Exists fun layout => Exists fun free => Exists fun live => state.Sound layout free live ∧
      PriorityBook.Apart (layout.orders state.engine.heap) .Buy) ∧
    (DepthsExact past state <->
      forall handled, handled ∈ past -> handled.before.DepthFits arithmetic handled.line)) ?_ ?_
  · exact invariant.2
  · rintro start ⟨heap, isFresh⟩
    subst isFresh
    have sound := LoopState.fresh_sound heap
    refine ⟨⟨_, _, _, sound, fun _ _ member => absurd member List.not_mem_nil⟩, ?_⟩
    refine iff_of_true ⟨fun _ member => absurd member List.not_mem_nil, ?_⟩
      (fun _ member => absurd member List.not_mem_nil)
    exact sound.represents.depthExact_iff.mpr (fun _ _ => Nat.two_pow_pos 64)
  · rintro past before handled next - ⟨⟨layout, free, live, sound, apart⟩, earlier⟩
      ⟨isBefore, -, budget, latency, executed⟩
    have effect := sound.effect executed
    refine ⟨effect.apart sound apart, ?_⟩
    constructor
    · rintro ⟨exacts, exactNext⟩ found member
      have exact := exacts handled (List.mem_append_right past List.mem_cons_self)
      rw [isBefore] at exact
      rcases List.mem_append.mp member with inPast | isLast
      · exact earlier.mp ⟨fun other listed => exacts other (List.mem_append_left _ listed), exact⟩
          found inPast
      · rw [List.mem_singleton.mp isLast, isBefore]
        exact (effect.depth sound apart exact).mp exactNext
    · intro fits
      have exacts := earlier.mpr (fun found member => fits found (List.mem_append_left _ member))
      have fitsHere := fits handled (List.mem_append_right past List.mem_cons_self)
      rw [isBefore] at fitsHere
      refine ⟨fun found member => ?_, (effect.depth sound apart exacts.2).mpr fitsHere⟩
      rcases List.mem_append.mp member with inPast | isLast
      · exact exacts.1 found inPast
      · rw [List.mem_singleton.mp isLast, isBefore]
        exact exacts.2

/-! ## Few units -/

section Few

/-- How many units a line asks for. -/
def unitsAsked (arithmetic : Arithmetic) (line : Text) : Nat :=
  match parseCommand arithmetic line with
  | .order _ _ qtyInput => qtyInput.toNat
  | _ => 0

theorem LoopState.accepted_units {state : LoopState} {line : Text} {order : LimitOrder}
    (isAccepted : state.accepted arithmetic line = some order) :
    order.qty.toNat = unitsAsked arithmetic line := by
  rcases LoopState.accepted_iff.mp isAccepted with ⟨priceInput, qtyInput, parsed, positive, -, same⟩
  have fits := LoopState.toNat_ofInt positive.2 (LoopState.parseCommand_fits parsed)
  rw [unitsAsked, parsed, same]
  dsimp only
  omega

/-- No level is deeper than all that has been asked for, so a run that asks for
few units has exact depths throughout. -/
theorem depth_le_asked {past : List Handled} {state : LoopState}
    (run : (commandLoop arithmetic).Run past state) :
    Exists fun layout => Exists fun free => Exists fun live => state.Sound layout free live ∧
      forall side price, depthAt (layout.orders state.engine.heap side) price ≤
        (past.map fun handled => unitsAsked arithmetic handled.line).sum := by
  refine run.invariant (fun past state =>
    Exists fun layout => Exists fun free => Exists fun live => state.Sound layout free live ∧
      forall side price, depthAt (layout.orders state.engine.heap side) price ≤
        (past.map fun handled => unitsAsked arithmetic handled.line).sum) ?_ ?_
  · rintro start ⟨heap, isFresh⟩
    rw [isFresh]
    exact ⟨_, _, _, LoopState.fresh_sound heap, fun _ _ => Nat.zero_le _⟩
  · rintro past before handled next - ⟨layout, free, live, sound, few⟩
      ⟨-, -, budget, latency, executed⟩
    rw [List.map_append, List.sum_append, List.map_singleton, List.sum_singleton]
    cases sound.effect executed with
    | cleared isFresh =>
        rw [isFresh]
        exact ⟨_, _, _, LoopState.fresh_sound _, fun _ _ => Nat.zero_le _⟩
    | kept same =>
        rw [same]
        exact ⟨layout, free, live, sound, fun side price => Nat.le_add_right_of_le (few side price)⟩
    | @served order slot rest layout' isAccepted positive available after orders =>
        refine ⟨layout', rest, _, after, fun side price => ?_⟩
        have changes := PriorityBook.process_depth (layout.orders before.engine.heap)
          { order with node := slot } price
        rw [orders, ← LoopState.accepted_units isAccepted]
        by_cases own : side = order.side
        · rw [own, Nat.add_comm]
          refine changes.2.trans (Nat.add_le_add ?_ (few order.side price))
          split
          · exact Nat.le_refl _
          · exact Nat.zero_le _
        · rw [Side.eq_opposite_of_ne own]
          exact Nat.le_add_right_of_le (changes.1.trans (few order.side.opposite price))

/-- Every order fits its level in a run that asks for less than `2 ^ 64` units in all. -/
theorem depthFits_of_few {past : List Handled} {state : LoopState}
    (run : (commandLoop arithmetic).Run past state)
    (few : (past.map fun handled => unitsAsked arithmetic handled.line).sum < 2 ^ 64) :
    forall handled, handled ∈ past -> handled.before.DepthFits arithmetic handled.line := by
  intro handled member order isAccepted queue standing
  rcases List.append_of_mem member with ⟨early, late, cut⟩
  rw [cut] at run few
  rcases run.cut with ⟨before, next, earlier, isBefore, -⟩
  rcases depth_le_asked earlier with ⟨layout, free, live, sound, deep⟩
  rw [← isBefore] at sound deep
  rcases sound.represents.queueAt_iff.mp standing with ⟨-, isQueue⟩
  have depth := deep order.side order.price
  rw [Engine.depthAt_orders, isQueue] at depth
  have units := LoopState.accepted_units isAccepted
  rw [List.map_append, List.sum_append, List.map_cons, List.sum_cons] at few
  omega

end Few

/-! ## Large orders at one price -/

section Large

/-- The largest quantity a line can carry, at a price of one. -/
def largeLine : Text := "BUY 1 9223372036854775807".toList

theorem parse_large : parseCommand .exact largeLine = .order .Buy 1 9223372036854775807 := by
  decide +kernel

theorem large_qty : (UInt64.ofInt 9223372036854775807).toNat = 2 ^ 63 - 1 := by decide +kernel

/-- Any number of large lines, each of which comes to rest behind the one before. -/
theorem large_run (count : Nat) (room : count ≤ poolCapacity) :
    Exists fun past => Exists fun state => Exists fun layout => Exists fun free =>
      Exists fun live => (commandLoop .exact).Run past state ∧
        past.map Handled.line = List.replicate count largeLine ∧
        state.Sound layout free live ∧ live.length = count ∧
        layout.orders state.engine.heap .Sell = [] ∧
        depthAt (layout.orders state.engine.heap .Buy) 100 = count * (2 ^ 63 - 1) := by
  induction count with
  | zero =>
      exact ⟨[], _, _, _, _, .start ⟨Engine.blank.heap, rfl⟩, rfl, LoopState.fresh_sound _, rfl, rfl,
        rfl⟩
  | succ count inductionHypothesis =>
      rcases inductionHypothesis (Nat.le_of_succ_le room) with
        ⟨past, state, layout, free, live, run, lines, sound, used, noAsks, depth⟩
      rcases sound.line run largeLine with ⟨printed, next, longer, effect⟩
      have parsed := sound.accepted_of_parsed parse_large (by decide +kernel) (by omega)
      cases effect with
      | cleared _ refused => cases refused.symm.trans parsed
      | kept _ refused => cases refused.symm.trans parsed
      | @served order slot rest layout' isOrder _ _ after orders =>
          cases Option.some.inj (isOrder.symm.trans parsed)
          rw [hundredths_one] at orders
          have rested := PriorityBook.process_depth_of_refused (layout.orders state.engine.heap)
            ⟨⟨state.nextId, 100, UInt64.ofInt 9223372036854775807, .Buy⟩, slot⟩ (by
              intro maker listed
              change maker ∈ layout.orders state.engine.heap .Sell at listed
              rw [noAsks] at listed
              exact absurd listed List.not_mem_nil)
          refine ⟨_, next, layout', rest, slot :: live, longer, ?_, after,
            by rw [List.length_cons, used], ?_, ?_⟩
          · rw [List.map_append, lines, List.replicate_succ']
            rfl
          · rw [orders]
            exact rested.1.trans noAsks
          · rw [orders]
            refine rested.2.trans ?_
            change (UInt64.ofInt 9223372036854775807).toNat +
              depthAt (layout.orders state.engine.heap .Buy) 100 = _
            rw [large_qty, depth]
            omega

/-- After three of them the sum is no word. -/
theorem displayed_depth_wraps : Exists fun past => Exists fun state =>
    (commandLoop .exact).Run past state ∧
      past.map Handled.line = [largeLine, largeLine, largeLine] ∧ ¬ state.engine.DepthExact := by
  rcases large_run 3 (by decide) with ⟨past, state, layout, free, live, run, lines, sound, -, -, depth⟩
  refine ⟨past, state, run, lines, fun exact => ?_⟩
  have fits := sound.represents.depthExact_iff.mp exact .Buy 100
  rw [depth] at fits
  exact absurd fits (by decide)

/-- Two asks stand at one price, a bid cuts the second of them, one line is refused, and
another ask joins the level. -/
def cutLines : List Text :=
  ["SELL 1 5".toList, "SELL 1 3".toList, "BUY 1 6".toList, "BUY 0 1".toList, "SELL 1 4".toList]

theorem depths_exact_iff_cut : Exists fun past => Exists fun state =>
    (commandLoop .exact).Run past state ∧ past.map Handled.line = cutLines ∧
      DepthsExact past state := by
  rcases lines_answered .exact Engine.blank.heap cutLines with ⟨past, state, run, same, -⟩
  refine ⟨past, state, run, same, (depths_exact_iff run).mpr (depthFits_of_few run ?_)⟩
  have asked : (past.map fun handled => unitsAsked .exact handled.line) =
      cutLines.map (unitsAsked .exact) := by
    rw [← same, List.map_map]
    rfl
  rw [asked]
  decide +kernel

end Large
end Loop
end NexusHft
