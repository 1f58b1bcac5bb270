import NexusHft.Engine.Commutation
import NexusHft.Engine.PositiveQuantities
import NexusHft.Engine.PriceLevels

namespace NexusHft

/-!
# Regular books

What processing orders keeps of a priority book, from the empty one on: each
side is listed best first, no bid meets an ask, and nothing empty rests.  The
levels that are displayed of a regular book are its best ones, in order, and the
best bid is below the best ask.
-/

/-- Orders that are listed best first. -/
abbrev BestFirst (side : Side) (orders : List RestingOrder) : Prop :=
  orders.Pairwise fun first second => ¬ side.precedes second.price first.price

theorem place_bestFirst {side : Side} (order : RestingOrder) {resting : List RestingOrder}
    (sorted : BestFirst side resting) : BestFirst side (place side order resting) := by
  rcases place_split side order sorted with ⟨front, back, same, early, late⟩
  rw [same] at sorted
  have parts := List.pairwise_append.mp sorted
  rw [same, place_eq early late]
  refine List.pairwise_append.mpr ⟨parts.1, List.pairwise_cons.mpr ⟨?_, parts.2.1⟩, ?_⟩
  · exact fun other behind => Engine.not_precedes_of_precedes (late other behind)
  · intro other before found member
    rcases List.mem_cons.mp member with isOrder | behind
    · rw [isOrder]
      exact early other before
    · exact parts.2.2 other before found behind

theorem sweep_bestFirst {side : Side} (incoming : LimitOrder) {makers : List RestingOrder}
    (sorted : BestFirst side makers) (qty : Quantity) :
    BestFirst side (sweep incoming qty makers).left := by
  have kept := sweep_left_sublist incoming (fun order => order.price) (fun _ _ => rfl) qty makers
  have ordered : (makers.map fun order => order.price).Pairwise fun first second =>
      ¬ side.precedes second first := List.pairwise_map.mpr sorted
  have left := ordered.sublist kept
  rw [List.pairwise_map] at left
  exact left

namespace PriorityBook

/-- What holds of every book of the main loop, where nothing is cancelled or
reduced: it is sorted and uncrossed, and every order at rest has some quantity. -/
structure Regular (book : PriorityBook) : Prop where
  sorted : forall side, BestFirst side (book side)
  apart : book.Apart .Buy
  positive : book.Positive

theorem empty_regular : Regular fun _ => [] where
  sorted := fun _ => List.Pairwise.nil
  apart := fun _ _ member => absurd member List.not_mem_nil
  positive := fun _ _ member => absurd member List.not_mem_nil

theorem process_regular {book : PriorityBook} (regular : book.Regular) (incoming : RestingOrder) :
    (book.process incoming).2.Regular := by
  constructor
  · intro side
    by_cases own : side = incoming.side
    · rw [own, process_own rfl]
      split
      · exact place_bestFirst _ (regular.sorted incoming.side)
      · exact regular.sorted incoming.side
    · rw [Side.eq_opposite_of_ne own, process_opposite rfl]
      exact sweep_bestFirst _ (regular.sorted incoming.side.opposite) _
  · exact serve_apart (.submit incoming.node incoming.toLimitOrder) regular.sorted regular.apart
  · exact (process_positive regular.positive incoming).2

end PriorityBook

/-! ## Snapshots -/

/-- The levels that are displayed of a side: ten at most, best first, each with all
that rests at its price; what they leave out is worse than all of them. -/
structure Snapshot (side : Side) (orders : List RestingOrder) (levels : List (Price × Quantity)) :
    Prop where
  few : levels.length ≤ 10
  bestFirst : levels.Pairwise fun first second => side.precedes first.1 second.1
  occupied : forall level, level ∈ levels -> Exists fun order => order ∈ orders ∧ order.price = level.1
  volume : forall level, level ∈ levels -> level.2.toNat = depthAt orders level.1 % 2 ^ 64
  complete : forall order, order ∈ orders ->
    (Exists fun level => level ∈ levels ∧ level.1 = order.price) ∨
      (levels.length = 10 ∧ forall level, level ∈ levels -> side.precedes level.1 order.price)

/-- A listed item is in front of a cut, or the cut is full and all of it comes before. -/
theorem mem_take_or {Item : Type} {Before : Item -> Item -> Prop} {items : List Item}
    (ordered : items.Pairwise Before) (count : Nat) {item : Item} (listed : item ∈ items) :
    item ∈ items.take count ∨ ((items.take count).length = count ∧
      forall early, early ∈ items.take count -> Before early item) := by
  rw [← List.take_append_drop count items] at listed ordered
  rcases List.mem_append.mp listed with early | late
  · exact .inl early
  · refine .inr ⟨?_, fun early member => (List.pairwise_append.mp ordered).2.2 early member item late⟩
    have behind := List.length_pos_of_mem late
    rw [List.length_drop] at behind
    rw [List.length_take]
    omega

theorem priceLevels_snapshot {side : Side} {orders : List RestingOrder}
    (sorted : BestFirst side orders) : Snapshot side orders ((priceLevels orders).take 10) := by
  have ordered := priceLevels_pairwise sorted
  have shown {level : Price × Quantity} (listed : level ∈ (priceLevels orders).take 10) :=
    mem_priceLevels.mp (List.mem_of_mem_take listed)
  constructor
  · exact List.length_take_le 10 _
  · exact ordered.sublist (List.take_sublist 10 _)
  · exact fun level listed => (shown listed).1
  · intro level listed
    rw [(shown listed).2, UInt64.toNat_ofNat']
  · intro order resting
    have listed : (order.price, UInt64.ofNat (depthAt orders order.price)) ∈ priceLevels orders :=
      mem_priceLevels.mpr ⟨⟨order, resting, rfl⟩, rfl⟩
    rcases mem_take_or ordered 10 listed with early | ⟨full, before⟩
    · exact .inl ⟨_, early, rfl⟩
    · exact .inr ⟨full, before⟩

end NexusHft
