import NexusHft.Engine.LevelReadings

namespace NexusHft

open Foundations

/-!
# The depth of a price

How much rests at a price of a side: the exact sum over its orders, and the
word the book stores for it.  A sweep never adds to a depth; a remainder that
comes to rest adds its quantity at its own price.
-/

/-- The orders of a side with a price. -/
def ordersAt (orders : List RestingOrder) (price : Price) : List RestingOrder :=
  orders.filter (fun order => decide (order.price = price))

/-- The exact sum of their quantities. -/
def depthAt (orders : List RestingOrder) (price : Price) : Nat :=
  ((ordersAt orders price).map (fun order => order.qty.toNat)).sum

theorem depthAt_cons (order : RestingOrder) (orders : List RestingOrder) (price : Price) :
    depthAt (order :: orders) price =
      (if order.price = price then order.qty.toNat else 0) + depthAt orders price := by
  unfold depthAt ordersAt
  by_cases same : order.price = price
  · simp [same]
  · simp [same]

theorem depthAt_perm {orders orders' : List RestingOrder} (perm : orders.Perm orders')
    (price : Price) : depthAt orders price = depthAt orders' price :=
  ((perm.filter _).map _).sum_nat

/-- The orders of a side with the remainder of an incoming one, if there is any. -/
def withRemainder (side : Side) (order : RestingOrder) (qty : Quantity)
    (orders : List RestingOrder) : List RestingOrder :=
  if qty > 0 then place side { order with qty := qty } orders else orders

section Remainder

variable (side : Side) (order : RestingOrder) (qty : Quantity) (orders : List RestingOrder)

/-- A remainder adds its quantity to the depth of its price. -/
theorem depthAt_withRemainder (price : Price) :
    depthAt (withRemainder side order qty orders) price =
      (if order.price = price then qty.toNat else 0) + depthAt orders price := by
  unfold withRemainder
  by_cases remains : qty > 0
  · rw [if_pos remains, depthAt_perm (place_perm side _ orders), depthAt_cons]
  · have zero : qty.toNat = 0 := (eq_zero_iff_toNat _).mp (eq_zero_of_not_pos remains)
    rw [if_neg remains, zero, ite_self, Nat.zero_add]

theorem ordersAt_withRemainder :
    ordersAt (withRemainder side order qty orders) order.price = [] <->
      ordersAt orders order.price = [] ∧ qty.toNat = 0 := by
  unfold withRemainder
  by_cases remains : qty > 0
  · rw [if_pos remains]
    have perm := (place_perm side { order with qty := qty } orders).filter
      (fun other => decide (other.price = order.price))
    rw [List.filter_cons_of_pos (by simp)] at perm
    rw [pos_iff_toNat_pos] at remains
    constructor
    · intro empty
      change (place side { order with qty := qty } orders).filter _ = [] at empty
      rw [empty] at perm
      exact absurd perm.symm.eq_nil (by simp)
    · rintro ⟨-, zero⟩
      omega
  · rw [if_neg remains]
    exact ⟨fun empty => ⟨empty, (eq_zero_iff_toNat _).mp (eq_zero_of_not_pos remains)⟩,
      fun both => both.1⟩

end Remainder

/-- A sweep takes from the depth of a price. -/
theorem sweep_depth_le (incoming : LimitOrder) (qty : Quantity) (makers : List RestingOrder)
    (price : Price) : depthAt (sweep incoming qty makers).left price ≤ depthAt makers price := by
  induction makers generalizing qty with
  | nil => exact Nat.le_refl 0
  | cons maker makers inductionHypothesis =>
      by_cases going : qty > 0 ∧ incoming.accepts maker.price = true
      · by_cases filled : maker.qty - min qty maker.qty = 0
        · rw [sweep_fill incoming maker going.1 going.2 filled, depthAt_cons]
          exact Nat.le_add_left_of_le (inductionHypothesis _)
        · rw [sweep_unfilled incoming maker going.1 going.2 filled, depthAt_cons, depthAt_cons]
          refine Nat.add_le_add_right ?_ _
          split
          · rw [toNat_sub_min_right]
            exact Nat.sub_le _ _
          · exact Nat.le_refl 0
      · rw [sweep, if_neg going]

/-- An incoming order keeps no more than it has. -/
theorem sweep_qty_le (incoming : LimitOrder) (qty : Quantity) (makers : List RestingOrder) :
    (sweep incoming qty makers).qty.toNat ≤ qty.toNat := by
  induction makers generalizing qty with
  | nil => exact Nat.le_refl _
  | cons maker makers inductionHypothesis =>
      by_cases going : qty > 0 ∧ incoming.accepts maker.price = true
      · by_cases filled : maker.qty - min qty maker.qty = 0
        · rw [sweep_fill incoming maker going.1 going.2 filled]
          refine (inductionHypothesis _).trans ?_
          rw [toNat_sub_min_left]
          exact Nat.sub_le _ _
        · rw [sweep_unfilled incoming maker going.1 going.2 filled]
          exact Nat.zero_le _
      · rw [sweep, if_neg going]

namespace Engine

/-- The volume the book shows at a price. -/
def volumeAt (engine : Engine) (side : Side) (price : Price) : Option Quantity :=
  (engine.levelAt side price).map PriceLevel.totalVolume

theorem Represents.volumeAt_eq {engine : Engine} {layout : Layout}
    (represents : engine.Represents layout) (side : Side) (price : Price) :
    engine.volumeAt side price =
      if ordersAt (layout.orders engine.heap side) price = [] then none
      else some (UInt64.ofNat (depthAt (layout.orders engine.heap side) price)) := by
  have orders : ordersAt (layout.orders engine.heap side) price =
      (layout.queue engine.heap side price).map engine.heap.resting := List.filter_map
  rw [volumeAt, represents.levelAt_eq, depthAt, orders]
  by_cases empty : layout.queue engine.heap side price = []
  · rw [if_pos empty, if_pos (List.map_eq_nil_iff.mpr empty)]
    rfl
  · rw [if_neg empty, if_neg (fun none => empty (List.map_eq_nil_iff.mp none)), List.map_map]
    rfl

end Engine
end NexusHft
