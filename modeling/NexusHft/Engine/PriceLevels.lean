import NexusHft.Engine.Depth
import NexusHft.Engine.ReachableBook
import Mathlib.Data.List.Dedup

namespace NexusHft

open Foundations

/-!
# The levels of a sequence of orders

A book keeps levels with stored volumes; a priority book keeps only orders.  The
levels that a sequence of orders stands for are its prices, each once, with the
sum of what rests there as a word.  The book in memory has exactly these levels,
in this order, so whatever is read from the levels alone is read from the orders.
-/

/-- The prices of a sequence of orders, each once, with what rests there. -/
def priceLevels (orders : List RestingOrder) : List (Price × Quantity) :=
  (orders.map fun order => order.price).dedup.map fun price =>
    (price, UInt64.ofNat (depthAt orders price))

section Runs

variable {Key Item : Type} [DecidableEq Key]

/-- A run of one key counts once. -/
theorem dedup_replicate_append {key : Key} {rest : List Key} (absent : key ∉ rest) (count : Nat) :
    (List.replicate (count + 1) key ++ rest).dedup = key :: rest.dedup := by
  induction count with
  | zero => exact List.dedup_cons_of_notMem absent
  | succ count inductionHypothesis =>
      rw [List.replicate_succ, List.cons_append, List.dedup_cons_of_mem]
      · exact inductionHypothesis
      · exact List.mem_append_left rest List.mem_cons_self

/-- Items in groups by their key have the keys of the groups. -/
theorem dedup_groups {key : Item -> Key} {groups : List (Key × List Item)}
    (distinct : (groups.map Prod.fst).Nodup)
    (shape : forall group, group ∈ groups ->
      group.2 ≠ [] ∧ forall item, item ∈ group.2 -> key item = group.1) :
    ((groups.flatMap Prod.snd).map key).dedup = groups.map Prod.fst := by
  induction groups with
  | nil => rfl
  | cons group groups inductionHypothesis =>
      rcases List.nodup_cons.mp distinct with ⟨absent, distinctRest⟩
      have shapeRest := fun other listed => shape other (List.mem_cons_of_mem group listed)
      rcases shape group List.mem_cons_self with ⟨nonempty, keyed⟩
      have same : group.2.map key = List.replicate (group.2.length - 1 + 1) group.1 := by
        rw [Nat.sub_add_cancel (List.length_pos_of_ne_nil nonempty), List.eq_replicate_iff]
        refine ⟨List.length_map _, fun found member => ?_⟩
        rcases List.mem_map.mp member with ⟨item, listed, isKey⟩
        rw [← isKey]
        exact keyed item listed
      have elsewhere : group.1 ∉ (groups.flatMap Prod.snd).map key := by
        intro member
        rcases List.mem_map.mp member with ⟨item, inGroups, isKey⟩
        rcases List.mem_flatMap.mp inGroups with ⟨other, listed, inOther⟩
        refine absent (List.mem_map.mpr ⟨other, listed, ?_⟩)
        rw [← isKey]
        exact ((shapeRest other listed).2 item inOther).symm
      rw [List.flatMap_cons, List.map_append, same, dedup_replicate_append elsewhere,
        inductionHypothesis distinctRest shapeRest, List.map_cons]

end Runs

/-! ## Levels in memory -/

namespace Engine

section Levels

variable {engine : Engine} {layout : Layout}

theorem Represents.prices_nodup (represents : engine.Represents layout) (side : Side) :
    ((layout side).map Prod.fst).Nodup := by
  rw [List.Nodup, List.pairwise_map]
  refine (represents.prices_ordered side).imp ?_
  intro first second before same
  rw [same] at before
  exact irrefl_of side.precedes second.1 before

/-- What rests at the price of a level is what the level holds. -/
theorem Represents.depthAt_level (represents : engine.Represents layout) {side : Side}
    {level : Price × List OrderPtr} (listed : level ∈ layout side) :
    depthAt (layout.orders engine.heap side) level.1 = quantitySum engine.heap level.2 := by
  have orders : ordersAt (layout.orders engine.heap side) level.1 =
      (layout.queue engine.heap side level.1).map engine.heap.resting := List.filter_map
  rw [depthAt, orders, represents.queue_of_mem listed, List.map_map]
  rfl

/-- The levels of a book, with their prices and volumes, are those of its orders. -/
theorem Represents.levels_eq (represents : engine.Represents layout) (side : Side) :
    (engine.book.levels side).entries.map (fun entry => (entry.1, entry.2.totalVolume)) =
      priceLevels (layout.orders engine.heap side) := by
  have prices : ((layout.orders engine.heap side).map fun order => order.price).dedup =
      (layout side).map Prod.fst := by
    rw [Layout.orders, List.map_map]
    apply dedup_groups (represents.prices_nodup side)
    intro level listed
    have shape := represents.shape side level listed
    exact ⟨shape.nonempty, fun node member => (shape.placed node member).1⟩
  rw [represents.entries, priceLevels, prices, List.map_map, List.map_map]
  refine List.map_congr_left fun level listed => ?_
  have depth := represents.depthAt_level listed
  exact Prod.ext rfl (congrArg UInt64.ofNat depth).symm

end Levels
end Engine

/-! ## The levels of orders that are listed best first -/

section Ordered

variable {side : Side} {orders : List RestingOrder}

theorem mem_priceLevels {level : Price × Quantity} : level ∈ priceLevels orders <->
    (Exists fun order => order ∈ orders ∧ order.price = level.1) ∧
      level.2 = UInt64.ofNat (depthAt orders level.1) := by
  rw [priceLevels, List.mem_map]
  constructor
  · rintro ⟨price, listed, same⟩
    subst same
    exact ⟨List.mem_map.mp (List.mem_dedup.mp listed), rfl⟩
  · rintro ⟨met, volume⟩
    exact ⟨level.1, List.mem_dedup.mpr (List.mem_map.mpr met), Prod.ext rfl volume.symm⟩

/-- Prices that never get better and are all different get worse. -/
theorem priceLevels_pairwise (sorted : orders.Pairwise fun first second =>
    ¬ side.precedes second.price first.price) :
    (priceLevels orders).Pairwise fun first second => side.precedes first.1 second.1 := by
  rw [priceLevels, List.pairwise_map]
  have ordered : (orders.map fun order => order.price).Pairwise fun first second =>
      ¬ side.precedes second first := List.pairwise_map.mpr sorted
  refine ((ordered.sublist (List.dedup_sublist _)).and (List.nodup_dedup _)).imp ?_
  rintro first second ⟨notAfter, different⟩
  by_contra notBefore
  exact different (Std.Trichotomous.trichotomous first second notBefore notAfter)

end Ordered
end NexusHft
