import Mathlib.Data.List.Basic
import Mathlib.Order.Defs.Unbundled

namespace NexusHft
namespace Foundations

/-!
# Lists in the order of their keys

Items of equal keys may be in any order, and it matters which.  A list that is in the
order of its keys is determined by the items of each key, in their order: how the items
of different keys have arrived can not be seen.
-/

section StableOrder

variable {Item Key : Type} {key : Item -> Key} {precedes : Key -> Key -> Prop}

/-- No item precedes one before it. -/
abbrev InOrder (key : Item -> Key) (precedes : Key -> Key -> Prop) (items : List Item) : Prop :=
  items.Pairwise fun first second => ¬ precedes (key second) (key first)

variable [DecidableEq Key] {items others : List Item}

/-- The items of a key, in their order. -/
def itemsAt (key : Item -> Key) (items : List Item) (value : Key) : List Item :=
  items.filter fun item => decide (key item = value)

theorem mem_itemsAt {value : Key} {item : Item} :
    item ∈ itemsAt key items value <-> item ∈ items ∧ key item = value := by
  rw [itemsAt, List.mem_filter, decide_eq_true_eq]

theorem itemsAt_cons_self (item : Item) (items : List Item) :
    itemsAt key (item :: items) (key item) = item :: itemsAt key items (key item) :=
  List.filter_cons_of_pos (decide_eq_true rfl)

theorem itemsAt_cons_of_ne {value : Key} {item : Item} (different : key item ≠ value)
    (items : List Item) : itemsAt key (item :: items) value = itemsAt key items value :=
  List.filter_cons_of_neg (by simpa using different)

theorem itemsAt_singleton (key : Item -> Key) (item : Item) (value : Key) :
    itemsAt key [item] value = if key item = value then [item] else [] := by
  by_cases here : key item = value
  · rw [if_pos here, ← here]
    exact itemsAt_cons_self item []
  · rw [if_neg here]
    exact itemsAt_cons_of_ne here []

theorem itemsAt_append (items others : List Item) (value : Key) :
    itemsAt key (items ++ others) value = itemsAt key items value ++ itemsAt key others value :=
  List.filter_append _ _

theorem itemsAt_eq_nil {value : Key} (absent : forall item, item ∈ items -> key item ≠ value) :
    itemsAt key items value = [] :=
  List.filter_eq_nil_iff.mpr fun item member => by simpa using absent item member

/-- The same items of each key are the same items. -/
theorem mem_of_same_keys (same : forall value, itemsAt key items value = itemsAt key others value)
    {item : Item} (member : item ∈ items) : item ∈ others := by
  have found : item ∈ itemsAt key items (key item) := mem_itemsAt.mpr ⟨member, rfl⟩
  rw [same] at found
  exact (mem_itemsAt.mp found).1

/-- Lists in order with the same items of each key are equal.  Sorting is stable
in this sense: the order of the items of one key is all that is left to tell. -/
theorem eq_of_same_keys [Std.Trichotomous precedes] (ordered : InOrder key precedes items)
    (ordered' : InOrder key precedes others)
    (same : forall value, itemsAt key items value = itemsAt key others value) : items = others := by
  induction items generalizing others with
  | nil =>
      cases others with
      | nil => rfl
      | cons first others =>
          exact absurd (mem_of_same_keys (fun value => (same value).symm) List.mem_cons_self)
            List.not_mem_nil
  | cons item items inductionHypothesis =>
      cases others with
      | nil => exact absurd (mem_of_same_keys same List.mem_cons_self) List.not_mem_nil
      | cons first others =>
          rcases List.pairwise_cons.mp ordered with ⟨behind, orderedRest⟩
          rcases List.pairwise_cons.mp ordered' with ⟨behind', orderedRest'⟩
          have sameKey : key item = key first := by
            rcases List.mem_cons.mp (mem_of_same_keys same List.mem_cons_self) with isFirst | later
            · rw [isFirst]
            · rcases List.mem_cons.mp (mem_of_same_keys (fun value => (same value).symm)
                List.mem_cons_self) with isItem | later'
              · rw [isItem]
              · exact Std.Trichotomous.trichotomous (key item) (key first) (behind' item later)
                  (behind first later')
          have heads := same (key item)
          rw [itemsAt_cons_self, sameKey, itemsAt_cons_self] at heads
          rcases List.cons.inj heads with ⟨isFirst, atKey⟩
          subst isFirst
          have rest : forall value, itemsAt key items value = itemsAt key others value := by
            intro value
            by_cases here : key item = value
            · rw [← here]
              exact atKey
            · have behindItem := same value
              rw [itemsAt_cons_of_ne here, itemsAt_cons_of_ne here] at behindItem
              exact behindItem
          rw [inductionHypothesis orderedRest orderedRest' rest]

end StableOrder
end Foundations
end NexusHft
