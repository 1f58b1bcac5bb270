import Mathlib.Data.UInt
import Mathlib.Order.Defs.Unbundled

namespace NexusHft

/-!
# Basic types

Prices, quantities and order ids are 64-bit words, as in the source.  A side
carries the comparison that sorts its half of the book: `std::greater` for
bids and `std::less` for asks.  Both matching loops break on the same
comparison, which is why a side, and not a pair of hand-written tests, is
what the later proofs range over.
-/

abbrev Price := UInt64
abbrev Quantity := UInt64
abbrev OrderId := UInt64

/-- The side of an order.  Most of the source is written twice, once for each
side; what is proved is proved for both at once. -/
inductive Side where
  | Buy
  | Sell
  deriving DecidableEq, Repr

namespace Side

/-- The side an incoming order trades against. -/
def opposite : Side -> Side
  | Buy => Sell
  | Sell => Buy

/-- The key comparison of the side's price map. -/
def precedes : Side -> Price -> Price -> Prop
  | Buy, left, right => left > right
  | Sell, left, right => left < right

instance (side : Side) : DecidableRel side.precedes := fun left right =>
  match side with
  | Buy => inferInstanceAs (Decidable (left > right))
  | Sell => inferInstanceAs (Decidable (left < right))

@[simp] theorem opposite_opposite (side : Side) : side.opposite.opposite = side := by
  cases side <;> rfl

theorem opposite_ne (side : Side) : side.opposite ≠ side := by
  cases side <;> decide

theorem eq_opposite_of_ne {side other : Side} (different : side ≠ other) :
    side = other.opposite := by
  cases side <;> cases other <;> first | rfl | exact absurd rfl different

/-- Comparing from the other side reverses the comparison. -/
theorem precedes_opposite (side : Side) (left right : Price) :
    side.opposite.precedes left right <-> side.precedes right left := by
  cases side <;> exact Iff.rfl

instance (side : Side) : Std.Irrefl side.precedes where
  irrefl price := by
    cases side <;> exact UInt64.lt_irrefl price

instance (side : Side) : IsTrans Price side.precedes where
  trans first second third := by
    intro before after
    cases side with
    | Buy => exact UInt64.lt_trans after before
    | Sell => exact UInt64.lt_trans before after

instance (side : Side) : Std.Trichotomous side.precedes where
  trichotomous left right := by
    intro notBefore notAfter
    cases side with
    | Buy => exact UInt64.le_antisymm (UInt64.not_lt.mp notBefore) (UInt64.not_lt.mp notAfter)
    | Sell => exact UInt64.le_antisymm (UInt64.not_lt.mp notAfter) (UInt64.not_lt.mp notBefore)

end Side

/-! ## Exact readings of word arithmetic -/

theorem toNat_min (left right : UInt64) :
    (min left right).toNat = min left.toNat right.toNat := by
  by_cases le : left ≤ right
  · rw [show min left right = left from if_pos le, Nat.min_eq_left (UInt64.le_iff_toNat_le.mp le)]
  · have less := UInt64.lt_iff_toNat_lt.mp (UInt64.not_le.mp le)
    rw [show min left right = right from if_neg le, Nat.min_eq_right (Nat.le_of_lt less)]

theorem toNat_sub_of_toNat_le {left right : UInt64} (le : right.toNat ≤ left.toNat) :
    (left - right).toNat = left.toNat - right.toNat :=
  UInt64.toNat_sub_of_le left right (UInt64.le_iff_toNat_le.mpr le)

/-- Subtracting the smaller of two words never wraps. -/
theorem toNat_sub_min_left (left right : UInt64) :
    (left - min left right).toNat = left.toNat - right.toNat := by
  rw [toNat_sub_of_toNat_le (by rw [toNat_min]; omega), toNat_min]
  omega

theorem toNat_sub_min_right (left right : UInt64) :
    (right - min left right).toNat = right.toNat - left.toNat := by
  rw [toNat_sub_of_toNat_le (by rw [toNat_min]; omega), toNat_min]
  omega

/-- A word that is a sum modulo `2 ^ 64` follows the sum down. -/
theorem ofNat_sub_word (total : Nat) (word : UInt64) (le : word.toNat ≤ total) :
    UInt64.ofNat total - word = UInt64.ofNat (total - word.toNat) := by
  apply UInt64.toNat_inj.mp
  rw [UInt64.toNat_sub, UInt64.toNat_ofNat', UInt64.toNat_ofNat']
  have bound := word.toNat_lt
  omega

theorem ofNat_add_word (total : Nat) (word : UInt64) :
    UInt64.ofNat total + word = UInt64.ofNat (total + word.toNat) := by
  apply UInt64.toNat_inj.mp
  rw [UInt64.toNat_add, UInt64.toNat_ofNat', UInt64.toNat_ofNat']
  omega

theorem pos_iff_toNat_pos (word : UInt64) : word > 0 <-> 0 < word.toNat :=
  UInt64.lt_iff_toNat_lt

theorem eq_zero_iff_toNat (word : UInt64) : word = 0 <-> word.toNat = 0 := by
  rw [← UInt64.toNat_inj]
  rfl

/-- What is not positive is zero. -/
theorem eq_zero_of_not_pos {word : UInt64} (notPos : ¬ word > 0) : word = 0 := by
  rw [pos_iff_toNat_pos] at notPos
  rw [eq_zero_iff_toNat]
  omega

end NexusHft
