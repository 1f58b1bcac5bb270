import Mathlib.Order.RelIso.Basic
import NexusHft.Core.Types

namespace NexusHft

/-!
# Mirrored prices

The mirror of a price is its distance from `MAX_PRICE`.  All that is used of it
is that it reverses the order of prices, so that what is best on one side of a
book becomes what is best on the other.
-/

def MAX_PRICE : Price := 18446744073709551615

theorem MAX_PRICE_toNat : MAX_PRICE.toNat = 2 ^ 64 - 1 := rfl

/-- A map of prices that reverses their order.  Mirroring a price and swapping the
sides turns a book upside down; everything that is proved for one side then holds
for the other one. -/
structure PriceMirror where
  price : Price -> Price
  reverses : forall left right, price left < price right <-> right < left

namespace PriceMirror

variable (mirror : PriceMirror)

theorem injective : Function.Injective mirror.price := by
  intro left right same
  rcases Std.lt_trichotomy left right with less | equal | greater
  · have mirrored := (mirror.reverses right left).mpr less
    rw [same] at mirrored
    exact absurd mirrored (UInt64.lt_irrefl _)
  · exact equal
  · have mirrored := (mirror.reverses left right).mpr greater
    rw [same] at mirrored
    exact absurd mirrored (UInt64.lt_irrefl _)

/-- Mirroring prices exchanges the orders of the two maps. -/
theorem precedes (side : Side) (left right : Price) :
    side.opposite.precedes (mirror.price left) (mirror.price right) <->
      side.precedes left right := by
  cases side with
  | Buy => exact mirror.reverses left right
  | Sell => exact mirror.reverses right left

def keys (side : Side) : side.precedes ↪r side.opposite.precedes where
  toFun := mirror.price
  inj' := mirror.injective
  map_rel_iff' := mirror.precedes side _ _

end PriceMirror

/-- The distance of a price from the largest one. -/
def maxPriceMirror : PriceMirror where
  price price := MAX_PRICE - price
  reverses left right := by
    have leftBound := left.toNat_lt
    have rightBound := right.toNat_lt
    rw [UInt64.lt_iff_toNat_lt, UInt64.lt_iff_toNat_lt, UInt64.toNat_sub, UInt64.toNat_sub,
      MAX_PRICE_toNat]
    omega

end NexusHft
