import NexusHft.Main.DisplayedTrades
import NexusHft.Web.DeploymentRuns
import NexusHft.Web.OrderForm
import NexusHft.Web.Screen

namespace NexusHft

open Foundations

/-!
# What is seen and what is typed

The screen of a page at any time, and an order that is typed as it was seen.  The
numbers go from the engine to the page as doubles and back to the engine as text,
and are still the engine's own numbers.
-/

namespace Deployment

section Screens

variable {arithmetic : Arithmetic} {past : List Happening} {state : Deployment}

end Screens
end Deployment

namespace OrderForm

end OrderForm
end NexusHft
