import NexusHft.Risk.RiskEngine

namespace NexusHft
namespace RiskLimits

/-!
# The price collar

The collar is a bound above the reference price for buys and one below it for
sells.  The source computes it with a product, a sum and a difference of words.
Where one of them leaves the range of words the collar only becomes narrower:
the bound for buys falls, the bound for sells rises.  An order beyond the exact
bound is therefore always rejected, and what goes wrong is that others are
rejected too.

The answers to the orders of both sides are exact if and only if no operation
leaves the words.  One side by itself may be exact by accident: a wrapped bound can
happen to part the prices of 64 bits as the exact one does.
-/

/-- The deviation from a reference price, in unbounded integers. -/
def exactDeviation (limits : RiskLimits) (referencePrice : Price) : Nat :=
  referencePrice.toNat * limits.maxPriceDeviationPct.toNat / 100

/-- The bound that an order's price must not pass. -/
def exactBound (limits : RiskLimits) (referencePrice : Price) : Side -> Nat
  | .Buy => referencePrice.toNat + limits.exactDeviation referencePrice
  | .Sell => referencePrice.toNat - limits.exactDeviation referencePrice

/-- The price is beyond the bound of its side. -/
def Beyond (side : Side) (price bound : Nat) : Prop :=
  match side with
  | .Buy => price > bound
  | .Sell => price < bound

instance (side : Side) (price bound : Nat) : Decidable (Beyond side price bound) :=
  match side with
  | .Buy => inferInstanceAs (Decidable (price > bound))
  | .Sell => inferInstanceAs (Decidable (price < bound))

/-- The deviation when the product is taken modulo `2 ^ 64`. -/
def wrappedDeviation (limits : RiskLimits) (referencePrice : Price) : Nat :=
  referencePrice.toNat * limits.maxPriceDeviationPct.toNat % 2 ^ 64 / 100

/-- The bound when the sum and the difference are taken modulo `2 ^ 64` as well. -/
def wrappedBound (limits : RiskLimits) (referencePrice : Price) : Side -> Nat
  | .Buy => (referencePrice.toNat + limits.wrappedDeviation referencePrice) % 2 ^ 64
  | .Sell => (2 ^ 64 - limits.wrappedDeviation referencePrice + referencePrice.toNat) % 2 ^ 64

/-- Neither the product nor the sum or difference of the side leaves the words. -/
def CollarInRange (limits : RiskLimits) (referencePrice : Price) (side : Side) : Prop :=
  referencePrice.toNat * limits.maxPriceDeviationPct.toNat < 2 ^ 64 ∧
    match side with
    | .Buy => referencePrice.toNat + limits.exactDeviation referencePrice < 2 ^ 64
    | .Sell => limits.exactDeviation referencePrice ≤ referencePrice.toNat

section Collar

variable (limits : RiskLimits) (price referencePrice : Price) (side : Side)

theorem wrappedDeviation_le :
    limits.wrappedDeviation referencePrice ≤ limits.exactDeviation referencePrice :=
  Nat.div_le_div_right (Nat.mod_le _ _)

theorem wrappedDeviation_lt : limits.wrappedDeviation referencePrice < 2 ^ 64 :=
  Nat.lt_of_le_of_lt (Nat.div_le_self _ _) (Nat.mod_lt _ (by decide))

/-- The deviation as the source computes it. -/
theorem maxDeviation_toNat :
    ((referencePrice * limits.maxPriceDeviationPct.toUInt64) / 100).toNat =
      limits.wrappedDeviation referencePrice := by
  rw [UInt64.toNat_div, UInt64.toNat_mul, UInt8.toNat_toUInt64]
  rfl

/-- The check rejects the prices beyond the bound modulo `2 ^ 64`. -/
theorem violatesCollar_iff : limits.violatesCollar price side referencePrice = true <->
    Beyond side price.toNat (limits.wrappedBound referencePrice side) := by
  cases side with
  | Buy =>
      have bound : (referencePrice +
          (referencePrice * limits.maxPriceDeviationPct.toUInt64) / 100).toNat =
            limits.wrappedBound referencePrice .Buy := by
        rw [UInt64.toNat_add, maxDeviation_toNat, wrappedBound]
      rw [violatesCollar, decide_eq_true_iff, Beyond, ← bound]
      exact UInt64.lt_iff_toNat_lt
  | Sell =>
      have bound : (referencePrice -
          (referencePrice * limits.maxPriceDeviationPct.toUInt64) / 100).toNat =
            limits.wrappedBound referencePrice .Sell := by
        rw [UInt64.toNat_sub, maxDeviation_toNat, wrappedBound]
      rw [violatesCollar, decide_eq_true_iff, Beyond, ← bound]
      exact UInt64.lt_iff_toNat_lt

/-- Leaving the range of words only narrows the collar. -/
theorem beyond_wrapped_of_exact {price : Nat}
    (beyond : Beyond side price (limits.exactBound referencePrice side)) :
    Beyond side price (limits.wrappedBound referencePrice side) := by
  have narrower := limits.wrappedDeviation_le referencePrice
  have small := limits.wrappedDeviation_lt referencePrice
  have reference := referencePrice.toNat_lt
  cases side with
  | Buy =>
      refine Nat.lt_of_le_of_lt ((Nat.mod_le _ _).trans ?_) beyond
      exact Nat.add_le_add_left narrower _
  | Sell =>
      refine Nat.lt_of_lt_of_le beyond ?_
      simp only [exactBound, wrappedBound]
      omega

theorem wrappedBound_of_inRange (inRange : limits.CollarInRange referencePrice side) :
    limits.wrappedBound referencePrice side = limits.exactBound referencePrice side := by
  have same : limits.wrappedDeviation referencePrice = limits.exactDeviation referencePrice := by
    rw [wrappedDeviation, Nat.mod_eq_of_lt inRange.1, exactDeviation]
  have reference := referencePrice.toNat_lt
  cases side with
  | Buy =>
      have sum : referencePrice.toNat + limits.exactDeviation referencePrice < 2 ^ 64 := inRange.2
      rw [wrappedBound, same, Nat.mod_eq_of_lt sum, exactBound]
  | Sell =>
      have difference : limits.exactDeviation referencePrice ≤ referencePrice.toNat := inRange.2
      simp only [exactBound, wrappedBound, same]
      omega

/-- Within the range of words the check is the exact one. -/
theorem violatesCollar_of_inRange (inRange : limits.CollarInRange referencePrice side) :
    limits.violatesCollar price side referencePrice = true <->
      Beyond side price.toNat (limits.exactBound referencePrice side) := by
  rw [violatesCollar_iff, wrappedBound_of_inRange limits referencePrice side inRange]

end Collar

/-! ## Both sides together -/

section BothSides

variable {limits : RiskLimits} {referencePrice : Price}

/-- Two bounds for sells that are words and part the prices alike are the same. -/
theorem bound_eq_of_sells {bound bound' : Nat} (small : bound < 2 ^ 64) (small' : bound' < 2 ^ 64)
    (agree : forall price : Price, price.toNat < bound <-> price.toNat < bound') :
    bound = bound' := by
  apply Nat.le_antisymm
  · apply Nat.le_of_not_lt
    intro less
    have cheap := (agree (UInt64.ofNat bound')).mp
    rw [UInt64.toNat_ofNat_of_lt' small'] at cheap
    exact absurd (cheap less) (lt_irrefl bound')
  · apply Nat.le_of_not_lt
    intro less
    have cheap := (agree (UInt64.ofNat bound)).mpr
    rw [UInt64.toNat_ofNat_of_lt' small] at cheap
    exact absurd (cheap less) (lt_irrefl bound)

/-- A bound for buys that is a word and parts the prices as another one does is this
other one, or the largest word when the other is none. -/
theorem bound_eq_of_buys {bound bound' : Nat} (small : bound < 2 ^ 64)
    (agree : forall price : Price, price.toNat > bound <-> price.toNat > bound') :
    bound = min bound' (2 ^ 64 - 1) := by
  have capped : min bound' (2 ^ 64 - 1) < 2 ^ 64 :=
    Nat.lt_of_le_of_lt (Nat.min_le_right _ _) (by decide)
  have first := agree (UInt64.ofNat bound)
  have second := agree (UInt64.ofNat (min bound' (2 ^ 64 - 1)))
  rw [UInt64.toNat_ofNat_of_lt' small] at first
  rw [UInt64.toNat_ofNat_of_lt' capped] at second
  omega

/-- A product that is no word leaves a smaller deviation. -/
theorem wrappedDeviation_lt_exact
    (wraps : 2 ^ 64 ≤ referencePrice.toNat * limits.maxPriceDeviationPct.toNat) :
    limits.wrappedDeviation referencePrice < limits.exactDeviation referencePrice := by
  unfold wrappedDeviation exactDeviation
  omega

/-- Bounds that part the prices of both sides exactly have been computed without
leaving the words.  A wrapped product makes both bounds wrong at once, and cannot
be right for both. -/
theorem inRange_of_bounds (positive : referencePrice > 0)
    (agree : forall side (price : Price),
      Beyond side price.toNat (limits.wrappedBound referencePrice side) <->
        Beyond side price.toNat (limits.exactBound referencePrice side)) :
    forall side, limits.CollarInRange referencePrice side := by
  have reference := referencePrice.toNat_lt
  have above : 0 < referencePrice.toNat := UInt64.lt_iff_toNat_lt.mp positive
  have sells : limits.wrappedBound referencePrice .Sell = limits.exactBound referencePrice .Sell :=
    bound_eq_of_sells (Nat.mod_lt _ (by decide))
      (Nat.lt_of_le_of_lt (Nat.sub_le _ _) reference) (agree .Sell)
  have buys : limits.wrappedBound referencePrice .Buy =
      min (limits.exactBound referencePrice .Buy) (2 ^ 64 - 1) :=
    bound_eq_of_buys (Nat.mod_lt _ (by decide)) (agree .Buy)
  have small := limits.wrappedDeviation_lt referencePrice
  simp only [wrappedBound, exactBound] at sells buys
  have product : referencePrice.toNat * limits.maxPriceDeviationPct.toNat < 2 ^ 64 := by
    apply Nat.lt_of_not_le
    intro wraps
    have smaller := limits.wrappedDeviation_lt_exact wraps
    -- The sells leave only a deviation of the whole reference price, and then the
    -- bound for buys is even, so that it is not the largest word.
    omega
  have same : limits.wrappedDeviation referencePrice = limits.exactDeviation referencePrice := by
    rw [wrappedDeviation, Nat.mod_eq_of_lt product, exactDeviation]
  rw [same] at sells buys small
  intro side
  apply And.intro product
  cases side with
  | Buy =>
      dsimp only
      omega
  | Sell =>
      dsimp only
      omega

/-- The accident of one side: around this price the default collar wraps twice, and no
buy is beyond its bound, as none is beyond the exact one. -/
example : ({} : RiskLimits).wrappedBound 18271060796817079695 .Buy = 2 ^ 64 - 1 ∧
    2 ^ 64 ≤ ({} : RiskLimits).exactBound 18271060796817079695 .Buy := by decide

end BothSides

/-! ## The collar of a checked order -/

/-- The limits with another percentage. -/
def withDeviation (limits : RiskLimits) (pct : UInt8) : RiskLimits :=
  { limits with maxPriceDeviationPct := pct }

/-- A larger percentage moves the bound away from the reference price. -/
theorem beyond_of_loosened {limits : RiskLimits} {looser : UInt8}
    (le : limits.maxPriceDeviationPct ≤ looser) {price : Nat} {referencePrice : Price}
    {side : Side}
    (beyond : Beyond side price ((limits.withDeviation looser).exactBound referencePrice side)) :
    Beyond side price (limits.exactBound referencePrice side) := by
  have wider : limits.exactDeviation referencePrice ≤
      (limits.withDeviation looser).exactDeviation referencePrice :=
    Nat.div_le_div_right (Nat.mul_le_mul_left _ (UInt8.le_iff_toNat_le.mp le))
  cases side with
  | Buy => exact Nat.lt_of_le_of_lt (Nat.add_le_add_left wider _) beyond
  | Sell => exact Nat.lt_of_lt_of_le beyond (Nat.sub_le_sub_left wider _)

section Checked

variable {limits : RiskLimits} {price : Price} {qty : Quantity} {side : Side}
variable {referencePrice : Price}

/-- The collar check alone decides when the checks before it pass. -/
theorem checkOrder_of_passed (size : qty ≤ limits.maxOrderQty)
    (notional : price * qty ≤ limits.maxNotional) (reference : referencePrice > 0) :
    limits.checkOrder false price qty side referencePrice =
      if limits.violatesCollar price side referencePrice then .PriceCollarExceeded else .None := by
  rw [checkOrder, if_neg Bool.false_ne_true, if_neg (UInt64.not_lt.mpr size),
    if_neg (UInt64.not_lt.mpr notional)]
  simp only [reference, true_and]

theorem checkOrder_collar_iff (size : qty ≤ limits.maxOrderQty)
    (notional : price * qty ≤ limits.maxNotional) (reference : referencePrice > 0) :
    (limits.checkOrder false price qty side referencePrice = .PriceCollarExceeded <->
      limits.violatesCollar price side referencePrice = true) ∧
    (limits.checkOrder false price qty side referencePrice = .None <->
      limits.violatesCollar price side referencePrice = false) := by
  rw [checkOrder_of_passed size notional reference]
  cases limits.violatesCollar price side referencePrice <;> decide

/-- The checks before the collar let the order pass. -/
def PassesSize (limits : RiskLimits) (price : Price) (qty : Quantity) : Prop :=
  qty ≤ limits.maxOrderQty ∧ price * qty ≤ limits.maxNotional

/-- The answer to an order is the one of the exact collar. -/
def CollarExact (limits : RiskLimits) (price : Price) (qty : Quantity) (side : Side)
    (referencePrice : Price) : Prop :=
  limits.checkOrder false price qty side referencePrice = .PriceCollarExceeded <->
    Beyond side price.toNat (limits.exactBound referencePrice side)

/-- An accepted order stays accepted when the percentage becomes the looser one. -/
def LooseningAccepts (limits : RiskLimits) (looser : UInt8) (price : Price) (qty : Quantity)
    (side : Side) (referencePrice : Price) : Prop :=
  limits.checkOrder false price qty side referencePrice = .None ->
    (limits.withDeviation looser).checkOrder false price qty side referencePrice = .None

theorem collarExact_of_inRange (passes : PassesSize limits price qty)
    (reference : referencePrice > 0) (inRange : limits.CollarInRange referencePrice side) :
    CollarExact limits price qty side referencePrice := by
  rw [CollarExact, (checkOrder_collar_iff passes.1 passes.2 reference).1]
  exact violatesCollar_of_inRange limits price referencePrice side inRange

/-- Whatever wraps at the old percentage, it only rejects more. -/
theorem looseningAccepts_of_inRange {looser : UInt8} (passes : PassesSize limits price qty)
    (reference : referencePrice > 0) (le : limits.maxPriceDeviationPct ≤ looser)
    (inRange : (limits.withDeviation looser).CollarInRange referencePrice side) :
    LooseningAccepts limits looser price qty side referencePrice := by
  have looserPasses : PassesSize (limits.withDeviation looser) price qty := passes
  intro accepted
  rw [(checkOrder_collar_iff looserPasses.1 looserPasses.2 reference).2, ← Bool.not_eq_true,
    violatesCollar_of_inRange _ _ _ _ inRange]
  intro beyond
  have rejects := (violatesCollar_iff limits price referencePrice side).mpr
    (limits.beyond_wrapped_of_exact referencePrice side (beyond_of_loosened le beyond))
  rw [(checkOrder_collar_iff passes.1 passes.2 reference).2, rejects] at accepted
  cases accepted

/-- An order of no quantity passes the size checks at any price, so the answers show
both bounds. -/
theorem inRange_of_collarExact (reference : referencePrice > 0)
    (exact : forall side price qty, PassesSize limits price qty ->
      CollarExact limits price qty side referencePrice) :
    forall side, limits.CollarInRange referencePrice side := by
  apply inRange_of_bounds reference
  intro side price
  have passes : PassesSize limits price 0 := by
    unfold PassesSize
    rw [UInt64.mul_zero]
    exact ⟨UInt64.zero_le, UInt64.zero_le⟩
  rw [← violatesCollar_iff, ← (checkOrder_collar_iff passes.1 passes.2 reference).1]
  exact exact side price 0 passes

/-- The answers to all orders that reach the collar are exact if and only if none of its
operations leaves the words.  For the orders of one side its own operations are enough,
and an accepted order stays accepted under every looser percentage at which
they stay within the words. -/
theorem collar_exact_iff (limits : RiskLimits) {referencePrice : Price}
    (reference : referencePrice > 0) :
    ((forall side price qty, PassesSize limits price qty ->
        CollarExact limits price qty side referencePrice) <->
      forall side, limits.CollarInRange referencePrice side) ∧
    forall side price qty, PassesSize limits price qty ->
      (limits.CollarInRange referencePrice side ->
        CollarExact limits price qty side referencePrice) ∧
      forall looser, limits.maxPriceDeviationPct ≤ looser ->
        (limits.withDeviation looser).CollarInRange referencePrice side ->
          LooseningAccepts limits looser price qty side referencePrice := by
  refine ⟨⟨inRange_of_collarExact reference, ?_⟩, ?_⟩
  · intro inRange side price qty passes
    exact collarExact_of_inRange passes reference (inRange side)
  · intro side price qty passes
    exact ⟨collarExact_of_inRange passes reference,
      fun looser => looseningAccepts_of_inRange passes reference⟩

/-- The default limits around a reference price of 100, and the sell at 94 that five
percent reject. -/
theorem collar_exact_iff_default :
    (forall side price qty, PassesSize {} price qty -> CollarExact {} price qty side 100) ∧
      ({} : RiskLimits).checkOrder false 94 10 .Sell 100 = .PriceCollarExceeded ∧
      LooseningAccepts {} 6 95 10 .Sell 100 := by
  have default := collar_exact_iff {} (by decide : (100 : Price) > 0)
  refine ⟨default.1.mpr ?_, by decide, ?_⟩
  · intro side
    cases side <;> exact ⟨by decide, by decide⟩
  · exact (default.2 .Sell 95 10 ⟨by decide, by decide⟩).2 6 (by decide) ⟨by decide, by decide⟩

/-- A collar of 101 percent rejects a sell at half of the reference price. -/
theorem wide_collar_rejects : ¬ forall limits price qty side referencePrice,
    PassesSize limits price qty -> referencePrice > 0 ->
      CollarExact limits price qty side referencePrice ∧
        forall looser, limits.maxPriceDeviationPct ≤ looser ->
          LooseningAccepts limits looser price qty side referencePrice := by
  intro exact
  have claimed := (exact (({} : RiskLimits).withDeviation 101) 50 10 .Sell 100
    ⟨by decide, by decide⟩ (by decide)).1
  exact absurd (claimed.mp (by decide)) (by decide)

/-- A product that wraps may still leave a wider collar than before: around 2 ^ 60 the
bound for sells falls from 5 to 30 percent. -/
example : ¬ (({} : RiskLimits).withDeviation 30).CollarInRange 1152921504606846976 .Sell ∧
    (({} : RiskLimits).withDeviation 30).wrappedBound 1152921504606846976 .Sell <
      ({} : RiskLimits).wrappedBound 1152921504606846976 .Sell := by
  refine ⟨fun inRange => ?_, by decide⟩
  exact absurd inRange.1 (by decide)

end Checked
end RiskLimits
end NexusHft
