import Mathlib.Analysis.SpecialFunctions.Log.Basic
import NexusHft.Core.Types
import NexusHft.Foundations.Truncation

namespace NexusHft

open Foundations

/-!
# Market-maker quotes

`AvellanedaStoikov` over any ordered field with a floor, with the logarithm as a
parameter.  A quote is rounded, halves away from zero, and converted to an
unsigned price; outside the range of prices the conversion is undefined, and
`getQuotes` has no result.

The skew is the inventory times the risk of holding one unit, which is never
negative.  So the lower of two inventories has the higher quotes, and whether
two inventories are quoted at all is decided by the bid of the larger one and
the ask of the smaller one.
-/

universe u

/-- The parameters of the model: inventory risk aversion, volatility, order book
density, and the time horizon.  The results hold for all positive ones, so it does
not matter when the volatility is updated. -/
structure AvellanedaStoikovParams (K : Type u) where
  gamma : K
  sigma : K
  k : K
  T : K

/-- The values of a default-constructed parameter set. -/
def AvellanedaStoikovParams.defaults {K : Type u} [Field K] : AvellanedaStoikovParams K where
  gamma := 1 / 10
  sigma := 1
  k := 3 / 2
  T := 1

/-- The two prices that a market maker offers, as words of the engine. -/
structure Quotes where
  bid : Price
  ask : Price
  deriving DecidableEq, Repr

/-- A market maker.  It keeps nothing but its parameters; the inventory is an
argument of each call. -/
structure AvellanedaStoikov (K : Type u) where
  params : AvellanedaStoikovParams K

/-- A number that the unsigned type of prices has. -/
def Representable (value : Int) : Prop := 0 ≤ value ∧ value < 2 ^ 64

instance (value : Int) : Decidable (Representable value) :=
  inferInstanceAs (Decidable (_ ∧ _))

/-- `static_cast<Price>` of an integral double, undefined out of range. -/
def toPrice (value : Int) : Option Price :=
  if Representable value then some (UInt64.ofNat value.toNat) else none

namespace AvellanedaStoikov

variable {K : Type u} [Field K] [LinearOrder K]

section Source

variable (maker : AvellanedaStoikov K) (ln : K -> K)

/-- `T - t`, and zero behind the horizon. -/
def timeLeft (t : K) : K :=
  if maker.params.T - t < 0 then 0 else maker.params.T - t

theorem timeLeft_nonneg (t : K) : 0 ≤ maker.timeLeft t := by
  unfold timeLeft
  split
  · exact le_refl 0
  · exact not_lt.mp ‹_›

def calculateReservationPrice (midPrice : K) (inventory : Int) (t : K) : K :=
  let variance := maker.params.sigma * maker.params.sigma
  let inventoryRiskPenalty := inventory * maker.params.gamma * variance * maker.timeLeft t
  midPrice - inventoryRiskPenalty

def calculateOptimalSpread (t : K) : K :=
  let variance := maker.params.sigma * maker.params.sigma
  let timeComponent := maker.params.gamma * variance * maker.timeLeft t
  let densityComponent := 2 / maker.params.gamma * ln (1 + maker.params.gamma / maker.params.k)
  timeComponent + densityComponent

def rawBid (midPrice : K) (inventory : Int) (t : K) : K :=
  maker.calculateReservationPrice midPrice inventory t - maker.calculateOptimalSpread ln t / 2

def rawAsk (midPrice : K) (inventory : Int) (t : K) : K :=
  maker.calculateReservationPrice midPrice inventory t + maker.calculateOptimalSpread ln t / 2

/-- What one unit of inventory costs until the horizon. -/
def unitRisk (t : K) : K :=
  maker.params.gamma * (maker.params.sigma * maker.params.sigma) * maker.timeLeft t

/-- Half of the spread. -/
def halfSpread (t : K) : K :=
  maker.unitRisk t / 2 + ln (1 + maker.params.gamma / maker.params.k) / maker.params.gamma

/-- The larger inventory does not bid below minus one half, and the smaller one
does not ask within one half of `2 ^ 64`. -/
def QuotesFit (midPrice : K) (smaller larger : Int) (t : K) : Prop :=
  larger * maker.unitRisk t + maker.halfSpread ln t < midPrice + 1 / 2 ∧
    midPrice + maker.halfSpread ln t < smaller * maker.unitRisk t + (2 ^ 64 - 1 / 2)

end Source

section Order

variable [IsStrictOrderedRing K] {maker : AvellanedaStoikov K} {ln : K -> K}

theorem unitRisk_nonneg (risky : 0 < maker.params.gamma) (t : K) : 0 ≤ maker.unitRisk t :=
  mul_nonneg (mul_nonneg (le_of_lt risky) (mul_self_nonneg _)) (maker.timeLeft_nonneg t)

theorem halfSpread_pos (risky : 0 < maker.params.gamma)
    (positive : 0 < ln (1 + maker.params.gamma / maker.params.k)) (t : K) :
    0 < maker.halfSpread ln t := by
  have time := maker.unitRisk_nonneg risky t
  have density := div_pos positive risky
  unfold halfSpread
  linarith

/-- The bid is below the middle by the skew and half of the spread. -/
theorem rawBid_eq (risky : 0 < maker.params.gamma) (midPrice : K) (inventory : Int) (t : K) :
    maker.rawBid ln midPrice inventory t =
      midPrice - inventory * maker.unitRisk t - maker.halfSpread ln t := by
  have nonzero := ne_of_gt risky
  unfold rawBid calculateReservationPrice calculateOptimalSpread halfSpread unitRisk
  field_simp

/-- The ask is above the bid by the spread. -/
theorem rawAsk_eq (risky : 0 < maker.params.gamma) (midPrice : K) (inventory : Int) (t : K) :
    maker.rawAsk ln midPrice inventory t =
      midPrice - inventory * maker.unitRisk t + maker.halfSpread ln t := by
  have nonzero := ne_of_gt risky
  unfold rawAsk calculateReservationPrice calculateOptimalSpread halfSpread unitRisk
  field_simp

variable {midPrice t : K} {smaller larger : Int}

/-- A larger inventory is skewed at least as far. -/
theorem skew_mono (risky : 0 < maker.params.gamma) (le : smaller ≤ larger) (t : K) :
    (smaller : K) * maker.unitRisk t ≤ larger * maker.unitRisk t :=
  mul_le_mul_of_nonneg_right (Int.cast_le.mpr le) (maker.unitRisk_nonneg risky t)

end Order

/-! ## Rounded prices -/

theorem toPrice_eq_some {value : Int} (fits : Representable value) :
    Exists fun price : Price => toPrice value = some price ∧ (price.toNat : Int) = value := by
  refine ⟨_, if_pos fits, ?_⟩
  rw [UInt64.toNat_ofNat', Nat.mod_eq_of_lt, Int.toNat_of_nonneg fits.1]
  have below := fits.2
  omega

/-- Conversion keeps the order of the numbers. -/
theorem price_le {value value' : Int} {price price' : Price} (le : value ≤ value')
    (is : (price.toNat : Int) = value) (is' : (price'.toNat : Int) = value') : price ≤ price' := by
  rw [UInt64.le_iff_toNat_le]
  omega

/-- Two numbers in order are both prices if the lower one is not negative and the
higher one not too large. -/
theorem representable_of_le {low value high : Int} (above : low ≤ value) (below : value ≤ high)
    (nonneg : 0 ≤ low) (small : high < 2 ^ 64) : Representable value :=
  ⟨nonneg.trans above, lt_of_le_of_lt below small⟩

section Rounded

variable [FloorRing K]

def getQuotes (maker : AvellanedaStoikov K) (ln : K -> K) (midPrice : K) (inventory : Int) (t : K) :
    Option Quotes := do
  let bid <- toPrice (roundHalfAway (maker.rawBid ln midPrice inventory t))
  let ask <- toPrice (roundHalfAway (maker.rawAsk ln midPrice inventory t))
  return ⟨bid, ask⟩

/-- Two rounded numbers that are prices are the quotes. -/
theorem getQuotes_eq_some {maker : AvellanedaStoikov K} {ln : K -> K} {midPrice t : K}
    {inventory : Int}
    (isBid : Representable (roundHalfAway (maker.rawBid ln midPrice inventory t)))
    (isAsk : Representable (roundHalfAway (maker.rawAsk ln midPrice inventory t))) :
    Exists fun quotes => maker.getQuotes ln midPrice inventory t = some quotes ∧
      (quotes.bid.toNat : Int) = roundHalfAway (maker.rawBid ln midPrice inventory t) ∧
      (quotes.ask.toNat : Int) = roundHalfAway (maker.rawAsk ln midPrice inventory t) := by
  rcases toPrice_eq_some isBid with ⟨bid, toBid, bidValue⟩
  rcases toPrice_eq_some isAsk with ⟨ask, toAsk, askValue⟩
  refine ⟨⟨bid, ask⟩, ?_, bidValue, askValue⟩
  rw [getQuotes, toBid, toAsk]
  rfl

/-- What the quotes of two inventories, the smaller one first, should be: prices
at all, no bid above its ask, and neither quote higher for the larger inventory.
-/
structure QuotesSane (maker : AvellanedaStoikov K) (ln : K -> K) (midPrice : K)
    (smaller larger : Int) (t : K) : Prop where
  inRange : forall inventory, inventory = smaller ∨ inventory = larger ->
    Representable (roundHalfAway (maker.rawBid ln midPrice inventory t)) ∧
      Representable (roundHalfAway (maker.rawAsk ln midPrice inventory t))
  ordered : Exists fun first => Exists fun second =>
    maker.getQuotes ln midPrice smaller t = some first ∧
      maker.getQuotes ln midPrice larger t = some second ∧
      first.bid ≤ first.ask ∧ second.bid ≤ second.ask ∧
      second.bid ≤ first.bid ∧ second.ask ≤ first.ask

variable [IsStrictOrderedRing K] {maker : AvellanedaStoikov K} {ln : K -> K}
  {midPrice t : K} {smaller larger : Int}

/-- The two ends of the four rounded quotes are in range. -/
theorem quotesFit_iff (risky : 0 < maker.params.gamma) :
    maker.QuotesFit ln midPrice smaller larger t <->
      0 ≤ roundHalfAway (maker.rawBid ln midPrice larger t) ∧
        roundHalfAway (maker.rawAsk ln midPrice smaller t) < 2 ^ 64 := by
  rw [roundHalfAway_nonneg_iff, roundHalfAway_lt_iff (by norm_num), rawBid_eq risky,
    rawAsk_eq risky, QuotesFit]
  push_cast
  constructor
  · rintro ⟨bids, asks⟩
    constructor
    · linarith
    · linarith
  · rintro ⟨bids, asks⟩
    constructor
    · linarith
    · linarith

/-- The rounded bid is not above the rounded ask. -/
theorem roundedBid_le_ask (risky : 0 < maker.params.gamma)
    (positive : 0 < ln (1 + maker.params.gamma / maker.params.k)) (inventory : Int) :
    roundHalfAway (maker.rawBid ln midPrice inventory t) ≤
      roundHalfAway (maker.rawAsk ln midPrice inventory t) := by
  have spread := maker.halfSpread_pos risky positive t
  apply roundHalfAway_mono
  rw [rawBid_eq risky, rawAsk_eq risky]
  linarith

theorem roundedBid_antitone (risky : 0 < maker.params.gamma) (le : smaller ≤ larger) :
    roundHalfAway (maker.rawBid ln midPrice larger t) ≤
      roundHalfAway (maker.rawBid ln midPrice smaller t) := by
  have skew := maker.skew_mono risky le t
  apply roundHalfAway_mono
  rw [rawBid_eq risky, rawBid_eq risky]
  linarith

theorem roundedAsk_antitone (risky : 0 < maker.params.gamma) (le : smaller ≤ larger) :
    roundHalfAway (maker.rawAsk ln midPrice larger t) ≤
      roundHalfAway (maker.rawAsk ln midPrice smaller t) := by
  have skew := maker.skew_mono risky le t
  apply roundHalfAway_mono
  rw [rawAsk_eq risky, rawAsk_eq risky]
  linarith

/-- Quotes are sane for two inventories exactly when the lowest bid and the
highest ask round to prices.  The order of the quotes then follows from the
formulas alone. -/
theorem quotesSane_iff (risky : 0 < maker.params.gamma)
    (positive : 0 < ln (1 + maker.params.gamma / maker.params.k)) (le : smaller ≤ larger) :
    maker.QuotesSane ln midPrice smaller larger t <->
      maker.QuotesFit ln midPrice smaller larger t := by
  rw [quotesFit_iff risky]
  constructor
  · intro sane
    exact ⟨(sane.inRange larger (Or.inr rfl)).1.1, (sane.inRange smaller (Or.inl rfl)).2.2⟩
  · rintro ⟨nonneg, small⟩
    have crossed (inventory : Int) :=
      @roundedBid_le_ask _ _ _ _ _ maker ln midPrice t risky positive inventory
    have bids := @roundedBid_antitone _ _ _ _ _ maker ln midPrice t smaller larger risky le
    have asks := @roundedAsk_antitone _ _ _ _ _ maker ln midPrice t smaller larger risky le
    -- the lowest and the highest of the four numbers bound the other two
    have largerBid := representable_of_le le_rfl ((crossed larger).trans asks) nonneg small
    have largerAsk := representable_of_le (crossed larger) asks nonneg small
    have smallerBid := representable_of_le bids (crossed smaller) nonneg small
    have smallerAsk := representable_of_le (bids.trans (crossed smaller)) le_rfl nonneg small
    rcases getQuotes_eq_some largerBid largerAsk with ⟨second, isSecond, bid, ask⟩
    rcases getQuotes_eq_some smallerBid smallerAsk with ⟨first, isFirst, bid', ask'⟩
    constructor
    · rintro inventory (isSmaller | isLarger)
      · rw [isSmaller]
        exact ⟨smallerBid, smallerAsk⟩
      · rw [isLarger]
        exact ⟨largerBid, largerAsk⟩
    · exact ⟨first, second, isFirst, isSecond, price_le (crossed smaller) bid' ask',
        price_le (crossed larger) bid ask, price_le bids bid bid', price_le asks ask ask'⟩

/-- A flat inventory and one of fifty, half of the horizon left. -/
theorem quotesSane_iff_fifty :
    AvellanedaStoikov.QuotesSane
      { params := { AvellanedaStoikovParams.defaults with sigma := (2 : ℝ) } }
      Real.log 1000 0 50 (1 / 2) := by
  have positive : 0 < Real.log (1 + 1 / 10 / (3 / 2)) := Real.log_pos (by norm_num)
  have small : Real.log (1 + 1 / 10 / (3 / 2)) ≤ 1 + 1 / 10 / (3 / 2) - 1 :=
    Real.log_le_sub_one_of_pos (by norm_num)
  apply (quotesSane_iff (by norm_num [AvellanedaStoikovParams.defaults]) positive
    (by norm_num)).mpr
  norm_num [QuotesFit, halfSpread, unitRisk, timeLeft, AvellanedaStoikovParams.defaults] at small ⊢
  constructor
  · linarith
  · linarith

/-- At a price of a hundred an inventory of ten thousand is quoted below zero. -/
theorem quotes_below_zero :
    ¬ AvellanedaStoikov.QuotesSane { params := AvellanedaStoikovParams.defaults }
      Real.log 100 0 10000 0 := by
  intro sane
  have nonneg := (sane.inRange 10000 (Or.inr rfl)).1.1
  have positive : 0 < Real.log (1 + 1 / 10 / (3 / 2)) := Real.log_pos (by norm_num)
  rw [roundHalfAway_nonneg_iff] at nonneg
  norm_num [rawBid, calculateReservationPrice, calculateOptimalSpread, timeLeft,
    AvellanedaStoikovParams.defaults] at nonneg positive
  linarith

end Rounded
end AvellanedaStoikov
end NexusHft
