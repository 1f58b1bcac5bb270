import Mathlib.Algebra.BigOperators.Group.List.Basic
import Mathlib.Tactic.Ring
import NexusHft.Core.PriceMirror

namespace NexusHft

/-!
# Order-flow imbalance

`SignalEngine`, with integers in place of the doubles that hold volumes.  Each
tick is compared with the one before it, once for the bids and once for the
asks; a better price counts the whole new volume, a worse one the whole old
volume, and an unchanged price the difference.

The ask side is the bid side of the mirrored ticks with its sign changed, so one
case analysis serves both sides.
-/

/-- The best price and its volume on each side, as a signal sees the book. -/
structure BookState where
  bestBid : Price := 0
  bidVolume : Quantity := 0
  bestAsk : Price := 0
  askVolume : Quantity := 0
  deriving DecidableEq, Repr

/-- The last state of the book that was seen, if there was one.  A first tick has
nothing to be compared with. -/
structure SignalEngine where
  prevState : BookState := {}
  hasPrev : Bool := false
  deriving DecidableEq, Repr

/-- `static_cast<double>` of a volume. -/
def exactVolume (volume : Quantity) : Int := volume.toNat

namespace SignalEngine

/-- What the bid side adds to the imbalance. -/
def bidFlow (previous current : BookState) : Int :=
  if current.bestBid > previous.bestBid then
    exactVolume current.bidVolume
  else if current.bestBid = previous.bestBid then
    exactVolume current.bidVolume - exactVolume previous.bidVolume
  else
    - exactVolume previous.bidVolume

/-- What the ask side adds to the imbalance. -/
def askFlow (previous current : BookState) : Int :=
  if current.bestAsk < previous.bestAsk then
    - exactVolume current.askVolume
  else if current.bestAsk = previous.bestAsk then
    - (exactVolume current.askVolume - exactVolume previous.askVolume)
  else
    exactVolume previous.askVolume

def updateAndGetOfi (engine : SignalEngine) (current : BookState) : Int × SignalEngine :=
  if !engine.hasPrev then
    (0, { engine with prevState := current, hasPrev := true })
  else
    (bidFlow engine.prevState current + askFlow engine.prevState current,
      { engine with prevState := current })

/-- The imbalances of a sequence of ticks. -/
def imbalances : SignalEngine -> List BookState -> List Int
  | _, [] => []
  | engine, tick :: ticks =>
      (engine.updateAndGetOfi tick).1 :: imbalances (engine.updateAndGetOfi tick).2 ticks

/-- The engine after a sequence of ticks. -/
def after (engine : SignalEngine) (ticks : List BookState) : SignalEngine :=
  ticks.foldl (fun engine tick => (engine.updateAndGetOfi tick).2) engine

/-- Whichever way a tick is compared, it is the one remembered. -/
theorem updateAndGetOfi_remembers (engine : SignalEngine) (tick : BookState) :
    (engine.updateAndGetOfi tick).2 = ⟨tick, true⟩ := by
  unfold updateAndGetOfi
  cases remembered : engine.hasPrev with
  | false => rfl
  | true =>
      cases engine
      cases remembered
      rfl

theorem updateAndGetOfi_ofi (previous tick : BookState) :
    ((SignalEngine.mk previous true).updateAndGetOfi tick).1 =
      bidFlow previous tick + askFlow previous tick := rfl

theorem length_imbalances (engine : SignalEngine) (ticks : List BookState) :
    (imbalances engine ticks).length = ticks.length := by
  induction ticks generalizing engine with
  | nil => rfl
  | cons tick ticks inductionHypothesis =>
      exact congrArg Nat.succ (inductionHypothesis _)

theorem imbalances_append (engine : SignalEngine) (front back : List BookState) :
    imbalances engine (front ++ back) =
      imbalances engine front ++ imbalances (engine.after front) back := by
  induction front generalizing engine with
  | nil => rfl
  | cons tick front inductionHypothesis =>
      exact congrArg (List.cons _) (inductionHypothesis _)

end SignalEngine

example : SignalEngine.imbalances {}
    [⟨100, 10, 110, 10⟩, ⟨100, 15, 110, 10⟩, ⟨99, 20, 110, 10⟩, ⟨99, 20, 109, 5⟩] =
      [0, 5, -15, -5] := by decide

/-! ## Mirrored ticks -/

namespace PriceMirror

variable (mirror : PriceMirror)

/-- Exchange the two sides of a tick. -/
def bookState (tick : BookState) : BookState where
  bestBid := mirror.price tick.bestAsk
  bidVolume := tick.askVolume
  bestAsk := mirror.price tick.bestBid
  askVolume := tick.bidVolume

/-- The mirror of an engine remembers the mirrored tick. -/
def signalEngine (engine : SignalEngine) : SignalEngine :=
  { engine with prevState := mirror.bookState engine.prevState }

/-- The bids of mirrored ticks are the asks. -/
theorem bidFlow_bookState (previous current : BookState) :
    SignalEngine.bidFlow (mirror.bookState previous) (mirror.bookState current) =
      - SignalEngine.askFlow previous current := by
  have better : mirror.price current.bestAsk > mirror.price previous.bestAsk <->
      current.bestAsk < previous.bestAsk := mirror.reverses _ _
  have unchanged : mirror.price current.bestAsk = mirror.price previous.bestAsk <->
      current.bestAsk = previous.bestAsk := mirror.injective.eq_iff
  unfold SignalEngine.bidFlow SignalEngine.askFlow
  simp only [bookState, better, unchanged]
  split_ifs <;> ring

/-- The asks of mirrored ticks are the bids. -/
theorem askFlow_bookState (previous current : BookState) :
    SignalEngine.askFlow (mirror.bookState previous) (mirror.bookState current) =
      - SignalEngine.bidFlow previous current := by
  have better : mirror.price current.bestBid < mirror.price previous.bestBid <->
      current.bestBid > previous.bestBid := mirror.reverses _ _
  have unchanged : mirror.price current.bestBid = mirror.price previous.bestBid <->
      current.bestBid = previous.bestBid := mirror.injective.eq_iff
  unfold SignalEngine.bidFlow SignalEngine.askFlow
  simp only [bookState, better, unchanged]
  split_ifs <;> ring

theorem updateAndGetOfi_mirror (engine : SignalEngine) (tick : BookState) :
    (mirror.signalEngine engine).updateAndGetOfi (mirror.bookState tick) =
      (- (engine.updateAndGetOfi tick).1, mirror.signalEngine (engine.updateAndGetOfi tick).2) := by
  rcases engine with ⟨previous, remembered⟩
  cases remembered with
  | false => rfl
  | true =>
      apply Prod.ext
      · calc
          SignalEngine.bidFlow (mirror.bookState previous) (mirror.bookState tick) +
              SignalEngine.askFlow (mirror.bookState previous) (mirror.bookState tick) =
              - SignalEngine.askFlow previous tick + - SignalEngine.bidFlow previous tick := by
            rw [bidFlow_bookState, askFlow_bookState]
          _ = - (SignalEngine.bidFlow previous tick + SignalEngine.askFlow previous tick) := by
            ring
      · rfl

/-- From mirrored engines, mirrored ticks have the negated imbalances. -/
theorem imbalances_mirror (engine : SignalEngine) (ticks : List BookState) :
    SignalEngine.imbalances (mirror.signalEngine engine) (ticks.map mirror.bookState) =
      (SignalEngine.imbalances engine ticks).map Neg.neg := by
  induction ticks generalizing engine with
  | nil => rfl
  | cons tick ticks inductionHypothesis =>
      rw [List.map_cons, SignalEngine.imbalances, updateAndGetOfi_mirror, inductionHypothesis]
      rfl

/-- The first tick is compared with nothing, so what an engine without one
remembers does not matter. -/
theorem imbalances_fresh (previous previous' : BookState) (ticks : List BookState) :
    SignalEngine.imbalances ⟨previous, false⟩ ticks =
      SignalEngine.imbalances ⟨previous', false⟩ ticks := by
  cases ticks with
  | nil => rfl
  | cons tick ticks => rfl

end PriceMirror

namespace SignalEngine

/-! ## Stretches of unchanged prices -/

/-- The best prices are the same. -/
def SamePrices (first tick : BookState) : Prop :=
  tick.bestBid = first.bestBid ∧ tick.bestAsk = first.bestAsk

instance (first tick : BookState) : Decidable (SamePrices first tick) :=
  inferInstanceAs (Decidable (_ ∧ _))

/-- At unchanged prices the imbalance is the change of the volumes. -/
theorem flow_of_samePrices {previous tick : BookState} (same : SamePrices previous tick) :
    bidFlow previous tick + askFlow previous tick =
      (exactVolume tick.bidVolume - exactVolume previous.bidVolume) -
        (exactVolume tick.askVolume - exactVolume previous.askVolume) := by
  have notHigher : ¬ tick.bestBid > previous.bestBid := by
    rw [same.1]
    exact UInt64.lt_irrefl _
  have notLower : ¬ tick.bestAsk < previous.bestAsk := by
    rw [same.2]
    exact UInt64.lt_irrefl _
  rw [bidFlow, if_neg notHigher, if_pos same.1, askFlow, if_neg notLower, if_pos same.2]
  ring

/-- The changes of a stretch add up to the change from its first to its last tick. -/
theorem sum_imbalances (first : BookState) (ticks : List BookState)
    (same : forall tick, tick ∈ ticks -> SamePrices first tick) :
    (imbalances ⟨first, true⟩ ticks).sum =
      (exactVolume (ticks.getLastD first).bidVolume - exactVolume first.bidVolume) -
        (exactVolume (ticks.getLastD first).askVolume - exactVolume first.askVolume) := by
  induction ticks generalizing first with
  | nil =>
      rw [imbalances, List.sum_nil, List.getLastD_nil]
      ring
  | cons tick ticks inductionHypothesis =>
      have here := same tick List.mem_cons_self
      have later : forall other, other ∈ ticks -> SamePrices tick other := by
        intro other member
        have there := same other (List.mem_cons_of_mem tick member)
        exact ⟨there.1.trans here.1.symm, there.2.trans here.2.symm⟩
      rw [imbalances, List.sum_cons, updateAndGetOfi_remembers, updateAndGetOfi_ofi,
        flow_of_samePrices here, inductionHypothesis tick later, List.getLastD_cons]
      ring

/-- The imbalances after the first tick of a stretch, out of those of all ticks. -/
theorem stretch_imbalances (engine : SignalEngine) (early : List BookState) (first : BookState)
    (rest late : List BookState) :
    ((imbalances engine (early ++ first :: rest ++ late)).drop (early.length + 1)).take
      rest.length = imbalances ⟨first, true⟩ rest := by
  have cut : imbalances engine (early ++ first :: rest ++ late) =
      (imbalances engine early ++ [((engine.after early).updateAndGetOfi first).1]) ++
        (imbalances ⟨first, true⟩ rest ++ imbalances (after ⟨first, true⟩ rest) late) := by
    rw [List.append_assoc, imbalances_append, List.cons_append, imbalances,
      updateAndGetOfi_remembers, imbalances_append, List.append_assoc, List.singleton_append]
  have front : (imbalances engine early ++
      [((engine.after early).updateAndGetOfi first).1]).length = early.length + 1 := by
    rw [List.length_append, length_imbalances, List.length_singleton]
  rw [cut, ← front, List.drop_left, ← length_imbalances ⟨first, true⟩ rest, List.take_left]

/-- Mirrored ticks give the negated imbalance at every tick, and over any stretch
of unchanged prices the imbalances after its first tick add up to the change of
the bid volume less the change of the ask volume. -/
theorem imbalance_laws (ticks : List BookState) :
    imbalances {} (ticks.map maxPriceMirror.bookState) = (imbalances {} ticks).map Neg.neg ∧
      forall early first rest late, ticks = early ++ first :: rest ++ late ->
        (forall tick, tick ∈ rest -> SamePrices first tick) ->
          (((imbalances {} ticks).drop (early.length + 1)).take rest.length).sum =
            (exactVolume (rest.getLastD first).bidVolume - exactVolume first.bidVolume) -
              (exactVolume (rest.getLastD first).askVolume - exactVolume first.askVolume) := by
  constructor
  · rw [← maxPriceMirror.imbalances_mirror]
    exact PriceMirror.imbalances_fresh _ _ _
  · intro early first rest late cut same
    rw [cut, stretch_imbalances]
    exact sum_imbalances first rest same

/-- Bids rise, then both volumes change at unchanged prices. -/
theorem imbalance_laws_stretch :
    imbalances {} ([⟨100, 10, 110, 10⟩, ⟨101, 15, 110, 8⟩, ⟨101, 12, 110, 20⟩].map
        maxPriceMirror.bookState) = [0, -17, 15] ∧
      (((imbalances {} [⟨100, 10, 110, 10⟩, ⟨101, 15, 110, 8⟩, ⟨101, 12, 110, 20⟩]).drop 2).take
        1).sum = -15 := by
  have laws := imbalance_laws [⟨100, 10, 110, 10⟩, ⟨101, 15, 110, 8⟩, ⟨101, 12, 110, 20⟩]
  refine ⟨laws.1, ?_⟩
  exact laws.2 [⟨100, 10, 110, 10⟩] ⟨101, 15, 110, 8⟩ [⟨101, 12, 110, 20⟩] [] rfl (by decide)

end SignalEngine
end NexusHft
