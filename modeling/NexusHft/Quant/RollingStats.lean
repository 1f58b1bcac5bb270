import NexusHft.Foundations.Moments
import NexusHft.Foundations.RingIndex
import Mathlib.Algebra.Order.Ring.Rat
import Mathlib.Data.List.Induction
import Mathlib.Logic.Function.Basic

namespace NexusHft

open Foundations

/-!
# Rolling statistics

`RollingStats`, with fractions in place of doubles.  A circular buffer holds the
last values; until it is full each value extends the window, and from then on
each value also displaces the oldest one.

`Rolls` relates the statistics to the values added so far: the buffer holds
their window, every value in the slot of its position, and the two running
numbers are those of the window.
-/

/-- The ring of the last values and what is kept up to date with them: the mean
and the sum of squared deviations, which the source corrects by each value that
comes and goes. -/
structure RollingStats where
  windowSize : Nat
  values : Nat -> Rat := fun _ => 0
  index : Nat := 0
  count : Nat := 0
  meanValue : Rat := 0
  m2 : Rat := 0

namespace RollingStats

/-- The mean after the next value. -/
def nextMean (stats : RollingStats) (value : Rat) : Rat :=
  if stats.count < stats.windowSize then
    let delta := value - stats.meanValue
    stats.meanValue + delta / (stats.count + 1 : Nat)
  else
    let oldVal := stats.values stats.index
    stats.meanValue + (value - oldVal) / stats.windowSize

/-- The sum of squares after the next value, before it is clamped. -/
def nextM2 (stats : RollingStats) (value : Rat) : Rat :=
  let mean := stats.nextMean value
  if stats.count < stats.windowSize then
    let delta := value - stats.meanValue
    stats.m2 + delta * (value - mean)
  else
    let oldVal := stats.values stats.index
    let meanOld := stats.meanValue
    stats.m2 + ((value - meanOld) * (value - mean) - (oldVal - meanOld) * (oldVal - mean))

def add (stats : RollingStats) (value : Rat) : RollingStats :=
  let stored := { stats with
    values := Function.update stats.values stats.index value
    index := (stats.index + 1) % stats.windowSize
    meanValue := stats.nextMean value }
  let m2 := stats.nextM2 value
  if stats.count < stats.windowSize then { stored with count := stats.count + 1, m2 := m2 }
  else { stored with m2 := if m2 < 0 then 0 else m2 }

def mean (stats : RollingStats) : Rat := stats.meanValue

def variance (stats : RollingStats) : Rat :=
  if stats.count < 2 then 0 else stats.m2 / (stats.count - 1 : Nat)

def isReady (stats : RollingStats) : Bool := stats.count == stats.windowSize

/-- The statistics after a sequence of values. -/
def after (windowSize : Nat) (values : List Rat) : RollingStats :=
  values.foldl add { windowSize := windowSize }

theorem after_concat (windowSize : Nat) (values : List Rat) (value : Rat) :
    after windowSize (values ++ [value]) = (after windowSize values).add value := by
  rw [after, List.foldl_append]
  rfl

end RollingStats

/-! ## The window -/

/-- The last values of a list, as many as the window has room for. -/
def lastValues (windowSize : Nat) (values : List Rat) : List Rat :=
  values.drop (values.length - windowSize)

section Window

variable {windowSize : Nat} {values : List Rat}

theorem length_lastValues : (lastValues windowSize values).length = min values.length windowSize := by
  rw [lastValues, List.length_drop]
  omega

/-- While there is room, the window is the whole list. -/
theorem lastValues_growing (room : values.length ≤ windowSize) :
    lastValues windowSize values = values := by
  rw [lastValues, Nat.sub_eq_zero_of_le room, List.drop_zero]

/-- Once the window is full, the next value takes the place of the oldest one. -/
theorem lastValues_sliding (positive : 0 < windowSize) (full : windowSize ≤ values.length)
    (value : Rat) : Exists fun oldest => Exists fun rest =>
      values[values.length - windowSize]? = some oldest ∧
      lastValues windowSize values = oldest :: rest ∧
      lastValues windowSize (values ++ [value]) = rest ++ [value] := by
  have within : values.length - windowSize < values.length := by omega
  refine ⟨values[values.length - windowSize], values.drop (values.length - windowSize + 1),
    List.getElem?_eq_getElem within, List.drop_eq_getElem_cons within, ?_⟩
  rw [lastValues, List.length_append, List.length_singleton, Nat.sub_add_comm full,
    List.drop_append_of_le_length (by omega)]

end Window

namespace RollingStats

/-- The statistics are those of the window of the values added so far.  This is
the invariant of `add`, before and after the window is full. -/
structure Rolls (windowSize : Nat) (values : List Rat) (stats : RollingStats) : Prop where
  sameSize : stats.windowSize = windowSize
  index : stats.index = values.length % windowSize
  count : stats.count = min values.length windowSize
  held : forall position value, values.length - windowSize ≤ position ->
    values[position]? = some value -> stats.values (position % windowSize) = value
  mean : stats.meanValue = average (lastValues windowSize values)
  m2 : stats.m2 = squaredDeviations (lastValues windowSize values)

section Steps

variable {windowSize : Nat} {values : List Rat} {stats : RollingStats}

theorem rolls_nil (windowSize : Nat) : Rolls windowSize [] { windowSize := windowSize } where
  sameSize := rfl
  index := (Nat.zero_mod windowSize).symm
  count := (Nat.zero_min windowSize).symm
  held := by
    intro position value _ listed
    cases listed
  mean := by simp [lastValues, average]
  m2 := by simp [lastValues, squaredDeviations]

/-- The next mean and sum of squares are those of the next window, whether it
still grows or one value leaves it for another. -/
theorem Rolls.next (rolls : Rolls windowSize values stats) (positive : 0 < windowSize)
    (value : Rat) :
    stats.nextMean value = average (lastValues windowSize (values ++ [value])) ∧
      stats.nextM2 value = squaredDeviations (lastValues windowSize (values ++ [value])) := by
  unfold nextM2 nextMean
  rw [rolls.count, rolls.sameSize, rolls.mean, rolls.m2]
  by_cases room : values.length < windowSize
  · have growing : min values.length windowSize < windowSize := by omega
    rw [if_pos growing, if_pos growing, lastValues_growing (Nat.le_of_lt room),
      lastValues_growing (by simpa [Nat.succ_le_iff] using room), Nat.min_eq_left (Nat.le_of_lt room),
      squaredDeviations_concat, average_concat]
    exact ⟨rfl, rfl⟩
  · have full : windowSize ≤ values.length := Nat.not_lt.mp room
    have sliding : ¬ min values.length windowSize < windowSize := by omega
    rcases lastValues_sliding positive full value with ⟨oldest, rest, listed, before, behind⟩
    have slot : (values.length - windowSize) % windowSize = values.length % windowSize :=
      (Nat.mod_eq_sub_mod full).symm
    have atIndex : stats.values stats.index = oldest := by
      rw [rolls.index, ← slot]
      exact rolls.held _ oldest (Nat.le_refl _) listed
    have size : rest.length + 1 = windowSize := by
      have length := @length_lastValues windowSize values
      rw [before, List.length_cons] at length
      omega
    rw [if_neg sliding, if_neg sliding, atIndex, before, behind, squaredDeviations_slide oldest,
      average_slide oldest, size]
    exact ⟨rfl, rfl⟩

/-- The clamp meets no sum below zero. -/
theorem Rolls.unclamped (rolls : Rolls windowSize values stats) (positive : 0 < windowSize)
    (value : Rat) : (stats.add value).m2 = stats.nextM2 value := by
  have nonnegative : ¬ stats.nextM2 value < 0 := by
    rw [(rolls.next positive value).2]
    exact not_lt.mpr (squaredDeviations_nonneg _)
  by_cases growing : stats.count < stats.windowSize
  · simp only [add, if_pos growing]
  · simp only [add, if_neg growing, if_neg nonnegative]

/-- The new value is in the slot of the newest position, and the others are where
they were. -/
theorem Rolls.stored (rolls : Rolls windowSize values stats) {value found : Rat} {position : Nat}
    (recent : (values ++ [value]).length - windowSize ≤ position)
    (listed : (values ++ [value])[position]? = some found) :
    Function.update stats.values stats.index value (position % windowSize) = found := by
  rw [List.length_append, List.length_singleton] at recent
  rw [rolls.index]
  rcases Nat.lt_or_ge position values.length with old | new
  · rw [List.getElem?_append_left old] at listed
    have apart : position % windowSize ≠ values.length % windowSize := by
      intro same
      have equal := same_position recent (by omega) (by omega) (by omega) same
      exact absurd equal (Nat.ne_of_lt old)
    rw [Function.update_of_ne apart]
    exact rolls.held position found (by omega) listed
  · have last := (List.getElem?_eq_some_iff.mp listed).1
    rw [List.length_append, List.length_singleton] at last
    have same : position = values.length := Nat.le_antisymm (Nat.le_of_lt_succ last) new
    rw [same, List.getElem?_concat_length] at listed
    rw [same, Function.update_self]
    exact Option.some.inj listed

/-- What one value does. -/
theorem Rolls.add (rolls : Rolls windowSize values stats) (positive : 0 < windowSize)
    (value : Rat) : Rolls windowSize (values ++ [value]) (stats.add value) := by
  have next := rolls.next positive value
  have unclamped := rolls.unclamped positive value
  have fields : (stats.add value).windowSize = stats.windowSize ∧
      (stats.add value).index = (stats.index + 1) % stats.windowSize ∧
      (stats.add value).values = Function.update stats.values stats.index value ∧
      (stats.add value).meanValue = stats.nextMean value ∧
      (stats.add value).count =
        if stats.count < stats.windowSize then stats.count + 1 else stats.count := by
    unfold RollingStats.add
    dsimp only
    split <;> exact ⟨rfl, rfl, rfl, rfl, rfl⟩
  rcases fields with ⟨sameSize, index, held, mean, count⟩
  refine ⟨sameSize.trans rolls.sameSize, ?_, ?_, ?_, mean.trans next.1, unclamped.trans next.2⟩
  · rw [index, rolls.index, rolls.sameSize, Nat.mod_add_mod, List.length_append,
      List.length_singleton]
  · rw [count, rolls.count, rolls.sameSize, List.length_append, List.length_singleton]
    split <;> omega
  · intro position found recent listed
    rw [held]
    exact rolls.stored recent listed

/-- The statistics follow the window through every sequence of values. -/
theorem after_rolls (positive : 0 < windowSize) (values : List Rat) :
    Rolls windowSize values (after windowSize values) := by
  induction values using List.reverseRecOn with
  | nil => exact rolls_nil windowSize
  | append_singleton values value inductionHypothesis =>
      rw [after_concat]
      exact inductionHypothesis.add positive value

/-- The window is full after as many values as it has room for. -/
theorem isReady_iff (positive : 0 < windowSize) (values : List Rat) :
    (after windowSize values).isReady = true <-> windowSize ≤ values.length := by
  have rolls := after_rolls positive values
  rw [isReady, beq_iff_eq, rolls.count, rolls.sameSize]
  omega

theorem Rolls.variance (rolls : Rolls windowSize values stats) :
    stats.variance = sampleVariance (lastValues windowSize values) := by
  unfold RollingStats.variance sampleVariance
  rw [rolls.count, rolls.m2, length_lastValues]
  by_cases few : min values.length windowSize < 2
  · rw [if_pos few, if_pos few]
  · rw [if_neg few, if_neg few, Nat.cast_sub (by omega)]
    norm_num

/-- After every value, the statistics are those of the last values: the mean, the
variance, and the sum of squares before the clamp, which leaves it as it is. -/
theorem rolling_eq_batch (positive : 1 ≤ windowSize) (values : List Rat) (value : Rat) :
    let stats := after windowSize values
    let window := lastValues windowSize (values ++ [value])
    (stats.add value).mean = average window ∧
      (stats.add value).variance = sampleVariance window ∧
      stats.nextM2 value = squaredDeviations window ∧
      (stats.add value).m2 = stats.nextM2 value := by
  have rolls := after_rolls positive values
  have next := rolls.add positive value
  exact ⟨next.mean, next.variance, (rolls.next positive value).2, rolls.unclamped positive value⟩

theorem rolling_eq_batch_slid :
    let stats := after 3 [10, 20, 30]
    let window := lastValues 3 ([10, 20, 30] ++ [40])
    (stats.add 40).mean = average window ∧
      (stats.add 40).variance = sampleVariance window ∧
      stats.nextM2 40 = squaredDeviations window ∧
      (stats.add 40).m2 = stats.nextM2 40 :=
  rolling_eq_batch (by decide) [10, 20, 30] 40

end Steps
end RollingStats
end NexusHft
