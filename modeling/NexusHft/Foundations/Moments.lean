import Mathlib.Algebra.BigOperators.Group.List.Basic
import Mathlib.Algebra.Order.BigOperators.Group.List
import Mathlib.Algebra.Order.Ring.Basic
import Mathlib.Data.Nat.Cast.Order.Ring
import Mathlib.Tactic.FieldSimp
import Mathlib.Tactic.LinearCombination
import Mathlib.Tactic.Ring

namespace NexusHft
namespace Foundations

/-!
# Mean and squared deviations of a list

The arithmetic mean of a list of numbers, the sum of its squared deviations from
that mean, and the sample variance.  The sum of squared deviations is a sum of
squares less a multiple of the squared mean; the two update rules follow from
that by algebra.  One extends the list by a value, the other also drops its
first value.
-/

universe u

section Moments

variable {Number : Type u} [Field Number]

/-- The arithmetic mean. -/
def average (values : List Number) : Number := values.sum / values.length

/-- The sum of the squared deviations from the mean. -/
def squaredDeviations (values : List Number) : Number :=
  (values.map fun value => (value - average values) ^ 2).sum

/-- The sample variance, which is zero when there are fewer than two values. -/
def sampleVariance (values : List Number) : Number :=
  if values.length < 2 then 0 else squaredDeviations values / (values.length - 1)

/-- The sum of the squares. -/
def sumSquares (values : List Number) : Number := (values.map fun value => value ^ 2).sum

@[simp] theorem sumSquares_nil : sumSquares ([] : List Number) = 0 := rfl

@[simp] theorem sumSquares_cons (value : Number) (values : List Number) :
    sumSquares (value :: values) = value ^ 2 + sumSquares values := by
  simp [sumSquares]

@[simp] theorem sumSquares_append (front back : List Number) :
    sumSquares (front ++ back) = sumSquares front + sumSquares back := by
  simp [sumSquares]

/-- The squared deviations from any center. -/
theorem sum_deviations (values : List Number) (center : Number) :
    (values.map fun value => (value - center) ^ 2).sum =
      sumSquares values - 2 * center * values.sum + values.length * center ^ 2 := by
  induction values with
  | nil => simp
  | cons value values inductionHypothesis =>
      simp only [List.map_cons, List.sum_cons, List.length_cons, sumSquares_cons,
        inductionHypothesis]
      push_cast
      ring

section CharZero

variable [CharZero Number]

theorem length_mul_average {values : List Number} (some : values ≠ []) :
    values.length * average values = values.sum := by
  have length : (values.length : Number) ≠ 0 :=
    Nat.cast_ne_zero.mpr (fun zero => some (List.length_eq_zero_iff.mp zero))
  exact mul_div_cancel₀ _ length

theorem squaredDeviations_eq {values : List Number} (some : values ≠ []) :
    squaredDeviations values = sumSquares values - values.length * average values ^ 2 := by
  have total := length_mul_average some
  rw [squaredDeviations, sum_deviations, ← total]
  ring

/-- The mean of a longer list. -/
theorem average_concat (values : List Number) (value : Number) :
    average (values ++ [value]) =
      average values + (value - average values) / (values.length + 1 : Nat) := by
  have length : ((values.length + 1 : Nat) : Number) ≠ 0 := Nat.cast_ne_zero.mpr (Nat.succ_ne_zero _)
  by_cases empty : values = []
  · simp [empty, average]
  · have whole : average (values ++ [value]) =
        (values.length * average values + value) / (values.length + 1 : Nat) := by
      rw [length_mul_average empty, average, List.sum_append, List.sum_singleton,
        List.length_append, List.length_singleton]
    rw [whole]
    push_cast at length ⊢
    field_simp
    ring

/-- The squared deviations of a longer list: the new value contributes its
distances from the mean before it and after it. -/
theorem squaredDeviations_concat (values : List Number) (value : Number) :
    squaredDeviations (values ++ [value]) = squaredDeviations values +
      (value - average values) * (value - average (values ++ [value])) := by
  by_cases empty : values = []
  · simp [empty, squaredDeviations, average]
  · have total := length_mul_average empty
    have total' := @length_mul_average _ _ _ (values ++ [value]) (by simp)
    rw [squaredDeviations_eq empty, squaredDeviations_eq (by simp)]
    rw [List.length_append, List.length_singleton, List.sum_append, List.sum_singleton,
      ← total] at total'
    rw [List.length_append, List.length_singleton, sumSquares_append, sumSquares_cons,
      sumSquares_nil]
    push_cast at total' ⊢
    linear_combination (-(average (values ++ [value])) - average values) * total'

variable (oldest value : Number) (rest : List Number)

/-- The mean of a window that has moved on by one value. -/
theorem average_slide : average (rest ++ [value]) =
    average (oldest :: rest) + (value - oldest) / (rest.length + 1 : Nat) := by
  simp only [average, List.sum_append, List.sum_cons, List.sum_nil, List.length_append,
    List.length_cons, List.length_nil]
  ring

/-- The squared deviations of a window that has moved on by one value. -/
theorem squaredDeviations_slide : squaredDeviations (rest ++ [value]) =
    squaredDeviations (oldest :: rest) +
      ((value - average (oldest :: rest)) * (value - average (rest ++ [value])) -
        (oldest - average (oldest :: rest)) * (oldest - average (rest ++ [value]))) := by
  have total := @length_mul_average _ _ _ (oldest :: rest) (by simp)
  have total' := @length_mul_average _ _ _ (rest ++ [value]) (by simp)
  rw [squaredDeviations_eq (by simp), squaredDeviations_eq (by simp)]
  simp only [List.length_append, List.length_cons, List.length_nil, List.sum_append,
    List.sum_cons, List.sum_nil, sumSquares_append, sumSquares_cons, sumSquares_nil] at total total' ⊢
  push_cast at total total' ⊢
  linear_combination (average (oldest :: rest) + average (rest ++ [value])) * (total - total')

end CharZero
end Moments

theorem squaredDeviations_nonneg {Number : Type u} [Field Number] [LinearOrder Number]
    [IsStrictOrderedRing Number] (values : List Number) : 0 ≤ squaredDeviations values := by
  apply List.sum_nonneg
  intro deviation member
  rcases List.mem_map.mp member with ⟨value, -, same⟩
  rw [← same]
  exact sq_nonneg _

end Foundations
end NexusHft
