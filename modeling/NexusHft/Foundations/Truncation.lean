import Mathlib.Algebra.Order.Round
import Mathlib.Data.Rat.Floor
import Mathlib.Tactic.Linarith

namespace NexusHft
namespace Foundations

/-!
# Truncation and rounding

`truncate` is the conversion of a fraction to an integer that drops the digits
behind the point.  It loses less than one unit, in the direction of zero.
`roundHalfAway` goes to the nearest integer, and from a half away from zero.
-/

/-- The integer part of a number, toward zero. -/
def truncate (value : Rat) : Int := if 0 ≤ value then ⌊value⌋ else ⌈value⌉

theorem truncate_intCast (value : Int) : truncate value = value := by
  unfold truncate
  split
  · exact Int.floor_intCast value
  · exact Int.ceil_intCast value

theorem abs_truncate_sub_lt (value : Rat) : |(truncate value : Rat) - value| < 1 := by
  unfold truncate
  rw [abs_lt]
  split
  · have below := Int.floor_le value
    have above := Int.lt_floor_add_one value
    constructor <;> linarith
  · have above := Int.le_ceil value
    have below := Int.ceil_lt_add_one value
    constructor <;> linarith

/-! ## Halves away from zero -/

section Rounding

universe u

variable {K : Type u} [Field K] [LinearOrder K] [FloorRing K]

/-- The nearest integer; a half goes away from zero. -/
def roundHalfAway (value : K) : Int :=
  if 0 ≤ value then round value else -round (-value)

variable [IsStrictOrderedRing K]

theorem roundHalfAway_of_nonneg {value : K} (nonneg : 0 ≤ value) :
    roundHalfAway value = ⌊value + 1 / 2⌋ := by
  rw [roundHalfAway, if_pos nonneg, round_eq]

theorem roundHalfAway_of_neg {value : K} (negative : value < 0) :
    roundHalfAway value = ⌈value - 1 / 2⌉ := by
  rw [roundHalfAway, if_neg (not_le.mpr negative), round_eq, ← Int.ceil_neg, neg_add_rev, neg_neg,
    neg_add_eq_sub]

theorem roundHalfAway_of_neg_nonpos {value : K} (negative : value < 0) :
    roundHalfAway value ≤ 0 := by
  rw [roundHalfAway_of_neg negative, Int.ceil_le, Int.cast_zero]
  linarith

/-- From minus one half on nothing is rounded to a negative number. -/
theorem roundHalfAway_nonneg_iff (value : K) :
    0 ≤ roundHalfAway value <-> -(1 / 2) < value := by
  rcases lt_or_ge value 0 with negative | nonneg
  · rw [roundHalfAway_of_neg negative, ← Int.sub_one_lt_iff, Int.lt_ceil, zero_sub, Int.cast_neg,
      Int.cast_one]
    constructor
    · intro above
      linarith
    · intro above
      linarith
  · rw [roundHalfAway_of_nonneg nonneg, Int.floor_nonneg]
    exact iff_of_true (by linarith) (by linarith)

/-- A positive bound is kept up to one half below it. -/
theorem roundHalfAway_lt_iff {bound : Int} (positive : 0 < bound) (value : K) :
    roundHalfAway value < bound <-> value < bound - 1 / 2 := by
  rcases lt_or_ge value 0 with negative | nonneg
  · have one : (1 : K) ≤ bound := by exact_mod_cast positive
    have below := roundHalfAway_of_neg_nonpos negative
    exact iff_of_true (lt_of_le_of_lt below positive) (by linarith)
  · rw [roundHalfAway_of_nonneg nonneg, Int.floor_lt]
    exact lt_sub_iff_add_lt.symm

theorem roundHalfAway_mono {value value' : K} (le : value ≤ value') :
    roundHalfAway value ≤ roundHalfAway value' := by
  rcases lt_or_ge value 0 with negative | nonneg
  · rcases lt_or_ge value' 0 with negative' | nonneg'
    · rw [roundHalfAway_of_neg negative, roundHalfAway_of_neg negative']
      exact Int.ceil_mono (sub_le_sub_right le _)
    · have above := (roundHalfAway_nonneg_iff value').mpr (by linarith)
      exact (roundHalfAway_of_neg_nonpos negative).trans above
  · rw [roundHalfAway_of_nonneg nonneg, roundHalfAway_of_nonneg (nonneg.trans le)]
    exact Int.floor_mono (add_le_add_left le _)

end Rounding
end Foundations
end NexusHft
