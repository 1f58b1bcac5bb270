import Mathlib.Data.Int.Log
import Mathlib.Data.Rat.Floor
import Mathlib.Tactic.Linarith
import Mathlib.Tactic.NormNum

namespace NexusHft
namespace Foundations

/-!
# Rounding to binary64

The double nearest to a rational number, ties to even, as a rational number
again; `none` is an overflow to infinity.  A double is an integer multiple of
the unit of its binade, `2 ^ (e - 52)` for a magnitude in `[2 ^ e, 2 ^ (e + 1))`,
and never of a smaller unit than `2 ^ (-1074)`.
-/

/-- The integer nearest to a rational number, the even one of two. -/
def roundHalfEven (value : Rat) : Int :=
  let below := ⌊value⌋
  if value - below < 1 / 2 then below
  else if 1 / 2 < value - below then below + 1
  else if below % 2 = 0 then below
  else below + 1

/-- The unit of the binade of a magnitude. -/
def unitExponent (value : Rat) : Int := max (Int.log 2 |value| - 52) (-1074)

def nearest (value : Rat) : Option Rat :=
  let unit : Rat := 2 ^ unitExponent value
  let rounded := roundHalfEven (value / unit) * unit
  if |rounded| < 2 ^ 1024 then some rounded else none

theorem abs_roundHalfEven_sub_le (value : Rat) : |(roundHalfEven value : Rat) - value| ≤ 1 / 2 := by
  have below := Int.floor_le value
  have above := Int.lt_floor_add_one value
  unfold roundHalfEven
  dsimp only
  rw [abs_le]
  split
  · constructor <;> linarith
  split
  · push_cast
    constructor <;> linarith
  split
  · constructor <;> linarith
  · push_cast
    constructor <;> linarith

/-- Above one the unit is small against the magnitude. -/
theorem unit_le {value : Rat} (large : 1 ≤ value) :
    (2 : Rat) ^ unitExponent value ≤ value / 2 ^ 52 := by
  have positive : 0 < value := lt_of_lt_of_le one_pos large
  have exponent : 0 ≤ Int.log 2 value := by
    rw [Int.log_of_one_le_right 2 large]
    exact Int.natCast_nonneg _
  have inside : unitExponent value = Int.log 2 value - 52 := by
    rw [unitExponent, abs_of_pos positive]
    exact max_eq_left (by omega)
  have binade : (2 : Rat) ^ Int.log 2 value ≤ value := Int.zpow_log_le_self (by norm_num) positive
  rw [inside, zpow_sub₀ (by norm_num)]
  exact div_le_div_of_nonneg_right binade (by positivity)

/-- Rounding moves a number of at least one by at most a quarter of it. -/
theorem rounded_near {value : Rat} (large : 1 ≤ value) :
    |(roundHalfEven (value / 2 ^ unitExponent value) : Rat) * 2 ^ unitExponent value - value| ≤
      value / 4 := by
  have unit := unit_le large
  have positive : (0 : Rat) < 2 ^ unitExponent value := zpow_pos (by norm_num) _
  have step := abs_roundHalfEven_sub_le (value / 2 ^ unitExponent value)
  have scaled : (roundHalfEven (value / 2 ^ unitExponent value) : Rat) * 2 ^ unitExponent value -
      value = ((roundHalfEven (value / 2 ^ unitExponent value) : Rat) -
        value / 2 ^ unitExponent value) * 2 ^ unitExponent value := by
    rw [sub_mul, div_mul_cancel₀ _ (ne_of_gt positive)]
  rw [scaled, abs_mul, abs_of_pos positive]
  have bounded := mul_le_mul_of_nonneg_right step (le_of_lt positive)
  norm_num at unit
  linarith

@[simp] theorem nearest_zero : nearest 0 = some 0 := by
  simp [nearest, roundHalfEven]

/-- Rounding stays near a number from one to `2 ^ 64`, and is finite. -/
theorem nearest_near {value : Rat} (large : 1 ≤ value) (fits : value ≤ 2 ^ 64) :
    Exists fun rounded => nearest value = some rounded ∧ |rounded - value| ≤ value / 4 := by
  have near := rounded_near large
  refine ⟨_, if_pos ?_, near⟩
  have huge : (2 : Rat) ^ 65 ≤ 2 ^ 1024 := pow_le_pow_right₀ (by norm_num) (by norm_num)
  rw [abs_le] at near
  rw [abs_lt]
  norm_num at fits
  generalize (2 : Rat) ^ 1024 = limit at huge
  norm_num at huge
  constructor <;> linarith

/-- A positive integer of 64 bits has a finite double, at least half as large. -/
theorem nearest_of_pos {value : Nat} (positive : 0 < value) (fits : value < 2 ^ 64) :
    Exists fun rounded => nearest value = some rounded ∧ |rounded - value| ≤ value / 4 := by
  have large : (1 : Rat) ≤ value := by exact_mod_cast positive
  have fitsQ : (value : Rat) ≤ 2 ^ 64 := by exact_mod_cast le_of_lt fits
  exact nearest_near large fitsQ

/-- Two integers of which one is at most half of the other have different doubles. -/
theorem nearest_ne {small large : Nat} (half : 2 * small ≤ large) (positive : 0 < large)
    (fits : large < 2 ^ 64) : nearest small ≠ nearest large := by
  rcases nearest_of_pos positive fits with ⟨rounded, isRounded, near⟩
  have largeQ : (0 : Rat) < large := by exact_mod_cast positive
  have halfQ : 2 * (small : Rat) ≤ large := by exact_mod_cast half
  rw [abs_le] at near
  rw [isRounded]
  rcases Nat.eq_zero_or_pos small with zero | smallPositive
  · rw [zero, Nat.cast_zero, nearest_zero]
    intro same
    rw [← Option.some.inj same] at near
    linarith
  · rcases nearest_of_pos smallPositive (by omega) with ⟨rounded', isRounded', near'⟩
    rw [abs_le] at near'
    rw [isRounded']
    intro same
    rw [Option.some.inj same] at near'
    linarith

end Foundations
end NexusHft
