import NexusHft.Foundations.NearestDouble

namespace NexusHft
namespace Foundations

/-!
# Doubles for hundredths

A number of hundredths has no double of its own in general, but while it is small
enough its nearest double lies so near to it that rounding to hundredths finds the
number again: rounding to even as well as rounding up, and also after one more
operation on doubles.
-/

/-! ## Rounding a number that is near to an integer -/

section Near

variable {value : Rat} {number : Int}

/-- Less than half away from an integer, the floor of the number and a half more is it. -/
theorem floor_add_half_of_near (near : |value - number| < 1 / 2) : ⌊value + 1 / 2⌋ = number := by
  rw [abs_lt] at near
  rw [Int.floor_eq_iff]
  constructor <;> linarith

theorem roundHalfEven_of_near (near : |value - number| < 1 / 2) : roundHalfEven value = number := by
  have half := abs_roundHalfEven_sub_le value
  rw [abs_lt] at near
  rw [abs_le] at half
  have above : (roundHalfEven value : Rat) < (number + 1 : Int) := by
    push_cast
    linarith
  have below : ((number - 1 : Int) : Rat) < roundHalfEven value := by
    push_cast
    linarith
  have above' : roundHalfEven value < number + 1 := by exact_mod_cast above
  have below' : number - 1 < roundHalfEven value := by exact_mod_cast below
  omega

/-- A number near to an integer is not on a half. -/
theorem ne_half_of_near (near : |value - number| < 1 / 2) (other : Int) :
    value ≠ other + 1 / 2 := by
  intro same
  rw [same, abs_lt] at near
  have above : (other : Rat) < number := by linarith
  have below : (number : Rat) < other + 1 := by linarith
  have above' : other < number := by exact_mod_cast above
  have below' : number < other + 1 := by exact_mod_cast below
  omega

end Near

/-! ## The nearest double -/

section Nearest

variable {value : Rat} {unit : Int}

/-- A number of moderate size has a double within half a unit. -/
theorem nearest_exists (positive : 0 < value) (small : value < 2 ^ (unit + 53))
    (normal : -1074 ≤ unit) (moderate : unit ≤ 12) :
    Exists fun rounded => nearest value = some rounded ∧ |rounded - value| ≤ 2 ^ unit / 2 := by
  have finite : |(roundHalfEven (value / 2 ^ unitExponent value) : Rat) * 2 ^ unitExponent value| <
      2 ^ 1024 := by
    have step := abs_roundHalfEven_sub_le (value / 2 ^ unitExponent value)
    have coarse : (2 : Rat) ^ unitExponent value ≤ 2 ^ (12 : Int) :=
      zpow_le_zpow_right₀ (by norm_num) (le_trans (unitExponent_le positive small normal) moderate)
    have large : value < 2 ^ (65 : Int) :=
      lt_of_lt_of_le small (zpow_le_zpow_right₀ (by norm_num) (by omega))
    have unitPos := unit_pos (unitExponent value)
    have scaled : (roundHalfEven (value / 2 ^ unitExponent value) : Rat) * 2 ^ unitExponent value =
        value + (roundHalfEven (value / 2 ^ unitExponent value) -
          value / 2 ^ unitExponent value) * 2 ^ unitExponent value := by
      rw [sub_mul, div_mul_cancel₀ _ (ne_of_gt unitPos), add_sub_cancel]
    have bounded := mul_le_mul_of_nonneg_right step (le_of_lt unitPos)
    rw [← abs_of_pos unitPos, ← abs_mul, abs_of_pos unitPos, abs_le] at bounded
    have huge : (2 : Rat) ^ (66 : Int) < 2 ^ 1024 := by
      rw [← zpow_natCast (2 : Rat) 1024]
      exact zpow_lt_zpow_right₀ (by norm_num) (by norm_num)
    norm_num at coarse large
    rw [scaled, abs_lt]
    generalize (2 : Rat) ^ 1024 = limit at huge
    norm_num at huge
    constructor <;> linarith
  exact ⟨_, if_pos finite, nearest_error positive small normal (if_pos finite)⟩

/-- The double of a number of hundredths, with its error in hundredths. -/
theorem nearest_hundredths {number : Nat} (positive : 0 < number)
    (small : (number : Rat) / 100 < 2 ^ (unit + 53)) (normal : -1074 ≤ unit)
    (moderate : unit ≤ 12) :
    Exists fun amount => nearest ((number : Rat) / 100) = some amount ∧
      |100 * amount - number| ≤ 50 * 2 ^ unit := by
  have positiveQ : (0 : Rat) < number := by exact_mod_cast positive
  rcases nearest_exists (by linarith) small normal moderate with ⟨amount, isAmount, error⟩
  refine ⟨amount, isAmount, ?_⟩
  rw [abs_le] at error ⊢
  constructor <;> linarith

/-- The double of a product by a hundred. -/
theorem nearest_hundredfold {number : Nat} {amount error : Rat} (positive : 0 < 100 * amount)
    (near : |100 * amount - number| ≤ error) (small : (number : Rat) + error < 2 ^ (unit + 53))
    (normal : -1074 ≤ unit) (moderate : unit ≤ 12) :
    Exists fun product => nearest (amount * 100) = some product ∧
      |product - number| ≤ error + 2 ^ unit / 2 := by
  rw [abs_le] at near
  rcases nearest_exists (by linarith : 0 < amount * 100) (by linarith) normal moderate with
    ⟨product, isProduct, step⟩
  refine ⟨product, isProduct, ?_⟩
  rw [abs_le] at step ⊢
  constructor <;> linarith

/-- The double of a difference of two numbers of hundredths. -/
theorem nearest_difference {low high : Nat} {amount amount' error : Rat} (order : low < high)
    (nonneg : 0 ≤ amount) (near : |100 * amount - low| ≤ error)
    (near' : |100 * amount' - high| ≤ error) (fine : error < 1 / 2)
    (small : ((high : Rat) + error) / 100 < 2 ^ (unit + 53)) (normal : -1074 ≤ unit)
    (moderate : unit ≤ 12) :
    Exists fun difference => nearest (amount' - amount) = some difference ∧
      |100 * difference - (high - low : Nat)| ≤ 2 * error + 50 * 2 ^ unit := by
  have orderQ : (low : Rat) + 1 ≤ high := by exact_mod_cast order
  rw [abs_le] at near near'
  rcases nearest_exists (by linarith : 0 < amount' - amount) (by linarith) normal moderate with
    ⟨difference, isDifference, step⟩
  refine ⟨difference, isDifference, ?_⟩
  rw [Nat.cast_sub (le_of_lt order)]
  rw [abs_le] at step ⊢
  constructor <;> linarith

end Nearest
end Foundations
end NexusHft
