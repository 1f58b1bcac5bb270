import NexusHft.Foundations.Hundredths
import NexusHft.Main.Output
import NexusHft.Main.PriceConversion

namespace NexusHft

open Foundations

/-!
# Prices that are printed and read again

A price below `2 ^ 52` is printed with all its cents.  Up to `2 ^ 51` cents the
double that such a text is read as is converted to the same price again: the
error of the double, of the product by a hundred and of the half that is added
stay below half a cent together.
-/

/-- A price as a text of hundredths. -/
theorem printedHundredths_eq {price : Price} (small : price.toNat < 2 ^ 52) :
    printedHundredths price = price.toNat := by
  rcases Nat.eq_zero_or_pos price.toNat with zero | positive
  · unfold printedHundredths
    rw [zero, Nat.cast_zero, nearest_zero, Option.bind_some, zero_div, nearest_zero]
    dsimp only
    rw [Option.getD_some, mul_zero, ← Int.cast_zero, roundHalfEven_intCast]
    rfl
  · have smallQ : (price.toNat : Rat) < 2 ^ 52 := by exact_mod_cast small
    rcases @nearest_hundredths (-7) price.toNat positive (by norm_num; linarith) (by norm_num)
      (by norm_num) with ⟨amount, isAmount, near⟩
    norm_num at near
    have cents : roundHalfEven (100 * amount) = (price.toNat : Int) :=
      roundHalfEven_of_near (by push_cast; exact lt_of_le_of_lt near (by norm_num))
    unfold printedHundredths
    rw [nearest_natCast positive (le_of_lt (lt_trans small (by norm_num))), Option.bind_some,
      isAmount]
    dsimp only
    rw [Option.getD_some, cents]
    exact Int.toNat_natCast _

section Reading

variable {cents : Nat}

/-- The double nearest to a number of cents. -/
theorem nearest_cents (positive : 0 < cents) (small : cents < 2 ^ 51) :
    Exists fun amount => nearest ((cents : Rat) / 100) = some amount ∧ 0 < amount ∧
      |100 * amount - cents| ≤ 25 / 128 := by
  have smallQ : (cents : Rat) < 2 ^ 51 := by exact_mod_cast small
  have largeQ : (1 : Rat) ≤ cents := by exact_mod_cast positive
  rcases @nearest_hundredths (-8) cents positive (by norm_num; linarith) (by norm_num)
    (by norm_num) with ⟨amount, isAmount, near⟩
  norm_num at near
  refine ⟨amount, isAmount, ?_, near⟩
  rw [abs_le] at near
  linarith

/-- Its product by a hundred is not carried to a half. -/
theorem centsExact_of_near {amount : Rat} (positive : 0 < cents) (small : cents < 2 ^ 51)
    (near : |100 * amount - cents| ≤ 25 / 128) : CentsExact (amount * 100) := by
  have smallQ : (cents : Rat) + 1 ≤ 2 ^ 51 := by exact_mod_cast small
  have largeQ : (1 : Rat) ≤ cents := by exact_mod_cast positive
  have bounds := abs_le.mp near
  rcases @nearest_hundredfold (-1) cents amount (25 / 128) (by linarith) near
    (by norm_num at smallQ ⊢; linarith) (by norm_num) (by norm_num) with ⟨product, isProduct, error⟩
  norm_num at error
  have close : |product - (cents : Int)| < 1 / 2 := by
    push_cast
    exact lt_of_le_of_lt error (by norm_num)
  have few : product < 2 ^ 52 := by
    rw [abs_le] at error
    norm_num at smallQ ⊢
    linarith
  refine ⟨by linarith, product, isProduct, lt_trans few (by norm_num), ?_, ?_, ?_⟩
  · exact fun _ number _ => ne_half_of_near close number
  · exact fun large => absurd few (not_lt.mpr large)
  · exact fun large => absurd (lt_trans few (by norm_num)) (not_lt.mpr large)

/-- The double of a number of cents is converted to this number. -/
theorem hundredths_of_cents {amount : Rat} (positive : 0 < cents) (small : cents < 2 ^ 51)
    (near : |100 * amount - cents| ≤ 25 / 128) (outOfRange : Option Rat -> UInt64) :
    ((Arithmetic.binary64 outOfRange).hundredths amount).toNat = cents := by
  have rounded := (hundredths_exact_iff amount).mpr (centsExact_of_near positive small near) outOfRange
  have apart := abs_le.mp rounded.2
  rw [abs_le] at near
  have above : (((Arithmetic.binary64 outOfRange).hundredths amount).toNat : Rat) < cents + 1 := by
    linarith
  have below : (cents : Rat) < ((Arithmetic.binary64 outOfRange).hundredths amount).toNat + 1 := by
    linarith
  have above' : ((Arithmetic.binary64 outOfRange).hundredths amount).toNat < cents + 1 := by
    exact_mod_cast above
  have below' : cents < ((Arithmetic.binary64 outOfRange).hundredths amount).toNat + 1 := by
    exact_mod_cast below
  omega

end Reading
end NexusHft
