import NexusHft.Foundations.NearestDouble
import NexusHft.Main.InputStream

namespace NexusHft

open Foundations

/-!
# Prices in cents

A price is multiplied by a hundred, a half is added, and the sum is truncated.
Both results are doubles.  The multiplication may carry a product up to a half
it lies below, and from `2 ^ 52` on the addition rounds as well: the exact
product is then rounded to the nearest integer only under a condition.
-/

/-- The doubles of the machine. -/
def Arithmetic.binary64 (outOfRange : Option Rat -> UInt64) : Arithmetic where
  round := nearest
  outOfRange := outOfRange

/-- The price is the exact product, rounded to a nearest integer, and not zero. -/
def RoundedTo (price : Price) (cents : Rat) : Prop :=
  1 ≤ price.toNat ∧ |(price.toNat : Rat) - cents| ≤ 1 / 2

/-- The product does not come to lie on another side of a half when it is
rounded, nor its double when a half is added. -/
def CentsExact (cents : Rat) : Prop :=
  1 / 2 ≤ cents ∧ Exists fun product => nearest cents = some product ∧ product < 2 ^ 64 ∧
    (product < 2 ^ 52 -> forall number : Int, cents < number + 1 / 2 -> product ≠ number + 1 / 2) ∧
    (2 ^ 52 ≤ product -> product < 2 ^ 53 -> ⌊product⌋ % 2 = 0) ∧
    (2 ^ 53 ≤ product -> |product - cents| ≤ 1 / 2)

section Product

variable {cents product : Rat} {number : Nat} {outOfRange : Option Rat -> UInt64}

theorem half_le_product (large : 1 / 2 ≤ cents) (isProduct : nearest cents = some product) :
    1 / 2 ≤ product :=
  nearest_mono (by norm_num) large (@nearest_halves _ 1 one_pos (by norm_num) (by norm_num))
    isProduct

/-- What is added to and truncated, where it fits. -/
theorem hundredths_of_sum {priceInput sum : Rat}
    (isProduct : nearest (priceInput * 100) = some product)
    (isSum : nearest (product + 1 / 2) = some sum) (isFloor : ⌊sum⌋ = (number : Int))
    (fits : sum < 2 ^ 64) :
    ((Arithmetic.binary64 outOfRange).hundredths priceInput).toNat = number := by
  have bounds := Int.floor_eq_iff.mp isFloor
  rw [Int.cast_natCast] at bounds
  have small : number < 2 ^ 64 := by
    have order : (number : Rat) < (2 ^ 64 : Nat) := by
      push_cast
      linarith
    exact_mod_cast order
  have above : (-1 : Rat) < sum := by
    have natural : (0 : Rat) ≤ number := Nat.cast_nonneg number
    linarith
  simp only [Arithmetic.hundredths, Arithmetic.binary64, isProduct, Option.bind_some, isSum]
  rw [if_pos ⟨above, fits⟩, isFloor, Int.toNat_natCast, UInt64.toNat_ofNat']
  exact Nat.mod_eq_of_lt small

theorem isDouble_product (large : 1 / 2 ≤ cents) (isProduct : nearest cents = some product) :
    Exists fun multiple => Exists fun unit => IsDouble product multiple unit :=
  isDouble_of_nearest (lt_of_lt_of_le (by norm_num) large)
    (lt_of_lt_of_le (by norm_num) (half_le_product large isProduct)) isProduct

/-- A product below a half was below it before it was rounded. -/
theorem cents_le (few : number ≤ 2 ^ 52) (positive : 0 < number) (small : product < 2 ^ 52)
    (isProduct : nearest cents = some product) (below : product < number + 1 / 2) :
    cents ≤ number + 1 / 2 := by
  by_contra far
  rcases Nat.lt_or_eq_of_le few with below | full
  · have order := nearest_mono (by positivity : (0 : Rat) < number + 1 / 2) (by linarith)
      (@nearest_halves _ (2 * number + 1) (by omega) (by omega) (by push_cast; ring)) isProduct
    linarith
  · have order := nearest_mono (by exact_mod_cast positive) (by linarith)
      (nearest_natCast positive (by omega)) isProduct
    rw [full] at order
    push_cast at order
    linarith

/-- A product above a half was above it, unless it was carried up to it. -/
theorem le_cents (few : number ≤ 2 ^ 52) (positive : 0 < number) (half : 1 / 2 ≤ cents)
    (isProduct : nearest cents = some product) (above : number - 1 / 2 ≤ product)
    (stays : cents < number - 1 / 2 -> product ≠ number - 1 / 2) : number - 1 / 2 ≤ cents := by
  by_contra far
  have halves : nearest ((number : Rat) - 1 / 2) = some ((number : Rat) - 1 / 2) := by
    refine @nearest_halves _ (2 * number - 1) (by omega) (by omega) ?_
    rw [Nat.cast_sub (by omega)]
    push_cast
    ring
  have order := nearest_mono (lt_of_lt_of_le (by norm_num) half) (by linarith) isProduct halves
  exact stays (not_le.mp far) (le_antisymm order above)

section Cases

variable {priceInput : Rat}

/-- Below `2 ^ 52`: only a product that is carried up to a half goes wrong. -/
theorem hundredths_small (half : 1 / 2 ≤ priceInput * 100)
    (isProduct : nearest (priceInput * 100) = some product) (small : product < 2 ^ 52) :
    RoundedTo ((Arithmetic.binary64 outOfRange).hundredths priceInput) (priceInput * 100) <->
      forall number : Int, priceInput * 100 < number + 1 / 2 -> product ≠ number + 1 / 2 := by
  have halfProduct := half_le_product half isProduct
  rcases isDouble_product half isProduct with ⟨multiple, unit, double⟩
  rcases nearest_add_half double halfProduct small with ⟨sum, isSum, floors⟩
  have natural : (1 : Int) ≤ ⌊product + 1 / 2⌋ := by
    rw [Int.le_floor, Int.cast_one]
    linarith
  rcases Int.eq_ofNat_of_zero_le (le_trans zero_le_one natural) with ⟨number, isFloor⟩
  have bounds := Int.floor_eq_iff.mp isFloor
  have sumBounds := Int.floor_eq_iff.mp (floors.trans isFloor)
  rw [Int.cast_natCast] at bounds sumBounds
  have positive : 0 < number := by omega
  have few : number ≤ 2 ^ 52 := by
    have order : (number : Rat) < (2 ^ 52 + 1 : Nat) := by
      push_cast
      linarith
    exact Nat.lt_succ_iff.mp (by exact_mod_cast order)
  rw [RoundedTo, hundredths_of_sum isProduct isSum (floors.trans isFloor) (by linarith)]
  constructor
  · rintro ⟨-, near⟩ other below same
    have here : other + 1 = number := by
      rw [← isFloor, same, add_assoc, add_halves, Int.floor_add_one, Int.floor_intCast]
    have hereQ : (other : Rat) + 1 = number := by exact_mod_cast here
    rw [abs_le] at near
    linarith
  · intro stays
    have lower := le_cents few positive half isProduct (by linarith) fun below same => by
      refine stays (number - 1) ?_ ?_
      · push_cast
        linarith
      · push_cast
        linarith
    have upper := cents_le few positive small isProduct (by linarith)
    exact ⟨positive, abs_le.mpr ⟨by linarith, by linarith⟩⟩

/-- From `2 ^ 52` to `2 ^ 53` the product is an integer, and an odd one goes wrong. -/
theorem hundredths_middle (half : 1 / 2 ≤ priceInput * 100)
    (isProduct : nearest (priceInput * 100) = some product)
    (large : 2 ^ 52 ≤ product) (small : product < 2 ^ 53) :
    RoundedTo ((Arithmetic.binary64 outOfRange).hundredths priceInput) (priceInput * 100) <->
      ⌊product⌋ % 2 = 0 := by
  generalize isCents : priceInput * 100 = cents at half isProduct
  have positive : 0 < cents := lt_of_lt_of_le (by norm_num) half
  rcases isDouble_product half isProduct with ⟨multiple, unit, double⟩
  rcases @IsDouble.coarse _ _ _ 0 double (by norm_num at large ⊢; exact large) with ⟨number, integral⟩
  rw [zpow_zero, mul_one] at integral
  rw [integral] at isProduct large small ⊢
  have largeN : 2 ^ 52 ≤ number := by exact_mod_cast large
  have smallN : number < 2 ^ 53 := by exact_mod_cast small
  have error : |(number : Rat) - cents| ≤ 1 / 2 := by
    have below : cents < 2 ^ 53 := by
      by_contra above
      have order := nearest_mono (by norm_num) (not_lt.mp above)
        (by exact_mod_cast nearest_natCast (by norm_num : 0 < 2 ^ 53) (le_refl _)) isProduct
      push_cast at order
      linarith
    have error := @nearest_error _ _ 0 positive (by exact_mod_cast below) (by norm_num) isProduct
    rwa [zpow_zero] at error
  rw [abs_le] at error
  have isSum := nearest_add_half_middle largeN smallN
  rw [Int.floor_natCast]
  by_cases even : number % 2 = 0
  · rw [if_pos even] at isSum
    rw [RoundedTo, hundredths_of_sum (isCents ▸ isProduct) isSum (Int.floor_natCast number)
      (lt_trans small (by norm_num))]
    exact iff_of_true ⟨by omega, abs_le.mpr error⟩ (by omega)
  · rw [if_neg even] at isSum
    have floor : ⌊(number : Rat) + 1⌋ = ((number + 1 : Nat) : Int) := by
      rw [← Nat.cast_succ, Int.floor_natCast]
    rw [RoundedTo, hundredths_of_sum (isCents ▸ isProduct) isSum floor (by linarith)]
    refine iff_of_false (fun rounded => ?_) (by omega)
    have near := abs_le.mp rounded.2
    push_cast at near
    -- a product that far up is rounded to the even integer
    have order := nearest_mono (by positivity) (by linarith : (number : Rat) + 1 / 2 ≤ cents) isSum
      isProduct
    linarith

/-- From `2 ^ 53` on the price is the product. -/
theorem hundredths_large (half : 1 / 2 ≤ priceInput * 100)
    (isProduct : nearest (priceInput * 100) = some product)
    (large : 2 ^ 53 ≤ product) (small : product < 2 ^ 64) :
    RoundedTo ((Arithmetic.binary64 outOfRange).hundredths priceInput) (priceInput * 100) <->
      |product - priceInput * 100| ≤ 1 / 2 := by
  rcases isDouble_product half isProduct with ⟨multiple, unit, double⟩
  rcases @IsDouble.coarse _ _ _ 0 double (by norm_num at large ⊢; linarith) with ⟨number, integral⟩
  rw [zpow_zero, mul_one] at integral
  have isSum := nearest_add_half_large double large small
  have floor : ⌊product⌋ = (number : Int) := by rw [integral, Int.floor_natCast]
  have positive : 1 ≤ number := by
    have order : (1 : Rat) ≤ number := by
      rw [← integral]
      linarith
    exact_mod_cast order
  rw [RoundedTo, hundredths_of_sum isProduct isSum floor small, ← integral]
  exact and_iff_right positive

/-- A product that does not fit leaves the price to the machine. -/
theorem hundredths_unfit
    (unfit : forall product, nearest (priceInput * 100) = some product -> 2 ^ 64 ≤ product) :
    (Arithmetic.binary64 fun _ => 0).hundredths priceInput = 0 := by
  unfold Arithmetic.hundredths
  dsimp only
  split
  · rfl
  · rename_i sum isSum
    rcases Option.bind_eq_some_iff.mp isSum with ⟨product, isProduct, isSum⟩
    have large := unfit product isProduct
    have power : IsDouble ((2 : Rat) ^ 64) (2 ^ 52) 12 := by
      refine ⟨?_, by norm_num, by norm_num, by norm_num⟩
      norm_num
    have order := nearest_mono (by norm_num) (by linarith : (2 : Rat) ^ 64 ≤ product + 1 / 2)
      (power.nearest (lt_finite (le_refl _) (by norm_num))) isSum
    exact if_neg fun inside => absurd inside.2 (not_lt.mpr order)

end Cases

/-- On every machine the price is the exact product, rounded, under the condition;
and where the condition fails, there is a machine on which it is not. -/
theorem hundredths_exact_iff (priceInput : Rat) :
    (forall outOfRange,
        RoundedTo ((Arithmetic.binary64 outOfRange).hundredths priceInput) (priceInput * 100)) <->
      CentsExact (priceInput * 100) := by
  constructor
  · intro rounded
    have half : 1 / 2 ≤ priceInput * 100 := by
      have one := rounded fun _ => 0
      have positive : (1 : Rat) ≤ ((Arithmetic.binary64 fun _ => 0).hundredths priceInput).toNat := by
        exact_mod_cast one.1
      have near := abs_le.mp one.2
      linarith
    have fits : Exists fun product => nearest (priceInput * 100) = some product ∧
        product < 2 ^ 64 := by
      by_contra unfit
      have positive := (rounded fun _ => 0).1
      rw [hundredths_unfit fun product isProduct =>
        not_lt.mp fun small => unfit ⟨product, isProduct, small⟩] at positive
      exact absurd positive (by decide)
    rcases fits with ⟨product, isProduct, small⟩
    exact ⟨half, product, isProduct, small,
      fun below => (hundredths_small half isProduct below).mp (rounded fun _ => 0),
      fun large below => (hundredths_middle half isProduct large below).mp (rounded fun _ => 0),
      fun large => (hundredths_large half isProduct large small).mp (rounded fun _ => 0)⟩
  · rintro ⟨half, product, isProduct, fits, carried, odd, far⟩ outOfRange
    by_cases small : product < 2 ^ 52
    · exact (hundredths_small half isProduct small).mpr (carried small)
    by_cases middle : product < 2 ^ 53
    · have large := not_lt.mp small
      exact (hundredths_middle half isProduct large middle).mpr (odd large middle)
    · have large := not_lt.mp middle
      exact (hundredths_large half isProduct large fits).mpr (far large)

end Product
end NexusHft
