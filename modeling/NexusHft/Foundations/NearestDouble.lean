import NexusHft.Foundations.Binary64
import Mathlib.Algebra.Order.Field.Power
import Mathlib.Tactic.Positivity
import Mathlib.Tactic.Ring

namespace NexusHft
namespace Foundations

/-!
# The doubles next to a number

Rounding to a double keeps the order, and it keeps every number that is a
multiple of a unit and not too large for it.  What is rounded can therefore be
held between two doubles.
-/

/-! ## Rounding to an integer -/

section Integers

variable {value value' : Rat}

theorem floor_le_roundHalfEven (value : Rat) :
    ⌊value⌋ ≤ roundHalfEven value ∧ roundHalfEven value ≤ ⌊value⌋ + 1 := by
  unfold roundHalfEven
  dsimp only
  split_ifs <;> omega

@[simp] theorem roundHalfEven_intCast (number : Int) : roundHalfEven number = number := by
  rw [roundHalfEven, Int.floor_intCast, sub_self]
  norm_num

theorem roundHalfEven_mono (le : value ≤ value') : roundHalfEven value ≤ roundHalfEven value' := by
  rcases lt_or_eq_of_le (Int.floor_mono le) with below | same
  · have upper := (floor_le_roundHalfEven value).2
    have lower := (floor_le_roundHalfEven value').1
    omega
  · have order : value - ⌊value'⌋ ≤ value' - ⌊value'⌋ := sub_le_sub_right le _
    unfold roundHalfEven
    dsimp only
    rw [same]
    split_ifs <;> first | omega | (exfalso; linarith)

theorem roundHalfEven_le {number : Int} (le : value ≤ number) : roundHalfEven value ≤ number :=
  roundHalfEven_intCast number ▸ roundHalfEven_mono le

theorem le_roundHalfEven {number : Int} (le : number ≤ value) : number ≤ roundHalfEven value :=
  roundHalfEven_intCast number ▸ roundHalfEven_mono le

end Integers

/-! ## Units -/

section Units

variable {value value' rounded rounded' : Rat} {unit : Int}

theorem unit_pos (unit : Int) : (0 : Rat) < 2 ^ unit := zpow_pos (by norm_num) unit

theorem unitExponent_of_pos (positive : 0 < value) :
    unitExponent value = max (Int.log 2 value - 52) (-1074) := by
  rw [unitExponent, abs_of_pos positive]

/-- A number has less than 53 binary places in front of its unit. -/
theorem lt_unit (positive : 0 < value) : value < 2 ^ (unitExponent value + 53) := by
  have log := Int.lt_zpow_succ_log_self (b := 2) (by norm_num) value
  rw [Nat.cast_ofNat] at log
  refine lt_of_lt_of_le log ?_
  refine zpow_le_zpow_right₀ (by norm_num) ?_
  rw [unitExponent_of_pos positive]
  omega

theorem unitExponent_le (positive : 0 < value) (small : value < 2 ^ (unit + 53))
    (normal : -1074 ≤ unit) : unitExponent value ≤ unit := by
  have log := (Int.lt_zpow_iff_log_lt (b := 2) (by norm_num) positive).mp (by exact_mod_cast small)
  rw [unitExponent_of_pos positive]
  omega

/-- Above the smallest unit the first binary place is taken. -/
theorem unit_le_value (positive : 0 < value) (normal : -1074 < unitExponent value) :
    2 ^ (unitExponent value + 52) ≤ value := by
  refine le_trans ?_ (Int.zpow_log_le_self (b := 2) (by norm_num) positive)
  refine zpow_le_zpow_right₀ (by norm_num) ?_
  rw [unitExponent_of_pos positive] at normal ⊢
  omega

theorem unitExponent_mono (positive : 0 < value) (le : value ≤ value') :
    unitExponent value ≤ unitExponent value' := by
  have log : Int.log 2 value ≤ Int.log 2 value' := Int.log_mono_right positive le
  rw [unitExponent_of_pos positive, unitExponent_of_pos (lt_of_lt_of_le positive le)]
  omega

theorem nearest_eq_some (isRounded : nearest value = some rounded) :
    rounded = roundHalfEven (value / 2 ^ unitExponent value) * 2 ^ unitExponent value := by
  unfold nearest at isRounded
  dsimp only at isRounded
  split at isRounded
  · exact (Option.some.inj isRounded).symm
  · cases isRounded

theorem significand_le (positive : 0 < value) :
    roundHalfEven (value / 2 ^ unitExponent value) ≤ 2 ^ 53 := by
  apply roundHalfEven_le
  rw [div_le_iff₀ (unit_pos _)]
  refine le_of_lt (lt_of_lt_of_le (lt_unit positive) (le_of_eq ?_))
  rw [add_comm, zpow_add₀ (by norm_num)]
  push_cast
  norm_num

/-- A multiple of a unit that is fine enough is kept. -/
theorem nearest_of_multiple {multiple : Int} (exact : value = multiple * 2 ^ unit)
    (fine : unitExponent value ≤ unit) (finite : |value| < 2 ^ 1024) :
    nearest value = some value := by
  have natural : ((unit - unitExponent value).toNat : Int) = unit - unitExponent value := by omega
  have scaled : value / 2 ^ unitExponent value =
      ((multiple * 2 ^ (unit - unitExponent value).toNat : Int) : Rat) := by
    rw [div_eq_iff (ne_of_gt (unit_pos _))]
    push_cast
    rw [← zpow_natCast, natural, mul_assoc, ← zpow_add₀ (by norm_num), sub_add_cancel]
    exact exact
  have kept : (roundHalfEven (value / 2 ^ unitExponent value) : Rat) * 2 ^ unitExponent value =
      value := by
    rw [scaled, roundHalfEven_intCast, ← scaled, div_mul_cancel₀ _ (ne_of_gt (unit_pos _))]
  unfold nearest
  dsimp only
  rw [kept, if_pos finite]

/-- Up to 53 binary places in front of a unit. -/
theorem nearest_of_small_multiple {multiple : Nat} (exact : value = multiple * 2 ^ unit)
    (positive : 0 < multiple) (small : multiple ≤ 2 ^ 53) (normal : -1074 ≤ unit)
    (finite : value < 2 ^ 1024) : nearest value = some value := by
  have multipleQ : (0 : Rat) < multiple := by exact_mod_cast positive
  have valuePos : 0 < value := exact ▸ mul_pos multipleQ (unit_pos _)
  have finiteAbs : |value| < 2 ^ 1024 := by rwa [abs_of_pos valuePos]
  rcases Nat.lt_or_eq_of_le small with below | full
  · refine @nearest_of_multiple value unit multiple (by exact_mod_cast exact) ?_ finiteAbs
    refine unitExponent_le valuePos ?_ normal
    have belowQ : (multiple : Rat) < 2 ^ (53 : Int) := by exact_mod_cast below
    rw [exact, add_comm, zpow_add₀ (by norm_num)]
    exact mul_lt_mul_of_pos_right belowQ (unit_pos _)
  · have coarser : value = ((2 ^ 52 : Int) : Rat) * 2 ^ (unit + 1) := by
      rw [exact, full, zpow_add₀ (by norm_num)]
      push_cast
      ring
    refine nearest_of_multiple coarser ?_ finiteAbs
    refine unitExponent_le valuePos ?_ (by omega)
    rw [exact, full, show unit + 1 + 53 = 1 + (53 + unit) by ring, zpow_add₀ (by norm_num),
      zpow_add₀ (by norm_num)]
    have scaled := unit_pos unit
    norm_num
    linarith

/-- Rounding keeps the order. -/
theorem nearest_mono (positive : 0 < value) (le : value ≤ value')
    (isRounded : nearest value = some rounded) (isRounded' : nearest value' = some rounded') :
    rounded ≤ rounded' := by
  rw [nearest_eq_some isRounded, nearest_eq_some isRounded']
  have positive' := lt_of_lt_of_le positive le
  rcases lt_or_eq_of_le (unitExponent_mono positive le) with finer | same
  · -- the rounded numbers are on two sides of a power of two
    have full := significand_le positive
    have half : (2 : Int) ^ 52 ≤ roundHalfEven (value' / 2 ^ unitExponent value') := by
      apply le_roundHalfEven
      have normal : -1074 ≤ unitExponent value := by
        rw [unitExponent_of_pos positive]
        exact le_max_right _ _
      rw [le_div_iff₀ (unit_pos _)]
      refine le_trans (le_of_eq ?_) (unit_le_value positive' (by omega))
      rw [add_comm, zpow_add₀ (by norm_num)]
      push_cast
      norm_num
    calc (roundHalfEven (value / 2 ^ unitExponent value) : Rat) * 2 ^ unitExponent value
        ≤ 2 ^ 53 * 2 ^ unitExponent value :=
          mul_le_mul_of_nonneg_right (by exact_mod_cast full) (le_of_lt (unit_pos _))
      _ = 2 ^ 52 * 2 ^ (unitExponent value + 1) := by
          rw [zpow_add₀ (by norm_num)]
          ring
      _ ≤ 2 ^ 52 * 2 ^ unitExponent value' :=
          mul_le_mul_of_nonneg_left (zpow_le_zpow_right₀ (by norm_num) (by omega)) (by norm_num)
      _ ≤ roundHalfEven (value' / 2 ^ unitExponent value') * 2 ^ unitExponent value' :=
          mul_le_mul_of_nonneg_right (by exact_mod_cast half) (le_of_lt (unit_pos _))
  · rw [same]
    have order := roundHalfEven_mono (div_le_div_of_nonneg_right le (le_of_lt (unit_pos
      (unitExponent value'))))
    exact mul_le_mul_of_nonneg_right (by exact_mod_cast order) (le_of_lt (unit_pos _))

/-- Rounding moves a number by at most half a unit. -/
theorem nearest_error (positive : 0 < value) (small : value < 2 ^ (unit + 53))
    (normal : -1074 ≤ unit) (isRounded : nearest value = some rounded) :
    |rounded - value| ≤ 2 ^ unit / 2 := by
  have step := abs_roundHalfEven_sub_le (value / 2 ^ unitExponent value)
  have finer : (2 : Rat) ^ unitExponent value ≤ 2 ^ unit :=
    zpow_le_zpow_right₀ (by norm_num) (unitExponent_le positive small normal)
  have scaled : rounded - value = (roundHalfEven (value / 2 ^ unitExponent value) -
      value / 2 ^ unitExponent value) * 2 ^ unitExponent value := by
    rw [sub_mul, div_mul_cancel₀ _ (ne_of_gt (unit_pos _)), ← nearest_eq_some isRounded]
  rw [scaled, abs_mul, abs_of_pos (unit_pos _)]
  have bounded := mul_le_mul_of_nonneg_right step (le_of_lt (unit_pos (unitExponent value)))
  linarith

end Units

/-! ## Positive doubles -/

/-- A positive double, by its significand and its unit.  The unit is no smaller
than that of the subnormal numbers; that the value is not too large is said apart.
-/
structure IsDouble (value : Rat) (multiple : Nat) (unit : Int) : Prop where
  exact : value = multiple * 2 ^ unit
  positive : 0 < multiple
  small : multiple ≤ 2 ^ 53
  normal : -1074 ≤ unit

section Doubles

variable {value rounded : Rat} {multiple : Nat} {unit : Int}

theorem lt_finite {bound : Rat} (below : value ≤ bound) (small : bound ≤ 2 ^ 65) :
    value < 2 ^ 1024 := by
  have huge : (2 : Rat) ^ 65 < 2 ^ 1024 := pow_lt_pow_right₀ (by norm_num) (by norm_num)
  exact lt_of_le_of_lt (le_trans below small) huge

theorem IsDouble.nearest (double : IsDouble value multiple unit) (finite : value < 2 ^ 1024) :
    nearest value = some value :=
  nearest_of_small_multiple double.exact double.positive double.small double.normal finite

theorem IsDouble.of_nat {number : Nat} (positive : 0 < number) (small : number ≤ 2 ^ 53) :
    IsDouble number number 0 :=
  ⟨by rw [zpow_zero, mul_one], positive, small, by norm_num⟩

theorem nearest_natCast {number : Nat} (positive : 0 < number) (small : number ≤ 2 ^ 53) :
    Foundations.nearest number = some (number : Rat) := by
  have smallQ : (number : Rat) ≤ 2 ^ 53 := by exact_mod_cast small
  exact (IsDouble.of_nat positive small).nearest (lt_finite smallQ (by norm_num))

/-- What a positive number is rounded to is a double, unless it is zero. -/
theorem isDouble_of_nearest (positive : 0 < value) (positive' : 0 < rounded)
    (isRounded : Foundations.nearest value = some rounded) :
    Exists fun multiple => Exists fun unit => IsDouble rounded multiple unit := by
  have formula := nearest_eq_some isRounded
  have above : 0 < roundHalfEven (value / 2 ^ unitExponent value) := by
    by_contra below
    have order : (roundHalfEven (value / 2 ^ unitExponent value) : Rat) ≤ 0 := by
      exact_mod_cast not_lt.mp below
    have product := mul_nonpos_of_nonpos_of_nonneg order (le_of_lt (unit_pos (unitExponent value)))
    linarith
  have full := significand_le positive
  refine ⟨(roundHalfEven (value / 2 ^ unitExponent value)).toNat, unitExponent value, ?_, by omega,
    by omega, ?_⟩
  · have cast : (((roundHalfEven (value / 2 ^ unitExponent value)).toNat : Int) : Rat) =
        roundHalfEven (value / 2 ^ unitExponent value) := by
      exact_mod_cast Int.toNat_of_nonneg (le_of_lt above)
    rw [← Int.cast_natCast, cast]
    exact formula
  · rw [unitExponent_of_pos positive]
    exact le_max_right _ _

theorem IsDouble.le_zpow (double : IsDouble value multiple unit) : value ≤ 2 ^ (53 + unit) := by
  have multipleQ : (multiple : Rat) ≤ 2 ^ (53 : Int) := by exact_mod_cast double.small
  rw [double.exact, zpow_add₀ (by norm_num)]
  exact mul_le_mul_of_nonneg_right multipleQ (le_of_lt (unit_pos _))

/-- From a power of two on a double is a multiple of the unit 52 places behind. -/
theorem IsDouble.coarse {place : Int} (double : IsDouble value multiple unit)
    (large : 2 ^ (place + 52) ≤ value) :
    Exists fun number : Nat => value = number * 2 ^ place := by
  have bound : (2 : Rat) ^ (place + 52) ≤ 2 ^ (53 + unit) := le_trans large double.le_zpow
  have order := (zpow_le_zpow_iff_right₀ (by norm_num : (1 : Rat) < 2)).mp bound
  rcases lt_or_ge unit place with finer | coarser
  · -- only a full significand reaches the power
    have next : unit = place - 1 := by omega
    have full : multiple = 2 ^ 53 := by
      apply Nat.le_antisymm double.small
      have reached := large
      rw [double.exact, next, show place + 52 = 53 + (place - 1) by ring,
        zpow_add₀ (by norm_num)] at reached
      exact_mod_cast le_of_mul_le_mul_right reached (unit_pos _)
    refine ⟨2 ^ 52, ?_⟩
    rw [double.exact, full, next, zpow_sub₀ (by norm_num)]
    push_cast
    ring
  · refine ⟨multiple * 2 ^ (unit - place).toNat, ?_⟩
    have natural : ((unit - place).toNat : Int) = unit - place := by omega
    push_cast
    rw [double.exact, mul_assoc, ← zpow_natCast, natural, ← zpow_add₀ (by norm_num),
      sub_add_cancel]

/-- A double is an integer over a power of ten. -/
theorem IsDouble.mul_pow_ten {multiple : Nat} {unit : Int} (double : IsDouble value multiple unit)
    {places : Nat} (fine : -(places : Int) ≤ unit) :
    value * 10 ^ places = (multiple * 2 ^ (unit + places).toNat * 5 ^ places : Nat) := by
  have natural : ((unit + places).toNat : Int) = unit + places := by omega
  have ten : (10 : Rat) = 2 * 5 := by norm_num
  push_cast
  rw [double.exact, ten, mul_pow, ← zpow_natCast (2 : Rat) (unit + places).toNat, natural,
    zpow_add₀ (by norm_num), zpow_natCast]
  ring

end Doubles

/-! ## Adding a half

A half is added before a number is truncated, to round it.  The sum is rounded
to a double in between.
-/

section AddHalf

variable {value : Rat} {multiple : Nat} {unit : Int}

/-- A number of halves. -/
theorem nearest_halves {halves : Nat} (positive : 0 < halves) (small : halves ≤ 2 ^ 53)
    (exact : value = halves / 2) : nearest value = some value := by
  refine @nearest_of_small_multiple _ (-1) _ ?_ positive small (by norm_num) ?_
  · rw [exact, zpow_neg_one]
    rfl
  · refine @lt_finite _ (2 ^ 53) ?_ (by norm_num)
    have smallQ : (halves : Rat) ≤ 2 ^ 53 := by exact_mod_cast small
    rw [exact]
    linarith

/-- A double between an integer and the half behind it has a unit below a half. -/
theorem IsDouble.unit_lt_of_between (double : IsDouble value multiple unit) {number : Nat}
    (above : number < value) (below : value < number + 1 / 2) : unit < -1 := by
  by_contra coarse
  have natural : ((unit + 1).toNat : Int) = unit + 1 := by omega
  have halves : value = (multiple * 2 ^ (unit + 1).toNat : Nat) / 2 := by
    push_cast
    rw [double.exact, ← zpow_natCast, natural, zpow_add₀ (by norm_num)]
    ring
  rw [halves] at above below
  have lower : (2 * number : Nat) < ((multiple * 2 ^ (unit + 1).toNat : Nat) : Rat) := by
    push_cast at above ⊢
    linarith
  have upper : ((multiple * 2 ^ (unit + 1).toNat : Nat) : Rat) < (2 * number + 1 : Nat) := by
    push_cast at below ⊢
    linarith
  rw [Nat.cast_lt] at lower upper
  omega

/-- The unit of a double reaches to the next integer. -/
theorem IsDouble.succ_le_zpow (double : IsDouble value multiple unit) {number : Nat}
    (positive : 0 < number) (above : number < value) : (number : Rat) + 1 ≤ 2 ^ (53 + unit) := by
  have bound := double.le_zpow
  have one : (1 : Rat) ≤ number := by exact_mod_cast positive
  have places : 0 < 53 + unit := by
    have order : (2 : Rat) ^ (0 : Int) < 2 ^ (53 + unit) := by
      rw [zpow_zero]
      linarith
    exact (zpow_lt_zpow_iff_right₀ (by norm_num)).mp order
  have power : ((53 + unit).toNat : Int) = 53 + unit := by omega
  rw [← power, zpow_natCast] at bound ⊢
  have order : (number : Rat) < (2 ^ (53 + unit).toNat : Nat) := by
    push_cast
    linarith
  exact_mod_cast Nat.cast_lt.mp order

/-- Such a double leaves room for a half. -/
theorem IsDouble.nearest_add_half_of_between (double : IsDouble value multiple unit) {number : Nat}
    (positive : 0 < number) (above : number < value) (below : value < number + 1 / 2) :
    Foundations.nearest (value + 1 / 2) = some (value + 1 / 2) := by
  have fine := double.unit_lt_of_between above below
  have room := double.succ_le_zpow positive above
  have natural : ((-1 - unit).toNat : Int) = -1 - unit := by omega
  have exact : value + 1 / 2 = (multiple + 2 ^ (-1 - unit).toNat : Nat) * 2 ^ unit := by
    push_cast
    rw [← zpow_natCast, natural, add_mul, ← zpow_add₀ (by norm_num), ← double.exact,
      sub_add_cancel, zpow_neg_one]
    norm_num
  have small : multiple + 2 ^ (-1 - unit).toNat ≤ 2 ^ 53 := by
    have scaled : ((multiple + 2 ^ (-1 - unit).toNat : Nat) : Rat) * 2 ^ unit ≤
        2 ^ (53 : Int) * 2 ^ unit := by
      rw [← exact, ← zpow_add₀ (by norm_num)]
      linarith
    exact_mod_cast le_of_mul_le_mul_right scaled (unit_pos unit)
  refine nearest_of_small_multiple exact (Nat.add_pos_left double.positive _) small double.normal ?_
  have power : (2 : Rat) ^ (53 + unit) ≤ 2 ^ (53 : Int) :=
    zpow_le_zpow_right₀ (by norm_num) (by omega)
  refine @lt_finite _ (2 ^ (53 : Int)) (by linarith) ?_
  norm_num

/-- Below `2 ^ 52` the truncated sum is the one without rounding, except where the
sum is carried up to the next integer. -/
theorem nearest_add_half (double : IsDouble value multiple unit) (large : 1 / 2 ≤ value)
    (small : value < 2 ^ 52) :
    Exists fun sum => nearest (value + 1 / 2) = some sum ∧ ⌊sum⌋ = ⌊value + 1 / 2⌋ := by
  have sumLarge : 1 ≤ value + 1 / 2 := by linarith
  rcases Int.eq_ofNat_of_zero_le (Int.floor_nonneg.mpr (le_trans zero_le_one sumLarge))
    with ⟨number, isFloor⟩
  have bounds := Int.floor_eq_iff.mp isFloor
  have positive : 0 < number := by
    have order : (1 : Int) ≤ ⌊value + 1 / 2⌋ := Int.le_floor.mpr (by exact_mod_cast sumLarge)
    omega
  rw [Int.cast_natCast] at bounds
  by_cases coarse : 2 ^ 51 ≤ value
  · -- both numbers are numbers of halves
    rcases @IsDouble.coarse _ _ _ (-1) double (by norm_num at coarse ⊢; exact coarse)
      with ⟨halves, exact⟩
    rw [zpow_neg_one] at exact
    have few : halves < 2 ^ 53 := by
      have order : (halves : Rat) < (2 ^ 53 : Nat) := by
        push_cast
        linarith
      exact_mod_cast order
    refine ⟨_, nearest_halves (Nat.succ_pos halves) few ?_, rfl⟩
    push_cast
    rw [exact]
    ring
  by_cases above : number < value
  · exact ⟨_, double.nearest_add_half_of_between positive above (by linarith), rfl⟩
  -- the sum is held between the integer and the half behind it
  have few : 2 * number + 1 ≤ 2 ^ 53 := by
    have order : (number : Rat) < (2 ^ 51 + 1 : Nat) := by
      push_cast
      linarith
    have natural := Nat.cast_lt.mp order
    omega
  have lower : nearest number = some (number : Rat) := nearest_natCast positive (by omega)
  have upper : nearest ((number : Rat) + 1 / 2) = some ((number : Rat) + 1 / 2) := by
    refine nearest_halves (Nat.succ_pos (2 * number)) few ?_
    push_cast
    ring
  rcases nearest_near sumLarge (by norm_num at small ⊢; linarith) with ⟨sum, isSum, -⟩
  have low := nearest_mono (by exact_mod_cast positive) bounds.1 lower isSum
  have high := nearest_mono (lt_of_lt_of_le zero_lt_one sumLarge) (by linarith) isSum upper
  refine ⟨sum, isSum, ?_⟩
  rw [isFloor]
  exact Int.floor_eq_iff.mpr ⟨by exact_mod_cast low, by push_cast; linarith⟩

/-- Then the sum lies between two integers, and is rounded to the even one, so
that adding a half to an integer changes it half of the time. -/
theorem nearest_add_half_middle {number : Nat} (large : 2 ^ 52 ≤ number)
    (small : number < 2 ^ 53) :
    nearest ((number : Rat) + 1 / 2) =
      some (if number % 2 = 0 then (number : Rat) else number + 1) := by
  have largeQ : (4503599627370496 : Rat) ≤ number := by exact_mod_cast large
  have smallQ : (number : Rat) + 1 ≤ 2 ^ 53 := by exact_mod_cast small
  have positive : (0 : Rat) < number + 1 / 2 := by positivity
  have unitZero : unitExponent ((number : Rat) + 1 / 2) = 0 := by
    apply le_antisymm
    · refine unitExponent_le positive ?_ (by norm_num)
      norm_num at smallQ ⊢
      linarith
    · have log : 52 ≤ Int.log 2 ((number : Rat) + 1 / 2) := by
        apply (Int.zpow_le_iff_le_log (b := 2) (by norm_num) positive).mp
        norm_num
        linarith
      rw [unitExponent_of_pos positive]
      omega
  have floor : ⌊(number : Rat) + 1 / 2⌋ = (number : Int) := by
    rw [Int.floor_eq_iff, Int.cast_natCast]
    constructor <;> linarith
  have rounds : (roundHalfEven ((number : Rat) + 1 / 2) : Rat) =
      if number % 2 = 0 then (number : Rat) else number + 1 := by
    unfold roundHalfEven
    dsimp only
    rw [floor, Int.cast_natCast, add_sub_cancel_left, if_neg (lt_irrefl _), if_neg (lt_irrefl _)]
    by_cases even : number % 2 = 0
    · rw [if_pos even, if_pos (by omega), Int.cast_natCast]
    · rw [if_neg even, if_neg (by omega)]
      push_cast
      rfl
  unfold nearest
  dsimp only
  rw [unitZero, zpow_zero, div_one, mul_one, rounds]
  apply if_pos
  have positiveSum : (0 : Rat) ≤ if number % 2 = 0 then (number : Rat) else number + 1 := by
    split <;> positivity
  rw [abs_of_nonneg positiveSum]
  refine @lt_finite _ (2 ^ 53) ?_ (by norm_num)
  split <;> linarith

/-- From `2 ^ 53` on the half is lost. -/
theorem nearest_add_half_large (double : IsDouble value multiple unit) (large : 2 ^ 53 ≤ value)
    (small : value < 2 ^ 64) : nearest (value + 1 / 2) = some value := by
  have positive : 0 < value + 1 / 2 := by
    norm_num at large
    linarith
  rcases @IsDouble.coarse _ _ _ 0 double (by norm_num at large ⊢; linarith) with ⟨number, integral⟩
  rw [zpow_zero, mul_one] at integral
  have log : 53 ≤ Int.log 2 (value + 1 / 2) := by
    apply (Int.zpow_le_iff_le_log (b := 2) (by norm_num) positive).mp
    norm_num at large ⊢
    linarith
  have normal : 1 ≤ unitExponent (value + 1 / 2) := by
    rw [unitExponent_of_pos positive]
    omega
  generalize isUnit : unitExponent (value + 1 / 2) = place at normal
  have reached : 2 ^ (place + 52) ≤ value := by
    have reached := unit_le_value positive (by omega)
    have natural : ((place + 52).toNat : Int) = place + 52 := by omega
    rw [isUnit, ← natural, zpow_natCast, integral] at reached
    rw [← natural, zpow_natCast, integral]
    have order : ((2 ^ (place + 52).toNat : Nat) : Rat) < (number + 1 : Nat) := by
      push_cast
      linarith
    exact_mod_cast Nat.lt_succ_iff.mp (Nat.cast_lt.mp order)
  rcases double.coarse reached with ⟨significand, exact⟩
  have unit := unit_pos place
  have two : (2 : Rat) ≤ 2 ^ place := by
    calc (2 : Rat) = 2 ^ (1 : Int) := (zpow_one 2).symm
      _ ≤ 2 ^ place := zpow_le_zpow_right₀ (by norm_num) normal
  have quarter : 1 / 2 / 2 ^ place ≤ (1 : Rat) / 4 := by
    rw [div_le_iff₀ unit]
    linarith
  have scaled : (value + 1 / 2) / 2 ^ place = significand + 1 / 2 / 2 ^ place := by
    rw [exact, add_div, mul_div_cancel_right₀ _ (ne_of_gt unit)]
  have nonneg : (0 : Rat) ≤ 1 / 2 / 2 ^ place := by positivity
  have floor : ⌊(significand : Rat) + 1 / 2 / 2 ^ place⌋ = (significand : Int) := by
    rw [Int.floor_eq_iff, Int.cast_natCast]
    constructor <;> linarith
  have rounds : roundHalfEven ((significand : Rat) + 1 / 2 / 2 ^ place) = (significand : Int) := by
    unfold roundHalfEven
    dsimp only
    rw [floor, Int.cast_natCast, add_sub_cancel_left, if_pos (by linarith)]
  unfold nearest
  dsimp only
  rw [isUnit, scaled, rounds, Int.cast_natCast, ← exact]
  apply if_pos
  rw [abs_of_pos (by linarith)]
  exact lt_finite (le_of_lt small) (by norm_num)

end AddHalf
end Foundations
end NexusHft
