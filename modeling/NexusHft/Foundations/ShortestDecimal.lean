import Mathlib.Algebra.Order.Field.Power
import Mathlib.Data.Int.Log
import Mathlib.Data.Rat.Floor
import Mathlib.Tactic.FieldSimp
import Mathlib.Tactic.Linarith
import Mathlib.Tactic.Positivity

namespace NexusHft
namespace Foundations

/-!
# Shortest decimals

A number format prints a value by the shortest decimal that is rounded back to
it, by the nearer one if two decimals are equally short, and by the even one if
both are equally near.  Only the two decimals next to the value can be the
nearest ones of their length.

The format is a rounding function.  A value that the format keeps, and that is
an integer over a power of ten, always has such a decimal: at worst the decimal
is the value itself.
-/

/-- A positive number `significand * 10 ^ (point - places)`: the places of the
significand stand behind a point that is then moved. -/
structure Decimal where
  significand : Nat
  places : Nat
  point : Int
  lower : 10 ^ (places - 1) ≤ significand
  upper : significand < 10 ^ places

namespace Decimal

def value (decimal : Decimal) : Rat :=
  decimal.significand * (10 : Rat) ^ (decimal.point - decimal.places)

def of? (significand places : Nat) (point : Int) : Option Decimal :=
  if inside : 10 ^ (places - 1) ≤ significand ∧ significand < 10 ^ places then
    some ⟨significand, places, point, inside.1, inside.2⟩
  else none

/-- A power of ten needs a place less than its successor has. -/
def carried? (significand places : Nat) (point : Int) : Option Decimal :=
  if significand = 10 ^ places then of? (10 ^ (places - 1)) places (point + 1)
  else of? significand places point

end Decimal

/-- The numbers next to a value, the nearer one first, or the even one if the
value is in the middle. -/
def nearerFirst (scaled : Rat) : List Nat :=
  let below := ⌊scaled⌋₊
  let belowFirst := scaled - below < below + 1 - scaled ∨
    (scaled - below = below + 1 - scaled ∧ below % 2 = 0)
  if belowFirst then [below, below + 1] else [below + 1, below]

theorem mem_nearerFirst (number : Nat) : number ∈ nearerFirst number := by
  unfold nearerFirst
  rw [Nat.floor_natCast]
  dsimp only
  split <;> simp

/-- `1 - 2 ^ -17` in the middle between two decimals of sixteen places. -/
example : nearerFirst (9999923706054687 + 1 / 2) = [9999923706054688, 9999923706054687] := by
  decide +kernel

/-- The decimals of some places next to a value, the nearer one first. -/
def decimals (value : Rat) (places : Nat) : List Decimal :=
  let point := Int.log 10 value + 1
  (nearerFirst (value / 10 ^ (point - places))).filterMap fun significand =>
    Decimal.carried? significand places point

section Shortest

variable (round : Rat -> Option Rat)

def ofPlaces (value : Rat) (places : Nat) : Option Decimal :=
  (decimals value places).find? fun decimal => round decimal.value = some value

/-- The decimal a value is printed by, if the value is a multiple of
`10 ^ -resolution`. -/
def shortest (resolution : Nat) (value : Rat) : Option Decimal :=
  (List.range' 1 (Int.log 10 value + 1 + resolution).toNat).findSome? (ofPlaces round value)

end Shortest

namespace Decimal

variable (decimal : Decimal)

theorem places_pos : 0 < decimal.places := by
  by_contra none
  have zero : decimal.places = 0 := by omega
  have lower := decimal.lower
  have upper := decimal.upper
  rw [zero] at lower upper
  omega

theorem significand_pos : 0 < decimal.significand :=
  lt_of_lt_of_le (Nat.pow_pos (by norm_num)) decimal.lower

theorem value_pos : 0 < decimal.value := by
  have significand : (0 : Rat) < decimal.significand := by exact_mod_cast decimal.significand_pos
  unfold value
  positivity

/-- The value is below the power of ten at the point. -/
theorem value_lt : decimal.value < 10 ^ decimal.point := by
  have upper : (decimal.significand : Rat) < 10 ^ (decimal.places : Int) := by
    rw [zpow_natCast]
    exact_mod_cast decimal.upper
  calc decimal.value
      < 10 ^ (decimal.places : Int) * 10 ^ (decimal.point - decimal.places) :=
        mul_lt_mul_of_pos_right upper (by positivity)
    _ = 10 ^ decimal.point := by
        rw [← zpow_add₀ (by norm_num)]
        congr 1
        omega

theorem le_value : 10 ^ (decimal.point - 1) ≤ decimal.value := by
  have positive := decimal.places_pos
  have lower : (10 : Rat) ^ ((decimal.places : Int) - 1) ≤ decimal.significand := by
    have natural : (decimal.places : Int) - 1 = ((decimal.places - 1 : Nat) : Int) := by omega
    rw [natural, zpow_natCast]
    exact_mod_cast decimal.lower
  calc (10 : Rat) ^ (decimal.point - 1)
      = 10 ^ ((decimal.places : Int) - 1) * 10 ^ (decimal.point - decimal.places) := by
        rw [← zpow_add₀ (by norm_num)]
        congr 1
        omega
    _ ≤ decimal.value := mul_le_mul_of_nonneg_right lower (by positivity)

/-- Where the point is, seen from a bound that is a power of ten. -/
theorem value_lt_zpow_iff (exponent : Int) :
    decimal.value < 10 ^ exponent <-> decimal.point ≤ exponent := by
  constructor
  · intro below
    have powers := lt_of_le_of_lt decimal.le_value below
    have order := (zpow_lt_zpow_iff_right₀ (by norm_num : (1 : Rat) < 10)).mp powers
    omega
  · intro order
    exact lt_of_lt_of_le decimal.value_lt (zpow_le_zpow_right₀ (by norm_num) order)

/-- A decimal whose places all stand in front of the point is an integer. -/
theorem value_of_integral (integral : (decimal.places : Int) ≤ decimal.point) :
    decimal.value =
      (decimal.significand * 10 ^ (decimal.point - decimal.places).toNat : Nat) := by
  push_cast
  rw [value, ← zpow_natCast, Int.toNat_of_nonneg (sub_nonneg.mpr integral)]

variable {decimal}

theorem of?_eq_some {significand places : Nat} {point : Int}
    (made : of? significand places point = some decimal) :
    decimal.significand = significand ∧ decimal.places = places ∧ decimal.point = point := by
  unfold of? at made
  split at made
  · cases made
    exact ⟨rfl, rfl, rfl⟩
  · cases made

theorem carried?_eq_some {significand places : Nat} {point : Int}
    (made : carried? significand places point = some decimal) :
    decimal.places = places ∧ (decimal.point = point ∨ decimal.point = point + 1) := by
  unfold carried? at made
  split at made
  · exact ⟨(of?_eq_some made).2.1, .inr (of?_eq_some made).2.2⟩
  · exact ⟨(of?_eq_some made).2.1, .inl (of?_eq_some made).2.2⟩

end Decimal

section Search

variable {round : Rat -> Option Rat} {value : Rat} {places resolution : Nat} {decimal : Decimal}

theorem ofPlaces_spec (found : ofPlaces round value places = some decimal) :
    round decimal.value = some value ∧ decimal.places = places ∧
      (decimal.point = Int.log 10 value + 1 ∨ decimal.point = Int.log 10 value + 2) := by
  have rounds := List.find?_some found
  rcases List.mem_filterMap.mp (List.mem_of_find?_eq_some found) with ⟨significand, -, made⟩
  rcases Decimal.carried?_eq_some made with ⟨samePlaces, point⟩
  refine ⟨of_decide_eq_true rounds, samePlaces, ?_⟩
  rw [add_assoc] at point
  exact point

/-- A value that is itself a decimal of some places is found at these places. -/
theorem ofPlaces_isSome {significand : Nat} (positive : 0 < value)
    (kept : round value = some value)
    (exact : value = significand * 10 ^ (Int.log 10 value + 1 - places)) (some : 0 < places) :
    (ofPlaces round value places).isSome := by
  have unit : (0 : Rat) < 10 ^ (Int.log 10 value + 1 - places) := by positivity
  have scaled : value / 10 ^ (Int.log 10 value + 1 - places) = significand :=
    (div_eq_iff (ne_of_gt unit)).mpr exact
  have lower : 10 ^ (places - 1) ≤ significand := by
    have log := Int.zpow_log_le_self (b := 10) (by norm_num) positive
    have quotient := div_le_div_of_nonneg_right log (le_of_lt unit)
    rw [scaled, Nat.cast_ofNat, ← zpow_sub₀ (by norm_num),
      show Int.log 10 value - (Int.log 10 value + 1 - places) = ((places - 1 : Nat) : Int) by omega,
      zpow_natCast] at quotient
    exact_mod_cast quotient
  have upper : significand < 10 ^ places := by
    have log := Int.lt_zpow_succ_log_self (b := 10) (by norm_num) value
    have quotient := div_lt_div_of_pos_right log unit
    rw [scaled, Nat.cast_ofNat, ← zpow_sub₀ (by norm_num),
      show Int.log 10 value + 1 - (Int.log 10 value + 1 - places) = (places : Int) by omega,
      zpow_natCast] at quotient
    exact_mod_cast quotient
  have listed : Decimal.mk significand places (Int.log 10 value + 1) lower upper ∈
      decimals value places := by
    unfold decimals
    dsimp only
    rw [scaled]
    refine List.mem_filterMap.mpr ⟨significand, mem_nearerFirst significand, ?_⟩
    rw [Decimal.carried?, if_neg (ne_of_lt upper), Decimal.of?, dif_pos ⟨lower, upper⟩]
  refine List.find?_isSome.mpr ⟨_, listed, ?_⟩
  rw [decide_eq_true_eq, Decimal.value, ← exact]
  exact kept

/-- The printed decimal is rounded back to the value, and has its magnitude. -/
theorem shortest_spec (found : shortest round resolution value = some decimal) :
    round decimal.value = some value ∧
      (decimal.point = Int.log 10 value + 1 ∨ decimal.point = Int.log 10 value + 2) := by
  rcases List.exists_of_findSome?_eq_some found with ⟨places, -, atPlaces⟩
  have spec := ofPlaces_spec atPlaces
  exact ⟨spec.1, spec.2.2⟩

/-- No decimal that is found has fewer places. -/
theorem shortest_places_le (found : shortest round resolution value = some decimal)
    (also : (ofPlaces round value places).isSome) (some : 0 < places) : decimal.places ≤ places := by
  rcases List.findSome?_eq_some_iff.mp found with ⟨before, here, after, range, atHere, others⟩
  rw [(ofPlaces_spec atHere).2.1]
  by_contra longer
  have listed : places ∈ before := by
    have inRange : here ∈ List.range' 1 (Int.log 10 value + 1 + resolution).toNat := by
      rw [range]
      exact List.mem_append_right _ List.mem_cons_self
    have shorter : places ∈ List.range' 1 (Int.log 10 value + 1 + resolution).toNat := by
      rw [List.mem_range'_1] at inRange ⊢
      omega
    rw [range] at shorter
    rcases List.mem_append.mp shorter with listed | late
    · exact listed
    · have sorted := (List.pairwise_append.mp (range ▸ List.pairwise_lt_range')).2.1
      rcases List.mem_cons.mp late with same | late
      · omega
      · have order := (List.pairwise_cons.mp sorted).1 places late
        omega
  rw [others places listed] at also
  exact Bool.noConfusion also

/-- A value that the format keeps and its resolution reaches is printed. -/
theorem shortest_exists {multiple : Nat} (positive : 0 < value) (kept : round value = some value)
    (reached : value * 10 ^ resolution = multiple) :
    Exists fun decimal => shortest round resolution value = some decimal := by
  have nonzero : 1 ≤ multiple := by
    have scaled : (0 : Rat) < multiple := by
      rw [← reached]
      positivity
    exact_mod_cast scaled
  have large : (10 : Rat) ^ (-(resolution : Int)) ≤ value := by
    rw [zpow_neg, zpow_natCast, inv_le_iff_one_le_mul₀ (by positivity), reached]
    exact_mod_cast nonzero
  have order : -(resolution : Int) ≤ Int.log 10 value :=
    (Int.zpow_le_iff_le_log (by norm_num) positive).mp (by exact_mod_cast large)
  have exact : value = multiple * 10 ^ (Int.log 10 value + 1 -
      ((Int.log 10 value + 1 + resolution).toNat : Int)) := by
    rw [← reached, show Int.log 10 value + 1 - ((Int.log 10 value + 1 + resolution).toNat : Int) =
      -(resolution : Int) by omega, zpow_neg, zpow_natCast]
    field_simp
  have found := ofPlaces_isSome positive kept exact (by omega)
  apply Option.isSome_iff_exists.mp
  rw [shortest, List.findSome?_isSome_iff]
  exact ⟨_, List.mem_range'_1.mpr ⟨by omega, by omega⟩, found⟩

/-- An integer is printed without places behind the point. -/
theorem shortest_natCast {number : Nat} (positive : 0 < value) (kept : round value = some value)
    (integral : value = number) (found : shortest round resolution value = some decimal) :
    (decimal.places : Int) ≤ decimal.point := by
  have one : (1 : Rat) ≤ value := by
    rw [integral] at positive ⊢
    exact_mod_cast positive
  have order : 0 ≤ Int.log 10 value :=
    (Int.zpow_le_iff_le_log (by norm_num) positive).mp (by simpa using one)
  have exact : value = number * 10 ^ (Int.log 10 value + 1 -
      ((Int.log 10 value + 1).toNat : Int)) := by
    rw [show Int.log 10 value + 1 - ((Int.log 10 value + 1).toNat : Int) = 0 by omega, zpow_zero,
      mul_one]
    exact integral
  have few := shortest_places_le found (ofPlaces_isSome positive kept exact (by omega)) (by omega)
  have point := (shortest_spec found).2
  omega

end Search
end Foundations
end NexusHft
