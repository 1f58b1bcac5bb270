import Mathlib.Data.Nat.Bitwise

namespace NexusHft
namespace Foundations

/-!
# Positions of a ring

A position counts the items that have gone by; its slot is the position modulo
the capacity.  A ring of capacity `2 ^ k` advances a slot with a bit mask.
Positions of one window, at most a capacity long, have different slots, so a
comparison of two slots decides a comparison of positions.
-/

variable {capacity : Nat}

/-- Advancing a slot with the mask advances the position. -/
theorem next_slot {k position : Nat} :
    (position % 2 ^ k + 1) &&& (2 ^ k - 1) = (position + 1) % 2 ^ k := by
  rw [Nat.and_two_pow_sub_one_eq_mod]
  exact Nat.mod_add_mod position (2 ^ k) 1

/-- Two positions of one window with the same slot are the same. -/
theorem same_position {start first second : Nat} (firstIn : start ≤ first)
    (firstEnd : first < start + capacity) (secondIn : start ≤ second)
    (secondEnd : second < start + capacity) (same : first % capacity = second % capacity) :
    first = second := by
  have ordered : forall low high, low ≤ high -> high < low + capacity ->
      low % capacity = high % capacity -> low = high := by
    intro low high le near equal
    have apart := Nat.sub_mod_eq_zero_of_mod_eq equal.symm
    rw [Nat.mod_eq_of_lt (by omega)] at apart
    omega
  rcases Nat.le_total first second with le | ge
  · exact ordered first second le (by omega) same
  · exact (ordered second first ge (by omega) same.symm).symm

/-- A ring is full when the slot after the last position is the first one. -/
theorem full_iff {first last : Nat} (le : first ≤ last) (room : last < first + capacity) :
    (last + 1) % capacity = first % capacity <-> last + 1 = first + capacity := by
  constructor
  · intro same
    by_contra notFull
    have equal := @same_position capacity first (last + 1) first (by omega) (by omega)
      (Nat.le_refl first) (by omega) same
    omega
  · intro full
    rw [full]
    exact Nat.add_mod_right first capacity

/-- Two slots determine the distance of their positions. -/
theorem slot_distance {first last : Nat} (le : first ≤ last) (room : last < first + capacity) :
    (last % capacity + capacity - first % capacity) % capacity = last - first := by
  have slot := Nat.mod_lt first (show 0 < capacity by omega)
  have near : last - first < capacity := by omega
  have ahead : last % capacity = (first % capacity + (last - first)) % capacity := by
    rw [Nat.mod_add_mod, Nat.add_sub_of_le le]
  generalize last - first = distance at near ahead
  generalize first % capacity = slot' at slot ahead
  rw [ahead]
  rcases Nat.lt_or_ge (slot' + distance) capacity with within | wraps
  · have further : slot' + distance + capacity - slot' = distance + capacity := by omega
    rw [Nat.mod_eq_of_lt within, further, Nat.add_mod_right, Nat.mod_eq_of_lt near]
  · have back : slot' + distance - capacity + capacity - slot' = distance := by omega
    rw [Nat.mod_eq_sub_mod wraps, Nat.mod_eq_of_lt (by omega : slot' + distance - capacity < capacity),
      back, Nat.mod_eq_of_lt near]

end Foundations
end NexusHft
