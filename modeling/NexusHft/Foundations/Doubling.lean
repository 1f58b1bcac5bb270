import Mathlib.Order.Bounds.Basic
import Mathlib.Algebra.Order.Ring.Nat
import Mathlib.Tactic.Linarith

namespace NexusHft
namespace Foundations

/-!
# Doubling a capacity on demand

A capacity starts at a base and is doubled whenever it is asked for one more than
it is.  After any such demands it has been doubled as often as the largest of them
needs and no more, so it is less than twice what was asked for.
-/

/-- The least number of doublings of a base that makes room for a demand. -/
def Doublings (base demand count : Nat) : Prop :=
  IsLeast (fun k => demand ≤ base * 2 ^ k) count

namespace Doublings

variable {base demand demand' count : Nat}

theorem fits (doublings : Doublings base demand count) : demand ≤ base * 2 ^ count :=
  doublings.1

/-- Without a demand nothing is doubled. -/
theorem nothing (base : Nat) : Doublings base 0 0 :=
  ⟨Nat.zero_le _, fun _ _ => Nat.zero_le _⟩

/-- A larger demand that there is room for needs no doubling. -/
theorem within (doublings : Doublings base demand count) (more : demand ≤ demand')
    (room : demand' ≤ base * 2 ^ count) : Doublings base demand' count :=
  ⟨room, fun _ fits => doublings.2 (Nat.le_trans more fits)⟩

/-- A demand for one more than the capacity doubles it once. -/
theorem double (positive : 0 < base) (count : Nat) :
    Doublings base (base * 2 ^ count + 1) (count + 1) := by
  constructor
  · have some : 0 < base * 2 ^ count := by positivity
    change base * 2 ^ count + 1 ≤ base * 2 ^ (count + 1)
    rw [pow_succ]
    linarith
  · intro k fits
    by_contra fewer
    have bounded : base * 2 ^ k ≤ base * 2 ^ count :=
      Nat.mul_le_mul_left base (Nat.pow_le_pow_right Nat.two_pos (by omega))
    have needs : base * 2 ^ count + 1 ≤ base * 2 ^ k := fits
    omega

/-- The base is doubled exactly when it has no room for the demand. -/
theorem ne_zero_iff (doublings : Doublings base demand count) : count ≠ 0 <-> base < demand := by
  constructor
  · intro doubled
    by_contra room
    have least : count ≤ 0 := doublings.2 (show demand ≤ base * 2 ^ 0 by simpa using room)
    omega
  · rintro larger rfl
    have room := doublings.fits
    simp at room
    omega

/-- What is doubled at all is less than twice the demand. -/
theorem lt_twice (doublings : Doublings base demand count) (doubled : count ≠ 0) :
    base * 2 ^ count < 2 * demand := by
  cases count with
  | zero => exact absurd rfl doubled
  | succ before =>
      have tight : base * 2 ^ before < demand := by
        by_contra room
        have least : before + 1 ≤ before := doublings.2 (Nat.le_of_not_lt room)
        omega
      rw [pow_succ]
      linarith

end Doublings
end Foundations
end NexusHft
