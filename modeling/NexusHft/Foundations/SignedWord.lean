import Mathlib.Tactic.Linarith

namespace NexusHft
namespace Foundations

/-!
# Signed words within their range

Arithmetic of signed words of 64 bits wraps around.  It is that of the integers
where the result is in the range of a word; the least word is left out of it, so
that every word in range has its magnitude in range.
-/

def InWord (value : Int) : Prop := -2 ^ 63 < value ∧ value < 2 ^ 63

variable {a b : Int64}

theorem bmod_of_inWord {value : Int} (inWord : InWord value) : value.bmod (2 ^ 64) = value := by
  unfold InWord at inWord
  apply Int.bmod_eq_of_le <;> omega

theorem toInt_add_inWord (inWord : InWord (a.toInt + b.toInt)) :
    (a + b).toInt = a.toInt + b.toInt := by
  rw [Int64.toInt_add, bmod_of_inWord inWord]

/-- Only the sum has to be in range, not what is added. -/
theorem toInt_add_ofInt {value : Int} (inWord : InWord (a.toInt + value)) :
    (a + Int64.ofInt value).toInt = a.toInt + value := by
  rw [Int64.toInt_add, Int64.toInt_ofInt]
  exact Int.add_bmod_bmod.trans (bmod_of_inWord inWord)

theorem toInt_ofInt_inWord {value : Int} (inWord : InWord value) :
    (Int64.ofInt value).toInt = value :=
  Int64.toInt_ofInt.trans (bmod_of_inWord inWord)

theorem toInt_neg_inWord (inWord : InWord a.toInt) : (-a).toInt = -a.toInt := by
  rw [Int64.toInt_neg, bmod_of_inWord ⟨Int.neg_lt_neg inWord.2, Int.neg_lt_of_neg_lt inWord.1⟩]

theorem toInt_abs_inWord (inWord : InWord a.toInt) : a.abs.toInt = |a.toInt| := by
  have notLeast : a.toBitVec ≠ BitVec.intMin 64 := by
    intro least
    have value : a.toInt = -2 ^ 63 := congrArg BitVec.toInt least
    rw [value] at inWord
    exact Int.lt_irrefl _ inWord.1
  have magnitude : a.abs.toInt = a.toInt.natAbs := BitVec.toInt_abs_eq_natAbs_of_ne_intMin notLeast
  rw [magnitude, Int.natCast_natAbs]

theorem toInt_min (a b : Int64) : (min a b).toInt = min a.toInt b.toInt := by
  by_cases le : a ≤ b
  · rw [show min a b = a from if_pos le, Int.min_eq_left (Int64.le_iff_toInt_le.mp le)]
  · have other : b.toInt ≤ a.toInt := by
      rw [Int64.le_iff_toInt_le] at le
      exact Int.le_of_not_le le
    rw [show min a b = b from if_neg le, Int.min_eq_right other]

theorem eq_zero_iff_toInt : a = 0 <-> a.toInt = 0 := Int64.toInt_inj.symm

theorem pos_iff_toInt : a > 0 <-> a.toInt > 0 := Int64.lt_iff_toInt_lt

theorem neg_iff_toInt : a < 0 <-> a.toInt < 0 := Int64.lt_iff_toInt_lt

/-! ## Opposite words -/

theorem word_trichotomy (a : Int64) : a < 0 ∨ a = 0 ∨ a > 0 := by
  rw [neg_iff_toInt, eq_zero_iff_toInt, pos_iff_toInt]
  exact lt_trichotomy a.toInt 0

theorem not_pos_of_neg_word (negative : a < 0) : ¬ a > 0 := by
  rw [neg_iff_toInt] at negative
  rw [pos_iff_toInt]
  exact not_lt.mpr negative.le

theorem not_neg_of_pos_word (positive : a > 0) : ¬ a < 0 :=
  fun negative => not_pos_of_neg_word negative positive

theorem neg_word_eq_zero_iff : -a = 0 <-> a = 0 := by
  rw [← Int64.neg_inj, Int64.neg_neg, Int64.neg_zero]

theorem neg_word_add (a b : Int64) : -a + -b = -(a + b) := by
  rw [Int64.neg_add, Int64.sub_eq_add_neg]

/-- Only the least word is out of range. -/
theorem inWord_of_ne_minValue (notLeast : a ≠ Int64.minValue) : InWord a.toInt := by
  have lower := Int64.le_toInt a
  have upper := Int64.toInt_lt a
  have other : a.toInt ≠ -2 ^ 63 := by
    intro least
    exact notLeast (Int64.toInt_inj.mp least)
  unfold InWord
  omega

section Opposite

variable (notLeast : a ≠ Int64.minValue)
include notLeast

theorem neg_word_pos_iff : -a > 0 <-> a < 0 := by
  rw [pos_iff_toInt, neg_iff_toInt, toInt_neg_inWord (inWord_of_ne_minValue notLeast)]
  exact Left.neg_pos_iff

theorem neg_word_neg_iff : -a < 0 <-> a > 0 := by
  rw [pos_iff_toInt, neg_iff_toInt, toInt_neg_inWord (inWord_of_ne_minValue notLeast)]
  exact Left.neg_neg_iff

theorem neg_ne_minValue : -a ≠ Int64.minValue := by
  intro least
  have inWord := inWord_of_ne_minValue notLeast
  have value := toInt_neg_inWord inWord
  rw [least] at value
  unfold InWord at inWord
  change (-2 ^ 63 : Int) = -a.toInt at value
  omega

theorem abs_neg_word : (-a).abs = a.abs := by
  have inWord := inWord_of_ne_minValue notLeast
  have negated := inWord_of_ne_minValue (neg_ne_minValue notLeast)
  rw [← Int64.toInt_inj, toInt_abs_inWord negated, toInt_abs_inWord inWord,
    toInt_neg_inWord inWord, abs_neg]

theorem abs_of_neg_word (negative : a < 0) : a.abs = -a := by
  have inWord := inWord_of_ne_minValue notLeast
  rw [← Int64.toInt_inj, toInt_abs_inWord inWord, toInt_neg_inWord inWord,
    abs_of_neg (neg_iff_toInt.mp negative)]

end Opposite

theorem abs_of_pos_word (positive : a > 0) : a.abs = a := by
  have notLeast : a ≠ Int64.minValue := fun least => absurd (least ▸ positive) (by decide)
  rw [← Int64.toInt_inj, toInt_abs_inWord (inWord_of_ne_minValue notLeast),
    abs_of_pos (pos_iff_toInt.mp positive)]

/-- An unsigned word that is small enough is itself as a signed one. -/
theorem toInt_toInt64 {word : UInt64} (small : word.toNat < 2 ^ 63) :
    word.toInt64.toInt = word.toNat := by
  have value : word.toInt64.toInt = word.toBitVec.toInt := rfl
  rw [value, BitVec.toInt_eq_toNat_of_lt]
  · rfl
  · have bits : word.toBitVec.toNat = word.toNat := rfl
    omega

end Foundations
end NexusHft
