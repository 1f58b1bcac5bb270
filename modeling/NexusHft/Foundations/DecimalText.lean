import Mathlib.Data.Nat.Digits.Lemmas
import Mathlib.Data.List.TakeWhile

namespace NexusHft
namespace Foundations

/-!
# Decimal text

Digits, their value, and the text of a number.  `scanDigits` reads the longest
run of digits; the text of a number is such a run, has the number as its value,
and begins with a zero only if it is the text of zero.  A number is therefore
at least ten times the value of any proper beginning of its text.
-/

abbrev Text := List Char

def isDigit (char : Char) : Bool := 48 ≤ char.toNat && char.toNat ≤ 57

def scanDigits (input : Text) : Text × Text := input.span isDigit

def digitsValue (digits : Text) : Nat :=
  digits.foldl (fun value digit => 10 * value + (digit.toNat - 48)) 0

def digitChar (digit : Nat) : Char := Char.ofNat (48 + digit)

/-- The text of a number, most significant digit first. -/
def digits (value : Nat) : Text :=
  if value = 0 then ['0'] else ((Nat.digits 10 value).map digitChar).reverse

/-! ## Scanning -/

theorem digitChar_toNat {digit : Nat} (small : digit < 10) : (digitChar digit).toNat = 48 + digit := by
  interval_cases digit <;> rfl

theorem isDigit_digitChar {digit : Nat} (small : digit < 10) : isDigit (digitChar digit) = true := by
  interval_cases digit <;> rfl

theorem isDigit_of_mem_digits {value : Nat} {char : Char} (member : char ∈ digits value) :
    isDigit char = true := by
  unfold digits at member
  split at member
  · rw [List.mem_singleton.mp member]
    rfl
  · rcases List.mem_map.mp (List.mem_reverse.mp member) with ⟨digit, listed, same⟩
    rw [← same]
    exact isDigit_digitChar (Nat.digits_lt_base (by norm_num) listed)

theorem digits_ne_nil (value : Nat) : digits value ≠ [] := by
  unfold digits
  split
  · exact List.cons_ne_nil _ _
  · rename_i nonzero
    intro empty
    rw [List.reverse_eq_nil_iff, List.map_eq_nil_iff, Nat.digits_eq_nil_iff_eq_zero] at empty
    exact nonzero empty

/-- Every character is of a class. -/
def Within (inside : Char -> Bool) (run : Text) : Prop :=
  forall char, char ∈ run -> inside char = true

theorem within_of_all {inside : Char -> Bool} {run : Text} (all : run.all inside = true) :
    Within inside run :=
  List.all_eq_true.mp all

/-- The text is over, or goes on with a character that is not of the class. -/
def Halts (inside : Char -> Bool) (rest : Text) : Prop :=
  forall char, rest.head? = some char -> inside char = false

/-- A span is the one division of a text at the end of a class. -/
theorem span_iff {inside : Char -> Bool} {input run rest : Text} :
    input.span inside = (run, rest) <->
      input = run ++ rest ∧ Within inside run ∧ Halts inside rest := by
  rw [List.span_eq_takeWhile_dropWhile]
  constructor
  · intro same
    cases same
    refine ⟨List.takeWhile_append_dropWhile.symm, fun _ => List.mem_takeWhile_imp, ?_⟩
    intro char first
    have stops := List.head?_dropWhile_not inside input
    rw [first] at stops
    exact stops
  · rintro ⟨same, all, stops⟩
    rw [same, List.takeWhile_append_of_pos all, List.dropWhile_append_of_pos all]
    cases rest with
    | nil => rw [List.takeWhile_nil, List.dropWhile_nil, List.append_nil]
    | cons char rest =>
        have halt : ¬ inside char = true := by
          rw [stops char rfl]
          exact Bool.false_ne_true
        rw [List.takeWhile_cons_of_neg halt, List.dropWhile_cons_of_neg halt, List.append_nil]

theorem scanDigits_spec (input : Text) :
    input = (scanDigits input).1 ++ (scanDigits input).2 ∧ Within isDigit (scanDigits input).1 ∧
      Halts isDigit (scanDigits input).2 :=
  span_iff.mp rfl

/-- A run of digits ends where something else begins. -/
theorem scanDigits_append {run rest : Text} (all : forall char, char ∈ run -> isDigit char = true)
    (stops : forall char, rest.head? = some char -> isDigit char = false) :
    scanDigits (run ++ rest) = (run, rest) :=
  span_iff.mpr ⟨rfl, all, stops⟩

/-! ## Values -/

theorem digitsValue_append (front back : Text) :
    digitsValue (front ++ back) = 10 ^ back.length * digitsValue front + digitsValue back := by
  have shifted : forall (run : Text) (start : Nat),
      run.foldl (fun value digit => 10 * value + (digit.toNat - 48)) start =
        10 ^ run.length * start + digitsValue run := by
    intro run
    induction run using List.reverseRecOn with
    | nil => simp [digitsValue]
    | append_singleton run digit inductionHypothesis =>
        intro start
        rw [digitsValue, List.foldl_append, List.foldl_append, List.length_append,
          inductionHypothesis start, inductionHypothesis 0]
        simp only [List.foldl_cons, List.foldl_nil, List.length_singleton, pow_succ]
        ring
  rw [digitsValue, List.foldl_append, shifted]
  rfl

theorem digitsValue_digits (value : Nat) : digitsValue (digits value) = value := by
  have all : forall places : List Nat, (forall digit, digit ∈ places -> digit < 10) ->
      digitsValue (places.map digitChar).reverse = Nat.ofDigits 10 places := by
    intro places small
    induction places with
    | nil => rfl
    | cons digit places inductionHypothesis =>
        have rest := inductionHypothesis (fun other member => small other (List.mem_cons_of_mem _ member))
        rw [List.map_cons, List.reverse_cons, digitsValue_append, rest, Nat.ofDigits_cons]
        have here : digitsValue [digitChar digit] = digit := by
          simp [digitsValue, digitChar_toNat (small digit List.mem_cons_self)]
        rw [here, List.length_singleton, pow_one]
        ring
  unfold digits
  split
  · rename_i zero
    rw [zero]
    rfl
  · rw [all _ (fun digit member => Nat.digits_lt_base (by norm_num) member), Nat.ofDigits_digits]

/-- Only zero begins with a zero. -/
theorem digits_head_ne_zero {value : Nat} {first second : Char} {rest : Text}
    (text : digits value = first :: second :: rest) : first ≠ '0' := by
  unfold digits at text
  split at text
  · cases text
  · rename_i nonzero
    have notNil : Nat.digits 10 value ≠ [] := Nat.digits_ne_nil_iff_ne_zero.mpr nonzero
    have last := Nat.getLast_digit_ne_zero 10 nonzero
    have small : (Nat.digits 10 value).getLast notNil < 10 :=
      Nat.digits_lt_base (by norm_num) (List.getLast_mem notNil)
    have head : first = digitChar ((Nat.digits 10 value).getLast notNil) := by
      have heads := congrArg List.head? text
      rw [List.head?_reverse, List.getLast?_map, List.getLast?_eq_getLast_of_ne_nil notNil] at heads
      exact (Option.some.inj heads).symm
    intro isZero
    rw [head] at isZero
    have code := congrArg Char.toNat isZero
    rw [digitChar_toNat small] at code
    have zero : '0'.toNat = 48 := rfl
    omega

/-- A proper beginning of the text of a number is worth at most a tenth of it. -/
theorem digitsValue_proper_prefix {value : Nat} {front back : Text}
    (text : digits value = front ++ back) (begun : front ≠ []) (unfinished : back ≠ []) :
    10 * digitsValue front ≤ value ∧ 0 < value := by
  have whole := digitsValue_digits value
  rw [text, digitsValue_append] at whole
  rcases List.exists_cons_of_ne_nil begun with ⟨first, restFront, isFront⟩
  rcases List.exists_cons_of_ne_nil unfinished with ⟨last, restBack, isBack⟩
  constructor
  · rw [isBack, List.length_cons, pow_succ] at whole
    have positive : 1 ≤ 10 ^ restBack.length := Nat.one_le_pow _ _ (by norm_num)
    have scaled := Nat.mul_le_mul_right (10 * digitsValue front) positive
    rw [← isBack] at whole
    nlinarith
  · by_contra zero
    have isZero : value = 0 := by omega
    rw [isZero] at text
    have short := congrArg List.length text
    rw [isFront, isBack] at short
    simp [digits] at short

/-! ## Parts of a run -/

theorem digits_length {value places : Nat} (lower : 10 ^ (places - 1) ≤ value)
    (upper : value < 10 ^ places) : (digits value).length = places := by
  have positive : 0 < value := lt_of_lt_of_le (Nat.pow_pos (by norm_num)) lower
  rw [digits, if_neg (by omega), List.length_reverse, List.length_map]
  apply Nat.le_antisymm ((Nat.digits_length_le_iff (by norm_num) value).mpr upper)
  rcases Nat.eq_zero_or_pos places with zero | some
  · omega
  · have longer := (Nat.lt_digits_length_iff (by norm_num) value).mpr lower
    omega

theorem digitsValue_lt {run : Text} (all : forall char, char ∈ run -> isDigit char = true) :
    digitsValue run < 10 ^ run.length := by
  induction run with
  | nil => exact one_pos
  | cons char run inductionHypothesis =>
      have rest := inductionHypothesis fun other member => all other (List.mem_cons_of_mem _ member)
      have digit := all char List.mem_cons_self
      simp only [isDigit, Bool.and_eq_true, decide_eq_true_eq] at digit
      have here : digitsValue [char] ≤ 9 := by
        simp only [digitsValue, List.foldl_cons, List.foldl_nil]
        omega
      rw [← List.singleton_append, digitsValue_append, List.length_append, List.length_singleton,
        pow_add, pow_one]
      have scaled := Nat.mul_le_mul_left (10 ^ run.length) here
      omega

/-- The first digits of a number are its quotient by a power of ten. -/
theorem digitsValue_take {run : Text} (all : forall char, char ∈ run -> isDigit char = true)
    (count : Nat) : digitsValue (run.take count) = digitsValue run / 10 ^ (run.drop count).length := by
  have small : digitsValue (run.drop count) < 10 ^ (run.drop count).length :=
    digitsValue_lt fun char member => all char (List.mem_of_mem_drop member)
  have whole : digitsValue run = 10 ^ (run.drop count).length * digitsValue (run.take count) +
      digitsValue (run.drop count) := by
    rw [← digitsValue_append, List.take_append_drop]
  rw [whole, Nat.mul_add_div (Nat.pow_pos (by norm_num)), Nat.div_eq_of_lt small, add_zero]

theorem digitsValue_zeros (count : Nat) : digitsValue (List.replicate count '0') = 0 := by
  induction count with
  | zero => rfl
  | succ count inductionHypothesis =>
      rw [List.replicate_succ, ← List.singleton_append, digitsValue_append, inductionHypothesis]
      rfl

end Foundations
end NexusHft
